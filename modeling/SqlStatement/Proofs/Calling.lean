import SqlStatement.Proofs.Remembering
import SqlStatement.Query.Read

/-!
# Calls that fail

A query is reached from a statement by calls and questions, those that fail
included. Its memo is sound, so a call that fails has changed nothing that can
be asked for: replacements, fragments, values and subqueries are as they were,
and every question has the answer it had before.
-/
namespace SqlStatement

namespace Edit
variable {α : Type} {q : Query}

/-- What an edit may do to a query: the memo stays sound, and if the edit fails nothing but the
memo differs. -/
def IsSafe (x : Edit α) (q : Query) : Prop :=
  match x.run q with
  | .ok _ p => p.Sound
  | .error _ p => p.Sound ∧ p = q.withMemo p.memo

theorem IsSafe.sound_left {x : Edit α} (hx : x.IsSafe q) : (x.left q).Sound := by
  rw [IsSafe] at hx
  rw [left]
  cases hr : x.run q with
  | ok a p =>
      rw [hr] at hx
      exact hx
  | error e p =>
      rw [hr] at hx
      exact hx.1

theorem IsReading.isSafe {x : Edit α} (hx : x.IsReading q) (hq : q.Sound) : x.IsSafe q := by
  obtain ⟨m, hm, ⟨a, run⟩ | ⟨e, run⟩⟩ := hx.run_cases hq
  · rw [IsSafe, run]
    exact hm
  · rw [IsSafe, run]
    exact ⟨hm, rfl⟩

/-- A mutation can fail while its change is worked out or while its part is looked up, and both
are readings. -/
theorem isSafe_mutate (m : Mutation) (hq : q.Sound) : (mutate m).IsSafe q := by
  obtain ⟨memo, h, run | ⟨c, run⟩ | ⟨e, run⟩⟩ := run_mutate_cases m hq
  · rw [IsSafe, run]
    exact ⟨h.base, h.composed, h.written⟩
  · rw [IsSafe, run]
    exact c.sound_applied h
  · rw [IsSafe, run]
    exact ⟨h, rfl⟩

theorem run_subquery {β : Type} (number : Nat) (edit : Query → β × Query) (q : Query) :
    (Edit.subquery number edit).run q =
      match q.subquery number with
      | .ok sub => .ok (edit sub).1 { q with
          attached := q.attached.filter (fun p => p.1 ≠ number) ++ [(number, (edit sub).2)]
          memo := {} }
      | .error e => .error e q := by
  rw [Edit.subquery, run_get_bind, run_bind]
  cases q.subquery number <;> rfl

theorem isSafe_subquery {β : Type} (number : Nat) (edit : Query → β × Query) (hq : q.Sound) :
    (Edit.subquery number edit).IsSafe q := by
  rw [IsSafe, run_subquery]
  cases q.subquery number with
  | ok sub => exact Query.sound_empty { q with attached := _ }
  | error e => exact ⟨hq, q.withMemo_self.symm⟩

/-- A part is read off the parts with all changes. -/
theorem reads_readParts (reader : Parts → Except Error α) (q : Query) :
    (readParts reader).Reads q (q.compose >>= reader) :=
  (reads_parts q).bind fun ps => reads_ofExcept (reader ps)

theorem reads_rows (q : Query) :
    Edit.rows.Reads q (q.compose >>= splitRows q.settings.dialect) :=
  .get fun _ => reads_readParts (splitRows q.settings.dialect) q

theorem reads_columns (q : Query) :
    Edit.columns.Reads q (q.compose >>= splitColumns q.settings.dialect) :=
  .get fun _ => reads_readParts (splitColumns q.settings.dialect) q

theorem reads_assignmentValues (q : Query) :
    Edit.assignmentValues.Reads q (q.compose >>= splitAssignmentValues q.settings.dialect) :=
  .get fun _ => reads_readParts (splitAssignmentValues q.settings.dialect) q

end Edit

/-- A question to a query, with the type of its answer. -/
inductive Reader : Type → Type where
  | sql : Reader Text
  | parts : Reader Parts
  | count (allRows : Bool) : Reader Query
  | tables : Reader (OrderedMap Text Text)
  | columns : Reader (List Text)
  | assignments : Reader (OrderedMap Text Text)
  | assignmentValues : Reader (OrderedMap Text Value)
  | rows : Reader (List (List Text))
  | rowValues : Reader (List (List Value))
  | rowLimit : Reader RowLimit
  | subquery (number : Nat) : Reader Query

/-- Asks a query. -/
def Reader.run : {α : Type} → Reader α → Edit α
  | _, sql => Edit.toSql
  | _, parts => Edit.parts
  | _, count allRows => Edit.count allRows
  | _, tables => Edit.tables
  | _, columns => Edit.columns
  | _, assignments => Edit.assignments
  | _, assignmentValues => Edit.assignmentValues
  | _, rows => Edit.rows
  | _, rowValues => Edit.rowValues
  | _, rowLimit => Edit.rowLimit
  | _, subquery number => do Edit.ofExcept ((← get).subquery number)

theorem Reader.isReading {α : Type} (r : Reader α) (q : Query) : r.run.IsReading q := by
  cases r with
  | sql => exact ⟨_, Edit.reads_toSql q⟩
  | parts => exact ⟨_, Edit.reads_parts q⟩
  | count allRows =>
      exact .get fun m => (Edit.reads_readParts (countStatement q.settings · allRows) q).bind
        fun t => Edit.reads_ofExcept (.ok (Query.ofStatement q.settings t))
  | tables => exact .get fun m => Edit.reads_readParts (splitTables q.settings) q
  | columns => exact ⟨_, Edit.reads_columns q⟩
  | assignments => exact .get fun m => Edit.reads_readParts (splitAssignments q.settings.dialect) q
  | assignmentValues => exact ⟨_, Edit.reads_assignmentValues q⟩
  | rows => exact ⟨_, Edit.reads_rows q⟩
  | rowValues => exact .get fun m => Edit.reads_readParts (splitRowValues q.settings.dialect) q
  | rowLimit => exact ⟨_, Edit.reads_readParts _ q⟩
  | subquery number => exact .get fun m => Edit.reads_ofExcept (q.subquery number)

/-- A question leaves the query but for its memo. -/
theorem Reader.left_eq {α : Type} (r : Reader α) {q : Query} (hq : q.Sound) :
    ∃ memo, (q.withMemo memo).Sound ∧ Edit.left r.run q = q.withMemo memo := by
  obtain ⟨memo, sound, ⟨a, run⟩ | ⟨e, run⟩⟩ := (r.isReading q).run_cases hq
  · exact ⟨memo, sound, by rw [Edit.left, run]⟩
  · exact ⟨memo, sound, by rw [Edit.left, run]⟩

/-- A call that is meant to change a query. A subquery is taken out and edited in any way. -/
inductive Call where
  | mutate (m : Mutation)
  | subquery (number : Nat) (edit : Query → Query)

/-- Makes a call. -/
def Call.run : Call → Edit Unit
  | mutate m => Edit.mutate m
  | subquery number edit => Edit.subquery number fun sub => ((), edit sub)

theorem Call.isSafe (c : Call) {q : Query} (hq : q.Sound) : c.run.IsSafe q := by
  cases c with
  | mutate m => exact Edit.isSafe_mutate m hq
  | subquery number edit => exact Edit.isSafe_subquery number (fun sub => ((), edit sub)) hq

namespace Query

/-- A subquery that is taken out is one of those that an extraction finds. -/
theorem detach_eq_ok {s : Settings} {t : Text} {number : Nat} {sub : Query}
    (h : (ofStatement s t).detach number = .ok sub) :
    ∃ e u, Subquery.extract s t = .ok e ∧ 0 < number ∧ e.subqueries[number - 1]? = some u ∧
      sub = ofStatement s (Subquery.inject s.dialect (u :: e.subqueries)) := by
  simp only [detach, ofStatement, bind, Except.bind, throw, throwThe, MonadExceptOf.throw] at h
  cases he : Subquery.extract s t with
  | error e => simp [he] at h
  | ok e =>
      by_cases h₀ : number = 0
      · simp [he, h₀] at h
      · cases hq : e.subqueries[number - 1]? with
        | none => simp [he, h₀, hq] at h
        | some u =>
            simp only [he, h₀, hq, pure, Except.pure, if_false, Except.ok.injEq] at h
            exact ⟨e, u, rfl, Nat.pos_of_ne_zero h₀, hq, h.symm⟩

/-- The queries that any calls and questions lead to, whether they fail or not. -/
inductive Reachable : Query → Prop
  | start (s : Settings) (t : Text) : Reachable (ofStatement s t)
  | call {q : Query} (c : Call) (h : Reachable q) : Reachable (Edit.left c.run q)
  | read {q : Query} {α : Type} (r : Reader α) (h : Reachable q) : Reachable (Edit.left r.run q)

theorem Reachable.sound {q : Query} (h : q.Reachable) : q.Sound := by
  induction h with
  | start s t => exact sound_empty (ofStatement s t)
  | call c h ih => exact (c.isSafe ih).sound_left
  | read r h ih => exact ((r.isReading _).isSafe ih).sound_left

/-- A call that fails leaves everything that was recorded, and every question has the answer that
it had before. -/
theorem Reachable.failed_call {q q' : Query} {e : Error} (h : q.Reachable) (c : Call)
    (he : c.run.run q = .error e q') :
    (q'.replacements = q.replacements ∧ q'.additions = q.additions ∧
      q'.parameters = q.parameters ∧ q'.attached = q.attached) ∧
      ∀ {α : Type} (r : Reader α), r.run.answer q' = r.run.answer q := by
  have safe := c.isSafe h.sound
  rw [Edit.IsSafe, he] at safe
  obtain ⟨sound, same⟩ := safe
  refine ⟨by rw [same]; exact ⟨rfl, rfl, rfl, rfl⟩, fun r => ?_⟩
  obtain ⟨a, ha⟩ := r.isReading q
  rw [same] at sound ⊢
  rw [ha.answer sound, ha.answer_self h.sound]

/-- A page is refused where no row count is known, with a column added before. -/
theorem failed_call_page :
    let q := Edit.left (Call.mutate (.columns ["b".toList] {})).run
      (ofStatement {} "SELECT a FROM t".toList)
    let c := Call.mutate (.page 2 none)
    c.run.answer q = .error .unknownRowCount ∧ (Edit.left c.run q).additions = q.additions ∧
      Reader.sql.run.answer (Edit.left c.run q) = .ok "SELECT a, `b` FROM t".toList := by
  intro q c
  have refused : c.run.answer q = .error .unknownRowCount := by decide +kernel
  have kept := Reachable.failed_call (.call _ (.start _ _)) c (Edit.run_of_answer refused)
  refine ⟨refused, kept.1.2.1, ?_⟩
  rw [kept.2]
  decide +kernel

end Query
end SqlStatement
