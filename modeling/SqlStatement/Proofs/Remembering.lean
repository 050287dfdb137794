import Mathlib.Tactic.Common
import SqlStatement.Query.Mutation

/-!
# What a query remembers

The memo of a query is sound if it holds nothing but what would be worked out
again. A reading is an edit that may fill a sound memo and touches nothing
else, so its answer does not depend on what is remembered. A mutation reads
first: it works out its change and asks for the part. What it records afterwards
cannot fail, and takes along only the part of the memo that no change concerns.
-/
namespace SqlStatement

namespace Query

/-- The query with another memo. -/
def withMemo (q : Query) (m : Memo) : Query := { q with memo := m }

theorem withMemo_self (q : Query) : q.withMemo q.memo = q := by
  cases q
  rfl

/-- The memo holds what would be worked out of the query again. -/
structure Sound (q : Query) : Prop where
  base : ∀ ps, q.memo.base = some ps → q.baseParts = .ok ps
  composed : ∀ ps, q.memo.composed = some ps → q.compose = .ok ps
  written : ∀ t, q.memo.written = some t → q.compose.map Parts.join = .ok t

theorem sound_empty (q : Query) : (q.withMemo {}).Sound where
  base := by simp [withMemo]
  composed := by simp [withMemo]
  written := by simp [withMemo]

theorem render_eq (q : Query) : q.render = q.baseText >>= q.finish := by
  obtain ⟨statement, settings, replacements, additions, parameters, attached, memo⟩ := q
  rw [render]
  rfl

/-- A query with replacements or fragments is written from its parts. -/
theorem render_of_isMutated {q : Query} (h : q.isMutated = true) :
    q.render = q.compose.map Parts.join >>= fun t => .ok (q.bound t) := by
  rw [render_eq, compose, baseParts]
  cases q.baseText with
  | error e => rfl
  | ok t =>
      simp only [finish, if_pos h, bind, Except.bind, Except.map, pure, Except.pure]
      cases split q.settings t with
      | error e => rfl
      | ok base =>
          dsimp only
          cases q.composeFrom base <;> rfl

/-- A query without them is the statement with its subqueries. -/
theorem render_of_not_isMutated {q : Query} (h : ¬q.isMutated = true) :
    q.render = q.baseText >>= fun t => .ok (q.bound t) := by
  rw [render_eq]
  congr 1
  funext t
  rw [finish, if_neg h]
  rfl

end Query

namespace Edit
variable {α β : Type} {q : Query}

/-- What an edit answers, without the query it leaves. -/
def answer (x : Edit α) (q : Query) : Except Error α :=
  match x.run q with
  | .ok a _ => .ok a
  | .error e _ => .error e

/-- The query that an edit leaves, also if it fails. -/
def left (x : Edit α) (q : Query) : Query :=
  match x.run q with
  | .ok _ q | .error _ q => q

theorem run_of_answer {x : Edit α} {e : Error} (h : x.answer q = .error e) :
    x.run q = .error e (x.left q) := by
  rw [answer] at h
  rw [left]
  cases hr : x.run q with
  | ok a p => simp [hr] at h
  | error e' p =>
      rw [hr] at h
      cases h
      rfl

theorem run_of_answer_ok {x : Edit α} {a : α} (h : x.answer q = .ok a) :
    x.run q = .ok a (x.left q) := by
  rw [answer] at h
  rw [left]
  cases hr : x.run q with
  | error e p => simp [hr] at h
  | ok a' p =>
      rw [hr] at h
      cases h
      rfl

theorem run_bind (x : Edit α) (y : α → Edit β) (q : Query) :
    (x >>= y).run q =
      match x.run q with
      | .ok a q => (y a).run q
      | .error e q => .error e q := by
  simp only [EStateM.run, bind, EStateM.bind]
  cases x q <;> rfl

theorem run_get_bind (y : Query → Edit α) (q : Query) :
    (get >>= y : Edit α).run q = (y q).run q := rfl

theorem run_remember (keep : Memo → Memo) (q : Query) (m : Memo) :
    (remember keep).run (q.withMemo m) =
      .ok () (if q.attached.isEmpty then q.withMemo (keep m) else q.withMemo m) := rfl

/-- Whatever a query remembers, an edit answers `r` and leaves the query with a sound memo. -/
def Reads (x : Edit α) (q : Query) (r : Except Error α) : Prop :=
  ∀ m, (q.withMemo m).Sound →
    ∃ m', (q.withMemo m').Sound ∧ x.run (q.withMemo m) = (ofExcept r).run (q.withMemo m')

theorem reads_ofExcept (r : Except Error α) : (ofExcept r).Reads q r := fun m hm => ⟨m, hm, rfl⟩

theorem Reads.answer {x : Edit α} {r : Except Error α} (hx : x.Reads q r) {m : Memo}
    (hm : (q.withMemo m).Sound) : x.answer (q.withMemo m) = r := by
  obtain ⟨m', -, run⟩ := hx m hm
  rw [Edit.answer, run]
  cases r <;> rfl

theorem Reads.answer_self {x : Edit α} {r : Except Error α} (hx : x.Reads q r) (hq : q.Sound) :
    x.answer q = r := by
  rw [← q.withMemo_self] at hq ⊢
  exact hx.answer hq

theorem Reads.bind {x : Edit α} {r : Except Error α} {y : α → Edit β} {s : α → Except Error β}
    (hx : x.Reads q r) (hy : ∀ a, (y a).Reads q (s a)) : (x >>= y).Reads q (r >>= s) := by
  intro m hm
  obtain ⟨m₁, h₁, run₁⟩ := hx m hm
  rw [run_bind, run₁]
  cases r with
  | error e => exact ⟨m₁, h₁, rfl⟩
  | ok a => exact hy a m₁ h₁

theorem Reads.get {y : Query → Edit α} {r : Except Error α}
    (hy : ∀ m, (y (q.withMemo m)).Reads q r) : (MonadState.get >>= y : Edit α).Reads q r :=
  fun m hm => hy m m hm

/-- Looking an answer up in the memo first, and keeping it there, is a reading too. -/
theorem Reads.memoized {x y : Edit α} {r : Except Error α} (hit : Memo → Option α)
    (keep : α → Memo → Memo) (hx : x.Reads q r)
    (known : ∀ q a, hit q.memo = some a → y.run q = .ok a q)
    (new : ∀ q, hit q.memo = none →
      y.run q = (x >>= fun a => remember (keep a) >>= fun _ => pure a).run q)
    (hit_eq : ∀ m a, (q.withMemo m).Sound → hit m = some a → r = .ok a)
    (sound_keep : ∀ m a, (q.withMemo m).Sound → r = .ok a → (q.withMemo (keep a m)).Sound) :
    y.Reads q r := by
  intro m hm
  cases hc : hit m with
  | some a =>
      rw [known _ a hc, hit_eq m a hm hc]
      exact ⟨m, hm, rfl⟩
  | none =>
      obtain ⟨m₁, h₁, run₁⟩ := hx m hm
      rw [new _ hc, run_bind, run₁]
      cases r with
      | error e => exact ⟨m₁, h₁, rfl⟩
      | ok a =>
          change ∃ m', _ ∧ (remember (keep a) >>= fun _ => pure a).run (q.withMemo m₁) = _
          rw [run_bind, run_remember]
          by_cases ha : q.attached.isEmpty = true
          · rw [if_pos ha]
            exact ⟨keep a m₁, sound_keep m₁ a h₁ rfl, rfl⟩
          · rw [if_neg ha]
            exact ⟨m₁, h₁, rfl⟩

theorem reads_baseParts (q : Query) : Edit.baseParts.Reads q q.baseParts := by
  have worked : (MonadState.get >>= fun p => ofExcept p.baseParts : Edit Parts).Reads q
      q.baseParts := .get fun m => reads_ofExcept q.baseParts
  refine worked.memoized Memo.base (fun ps m => { m with base := some ps })
    (fun q ps h => ?_) (fun q h => ?_) (fun m ps hm h => hm.base ps h) fun m ps hm h => ?_
  · rw [Edit.baseParts, run_get_bind, h]
    rfl
  · rw [Edit.baseParts, run_get_bind, h]
    rfl
  · refine ⟨?_, hm.composed, hm.written⟩
    rintro ps ⟨⟩
    exact h

theorem reads_parts (q : Query) : Edit.parts.Reads q q.compose := by
  have worked : (MonadState.get >>= fun p => Edit.baseParts >>= fun base =>
      ofExcept (p.composeFrom base) : Edit Parts).Reads q q.compose :=
    .get fun m => (reads_baseParts q).bind fun base => reads_ofExcept (q.composeFrom base)
  refine worked.memoized Memo.composed (fun ps m => { m with composed := some ps })
    (fun q ps h => ?_) (fun q h => ?_) (fun m ps hm h => hm.composed ps h) fun m ps hm h => ?_
  · rw [Edit.parts, run_get_bind, h]
    rfl
  · rw [Edit.parts, run_get_bind, h]
    simp only [bind_assoc]
    rfl
  · refine ⟨hm.base, ?_, hm.written⟩
    rintro ps ⟨⟩
    exact h

theorem reads_written (q : Query) : Edit.written.Reads q (q.compose.map Parts.join) := by
  have worked : (Edit.parts >>= fun ps => ofExcept (.ok (Parts.join ps))).Reads q
      (q.compose.map Parts.join) := (reads_parts q).bind fun ps => reads_ofExcept _
  refine worked.memoized Memo.written (fun t m => { m with written := some t })
    (fun q t h => ?_) (fun q h => ?_) (fun m t hm h => hm.written t h) fun m t hm h => ?_
  · rw [Edit.written, run_get_bind, h]
    rfl
  · rw [Edit.written, run_get_bind, h]
    simp only [bind_assoc]
    rfl
  · refine ⟨hm.base, hm.composed, ?_⟩
    rintro t ⟨⟩
    exact h

theorem reads_toSql (q : Query) : Edit.toSql.Reads q q.render := by
  refine .get fun m => ?_
  change (if q.isMutated then Edit.written >>= fun t => ofExcept (.ok (q.bound t))
    else ofExcept q.baseText >>= fun t => ofExcept (.ok (q.bound t)) : Edit Text).Reads q _
  by_cases hm : q.isMutated = true
  · rw [if_pos hm, Query.render_of_isMutated hm]
    exact (reads_written q).bind fun t => reads_ofExcept _
  · rw [if_neg hm, Query.render_of_not_isMutated hm]
    exact (reads_ofExcept _).bind fun t => reads_ofExcept _

theorem reads_requirePart (q : Query) (key : String) :
    (requirePart key).Reads q (do
      let base ← q.baseParts
      unless base.contains key do
        throw (.missingPart (StatementType.shown q.type?) (.part key))) := by
  refine (reads_baseParts q).bind fun base => .get fun m => ?_
  split
  · exact reads_ofExcept (.ok ())
  · exact reads_ofExcept (.error _)

/-- An edit that leaves the query as it is, apart from the memo. -/
def IsReading (x : Edit α) (q : Query) : Prop := ∃ r, x.Reads q r

theorem isReading_ofExcept (r : Except Error α) : (ofExcept r).IsReading q :=
  ⟨r, reads_ofExcept r⟩

theorem IsReading.bind {x : Edit α} {y : α → Edit β} (hx : x.IsReading q)
    (hy : ∀ a, (y a).IsReading q) : (x >>= y).IsReading q := by
  obtain ⟨r, hr⟩ := hx
  choose s hs using hy
  exact ⟨_, hr.bind hs⟩

theorem IsReading.get {y : Query → Edit α} {r : Except Error α}
    (hy : ∀ m, (y (q.withMemo m)).Reads q r) : (MonadState.get >>= y : Edit α).IsReading q :=
  ⟨r, .get hy⟩

/-- A reading leaves a query that differs in its memo alone, whether it fails or not. -/
theorem IsReading.run_cases {x : Edit α} (hx : x.IsReading q) (hq : q.Sound) :
    ∃ m, (q.withMemo m).Sound ∧
      ((∃ a, x.run q = .ok a (q.withMemo m)) ∨ ∃ e, x.run q = .error e (q.withMemo m)) := by
  obtain ⟨r, hr⟩ := hx
  obtain ⟨m, hm, run⟩ := hr q.memo (q.withMemo_self.symm ▸ hq)
  rw [Query.withMemo_self] at run
  refine ⟨m, hm, ?_⟩
  cases r with
  | ok a => exact .inl ⟨a, run⟩
  | error e => exact .inr ⟨e, run⟩

end Edit

namespace Mutation

/-- Whether the change of a mutation depends on the statement alone. A page without a row count
and the update of all inserted columns look at the changes made before. -/
def IsSteady : Mutation → Prop
  | page _ none | updateInserted => False
  | _ => True

theorem pageChange_some (page count : UInt64) :
    pageChange page (some count) =
      Edit.ofExcept (if count = 0 then .ok (Change.ofLimit 0 0) else Change.ofPage page count) := by
  by_cases hc : count = 0
  · rw [if_pos hc, hc]
    rfl
  · rw [if_neg hc, pageChange]
    exact hc

/-- An edit that looks at the query and then only works something out answers with that. -/
theorem answer_of_worked_out {α β : Type} {x : Edit β} {c : Query → Except Error α} {f : α → β}
    (hx : x = MonadState.get >>= fun q => Edit.ofExcept (c q) >>= fun a => pure (f a))
    (q : Query) : x.answer q = (c q).map f := by
  rw [hx, Edit.answer, Edit.run_get_bind]
  cases c q <;> rfl

/-- An edit that looks at the query and then only works something out leaves it alone. -/
theorem run_of_worked_out {α β : Type} {x : Edit β} {c : Query → Except Error α} {f : α → β}
    (hx : x = MonadState.get >>= fun q => Edit.ofExcept (c q) >>= fun a => pure (f a))
    {p q : Query} (h : c p = c q) : x.run p = (Edit.ofExcept (x.answer q)).run p := by
  rw [hx, Edit.answer, Edit.run_get_bind, Edit.run_get_bind, h]
  cases c q <;> rfl

/-- A steady mutation makes the same change to all queries with one statement, and works it out
without touching them. -/
theorem run_change?_of_base {m : Mutation} (hm : m.IsSteady) {p q : Query} (h : p.base = q.base) :
    m.change?.run p = (Edit.ofExcept (m.change?.answer q)).run p := by
  obtain ⟨statement, settings, replacements, additions, parameters, attached, memo⟩ := p
  obtain ⟨statement', settings', replacements', additions', parameters', attached', memo'⟩ := q
  obtain ⟨rfl, rfl⟩ : statement = statement' ∧ settings = settings' := by
    simpa [Query.base, Query.ofStatement] using h
  cases m with
  | table | columns | columnAs | assign | assignText | groupBy | orderBy | updateInsertedColumns
  | updateAssign | filter | filterAll | having => exact run_of_worked_out rfl rfl
  | rows | rowText | limit | limitText | options | bind | bindNamed => rfl
  | page number count =>
      cases count with
      | none => exact hm.elim
      | some count =>
          have plain : (page number (some count)).change? = MonadState.get >>= fun _ =>
              pageChange number (some count) >>= fun c => pure (some c) := rfl
          rw [pageChange_some] at plain
          exact run_of_worked_out plain rfl
  | updateInserted => exact hm.elim

theorem isReading_pageChange (number : UInt64) (count : Option UInt64) (q : Query) :
    (pageChange number count).IsReading q := by
  cases count with
  | some count =>
      rw [pageChange_some]
      exact Edit.isReading_ofExcept _
  | none =>
      refine .bind ⟨_, Edit.reads_parts q⟩ fun ps => ?_
      dsimp only
      split
      · exact Edit.isReading_ofExcept (.error _)
      · exact Edit.isReading_ofExcept _

theorem isReading_updateInsertedChange (q : Query) : updateInsertedChange.IsReading q := by
  refine .bind ⟨_, Edit.reads_requirePart q _⟩ fun _ => ?_
  have body : (if ((q.additions.get? Query.duplicateKey).getD {}).append.contains
        Query.updateMarker then pure none
      else do
        if (Parts.text (← Edit.parts) Query.duplicateKey).isEmpty then
          return some ⟨Query.duplicateKey, [(.append, Query.updateMarker)]⟩
        else return none : Edit (Option Change)).IsReading q := by
    split
    · exact Edit.isReading_ofExcept (.ok none)
    · refine .bind ⟨_, Edit.reads_parts q⟩ fun ps => ?_
      split
      · exact Edit.isReading_ofExcept (.ok _)
      · exact Edit.isReading_ofExcept (.ok _)
  obtain ⟨r, hr⟩ := body
  exact .get fun m => hr

/-- Working out a change is a reading. -/
theorem isReading_change? (m : Mutation) (q : Query) : m.change?.IsReading q := by
  by_cases hm : m.IsSteady
  · exact ⟨m.change?.answer q, fun memo h => ⟨memo, h, run_change?_of_base hm rfl⟩⟩
  · cases m with
    | page number count =>
        obtain ⟨r, hr⟩ := (isReading_pageChange number count q).bind fun c =>
          Edit.isReading_ofExcept (.ok (some c))
        exact .get fun _ => hr
    | updateInserted =>
        obtain ⟨r, hr⟩ := isReading_updateInsertedChange q
        exact .get fun _ => hr
    | _ => exact absurd trivial hm

end Mutation

namespace Query

/-- Recording fragments leaves the statement, the subqueries and the values for placeholders. -/
theorem unchanged_foldl_record (part : String) (fragments : List (Placement × Text)) (q : Query) :
    (fragments.foldl (record part) q).base = q.base ∧
      (fragments.foldl (record part) q).attached = q.attached ∧
      (fragments.foldl (record part) q).parameters = q.parameters := by
  induction fragments generalizing q with
  | nil => exact ⟨rfl, rfl, rfl⟩
  | cons f fragments ih =>
      rw [List.foldl_cons]
      obtain ⟨_ | _ | _, t⟩ := f <;> exact ih _

/-- Recording fragments changes nothing that the parts of the statement depend on. -/
theorem baseParts_foldl_record (part : String) (fragments : List (Placement × Text)) (q : Query) :
    (fragments.foldl (record part) q).baseParts = q.baseParts := by
  induction fragments generalizing q with
  | nil => rfl
  | cons f fragments ih =>
      rw [List.foldl_cons, ih]
      obtain ⟨_ | _ | _, t⟩ := f <;> rfl

theorem memo_foldl_record (part : String) (fragments : List (Placement × Text)) (q : Query) :
    (fragments.foldl (record part) q).memo = q.memo := by
  induction fragments generalizing q with
  | nil => rfl
  | cons f fragments ih =>
      rw [List.foldl_cons, ih]
      obtain ⟨_ | _ | _, t⟩ := f <;> rfl

end Query

namespace Change

/-- What a change makes of a query whose statement has its part. -/
def applied (c : Change) (q : Query) : Query :=
  if c.fragments.isEmpty then q
  else (c.fragments.foldl (Query.record c.part) q).withMemo { base := q.memo.base }

theorem sound_applied (c : Change) {q : Query} (h : q.Sound) : (c.applied q).Sound := by
  rw [applied]
  split
  · exact h
  · refine ⟨fun ps hp => ?_, by simp [Query.withMemo], by simp [Query.withMemo]⟩
    change Query.baseParts (c.fragments.foldl (Query.record c.part) q) = _
    rw [Query.baseParts_foldl_record]
    exact h.base ps hp

theorem unchanged_applied (c : Change) (q : Query) :
    (c.applied q).base = q.base ∧ (c.applied q).attached = q.attached ∧
      (c.applied q).parameters = q.parameters := by
  rw [applied]
  split
  · exact ⟨rfl, rfl, rfl⟩
  · exact Query.unchanged_foldl_record c.part c.fragments q

end Change

namespace Edit
variable {q : Query}

/-- Nothing fails once the part is known to be there. -/
theorem run_commit (c : Change) (q : Query) :
    (commit c).run q =
      match (requirePart c.part).run q with
      | .ok _ q => .ok () (c.applied q)
      | .error e q => .error e q := by
  rw [commit, run_bind]
  cases (requirePart c.part).run q with
  | error e q => rfl
  | ok _ q =>
      dsimp only [Change.applied]
      split
      · rfl
      · rw [← Query.memo_foldl_record c.part c.fragments q]
        rfl

theorem run_mutate (m : Mutation) (q : Query) :
    (mutate m).run q =
      match m.change?.run q with
      | .ok (some c) q => (commit c).run q
      | .ok none q => .ok () { q with parameters := m.parameters q.parameters }
      | .error e q => .error e q := by
  rw [mutate, run_bind]
  cases m.change?.run q with
  | error e q => rfl
  | ok c q => cases c <;> rfl

/-- What a mutation can do: set values, apply a change, or fail with nothing changed. -/
theorem run_mutate_cases (m : Mutation) (hq : q.Sound) :
    ∃ memo, (q.withMemo memo).Sound ∧
      ((mutate m).run q = .ok () { q.withMemo memo with parameters := m.parameters q.parameters } ∨
        (∃ c : Change, (mutate m).run q = .ok () (c.applied (q.withMemo memo))) ∨
        ∃ e, (mutate m).run q = .error e (q.withMemo memo)) := by
  rw [run_mutate]
  obtain ⟨m₁, h₁, ⟨c, run₁⟩ | ⟨e, run₁⟩⟩ := (Mutation.isReading_change? m q).run_cases hq
  · rw [run₁]
    cases c with
    | none => exact ⟨m₁, h₁, .inl rfl⟩
    | some c =>
        have required : (requirePart c.part).IsReading (q.withMemo m₁) := ⟨_, reads_requirePart _ _⟩
        dsimp only
        rw [run_commit]
        obtain ⟨m₂, h₂, ⟨_, run₂⟩ | ⟨e, run₂⟩⟩ := required.run_cases h₁
        · rw [run₂]
          exact ⟨m₂, h₂, .inr (.inl ⟨c, rfl⟩)⟩
        · rw [run₂]
          exact ⟨m₂, h₂, .inr (.inr ⟨e, rfl⟩)⟩
  · rw [run₁]
    exact ⟨m₁, h₁, .inr (.inr ⟨e, rfl⟩)⟩

end Edit
end SqlStatement
