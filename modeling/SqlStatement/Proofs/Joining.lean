import SqlStatement.Proofs.Calling
import SqlStatement.Proofs.Conditioning
import SqlStatement.Proofs.Pairing
import SqlStatement.Proofs.Rewriting

/-!
# Joins in front of a table

A join that is put in front of a table is recorded as two fragments: its table
with the JOIN in front, its condition behind. Both lists are kept in the order
of the calls. So several joins cross: the condition of the first call stands
nearest to the table and belongs to the JOIN of the last call.
-/
namespace SqlStatement

theorem length_of_mapM {ε α β : Type} {f : α → Except ε β} {l : List α} {r : List β}
    (h : l.mapM f = .ok r) : r.length = l.length := by
  induction l generalizing r with
  | nil =>
      cases h
      rfl
  | cons a l ih =>
      rw [List.mapM_cons] at h
      obtain ⟨b, -, h⟩ := bind_eq_ok_iff.mp h
      obtain ⟨bs, hbs, h⟩ := bind_eq_ok_iff.mp h
      cases h
      exact congrArg (· + 1) (ih hbs)

/-- The joins that a query can make. -/
inductive JoinKind where
  | inner
  | left
  | right
  deriving DecidableEq, Repr

/-- How a join is written. -/
def JoinKind.words : JoinKind → Text
  | inner => "INNER JOIN".toList
  | left => "LEFT JOIN".toList
  | right => "RIGHT JOIN".toList

/-- A table that is joined under a condition. -/
structure Join where
  kind : JoinKind
  table : Text
  on : Text
  quote : Option QuoteMode := none
  deriving Repr

/-- A text that leaves the joins around it alone: it is balanced and has no JOIN or ON of its own
outside parentheses. -/
def Dialect.Unjoined (d : Dialect) (t : Text) : Prop := d.isBalanced t = true ∧ d.joinMarks t = []

instance (d : Dialect) (t : Text) : Decidable (d.Unjoined t) :=
  inferInstanceAs (Decidable (_ ∧ _))

namespace Query

theorem eq_of_base_eq {p q : Query} (h : p.base = q.base) :
    p.settings = q.settings ∧ p.statement = q.statement ∧ p.tablePart = q.tablePart := by
  simp only [base, ofStatement, mk.injEq] at h
  exact ⟨h.2.1, h.1, by rw [tablePart, tablePart, type?, type?, h.1, h.2.1]⟩

theorem baseParts_congr {p q : Query} (hb : p.base = q.base) (ha : p.attached = q.attached) :
    p.baseParts = q.baseParts := by
  obtain ⟨settings, statement, -⟩ := eq_of_base_eq hb
  rw [baseParts, baseText, settings, statement, ha, ← baseText, ← baseParts]

/-- What is recorded in a query is what a log of entries says. -/
theorem Reachable.exists_holds {q : Query} (h : q.Reachable) : ∃ log, q.Holds log := by
  induction h with
  | start s t =>
      exact ⟨[], ⟨List.nodup_nil, List.nodup_nil⟩, fun _ => rfl, fun _ => rfl⟩
  | read r h ih =>
      obtain ⟨log, holds⟩ := ih
      obtain ⟨memo, -, left⟩ := r.left_eq h.sound
      rw [left]
      exact ⟨log, holds.withMemo memo⟩
  | @call q c h ih =>
      obtain ⟨log, holds⟩ := ih
      cases c with
      | mutate m =>
          rw [Call.run, Edit.left]
          obtain ⟨memo, -, run | ⟨c, run⟩ | ⟨e, run⟩⟩ := Edit.run_mutate_cases m h.sound
          · rw [run]
            exact ⟨log, holds.nodup, holds.replacements, holds.additions⟩
          · rw [run]
            exact ⟨_, (holds.withMemo memo).applied c⟩
          · rw [run]
            exact ⟨log, holds.withMemo memo⟩
      | subquery number edit =>
          rw [Call.run, Edit.left, Edit.run_subquery]
          cases q.subquery number with
          | error e => exact ⟨log, holds⟩
          | ok sub => exact ⟨log, holds.nodup, holds.replacements, holds.additions⟩

end Query

namespace Join
variable {s : Settings} {j : Join} {q q' : Query} {log : List Entry}

/-- The call that puts a join in front. -/
def prepended (j : Join) : Mutation :=
  .table j.kind.words j.table j.on { placement := some .prepend, quote := j.quote }

/-- What a join writes in front of the tables and behind them. -/
def written (s : Settings) (j : Join) : Except Error (Text × Text) := do
  let table ← quoteIdentifier s (j.quote.getD .words) j.table
  let condition ← quoteIdentifier s .smart j.on
  return (table ++ ' ' :: j.kind.words, "ON".toList ++ ' ' :: condition)

/-- A join with a condition whose texts, as they are written, leave other joins alone. -/
structure IsPlain (s : Settings) (j : Join) : Prop where
  on_ne_nil : j.on ≠ []
  table : ∀ t, quoteIdentifier s (j.quote.getD .words) j.table = .ok t → s.dialect.Unjoined t
  condition : ∀ t, quoteIdentifier s .smart j.on = .ok t → s.dialect.Unjoined t

/-- One JOIN stands in front of the tables and one ON behind them. -/
theorem IsPlain.marks_of_written (h : j.IsPlain s) {w : Text × Text} (hw : j.written s = .ok w) :
    (s.dialect.isBalanced w.1 = true ∧ s.dialect.isBalanced w.2 = true) ∧
      s.dialect.joinMarks w.1 = [.join] ∧ s.dialect.joinMarks w.2 = [.on] := by
  obtain ⟨table, ht, hw⟩ := bind_eq_ok_iff.mp hw
  obtain ⟨condition, hc, hw⟩ := bind_eq_ok_iff.mp hw
  cases hw
  obtain ⟨balanced, unmarked⟩ := h.table table ht
  obtain ⟨balanced', unmarked'⟩ := h.condition condition hc
  have blank : s.dialect.IsSeparator ' ' := Dialect.isSeparator_of_isWhite (by decide)
  have space : s.dialect.isBalanced [' '] = true := Dialect.isBalanced_of_trim (by decide)
  have join : s.dialect.isBalanced j.kind.words = true ∧
      s.dialect.joinMarks j.kind.words = [.join] := by
    cases s.dialect <;> cases j.kind <;> decide +kernel
  have on : s.dialect.isBalanced "ON".toList = true ∧
      s.dialect.joinMarks "ON".toList = [.on] := by
    cases s.dialect <;> decide +kernel
  refine ⟨⟨?_, ?_⟩, ?_, ?_⟩
  · exact Dialect.isBalanced_append balanced (Dialect.isBalanced_append space join.1)
  · exact Dialect.isBalanced_append on.1 (Dialect.isBalanced_append space balanced')
  · rw [Dialect.joinMarks_append balanced blank, unmarked, join.2]
    rfl
  · rw [Dialect.joinMarks_append on.1 blank, unmarked', on.2]
    rfl

/-- The two fragments of a join that is put in front. -/
def entries (part : String) (w : Text × Text) : List Entry :=
  [(part, .prepend, w.1), (part, .append, w.2)]

theorem ofTable_eq (q : Query) (on : j.on ≠ []) :
    Change.ofTable q j.kind.words j.table j.on { placement := some .prepend, quote := j.quote } =
      (j.written q.settings).map fun w => ⟨q.tablePart, [(.prepend, w.1), (.append, w.2)]⟩ := by
  have words : j.kind.words.isEmpty = false := by cases j.kind <;> rfl
  have condition : j.on.isEmpty = false := by simpa using on
  rw [Change.ofTable, written]
  simp only [Option.getD_some, words, condition, Bool.or_self, Bool.false_and, reduceCtorEq,
    false_and, if_false, Bool.false_eq_true]
  cases quoteIdentifier q.settings (j.quote.getD .words) j.table with
  | error e => rfl
  | ok table => cases quoteIdentifier q.settings .smart j.on <;> rfl

/-- A call that succeeds adds its two fragments. -/
theorem run_prepended (sound : q.Sound) (holds : q.Holds log) (on : j.on ≠ [])
    (run : (Edit.mutate j.prepended).run q = .ok () q') :
    ∃ w, j.written q.settings = .ok w ∧ q'.Sound ∧ q'.base = q.base ∧ q'.attached = q.attached ∧
      q'.Holds (log ++ entries q.tablePart w) := by
  obtain ⟨c, memo, answer, sound, made⟩ := Edit.run_mutate_ok sound run
  have change := (Mutation.answer_of_worked_out rfl q).symm.trans answer
  change (Change.ofTable q j.kind.words j.table j.on
    { placement := some .prepend, quote := j.quote }).map some = .ok c at change
  rw [ofTable_eq q on] at change
  cases hw : j.written q.settings with
  | error e =>
      rw [hw] at change
      cases change
  | ok w =>
      rw [hw] at change
      cases change
      obtain ⟨none, -⟩ | ⟨change, base, some, -, -, rfl⟩ := made
      · cases none
      · cases some
        obtain ⟨base, attached, -⟩ := Change.unchanged_applied
          ⟨q.tablePart, [(.prepend, w.1), (.append, w.2)]⟩ (q.withMemo memo)
        exact ⟨w, rfl, Change.sound_applied _ sound, base, attached,
          (holds.withMemo memo).applied _⟩

/-- Calls that all succeed add their fragments one after the other. -/
theorem run_forM_prepended {joins : List Join} (sound : q.Sound) (holds : q.Holds log)
    (on : ∀ j ∈ joins, j.on ≠ [])
    (run : (forM joins fun j => Edit.mutate j.prepended).run q = .ok () q') :
    ∃ ws, joins.mapM (written q.settings) = .ok ws ∧ q'.Sound ∧ q'.base = q.base ∧
      q'.attached = q.attached ∧ q'.Holds (log ++ ws.flatMap (entries q.tablePart)) := by
  induction joins generalizing q log with
  | nil =>
      cases run
      exact ⟨[], rfl, sound, rfl, rfl, by simpa using holds⟩
  | cons j joins ih =>
      obtain ⟨first, rest⟩ := List.forall_mem_cons.mp on
      rw [List.forM_cons, Edit.run_bind] at run
      cases run₁ : (Edit.mutate j.prepended).run q with
      | error e q₁ =>
          rw [run₁] at run
          cases run
      | ok _ q₁ =>
          rw [run₁] at run
          obtain ⟨w, hw, sound, base, attached, holds⟩ := run_prepended sound holds first run₁
          obtain ⟨ws, hws, sound, base', attached', holds⟩ := ih sound holds rest run
          obtain ⟨settings, -, part⟩ := Query.eq_of_base_eq base
          refine ⟨w :: ws, ?_, sound, base'.trans base, attached'.trans attached, ?_⟩
          · rw [settings] at hws
            rw [List.mapM_cons, hw, hws]
            rfl
          · rw [part] at holds
            rwa [List.flatMap_cons, ← List.append_assoc]

/-- The marks of joins that are put in front of a table one after the other. -/
theorem joinMarks_chain {d : Dialect} {ws : List (Text × Text)} {t : Text} (ht : d.Unjoined t)
    (hw : ∀ w ∈ ws, (d.isBalanced w.1 = true ∧ d.isBalanced w.2 = true) ∧
      d.joinMarks w.1 = [.join] ∧ d.joinMarks w.2 = [.on]) :
    d.isBalanced (Text.joinWith [' '] (ws.map (·.1) ++ t :: ws.map (·.2))) = true ∧
      d.joinMarks (Text.joinWith [' '] (ws.map (·.1) ++ t :: ws.map (·.2))) =
        List.replicate ws.length .join ++ List.replicate ws.length .on := by
  have balanced : ∀ u ∈ ws.map (·.1) ++ t :: ws.map (·.2), d.isBalanced u = true :=
    List.forall_mem_append.mpr ⟨List.forall_mem_map.mpr fun w hm => (hw w hm).1.1,
      List.forall_mem_cons.mpr ⟨ht.1, List.forall_mem_map.mpr fun w hm => (hw w hm).1.2⟩⟩
  have each {f : Text × Text → Text} {m : JoinMark} (hf : ∀ w ∈ ws, d.joinMarks (f w) = [m]) :
      (ws.map f).flatMap d.joinMarks = List.replicate ws.length m := by
    rw [List.flatMap_map, List.flatMap_congr hf, ← List.map_eq_flatMap, List.map_const']
  refine ⟨Dialect.isBalanced_joinWith (Dialect.isBalanced_of_trim (by decide)) balanced, ?_⟩
  rw [Dialect.joinMarks_joinWith balanced, List.flatMap_append, List.flatMap_cons, ht.2,
    each fun w hm => (hw w hm).2.1, each fun w hm => (hw w hm).2.2]
  rfl

theorem side_entries (part : String) (ws : List (Text × Text)) :
    Entry.side part .replace (ws.flatMap (entries part)) = [] ∧
      Entry.side part .prepend (ws.flatMap (entries part)) = ws.map (·.1) ∧
      Entry.side part .append (ws.flatMap (entries part)) = ws.map (·.2) := by
  induction ws with
  | nil => exact ⟨rfl, rfl, rfl⟩
  | cons w ws ih =>
      simpa [Entry.side, entries, List.filterMap_append] using ih

end Join

theorem Addition.merge?_tables {d : Dialect} {a : Addition} {key : String}
    (h : key ∈ ["from", "into", "table"]) (t : Text) : a.merge? d key t = some (tables d a t) := by
  simp only [List.mem_cons, List.not_mem_nil, or_false] at h
  rcases h with rfl | rfl | rfl <;> rfl

theorem Addition.of?_eq_none {prepend append : List Text} (h : of? prepend append = none) :
    prepend = [] ∧ append = [] := by
  rw [of?] at h
  split at h
  · rename_i none
    simpa using none
  · cases h

namespace Query
variable {q q' : Query} {parts composed base : Parts} {joins : List Join} {log : List Entry}

/-- The text of a part without fragments, as fragments that come later find it. -/
theorem trim_text_composeFrom (hn : q.replacements.keys.Nodup ∧ q.additions.keys.Nodup)
    {key : String} (columns : "columns" ≠ key) (duplicate : duplicateKey ≠ key)
    (unadded : q.additions.get? key = none) (h : q.composeFrom base = .ok parts) :
    Text.trim (((q.replacements.get? key).or (base.get? key)).getD []) =
      Text.trim (Parts.text parts key) := by
  by_cases mutated : q.isMutated = true
  · rw [Parts.text, get?_composeFrom hn h mutated columns duplicate, rewritten, unadded]
    cases (q.replacements.get? key).or (base.get? key) with
    | none => rfl
    | some w => exact (Text.trim_trim w).symm
  · rw [composeFrom, if_neg mutated] at h
    cases h
    rw [isMutated, Bool.or_eq_true, not_or, Bool.not_eq_true', Bool.not_eq_false,
      OrderedMap.isEmpty_iff] at mutated
    rw [mutated.1, Option.none_or, Parts.text]

/-- The text of a table with the joins that are put in front of it. -/
def chained (t : Text) (ws : List (Text × Text)) : Text :=
  Text.trim (Text.trimWhere (fun c => c == ' ' || c == ',')
    (Text.joinWith [' '] (ws.map (·.1) ++ Text.trim t :: ws.map (·.2))))

/-- All JOINs stand in front of all conditions. -/
theorem joinMarks_chained {d : Dialect} {t : Text} {ws : List (Text × Text)} (ht : d.Unjoined t)
    (hw : ∀ w ∈ ws, (d.isBalanced w.1 = true ∧ d.isBalanced w.2 = true) ∧
      d.joinMarks w.1 = [.join] ∧ d.joinMarks w.2 = [.on]) :
    d.isBalanced (chained t ws) = true ∧ d.joinMarks (chained t ws) =
      List.replicate ws.length .join ++ List.replicate ws.length .on := by
  have white : ∀ c, Text.isWhite c = true → d.IsSeparator c :=
    fun c hc => Dialect.isSeparator_of_isWhite hc
  have padding : ∀ c, (c == ' ' || c == ',') = true → d.IsSeparator c := by
    intro c hc
    rw [Bool.or_eq_true, beq_iff_eq, beq_iff_eq] at hc
    rcases hc with rfl | rfl
    · exact white ' ' (by decide)
    · exact ⟨by decide, by cases d <;> decide, by decide⟩
  have trimmed := Dialect.joinMarks_trimWhere white ht.1
  obtain ⟨balanced, marks⟩ := Join.joinMarks_chain ⟨trimmed.1, trimmed.2.trans ht.2⟩ hw
  obtain ⟨balanced', marks'⟩ := Dialect.joinMarks_trimWhere padding balanced
  obtain ⟨balanced'', marks''⟩ := Dialect.joinMarks_trimWhere white balanced'
  exact ⟨balanced'', marks''.trans (marks'.trans marks)⟩

theorem reverse_range_eq_iff (n : Nat) : (List.range n).reverse = List.range n ↔ n ≤ 1 := by
  constructor
  · intro h
    by_contra several
    have first := congrArg List.head? h
    rw [List.head?_reverse, List.getLast?_range, List.head?_range, if_neg (by omega),
      if_neg (by omega), Option.some.injEq] at first
    omega
  · intro h
    obtain rfl | rfl : n = 0 ∨ n = 1 := by omega
    · rfl
    · rfl

/-- Joins in front of a name are composed around it. -/
theorem Holds.get?_chained {ws : List (Text × Text)} {key : String} (holds : q.Holds log)
    (holds' : q'.Holds (log ++ ws.flatMap (Join.entries key))) (settings : q'.settings = q.settings)
    (hk : key ∈ ["from", "into", "table"]) (unadded : q.additions.get? key = none) (some : ws ≠ [])
    (before : q.composeFrom base = .ok parts) (after : q'.composeFrom base = .ok composed)
    (name : q.settings.dialect.isIdentifier (Parts.text parts key) = true) :
    composed.get? key = .some (chained (Parts.text parts key) ws) := by
  obtain ⟨replaced, prepended, appended⟩ := Join.side_entries key ws
  have apart : "columns" ≠ key ∧ duplicateKey ≠ key := by
    constructor <;> rintro rfl <;> exact absurd hk (by decide)
  have sides (side : Placement) : Entry.side key side (log ++ ws.flatMap (Join.entries key)) =
      Entry.side key side log ++ Entry.side key side (ws.flatMap (Join.entries key)) :=
    List.filterMap_append
  have nothing := Addition.of?_eq_none ((holds.additions key).symm.trans unadded)
  have added : q'.additions.get? key = .some ⟨ws.map (·.1), ws.map (·.2)⟩ := by
    rw [holds'.additions, sides, sides, nothing.1, nothing.2, prepended, appended, Addition.of?]
    simp [some]
  have kept : q'.replacements.get? key = q.replacements.get? key := by
    rw [holds'.replacements, holds.replacements, sides, replaced, List.append_nil]
  have mutated : q'.isMutated = true := by
    refine holds'.isMutated_of_ne_nil ?_
    obtain ⟨w, ws, rfl⟩ := List.exists_cons_of_ne_nil some
    simp [Join.entries]
  have current := trim_text_composeFrom holds.nodup apart.1 apart.2 unadded before
  have merged : (⟨ws.map (·.1), ws.map (·.2)⟩ : Addition).merge? q'.settings.dialect key
      (Text.trim (Parts.text parts key)) = .some (Text.trimWhere (fun c => c == ' ' || c == ',')
        (Text.joinWith [' '] (ws.map (·.1) ++ Text.trim (Parts.text parts key) ::
          ws.map (·.2)))) := by
    have alone : q'.settings.dialect.isIdentifier (Text.trim (Parts.text parts key)) = true := by
      rwa [settings, Dialect.isIdentifier, Text.trim_trim, ← Dialect.isIdentifier]
    rw [Addition.merge?_tables hk, Addition.tables, alone, Bool.or_true, if_pos rfl,
      Addition.spaced_eq]
  rw [get?_composeFrom holds'.nodup after mutated apart.1 apart.2, rewritten, added, kept,
    Option.bind_some, current, merged]
  rfl

/-- The condition of each join that is put in front of a table belongs to the JOIN of another call,
counted from the other end. It belongs to its own JOIN only if there are no two calls. -/
theorem Reachable.owners_prepended (h : q.Reachable) (before : Edit.parts.answer q = .ok parts)
    (name : q.settings.dialect.isIdentifier (Parts.text parts q.tablePart) = true)
    (alone : q.settings.dialect.Unjoined (Parts.text parts q.tablePart))
    (unadded : q.additions.get? q.tablePart = none) (called : joins ≠ [])
    (plain : ∀ j ∈ joins, j.IsPlain q.settings)
    (run : (forM joins fun j => Edit.mutate j.prepended).run q = .ok () q')
    (answer : Edit.parts.answer q' = .ok composed) :
    ∃ ws, joins.mapM (Join.written q.settings) = .ok ws ∧
      composed.get? q.tablePart = some (chained (Parts.text parts q.tablePart) ws) ∧
      JoinMark.owners [] 0 (q.settings.dialect.joinMarks
        (Parts.text composed q.tablePart)) = (List.range joins.length).reverse.map some ∧
      (JoinMark.owners [] 0 (q.settings.dialect.joinMarks (Parts.text composed q.tablePart)) =
        (List.range joins.length).map some ↔ joins.length ≤ 1) := by
  obtain ⟨log, holds⟩ := h.exists_holds
  obtain ⟨ws, written, sound', base', attached', holds'⟩ :=
    Join.run_forM_prepended h.sound holds (fun j hj => (plain j hj).on_ne_nil) run
  obtain ⟨settings, -, -⟩ := eq_of_base_eq base'
  rw [(Edit.reads_parts q).answer_self h.sound] at before
  rw [(Edit.reads_parts q').answer_self sound'] at answer
  obtain ⟨base, hb, before⟩ := bind_eq_ok_iff.mp before
  obtain ⟨_, hb', answer⟩ := bind_eq_ok_iff.mp answer
  rw [baseParts_congr base' attached', hb] at hb'
  cases hb'
  have length := length_of_mapM written
  have some : ws ≠ [] := by
    rw [← List.length_pos_iff, length, List.length_pos_iff]
    exact called
  have text := holds.get?_chained holds' settings q.tablePart_mem unadded some before answer name
  have marks : JoinMark.owners [] 0 (q.settings.dialect.joinMarks
      (Parts.text composed q.tablePart)) = (List.range joins.length).reverse.map .some := by
    rw [Parts.text, text, Option.getD_some, (joinMarks_chained alone fun w hw => ?_).2, length,
      JoinMark.owners_nested]
    obtain ⟨j, hj, hw⟩ := exists_of_mem_mapM written w hw
    exact (plain j hj).marks_of_written hw
  refine ⟨ws, written, text, marks, ?_⟩
  rw [marks, List.map_inj_right fun _ _ => Option.some.inj, reverse_range_eq_iff]

/-- Two joins with plain tables and conditions. -/
def twoJoins : List Join :=
  [⟨.left, ['b'], "b.x = t.x".toList, none⟩, ⟨.inner, ['c'], "c.y = t.y".toList, none⟩]

theorem isPlain_twoJoins : ∀ j ∈ twoJoins, j.IsPlain {} := by
  have one {x : Except Error Text} {w : Text} (hx : x = .ok w) (hw : Dialect.mysql.Unjoined w) :
      ∀ t, x = .ok t → Dialect.mysql.Unjoined t := by
    rintro t ht
    cases hx.symm.trans ht
    exact hw
  refine List.forall_mem_cons.mpr ⟨⟨by decide, ?_, ?_⟩,
    List.forall_mem_singleton.mpr ⟨by decide, ?_, ?_⟩⟩
  · exact one (w := "\x60b\x60".toList) (by decide +kernel) (by decide +kernel)
  · exact one (w := "\x60b\x60.\x60x\x60 = \x60t\x60.\x60x\x60".toList) (by decide +kernel)
      (by decide +kernel)
  · exact one (w := "\x60c\x60".toList) (by decide +kernel) (by decide +kernel)
  · exact one (w := "\x60c\x60.\x60y\x60 = \x60t\x60.\x60y\x60".toList) (by decide +kernel)
      (by decide +kernel)

/-- The query that the joins are put in front of. -/
def plainSelect : Query := ofStatement {} "SELECT a FROM t".toList

theorem parts_plainSelect : Edit.parts.answer plainSelect =
    .ok ⟨[("select", []), ("columns", ['a']), ("from", ['t']), ("where", []), ("group by", []),
      ("having", []), ("order by", []), ("limit", []), ("options", [])]⟩ := by
  decide +kernel

theorem tablePart_plainSelect : plainSelect.tablePart = "from" := by decide +kernel

theorem run_twoJoins : (forM twoJoins fun j => Edit.mutate j.prepended).run plainSelect =
    .ok () (Edit.left (forM twoJoins fun j => Edit.mutate j.prepended) plainSelect) :=
  Edit.run_of_answer_ok (by decide +kernel)

theorem parts_twoJoins :
    Edit.parts.answer (Edit.left (forM twoJoins fun j => Edit.mutate j.prepended) plainSelect) =
      .ok ⟨[("select", []), ("columns", ['a']),
        ("from", ("\x60b\x60 LEFT JOIN \x60c\x60 INNER JOIN t ON \x60b\x60.\x60x\x60 = " ++
          "\x60t\x60.\x60x\x60 ON \x60c\x60.\x60y\x60 = \x60t\x60.\x60y\x60").toList),
        ("where", []), ("group by", []), ("having", []), ("order by", []), ("limit", []),
        ("options", [])]⟩ := by
  decide +kernel

/-- The condition of the first of two tables belongs to the JOIN of the second, and the other way
round. -/
theorem owners_prepended_two :
    ∃ q composed, (forM twoJoins fun j => Edit.mutate j.prepended).run plainSelect = .ok () q ∧
      Edit.parts.answer q = .ok composed ∧
      JoinMark.owners [] 0 (Dialect.mysql.joinMarks (Parts.text composed "from")) =
        [some 1, some 0] := by
  have reachable : plainSelect.Reachable := .start _ _
  obtain ⟨ws, -, -, owners, -⟩ := reachable.owners_prepended parts_plainSelect
    (tablePart_plainSelect ▸ by decide +kernel) (tablePart_plainSelect ▸ by decide +kernel) rfl
    (by decide) isPlain_twoJoins run_twoJoins parts_twoJoins
  rw [tablePart_plainSelect] at owners
  exact ⟨_, _, run_twoJoins, parts_twoJoins, owners⟩

/-- So the condition of a join need not belong to its own JOIN. -/
theorem not_owners_prepended :
    ¬∀ (q q' : Query) (parts composed : Parts) (joins : List Join), q.Reachable →
      Edit.parts.answer q = .ok parts →
      q.settings.dialect.isIdentifier (Parts.text parts q.tablePart) = true →
      (∀ j ∈ joins, q.settings.dialect.isIdentifier j.table = true ∧
        q.settings.dialect.isBalanced j.on = true ∧ j.IsPlain q.settings) →
      (forM joins fun j => Edit.mutate j.prepended).run q = .ok () q' →
      Edit.parts.answer q' = .ok composed →
      JoinMark.owners [] 0 (q.settings.dialect.joinMarks (Parts.text composed q.tablePart)) =
        (List.range joins.length).map some := by
  intro h
  have crossed := h plainSelect _ _ _ twoJoins (.start _ _) parts_plainSelect
    (tablePart_plainSelect ▸ by decide +kernel)
    (fun j hj => ⟨?_, ?_, isPlain_twoJoins j hj⟩) run_twoJoins parts_twoJoins
  · rw [tablePart_plainSelect] at crossed
    exact absurd crossed (by decide +kernel)
  · exact (by decide +kernel : ∀ j ∈ twoJoins, Dialect.mysql.isIdentifier j.table = true) j hj
  · exact (by decide +kernel : ∀ j ∈ twoJoins, Dialect.mysql.isBalanced j.on = true) j hj

end Query
end SqlStatement
