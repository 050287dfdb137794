import SqlStatement.Proofs.Decoding
import SqlStatement.Proofs.Listing

/-!
# Rows that are read back

The rows of an INSERT are groups with commas between them, so their text is
balanced whatever the groups hold. A call puts each of its rows in front of them
or behind them, as the literals of its values in parentheses. A literal is one
item whatever characters it stands for, and so is a row. So the rows are cut at
the commas between them, and each is the list of literals that was written.
-/
namespace SqlStatement
open Token

/-- What a step for rows takes opens and closes the same groups. -/
theorem level_taken_rows {key : String} {keyword : Phrase} {ts : List Token} {c : Choice}
    (h : c ∈ (Step.rows key keyword).choices ts) : Level c.taken := by
  have skipped : Level (Choice.skip ts).taken := by
    rw [Choice.taken_skip]
    exact level_nil
  simp only [Step.choices] at h
  split at h
  · rw [List.mem_append, List.mem_map, List.mem_singleton] at h
    rcases h with ⟨stop, hs, rfl⟩ | rfl
    · obtain ⟨rows, run, he⟩ := Step.rows_of_mem_rowEnds (List.mem_reverse.mp hs)
      rw [he, Choice.taken_eq]
      exact level_of_rows run
    · exact skipped
  · exact List.mem_singleton.mp h ▸ skipped

/-- A statement that is matched as it stands has the captures of its pattern as parts. -/
theorem exists_route_of_not_hides {s : Settings} {t : Text} {type : StatementType} {p : Pattern}
    {parts : Parts} (h : split s t = .ok parts)
    (hd : StatementType.detect s.dialect t = some type)
    (hp : Pattern.ofType? s.dialect type = some p) (hh : p.hidesSubqueries = false) :
    ∃ cs, route p.steps (ofText s.dialect t) = some cs ∧ parts = ⟨capturesOf p.steps cs⟩ := by
  rw [split, hd] at h
  dsimp only at h
  rw [hp] at h
  dsimp only at h
  rw [if_neg (by simp [hh]), Pattern.parts, matchSteps_eq] at h
  cases hr : route p.steps (ofText s.dialect t) with
  | none => simp [hr] at h
  | some cs =>
      rw [hr] at h
      cases h
      exact ⟨cs, rfl, rfl⟩

/-- An INSERT has a part for rows, and the text of the part is balanced. -/
theorem exists_values {s : Settings} {t : Text} {base : Parts} (hs : split s t = .ok base)
    (insert : (StatementType.detect s.dialect t).any StatementType.isInsertLike = true) :
    ∃ w, base.get? "values" = some w ∧ s.dialect.isBalanced w = true := by
  obtain ⟨type, p, hd, hp⟩ := exists_pattern hs
  rw [hd, Option.any_some] at insert
  have shape : p.hidesSubqueries = false ∧ "values" ∈ p.steps.filterMap Step.key? ∧
      ∀ step ∈ p.steps, step.key? = some "values" → step = .rows "values" ["VALUES"] := by
    cases type with
    | insert | replace =>
        cases hp
        exact ⟨rfl, by cases s.dialect <;> decide⟩
    | _ => cases insert
  obtain ⟨unhidden, present, only⟩ := shape
  obtain ⟨cs, hr, rfl⟩ := exists_route_of_not_hides hs hd hp unhidden
  obtain ⟨w, hw⟩ := Option.isSome_iff_exists.mp
    (OrderedMap.contains_iff.mpr (keys_capturesOf hr ▸ present))
  obtain ⟨step, c, hm, hk, captured⟩ := mem_capturesOf (OrderedMap.mem_of_get? hw)
  obtain rfl := only step (List.of_mem_zip hm).1 hk
  obtain ⟨us, -, hc⟩ := exists_choices_of_route hr hm
  have level := level_taken_rows hc
  have inside := taken_infix_of_route hr (List.of_mem_zip hm).2
  have balanced := (Dialect.isBalanced_textOf inside (isClosed_of_foldlM level)).mpr level
  refine ⟨w, hw, ?_⟩
  rw [show w = _ from captured]
  exact Dialect.isBalanced_trim balanced

theorem Row.unwrap_parenthesize (t : Text) : Row.unwrap (Addition.parenthesize t) = t := by
  change (if (t ++ [')']).getLast? = some ')' then (t ++ [')']).dropLast else t ++ [')']) = t
  rw [if_pos List.getLast?_concat, List.dropLast_concat]

namespace Dialect
variable {d : Dialect}

/-- Balanced rows around a closed text are cut at the commas between them. -/
theorem splitTopLevel_rows {a : Addition} {t : Text}
    (ha : ∀ row ∈ a.prepend ++ a.append, d.isBalanced row = true) (ht : d.Closed t) :
    d.Closed (a.rows (Text.trim t)) ∧
      d.splitTopLevel (a.rows (Text.trim t)) =
        a.prepend.map Addition.parenthesize ++ d.splitTopLevel t ++
          a.append.map Addition.parenthesize := by
  have wrapped {rows : List Text} (h : ∀ row ∈ rows, d.isBalanced row = true) :
      (∀ row ∈ rows.map Addition.parenthesize, d.isBalanced row = true) ∧
        (rows.map Addition.parenthesize).flatMap d.splitTopLevel =
          rows.map Addition.parenthesize := by
    refine ⟨List.forall_mem_map.mpr fun row hr => (isItem_parenthesize (h row hr)).isBalanced, ?_⟩
    conv_rhs => rw [← List.flatMap_singleton' (rows.map Addition.parenthesize)]
    refine List.flatMap_congr fun u hu => ?_
    obtain ⟨row, hr, rfl⟩ := List.mem_map.mp hu
    have single := (isItem_parenthesize (h row hr)).splitTopLevel
    rw [Addition.trim_parenthesize] at single
    exact single (List.cons_ne_nil _ _)
  obtain ⟨hp, hb⟩ := List.forall_mem_append.mp ha
  have listed := splitTopLevel_chain
    (a := ⟨a.prepend.map Addition.parenthesize, a.append.map Addition.parenthesize⟩) ht
    (List.forall_mem_append.mpr ⟨(wrapped hp).1, (wrapped hb).1⟩)
  rwa [(wrapped hp).2, (wrapped hb).2, ← List.append_assoc] at listed

end Dialect

/-- The items of a row as it is written. -/
def Row.literals (d : Dialect) (row : List Value) : List Text :=
  d.quoteValues "DEFAULT".toList row

/-- The text of a row as it is written. -/
def Row.written (d : Dialect) (row : List Value) : Text :=
  Text.joinWith [',', ' '] (literals d row)

namespace Mutation
variable {s : Settings} {t : Text} {m : Mutation} {ms : List Mutation}

/-- The rows of a mutation that adds rows. -/
def newRows : Mutation → List (List Value)
  | rows added _ => added
  | _ => []

/-- Where a mutation puts its rows. -/
def rowSide : Mutation → Placement
  | rows _ o => o.placement.getD .append
  | _ => .append

/-- A mutation that adds rows, none of them empty, of values that a literal says exactly. -/
def AddsRows : Mutation → Prop
  | rows added o => o.placement ≠ some .replace ∧
      ∀ row ∈ added, row ≠ [] ∧ ∀ v ∈ row, v.IsPlain
  | _ => False

/-- The rows that go to one side, in the order of the calls. -/
def rowsAt (side : Placement) (ms : List Mutation) : List (List Value) :=
  (ms.filter (·.rowSide = side)).flatMap newRows

/-- What a mutation that adds rows records. -/
def rowEntries (s : Settings) (m : Mutation) : List Entry :=
  m.newRows.map fun row => ("values", m.rowSide, Row.written s.dialect row)

theorem AddsRows.isSteady (h : m.AddsRows) : m.IsSteady := by
  cases m with
  | rows => trivial
  | _ => exact h.elim

theorem AddsRows.rowSide_ne (h : m.AddsRows) : m.rowSide ≠ .replace := by
  cases m with
  | rows added o => exact PartOptions.getD_placement_ne h.1
  | _ => exact h.elim

/-- A row that is added is not empty and has only values that a literal says exactly. -/
theorem of_mem_rowsAt (h : ∀ m ∈ ms, m.AddsRows) {side : Placement} {row : List Value}
    (hr : row ∈ rowsAt side ms) : row ≠ [] ∧ ∀ v ∈ row, v.IsPlain := by
  obtain ⟨m, hm, hr⟩ := List.mem_flatMap.mp hr
  have adds := h m (List.mem_of_mem_filter hm)
  cases m with
  | rows added o => exact adds.2 row hr
  | _ => exact adds.elim

/-- Rows are recorded one by one where the statement has a part for them. -/
theorem AddsRows.entries_eq (h : m.AddsRows) {base : Parts} (hs : split s t = .ok base)
    (hv : base.contains "values" = true) :
    m.entries s t = .ok (m.rowEntries s) := by
  have side := h.rowSide_ne
  cases m with
  | rows added o =>
      have change : (Mutation.rows added o).change?.answer (Query.ofStatement s t) =
          .ok (some (Change.ofRows (added.map (Row.written s.dialect)) o)) := rfl
      have fragments : Change.ofRows (added.map (Row.written s.dialect)) o =
          ⟨"values", added.map fun row => (rowSide (.rows added o), Row.written s.dialect row)⟩ := by
        rw [rowSide] at side ⊢
        rw [Change.ofRows]
        cases hp : o.placement.getD .append with
        | replace => exact absurd hp side
        | prepend | append => simp [Function.comp_def]
      rw [fragments] at change
      rw [entries_of_change change hs hv, List.map_map]
      rfl
  | _ => exact h.elim

theorem AddsRows.of_mem_rowEntries (h : m.AddsRows) {e : Entry} (he : e ∈ m.rowEntries s) :
    e.1 = "values" ∧ e.2.1 ≠ .replace := by
  obtain ⟨row, -, rfl⟩ := List.mem_map.mp he
  exact ⟨rfl, h.rowSide_ne⟩

theorem side_rowEntries (side : Placement) (ms : List Mutation) :
    Entry.side "values" side (ms.flatMap (rowEntries s)) =
      (rowsAt side ms).map (Row.written s.dialect) := by
  have entries : rowEntries s = fun m =>
      (m.newRows.map (Row.written s.dialect)).map fun row => ("values", m.rowSide, row) := by
    funext m
    rw [List.map_map]
    rfl
  rw [entries, Entry.side_flatMap, rowsAt, List.map_flatMap]

end Mutation

namespace Query
open Mutation (rowsAt rowEntries)
variable {s : Settings} {t : Text} {base : Parts} {ms : List Mutation}

/-- What is written for rows is read as their literals. -/
theorem items_of_rows {rows : List (List Value)} (h : ∀ row ∈ rows, row ≠ []) :
    ((rows.map (Row.written s.dialect)).map fun row =>
        s.dialect.splitTopLevel (Row.unwrap (Addition.parenthesize row))).filter (! ·.isEmpty) =
      rows.map (Row.literals s.dialect) := by
  have items (row : List Value) : s.dialect.splitTopLevel (Row.written s.dialect row) =
      Row.literals s.dialect row := Dialect.splitTopLevel_quoteValues (by simp) row
  have read : (rows.map (Row.written s.dialect)).map (fun row =>
      s.dialect.splitTopLevel (Row.unwrap (Addition.parenthesize row))) =
        rows.map (Row.literals s.dialect) := by
    rw [List.map_map]
    refine List.map_congr_left fun row _ => ?_
    rw [Function.comp_apply, Row.unwrap_parenthesize, items row]
  rw [read, List.filter_eq_self]
  intro items hi
  obtain ⟨row, hr, rfl⟩ := List.mem_map.mp hi
  rw [Row.literals, Dialect.quoteValues_eq_map]
  simpa using h row hr

/-- Rows around a text are read in front of its rows and behind them. -/
theorem splitRows_of_rows {stated composed : Parts} {before behind : List (List Value)} {w : Text}
    {rows : List (List Text)} (hb : ∀ row ∈ before, row ≠ []) (ha : ∀ row ∈ behind, row ≠ [])
    (hw : stated.get? "values" = some w) (balanced : s.dialect.isBalanced w = true)
    (hr : splitRows s.dialect stated = .ok rows)
    (hc : composed.get? "values" = some (Text.trim (Addition.rows
      ⟨before.map (Row.written s.dialect), behind.map (Row.written s.dialect)⟩ (Text.trim w)))) :
    splitRows s.dialect composed =
      .ok (before.map (Row.literals s.dialect) ++ rows ++ behind.map (Row.literals s.dialect)) := by
  have written (rows : List (List Value)) :
      ∀ row ∈ rows.map (Row.written s.dialect), s.dialect.isBalanced row = true :=
    List.forall_mem_map.mpr fun row _ => Dialect.isBalanced_joinWith Dialect.isBalanced_comma
      fun t ht => (Dialect.isLiteral_quoteValues (by simp) row t ht).isItem.isBalanced
  have current : ((s.dialect.splitTopLevel w).map fun row =>
      s.dialect.splitTopLevel (Row.unwrap row)).filter (! ·.isEmpty) = rows := by
    rw [splitRows, Parts.require, hw] at hr
    exact Except.ok.inj hr
  obtain ⟨around, wrapped⟩ := Dialect.splitTopLevel_rows
    (a := ⟨before.map (Row.written s.dialect), behind.map (Row.written s.dialect)⟩)
    (List.forall_mem_append.mpr ⟨written before, written behind⟩)
    (Dialect.closed_of_isBalanced balanced)
  rw [splitRows, Parts.require, hc]
  refine congrArg Except.ok ?_
  rw [Dialect.splitTopLevel_trim around, wrapped, List.map_append, List.map_append,
    List.filter_append, List.filter_append, current, List.map_map, List.map_map]
  refine congrArg₂ (· ++ ·) (congrArg₂ (· ++ ·) ?_ rfl) ?_
  · rw [← items_of_rows hb, List.map_map]
    rfl
  · rw [← items_of_rows ha, List.map_map]
    rfl

/-- The part for rows has the rows of all mutations around those of the statement. -/
theorem Recorded.splitRows_eq {ps : Parameters} {q : Query} {composed : Parts} {w : Text}
    {rows : List (List Text)} (h : Recorded s t (ms.flatMap (rowEntries s)) ps q)
    (calls : ∀ m ∈ ms, m.AddsRows) (hw : base.get? "values" = some w)
    (balanced : s.dialect.isBalanced w = true) (hr : splitRows s.dialect base = .ok rows)
    (hc : q.composeFrom base = .ok composed) :
    splitRows s.dialect composed = .ok ((rowsAt .prepend ms).map (Row.literals s.dialect) ++ rows ++
      (rowsAt .append ms).map (Row.literals s.dialect)) := by
  have only : ∀ e ∈ ms.flatMap (rowEntries s), e.1 = "values" ∧ e.2.1 ≠ .replace := by
    intro e he
    obtain ⟨m, hm, he⟩ := List.mem_flatMap.mp he
    exact (calls m hm).of_mem_rowEntries he
  have sides (side : Placement) := Mutation.side_rowEntries (s := s) side ms
  obtain ⟨none, rfl⟩ | ⟨-, text⟩ := h.get?_composed (by decide) (by decide) only hc
  · rw [none] at sides
    rw [hr, List.map_eq_nil_iff.mp (sides .prepend).symm,
      List.map_eq_nil_iff.mp (sides .append).symm]
    simp
  · rw [addition, sides, sides, Parts.text, hw] at text
    exact splitRows_of_rows (fun row hm => (Mutation.of_mem_rowsAt calls hm).1)
      (fun row hm => (Mutation.of_mem_rowsAt calls hm).1) hw balanced hr text

/-- Rows that are added to an INSERT or REPLACE are read back: those put in front in the order of
the calls, those of the statement, and those put behind in the order of the calls. Each is read as
its literals, and each literal as its value. -/
theorem rows_read_back (hs : split s t = .ok base)
    (insert : (StatementType.detect s.dialect t).any StatementType.isInsertLike = true)
    (unmarked : Text.trim (Parts.text base duplicateKey) ≠ updateMarker)
    (calls : ∀ m ∈ ms, m.AddsRows) :
    ∃ q rows, (forM ms Edit.mutate).run (ofStatement s t) = .ok () q ∧
      Edit.rows.answer (ofStatement s t) = .ok rows ∧
      Edit.rows.answer q = .ok ((rowsAt .prepend ms).map (Row.literals s.dialect) ++ rows ++
        (rowsAt .append ms).map (Row.literals s.dialect)) ∧
      ∀ row ∈ rowsAt .prepend ms ++ rowsAt .append ms,
        (Row.literals s.dialect row).mapM s.dialect.unquoteValue = .ok row := by
  obtain ⟨w, hw, balanced⟩ := exists_values hs insert
  have present : base.contains "values" = true := by
    rw [OrderedMap.contains, hw]
    rfl
  obtain ⟨rows, hr⟩ : ∃ rows, splitRows s.dialect base = .ok rows := by
    rw [splitRows, Parts.require, hw]
    exact ⟨_, rfl⟩
  have answers {q' : Query} {ps : Parameters} {log : List Entry} (h : Recorded s t log ps q')
      {composed : Parts} (hc : q'.composeFrom base = .ok composed) :
      Edit.rows.answer q' = splitRows s.dialect composed := by
    rw [(Edit.reads_rows q').answer_self h.sound, h.compose_eq hs, hc, h.statement_eq.1]
    rfl
  obtain ⟨q, run, recorded⟩ := exists_recorded (g := id) (fun m hm => (calls m hm).isSteady)
    fun m hm => (calls m hm).entries_eq hs present
  rw [List.map_id] at run
  obtain ⟨composed, hc⟩ := recorded.exists_composed hs (.of_ne unmarked) fun e he => by
    obtain ⟨m, hm, he⟩ := List.mem_flatMap.mp he
    rw [((calls m hm).of_mem_rowEntries he).1]
    exact ⟨by decide, by decide⟩
  have start := recorded_ofStatement s t
  refine ⟨q, rows, run, (answers start start.composeFrom_nil).trans hr, ?_, ?_⟩
  · rw [answers recorded hc]
    exact recorded.splitRows_eq calls hw balanced hr hc
  · intro row hm
    refine Dialect.mapM_unquoteValue (by simp) ?_
    rcases List.mem_append.mp hm with hm | hm
    · exact (Mutation.of_mem_rowsAt calls hm).2
    · exact (Mutation.of_mem_rowsAt calls hm).2

/-- Quotes, commas and parentheses in values stay in the literals of their row. -/
theorem rows_read_back_insert :
    ∃ q, (forM [.rows [[.text "(,'".toList, .null]] {},
          .rows [[.int (-5), .text []]] { placement := some .prepend }] Edit.mutate).run
        (ofStatement {} "INSERT INTO t (a,b) VALUES (1, ')')".toList) = .ok () q ∧
      Edit.rows.answer q = .ok [["-5".toList, "''".toList], ["1".toList, "')'".toList],
        ["'(,\\''".toList, "DEFAULT".toList]] := by
  obtain ⟨ms, hm⟩ : ∃ ms, ms = [Mutation.rows [[.text "(,'".toList, .null]] {},
      .rows [[.int (-5), .text []]] { placement := some .prepend }] := ⟨_, rfl⟩
  have parts : split {} "INSERT INTO t (a,b) VALUES (1, ')')".toList = .ok
      ⟨[("insert", []), ("into", ['t']), ("columns", "a,b".toList), ("set", []),
        ("values", "(1, ')')".toList), ("query", []), (duplicateKey, [])]⟩ := by
    decide +kernel
  have calls : ∀ m ∈ ms, m.AddsRows := by
    rw [hm]
    refine List.forall_mem_cons.mpr ⟨?_, List.forall_mem_singleton.mpr ?_⟩
    · exact ⟨by decide, by simp [Value.IsPlain]⟩
    · exact ⟨by decide, by simp [Value.IsPlain]⟩
  obtain ⟨q, rows, run, stated, answer, -⟩ :=
    rows_read_back parts (by decide +kernel) (by decide +kernel) calls
  refine ⟨q, hm ▸ run, answer.trans ?_⟩
  have listed : Edit.rows.answer (ofStatement {} "INSERT INTO t (a,b) VALUES (1, ')')".toList) =
      .ok [["1".toList, "')'".toList]] := by decide +kernel
  cases stated.symm.trans listed
  rw [hm]
  decide +kernel

end Query
end SqlStatement
