import SqlStatement.Proofs.Conjoining
import SqlStatement.Proofs.Gathering

/-!
# Columns that are read back

Calls put their columns in front of the columns of a SELECT or DELETE or behind
them, with commas in between. Where the new columns are balanced, each of these
commas stands outside of groups, as a parenthesis without a partner among the
stated columns finds none in them. So the columns are cut there, and the list
that is read has those of all calls in their order around the stated ones.
-/
namespace SqlStatement

namespace Text

/-- Joined texts are not blank if one of them is not. -/
theorem trim_joinWith_ne_nil {separator : Text} {ts : List Text} {t : Text} (ht : t ∈ ts)
    (h : trim t ≠ []) : trim (joinWith separator ts) ≠ [] := by
  rw [Ne, trim_eq_nil_iff] at h ⊢
  exact fun white => h fun c hc => white c (mem_joinWith ht hc)

end Text

namespace Dialect
variable {d : Dialect} {t : Text}

/-- A text among balanced texts, with commas between all of them, is closed if it was one before,
and it is cut at these commas. -/
theorem splitTopLevel_joinWith_append_cons {before after : List Text} (ht : d.Closed t)
    (hb : ∀ u ∈ before, d.isBalanced u = true) (ha : ∀ u ∈ after, d.isBalanced u = true) :
    d.Closed (Text.joinWith [',', ' '] (before ++ t :: after)) ∧
      d.splitTopLevel (Text.joinWith [',', ' '] (before ++ t :: after)) =
        before.flatMap d.splitTopLevel ++ (d.splitTopLevel t ++ after.flatMap d.splitTopLevel) := by
  have comma : d.Closed [',', ' '] := closed_of_isBalanced isBalanced_comma
  have joined {us : List Text} (hu : ∀ u ∈ us, d.isBalanced u = true) :=
    isBalanced_joinWith (d := d) isBalanced_comma hu
  have behind : d.Closed (Text.joinWith [',', ' '] (t :: after)) ∧
      d.splitTopLevel (Text.joinWith [',', ' '] (t :: after)) =
        d.splitTopLevel t ++ after.flatMap d.splitTopLevel := by
    cases after with
    | nil => simpa using ht
    | cons u us =>
        rw [Text.joinWith_cons_cons, splitTopLevel_append_comma ht (.inr (joined ha)),
          splitTopLevel_joinWith_comma ha]
        exact ⟨(ht.append comma).append (closed_of_isBalanced (joined ha)), rfl⟩
  by_cases none : before = []
  · rwa [none, List.nil_append, List.flatMap_nil, List.nil_append]
  · have front := closed_of_isBalanced (joined hb)
    rw [Text.joinWith_append_cons none, splitTopLevel_append_comma front (.inl (joined hb)),
      splitTopLevel_joinWith_comma hb, behind.2]
    exact ⟨(front.append comma).append behind.1, rfl⟩

/-- The items of a text with balanced fragments around it, as they are written into a list. -/
theorem splitTopLevel_chain {a : Addition} (ht : d.Closed t)
    (ha : ∀ u ∈ a.prepend ++ a.append, d.isBalanced u = true) :
    d.Closed (Text.joinWith [',', ' '] (a.chain (Text.trim t))) ∧
      d.splitTopLevel (Text.joinWith [',', ' '] (a.chain (Text.trim t))) =
        a.prepend.flatMap d.splitTopLevel ++
          (d.splitTopLevel t ++ a.append.flatMap d.splitTopLevel) := by
  obtain ⟨before, behind⟩ := List.forall_mem_append.mp ha
  rw [← splitTopLevel_trim ht, Addition.chain]
  by_cases blank : Text.trim t = []
  · have nothing : d.splitTopLevel [] = [] := by simp [splitTopLevel_eq]
    rw [blank, List.isEmpty_nil, if_pos rfl, List.append_nil, splitTopLevel_joinWith_comma ha,
      List.flatMap_append, nothing, List.nil_append]
    exact ⟨closed_of_isBalanced (isBalanced_joinWith isBalanced_comma ha), rfl⟩
  · rw [if_neg (by simpa using blank), List.append_assoc, List.singleton_append]
    exact splitTopLevel_joinWith_append_cons ht.levelWith_trim.left before behind

end Dialect

namespace Mutation
variable {s : Settings} {t : Text} {m : Mutation} {ms : List Mutation}

/-- The columns of a mutation that adds columns, as they are written. -/
def newColumns (s : Settings) : Mutation → List Text
  | columns cs o => (cs.mapM (quoteIdentifier s (o.quote.getD .smart))).toOption.getD []
  | _ => []

/-- Where a mutation puts its columns. -/
def columnSide : Mutation → Placement
  | columns _ o => o.placement.getD .append
  | _ => .append

/-- A mutation that adds columns in front or behind, balanced as they are written. -/
def AddsColumns (s : Settings) : Mutation → Prop
  | columns cs o => o.placement ≠ some .replace ∧
      ∃ quoted, cs.mapM (quoteIdentifier s (o.quote.getD .smart)) = .ok quoted ∧
        ∀ c ∈ quoted, s.dialect.isBalanced c = true
  | _ => False

/-- The columns that go to one side, in the order of the calls. -/
def columnsAt (s : Settings) (side : Placement) (ms : List Mutation) : List Text :=
  (ms.filter (·.columnSide = side)).flatMap (newColumns s)

/-- What a mutation that adds columns records. -/
def columnEntries (s : Settings) (m : Mutation) : List Entry :=
  [("columns", m.columnSide, Text.joinWith [',', ' '] (m.newColumns s))]

theorem AddsColumns.isSteady (h : m.AddsColumns s) : m.IsSteady := by
  cases m with
  | columns => trivial
  | _ => exact h.elim

theorem AddsColumns.columnSide_ne (h : m.AddsColumns s) : m.columnSide ≠ .replace := by
  cases m with
  | columns cs o => exact PartOptions.getD_placement_ne h.1
  | _ => exact h.elim

theorem AddsColumns.isBalanced (h : m.AddsColumns s) :
    ∀ c ∈ m.newColumns s, s.dialect.isBalanced c = true := by
  cases m with
  | columns cs o =>
      obtain ⟨-, quoted, hq, balanced⟩ := h
      rw [newColumns, hq]
      exact balanced
  | _ => exact h.elim

theorem listed_nil (s : Settings) (o : PartOptions) (cs : List Text) :
    Change.listed s o [] cs =
      (cs.mapM (quoteIdentifier s (o.quote.getD .smart))).map (Text.joinWith [',', ' ']) := by
  have bare : (fun t => (do return (← quoteIdentifier s (o.quote.getD .smart) t) ++ [] :
      Except Error Text)) = quoteIdentifier s (o.quote.getD .smart) := by
    funext t
    cases quoteIdentifier s (o.quote.getD .smart) t with
    | error e => rfl
    | ok u => exact congrArg Except.ok (List.append_nil u)
  rw [Change.listed, bare]
  cases cs.mapM (quoteIdentifier s (o.quote.getD .smart)) <;> rfl

/-- The columns of one call are recorded as one fragment. -/
theorem AddsColumns.entries_eq (h : m.AddsColumns s) {base : Parts} (hs : split s t = .ok base)
    (hc : base.contains "columns" = true) : m.entries s t = .ok (m.columnEntries s) := by
  cases m with
  | columns cs o =>
      obtain ⟨-, quoted, hq, -⟩ := h
      have change : (Mutation.columns cs o).change?.answer (Query.ofStatement s t) =
          .ok (some (.single "columns" o .append (Text.joinWith [',', ' '] quoted))) := by
        refine (answer_of_worked_out rfl _).trans ?_
        change ((Change.listed s o [] cs) >>= _).map some = _
        rw [listed_nil, hq]
        rfl
      rw [entries_of_change change hs hc, columnEntries, newColumns, hq]
      rfl
  | _ => exact h.elim

theorem AddsColumns.of_mem_columnEntries (h : m.AddsColumns s) {e : Entry}
    (he : e ∈ m.columnEntries s) : e.1 = "columns" ∧ e.2.1 ≠ .replace := by
  rw [List.mem_singleton.mp he]
  exact ⟨rfl, h.columnSide_ne⟩

/-- The fragments on one side are those of the calls that put their columns there. -/
theorem side_columnEntries (side : Placement) (ms : List Mutation) :
    Entry.side "columns" side (ms.flatMap (columnEntries s)) =
      (ms.filter (·.columnSide = side)).map
        fun m => Text.joinWith [',', ' '] (m.newColumns s) := by
  rw [List.map_eq_flatMap]
  exact Entry.side_flatMap "columns" columnSide
    (fun m => [Text.joinWith [',', ' '] (m.newColumns s)]) side ms

/-- The fragments are balanced, and their items are those of the columns. -/
theorem of_side_columnEntries (h : ∀ m ∈ ms, m.AddsColumns s) (side : Placement) :
    (∀ u ∈ Entry.side "columns" side (ms.flatMap (columnEntries s)),
        s.dialect.isBalanced u = true) ∧
      (Entry.side "columns" side (ms.flatMap (columnEntries s))).flatMap s.dialect.splitTopLevel =
        (columnsAt s side ms).flatMap s.dialect.splitTopLevel := by
  have balanced : ∀ m ∈ ms.filter (·.columnSide = side),
      ∀ c ∈ m.newColumns s, s.dialect.isBalanced c = true :=
    fun m hm => (h m (List.mem_of_mem_filter hm)).isBalanced
  rw [side_columnEntries, columnsAt, List.flatMap_map, List.flatMap_assoc]
  refine ⟨List.forall_mem_map.mpr fun m hm =>
    Dialect.isBalanced_joinWith Dialect.isBalanced_comma (balanced m hm), ?_⟩
  exact List.flatMap_congr fun m hm => Dialect.splitTopLevel_joinWith_comma (balanced m hm)

/-- Where a column is not blank its fragment is not. -/
theorem exists_side_columnEntries {side : Placement} {c : Text} (hc : c ∈ columnsAt s side ms)
    (hn : Text.trim c ≠ []) :
    ∃ u ∈ Entry.side "columns" side (ms.flatMap (columnEntries s)), Text.trim u ≠ [] := by
  obtain ⟨m, hm, hc⟩ := List.mem_flatMap.mp hc
  rw [side_columnEntries]
  exact ⟨_, List.mem_map_of_mem hm, Text.trim_joinWith_ne_nil hc hn⟩

end Mutation

namespace Query
open Mutation (columnsAt columnEntries)
variable {s : Settings} {t : Text} {base : Parts} {ms : List Mutation}

/-- A SELECT or DELETE has a part for columns. -/
theorem contains_columns (hs : split s t = .ok base)
    (type : StatementType.detect s.dialect t ∈ [some .select, some .delete]) :
    base.contains "columns" = true := by
  obtain ⟨type', p, hd, hp, keys⟩ := exists_keys_split hs
  rw [OrderedMap.contains_iff, keys]
  rw [hd] at type
  cases type' with
  | select | delete =>
      cases hp
      cases s.dialect <;> decide
  | _ => simp at type

/-- Fragments for the columns of a SELECT or DELETE end up around them, unless all of them are
blank. -/
theorem Recorded.get?_columns {log : List Entry} {ps : Parameters} {q : Query}
    (h : Recorded s t log ps q) (hs : split s t = .ok base)
    (type : StatementType.detect s.dialect t ∈ [some .select, some .delete])
    (only : ∀ e ∈ log, e.1 = "columns" ∧ e.2.1 ≠ .replace) (written : log ≠ []) {u : Text}
    (hu : u ∈ (addition "columns" log).chain (Text.trim (Parts.text base "columns")))
    (hn : Text.trim u ≠ []) :
    ∃ composed, q.composeFrom base = .ok composed ∧
      composed.get? "columns" = some (Text.trim (Text.joinWith [',', ' ']
        ((addition "columns" log).chain (Text.trim (Parts.text base "columns"))))) := by
  have nodup := h.holds.nodup
  have unmarked : duplicateKey ∉ base.keys := by
    simp only [List.mem_cons, List.not_mem_nil, or_false] at type
    rcases type with type | type
    · exact duplicateKey_not_mem_keys (by simp) type hs
    · exact duplicateKey_not_mem_keys (by simp) type hs
  obtain ⟨composed, hc⟩ : ∃ composed, q.composeFrom base = .ok composed := by
    refine exists_composeFrom ⟨_, expandMarker_of_ne fun w hw => absurd ?_ unmarked⟩
    rw [get?_fillColumns _ (by decide)] at hw
    rw [← keys_merged nodup (nodup_keys_split hs) (h.keys_inside hs), ← OrderedMap.contains_iff,
      OrderedMap.contains, hw]
    rfl
  have merged : (q.merged base).get? "columns" = some (Text.joinWith [',', ' ']
      ((addition "columns" log).chain (Text.trim (Parts.text base "columns")))) := by
    rw [get?_merged nodup, h.rewritten_eq only written]
    rfl
  refine ⟨composed, hc, ?_⟩
  rw [get?_composeFrom_of_ne hc (h.holds.isMutated_of_ne_nil written) (by decide),
    get?_fillColumns_columns, if_neg, merged, Option.map_some]
  rintro ⟨-, blank⟩
  rw [Parts.text, merged] at blank
  exact Text.trim_joinWith_ne_nil hu hn blank

/-- Where some column is not blank the list that is written has an element that is not. -/
theorem exists_mem_chain_columns {w : Text}
    (h : ∃ c ∈ columnsAt s .prepend ms ++ w :: columnsAt s .append ms, Text.trim c ≠ []) :
    ∃ u ∈ (addition "columns" (ms.flatMap (columnEntries s))).chain (Text.trim w),
      Text.trim u ≠ [] := by
  obtain ⟨c, hc, hn⟩ := h
  rw [Addition.chain, addition]
  rcases List.mem_append.mp hc with hc | hc
  · obtain ⟨u, hu, visible⟩ := Mutation.exists_side_columnEntries hc hn
    exact ⟨u, by simp [hu], visible⟩
  · rcases List.mem_cons.mp hc with rfl | hc
    · exact ⟨Text.trim c, by simp [hn], by rwa [Text.trim_trim]⟩
    · obtain ⟨u, hu, visible⟩ := Mutation.exists_side_columnEntries hc hn
      exact ⟨u, by simp [hu], visible⟩

/-- The columns of a SELECT or DELETE are read back with those that calls have added: those put in
front in the order of the calls, those of the statement, and those put behind in the order of the
calls. The columns of the statement may have parentheses without a partner. Where all are blank, a
SELECT gets the star. -/
theorem columns_read_back (hs : split s t = .ok base)
    (type : StatementType.detect s.dialect t ∈ [some .select, some .delete])
    (closed : s.dialect.Closed (Parts.text base "columns"))
    (calls : ∀ m ∈ ms, m.AddsColumns s) :
    ∃ q, (forM ms Edit.mutate).run (ofStatement s t) = .ok () q ∧
      ((∃ c ∈ columnsAt s .prepend ms ++ Parts.text base "columns" :: columnsAt s .append ms,
          Text.trim c ≠ []) →
        Edit.columns.answer q = .ok ((columnsAt s .prepend ms).flatMap s.dialect.splitTopLevel ++
          (s.dialect.splitTopLevel (Parts.text base "columns") ++
            (columnsAt s .append ms).flatMap s.dialect.splitTopLevel))) := by
  have present := contains_columns hs type
  obtain ⟨q, run, recorded⟩ := exists_recorded (g := id) (fun m hm => (calls m hm).isSteady)
    fun m hm => (calls m hm).entries_eq hs present
  rw [List.map_id] at run
  refine ⟨q, run, fun some => ?_⟩
  have read {composed : Parts} (made : q.composeFrom base = .ok composed) :
      Edit.columns.answer q = splitColumns s.dialect composed := by
    rw [(Edit.reads_columns q).answer_self recorded.sound, recorded.compose_eq hs, made,
      recorded.statement_eq.1]
    rfl
  by_cases none : ms = []
  · subst none
    obtain ⟨w, hw⟩ := Option.isSome_iff_exists.mp present
    rw [read recorded.composeFrom_nil, splitColumns, Parts.require, hw, Parts.text, hw]
    exact congrArg Except.ok (List.append_nil _).symm
  · have only : ∀ e ∈ ms.flatMap (columnEntries s), e.1 = "columns" ∧ e.2.1 ≠ .replace := by
      intro e he
      obtain ⟨m, hm, he⟩ := List.mem_flatMap.mp he
      exact (calls m hm).of_mem_columnEntries he
    have written : ms.flatMap (columnEntries s) ≠ [] := by
      obtain ⟨m, ms, rfl⟩ := List.exists_cons_of_ne_nil none
      exact List.cons_ne_nil _ _
    have sides := Mutation.of_side_columnEntries calls
    obtain ⟨u, hu, visible⟩ := exists_mem_chain_columns some
    obtain ⟨composed, made, columns⟩ := recorded.get?_columns hs type only written hu visible
    obtain ⟨listed, items⟩ := Dialect.splitTopLevel_chain
      (a := addition "columns" (ms.flatMap (columnEntries s))) closed
      (List.forall_mem_append.mpr ⟨(sides .prepend).1, (sides .append).1⟩)
    rw [read made, splitColumns, Parts.require, columns]
    refine congrArg Except.ok ?_
    rw [Dialect.splitTopLevel_trim listed, items, addition, (sides .prepend).2, (sides .append).2]

/-- A call of a function that is never closed takes none of the columns around it in. -/
theorem columns_read_back_select :
    ∃ q, (forM [.columns ["c".toList, "g(x, y)".toList] {},
          .columns ["d".toList] { placement := some .prepend }] Edit.mutate).run
        (ofStatement {} "SELECT f(a, b FROM t".toList) = .ok () q ∧
      Edit.columns.answer q = .ok ["`d`".toList, "f".toList, "a".toList, "b".toList,
        "`c`".toList, "g(`x`, `y`)".toList] := by
  obtain ⟨ms, hm⟩ : ∃ ms, ms = [Mutation.columns ["c".toList, "g(x, y)".toList] {},
      .columns ["d".toList] { placement := some .prepend }] := ⟨_, rfl⟩
  have parts : split {} "SELECT f(a, b FROM t".toList = .ok
      ⟨[("select", []), ("columns", "f(a, b".toList), ("from", ['t']), ("where", []),
        ("group by", []), ("having", []), ("order by", []), ("limit", []), ("options", [])]⟩ := by
    decide +kernel
  have calls : ∀ m ∈ ms, m.AddsColumns {} := by
    rw [hm]
    refine List.forall_mem_cons.mpr ⟨?_, List.forall_mem_singleton.mpr ?_⟩
    · exact ⟨by decide, ["`c`".toList, "g(`x`, `y`)".toList], by decide +kernel,
        by decide +kernel⟩
    · exact ⟨by decide, ["`d`".toList], by decide +kernel, by decide +kernel⟩
  obtain ⟨q, run, answer⟩ :=
    columns_read_back parts (by decide +kernel) (by decide +kernel) calls
  refine ⟨q, hm ▸ run, (answer ?_).trans ?_⟩
  · exact ⟨"f(a, b".toList, by simp [Parts.text, OrderedMap.get?, OrderedMap.find?], by decide⟩
  · rw [hm]
    decide +kernel

end Query
end SqlStatement
