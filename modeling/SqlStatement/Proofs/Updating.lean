import SqlStatement.Proofs.Items
import SqlStatement.Proofs.Recording

/-!
# Assignments for a duplicate key

Every call that updates columns on a duplicate key records its assignments as
one fragment. The fragments are joined with the text of the statement by blanks,
not by commas as those of the other lists are. So the assignments of two calls,
or of a call and of the statement, stay apart only where the statement has a
comma of its own to part them.
-/
namespace SqlStatement

namespace Text
variable {separator : Text}

theorem joinWith_append_cons {ts : List Text} (h : ts ≠ []) (t : Text) (us : List Text) :
    joinWith separator (ts ++ t :: us) =
      joinWith separator ts ++ separator ++ joinWith separator (t :: us) := by
  induction ts with
  | nil => exact absurd rfl h
  | cons u ts ih =>
      cases ts with
      | nil => rfl
      | cons v ts =>
          rw [List.cons_append, List.cons_append, joinWith_cons_cons, ← List.cons_append,
            ih (by simp), joinWith_cons_cons]
          simp only [List.append_assoc]

theorem mem_joinWith {ts : List Text} {t : Text} {c : Char} (ht : t ∈ ts) (hc : c ∈ t) :
    c ∈ joinWith separator ts := by
  induction ts with
  | nil => cases ht
  | cons u ts ih =>
      cases ts with
      | nil => exact List.mem_singleton.mp ht ▸ hc
      | cons v ts =>
          rw [joinWith_cons_cons, List.mem_append, List.mem_append]
          rcases List.mem_cons.mp ht with rfl | ht
          · exact .inl (.inl hc)
          · exact .inr (ih ht)

theorem mem_trim {t : Text} {c : Char} (hc : c ∈ t) (hw : isWhite c = false) : c ∈ trim t := by
  obtain ⟨front, behind, ht, hf, hb⟩ := exists_trim t
  have black {u : Text} (hu : trim u = []) : c ∉ u := fun hm => by
    rw [trim_eq_nil_iff.mp hu c hm] at hw
    cases hw
  rw [ht, List.mem_append, List.mem_append] at hc
  exact (hc.resolve_right (black hb)).resolve_left (black hf)

theorem trim_joinWith {ts : List Text} (hs : trim separator = []) (h : ∀ t ∈ ts, trim t = []) :
    trim (joinWith separator ts) = [] := by
  refine joinWith_induction (P := (trim · = [])) rfl (fun t u ht hu => ?_) h
  rw [trim_append_eq_nil_iff, trim_append_eq_nil_iff]
  exact ⟨⟨ht, hs⟩, hu⟩

/-- Blank texts around a text are trimmed away. -/
theorem trim_joinWith_append_cons {ts us : List Text} (hs : trim separator = [])
    (ht : ∀ t ∈ ts, trim t = []) (t : Text) (hu : ∀ t ∈ us, trim t = []) :
    trim (joinWith separator (ts ++ t :: us)) = trim t := by
  have behind : trim (joinWith separator (t :: us)) = trim t := by
    cases us with
    | nil => rfl
    | cons u us =>
        rw [joinWith_cons_cons, trim_append_right (trim_joinWith hs hu), trim_append_right hs]
  by_cases h : ts = []
  · rw [h, List.nil_append, behind]
  · have front : trim (joinWith separator ts ++ separator) = [] :=
      trim_append_eq_nil_iff.mpr ⟨trim_joinWith hs ht, hs⟩
    rw [joinWith_append_cons h, trim_append_left front, behind]

end Text

namespace OrderedMap
variable {κ α β : Type} [DecidableEq κ]

theorem find?_map (f : κ → α → β) (key : κ) (l : List (κ × α)) :
    find? key (l.map fun p => (p.1, f p.1 p.2)) = (find? key l).map (f key) := by
  induction l with
  | nil => rfl
  | cons p l ih =>
      obtain ⟨k, v⟩ := p
      by_cases hk : k = key
      · simp [find?, hk]
      · simp [find?, hk, ih]

end OrderedMap

/-- Fragments and the text among them have spaces between them, blank or not. -/
theorem Addition.spaced_eq (a : Addition) (t : Text) :
    a.spaced t = Text.joinWith [' '] (a.prepend ++ t :: a.append) := by
  obtain ⟨prepend, append⟩ := a
  have behind : t ++ (if append.isEmpty then [] else ' ' :: Text.joinWith [' '] append) =
      Text.joinWith [' '] (t :: append) := by
    cases append with
    | nil => exact List.append_nil t
    | cons u us => simp [Text.joinWith_cons_cons]
  rw [spaced, List.append_assoc, behind]
  by_cases h : prepend = []
  · simp [h]
  · rw [Text.joinWith_append_cons h, if_neg (by simpa using h)]

theorem Addition.merge?_duplicateKey (d : Dialect) (a : Addition) (t : Text) :
    a.merge? d Query.duplicateKey t = some (a.spaced t) := by
  simp [merge?, Query.duplicateKey]

/-- A text among the fragments for its part, with blanks between them. -/
def Entry.among (part : String) (log : List Entry) (t : Text) : Text :=
  Text.joinWith [' '] (side part .prepend log ++ t :: side part .append log)

namespace Query

/-- Around a text, fragments of assignments do not make up the marker if the text does not. -/
theorem trim_joinWith_ne_updateMarker {prepend append : List Text} {t : Text}
    (h : ∀ u ∈ prepend ++ append, u = [] ∨ '=' ∈ u) (ht : Text.trim t ≠ updateMarker) :
    Text.trim (Text.joinWith [' '] (prepend ++ t :: append)) ≠ updateMarker := by
  by_cases written : ∃ u ∈ prepend ++ append, '=' ∈ u
  · obtain ⟨u, hu, hc⟩ := written
    have found : '=' ∈ Text.joinWith [' '] (prepend ++ t :: append) :=
      Text.mem_joinWith (List.perm_middle.mem_iff.mpr (List.mem_cons_of_mem t hu)) hc
    intro marked
    have := Text.mem_trim found (by decide)
    rw [marked] at this
    exact absurd this (by decide)
  · have blank (u : Text) (hu : u ∈ prepend ++ append) : Text.trim u = [] := by
      have empty := (h u hu).resolve_right fun hc => written ⟨u, hu, hc⟩
      rw [empty]
      rfl
    rw [Text.trim_joinWith_append_cons (by decide)
      (fun u hu => blank u (List.mem_append_left _ hu)) t
      fun u hu => blank u (List.mem_append_right _ hu)]
    exact ht

variable {s : Settings} {t : Text} {log : List Entry} {ps : Parameters} {q : Query} {base : Parts}

/-- Filling in all columns of a SELECT concerns no other part. -/
theorem get?_fillColumns (ps : Parts) {key : String} (h : "columns" ≠ key) :
    (fillColumns ps).get? key = ps.get? key := by
  rw [fillColumns]
  split
  · rw [OrderedMap.get?_insert_of_ne _ h]
  · rfl

theorem Recorded.get?_additions (h : Recorded s t log ps q) {key : String}
    (written : Entry.side key .prepend log ++ Entry.side key .append log ≠ []) :
    q.additions.get? key = some ⟨Entry.side key .prepend log, Entry.side key .append log⟩ := by
  rw [h.holds.additions, Addition.of?, if_neg]
  simpa [List.isEmpty_iff] using written

/-- Fragments for a duplicate key end up around the text of the statement. -/
theorem Recorded.get?_addParts (h : Recorded s t log ps q) (hs : split s t = .ok base)
    (written : Entry.side duplicateKey .prepend log ++ Entry.side duplicateKey .append log ≠ []) :
    (addParts s.dialect base q.additions).get? duplicateKey =
      some (Entry.among duplicateKey log (Text.trim (Parts.text base duplicateKey))) := by
  have added := h.get?_additions written
  have inside : duplicateKey ∈ base.keys := (h.keys_inside hs).2 duplicateKey
    (OrderedMap.contains_iff.mp (by rw [OrderedMap.contains, added]; rfl))
  obtain ⟨old, text⟩ := Option.isSome_iff_exists.mp (OrderedMap.contains_iff.mpr inside)
  have merged := OrderedMap.find?_map (fun key value => ((q.additions.get? key).bind fun a =>
    a.merge? s.dialect key (Text.trim (Parts.text base key))).getD value) duplicateKey base.toList
  rw [addParts_eq (nodup_keys_split hs) h.holds.nodup.2 (h.keys_inside hs).2]
  refine merged.trans ?_
  rw [← OrderedMap.get?, text, added]
  simp only [Option.map_some, Option.bind_some, Addition.merge?_duplicateKey, Option.getD_some,
    Addition.spaced_eq, Entry.among]

/-- The text for a duplicate key has the segments of the text of the statement and the fragments
for it with blanks between them, unless these make up the marker. -/
theorem Recorded.exists_compose (h : Recorded s t log ps q) (hs : split s t = .ok base)
    (only : ∀ e ∈ log, e.1 = duplicateKey ∧ e.2.1 ≠ .replace)
    (balanced : s.dialect.isBalanced (Parts.text base duplicateKey) = true) {text : Text}
    (among : Entry.among duplicateKey log (Text.trim (Parts.text base duplicateKey)) = text)
    (around : s.dialect.isBalanced text = true) (unmarked : Text.trim text ≠ updateMarker) :
    ∃ composed, q.compose = .ok composed ∧
      s.dialect.fields (Parts.text composed duplicateKey) = s.dialect.fields text := by
  have elsewhere {key : String} {side : Placement} (hk : key ≠ duplicateKey ∨ side = .replace) :
      Entry.side key side log = [] := by
    refine List.filterMap_eq_nil_iff.mpr fun e he => if_neg ?_
    obtain ⟨hd, hr⟩ := only e he
    rintro ⟨rfl, rfl⟩
    exact hk.elim (· hd) hr
  have unreplaced : q.replacements.isEmpty = true := OrderedMap.isEmpty_iff.mpr fun key => by
    rw [h.holds.replacements, elsewhere (.inr rfl)]
    rfl
  rw [h.compose_eq hs]
  by_cases written :
      Entry.side duplicateKey .prepend log ++ Entry.side duplicateKey .append log = []
  · obtain ⟨before, behind⟩ := List.append_eq_nil_iff.mp written
    have unadded : q.additions.isEmpty = true := OrderedMap.isEmpty_iff.mpr fun key => by
      rw [h.holds.additions]
      by_cases hk : key = duplicateKey
      · rw [hk, before, behind]
        rfl
      · rw [elsewhere (.inl hk), elsewhere (.inl hk)]
        rfl
    refine ⟨base, ?_, ?_⟩
    · rw [composeFrom, if_neg (by simp [isMutated, unreplaced, unadded])]
    · rw [← among, Entry.among, before, behind, List.nil_append, Text.joinWith_singleton,
        Dialect.fields_trim (Dialect.closed_of_isBalanced balanced)]
  · have merged := (h.get?_addParts hs written).trans (congrArg some among)
    have mutated : q.isMutated = true := by
      have added : q.additions.isEmpty = false := Bool.eq_false_iff.mpr fun empty => by
        have none := OrderedMap.isEmpty_iff.mp empty duplicateKey
        rw [h.get?_additions written] at none
        cases none
      rw [isMutated, added, Bool.not_false, Bool.or_true]
    have kept : (fillColumns (addParts s.dialect base q.additions)).get? duplicateKey =
        some text := (get?_fillColumns _ (by decide)).trans merged
    have unexpanded : expandMarker s (fillColumns (addParts s.dialect base q.additions)) =
        .ok (fillColumns (addParts s.dialect base q.additions)) := by
      rw [expandMarker, kept, if_neg (by simpa using unmarked)]
      rfl
    have composed : q.composeFrom base =
        .ok ((fillColumns (addParts s.dialect base q.additions)).mapValues Text.trim) := by
      rw [composeFrom, if_pos mutated, List.isEmpty_iff.mp unreplaced, h.statement_eq.1]
      simp only [List.foldl_nil, unexpanded]
      rfl
    have text := OrderedMap.find?_map (fun _ => Text.trim) duplicateKey
      (fillColumns (addParts s.dialect base q.additions)).toList
    refine ⟨_, composed, ?_⟩
    rw [Parts.text, OrderedMap.mapValues, OrderedMap.get?, text, ← OrderedMap.get?, kept]
    exact Dialect.fields_trim (Dialect.closed_of_isBalanced around)

end Query

namespace Mutation

/-- The assignments that a mutation writes for a duplicate key. -/
def written (s : Settings) : Mutation → Except Error (List Text)
  | updateInsertedColumns cs => cs.mapM (Query.insertedAssignment s)
  | updateAssign assignments o =>
      assignments.mapM (Change.duplicateAssignment s (o.quote.getD .smart))
  | _ => .ok []

/-- These assignments, none if the mutation fails. -/
def updates (s : Settings) (m : Mutation) : List Text := (m.written s).toOption.getD []

/-- Where a mutation puts its assignments for a duplicate key. -/
def updateSide : Mutation → Placement
  | updateAssign _ o => o.placement.getD .append
  | _ => .append

/-- A mutation that adds assignments for a duplicate key, of values or of expressions that are
items. -/
def AddsUpdates (s : Settings) : Mutation → Prop
  | updateInsertedColumns _ => True
  | updateAssign assignments o => o.placement ≠ some .replace ∧
      ∀ a ∈ assignments, ∀ t, a.2 = .expression t → KeepsItem s (o.quote.getD .smart) t
  | _ => False

variable {s : Settings} {t : Text} {m : Mutation}

theorem AddsUpdates.isSteady (h : m.AddsUpdates s) : m.IsSteady := by
  cases m with
  | updateInsertedColumns | updateAssign => trivial
  | _ => exact h.elim

theorem AddsUpdates.updateSide_ne (h : m.AddsUpdates s) : m.updateSide ≠ .replace := by
  cases m with
  | updateInsertedColumns cs => simp [updateSide]
  | updateAssign assignments o => exact PartOptions.getD_placement_ne h.1
  | _ => exact h.elim

theorem AddsUpdates.isAssignment (h : m.AddsUpdates s) :
    ∀ u ∈ m.updates s, s.dialect.IsAssignment u := by
  rw [updates]
  cases hw : m.written s with
  | error e => simp [Except.toOption]
  | ok us =>
      intro u hu
      cases m with
      | updateInsertedColumns cs =>
          obtain ⟨column, -, hc⟩ := exists_of_mem_mapM hw u hu
          exact isAssignment_insertedAssignment hc
      | updateAssign assignments o =>
          obtain ⟨a, ha, hc⟩ := exists_of_mem_mapM hw u hu
          exact isAssignment_duplicateAssignment hc (h.2 a ha)
      | _ => exact h.elim

/-- A mutation that adds assignments for a duplicate key adds them as one fragment. -/
theorem AddsUpdates.log_eq (h : m.AddsUpdates s) {more : List Entry}
    (he : m.entries s t = .ok more) :
    m.log s t =
      [(Query.duplicateKey, m.updateSide, Text.joinWith [',', ' '] (m.updates s))] := by
  have change : m.change?.answer (Query.ofStatement s t) = (m.written s).map fun us =>
      some ⟨Query.duplicateKey, [(m.updateSide, Text.joinWith [',', ' '] us)]⟩ := by
    cases m with
    | updateInsertedColumns cs =>
        refine (answer_of_worked_out rfl _).trans ?_
        change ((cs.mapM (Query.insertedAssignment s)) >>= _).map some = _
        rw [written]
        cases cs.mapM (Query.insertedAssignment s) <;> rfl
    | updateAssign assignments o =>
        refine (answer_of_worked_out rfl _).trans ?_
        change ((assignments.mapM (Change.duplicateAssignment s (o.quote.getD .smart))) >>= _).map
          some = _
        rw [written]
        cases assignments.mapM (Change.duplicateAssignment s (o.quote.getD .smart)) <;> rfl
    | _ => exact h.elim
  rw [log, he, updates]
  rw [entries, change] at he
  cases hw : m.written s with
  | error e =>
      rw [hw] at he
      cases he
  | ok us =>
      rw [hw] at he
      obtain ⟨_, hc, he⟩ := bind_eq_ok_iff.mp he
      cases hc
      obtain ⟨base, -, he⟩ := bind_eq_ok_iff.mp he
      split at he
      · cases he
        rfl
      · cases he

/-- The assignments that go to one side, one list for each mutation. -/
def updatesAt (s : Settings) (side : Placement) (ms : List Mutation) : List (List Text) :=
  (ms.filter (·.updateSide = side)).map (updates s)

/-- The fragments that go to one side, one for each mutation. -/
def fragmentsAt (s : Settings) (side : Placement) (ms : List Mutation) : List Text :=
  (updatesAt s side ms).map (Text.joinWith [',', ' '])

/-- A text for a duplicate key among the fragments. -/
def textsAround (s : Settings) (ms : List Mutation) (t : Text) : List Text :=
  fragmentsAt s .prepend ms ++ t :: fragmentsAt s .append ms

variable {ms : List Mutation}

theorem among_flatMap_of_log_eq (h : ∀ m ∈ ms, m.log s t =
      [(Query.duplicateKey, m.updateSide, Text.joinWith [',', ' '] (m.updates s))]) (u : Text) :
    Entry.among Query.duplicateKey (ms.flatMap (log s t)) u =
      Text.joinWith [' '] (textsAround s ms u) := by
  have sides (side : Placement) :
      Entry.side Query.duplicateKey side (ms.flatMap (log s t)) = fragmentsAt s side ms := by
    rw [List.flatMap_congr h, fragmentsAt, updatesAt, List.map_map, List.map_eq_flatMap]
    exact Entry.side_flatMap Query.duplicateKey updateSide
      (fun m => [Text.joinWith [',', ' '] (m.updates s)]) side ms
  rw [Entry.among, sides, sides, textsAround]

theorem isAssignment_of_mem_updatesAt (h : ∀ m ∈ ms, m.AddsUpdates s) (side : Placement) :
    ∀ us ∈ updatesAt s side ms, ∀ u ∈ us, s.dialect.IsAssignment u := by
  intro us hus
  obtain ⟨m, hm, rfl⟩ := List.mem_map.mp hus
  exact (h m (List.mem_of_mem_filter hm)).isAssignment

/-- A fragment of assignments is balanced, and it is empty or has an equals sign. -/
theorem of_mem_fragmentsAt (h : ∀ m ∈ ms, m.AddsUpdates s) {side : Placement} {u : Text}
    (hu : u ∈ fragmentsAt s side ms) : s.dialect.isBalanced u = true ∧ (u = [] ∨ '=' ∈ u) := by
  obtain ⟨us, hus, rfl⟩ := List.mem_map.mp hu
  have assignments := isAssignment_of_mem_updatesAt h side us hus
  refine ⟨Dialect.isBalanced_joinWith Dialect.isBalanced_comma fun u hu =>
    (assignments u hu).1.isBalanced, ?_⟩
  cases us with
  | nil => exact .inl rfl
  | cons u us => exact .inr (Text.mem_joinWith List.mem_cons_self (assignments u (by simp)).2)

/-- The items of the fragments are the assignments. -/
theorem flatMap_fragmentsAt (h : ∀ m ∈ ms, m.AddsUpdates s) (side : Placement) :
    (fragmentsAt s side ms).flatMap s.dialect.splitTopLevel =
      (updatesAt s side ms).flatten.map Text.trim := by
  rw [fragmentsAt, List.flatMap_map, List.map_flatten, ← List.flatMap_def]
  exact List.flatMap_congr fun us hus => Dialect.IsAssignment.splitTopLevel_joinWith
    (isAssignment_of_mem_updatesAt h side us hus)

theorem isBalanced_of_mem_textsAround (h : ∀ m ∈ ms, m.AddsUpdates s) {u : Text}
    (hu : s.dialect.isBalanced u = true) :
    ∀ v ∈ textsAround s ms u, s.dialect.isBalanced v = true :=
  List.forall_mem_append.mpr ⟨fun _ hv => (of_mem_fragmentsAt h hv).1,
    List.forall_mem_cons.mpr ⟨hu, fun _ hv => (of_mem_fragmentsAt h hv).1⟩⟩

/-- The items of a text among the fragments are its items among the assignments exactly if commas
part the texts. -/
theorem splitTopLevel_textsAround_iff (h : ∀ m ∈ ms, m.AddsUpdates s) {u : Text}
    (hu : s.dialect.isBalanced u = true) :
    s.dialect.splitTopLevel (Text.joinWith [' '] (textsAround s ms u)) =
        (updatesAt s .prepend ms).flatten.map Text.trim ++
          (s.dialect.splitTopLevel u ++ (updatesAt s .append ms).flatten.map Text.trim) ↔
      s.dialect.Parted (textsAround s ms u) := by
  rw [← Dialect.splitTopLevel_joinWith_space_iff (isBalanced_of_mem_textsAround h hu), textsAround,
    List.flatMap_append, List.flatMap_cons, flatMap_fragmentsAt h, flatMap_fragmentsAt h]

/-- White characters at the ends of the text do not matter. -/
theorem parted_textsAround_trim {u : Text} (hu : s.dialect.isBalanced u = true) :
    s.dialect.Parted (textsAround s ms (Text.trim u)) ↔ s.dialect.Parted (textsAround s ms u) := by
  simp only [Dialect.Parted, textsAround, List.map_append, List.map_cons,
    Dialect.fields_trim (Dialect.closed_of_isBalanced hu)]

end Mutation

namespace Query
open Mutation (updatesAt textsAround)
variable {s : Settings} {t : Text} {base : Parts} {ms : List Mutation} {q : Query}

/-- Calls that add assignments leave the text of the statement among their fragments. -/
theorem exists_parts_of_addsUpdates (hs : split s t = .ok base)
    (balanced : s.dialect.isBalanced (Parts.text base duplicateKey) = true)
    (unmarked : Text.trim (Parts.text base duplicateKey) ≠ updateMarker)
    (calls : ∀ m ∈ ms, m.AddsUpdates s)
    (run : (forM ms Edit.mutate).run (ofStatement s t) = .ok () q) :
    ∃ composed, Edit.parts.answer q = .ok composed ∧
      s.dialect.fields (Parts.text composed duplicateKey) = s.dialect.fields
        (Text.joinWith [' '] (textsAround s ms (Text.trim (Parts.text base duplicateKey)))) := by
  have start := recorded_ofStatement s t
  have steady : ∀ m ∈ ms, m.IsSteady := fun m hm => (calls m hm).isSteady
  have recorded := start.of_forM steady run
  rw [List.nil_append] at recorded
  have logs : ∀ m ∈ ms, m.log s t =
      [(duplicateKey, m.updateSide, Text.joinWith [',', ' '] (m.updates s))] := fun m hm => by
    obtain ⟨more, entries⟩ := start.entries_of_forM steady run m hm
    exact (calls m hm).log_eq entries
  have only : ∀ e ∈ ms.flatMap (Mutation.log s t), e.1 = duplicateKey ∧ e.2.1 ≠ .replace := by
    intro e he
    obtain ⟨m, hm, he⟩ := List.mem_flatMap.mp he
    rw [logs m hm, List.mem_singleton] at he
    exact he ▸ ⟨rfl, (calls m hm).updateSide_ne⟩
  have trimmed := Dialect.isBalanced_trim balanced
  have around := Dialect.isBalanced_joinWith (Dialect.isBalanced_of_trim (t := [' ']) (by decide))
    (Mutation.isBalanced_of_mem_textsAround calls trimmed)
  have fragments : ∀ side, ∀ u ∈ Mutation.fragmentsAt s side ms, u = [] ∨ '=' ∈ u :=
    fun _ u hu => (Mutation.of_mem_fragmentsAt calls hu).2
  have marked := trim_joinWith_ne_updateMarker
    (List.forall_mem_append.mpr ⟨fragments .prepend, fragments .append⟩)
    ((Text.trim_trim _).symm ▸ unmarked)
  obtain ⟨composed, compose, fields⟩ := recorded.exists_compose hs only balanced
    (Mutation.among_flatMap_of_log_eq logs _) around marked
  exact ⟨composed, ((Edit.reads_parts q).answer_self recorded.sound).trans compose, fields⟩

/-- The items for a duplicate key are the assignments put in front, in the order of the calls, those
of the statement and those put behind, exactly if commas part the fragments of the calls and the
text of the statement; otherwise two items are run together. -/
theorem splitTopLevel_duplicateKey_iff (hs : split s t = .ok base)
    (balanced : s.dialect.isBalanced (Parts.text base duplicateKey) = true)
    (unmarked : Text.trim (Parts.text base duplicateKey) ≠ updateMarker)
    (calls : ∀ m ∈ ms, m.AddsUpdates s)
    (run : (forM ms Edit.mutate).run (ofStatement s t) = .ok () q) :
    ∃ composed, Edit.parts.answer q = .ok composed ∧
      (s.dialect.splitTopLevel (Parts.text composed duplicateKey) =
          (updatesAt s .prepend ms).flatten.map Text.trim ++
            (s.dialect.splitTopLevel (Parts.text base duplicateKey) ++
              (updatesAt s .append ms).flatten.map Text.trim) ↔
        s.dialect.Parted (textsAround s ms (Parts.text base duplicateKey))) := by
  obtain ⟨composed, answer, fields⟩ := exists_parts_of_addsUpdates hs balanced unmarked calls run
  refine ⟨composed, answer, ?_⟩
  have trimmed := Dialect.isBalanced_trim balanced
  have items := Mutation.splitTopLevel_textsAround_iff calls trimmed
  rw [Mutation.parted_textsAround_trim balanced,
    Dialect.splitTopLevel_trim (Dialect.closed_of_isBalanced balanced)] at items
  rw [Dialect.splitTopLevel_eq, fields, ← Dialect.splitTopLevel_eq]
  exact items

/-- The assignments of one call stay apart, with commas and quotes in their values or not. -/
theorem splitTopLevel_duplicateKey_call :
    ∃ q composed, (forM [.updateAssign [("a".toList, .value (.list [.text "(,'".toList, .null])),
        ("b".toList, .expression "GREATEST(b, 1)".toList)] {}] Edit.mutate).run
          (ofStatement {} "INSERT INTO t (a,b) VALUES (1,2)".toList) = .ok () q ∧
      Edit.parts.answer q = .ok composed ∧
      Dialect.mysql.splitTopLevel (Parts.text composed duplicateKey) =
        ["`a` = ('(,\\'', DEFAULT)".toList, "`b` = GREATEST(`b`, 1)".toList] := by
  obtain ⟨t, ht⟩ : ∃ t, t = "INSERT INTO t (a,b) VALUES (1,2)".toList := ⟨_, rfl⟩
  obtain ⟨ms, hm⟩ : ∃ ms, ms = [Mutation.updateAssign
      [("a".toList, .value (.list [.text "(,'".toList, .null])),
        ("b".toList, .expression "GREATEST(b, 1)".toList)] {}] := ⟨_, rfl⟩
  have parts : split {} t = .ok ⟨[("insert", []), ("into", ['t']), ("columns", "a,b".toList),
      ("set", []), ("values", "(1,2)".toList), ("query", []), (duplicateKey, [])]⟩ := by
    rw [ht]
    decide +kernel
  have calls : ∀ m ∈ ms, m.AddsUpdates {} := by
    rw [hm]
    refine List.forall_mem_singleton.mpr ⟨by simp, List.forall_mem_cons.mpr
      ⟨by simp, List.forall_mem_singleton.mpr fun t ht => ?_⟩⟩
    cases ht
    exact ⟨fun _ => by decide +kernel, fun _ cast => absurd cast (by decide +kernel)⟩
  have done : (forM ms Edit.mutate : Edit Unit).answer (ofStatement {} t) = .ok () := by
    rw [ht, hm]
    decide +kernel
  have prepended : updatesAt {} .prepend ms = [] := by
    rw [hm]
    decide +kernel
  have appended : updatesAt {} .append ms =
      [["`a` = ('(,\\'', DEFAULT)".toList, "`b` = GREATEST(`b`, 1)".toList]] := by
    rw [hm]
    decide +kernel
  obtain ⟨composed, answer, items⟩ := splitTopLevel_duplicateKey_iff parts (by decide +kernel)
    (by decide) calls (Edit.run_of_answer_ok done)
  refine ⟨_, composed, ht ▸ hm ▸ Edit.run_of_answer_ok done, answer, ?_⟩
  refine (items.mpr ?_).trans ?_
  · rw [textsAround, Mutation.fragmentsAt, prepended, Mutation.fragmentsAt, appended]
    decide +kernel
  · rw [prepended, appended]
    decide +kernel

/-- An assignment of a call is run together with the one that the statement has. -/
theorem not_splitTopLevel_duplicateKey :
    ¬∀ (s : Settings) (t : Text) (base : Parts) (ms : List Mutation) (q : Query),
      split s t = .ok base → s.dialect.isBalanced (Parts.text base duplicateKey) = true →
      Text.trim (Parts.text base duplicateKey) ≠ updateMarker → (∀ m ∈ ms, m.AddsUpdates s) →
      (forM ms Edit.mutate).run (ofStatement s t) = .ok () q →
      ∃ composed, Edit.parts.answer q = .ok composed ∧
        s.dialect.splitTopLevel (Parts.text composed duplicateKey) =
          (updatesAt s .prepend ms).flatten.map Text.trim ++
            (s.dialect.splitTopLevel (Parts.text base duplicateKey) ++
              (updatesAt s .append ms).flatten.map Text.trim) := by
  intro h
  obtain ⟨t, ht⟩ : ∃ t, t =
    "INSERT INTO t (a,b) VALUES (1,2) ON DUPLICATE KEY UPDATE a = 1".toList := ⟨_, rfl⟩
  have parts : split {} t = .ok ⟨[("insert", []), ("into", ['t']), ("columns", "a,b".toList),
      ("set", []), ("values", "(1,2)".toList), ("query", []),
      (duplicateKey, "a = 1".toList)]⟩ := by
    rw [ht]
    decide +kernel
  have done : (forM [.updateInsertedColumns ["b".toList]] Edit.mutate : Edit Unit).answer
      (ofStatement {} t) = .ok () := by
    rw [ht]
    decide +kernel
  obtain ⟨composed, answer, items⟩ := h {} t _ [.updateInsertedColumns ["b".toList]] _ parts
    (by decide +kernel) (by decide) (List.forall_mem_singleton.mpr trivial)
    (Edit.run_of_answer_ok done)
  have fused : (forM [.updateInsertedColumns ["b".toList]] Edit.mutate >>= fun _ =>
      Edit.parts : Edit Parts).answer (ofStatement {} t) = .ok ⟨[("insert", []), ("into", ['t']),
        ("columns", "a,b".toList), ("set", []), ("values", "(1,2)".toList), ("query", []),
        (duplicateKey, "a = 1 `b` = VALUES(`b`)".toList)]⟩ := by
    rw [ht]
    decide +kernel
  rw [Edit.answer, Edit.run_bind, Edit.run_of_answer_ok done] at fused
  cases answer.symm.trans fused
  exact absurd items (by decide +kernel)

end Query
end SqlStatement
