import SqlStatement.Proofs.Updating

/-!
# What becomes of a part

The changes of a query are made in four rounds: replacements, fragments, the star
of a SELECT without columns, and the assignments that the marker for a duplicate
key stands for. Every round changes parts under their own keys alone, so what
becomes of a part can be said from its text and from the changes under its key.
-/
namespace SqlStatement

namespace OrderedMap
variable {κ α β : Type} [DecidableEq κ]

/-- Writing values worked out of several changes, seen from one key. -/
theorem get?_foldl_insert (g : κ → β → Option α) {changes : List (κ × β)}
    (hc : (changes.map (·.1)).Nodup) (m : OrderedMap κ α) (key : κ) :
    (changes.foldl (fun (m : OrderedMap κ α) p => (g p.1 p.2).elim m (m.insert p.1)) m).get? key =
      ((find? key changes).bind (g key)).or (m.get? key) := by
  induction changes generalizing m with
  | nil => rfl
  | cons c changes ih =>
      obtain ⟨k, b⟩ := c
      rw [List.map_cons, List.nodup_cons] at hc
      rw [List.foldl_cons, ih hc.2]
      by_cases hk : k = key
      · subst hk
        rw [find?_eq_none_iff.mpr hc.1, find?, if_pos rfl, Option.bind_some, Option.bind_none,
          Option.none_or]
        cases g k b with
        | none => rfl
        | some v => exact m.get?_insert_self k v
      · rw [find?, if_neg hk]
        congr 1
        cases g k b with
        | none => rfl
        | some v => exact m.get?_insert_of_ne hk v

end OrderedMap

namespace Query
variable {q : Query} {s : Settings} {ps ps' base composed : Parts} {key : String}

/-- What replacements and fragments make of a part. -/
def rewritten (q : Query) (base : Parts) (key : String) : Option Text :=
  let current := (q.replacements.get? key).or (base.get? key)
  ((q.additions.get? key).bind fun a =>
    a.merge? q.settings.dialect key (Text.trim (current.getD []))).or current

/-- The parts with all replacements and fragments. -/
def merged (q : Query) (base : Parts) : Parts :=
  addParts q.settings.dialect
    (q.replacements.toList.foldl (fun (ps : Parts) p => ps.insert p.1 p.2) base) q.additions

theorem get?_merged (hn : q.replacements.keys.Nodup ∧ q.additions.keys.Nodup) (base : Parts)
    (key : String) : (q.merged base).get? key = q.rewritten base key := by
  have replaced (key : String) :
      (q.replacements.toList.foldl (fun (ps : Parts) p => ps.insert p.1 p.2) base).get? key =
        (q.replacements.get? key).or (base.get? key) := by
    have written := OrderedMap.get?_foldl_insert (fun _ t => some t) hn.1 base key
    simpa [OrderedMap.get?] using written
  rw [merged]
  generalize q.replacements.toList.foldl (fun (ps : Parts) p => ps.insert p.1 p.2) base = ps
    at replaced
  have added := OrderedMap.get?_foldl_insert
    (fun key (a : Addition) => a.merge? q.settings.dialect key (Text.trim (Parts.text ps key)))
    hn.2 ps key
  rw [rewritten, ← replaced]
  refine Eq.trans ?_ added
  rw [addParts]
  congr 2
  funext ps' p
  cases p.2.merge? q.settings.dialect p.1 (Text.trim (Parts.text ps p.1)) <;> rfl

theorem keys_merged (hn : q.replacements.keys.Nodup ∧ q.additions.keys.Nodup)
    (hb : base.keys.Nodup) (inside : (∀ key ∈ q.replacements.keys, key ∈ base.keys) ∧
      ∀ key ∈ q.additions.keys, key ∈ base.keys) : (q.merged base).keys = base.keys := by
  have replaced : (q.replacements.toList.foldl (fun (ps : Parts) p => ps.insert p.1 p.2)
      base).keys = base.keys := by
    rw [foldl_replacements hb hn.1 inside.1]
    simp [OrderedMap.keys, Function.comp_def]
  rw [merged, addParts_eq (replaced ▸ hb) hn.2 fun key hk => replaced ▸ inside.2 key hk]
  refine Eq.trans ?_ replaced
  simp [OrderedMap.keys, Function.comp_def]

/-- The marker is left as it is or expanded to the assignments of all columns. -/
theorem expandMarker_eq_ok (h : expandMarker s ps = .ok ps') :
    ((∀ w, ps.get? duplicateKey = some w → Text.trim w ≠ updateMarker) ∧ ps' = ps) ∨
      ∃ w columns assignments, ps.get? duplicateKey = some w ∧ Text.trim w = updateMarker ∧
        splitColumns s.dialect ps = .ok columns ∧
        columns.mapM (insertedAssignment s) = .ok assignments ∧
        ps' = ps.insert duplicateKey (Text.joinWith [',', ' '] assignments) := by
  rw [expandMarker] at h
  cases hw : ps.get? duplicateKey with
  | none =>
      rw [hw, Option.any_none, if_neg Bool.false_ne_true] at h
      cases h
      exact .inl ⟨by simp, rfl⟩
  | some w =>
      rw [hw, Option.any_some] at h
      by_cases marked : Text.trim w = updateMarker
      · rw [if_pos (beq_iff_eq.mpr marked)] at h
        obtain ⟨columns, hc, h⟩ := bind_eq_ok_iff.mp h
        obtain ⟨assignments, ha, h⟩ := bind_eq_ok_iff.mp h
        cases h
        exact .inr ⟨w, columns, assignments, rfl, marked, hc, ha, rfl⟩
      · rw [if_neg (by simpa using marked)] at h
        cases h
        refine .inl ⟨?_, rfl⟩
        rintro _ ⟨⟩
        exact marked

theorem expandMarker_of_ne (h : ∀ w, ps.get? duplicateKey = some w → Text.trim w ≠ updateMarker) :
    expandMarker s ps = .ok ps := by
  rw [expandMarker, if_neg]
  · rfl
  · rw [Option.any_eq_true]
    rintro ⟨w, hw, marked⟩
    exact h w hw (beq_iff_eq.mp marked)

/-- Composition can fail only where the marker is expanded. -/
theorem exists_composeFrom
    (h : ∃ ps', expandMarker q.settings (fillColumns (q.merged base)) = .ok ps') :
    ∃ composed, q.composeFrom base = .ok composed := by
  obtain ⟨expanded, expand⟩ := h
  by_cases mutated : q.isMutated = true
  · refine ⟨expanded.mapValues Text.trim, ?_⟩
    rw [composeFrom, if_pos mutated]
    change (expandMarker q.settings (fillColumns (q.merged base)) >>= _ : Except Error Parts) = _
    rw [expand]
    rfl
  · exact ⟨base, by rw [composeFrom, if_neg mutated]⟩

/-- Composition in its four rounds. -/
theorem composeFrom_eq_ok (h : q.composeFrom base = .ok composed) (mutated : q.isMutated = true) :
    ∃ expanded, expandMarker q.settings (fillColumns (q.merged base)) = .ok expanded ∧
      composed = expanded.mapValues Text.trim := by
  rw [composeFrom, if_pos mutated] at h
  obtain ⟨expanded, expand, h⟩ := bind_eq_ok_iff.mp h
  cases h
  exact ⟨expanded, expand, rfl⟩

theorem get?_mapValues_trim (ps : Parts) (key : String) :
    (ps.mapValues Text.trim).get? key = (ps.get? key).map Text.trim :=
  OrderedMap.find?_map (fun _ => Text.trim) key ps.toList

/-- Only the part for a duplicate key is changed by its marker. -/
theorem get?_composeFrom_of_ne (h : q.composeFrom base = .ok composed)
    (mutated : q.isMutated = true) (duplicate : duplicateKey ≠ key) :
    composed.get? key = ((fillColumns (q.merged base)).get? key).map Text.trim := by
  obtain ⟨expanded, expand, rfl⟩ := composeFrom_eq_ok h mutated
  rw [get?_mapValues_trim]
  obtain ⟨-, same⟩ | ⟨_, _, _, -, -, -, -, same⟩ := expandMarker_eq_ok expand
  · rw [same]
  · rw [same, OrderedMap.get?_insert_of_ne _ duplicate]

/-- The columns and the assignments for a duplicate key apart, a part has what replacements and
fragments make of it. -/
theorem get?_composeFrom (hn : q.replacements.keys.Nodup ∧ q.additions.keys.Nodup)
    (h : q.composeFrom base = .ok composed) (mutated : q.isMutated = true)
    (columns : "columns" ≠ key) (duplicate : duplicateKey ≠ key) :
    composed.get? key = (q.rewritten base key).map Text.trim := by
  rw [get?_composeFrom_of_ne h mutated duplicate, get?_fillColumns _ columns, get?_merged hn]

/-- Only a SELECT without columns gets the star. -/
theorem get?_fillColumns_columns (ps : Parts) :
    (fillColumns ps).get? "columns" =
      if ps.keys.head? = some "select" ∧ Text.trim (Parts.text ps "columns") = [] then some ['*']
      else ps.get? "columns" := by
  rw [fillColumns, Parts.hasText]
  by_cases blank : ps.keys.head? = some "select" ∧ Text.trim (Parts.text ps "columns") = []
  · rw [if_pos blank, if_pos (by simp [blank.1, blank.2]), OrderedMap.get?_insert_self]
  · rw [if_neg blank, if_neg (by simpa using blank)]

theorem keys_fillColumns {ps : Parts} (h : ps.keys.head? = some "select" → "columns" ∈ ps.keys) :
    (fillColumns ps).keys = ps.keys := by
  rw [fillColumns]
  split
  · rename_i fill
    rw [Bool.and_eq_true, beq_iff_eq] at fill
    exact OrderedMap.keys_insert_of_contains ps _ _ (OrderedMap.contains_iff.mpr (h fill.1))
  · rfl

theorem keys_expandMarker (h : expandMarker s ps = .ok ps') : ps'.keys = ps.keys := by
  obtain ⟨-, rfl⟩ | ⟨w, _, _, hw, -, -, -, rfl⟩ := expandMarker_eq_ok h
  · rfl
  · exact OrderedMap.keys_insert_of_contains ps _ _ (by rw [OrderedMap.contains, hw]; rfl)

/-- Every SELECT has a part for its columns. -/
theorem columns_mem_keys_split {t : Text} (hs : split s t = .ok base)
    (h : base.keys.head? = some "select") : "columns" ∈ base.keys := by
  obtain ⟨type, p, -, hp, keys⟩ := exists_keys_split hs
  rw [keys] at h ⊢
  cases type with
  | other phrase => simp [Pattern.ofType?] at hp
  | _ =>
      cases hp
      revert h
      cases s.dialect <;> decide

/-- Changes to parts that the statement has leave it the parts that it has. -/
theorem keys_composeFrom {t : Text} (hs : split s t = .ok base)
    (hn : q.replacements.keys.Nodup ∧ q.additions.keys.Nodup)
    (inside : (∀ key ∈ q.replacements.keys, key ∈ base.keys) ∧
      ∀ key ∈ q.additions.keys, key ∈ base.keys)
    (h : q.composeFrom base = .ok composed) : composed.keys = base.keys := by
  by_cases mutated : q.isMutated = true
  · obtain ⟨expanded, expand, rfl⟩ := composeFrom_eq_ok h mutated
    have merged := keys_merged hn (nodup_keys_split hs) inside
    have trimmed : (expanded.mapValues Text.trim).keys = expanded.keys := by
      simp [OrderedMap.keys, OrderedMap.mapValues, Function.comp_def]
    rw [trimmed, keys_expandMarker expand, keys_fillColumns, merged]
    rw [merged]
    exact columns_mem_keys_split hs
  · rw [composeFrom, if_neg mutated] at h
    cases h
    rfl

variable {log : List Entry}

theorem Holds.isMutated_of_ne_nil (h : q.Holds log) (written : log ≠ []) :
    q.isMutated = true := by
  obtain ⟨⟨key, side, text⟩, log, rfl⟩ := List.exists_cons_of_ne_nil written
  by_contra unchanged
  rw [isMutated, Bool.or_eq_true, not_or, Bool.not_eq_true', Bool.not_eq_true',
    Bool.not_eq_false, Bool.not_eq_false, OrderedMap.isEmpty_iff, OrderedMap.isEmpty_iff]
    at unchanged
  have unreplaced := unchanged.1 key
  have unadded := unchanged.2 key
  rw [h.replacements] at unreplaced
  rw [h.additions] at unadded
  cases side <;> simp [Entry.side, Addition.of?] at unreplaced unadded

theorem Holds.not_isMutated (h : q.Holds []) : ¬q.isMutated = true := by
  have unreplaced : q.replacements.isEmpty = true :=
    OrderedMap.isEmpty_iff.mpr fun key => h.replacements key
  have unadded : q.additions.isEmpty = true :=
    OrderedMap.isEmpty_iff.mpr fun key => h.additions key
  simp [isMutated, unreplaced, unadded]

theorem Holds.withMemo (h : q.Holds log) (m : Memo) : (q.withMemo m).Holds log :=
  ⟨h.nodup, h.replacements, h.additions⟩

theorem Holds.applied (h : q.Holds log) (c : Change) :
    (c.applied q).Holds (log ++ c.fragments.map fun f => (c.part, f)) := by
  have recorded := h.foldl_record c.part c.fragments
  rw [Change.applied]
  split
  · rename_i none
    simpa [List.isEmpty_iff.mp none] using h
  · exact recorded.withMemo _

end Query
end SqlStatement
