import SqlStatement.Proofs.Preserving

/-!
# Fragments for one part

Calls that add fragments to one part leave the others to the statement. The only
thing that can fail when the parts are composed is the marker for a duplicate
key: it stands for an assignment to every column, and a column may have no name
that can be quoted. Otherwise the part has the fragments of both sides around its
own text, and the parts are those of the statement if there is no fragment.
-/
namespace SqlStatement.Query
variable {s : Settings} {t : Text} {log : List Entry} {ps : Parameters} {q : Query}
  {base composed : Parts} {key : String}

/-- If the statement has the marker for a duplicate key, all its columns have names for it. -/
def Expands (s : Settings) (base : Parts) : Prop :=
  Text.trim (Parts.text base duplicateKey) = updateMarker →
    ∃ assignments, (s.dialect.splitTopLevel (Parts.text base "columns")).mapM
      (insertedAssignment s) = .ok assignments

theorem Expands.of_ne (h : Text.trim (Parts.text base duplicateKey) ≠ updateMarker) :
    Expands s base := fun marked => absurd marked h

/-- A statement with a part for a duplicate key has columns, and it is no SELECT. -/
theorem keys_of_duplicateKey (hs : split s t = .ok base) (h : duplicateKey ∈ base.keys) :
    "columns" ∈ base.keys ∧ base.keys.head? ≠ some "select" := by
  obtain ⟨type, p, -, hp, keys⟩ := exists_keys_split hs
  rw [keys] at h ⊢
  cases type with
  | other phrase => simp [Pattern.ofType?] at hp
  | _ =>
      cases hp
      revert h
      cases s.dialect <;> decide

/-- Columns that are left alone are found where the marker is expanded. -/
theorem expandMarker_of_marked (hs : split s t = .ok base) {ps : Parts}
    (keys : ps.keys = base.keys) (columns : ps.get? "columns" = base.get? "columns")
    (duplicate : ps.get? duplicateKey = base.get? duplicateKey)
    (marked : Text.trim (Parts.text base duplicateKey) = updateMarker) :
    expandMarker s (fillColumns ps) =
      ((s.dialect.splitTopLevel (Parts.text base "columns")).mapM (insertedAssignment s)).map
        fun assignments =>
          (fillColumns ps).insert duplicateKey (Text.joinWith [',', ' '] assignments) := by
  obtain ⟨w, hw⟩ : ∃ w, base.get? duplicateKey = some w := by
    cases hw : base.get? duplicateKey with
    | some w => exact ⟨w, rfl⟩
    | none =>
        rw [Parts.text, hw] at marked
        exact absurd marked (by decide)
  obtain ⟨present, first⟩ := keys_of_duplicateKey hs
    (OrderedMap.contains_iff.mp (by rw [OrderedMap.contains, hw]; rfl))
  obtain ⟨cs, hcs⟩ := Option.isSome_iff_exists.mp (OrderedMap.contains_iff.mpr present)
  have filled : (fillColumns ps).get? "columns" = some cs := by
    rw [get?_fillColumns_columns, if_neg fun h => first (keys ▸ h.1), columns, hcs]
  have cut : splitColumns s.dialect (fillColumns ps) = .ok (s.dialect.splitTopLevel cs) := by
    rw [splitColumns, Parts.require, filled]
    rfl
  rw [Parts.text, hw, Option.getD_some] at marked
  rw [Parts.text, hcs, Option.getD_some, expandMarker, get?_fillColumns _ (by decide), duplicate,
    hw, Option.any_some, if_pos (beq_iff_eq.mpr marked), cut]
  change ((s.dialect.splitTopLevel cs).mapM (insertedAssignment s) >>= _ :
    Except Error Parts) = _
  cases (s.dialect.splitTopLevel cs).mapM (insertedAssignment s) with
  | error e => rfl
  | ok assignments => rfl

/-- The marker can be expanded exactly if all columns have names for it. -/
theorem expands_iff (hs : split s t = .ok base) {ps : Parts} (keys : ps.keys = base.keys)
    (columns : ps.get? "columns" = base.get? "columns")
    (duplicate : ps.get? duplicateKey = base.get? duplicateKey) :
    (∃ ps', expandMarker s (fillColumns ps) = .ok ps') ↔ Expands s base := by
  by_cases marked : Text.trim (Parts.text base duplicateKey) = updateMarker
  · rw [expandMarker_of_marked hs keys columns duplicate marked, Expands, forall_prop_of_true marked]
    cases (s.dialect.splitTopLevel (Parts.text base "columns")).mapM (insertedAssignment s) with
    | error e => simp [Except.map]
    | ok assignments => simp [Except.map]
  · refine iff_of_true ⟨_, expandMarker_of_ne fun w hw => ?_⟩ (.of_ne marked)
    rw [get?_fillColumns _ (by decide), duplicate] at hw
    rwa [Parts.text, hw, Option.getD_some] at marked

/-- Changes that leave the columns and the part for a duplicate key alone leave the marker to the
statement. -/
theorem Recorded.expands_iff (h : Recorded s t log ps q) (hs : split s t = .ok base)
    (untouched : ∀ e ∈ log, e.1 ≠ "columns" ∧ e.1 ≠ duplicateKey) :
    (∃ ps', expandMarker q.settings (fillColumns (q.merged base)) = .ok ps') ↔ Expands s base := by
  rw [h.statement_eq.1]
  apply Query.expands_iff hs
  · exact keys_merged h.holds.nodup (nodup_keys_split hs) (h.keys_inside hs)
  · rw [get?_merged h.holds.nodup]
    exact h.holds.rewritten_eq fun e he => (untouched e he).1
  · rw [get?_merged h.holds.nodup]
    exact h.holds.rewritten_eq fun e he => (untouched e he).2

/-- Such changes can be composed if the marker can be expanded. -/
theorem Recorded.exists_composed (h : Recorded s t log ps q) (hs : split s t = .ok base)
    (expands : Expands s base) (untouched : ∀ e ∈ log, e.1 ≠ "columns" ∧ e.1 ≠ duplicateKey) :
    ∃ composed, q.composeFrom base = .ok composed :=
  exists_composeFrom ((h.expands_iff hs untouched).mpr expands)

/-- The marker is expanded as soon as anything is changed. -/
theorem Recorded.expands (h : Recorded s t log ps q) (hs : split s t = .ok base)
    (untouched : ∀ e ∈ log, e.1 ≠ "columns" ∧ e.1 ≠ duplicateKey) (written : log ≠ [])
    (hc : q.composeFrom base = .ok composed) : Expands s base := by
  obtain ⟨expanded, he, -⟩ := composeFrom_eq_ok hc (h.holds.isMutated_of_ne_nil written)
  exact (h.expands_iff hs untouched).mp ⟨expanded, he⟩

/-- Without changes the parts are those of the statement. -/
theorem Recorded.composeFrom_nil (h : Recorded s t [] ps q) : q.composeFrom base = .ok base := by
  rw [composeFrom, if_neg h.holds.not_isMutated]

/-- The fragments for a part without replacements. -/
def addition (key : String) (log : List Entry) : Addition :=
  ⟨Entry.side key .prepend log, Entry.side key .append log⟩

/-- Fragments for one part are merged into its text. -/
theorem Recorded.rewritten_eq (h : Recorded s t log ps q)
    (only : ∀ e ∈ log, e.1 = key ∧ e.2.1 ≠ .replace) (written : log ≠ []) :
    q.rewritten base key =
      ((addition key log).merge? s.dialect key (Text.trim (Parts.text base key))).or
        (base.get? key) := by
  have unreplaced : Entry.side key .replace log = [] :=
    List.filterMap_eq_nil_iff.mpr fun e he => if_neg fun hr => (only e he).2 hr.2
  have added : q.additions.get? key = some (addition key log) := by
    apply h.get?_additions
    obtain ⟨e, he⟩ := List.exists_mem_of_ne_nil _ written
    obtain ⟨rfl, hr⟩ := only e he
    have placed : e.2.2 ∈ Entry.side e.1 e.2.1 log :=
      List.mem_filterMap.mpr ⟨e, he, if_pos ⟨rfl, rfl⟩⟩
    intro none
    obtain ⟨before, behind⟩ := List.append_eq_nil_iff.mp none
    cases hp : e.2.1 with
    | replace => exact hr hp
    | prepend =>
        rw [hp, before] at placed
        cases placed
    | append =>
        rw [hp, behind] at placed
        cases placed
  rw [rewritten, h.holds.replacements, unreplaced, added, h.statement_eq.1]
  rfl

/-- Fragments for one part end up around its text, and without fragments nothing is changed. -/
theorem Recorded.get?_composed (h : Recorded s t log ps q) (columns : "columns" ≠ key)
    (duplicate : duplicateKey ≠ key) (only : ∀ e ∈ log, e.1 = key ∧ e.2.1 ≠ .replace)
    (hc : q.composeFrom base = .ok composed) :
    (log = [] ∧ composed = base) ∨
      (log ≠ [] ∧ composed.get? key =
        (((addition key log).merge? s.dialect key (Text.trim (Parts.text base key))).or
          (base.get? key)).map Text.trim) := by
  by_cases written : log = []
  · subst written
    rw [h.composeFrom_nil] at hc
    exact .inl ⟨rfl, (Except.ok.inj hc).symm⟩
  · refine .inr ⟨written, ?_⟩
    rw [get?_composeFrom h.holds.nodup hc (h.holds.isMutated_of_ne_nil written) columns duplicate,
      h.rewritten_eq only written]

end SqlStatement.Query
