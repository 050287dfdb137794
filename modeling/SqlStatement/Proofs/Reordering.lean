import SqlStatement.Proofs.Recording

/-!
# Changes in another order

Every mutation writes some slots of a query: sides of parts, and the values for
placeholders without and with names. Steady mutations may be made in any order
that keeps, for every slot, the order of those that write it. The maps of the
query are then filled in another order, but the parts and the statement are the
same.
-/
namespace SqlStatement

/-- What mutations can write: one side of a part, or the values for one kind of placeholder. -/
inductive Slot where
  | side (part : String) (placement : Placement)
  | positional
  | named
  deriving DecidableEq, Repr

namespace Mutation
variable {s : Settings} {t : Text} {ms ms' : List Mutation}

/-- Whether a mutation of a statement writes a slot. -/
def writes (s : Settings) (t : Text) (slot : Slot) (m : Mutation) : Bool :=
  match slot, m with
  | .side part placement, m => !(Entry.side part placement (m.log s t)).isEmpty
  | .positional, bind _ => true
  | .named, bindNamed _ => true
  | _, _ => false

/-- One side of a log comes from the mutations that write it. -/
theorem side_flatMap_log (part : String) (placement : Placement) (ms : List Mutation) :
    Entry.side part placement (ms.flatMap (log s t)) =
      (ms.filter (writes s t (.side part placement))).flatMap fun m =>
        Entry.side part placement (m.log s t) := by
  induction ms with
  | nil => rfl
  | cons m ms ih =>
      rw [List.flatMap_cons, Entry.side, List.filterMap_append, ← Entry.side, ← Entry.side, ih,
        List.filter_cons]
      split
      · rw [List.flatMap_cons]
      · rename_i hw
        rw [writes, Bool.not_eq_true', Bool.not_eq_false, List.isEmpty_iff] at hw
        rw [hw, List.nil_append]

theorem positional_foldl (ms : List Mutation) {p p' : Parameters}
    (h : p.positional = p'.positional) :
    (ms.foldl parameters p).positional =
      ((ms.filter (writes s t .positional)).foldl parameters p').positional := by
  induction ms generalizing p p' with
  | nil => exact h
  | cons m ms ih =>
      cases m with
      | bind values => exact ih rfl
      | _ => exact ih h

theorem named_foldl (ms : List Mutation) {p p' : Parameters} (h : p.named = p'.named) :
    (ms.foldl parameters p).named =
      ((ms.filter (writes s t .named)).foldl parameters p').named := by
  induction ms generalizing p p' with
  | nil => exact h
  | cons m ms ih =>
      cases m with
      | bindNamed values =>
          have next : (parameters p (bindNamed values)).named =
              (parameters p' (bindNamed values)).named := by simp only [parameters, h]
          exact ih next
      | _ => exact ih h

/-- The values for placeholders depend on the order within each kind alone. -/
theorem foldl_parameters_congr
    (order : ∀ slot, ms.filter (writes s t slot) = ms'.filter (writes s t slot))
    (p : Parameters) : ms.foldl parameters p = ms'.foldl parameters p := by
  have positional : (ms.foldl parameters p).positional = (ms'.foldl parameters p).positional := by
    rw [positional_foldl (s := s) (t := t) ms rfl, order, ← positional_foldl ms' rfl]
  have named : (ms.foldl parameters p).named = (ms'.foldl parameters p).named := by
    rw [named_foldl (s := s) (t := t) ms rfl, order, ← named_foldl ms' rfl]
  generalize ms.foldl parameters p = a at positional named ⊢
  generalize ms'.foldl parameters p = b at positional named ⊢
  cases a
  cases b
  exact congrArg₂ Parameters.mk positional named

end Mutation

namespace Query
variable {s : Settings} {t : Text} {log log' : List Entry} {ps : Parameters} {p q : Query}

/-- Recorded queries have the same parts and the same statement if each side of each part has the
same fragments in them. -/
theorem Recorded.congr (hp : Recorded s t log ps p) (hq : Recorded s t log' ps q)
    (sides : ∀ part placement, Entry.side part placement log = Entry.side part placement log') :
    p.compose = q.compose ∧ p.render = q.render := by
  have replacements (key : String) : p.replacements.get? key = q.replacements.get? key := by
    rw [hp.holds.replacements, hq.holds.replacements, sides]
  have additions (key : String) : p.additions.get? key = q.additions.get? key := by
    rw [hp.holds.additions, hq.holds.additions, sides, sides]
  have compose : p.compose = q.compose := by
    rw [Query.compose, Query.compose, hp.baseParts_eq, hq.baseParts_eq]
    cases hs : split s t with
    | error e => rfl
    | ok base =>
        exact composeFrom_congr (hp.statement_eq.1.trans hq.statement_eq.1.symm) replacements
          additions (nodup_keys_split hs) hp.holds.nodup hq.holds.nodup (hp.keys_inside hs)
  have bound : p.bound = q.bound := by
    funext text
    rw [Query.bound, Query.bound, hp.statement_eq.1, hq.statement_eq.1, hp.parameters,
      hq.parameters]
  refine ⟨compose, ?_⟩
  have mutated : p.isMutated = q.isMutated := isMutated_congr replacements additions
  by_cases h : p.isMutated = true
  · rw [render_of_isMutated h, render_of_isMutated (mutated ▸ h), compose, bound]
  · rw [render_of_not_isMutated h, render_of_not_isMutated (mutated ▸ h), bound, baseText,
      baseText, hp.attached, hq.attached, hp.statement_eq.1, hp.statement_eq.2,
      hq.statement_eq.1, hq.statement_eq.2]

/-- Mutations that all succeed also succeed in any other order, with the same parts and the same
statement, if all that write one side of one part, or values for one kind of placeholder, keep
their order. -/
theorem parts_toSql_reorder {s : Settings} {t : Text} {ms ms' : List Mutation} {q : Query}
    (steady : ∀ m ∈ ms, m.IsSteady) (perm : ms.Perm ms')
    (order : ∀ slot, ms.filter (Mutation.writes s t slot) = ms'.filter (Mutation.writes s t slot))
    (run : (forM ms Edit.mutate).run (ofStatement s t) = .ok () q) :
    ∃ q', (forM ms' Edit.mutate).run (ofStatement s t) = .ok () q' ∧
      Edit.parts.answer q' = Edit.parts.answer q ∧ Edit.toSql.answer q' = Edit.toSql.answer q := by
  have start := recorded_ofStatement s t
  have accepted := start.entries_of_forM steady run
  have recorded := start.of_forM steady run
  obtain ⟨q', run', recorded'⟩ := start.exists_forM
    (fun m (hm : m ∈ ms') => steady m (perm.mem_iff.mpr hm))
    fun m hm => accepted m (perm.mem_iff.mpr hm)
  rw [← Mutation.foldl_parameters_congr order] at recorded'
  have same := recorded'.congr recorded fun part placement => by
    rw [List.nil_append, List.nil_append, Mutation.side_flatMap_log, ← order,
      ← Mutation.side_flatMap_log]
  refine ⟨q', run', ?_, ?_⟩
  · rw [(Edit.reads_parts q').answer_self recorded'.sound, same.1,
      (Edit.reads_parts q).answer_self recorded.sound]
  · rw [(Edit.reads_toSql q').answer_self recorded'.sound, same.2,
      (Edit.reads_toSql q).answer_self recorded.sound]

/-- A column, an ordering and a value may come in any order. -/
theorem toSql_reorder_select :
    ∃ q', (forM [.bind [.null], .orderBy ["c".toList] .descending {}, .columns ["b".toList] {}]
        Edit.mutate).run (ofStatement {} "SELECT a FROM t WHERE x = ?".toList) = .ok () q' ∧
      Edit.toSql.answer q' =
        .ok "SELECT a, `b` FROM t WHERE x = NULL ORDER BY `c` DESC".toList := by
  obtain ⟨t, ht⟩ : ∃ t, t = "SELECT a FROM t WHERE x = ?".toList := ⟨_, rfl⟩
  have added : (Mutation.columns ["b".toList] {}).log {} t =
      [("columns", .append, "`b`".toList)] := by
    rw [ht]
    decide +kernel
  have sorted : (Mutation.orderBy ["c".toList] .descending {}).log {} t =
      [("order by", .prepend, "`c` DESC".toList)] := by
    rw [ht]
    decide +kernel
  have bound : (Mutation.bind [.null]).log {} t = [] := rfl
  have done : (forM [.columns ["b".toList] {}, .orderBy ["c".toList] .descending {},
      .bind [.null]] Edit.mutate : Edit Unit).answer (ofStatement {} t) = .ok () := by
    rw [ht]
    decide +kernel
  have order (slot : Slot) :
      List.filter (Mutation.writes {} t slot) [.columns ["b".toList] {},
        .orderBy ["c".toList] .descending {}, .bind [.null]] =
      List.filter (Mutation.writes {} t slot) [.bind [.null],
        .orderBy ["c".toList] .descending {}, .columns ["b".toList] {}] := by
    cases slot with
    | positional | named => rfl
    | side part placement =>
        have written (m : Mutation) : m.writes {} t (.side part placement) =
            !(Entry.side part placement (m.log {} t)).isEmpty := rfl
        simp only [List.filter_cons, List.filter_nil]
        rw [written, written, written, added, sorted, bound]
        by_cases h : "columns" = part
        · subst h
          simp [Entry.side]
        · simp [Entry.side, h]
  obtain ⟨q', run, -, same⟩ := parts_toSql_reorder (by simp [Mutation.IsSteady])
    (List.reverse_perm _).symm order (Edit.run_of_answer_ok done)
  refine ⟨q', ht ▸ run, same.trans ?_⟩
  rw [ht]
  decide +kernel

end Query
end SqlStatement
