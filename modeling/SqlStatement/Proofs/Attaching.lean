import SqlStatement.Proofs.Binding
import SqlStatement.Proofs.Calling
import SqlStatement.Proofs.Exchanging

/-!
# Subqueries taken out and edited

A subquery is taken out of a statement by its number and edited by calls of its
own. The statement is then written with the texts of the changed ones under
their numbers, so each stands where it stood, and what is around them is as it
was. A subquery that nothing has changed is written as it was taken out.
-/
namespace SqlStatement

namespace Nesting
variable {n content : Nesting} {number next : Nat}

theorem mem_numbered : (content, number) ∈ n.numbered next ↔
    next ≤ number ∧ n.queries[number - next]? = some content :=
  List.mk_mem_zipIdx_iff_le_and_getElem?_sub

/-- The subqueries of a subquery have the numbers behind its own. -/
theorem numbered_subset (h : (content, number) ∈ n.numbered next) :
    content.numbered (number + 1) ⊆ n.numbered next := by
  induction n generalizing next with
  | done => simp [numbered, queries] at h
  | piece p rest ih => exact ih h
  | group inner rest ih₁ ih₂ =>
      by_cases hq : inner.startsQuery = true
      · rw [numbered_query _ _ hq, List.mem_cons, List.mem_append] at h
        rw [numbered_query _ _ hq]
        rcases h with h | h | h
        · cases h
          exact fun e he => List.mem_cons_of_mem _ (List.mem_append_left _ he)
        · exact fun e he => List.mem_cons_of_mem _ (List.mem_append_left _ (ih₁ h he))
        · exact fun e he => List.mem_cons_of_mem _ (List.mem_append_right _ (ih₂ h he))
      · rw [numbered_group _ _ hq, List.mem_append] at h
        rw [numbered_group _ _ hq]
        rcases h with h | h
        · exact fun e he => List.mem_append_left _ (ih₁ h he)
        · exact fun e he => List.mem_append_right _ (ih₂ h he)

theorem length_queries_lt (h : (content, number) ∈ n.numbered next) :
    number - next + content.queries.length < n.queries.length := by
  cases hl : content.queries.length with
  | zero => exact (List.getElem?_eq_some_iff.mp (mem_numbered.mp h).2).1
  | succ last =>
      have present : content.queries[last]? = some content.queries[last] :=
        List.getElem?_eq_getElem (by omega)
      have inside : (content.queries[last], number + 1 + last) ∈ n.numbered next :=
        numbered_subset h (mem_numbered.mpr ⟨by omega, by
          rw [Nat.add_sub_cancel_left]
          exact present⟩)
      have := (List.getElem?_eq_some_iff.mp (mem_numbered.mp inside).2).1
      have := (mem_numbered.mp h).1
      omega

/-- Whether the subquery with one number stands inside that with another. -/
def Encloses (n : Nesting) (outer inner : Nat) : Prop :=
  ∃ e ∈ n.numbered 1, e.2 = outer ∧ outer < inner ∧ inner ≤ outer + e.1.queries.length

instance (n : Nesting) (outer inner : Nat) : Decidable (n.Encloses outer inner) :=
  inferInstanceAs (Decidable (∃ e ∈ n.numbered 1, _ ∧ _ ∧ _))

end Nesting

theorem Piece.Clean.of_isInfix {d : Dialect} {ps qs : List Piece} (h : Clean d qs)
    (hi : ps <:+: qs) : Clean d ps := by
  obtain ⟨before, behind, rfl⟩ := hi
  exact h.left.right

namespace Subquery
variable {s : Settings} {t : Text}

theorem getElem?_outerTexts (number i : Nat) (ns : List Nesting) :
    (outerTexts number ns)[i]? = ns[i]?.map (outerText (number + i + 1)) := by
  induction ns generalizing number i with
  | nil => rfl
  | cons n ns ih =>
      cases i with
      | zero => rfl
      | succ i =>
          rw [outerTexts, List.getElem?_cons_succ, List.getElem?_cons_succ, ih]
          congr 2
          omega

/-- Taken out subqueries are found under their numbers. -/
theorem getElem?_of_mem_numbered {first : Text} {n : Nesting} {e : Nesting × Nat}
    (h : e ∈ n.numbered 1) :
    (first :: outerTexts 1 n.queries)[e.2]? = some (outerText (e.2 + 1) e.1) := by
  obtain ⟨content, number⟩ := e
  obtain ⟨pos, hq⟩ := Nesting.mem_numbered.mp h
  obtain ⟨i, rfl⟩ : ∃ i, number = i + 1 := ⟨number - 1, by omega⟩
  rw [List.getElem?_cons_succ, getElem?_outerTexts, show n.queries[i]? = some content from hq,
    Option.map_some, Nat.add_comm 1 i]

/-- An extraction that finds subqueries takes them out of the nesting of the statement. -/
theorem extract_eq {e : Extraction}
    (hk : ¬(StatementType.detect s.dialect t).any StatementType.isInsertLike)
    (h : extract s t = .ok e) (he : e.subqueries ≠ []) :
    e = { outer := outerText 1 (Nesting.ofText s.dialect t)
          subqueries := outerTexts 1 (Nesting.ofText s.dialect t).queries } := by
  rcases extract_cases hk h with rfl | h
  · exact absurd rfl he
  · rw [takeOut_eq] at h
    split at h
    · exact (Except.ok.inj h).symm
    · cases h

end Subquery

namespace Query
variable {s : Settings} {t : Text}

/-- Where a subquery can be taken out, the subqueries are those of the nesting. -/
theorem extract_of_detach
    (hk : ¬(StatementType.detect s.dialect t).any StatementType.isInsertLike) {number : Nat}
    {sub : Query} (h : (ofStatement s t).detach number = .ok sub) :
    Subquery.extract s t = .ok
      { outer := Subquery.outerText 1 (Nesting.ofText s.dialect t)
        subqueries := Subquery.outerTexts 1 (Nesting.ofText s.dialect t).queries } := by
  obtain ⟨e, u, he, -, hu, -⟩ := detach_eq_ok h
  rw [he, Subquery.extract_eq hk he]
  rintro hn
  rw [hn] at hu
  cases hu

/-- A subquery that is taken out is one of the nesting, with its text. -/
theorem statement_of_detach
    (hk : ¬(StatementType.detect s.dialect t).any StatementType.isInsertLike)
    (hc : Piece.Clean s.dialect (Piece.ofText s.dialect t)) {number : Nat} {sub : Query}
    (h : (ofStatement s t).detach number = .ok sub) :
    ∃ content, (content, number) ∈ (Nesting.ofText s.dialect t).numbered 1 ∧
      sub = ofStatement s content.text := by
  obtain ⟨e, u, he, hn, hu, hsub⟩ := detach_eq_ok h
  rw [extract_of_detach hk h] at he
  cases he
  have pieces : (Nesting.ofText s.dialect t).pieces = Piece.ofText s.dialect t :=
    Nesting.pieces_ofPieces _
  generalize Nesting.ofText s.dialect t = n at hu hsub pieces ⊢
  rw [Subquery.getElem?_outerTexts, Option.map_eq_some_iff] at hu
  obtain ⟨content, hq, rfl⟩ := hu
  have found : (content, number) ∈ n.numbered 1 := Nesting.mem_numbered.mpr ⟨hn, hq⟩
  refine ⟨content, found, ?_⟩
  have several : Subquery.outerTexts 1 n.queries ≠ [] := by
    intro hn
    rw [← List.length_eq_zero_iff, Subquery.length_outerTexts, List.length_eq_zero_iff] at hn
    simp [hn] at hq
  have clean : Piece.Clean s.dialect content.pieces :=
    (pieces ▸ hc).of_isInfix (Nesting.infix_of_mem_queries (List.mem_of_getElem? hq))
  have filled : Subquery.injectInto s.dialect
      (Subquery.outerText (number + 1) content :: Subquery.outerTexts 1 n.queries)
      (Subquery.outerText (number + 1) content) =
        content.textWith (fun _ => none) (number + 1) :=
    Subquery.injectInto_textWith (by simp) clean (by omega)
      (fun e he => Subquery.getElem?_of_mem_numbered (Nesting.numbered_subset found he))
      (by
        have := Nesting.length_queries_lt found
        simp only [List.length_cons, Subquery.length_outerTexts]
        omega)
  rw [Nesting.textWith_of_forall_none fun _ _ => rfl] at filled
  rw [hsub, show 1 + (number - 1) + 1 = number + 1 by omega, ← filled]
  cases hn : Subquery.outerTexts 1 n.queries with
  | nil => exact absurd hn several
  | cons => rfl

/-- The queries that calls and questions make of a query. -/
inductive Leads (p : Query) : Query → Prop
  | refl : Leads p p
  | call {q : Query} (c : Call) (h : Leads p q) : Leads p (Edit.left c.run q)
  | read {q : Query} {α : Type} (r : Reader α) (h : Leads p q) : Leads p (Edit.left r.run q)

/-- The queries that come from a statement by edits of its subqueries and by questions. A subquery
is edited by calls of its own. -/
inductive Attaches (s : Settings) (t : Text) : Query → Prop
  | start : Attaches s t (ofStatement s t)
  | edit {q : Query} (number : Nat) {edit : Query → Query}
      (he : ∀ sub, q.subquery number = .ok sub → sub.Leads (edit sub)) (h : Attaches s t q) :
      Attaches s t (Edit.left (Call.subquery number edit).run q)
  | read {q : Query} {α : Type} (r : Reader α) (h : Attaches s t q) :
      Attaches s t (Edit.left r.run q)

theorem Leads.trans {p q r : Query} (h : p.Leads q) (h' : q.Leads r) : p.Leads r := by
  induction h' with
  | refl => exact h
  | call c _ ih => exact ih.call c
  | read r _ ih => exact ih.read r

theorem Leads.sound {p q : Query} (h : p.Leads q) (hp : p.Sound) : q.Sound := by
  induction h with
  | refl => exact hp
  | call c _ ih => exact (c.isSafe ih).sound_left
  | read r _ ih => exact ((r.isReading _).isSafe ih).sound_left

end Query

/-- A call leaves the statement. -/
theorem Call.base_left (c : Call) {q : Query} (hq : q.Sound) :
    (Edit.left c.run q).base = q.base := by
  cases c with
  | mutate m =>
      rw [Call.run, Edit.left]
      obtain ⟨memo, -, run | ⟨c, run⟩ | ⟨e, run⟩⟩ := Edit.run_mutate_cases m hq
      · rw [run]
        rfl
      · rw [run]
        exact (c.unchanged_applied (q.withMemo memo)).1
      · rw [run]
        rfl
  | subquery number edit =>
      rw [Call.run, Edit.left, Edit.run_subquery]
      cases q.subquery number <;> rfl

namespace Query
variable {s : Settings} {t : Text} {q : Query}

theorem Leads.base_eq {p : Query} (h : p.Leads q) (hp : p.Sound) : q.base = p.base := by
  induction h with
  | refl => rfl
  | call c h ih => exact (c.base_left (h.sound hp)).trans ih
  | read r h ih =>
      obtain ⟨memo, -, left⟩ := r.left_eq (h.sound hp)
      rw [left]
      exact ih

/-- A query whose only changes are those of subqueries that were taken out of its statement. -/
structure Attached (s : Settings) (t : Text) (q : Query) : Prop where
  same : q.base = ofStatement s t ∧ q.replacements = ⟨[]⟩ ∧ q.additions = ⟨[]⟩ ∧ q.parameters = {}
  sound : q.Sound
  nodup : (q.attached.map (·.1)).Nodup
  taken : ∀ p ∈ q.attached, ∃ sub, (ofStatement s t).detach p.1 = .ok sub ∧ sub.Leads p.2

theorem Attached.subquery (h : Attached s t q) {number : Nat} {sub : Query}
    (hs : q.subquery number = .ok sub) :
    ∃ orig, (ofStatement s t).detach number = .ok orig ∧ orig.Leads sub := by
  rw [Query.subquery] at hs
  cases hl : q.attached.lookup number with
  | none =>
      rw [hl] at hs
      exact ⟨sub, h.same.1 ▸ hs, .refl⟩
  | some known =>
      rw [hl] at hs
      cases hs
      obtain ⟨before, behind, split, -⟩ := List.lookup_eq_some_iff.mp hl
      exact h.taken (number, sub) (by simp [split])

theorem Attaches.attached (h : Attaches s t q) : Attached s t q := by
  induction h with
  | start => exact ⟨⟨rfl, rfl, rfl, rfl⟩, sound_empty (ofStatement s t), by simp [ofStatement],
      by simp [ofStatement]⟩
  | read r h ih =>
      obtain ⟨memo, sound, left⟩ := r.left_eq ih.sound
      rw [left]
      exact ⟨ih.same, sound, ih.nodup, ih.taken⟩
  | @edit q number edit he h ih =>
      have sound := ((Call.subquery number edit).isSafe ih.sound).sound_left
      rw [Call.run, Edit.left, Edit.run_subquery] at sound ⊢
      cases hsub : q.subquery number with
      | error e => exact ih
      | ok sub =>
          rw [hsub] at sound
          refine ⟨ih.same, sound, ?_, ?_⟩
          · change ((q.attached.filter (fun p => p.1 ≠ number) ++ [(number, edit sub)]).map
              (·.1)).Nodup
            have kept : ((q.attached.filter fun p => p.1 ≠ number).map (·.1)).Nodup :=
              ih.nodup.sublist (List.filter_sublist.map _)
            rw [List.map_append]
            refine List.nodup_append.mpr ⟨kept, by simp, fun k hk k' hk' => ?_⟩
            obtain ⟨p, hp, rfl⟩ := List.mem_map.mp hk
            obtain rfl : k' = number := by simpa using hk'
            simpa using List.of_mem_filter hp
          · change ∀ p ∈ q.attached.filter (fun p => p.1 ≠ number) ++ [(number, edit sub)], _
            rw [List.forall_mem_append, List.forall_mem_singleton]
            refine ⟨fun p hp => ih.taken p (List.mem_of_mem_filter hp), ?_⟩
            obtain ⟨orig, detached, leads⟩ := ih.subquery hsub
            exact ⟨orig, detached, leads.trans (he sub hsub)⟩

/-- The text of a subquery that is changed, if it can be written. -/
def newText? (q : Query) : Option Text := if q.isChanged then q.render.toOption else none

theorem anyChanged_eq (attached : List (Nat × Query)) :
    anyChanged attached = attached.any fun p => p.2.isChanged := by
  induction attached with
  | nil => rfl
  | cons p attached ih =>
      obtain ⟨number, q⟩ := p
      rw [anyChanged, ih, List.any_cons]

/-- The texts of the changed subqueries, each behind its number. -/
theorem changedTexts_eq {attached : List (Nat × Query)}
    (h : ∀ p ∈ attached, p.2.isChanged = true → ∃ u, p.2.render = .ok u) :
    changedTexts attached = .ok (attached.filterMap fun p => p.2.newText?.map (p.1, ·)) := by
  induction attached with
  | nil => rfl
  | cons p attached ih =>
      obtain ⟨number, q⟩ := p
      rw [List.forall_mem_cons] at h
      rw [changedTexts, ih h.2, List.filterMap_cons, newText?]
      by_cases hq : q.isChanged = true
      · obtain ⟨u, hu⟩ := h.1 hq
        rw [if_pos hq, if_pos hq, hu]
        rfl
      · rw [if_neg hq, if_neg hq]
        rfl

section Lookup

theorem lookup_cons_of_ne {α : Type} {number k : Nat} (h : number ≠ k) (a : α)
    (l : List (Nat × α)) : ((k, a) :: l).lookup number = l.lookup number := by
  rw [List.lookup_cons, beq_eq_false_iff_ne.mpr h]

theorem lookup_eq_none {α : Type} {number : Nat} {l : List (Nat × α)}
    (h : number ∉ l.map (·.1)) : l.lookup number = none := by
  rw [List.lookup_eq_none_iff]
  intro p hp
  rw [bne_iff_ne]
  rintro rfl
  exact h (List.mem_map_of_mem hp)

theorem keys_filterMap (f : Query → Option Text) (attached : List (Nat × Query)) :
    ((attached.filterMap fun p => (f p.2).map (p.1, ·)).map (·.1)).Sublist
      (attached.map (·.1)) := by
  induction attached with
  | nil => exact .slnil
  | cons p attached ih =>
      rw [List.filterMap_cons]
      cases f p.2 with
      | none => exact ih.cons _
      | some u => exact ih.cons_cons _

theorem lookup_filterMap (f : Query → Option Text) {attached : List (Nat × Query)}
    (h : (attached.map (·.1)).Nodup) (number : Nat) :
    (attached.filterMap fun p => (f p.2).map (p.1, ·)).lookup number =
      (attached.lookup number).bind f := by
  induction attached with
  | nil => rfl
  | cons p attached ih =>
      obtain ⟨k, q⟩ := p
      rw [List.map_cons, List.nodup_cons] at h
      rw [List.filterMap_cons]
      by_cases hk : number = k
      · subst hk
        rw [List.lookup_cons_self, Option.bind_some]
        cases hf : f q with
        | none =>
            rw [Option.map_none]
            exact (ih h.2).trans (by rw [lookup_eq_none h.1, Option.bind_none])
        | some u => exact List.lookup_cons_self
      · rw [lookup_cons_of_ne hk]
        cases hf : f q with
        | none => exact ih h.2
        | some u => exact (lookup_cons_of_ne hk u _).trans (ih h.2)

end Lookup

theorem getElem?_placeTexts {texts : List (Nat × Text)} (h : (texts.map (·.1)).Nodup)
    (sets : List Text) (i : Nat) :
    (placeTexts sets texts)[i]? = sets[i]?.map fun u => (texts.lookup i).getD u := by
  induction texts generalizing sets with
  | nil => simp [placeTexts]
  | cons p texts ih =>
      obtain ⟨k, u⟩ := p
      rw [List.map_cons, List.nodup_cons] at h
      rw [placeTexts, List.foldl_cons]
      refine (ih h.2 (sets.set k u)).trans ?_
      by_cases hk : i = k
      · subst hk
        rw [List.lookup_cons_self, lookup_eq_none h.1, List.getElem?_set_self']
        cases sets[i]? <;> rfl
      · rw [lookup_cons_of_ne hk, List.getElem?_set_ne (Ne.symm hk)]

theorem length_placeTexts (sets : List Text) (texts : List (Nat × Text)) :
    (placeTexts sets texts).length = sets.length := by
  induction texts generalizing sets with
  | nil => rfl
  | cons p texts ih =>
      rw [placeTexts, List.foldl_cons]
      exact (ih (sets.set p.1 p.2)).trans List.length_set

theorem inject_of_getElem? {d : Dialect} {sets : List Text} {u : Text} (hu : sets[0]? = some u)
    (hs : 1 < sets.length) : Subquery.inject d sets = Subquery.injectInto d sets u := by
  match sets, hs with
  | first :: second :: rest, _ =>
      cases hu
      rfl

/-- The texts of the changed ones among the subqueries that were taken out. -/
def newTexts (q : Query) (number : Nat) : Option Text :=
  (q.attached.lookup number).bind newText?

theorem newTexts_eq_some {number : Nat} {u : Text} (h : q.newTexts number = some u) :
    ∃ sub, (number, sub) ∈ q.attached ∧ sub.isChanged = true ∧ sub.render = .ok u := by
  obtain ⟨sub, hl, hu⟩ := Option.bind_eq_some_iff.mp h
  obtain ⟨before, behind, split, -⟩ := List.lookup_eq_some_iff.mp hl
  refine ⟨sub, by simp [split], ?_⟩
  rw [newText?] at hu
  split at hu
  · rename_i hc
    refine ⟨hc, ?_⟩
    cases hr : sub.render with
    | error e => simp [hr, Except.toOption] at hu
    | ok v =>
        rw [hr] at hu
        cases hu
        rfl
  · cases hu

theorem newTexts_eq_none (h : ∀ p ∈ q.attached, p.2.isChanged = false) (number : Nat) :
    q.newTexts number = none := by
  by_contra hn
  obtain ⟨u, hu⟩ := Option.ne_none_iff_exists'.mp hn
  obtain ⟨sub, hm, hch, -⟩ := newTexts_eq_some hu
  simp [h _ hm] at hch

/-- The changed texts are written over the others under their numbers. -/
theorem getElem?_placeTexts_newTexts (h : (q.attached.map (·.1)).Nodup) (sets : List Text)
    (i : Nat) :
    (placeTexts sets (q.attached.filterMap fun p => p.2.newText?.map (p.1, ·)))[i]? =
      sets[i]?.map fun u => (q.newTexts i).getD u := by
  rw [getElem?_placeTexts (h.sublist (keys_filterMap _ _)), lookup_filterMap _ h, newTexts]

section
variable (hk : ¬(StatementType.detect s.dialect t).any StatementType.isInsertLike)
  (hc : Piece.Clean s.dialect (Piece.ofText s.dialect t))
  (hw : ∀ p ∈ q.attached, p.2.isChanged = true →
    ∃ u, p.2.render = .ok u ∧ Piece.Clean s.dialect (Piece.ofText s.dialect u))
include hk hc hw

/-- The statement has the texts of the changed subqueries in place. -/
theorem Attached.baseText_eq (h : Attached s t q) :
    q.baseText = .ok ((Nesting.ofText s.dialect t).textWith q.newTexts 1) := by
  have same : q.settings = s ∧ q.statement = t := by
    have base := h.same.1
    simp only [Query.base, ofStatement, mk.injEq] at base
    exact ⟨base.2.1, base.1⟩
  have pieces : (Nesting.ofText s.dialect t).pieces = Piece.ofText s.dialect t :=
    Nesting.pieces_ofPieces _
  rw [baseText, same.1, same.2, assemble, anyChanged_eq]
  by_cases hany : (q.attached.any fun p => p.2.isChanged) = true
  · rw [if_pos hany]
    obtain ⟨p, hp, hchanged⟩ := List.any_eq_true.mp hany
    obtain ⟨orig, detached, -⟩ := h.taken p hp
    rw [extract_of_detach hk detached, changedTexts_eq fun p hp hch =>
      (hw p hp hch).imp fun u hu => hu.1]
    obtain ⟨content, found, -⟩ := statement_of_detach hk hc detached
    have positive : q.newTexts 0 = none := by
      by_contra hn
      obtain ⟨u, hu⟩ := Option.ne_none_iff_exists'.mp hn
      obtain ⟨sub, hm, -⟩ := newTexts_eq_some hu
      obtain ⟨orig, detached, -⟩ := h.taken _ hm
      obtain ⟨e, v, -, pos, -⟩ := detach_eq_ok detached
      exact absurd rfl (Nat.ne_of_gt pos)
    rw [← pieces] at hc
    generalize Nesting.ofText s.dialect t = n at found hc ⊢
    let sets := Subquery.outerText 1 n :: Subquery.outerTexts 1 n.queries
    let placed := placeTexts sets (q.attached.filterMap fun p => p.2.newText?.map (p.1, ·))
    change Except.ok (Subquery.inject s.dialect placed) = _
    have stored := q.getElem?_placeTexts_newTexts h.nodup sets
    have length : placed.length = n.queries.length + 1 := by
      rw [length_placeTexts, List.length_cons, Subquery.length_outerTexts]
    have some := Nesting.length_queries_lt found
    rw [inject_of_getElem? (u := Subquery.outerText 1 n) (by rw [stored, positive]; rfl)
      (by omega)]
    refine congrArg _ (Subquery.injectInto_textWith (fun number u hu => ?_) hc Nat.one_pos
      (fun e he => ?_) (by omega))
    · obtain ⟨sub, hm, hch, hu⟩ := newTexts_eq_some hu
      obtain ⟨v, hv, clean⟩ := hw _ hm hch
      rw [hu] at hv
      cases hv
      exact clean
    · rw [stored, Subquery.getElem?_of_mem_numbered he, Option.map_some]
  · rw [if_neg hany]
    have unchanged := newTexts_eq_none (q := q) fun p hp => by
      by_contra hch
      exact hany (List.any_eq_true.mpr ⟨p, hp, by simpa using hch⟩)
    rw [Nesting.textWith_of_forall_none fun e _ => unchanged e.2, Nesting.text_ofText]

/-- No changes of its own: the statement of the query is the text with its subqueries. -/
theorem Attached.render_eq (h : Attached s t q) :
    q.render = .ok ((Nesting.ofText s.dialect t).textWith q.newTexts 1) := by
  have plain : ¬q.isMutated = true := by
    rw [isMutated, h.same.2.1, h.same.2.2.1]
    decide
  have bound (u : Text) : q.bound u = u := by
    rw [Query.bound, h.same.2.2.2, Dialect.bind_empty]
  rw [render_of_not_isMutated plain, h.baseText_eq hk hc hw]
  exact congrArg Except.ok (bound _)

end

/-- A query without any changes is its statement. -/
theorem render_of_not_isChanged {q : Query} (h : q.isChanged = false) :
    q.render = .ok q.statement := by
  obtain ⟨statement, settings, ⟨replacements⟩, ⟨additions⟩, ⟨positional, ⟨named⟩⟩, attached,
    memo⟩ := q
  simp only [isChanged, Parameters.isEmpty, OrderedMap.isEmpty, Bool.or_eq_false_iff,
    Bool.not_eq_false', Bool.and_eq_true, List.isEmpty_iff] at h
  obtain ⟨⟨⟨rfl, rfl⟩, rfl, rfl⟩, unchanged⟩ := h
  rw [render_of_not_isMutated (by simp [isMutated, OrderedMap.isEmpty]), baseText, assemble,
    unchanged]
  exact congrArg Except.ok (Dialect.bind_empty _ _)

/-- A subquery without changes is written as it stands in the statement, if none is inside it that
was taken out. -/
theorem Attached.render_unchanged (h : Attached s t q)
    (hk : ¬(StatementType.detect s.dialect t).any StatementType.isInsertLike)
    (hc : Piece.Clean s.dialect (Piece.ofText s.dialect t))
    (apart : ∀ n ∈ q.attached.map (·.1), ∀ m ∈ q.attached.map (·.1),
      ¬(Nesting.ofText s.dialect t).Encloses n m)
    {e : Nesting × Nat} (he : e ∈ (Nesting.ofText s.dialect t).numbered 1) {sub : Query}
    (hm : (e.2, sub) ∈ q.attached) (hch : sub.isChanged = false) :
    sub.render = .ok (e.1.textWith q.newTexts (e.2 + 1)) := by
  obtain ⟨orig, detached, leads⟩ := h.taken _ hm
  obtain ⟨content, found, rfl⟩ := statement_of_detach hk hc detached
  have same : content = e.1 := by
    have there := (Nesting.mem_numbered.mp he).2
    rw [(Nesting.mem_numbered.mp found).2] at there
    exact Option.some.inj there
  have statement : sub.statement = content.text :=
    congrArg Query.statement (leads.base_eq (sound_empty (ofStatement _ _)))
  have inside : ∀ e' ∈ e.1.numbered (e.2 + 1), q.newTexts e'.2 = none := by
    rintro ⟨content', number⟩ hin
    obtain ⟨above, present⟩ := Nesting.mem_numbered.mp hin
    have below := (List.getElem?_eq_some_iff.mp present).1
    by_contra hn
    obtain ⟨u, hu⟩ := Option.ne_none_iff_exists'.mp hn
    obtain ⟨other, ho, -⟩ := newTexts_eq_some hu
    refine apart _ (List.mem_map_of_mem hm) _ (List.mem_map_of_mem ho) ⟨e, he, rfl, above, ?_⟩
    dsimp only at below ⊢
    omega
  rw [render_of_not_isChanged hch, statement, same, Nesting.textWith_of_forall_none inside]

/-- Subqueries that were taken out and edited stand in the statement as they are now, everything
else is as it was. -/
theorem Attaches.toSql_textWith {s : Settings} {t : Text} {q : Query} (h : Attaches s t q)
    (hk : ¬(StatementType.detect s.dialect t).any StatementType.isInsertLike)
    (closed : s.dialect.Closed t) (unmarked : ¬Subquery.hashSub <:+: Piece.ofText s.dialect t)
    (apart : ∀ n ∈ q.attached.map (·.1), ∀ m ∈ q.attached.map (·.1),
      ¬(Nesting.ofText s.dialect t).Encloses n m)
    (written : ∀ p ∈ q.attached, p.2.isChanged = true → ∃ u, Edit.toSql.answer p.2 = .ok u ∧
      s.dialect.Closed u ∧ ¬Subquery.hashSub <:+: Piece.ofText s.dialect u) :
    Edit.toSql.answer q =
        .ok ((Nesting.ofText s.dialect t).textWith
          (fun number => (q.attached.lookup number).bind fun sub =>
            (Edit.toSql.answer sub).toOption) 1) ∧
      ((∀ p ∈ q.attached, p.2.isChanged = false) → Edit.toSql.answer q = .ok t) := by
  have attached := h.attached
  have clean : Piece.Clean s.dialect (Piece.ofText s.dialect t) :=
    ⟨Piece.lexed_ofText _ _, closed, unmarked⟩
  have answer {p : Nat × Query} (hp : p ∈ q.attached) : Edit.toSql.answer p.2 = p.2.render := by
    obtain ⟨orig, detached, leads⟩ := attached.taken p hp
    obtain ⟨content, -, rfl⟩ := statement_of_detach hk clean detached
    exact (Edit.reads_toSql p.2).answer_self (leads.sound (sound_empty (ofStatement _ _)))
  have rendered := attached.render_eq hk clean fun p hp hch => by
    obtain ⟨u, hu, hc, hm⟩ := written p hp hch
    exact ⟨u, answer hp ▸ hu, Piece.lexed_ofText _ _, hc, hm⟩
  rw [(Edit.reads_toSql q).answer_self attached.sound, rendered]
  refine ⟨congrArg _ (Nesting.textWith_congr fun e he => ?_).symm, fun none => ?_⟩
  · cases hl : q.attached.lookup e.2 with
    | none => simp [newTexts, hl]
    | some sub =>
        obtain ⟨before, behind, split, -⟩ := List.lookup_eq_some_iff.mp hl
        have hm : (e.2, sub) ∈ q.attached := by simp [split]
        rw [Option.bind_some, answer hm]
        by_cases hch : sub.isChanged = true
        · exact .inl (by rw [newTexts, hl, Option.bind_some, newText?, if_pos hch])
        · refine .inr ⟨by rw [newTexts, hl, Option.bind_some, newText?, if_neg hch], ?_⟩
          rw [attached.render_unchanged hk clean apart he hm (by simpa using hch)]
          rfl
  · rw [Nesting.textWith_of_forall_none fun e _ => newTexts_eq_none none e.2, Nesting.text_ofText]

/-- Of two subqueries that were taken out, one has a further column. -/
theorem toSql_attached_select :
    let t : Text :=
      "SELECT a FROM (SELECT b FROM (SELECT '#sub1') u) v WHERE a IN (SELECT c)".toList
    let column : Call := .mutate (.columns ["x".toList] {})
    let first := Edit.left (Call.subquery 1 fun sub => Edit.left column.run sub).run
      (ofStatement {} t)
    Edit.toSql.answer (Edit.left (Call.subquery 3 id).run first) = .ok
      "SELECT a FROM (SELECT b, `x` FROM (SELECT '#sub1') u) v WHERE a IN (SELECT c)".toList := by
  intro t column first
  obtain ⟨q, hq⟩ : ∃ q, q = Edit.left (Call.subquery 3 id).run first := ⟨_, rfl⟩
  have history : Attaches {} t q :=
    hq ▸ .edit 3 (fun _ _ => .refl) (.edit 1 (fun _ _ => .call column .refl) .start)
  have numbers : q.attached.map (·.1) = [1, 3] := by
    rw [hq]
    decide +kernel
  have written : ∀ p ∈ q.attached,
      (Edit.toSql.answer p.2).toOption.any fun u => decide (Dialect.mysql.Closed u) &&
        decide (¬Subquery.hashSub <:+: Piece.ofText .mysql u) := by
    rw [hq]
    decide +kernel
  have shown := (history.toSql_textWith (by decide +kernel) (by decide +kernel) (by decide +kernel)
    (by
      rw [numbers]
      decide +kernel) fun p hp _ => ?_).1
  · rw [← hq]
    refine shown.trans (congrArg _ ?_)
    rw [hq]
    decide +kernel
  · have fits := written p hp
    cases hu : Edit.toSql.answer p.2 with
    | error e => simp [hu, Except.toOption] at fits
    | ok u =>
        rw [hu] at fits
        exact ⟨u, rfl, by simpa [Except.toOption] using fits⟩

end Query
end SqlStatement
