import SqlStatement.Piece

/-!
# Where a literal closes

A literal ends at the same quote whatever stands behind it, unless the next
character is that quote again. A quote that nothing closes stays unclosed when
a stretch between two parentheses is exchanged for one without quotes and
backslashes.
-/
namespace SqlStatement

namespace Escape
variable {e : Escape} {q : Char}

theorem close?_cons_of_ne {c : Char} (t : Text) (hc : c ≠ q)
    (hb : ¬(c = '\\' ∧ e = .backslash)) :
    e.close? q (c :: t) = (e.close? q t).map fun r => (c :: r.1, r.2) := by
  cases t with
  | nil => simp [close?, hc]
  | cons c' t => rw [close?, if_neg hb, if_neg hc]

theorem close?_quote (t : Text) (hq : q ≠ '\\') (ht : e = .never ∨ t.head? ≠ some q) :
    e.close? q (q :: t) = some ([q], t) := by
  cases t with
  | nil => simp [close?]
  | cons c t =>
      have hd : ¬(c = q ∧ e ≠ .never) := by
        rintro ⟨rfl, he⟩
        simp [he] at ht
      rw [close?, if_neg (by simp [hq]), if_pos rfl, if_neg hd]

/-- Behind a closing quote there is no second one, where two of them would be an escape. -/
theorem close?_head {t lit rest : Text} (h : e.close? q t = some (lit, rest)) :
    e = .never ∨ rest.head? ≠ some q := by
  fun_induction Escape.close? e q t generalizing lit rest with
  | case1 => simp at h
  | case2 =>
      cases h
      exact .inr (by simp)
  | case3 => simp at h
  | case4 c c' r _ ih | case5 c' r _ _ ih | case7 c c' r _ _ ih =>
      obtain ⟨x, hx, he⟩ := Option.map_eq_some_iff.mp h
      cases he
      exact ih hx
  | case6 c' r hd =>
      cases h
      by_cases he : e = .never
      · exact .inl he
      · exact .inr fun hc => hd ⟨by simpa using hc, he⟩

/-- What stands behind a literal does not matter for where it closes. -/
theorem close?_swap {lit rest : Text} (behind : Text) (hq : q ≠ '\\')
    (h : e.close? q (lit ++ rest) = some (lit, rest))
    (hb : e = .never ∨ behind.head? ≠ some q) :
    e.close? q (lit ++ behind) = some (lit, behind) := by
  generalize lit ++ rest = t at h
  fun_induction Escape.close? e q t generalizing lit rest with
  | case1 => simp at h
  | case2 =>
      cases h
      exact close?_quote behind hq hb
  | case3 => simp at h
  | case4 c c' r hc ih =>
      obtain ⟨x, hx, he⟩ := Option.map_eq_some_iff.mp h
      cases he
      rw [List.cons_append, List.cons_append, close?, if_pos hc, ih hx, Option.map_some]
  | case5 c' r hd hc ih =>
      obtain ⟨x, hx, he⟩ := Option.map_eq_some_iff.mp h
      cases he
      rw [List.cons_append, List.cons_append, close?, if_neg hc, if_pos rfl, if_pos hd, ih hx,
        Option.map_some]
  | case6 c' r hd =>
      cases h
      exact close?_quote behind hq hb
  | case7 c c' r hc hne ih =>
      obtain ⟨x, hx, he⟩ := Option.map_eq_some_iff.mp h
      cases he
      rw [List.cons_append, close?_cons_of_ne _ hne hc, ih hx, Option.map_some]

/-- Whether the text behind an opening quote neither closes the literal nor ends between the two
characters of an escape. -/
def passes (e : Escape) (q : Char) : Text → Bool
  | [] => true
  | [c] => c != q && !(c == '\\' && e == .backslash)
  | c :: c' :: rest =>
      if c = '\\' ∧ e = .backslash then e.passes q rest
      else if c = q then c' = q && e != .never && e.passes q rest
      else e.passes q (c' :: rest)

theorem passes_cons_of_ne {c : Char} (t : Text) (hc : c ≠ q)
    (hb : ¬(c = '\\' ∧ e = .backslash)) : e.passes q (c :: t) = e.passes q t := by
  cases t with
  | nil =>
      have hn : (c == '\\' && e == .backslash) = false := by simpa using hb
      simp [passes, hc, hn]
  | cons c' t => rw [passes, if_neg hb, if_neg hc]

/-- Without escapes everything but the quote itself is passed over. -/
theorem passes_never {t : Text} (h : ∀ c ∈ t, c ≠ q) : never.passes q t = true := by
  induction t with
  | nil => rfl
  | cons c t ih =>
      rw [List.forall_mem_cons] at h
      rw [passes_cons_of_ne t h.1 (by simp)]
      exact ih h.2

/-- A text that is passed over leaves the search for the closing quote to what follows. -/
theorem close?_append_of_passes {u : Text} (h : e.passes q u = true) (t : Text) :
    e.close? q (u ++ t) = (e.close? q t).map fun r => (u ++ r.1, r.2) := by
  fun_induction Escape.passes e q u with
  | case1 => simp
  | case2 c =>
      simp only [Bool.and_eq_true, bne_iff_ne, ne_eq, Bool.not_eq_true', Bool.and_eq_false_iff,
        beq_eq_false_iff_ne] at h
      exact close?_cons_of_ne t h.1 fun hb => h.2.elim (· hb.1) (· hb.2)
  | case3 c c' r hc ih =>
      rw [List.cons_append, List.cons_append, close?, if_pos hc, ih h, Option.map_map]
      rfl
  | case4 c' r hc ih =>
      simp only [Bool.and_eq_true, decide_eq_true_eq, bne_iff_ne] at h
      rw [List.cons_append, List.cons_append, close?, if_neg hc, if_pos rfl, if_pos h.1, ih h.2,
        Option.map_map]
      rfl
  | case5 c c' r hc hne ih =>
      rw [List.cons_append, close?_cons_of_ne _ hne hc, ih h, Option.map_map]
      rfl

/-- Without a closing quote, a text is passed over up to any ordinary character. -/
theorem passes_of_close?_eq_none {c : Char} (u t : Text) (hc : c ≠ q) (hb : c ≠ '\\')
    (h : e.close? q (u ++ c :: t) = none) : e.passes q (u ++ [c]) = true ∧ e.close? q t = none := by
  have hplain : ¬(c = '\\' ∧ e = .backslash) := fun hx => hb hx.1
  match u with
  | [] =>
      rw [List.nil_append, close?_cons_of_ne _ hc hplain, Option.map_eq_none_iff] at h
      refine ⟨?_, h⟩
      rw [List.nil_append, passes_cons_of_ne _ hc hplain, passes]
  | [a] =>
      rw [List.cons_append, List.nil_append] at h ⊢
      by_cases ha : a = '\\' ∧ e = .backslash
      · rw [close?, if_pos ha, Option.map_eq_none_iff] at h
        refine ⟨?_, h⟩
        rw [passes, if_pos ha, passes]
      · by_cases haq : a = q
        · rw [close?, if_neg ha, if_pos haq, if_neg (by simp [hc])] at h
          simp at h
        · rw [close?_cons_of_ne _ haq ha, Option.map_eq_none_iff] at h
          rw [passes_cons_of_ne _ haq ha]
          exact passes_of_close?_eq_none [] t hc hb h
  | a :: b :: u =>
      rw [List.cons_append] at h ⊢
      by_cases ha : a = '\\' ∧ e = .backslash
      · rw [List.cons_append, close?, if_pos ha, Option.map_eq_none_iff] at h
        rw [List.cons_append, passes, if_pos ha]
        exact passes_of_close?_eq_none u t hc hb h
      · by_cases haq : a = q
        · rw [List.cons_append, close?, if_neg ha, if_pos haq] at h
          split at h
          · rename_i hd
            rw [Option.map_eq_none_iff] at h
            have ih := passes_of_close?_eq_none u t hc hb h
            refine ⟨?_, ih.2⟩
            rw [List.cons_append, passes, if_neg ha, if_pos haq, ih.1]
            simp [hd]
          · simp at h
        · rw [close?_cons_of_ne _ haq ha, Option.map_eq_none_iff] at h
          rw [passes_cons_of_ne _ haq ha]
          exact passes_of_close?_eq_none (b :: u) t hc hb h
termination_by u.length

/-- A text of ordinary characters is passed over. -/
theorem passes_of_forall {t : Text} (h : ∀ c ∈ t, c ≠ q ∧ c ≠ '\\') : e.passes q t = true := by
  induction t with
  | nil => rfl
  | cons c t ih =>
      have hc := h c (by simp)
      rw [passes_cons_of_ne t hc.1 fun hx => hc.2 hx.1]
      exact ih fun c hm => h c (by simp [hm])

end Escape
end SqlStatement
