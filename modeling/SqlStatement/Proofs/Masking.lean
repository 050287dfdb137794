import SqlStatement.Proofs.Lexing

/-!
# Masked stretches

The text between two parentheses can be exchanged for one without quotes and
backslashes, and the pieces around it stay what they are. A quote that opened
nothing still opens nothing, since the search for its partner ran over both
parentheses.
-/
namespace SqlStatement

namespace Piece
variable {d : Dialect}

/-- Whether a character neither opens nor escapes anything. -/
def isPlain (c : Char) : Bool := c != '\'' && c != '"' && c != '\x60' && c != '\\'

theorem isPlain_ne {c q : Char} (h : isPlain c = true) (hq : d.isQuote q = true) :
    c ≠ q ∧ c ≠ '\\' := by
  simp only [isPlain, Bool.and_eq_true, bne_iff_ne] at h
  obtain ⟨⟨⟨h₁, h₂⟩, h₃⟩, h₄⟩ := h
  refine ⟨?_, h₄⟩
  rcases Dialect.isQuote_cases hq with rfl | rfl | rfl
  · exact h₁
  · exact h₂
  · exact h₃

theorem isQuote_of_isPlain {c : Char} (h : isPlain c = true) : d.isQuote c = false := by
  by_contra hq
  exact (isPlain_ne h (by simpa using hq)).1 rfl

/-- Pieces, and the same with plain text between some of the parentheses. -/
inductive Masks : List Piece → List Piece → Prop
  | nil : Masks [] []
  | keep {ps qs : List Piece} (p : Piece) (h : Masks ps qs) : Masks (p :: ps) (p :: qs)
  | mask {ps qs : List Piece} (inner : List Piece) {mark : Text}
      (hm : ∀ c ∈ mark, isPlain c = true) (h : Masks ps qs) :
      Masks (.char '(' :: (inner ++ .char ')' :: ps))
        (.char '(' :: (mark.map .char ++ .char ')' :: qs))

@[simp] theorem textOf_map_char (t : Text) : textOf (t.map char) = t := by
  induction t with
  | nil => rfl
  | cons c t ih => rw [List.map_cons, textOf_cons, ih, text, List.singleton_append]

namespace Masks
variable {ps qs ps' qs' : List Piece}

theorem append (h : Masks ps qs) (h' : Masks ps' qs') : Masks (ps ++ ps') (qs ++ qs') := by
  induction h with
  | nil => exact h'
  | keep p _ ih => exact .keep p ih
  | mask inner hm _ ih =>
      simp only [List.cons_append, List.append_assoc]
      exact .mask inner hm ih

theorem mem (h : Masks ps qs) {p : Piece} (hp : p ∈ qs) : p ∈ ps ∨ ∃ c, p = char c := by
  induction h with
  | nil => exact .inl hp
  | keep p' _ ih =>
      rcases List.mem_cons.mp hp with rfl | hp
      · exact .inl (by simp)
      · exact (ih hp).imp_left fun h => by simp [h]
  | mask inner _ _ ih =>
      simp only [List.mem_cons, List.mem_append, List.mem_map] at hp
      rcases hp with rfl | ⟨c, -, rfl⟩ | rfl | hp
      · exact .inr ⟨_, rfl⟩
      · exact .inr ⟨c, rfl⟩
      · exact .inr ⟨_, rfl⟩
      · exact (ih hp).imp_left fun h => by simp [h]

theorem head?_textOf (h : Masks ps qs) : (textOf qs).head? = (textOf ps).head? := by
  induction h with
  | nil => rfl
  | keep p _ ih => rw [textOf_cons, textOf_cons, List.head?_append, List.head?_append, ih]
  | mask => rfl

/-- A literal that is open in front of the pieces is not closed by masking them. -/
theorem close?_eq_none {e : Escape} {q : Char} (hq : d.isQuote q = true) (h : Masks ps qs)
    (u : Text) (hc : e.close? q (u ++ textOf ps) = none) :
    e.close? q (u ++ textOf qs) = none := by
  have paren : ∀ c, c = '(' ∨ c = ')' → c ≠ q ∧ c ≠ '\\' := by
    rintro c (rfl | rfl) <;> exact isPlain_ne (by decide) hq
  induction h generalizing u with
  | nil => exact hc
  | keep p _ ih =>
      rw [textOf_cons, ← List.append_assoc] at hc ⊢
      exact ih _ hc
  | @mask ps qs inner mark hm _ ih =>
      rw [textOf_cons, textOf_append, textOf_cons] at hc
      have opened := Escape.passes_of_close?_eq_none u _ (paren _ (.inl rfl)).1
        (paren _ (.inl rfl)).2 hc
      have closed := Escape.passes_of_close?_eq_none (textOf inner) _ (paren _ (.inr rfl)).1
        (paren _ (.inr rfl)).2 opened.2
      have rest := ih [] closed.2
      have plain : e.passes q (mark ++ [')']) = true := by
        refine Escape.passes_of_forall fun c hc => ?_
        rcases List.mem_append.mp hc with hc | hc
        · exact isPlain_ne (hm c hc) hq
        · exact paren c (.inr (by simpa using hc))
      have shape : u ++ textOf (char '(' :: (mark.map char ++ char ')' :: qs)) =
          (u ++ ['(']) ++ ((mark ++ [')']) ++ textOf qs) := by simp [text]
      rw [shape, Escape.close?_append_of_passes opened.1, Escape.close?_append_of_passes plain]
      rw [List.nil_append] at rest
      simp [rest]

end Masks

theorem literal?_eq_none_of_masks {ps qs : List Piece} {q : Char} (hq : d.isQuote q = true)
    (h : Masks ps qs) (hl : d.literal? (q :: textOf ps) = none) :
    d.literal? (q :: textOf qs) = none := by
  obtain ⟨e, he⟩ := Dialect.isQuote_iff.mp hq
  rw [Dialect.literal?_cons, he, Option.bind_some, Option.map_eq_none_iff] at hl ⊢
  exact h.close?_eq_none hq [] hl

/-- Masked pieces are lexed if the pieces were. -/
theorem Lexed.masks {ps qs : List Piece} (h : Lexed d ps) (hm : Masks ps qs) : Lexed d qs := by
  induction hm with
  | nil => exact .nil
  | keep p hm ih =>
      cases h with
      | char hc h => exact .char hc (ih h)
      | literal hl h =>
          exact .literal (Dialect.literal?_swap _ hl fun c hc _ _ => .inl (hm.head?_textOf ▸ hc))
            (ih h)
      | stray hq hl h => exact .stray hq (literal?_eq_none_of_masks hq hm hl) (ih h)
  | mask inner hp hm ih =>
      cases h with
      | char hc h =>
          exact .char hc (.map_char (fun c hm => isQuote_of_isPlain (hp c hm))
            (.char (isQuote_of_isPlain (by decide)) (ih h.right.of_cons)))

end Piece
end SqlStatement
