import Mathlib.Data.List.DropRight
import SqlStatement.Proofs.Lexing

/-!
# Trimming pieces

A text loses the white characters at its ends. Literals begin and end with their
quotes, so what a text loses are whole pieces outside literals.
-/
namespace SqlStatement

/-- A literal ends with the quote that closes it. -/
theorem Escape.close?_last {e : Escape} {q : Char} {t lit rest : Text}
    (h : e.close? q t = some (lit, rest)) : ∃ body, lit = body ++ [q] := by
  fun_induction Escape.close? e q t generalizing lit rest with
  | case1 => simp at h
  | case2 =>
      cases h
      exact ⟨[], rfl⟩
  | case3 => simp at h
  | case4 c c' r _ ih | case5 c' r _ _ ih =>
      obtain ⟨x, hx, he⟩ := Option.map_eq_some_iff.mp h
      cases he
      obtain ⟨body, hb⟩ := ih hx
      exact ⟨_ :: _ :: body, by rw [hb]; rfl⟩
  | case6 =>
      cases h
      exact ⟨[], rfl⟩
  | case7 c c' r _ _ ih =>
      obtain ⟨x, hx, he⟩ := Option.map_eq_some_iff.mp h
      cases he
      obtain ⟨body, hb⟩ := ih hx
      exact ⟨_ :: body, by rw [hb]; rfl⟩

namespace Dialect
variable {d : Dialect}

theorem isWhite_of_isQuote {q : Char} (h : d.isQuote q = true) : Text.isWhite q = false := by
  rcases isQuote_cases h with rfl | rfl | rfl <;> decide

theorem isQuote_of_isWhite {c : Char} (h : Text.isWhite c = true) : d.isQuote c = false := by
  by_contra hq
  rw [Bool.not_eq_false] at hq
  rw [isWhite_of_isQuote hq] at h
  cases h

theorem literal?_ends {t lit rest : Text} (h : d.literal? t = some (lit, rest)) :
    ∃ q body, lit = q :: (body ++ [q]) ∧ d.isQuote q = true := by
  cases t with
  | nil => simp [literal?, stringLiteral?, identifierLiteral?] at h
  | cons q t =>
      rw [literal?_cons, Option.bind_eq_some_iff] at h
      obtain ⟨e, he, h⟩ := h
      obtain ⟨r, hr, hc⟩ := Option.map_eq_some_iff.mp h
      cases hc
      obtain ⟨body, hb⟩ := Escape.close?_last hr
      exact ⟨q, body, by rw [hb], isQuote_iff.mpr ⟨e, he⟩⟩

end Dialect

namespace Piece
variable {d : Dialect}

/-- Whether a piece is a white character. -/
def isWhite : Piece → Bool
  | char c => Text.isWhite c
  | _ => false

/-- A piece that is a white character, or has none at its ends. -/
def Firm (p : Piece) : Prop :=
  p.isWhite = false →
    (∃ c t, p.text = c :: t ∧ Text.isWhite c = false) ∧
      ∃ t c, p.text = t ++ [c] ∧ Text.isWhite c = false

theorem firm_char (c : Char) : Firm (char c) := fun h => ⟨⟨c, [], rfl, h⟩, [], c, rfl, h⟩

theorem firm_literal {t : Text} (c c' : Char) (ht : t = c :: (t.tail.dropLast ++ [c']))
    (hc : Text.isWhite c = false) (hc' : Text.isWhite c' = false) : Firm (literal t) := by
  intro _
  refine ⟨⟨c, _, ht, hc⟩, c :: t.tail.dropLast, c', ?_, hc'⟩
  rw [text, List.cons_append, ← ht]

theorem Lexed.firm {ps : List Piece} (h : Lexed d ps) {p : Piece} (hp : p ∈ ps) : Firm p := by
  induction h with
  | nil => simp at hp
  | char _ _ ih =>
      rcases List.mem_cons.mp hp with rfl | hp
      · exact firm_char _
      · exact ih hp
  | literal hl _ ih =>
      rcases List.mem_cons.mp hp with rfl | hp
      · obtain ⟨q, body, rfl, hq⟩ := Dialect.literal?_ends hl
        exact firm_literal q q (by simp) (Dialect.isWhite_of_isQuote hq)
          (Dialect.isWhite_of_isQuote hq)
      · exact ih hp
  | stray hq _ _ ih =>
      rcases List.mem_cons.mp hp with rfl | hp
      · intro _
        have := Dialect.isWhite_of_isQuote hq
        exact ⟨⟨_, [], rfl, this⟩, [], _, rfl, this⟩
      · exact ih hp

theorem text_of_isWhite {p : Piece} (h : p.isWhite = true) :
    ∃ c, p = char c ∧ Text.isWhite c = true := by
  cases p with
  | char c => exact ⟨c, rfl, h⟩
  | literal | stray => simp [isWhite] at h

theorem dropWhile_textOf {ps : List Piece} (h : ∀ p ∈ ps, Firm p) :
    (textOf ps).dropWhile Text.isWhite = textOf (ps.dropWhile isWhite) := by
  induction ps with
  | nil => rfl
  | cons p ps ih =>
      cases hp : p.isWhite with
      | true =>
          obtain ⟨c, rfl, hc⟩ := text_of_isWhite hp
          rw [List.dropWhile_cons_of_pos hp, ← ih fun p hm => h p (by simp [hm])]
          exact List.dropWhile_cons_of_pos hc
      | false =>
          obtain ⟨⟨c, t, ht, hc⟩, -⟩ := h p (by simp) hp
          rw [List.dropWhile_cons_of_neg (by simp [hp]), textOf_cons, ht, List.cons_append,
            List.dropWhile_cons_of_neg (by simp [hc])]

theorem dropEndWhile_textOf {ps : List Piece} (h : ∀ p ∈ ps, Firm p) :
    Text.dropEndWhile Text.isWhite (textOf ps) = textOf (ps.rdropWhile isWhite) := by
  change List.rdropWhile Text.isWhite (textOf ps) = _
  induction ps using List.reverseRecOn with
  | nil => rfl
  | append_singleton ps p ih =>
      cases hp : p.isWhite with
      | true =>
          obtain ⟨c, rfl, hc⟩ := text_of_isWhite hp
          rw [List.rdropWhile_concat_pos _ _ _ hp, ← ih fun p hm => h p (by simp [hm]),
            textOf_append]
          exact List.rdropWhile_concat_pos _ _ _ hc
      | false =>
          obtain ⟨-, t, c, ht, hc⟩ := h p (by simp) hp
          rw [List.rdropWhile_concat_neg _ _ _ (by simp [hp]), textOf_append, textOf_cons, ht,
            textOf_nil, List.append_nil, ← List.append_assoc,
            List.rdropWhile_concat_neg _ _ _ (by simp [hc])]

/-- The pieces without the white characters at both ends. -/
def strip (ps : List Piece) : List Piece := (ps.dropWhile isWhite).rdropWhile isWhite

theorem trim_textOf {ps : List Piece} (h : ∀ p ∈ ps, Firm p) :
    Text.trim (textOf ps) = textOf (strip ps) := by
  rw [Text.trim, Text.trimWhere, dropWhile_textOf h, dropEndWhile_textOf, strip]
  exact fun p hp => h p ((List.dropWhile_sublist _).mem hp)

end Piece
end SqlStatement
