import Mathlib.Tactic.Common
import SqlStatement.Proofs.Closing

/-!
# Texts and their pieces

A list of pieces is lexed if it is what its own text is cut into. Stretches of
a lexed list are lexed again, unless an unclosed quote stands in front of a
quote that is left out. Lexed lists can be put behind each other where no quote
meets another.
-/
namespace SqlStatement

namespace Dialect
variable {d : Dialect}

/-- The escapes of a literal that a character opens, if it opens one. -/
def escapeOf? (d : Dialect) (q : Char) : Option Escape :=
  if d.isStringQuote q then some d.stringEscape
  else if q = d.identifierQuote then some .never
  else none

theorem literal?_cons (q : Char) (t : Text) :
    d.literal? (q :: t) =
      (d.escapeOf? q).bind fun e => (e.close? q t).map fun r => (q :: r.1, r.2) := by
  have disjoint : d.isStringQuote q = true → q ≠ d.identifierQuote := by
    rintro h rfl
    cases d <;> simp [isStringQuote, identifierQuote] at h
  by_cases hs : d.isStringQuote q = true
  · simp [literal?, stringLiteral?, identifierLiteral?, escapeOf?, hs, disjoint hs]
  · by_cases hi : q = d.identifierQuote
    · simp only [literal?, stringLiteral?, identifierLiteral?, escapeOf?, hs, if_pos hi,
        Bool.false_eq_true, if_false, Option.none_or, Option.bind_some]
    · simp [literal?, stringLiteral?, identifierLiteral?, escapeOf?, hs, hi]

theorem isQuote_iff {q : Char} : d.isQuote q = true ↔ ∃ e, d.escapeOf? q = some e := by
  simp only [isQuote, escapeOf?, Bool.or_eq_true, beq_iff_eq]
  split
  · simp [*]
  · split <;> simp [*]

theorem escapeOf?_identifierQuote : d.escapeOf? d.identifierQuote = some .never := by
  cases d <;> decide

/-- A quote is one of three characters. -/
theorem isQuote_cases {q : Char} (h : d.isQuote q = true) : q = '\'' ∨ q = '"' ∨ q = '\x60' := by
  cases d <;> simp [isQuote, identifierQuote, isStringQuote] at h <;> tauto

theorem isQuote_ne_backslash {q : Char} (h : d.isQuote q = true) : q ≠ '\\' := by
  rcases isQuote_cases h with rfl | rfl | rfl <;> decide

theorem isQuote_of_isWordChar {c : Char} (h : Text.isWordChar c = true) : d.isQuote c = false := by
  by_contra hq
  rcases isQuote_cases (by simpa using hq) with rfl | rfl | rfl <;>
    exact absurd h (by decide)

theorem isQuote_of_isBlank {c : Char} (h : Text.isBlank c = true) : d.isQuote c = false := by
  by_contra hq
  rcases isQuote_cases (by simpa using hq) with rfl | rfl | rfl <;>
    exact absurd h (by decide)

/-- A literal starts with a quote. -/
theorem literal?_quote {t lit rest : Text} (h : d.literal? t = some (lit, rest)) :
    ∃ q body, lit = q :: body ∧ d.isQuote q = true := by
  cases t with
  | nil => simp [literal?, stringLiteral?, identifierLiteral?] at h
  | cons q t =>
      rw [literal?_cons, Option.bind_eq_some_iff] at h
      obtain ⟨e, he, h⟩ := h
      obtain ⟨r, _, hr⟩ := Option.map_eq_some_iff.mp h
      cases hr
      exact ⟨q, r.1, rfl, isQuote_iff.mpr ⟨e, he⟩⟩

/-- A literal stays the same in front of another text, unless that text starts with the literal's
quote which was not there before. -/
theorem literal?_swap {lit rest : Text} (behind : Text)
    (h : d.literal? (lit ++ rest) = some (lit, rest))
    (hb : ∀ c, behind.head? = some c → d.isQuote c = true → lit.head? = some c →
      rest.head? = some c ∨ c = d.identifierQuote) :
    d.literal? (lit ++ behind) = some (lit, behind) := by
  obtain ⟨q, body, rfl, hq⟩ := literal?_quote h
  rw [List.cons_append, literal?_cons, Option.bind_eq_some_iff] at h ⊢
  obtain ⟨e, he, h⟩ := h
  obtain ⟨⟨lit, after⟩, hc, hr⟩ := Option.map_eq_some_iff.mp h
  cases hr
  have free : e = .never ∨ behind.head? ≠ some q := by
    by_contra hn
    simp only [not_or, ne_eq, not_not] at hn
    rcases hb q hn.2 hq rfl with hrest | rfl
    · exact (Escape.close?_head hc).elim hn.1 (· hrest)
    · rw [escapeOf?_identifierQuote] at he
      exact hn.1 (Option.some.inj he).symm
  exact ⟨e, he, by rw [Escape.close?_swap behind (isQuote_ne_backslash hq) hc free]; rfl⟩

/-- A quote that opens nothing opens nothing in front of a text that ends earlier, by a blank. -/
theorem literal?_eq_none_of_append {t : Text} {b : Char} {bs : Text} (hb : d.isQuote b = false)
    (h : d.literal? (t ++ b :: bs) = none) : d.literal? t = none := by
  cases hl : d.literal? t with
  | none => rfl
  | some r =>
      obtain ⟨lit, rest⟩ := r
      have ht := literal?_append hl
      rw [← ht] at hl
      have := literal?_swap (rest ++ b :: bs) hl fun c hc hq _ => by
        cases rest with
        | nil => simp at hc; simp [← hc, hb] at hq
        | cons a rest => exact .inl (by simpa using hc)
      rw [← List.append_assoc, ht, h] at this
      simp at this

end Dialect

namespace Piece
variable {d : Dialect}

theorem ofText_of_next? {t rest : Text} {p : Piece} (h : next? d t = some (p, rest)) :
    ofText d t = p :: ofText d rest := by
  rw [ofText]
  split
  · simp_all
  · rename_i h'
    rw [h] at h'
    cases h'
    rfl

@[simp] theorem ofText_nil : ofText d [] = [] := by
  rw [ofText]
  rfl

theorem ofText_char {c : Char} (t : Text) (hc : d.isQuote c = false) :
    ofText d (c :: t) = char c :: ofText d t :=
  ofText_of_next? (by simp [next?, hc])

theorem ofText_literal {lit t : Text} (h : d.literal? (lit ++ t) = some (lit, t)) :
    ofText d (lit ++ t) = literal lit :: ofText d t := by
  obtain ⟨q, body, rfl, hq⟩ := Dialect.literal?_quote h
  exact ofText_of_next? (by rw [List.cons_append] at h ⊢; simp [next?, hq, h])

theorem ofText_stray {q : Char} {t : Text} (hq : d.isQuote q = true)
    (h : d.literal? (q :: t) = none) : ofText d (q :: t) = stray q :: ofText d t :=
  ofText_of_next? (by simp [next?, hq, h])

/-- Pieces that are the pieces of their text. -/
inductive Lexed (d : Dialect) : List Piece → Prop
  | nil : Lexed d []
  | char {c : Char} {ps : List Piece} (hc : d.isQuote c = false) (h : Lexed d ps) :
      Lexed d (char c :: ps)
  | literal {lit : Text} {ps : List Piece}
      (hl : d.literal? (lit ++ textOf ps) = some (lit, textOf ps)) (h : Lexed d ps) :
      Lexed d (literal lit :: ps)
  | stray {q : Char} {ps : List Piece} (hq : d.isQuote q = true)
      (hl : d.literal? (q :: textOf ps) = none) (h : Lexed d ps) : Lexed d (stray q :: ps)

theorem Lexed.map_char {t : Text} {ps : List Piece} (ht : ∀ c ∈ t, d.isQuote c = false)
    (h : Lexed d ps) : Lexed d (t.map Piece.char ++ ps) := by
  induction t with
  | nil => exact h
  | cons c t ih => exact .char (ht c (by simp)) (ih fun c hc => ht c (by simp [hc]))

theorem lexed_ofText (d : Dialect) (t : Text) : Lexed d (ofText d t) := by
  fun_induction ofText d t with
  | case1 => exact .nil
  | case2 t p rest h ih =>
      cases t with
      | nil => simp [next?] at h
      | cons c t =>
          simp only [next?] at h
          split at h
          · rename_i hq
            split at h
            · rename_i lit after hl
              cases h
              refine .literal ?_ ih
              rw [textOf_ofText, Dialect.literal?_append hl, hl]
            · rename_i hl
              cases h
              exact .stray hq (by rw [textOf_ofText, hl]) ih
          · rename_i hq
            cases h
            exact .char (by simpa using hq) ih

namespace Lexed
variable {ps qs : List Piece}

theorem ofText_textOf (h : Lexed d ps) : ofText d (textOf ps) = ps := by
  induction h with
  | nil => exact ofText_nil
  | char hc _ ih =>
      rw [textOf_cons, text, List.singleton_append, ofText_char _ hc, ih]
  | literal hl _ ih => rw [textOf_cons, text, ofText_literal hl, ih]
  | stray hq hl _ ih =>
      rw [textOf_cons, text, List.singleton_append, ofText_stray hq hl, ih]

theorem of_cons {p : Piece} (h : Lexed d (p :: ps)) : Lexed d ps := by
  cases h with
  | char _ h | literal _ h | stray _ _ h => exact h

theorem right (h : Lexed d (ps ++ qs)) : Lexed d qs := by
  induction ps with
  | nil => exact h
  | cons p ps ih => exact ih h.of_cons

end Lexed

/-- Whether a piece is no unclosed quote. -/
def isClosed : Piece → Bool
  | .stray _ => false
  | _ => true

namespace Lexed
variable {ps qs : List Piece}

/-- What is cut off in front of an ordinary character leaves no quote open that was closed, and
closes none that was open. -/
theorem left (h : Lexed d (ps ++ qs))
    (hc : (∀ p ∈ ps, p.isClosed = true) ∨ ∀ c, (textOf qs).head? = some c → d.isQuote c = false) :
    Lexed d ps := by
  induction ps with
  | nil => exact .nil
  | cons p ps ih =>
      have hps := ih h.of_cons (hc.imp_left fun hp p hm => hp p (by simp [hm]))
      rw [List.cons_append] at h
      cases h with
      | char hq _ => exact .char hq hps
      | literal hl _ =>
          refine .literal (Dialect.literal?_swap _ hl fun c hh _ _ => .inl ?_) hps
          rw [textOf_append, List.head?_append, hh, Option.some_or]
      | stray hq hl _ =>
          refine .stray hq ?_ hps
          rcases hc with hc | hc
          · simp [isClosed] at hc
          · rw [textOf_append] at hl
            cases hqs : textOf qs with
            | nil => simpa [hqs] using hl
            | cons b bs =>
                rw [hqs, ← List.cons_append] at hl
                exact Dialect.literal?_eq_none_of_append (hc b (by simp [hqs])) hl

/-- Lexed pieces without unclosed quotes may stand in front of anything that starts with no quote or
with an identifier quote, as an identifier has no escapes. -/
theorem append_of_quote (h : Lexed d ps) (hqs : Lexed d qs) (hp : ∀ p ∈ ps, p.isClosed = true)
    (hc : ∀ c, (textOf qs).head? = some c → d.isQuote c = true → c = d.identifierQuote) :
    Lexed d (ps ++ qs) := by
  induction h with
  | nil => exact hqs
  | char hq _ ih => exact .char hq (ih fun p hm => hp p (by simp [hm]))
  | @literal lit ps hl _ ih =>
      refine .literal ?_ (ih fun p hm => hp p (by simp [hm]))
      refine Dialect.literal?_swap (textOf (ps ++ qs)) hl fun c hh hq _ => ?_
      rw [textOf_append, List.head?_append] at hh
      cases hps : (textOf ps).head? with
      | none =>
          rw [hps, Option.none_or] at hh
          exact .inr (hc c hh hq)
      | some a => rw [hps, Option.some_or] at hh; exact .inl hh
  | stray => simp [isClosed] at hp

/-- Lexed pieces without unclosed quotes may stand in front of anything that starts with no
quote. -/
theorem append (h : Lexed d ps) (hqs : Lexed d qs) (hp : ∀ p ∈ ps, p.isClosed = true)
    (hc : ∀ c, (textOf qs).head? = some c → d.isQuote c = false) : Lexed d (ps ++ qs) :=
  h.append_of_quote hqs hp fun c hh hq => absurd hq (by simp [hc c hh])

/-- What is behind some pieces may end in front of an ordinary character. -/
theorem cut {w t : Text} {c : Char} (h : Lexed d (ps ++ qs)) (hc : d.isQuote c = false)
    (text : textOf qs = w ++ c :: t) : Lexed d (ps ++ ofText d w) := by
  induction ps with
  | nil => exact lexed_ofText d w
  | cons p ps ih =>
      rw [List.cons_append] at h ⊢
      have rest := ih h.of_cons
      have whole : textOf (ps ++ qs) = textOf (ps ++ ofText d w) ++ c :: t := by
        rw [textOf_append, text, textOf_append, textOf_ofText, List.append_assoc]
      cases h with
      | char hq _ => exact .char hq rest
      | literal hl _ =>
          refine .literal (Dialect.literal?_swap _ hl fun c' hh _ _ => .inl ?_) rest
          rw [whole, List.head?_append, hh, Option.some_or]
      | stray hq hl _ =>
          rw [whole, ← List.cons_append] at hl
          exact .stray hq (Dialect.literal?_eq_none_of_append hc hl) rest

end Lexed

end Piece
end SqlStatement
