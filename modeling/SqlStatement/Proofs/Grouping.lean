import Mathlib.Data.List.Infix
import SqlStatement.Proofs.Veiling

/-!
# Groups read from the left

A scan that starts behind an opening parenthesis ends at the parenthesis that
closes it, and closed pieces on the way are passed whatever stands behind them.
The nesting of a text is read from the right, yet both find the same groups: the
contents that scans from all opening parentheses come back with, as far as they
start with SELECT, are the subqueries of the nesting in their order.
-/
namespace SqlStatement
open Piece
variable {d : Dialect} {p : Piece} {ps : List Piece}

namespace Piece

theorem Lexed.next?_textOf (h : Lexed d (p :: ps)) :
    next? d (textOf (p :: ps)) = some (p, textOf ps) := by
  cases h with
  | char hc _ => simp [next?, text, hc]
  | @literal lit _ hl _ =>
      obtain ⟨q, body, rfl, hq⟩ := Dialect.literal?_quote hl
      simp only [List.cons_append] at hl
      simp [next?, text, hq, hl]
  | stray hq hl _ => simp [next?, text, hq, hl]

/-- Behind its characters a text goes on with a quote, if it goes on. -/
theorem Lexed.exists_chars (h : Lexed d ps) :
    ∃ r, textOf ps = chars ps ++ r ∧ Text.Edge r := by
  have quote {q : Char} (hq : d.isQuote q = true) (t : Text) : Text.Edge (q :: t) := by
    refine Text.edge_cons t ?_ ?_
    · by_contra hw
      rw [Dialect.isQuote_of_isWordChar (by simpa using hw)] at hq
      cases hq
    · by_contra hb
      rw [Dialect.isQuote_of_isBlank (by simpa using hb)] at hq
      cases hq
  induction h with
  | nil => exact ⟨[], rfl, by simp [Text.Edge]⟩
  | char hc _ ih =>
      obtain ⟨r, hr, he⟩ := ih
      exact ⟨r, by rw [textOf_cons, hr, chars]; rfl, he⟩
  | literal hl _ _ =>
      obtain ⟨q, body, rfl, hq⟩ := Dialect.literal?_quote hl
      exact ⟨_, rfl, quote hq _⟩
  | stray hq _ _ => exact ⟨_, rfl, quote hq _⟩

end Piece

theorem Nesting.startsWithKeyword_text {n : Nesting} (h : Lexed d n.pieces) :
    Text.startsWithKeyword "SELECT" n.text = n.startsQuery := by
  obtain ⟨r, hr, he⟩ := h.exists_chars
  have whole : startsSelect (n.pieces ++ []) = n.startsQuery :=
    n.startsSelect_pieces_append (by simp [chars, Text.Edge])
  rw [List.append_nil] at whole
  rw [← whole, startsSelect, ← Text.firstWord_append he, ← hr]
  rfl

namespace Dialect

/-- The scan for the end of a group goes piece by piece. -/
theorem closeGroup?_textOf (depth : Nat) (h : Lexed d (p :: ps)) :
    d.closeGroup? depth (textOf (p :: ps)) =
      match p.depthBehind? depth with
      | some depth => (d.closeGroup? depth (textOf ps)).map fun r => (p.text ++ r.1, r.2)
      | none => if p = .char ')' then some ([], textOf ps) else none := by
  rw [closeGroup?]
  split
  · rename_i hn
    rw [h.next?_textOf] at hn
    cases hn
  · rename_i p' rest hn
    rw [h.next?_textOf] at hn
    cases hn
    rfl

theorem isSome_closeGroup? (depth : Nat) (h : Lexed d ps) :
    (d.closeGroup? depth (textOf ps)).isSome = closes depth ps := by
  induction ps generalizing depth with
  | nil => simp [closeGroup?, next?, closes]
  | cons p ps ih =>
      rw [closeGroup?_textOf depth h, closes]
      cases p.depthBehind? depth with
      | none => by_cases hp : p = .char ')' <;> simp [hp]
      | some depth =>
          dsimp only
          rw [← ih depth h.of_cons, Option.isSome_map]

/-- Pieces are passed on the way to the end of a group. -/
theorem closeGroup?_append_of_foldlM {qs : List Piece} {depth depth' : Nat}
    (h : Lexed d (qs ++ ps)) (hd : qs.foldlM depthBehind? depth = some depth') :
    d.closeGroup? depth (textOf (qs ++ ps)) =
      (d.closeGroup? depth' (textOf ps)).map fun r => (textOf qs ++ r.1, r.2) := by
  induction qs generalizing depth with
  | nil =>
      cases hd
      exact Option.map_id'.symm
  | cons p qs ih =>
      rw [List.foldlM_cons, Option.bind_eq_bind, Option.bind_eq_some_iff] at hd
      obtain ⟨between, first, hd⟩ := hd
      rw [List.cons_append] at h ⊢
      rw [closeGroup?_textOf depth h, first]
      dsimp only
      rw [ih h.of_cons hd, Option.map_map]
      simp [Function.comp_def]

/-- A group closes behind its closed content. -/
theorem group?_pieces {n : Nesting} (hn : n.Closed)
    (h : Lexed d (.char '(' :: (n.pieces ++ .char ')' :: ps))) :
    d.group? (textOf (.char '(' :: (n.pieces ++ .char ')' :: ps))) = some (n.text, textOf ps) := by
  have closed := closeGroup?_append_of_foldlM h.of_cons (hn.foldlM_pieces 0)
  rw [closeGroup?_textOf 0 h.of_cons.right] at closed
  rw [textOf_cons]
  refine closed.trans ?_
  simp [depthBehind?, groupsBehind?, Nesting.text]

theorem group?_textOf (h : Lexed d (p :: ps)) : d.group? (textOf (p :: ps)) =
    if p = .char '(' then d.closeGroup? 0 (textOf ps) else none := by
  split
  · rename_i hp
    rw [hp]
    rfl
  · rename_i hp
    have first : (textOf (p :: ps)).head? ≠ some '(' := by
      cases h with
      | char _ _ => simpa [text] using hp
      | literal hl _ =>
          obtain ⟨q, body, rfl, hq⟩ := literal?_quote hl
          rintro ⟨⟩
          exact absurd hq (by cases d <;> decide)
      | stray hq _ _ =>
          rintro ⟨⟩
          exact absurd hq (by cases d <;> decide)
    rw [group?]
    intro rest he
    rw [he] at first
    exact first rfl

/-- The content of the group that a text starts with, if it starts with SELECT. -/
def queryContent? (d : Dialect) (t : Text) : Option Text :=
  ((d.group? t).map (·.1)).filter (Text.startsWithKeyword "SELECT")

/-- The contents that scans from the parentheses among pieces come back with, as far as they start
with SELECT. -/
def contentsOf (d : Dialect) (ps : List Piece) : List Text :=
  ps.tails.filterMap fun ps => d.queryContent? (textOf ps)

/-- The contents of the closed groups of a text that start with SELECT, in the order of the
parentheses that open them. -/
def queryContents (d : Dialect) (t : Text) : List Text := d.contentsOf (Piece.ofText d t)

end Dialect

namespace Nesting
open Dialect

theorem contentsOf_cons_of_none (h : d.group? (textOf (p :: ps)) = none) :
    contentsOf d (p :: ps) = contentsOf d ps := by
  rw [contentsOf, List.tails_cons, List.filterMap_cons, queryContent?, h]
  rfl

theorem contentsOf_cons (h : Lexed d (p :: ps)) (hp : p ≠ .char '(') :
    contentsOf d (p :: ps) = contentsOf d ps :=
  contentsOf_cons_of_none (by rw [group?_textOf h, if_neg hp])

/-- Scans from the parentheses of closed pieces find the subqueries. -/
theorem Closed.contentsOf_append {n : Nesting} (hn : n.Closed) (h : Lexed d (n.pieces ++ ps)) :
    contentsOf d (n.pieces ++ ps) = n.queries.map text ++ contentsOf d ps := by
  induction n generalizing ps with
  | done => rfl
  | piece p rest ih =>
      rw [pieces, List.cons_append] at h ⊢
      rw [contentsOf_cons h, ih hn.2 h.of_cons, queries]
      rintro rfl
      exact absurd hn.1 (by decide)
  | group inner rest ih₁ ih₂ =>
      rw [pieces, List.cons_append, List.append_assoc, List.cons_append] at h ⊢
      have behind := h.of_cons.right
      have content : Lexed d inner.pieces :=
        h.of_cons.left (.inl fun p hp => hn.1.isClosed_of_mem hp)
      rw [contentsOf, List.tails_cons, List.filterMap_cons, queryContent?, group?_pieces hn.1 h,
        ← contentsOf, ih₁ hn.1 h.of_cons, contentsOf_cons behind (by simp),
        ih₂ hn.2 behind.of_cons, queries, Option.map_some, Option.filter_some,
        startsWithKeyword_text content]
      by_cases hq : inner.startsQuery = true
      · simp [hq]
      · simp [hq]

theorem Sound.contentsOf_eq {n : Nesting} (hn : n.Sound) (h : Lexed d n.pieces) :
    contentsOf d n.pieces = n.queries.map text := by
  induction n with
  | done => rfl
  | piece p rest ih =>
      rw [pieces] at h ⊢
      rw [contentsOf_cons_of_none, ih hn.2 h.of_cons, queries]
      rw [group?_textOf h]
      split
      · rename_i hp
        rw [← Option.not_isSome_iff_eq_none, isSome_closeGroup? 0 h.of_cons, hn.1 hp]
        decide
      · rfl
  | group inner rest ih₁ ih₂ =>
      have closed : (group inner done).Closed := ⟨hn.1, trivial⟩
      have whole : (group inner rest).pieces = (group inner done).pieces ++ rest.pieces := by
        simp [pieces]
      rw [whole] at h ⊢
      rw [closed.contentsOf_append h, ih₂ hn.2 h.right, queries, queries]
      by_cases hq : inner.startsQuery = true
      · simp [hq, queries]
      · simp [hq, queries]

end Nesting

/-- The groups of a text that start with SELECT are the subqueries of its nesting. -/
theorem Dialect.queryContents_eq (d : Dialect) (t : Text) :
    d.queryContents t = (Nesting.ofText d t).queries.map Nesting.text := by
  have pieces : (Nesting.ofText d t).pieces = Piece.ofText d t := Nesting.pieces_ofPieces _
  have sound : (Nesting.ofText d t).Sound := Nesting.sound_ofPieces _
  have lexed := lexed_ofText d t
  rw [← pieces] at lexed
  rw [← sound.contentsOf_eq lexed, pieces]
  rfl

end SqlStatement
