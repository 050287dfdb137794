import SqlStatement.Proofs.Grouping
import SqlStatement.Proofs.Segments
import SqlStatement.Proofs.Splitting

/-!
# Subqueries in view

A place in a text is exposed if every group in front of it that starts with
SELECT closes before it. Then the veil of the text shows what begins there as it
is: in front of it stands a veil of the text in front, and nothing of that veil
depends on whether a subquery at the place has the one content or another.
-/
namespace SqlStatement
open Piece
variable {d : Dialect} {a b x y : Text} {ps qs : List Piece}

/-- Whether no subquery that opens in a text is still open behind it, where `behind` follows. -/
def Dialect.Exposed (d : Dialect) (a behind : Text) : Prop :=
  ∀ ps ∈ (Piece.ofText d a).tails, ps.head? = some (.char '(') →
    ∀ r ∈ d.group? (textOf ps ++ behind), Text.startsWithKeyword "SELECT" r.1 = true →
      behind <:+ r.2

instance (d : Dialect) (a behind : Text) : Decidable (d.Exposed a behind) :=
  inferInstanceAs (Decidable (∀ ps ∈ (Piece.ofText d a).tails, ps.head? = some (.char '(') →
    ∀ r ∈ d.group? (textOf ps ++ behind), Text.startsWithKeyword "SELECT" r.1 = true →
      behind <:+ r.2))

/-- The group that a scan finds has closed pieces. -/
theorem Dialect.exists_group (h : Lexed d (.char '(' :: qs)) {content rest : Text}
    (hg : d.group? ('(' :: textOf qs) = some (content, rest)) :
    ∃ inner behind, Nesting.Closed inner ∧ qs = inner.pieces ++ .char ')' :: behind ∧
      inner.text = content ∧ textOf behind = rest := by
  have pieces := Nesting.pieces_ofPieces (.char '(' :: qs)
  have sound := Nesting.sound_ofPieces (.char '(' :: qs)
  cases hn : Nesting.ofPieces (.char '(' :: qs) with
  | done => simp [hn, Nesting.pieces] at pieces
  | piece p behind =>
      rw [hn] at pieces sound
      obtain ⟨rfl, rfl⟩ := List.cons.inj pieces
      have closes := isSome_closeGroup? 0 h.of_cons
      rw [sound.1 rfl, Option.isSome_eq_false_iff, Option.isNone_iff_eq_none] at closes
      exact absurd (closes.symm.trans hg) (by simp)
  | group inner behind =>
      rw [hn] at pieces sound
      obtain ⟨-, rfl⟩ := List.cons.inj pieces
      have found := (group?_pieces sound.1 h).symm.trans hg
      rw [Option.some.injEq, Prod.mk.injEq] at found
      exact ⟨inner, behind.pieces, sound.1, rfl, found⟩

theorem Piece.Lexed.text_ne_nil {p : Piece} (h : Lexed d (p :: ps)) : p.text ≠ [] := by
  cases h with
  | char | stray => exact List.cons_ne_nil _ _
  | literal hl _ =>
      obtain ⟨q, body, rfl, -⟩ := Dialect.literal?_quote hl
      exact List.cons_ne_nil _ _

/-- Stretches of pieces are compared by their texts. -/
theorem Piece.Lexed.exists_append {front behind : List Piece} (h : Lexed d (ps ++ qs))
    (he : ps ++ qs = front ++ behind) (ht : textOf qs <:+ textOf behind) :
    ∃ between, ps = front ++ between ∧ behind = between ++ qs := by
  rcases List.append_eq_append_iff.mp he with ⟨more, rfl, rfl⟩ | ⟨between, rfl, rfl⟩
  · cases more with
    | nil => exact ⟨[], by simp, rfl⟩
    | cons p more =>
        have empty : p.text = [] := by
          have length := ht.length_le
          simp only [textOf_append, textOf_cons, List.length_append] at length
          exact List.eq_nil_of_length_eq_zero (by omega)
        exact absurd empty h.right.text_ne_nil
  · exact ⟨between, rfl, rfl⟩

namespace Veiled

/-- What a veil is made for closes as many groups as the veil. -/
theorem closes_unveil (h : Veiled d ps) (depth : Nat) :
    closes depth (unveil d ps) = closes depth ps := by
  have closes := (Nesting.sound_ofPieces (unveil d ps)).closes_veiled depth []
  rw [List.append_nil, List.append_nil, Nesting.pieces_ofPieces, h.veiled_ofPieces.1] at closes
  exact closes.symm

/-- A parenthesis that opens no subquery is shown. -/
theorem open_of_forall (h : Veiled d ps) (hl : Lexed d (.char '(' :: unveil d ps))
    (hn : ∀ r ∈ d.group? (textOf (.char '(' :: unveil d ps)),
      ¬Text.startsWithKeyword "SELECT" r.1 = true) : Veiled d (.char '(' :: ps) := by
  refine .paren (fun select => ?_) h
  by_contra closes
  rw [Bool.not_eq_false, ← h.closes_unveil, ← Dialect.isSome_closeGroup? 0 hl.of_cons,
    Option.isSome_iff_exists] at closes
  obtain ⟨⟨content, rest⟩, hg⟩ := closes
  obtain ⟨inner, behind, closed, pieces, rfl, rfl⟩ := Dialect.exists_group hl hg
  have lexed : Lexed d inner.pieces := by
    rw [pieces] at hl
    exact hl.of_cons.left (.inl fun p hp => closed.isClosed_of_mem hp)
  have edge : Text.Edge (chars (.char ')' :: behind)) :=
    Text.edge_cons _ (by decide) (by decide)
  refine hn _ hg ?_
  rw [Nesting.startsWithKeyword_text lexed, ← inner.startsSelect_pieces_append edge, ← pieces,
    h.startsSelect_unveil, select]

/-- In front of what is exposed a veil can be made alone. -/
theorem exists_append {ps vs : List Piece} (hv : Veiled d vs) (hl : Lexed d (ps ++ unveil d vs))
    (hc : ∀ p ∈ ps, p.isClosed = true)
    (he : ∀ qs ∈ ps.tails, qs.head? = some (.char '(') →
      ∀ r ∈ d.group? (textOf qs ++ textOf vs), Text.startsWithKeyword "SELECT" r.1 = true →
        textOf vs <:+ r.2) :
    ∃ us, Veiled d (us ++ vs) ∧ unveil d us = ps := by
  match ps with
  | [] => exact ⟨[], hv, rfl⟩
  | p :: ps =>
      rw [List.forall_mem_cons] at hc
      rw [List.cons_append] at hl
      have onward {ps' : List Piece} (hs : ps' <:+ ps) : ∀ qs ∈ ps'.tails,
          qs.head? = some (.char '(') → ∀ r ∈ d.group? (textOf qs ++ textOf vs),
            Text.startsWithKeyword "SELECT" r.1 = true → textOf vs <:+ r.2 := by
        intro qs hq
        have suffix := (((List.mem_tails _ _).mp hq).trans hs).trans (List.suffix_cons p ps)
        exact he qs ((List.mem_tails _ _).mpr suffix)
      by_cases hp : p = .char '('
      · subst hp
        by_cases hs : ∃ r ∈ d.group? (textOf (.char '(' :: (ps ++ unveil d vs))),
          Text.startsWithKeyword "SELECT" r.1 = true
        · obtain ⟨⟨content, rest⟩, hg, select⟩ := hs
          obtain ⟨inner, behind, closed, pieces, rfl, rfl⟩ := Dialect.exists_group hl hg
          have before : textOf (unveil d vs) <:+ textOf behind := by
            rw [textOf_unveil]
            refine he (.char '(' :: ps) ((List.mem_tails _ _).mpr List.suffix_rfl) rfl
              (inner.text, textOf behind) ?_ select
            simpa using hg
          obtain ⟨between, rfl, rfl⟩ := hl.of_cons.exists_append
            (pieces.trans (List.append_assoc _ [.char ')'] behind).symm) before
          rw [pieces] at hl
          have content : Lexed d inner.pieces :=
            hl.of_cons.left (.inl fun p hp => closed.isClosed_of_mem hp)
          rw [Nesting.startsWithKeyword_text content] at select
          obtain ⟨us, hu, unveiled⟩ := exists_append hv hl.of_cons.right.of_cons
            (fun p hp => hc.2 p (by simp [hp])) (onward (List.suffix_append _ _))
          refine ⟨.literal inner.groupText :: us, .piece (by simp) ?_ hu, ?_⟩
          · rintro _ ⟨⟩
            exact .inr ⟨inner, closed, select, (closed.ofText_groupText hl).2⟩
          · rw [unveil_cons, Piece.unveiled, (closed.ofText_groupText hl).1, unveiled]
            simp [Nesting.pieces]
        · obtain ⟨us, hu, unveiled⟩ := exists_append hv hl.of_cons hc.2 (onward List.suffix_rfl)
          have whole : unveil d (us ++ vs) = ps ++ unveil d vs := by rw [unveil_append, unveiled]
          refine ⟨.char '(' :: us, hu.open_of_forall (whole ▸ hl) ?_, ?_⟩
          · rw [whole]
            exact fun r hr select => hs ⟨r, hr, select⟩
          · exact congrArg (.char '(' :: ·) unveiled
      · obtain ⟨us, hu, unveiled⟩ := exists_append hv hl.of_cons hc.2 (onward List.suffix_rfl)
        refine ⟨p :: us, .piece hp (fun t ht => Nesting.veiled_literal (ht ▸ hl)) hu, ?_⟩
        rw [unveil_cons, unveiled]
        cases p with
        | stray q => simp [isClosed] at hc
        | char c => rfl
        | literal t =>
            cases hl with
            | literal hl => rw [Piece.unveiled, ofText_literal_self hl, List.singleton_append]
termination_by ps.length

theorem chars_append_literal (us vs ws : List Piece) (t u : Text) :
    chars (us ++ .literal t :: vs) = chars (us ++ .literal u :: ws) := by
  induction us with
  | nil => rfl
  | cons p us ih =>
      cases p with
      | char c => exact congrArg (c :: ·) ih
      | literal | stray => rfl

/-- A literal or subquery of a veil can be exchanged for another. -/
theorem exchange {us vs : List Piece} {t u : Text} (h : Veiled d (us ++ .literal t :: vs))
    (hu : Piece.ofText d u = [.literal u] ∨ IsSubquery d u) :
    Veiled d (us ++ .literal u :: vs) := by
  induction us with
  | nil =>
      cases h with
      | piece _ _ h =>
          refine .piece (by simp) ?_ h
          rintro _ ⟨⟩
          exact hu
  | cons p us ih =>
      rw [List.cons_append] at h ⊢
      cases h with
      | piece hp hl h => exact .piece hp hl (ih h)
      | paren hc h =>
          refine .paren (fun select => ?_) (ih h)
          rw [startsSelect, chars_append_literal us vs vs u t] at select
          have same (depth : Nat) :
              closes depth (.literal u :: vs) = closes depth (.literal t :: vs) := by
            rw [closes_cons_of_isOrdinary _ _ rfl, closes_cons_of_isOrdinary _ _ rfl]
          rw [closes_append_congr same]
          exact hc select

end Veiled

namespace Dialect

theorem isSubquery_group (h : d.isBalanced x = true)
    (hs : Text.startsWithKeyword "SELECT" x = true) : IsSubquery d ('(' :: (x ++ [')'])) := by
  have pieces : (Nesting.ofText d x).pieces = Piece.ofText d x := Nesting.pieces_ofPieces _
  have text : (Nesting.ofText d x).groupText = '(' :: (x ++ [')']) := by
    rw [Nesting.groupText, Nesting.text_ofText]
  have closed := Nesting.closed_ofText h
  refine ⟨Nesting.ofText d x, closed, ?_, ?_⟩
  · rw [← Nesting.startsWithKeyword_text (pieces ▸ lexed_ofText d x), Nesting.text_ofText, hs]
  · rw [← text]
    exact (closed.ofText_groupText (Nesting.lexed_group h [])).2

/-- The pieces around a balanced text in parentheses. -/
theorem lexed_around (ha : d.Closed a) (h : d.isBalanced x = true) (b : Text) :
    Lexed d (Piece.ofText d a ++ (Piece.ofText d ('(' :: (x ++ [')'])) ++ Piece.ofText d b)) := by
  have group := Nesting.lexed_group h b
  have text : (Nesting.ofText d x).groupText = '(' :: (x ++ [')']) := by
    rw [Nesting.groupText, Nesting.text_ofText]
  rw [← text, ((Nesting.closed_ofText h).ofText_groupText group).1]
  refine (lexed_ofText d a).append (by simpa [Nesting.pieces] using group) ha ?_
  rintro c ⟨⟩
  exact isQuote_of_isPlain (by decide)

theorem veil_around {us vs : List Piece} (ha : unveil d us = Piece.ofText d a)
    (hb : unveil d vs = Piece.ofText d b) (closed : d.Closed a) (hx : d.isBalanced x = true)
    (h : Veiled d (us ++ .literal ('(' :: (x ++ [')'])) :: vs)) :
    d.veil (a ++ '(' :: (x ++ ')' :: b)) =
      Token.ofPieces us ++ .quoted ('(' :: (x ++ [')'])) :: Token.ofPieces vs := by
  have whole : Piece.ofText d (a ++ '(' :: (x ++ ')' :: b)) =
      unveil d (us ++ .literal ('(' :: (x ++ [')'])) :: vs) := by
    have pieces := (lexed_around closed hx b).ofText_textOf
    rw [unveil_append, unveil_cons, ha, hb, Piece.unveiled, ← pieces]
    simp
  rw [veil, Nesting.ofText, whole, h.veiled_ofPieces.1, Token.ofPieces_append]
  · rfl
  · refine fun p _ => Token.standsApart_of_head p ?_
    rintro _ ⟨⟩
    exact ⟨rfl, rfl⟩

/-- Around an exposed place the veils of two statements are the same. -/
theorem exists_veil (ha : d.Closed a) (he : d.Exposed a ('(' :: (x ++ ')' :: b)))
    (hx : d.isBalanced x = true) (sx : Text.startsWithKeyword "SELECT" x = true)
    (hy : d.isBalanced y = true) (sy : Text.startsWithKeyword "SELECT" y = true) :
    ∃ us vs, Token.textOf us = a ∧ Token.textOf vs = b ∧
      d.veil (a ++ '(' :: (x ++ ')' :: b)) = us ++ .quoted ('(' :: (x ++ [')'])) :: vs ∧
      d.veil (a ++ '(' :: (y ++ ')' :: b)) = us ++ .quoted ('(' :: (y ++ [')'])) :: vs := by
  have around := lexed_around ha hx b
  have behind := unveil_veil d b
  have place : Veiled d (.literal ('(' :: (x ++ [')'])) :: Token.piecesOf (d.veil b)) := by
    refine .piece (by simp) ?_ (veiled_veil d b)
    rintro _ ⟨⟩
    exact .inr (isSubquery_group hx sx)
  have text : textOf (.literal ('(' :: (x ++ [')'])) :: Token.piecesOf (d.veil b)) =
      '(' :: (x ++ ')' :: b) := by
    rw [textOf_cons, Token.textOf_piecesOf, textOf_veil]
    simp [Piece.text]
  obtain ⟨us, shown, unveiled⟩ := place.exists_append
    (by rwa [unveil_cons, behind, Piece.unveiled]) ha (by rwa [text])
  refine ⟨Token.ofPieces us, Token.ofPieces (Token.piecesOf (d.veil b)), ?_, ?_,
    veil_around unveiled behind ha hx shown,
    veil_around unveiled behind ha hy (shown.exchange (.inr (isSubquery_group hy sy)))⟩
  · rw [Token.textOf_ofPieces, ← textOf_unveil (d := d), unveiled, textOf_ofText]
  · rw [Token.textOf_ofPieces, Token.textOf_piecesOf, textOf_veil]

end Dialect
end SqlStatement
