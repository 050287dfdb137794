import SqlStatement.Proofs.Binding

/-!
# Placeholders among pieces

A colon opens a placeholder only if a word stands right behind it, so whoever
reads a text from its end has to remember the word that the text behind starts
with. This reading goes piece by piece and does not depend on how the pieces are
grouped to tokens, nor on what the literals hold. It finds the placeholders of
the template.
-/
namespace SqlStatement

namespace TemplatePart

/-- The names of the placeholders of a template; one of `?` has none. -/
def names (parts : List TemplatePart) : List (Option Text) :=
  parts.filterMap fun
    | text _ => none
    | hole p => some p.name

@[simp] theorem names_nil : names [] = [] := rfl

@[simp] theorem names_text (t : Text) (parts : List TemplatePart) :
    names (text t :: parts) = names parts := rfl

@[simp] theorem names_hole (p : Placeholder) (parts : List TemplatePart) :
    names (hole p :: parts) = p.name :: names parts := rfl

@[simp] theorem names_append (parts others : List TemplatePart) :
    names (parts ++ others) = names parts ++ names others := List.filterMap_append ..

/-- Percent signs that join a placeholder leave its name alone. -/
@[simp] theorem names_joinWildcards (parts : List TemplatePart) :
    names (joinWildcards parts) = names parts := by
  fun_induction joinWildcards parts with
  | case1 => rfl
  | case2 p rest ih | case3 p rest _ ih | case4 p rest ih => simp [ih]
  | case5 part rest _ _ _ ih => cases part <;> simp [ih]

end TemplatePart

/-- The placeholders of a statement by their names, from left to right; `?` has no name. -/
def Dialect.placeholders (d : Dialect) (t : Text) : List (Option Text) :=
  TemplatePart.names (TemplatePart.ofStatement d t)

theorem Dialect.countPlaceholders_eq (d : Dialect) (t : Text) :
    d.countPlaceholders t = (d.placeholders t).length := by
  rw [countPlaceholders, placeholders]
  generalize TemplatePart.ofStatement d t = parts
  induction parts with
  | nil => rfl
  | cons part parts ih => cases part <;> simp [ih]

/-- What is seen from the front of a text: the word it starts with, and its placeholders. -/
structure Outlook where
  word : Text := []
  placeholders : List (Option Text) := []
  deriving DecidableEq, Repr

/-- What is seen from a piece in front. -/
def Outlook.behind (p : Piece) (o : Outlook) : Outlook :=
  match p with
  | .literal _ | .stray _ => ⟨[], o.placeholders⟩
  | .char c =>
      if Text.isWordChar c then ⟨c :: o.word, o.placeholders⟩
      else if c = '?' then ⟨[], none :: o.placeholders⟩
      else if c = ':' ∧ o.word ≠ [] then ⟨[], some o.word :: o.placeholders⟩
      else ⟨[], o.placeholders⟩

namespace Piece
variable {d : Dialect}

/-- What is seen from the front of pieces. -/
def outlook (ps : List Piece) : Outlook := ps.foldr Outlook.behind {}

@[simp] theorem outlook_nil : outlook [] = {} := rfl

@[simp] theorem outlook_cons (p : Piece) (ps : List Piece) :
    outlook (p :: ps) = (outlook ps).behind p := rfl

/-- Pieces that look the same do so with others in front. -/
theorem outlook_append_congr {qs qs' : List Piece} (h : outlook qs = outlook qs')
    (ps : List Piece) : outlook (ps ++ qs) = outlook (ps ++ qs') := by
  rw [outlook, outlook, List.foldr_append, List.foldr_append, ← outlook, ← outlook, h]

/-- Where no word stands behind them, pieces look the same with others behind. -/
theorem outlook_append {qs : List Piece} (h : (outlook qs).word = []) (ps : List Piece) :
    outlook (ps ++ qs) =
      ⟨(outlook ps).word, (outlook ps).placeholders ++ (outlook qs).placeholders⟩ := by
  induction ps with
  | nil => rw [List.nil_append, outlook_nil, List.nil_append, ← h]
  | cons p ps ih =>
      rw [List.cons_append, outlook_cons, ih, outlook_cons]
      cases p with
      | literal | stray => rfl
      | char c =>
          simp only [Outlook.behind]
          split
          · rfl
          · split
            · rfl
            · split <;> rfl

theorem outlook_word {w : Text} (hw : ∀ c ∈ w, Text.isWordChar c = true) (ps : List Piece) :
    outlook (w.map char ++ ps) = ⟨w ++ (outlook ps).word, (outlook ps).placeholders⟩ := by
  induction w with
  | nil => rfl
  | cons c w ih =>
      rw [List.map_cons, List.cons_append, outlook_cons, ih fun c hm => hw c (by simp [hm])]
      simp [Outlook.behind, hw c]

theorem outlook_blank {c : Char} (hc : Text.isBlank c = true) (ps : List Piece) :
    outlook (char c :: ps) = ⟨[], (outlook ps).placeholders⟩ := by
  have apart : c ≠ '?' ∧ c ≠ ':' := by
    constructor <;> rintro rfl <;> exact absurd hc (by decide)
  simp [Outlook.behind, Text.isWordChar_of_isBlank hc, apart]

theorem outlook_blanks {b : Text} (hne : b ≠ []) (hb : ∀ c ∈ b, Text.isBlank c = true)
    (ps : List Piece) : outlook (b.map char ++ ps) = ⟨[], (outlook ps).placeholders⟩ := by
  induction b with
  | nil => exact absurd rfl hne
  | cons c b ih =>
      rw [List.map_cons, List.cons_append, outlook_blank (hb c (by simp))]
      cases b with
      | nil => rfl
      | cons c' b => rw [ih (by simp) fun c hm => hb c (by simp [hm])]

/-- A group hides nothing of what stands in it, and no word that goes on behind it. -/
theorem outlook_group (ps qs : List Piece) :
    outlook (char '(' :: (ps ++ char ')' :: qs)) =
      ⟨[], (outlook ps).placeholders ++ (outlook qs).placeholders⟩ := by
  have close : outlook (char ')' :: qs) = ⟨[], (outlook qs).placeholders⟩ := rfl
  rw [outlook_cons, outlook_append (by rw [close]), close]
  rfl

theorem outlook_fuse (p : Piece) (ps : List Piece) : outlook (fuse d p ps) = outlook (p :: ps) := by
  unfold fuse
  split
  · split <;> rfl
  · rfl

/-- Literals that take in others hide no placeholder and show none. -/
@[simp] theorem outlook_weld (ps : List Piece) : outlook (weld d ps) = outlook ps := by
  induction ps with
  | nil => rfl
  | cons p ps ih => rw [weld_cons, outlook_fuse, outlook_cons, ih, outlook_cons]

end Piece

namespace Token

/-- The word that tokens start with, if it passes a test of the word and what stands behind. -/
def wordAhead (keep : Text → List Token → Bool) : List Token → Text
  | word w :: behind => if keep w behind then w else []
  | _ => []

/-- The placeholders among tokens: `?`, and each colon in front of a word that passes a test. -/
def placeholders (keep : Text → List Token → Bool) : List Token → List (Option Text)
  | [] => []
  | t :: ts =>
      if t = symbol '?' then none :: placeholders keep ts
      else if t = symbol ':' ∧ wordAhead keep ts ≠ [] then
        some (wordAhead keep ts) :: placeholders keep ts
      else placeholders keep ts

variable {keep : Text → List Token → Bool}

theorem wordAhead_of_head {ts : List Token} (h : ∀ t, ts.head? = some t → t.isWord = false) :
    wordAhead keep ts = [] := by
  unfold wordAhead
  split
  · exact absurd (h _ rfl) (by simp [isWord])
  · rfl

theorem placeholders_cons_of_ne {t : Token} (h : ∀ c, t ≠ symbol c) (ts : List Token) :
    placeholders keep (t :: ts) = placeholders keep ts := by
  rw [placeholders, if_neg (h _), if_neg fun ht => h _ ht.1]

/-- What a token that is no word shows in front of a text. Of the word there it only has to be known
behind a colon whether it passes the test. -/
theorem outlook_pieces_append {t : Token} (ht : t.isWord = false) (proper : t.Proper)
    {ts : List Token} {ps : List Piece} {w : Text}
    (hp : Piece.outlook ps = ⟨w, placeholders keep ts⟩)
    (hw : t = symbol ':' → w = wordAhead keep ts) :
    Piece.outlook (t.pieces ++ ps) = ⟨[], placeholders keep (t :: ts)⟩ := by
  cases t with
  | word w => cases ht
  | space b =>
      rw [pieces, Piece.outlook_blanks proper.1 proper.2, hp, placeholders_cons_of_ne (by simp)]
  | quoted | unterminated =>
      rw [pieces, List.singleton_append, Piece.outlook_cons, hp, placeholders_cons_of_ne (by simp)]
      rfl
  | symbol c =>
      rw [pieces, List.singleton_append, Piece.outlook_cons, hp, Outlook.behind,
        if_neg (by simp [proper.1]), placeholders]
      simp only [symbol.injEq] at hw ⊢
      split
      · rfl
      · by_cases colon : c = ':'
        · rw [← hw colon]
          simp only [colon, true_and]
          split <;> rfl
        · simp [colon]

/-- What is seen from the front of tidy tokens. -/
theorem outlook_piecesOf {ts : List Token} (h : Tidy ts) :
    Piece.outlook (piecesOf ts) =
      ⟨wordAhead (fun _ _ => true) ts, placeholders (fun _ _ => true) ts⟩ := by
  induction ts with
  | nil => rfl
  | cons t ts ih =>
      obtain ⟨proper, tidy, apart⟩ := tidy_cons_iff.mp h
      have rest := ih tidy
      rw [piecesOf_cons]
      cases ht : t.isWord with
      | false =>
          rw [outlook_pieces_append ht proper rest fun _ => rfl, wordAhead_of_head (by simp [ht])]
      | true =>
          cases t with
          | word w =>
              have none : wordAhead (fun _ _ => true) ts = [] :=
                wordAhead_of_head fun u hu => (apart u hu).1 rfl
              rw [pieces, Piece.outlook_word proper.2, rest, placeholders_cons_of_ne (by simp),
                none]
              simp [wordAhead]
          | space | quoted | symbol | unterminated => cases ht

end Token

namespace TemplatePart

theorem names_ofTokens {ts : List Token} (h : Token.Tidy ts) :
    names (ofTokens ts) = Token.placeholders (fun _ _ => true) ts := by
  fun_induction ofTokens ts with
  | case1 => rfl
  | case2 ts ih =>
      rw [names_hole, ih (Token.tidy_cons_iff.mp h).2.1, Token.placeholders, if_pos rfl]
  | case3 w us _ ih =>
      obtain ⟨-, tidy, -⟩ := Token.tidy_cons_iff.mp h
      obtain ⟨proper, tidy, -⟩ := Token.tidy_cons_iff.mp tidy
      have word : Token.wordAhead (fun _ _ => true) (.word w :: us) = w := rfl
      rw [names_hole, ih tidy, Token.placeholders, if_neg (by simp), word, if_pos ⟨rfl, proper.1⟩,
        Token.placeholders_cons_of_ne (by simp)]
  | case4 us hn _ ih =>
      have none : Token.wordAhead (fun _ _ => true) us = [] := by
        refine Token.wordAhead_of_head fun t ht => ?_
        cases us with
        | nil => cases ht
        | cons u us =>
            cases ht
            cases t with
            | word w => exact (hn w us rfl).elim
            | _ => rfl
      rw [names_text, ih (Token.tidy_cons_iff.mp h).2.1, Token.placeholders, none]
      simp
  | case5 t ts h₁ h₂ ih =>
      rw [names_text, ih (Token.tidy_cons_iff.mp h).2.1, Token.placeholders, if_neg h₁,
        if_neg fun ht => h₂ ht.1]

end TemplatePart

namespace Dialect
variable {d : Dialect}

/-- The placeholders of a statement are those among its tokens. -/
theorem placeholders_eq_tokens (d : Dialect) (t : Text) :
    d.placeholders t = Token.placeholders (fun _ _ => true) (Token.ofText d t) := by
  rw [placeholders, TemplatePart.ofStatement, TemplatePart.names_joinWildcards, Token.ofText,
    TemplatePart.names_ofTokens (Token.tidy_ofPieces _)]

/-- The placeholders of a statement are those seen among its pieces. -/
theorem placeholders_eq_outlook (d : Dialect) (t : Text) :
    d.placeholders t = (Piece.outlook (Piece.ofText d t)).placeholders := by
  rw [placeholders_eq_tokens, ← Token.piecesOf_ofText,
    Token.outlook_piecesOf (Token.tidy_ofText d t)]

/-- The placeholders of a text that whole pieces make up. -/
theorem placeholders_textOf {ps : List Piece} (h : ∀ p ∈ ps, p.Whole d) :
    d.placeholders (Piece.textOf ps) = (Piece.outlook ps).placeholders := by
  rw [placeholders_eq_outlook, Piece.ofText_textOf_of_whole h, Piece.outlook_weld]

end Dialect
end SqlStatement
