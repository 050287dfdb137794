import SqlStatement.Piece

/-!
# Tokens

Tokens join the pieces of a text to words and runs of blanks. Both are maximal:
no word is followed by a word, and no run of blanks by another.
-/
namespace SqlStatement

/-- A word, a run of blanks, a quoted literal, any other character, or an unclosed quote. -/
inductive Token where
  | word (text : Text)
  | space (text : Text)
  | quoted (text : Text)
  | symbol (c : Char)
  | unterminated (quote : Char)
  deriving DecidableEq, Repr

namespace Token

/-- The text of a token. -/
def text : Token → Text
  | word t | space t | quoted t => t
  | symbol c | unterminated c => [c]

/-- The text of a list of tokens. -/
def textOf (ts : List Token) : Text := ts.flatMap text

/-- Puts a piece in front of tokens, as part of the first word or run of blanks if it fits. -/
def attach : Piece → List Token → List Token
  | .literal t, ts => quoted t :: ts
  | .stray q, ts => unterminated q :: ts
  | .char c, ts =>
      if Text.isWordChar c then
        match ts with
        | word w :: ts => word (c :: w) :: ts
        | ts => word [c] :: ts
      else if Text.isBlank c then
        match ts with
        | space b :: ts => space (c :: b) :: ts
        | ts => space [c] :: ts
      else symbol c :: ts

/-- The tokens of a list of pieces. -/
def ofPieces (ps : List Piece) : List Token := ps.foldr attach []

/-- The tokens of a text. -/
def ofText (d : Dialect) (t : Text) : List Token := ofPieces (Piece.ofText d t)

@[simp] theorem textOf_nil : textOf [] = [] := rfl

@[simp] theorem textOf_cons (t : Token) (ts : List Token) :
    textOf (t :: ts) = t.text ++ textOf ts := rfl

@[simp] theorem textOf_append (ts us : List Token) :
    textOf (ts ++ us) = textOf ts ++ textOf us := List.flatMap_append

@[simp] theorem textOf_attach (p : Piece) (ts : List Token) :
    textOf (attach p ts) = p.text ++ textOf ts := by
  cases p with
  | literal t => rfl
  | stray q => rfl
  | char c =>
      simp only [attach]
      split
      · split <;> simp [text, Piece.text]
      · split
        · split <;> simp [text, Piece.text]
        · rfl

/-- The tokens lose no piece. -/
@[simp] theorem textOf_ofPieces (ps : List Piece) : textOf (ofPieces ps) = Piece.textOf ps := by
  induction ps with
  | nil => rfl
  | cons p ps ih =>
      simp only [ofPieces, List.foldr_cons, textOf_attach, Piece.textOf_cons] at ih ⊢
      rw [ih]

/-- The tokens lose nothing of the text. -/
@[simp] theorem textOf_ofText (d : Dialect) (t : Text) : textOf (ofText d t) = t := by
  simp [ofText]

/-- Whether a token is a run of blanks. -/
def isSpace : Token → Bool
  | space _ => true
  | _ => false

/-- Drops a run of blanks in front. -/
def skipSpace : List Token → List Token
  | space _ :: ts => ts
  | ts => ts

/-- The number of open groups behind a token. There is none behind an unclosed quote, nor behind a
closing parenthesis that closes no group. -/
def depthBehind? (depth : Nat) : Token → Option Nat
  | word _ | space _ | quoted _ => some depth
  | symbol c => Piece.groupsBehind? depth c
  | unterminated _ => none

/-- Cuts behind the parenthesis that closes a group already open: the tokens before it and the
tokens behind. -/
def closeGroup? : Nat → List Token → Option (List Token × List Token)
  | _, [] => none
  | depth, t :: ts =>
      match t.depthBehind? depth with
      | some depth => (closeGroup? depth ts).map fun r => (t :: r.1, r.2)
      | none => if t = symbol ')' then some ([], ts) else none

/-- The content of the group that starts with the first token, and the tokens behind its closing
parenthesis. -/
def group? : List Token → Option (List Token × List Token)
  | symbol '(' :: ts => closeGroup? 0 ts
  | _ => none

end Token
end SqlStatement
