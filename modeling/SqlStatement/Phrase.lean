import SqlStatement.Token

/-!
# Keyword phrases

A phrase is a sequence of keywords with blanks between them, such as
`GROUP BY`. It is found in tokens, so it begins and ends with whole words.
-/
namespace SqlStatement

/-- Upper-case keywords that stand one behind the other. -/
abbrev Phrase := List String

namespace Phrase

/-- The tokens behind a phrase, if the tokens start with it. -/
def after? : Phrase → List Token → Option (List Token)
  | [], _ => none
  | [k], .word w :: ts => if Text.isKeyword k w then some ts else none
  | k :: k' :: ks, .word w :: .space _ :: ts =>
      if Text.isKeyword k w then after? (k' :: ks) ts else none
  | _, _ => none

/-- The tokens behind the first of several phrases that the tokens start with. -/
def afterAny? (phrases : List Phrase) (ts : List Token) : Option (List Token) :=
  phrases.findSome? (after? · ts)

/-- Whether the tokens start with one of the phrases. -/
def startsAny (phrases : List Phrase) (ts : List Token) : Bool := (afterAny? phrases ts).isSome

/-- The phrase in upper case with one space between its words. -/
def text (p : Phrase) : Text := Text.joinWith [' '] (p.map String.toList)

end Phrase
end SqlStatement
