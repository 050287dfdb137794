import SqlStatement.Expression.Words
import SqlStatement.Nesting

/-!
# Quoting names in expressions

This mode puts words in identifier quotes unless they are keywords, function
names, collations or the side of a TRIM call. The type in `CAST(... AS type)`
is a word like any other at first; a second pass takes its quotes off again.
-/
namespace SqlStatement

/-- How far a call of TRIM has been read, up to where the side to trim may stand. -/
inductive TrimCall where
  | none
  | named
  | opened
  deriving DecidableEq, Repr

namespace TrimCall

/-- The state behind an ordinary word: a function whose name ends in TRIM may be called. -/
def ofWord (w : Text) : TrimCall :=
  if Text.isKeyword "TRIM" (w.drop (w.length - 4)) then named else none

/-- The state behind any other token. -/
def next : TrimCall → Token → TrimCall
  | state, .space _ => state
  | named, .symbol '(' => opened
  | _, _ => none

/-- Whether a word says which side is trimmed. -/
def isSide (w : Text) : Bool := Text.isAnyKeyword ["BOTH", "LEADING", "TRAILING"] w

end TrimCall

namespace Dialect

/-- Whether an opening parenthesis comes next, behind blanks. -/
def opensCall (ts : List Token) : Bool :=
  match Token.skipSpace ts with
  | .symbol '(' :: _ => true
  | _ => false

/-- An ordinary word as it is written in front of other tokens: in quotes if it is a name and no
function is called. -/
def quoteWord (d : Dialect) (w : Text) (behind : List Token) : Text :=
  if d.isName w && !opensCall behind then d.quoteName w else w

/-- Quotes the names among tokens. -/
def quoteTokens (d : Dialect) (call : TrimCall) : List Token → Text
  | [] => []
  | .word a :: .space b :: .word c :: ts =>
      if call == .opened && TrimCall.isSide a then
        a ++ d.quoteTokens .none (.space b :: .word c :: ts)
      else if Text.isAnyKeyword d.expressionKeywords a then
        a ++ d.quoteTokens .none (.space b :: .word c :: ts)
      else if d.isKeywordPair a c || Chunk.isCollationKeyword a then
        a ++ b ++ c ++ d.quoteTokens .none ts
      else
        d.quoteWord a (.space b :: .word c :: ts) ++
          d.quoteTokens (.ofWord a) (.space b :: .word c :: ts)
  | .word a :: ts =>
      if call == .opened && TrimCall.isSide a then a ++ d.quoteTokens .none ts
      else if Text.isAnyKeyword d.expressionKeywords a then a ++ d.quoteTokens .none ts
      else d.quoteWord a ts ++ d.quoteTokens (.ofWord a) ts
  | t :: ts => t.text ++ d.quoteTokens (call.next t) ts

end Dialect

namespace CastTarget

/-- Whether `CAST (` stands somewhere in a text, also inside a literal. `before` is the character
in front. -/
def isMentioned (before : Option Char) : Text → Bool
  | [] => false
  | c :: t =>
      (Text.startsWord before && Text.isKeyword "CAST" ((c :: t).take 4) &&
        (Text.skipBlanks ((c :: t).drop 4)).head? == some '(') || isMentioned (some c) t

/-- Whether a text, given backwards, ends with the word CAST, blanks aside. -/
def endsWithCast (backwards : Text) : Bool :=
  let r := Text.skipBlanks backwards
  Text.isKeyword "TSAC" (r.take 4) && Text.startsWord (r.drop 4).head?

/-- Takes the quotes off a name that ends a text behind AS. -/
def strip (q : Char) (t : Text) : Text :=
  let r := t.reverse
  let tail := r.takeWhile Text.isBlank
  match r.dropWhile Text.isBlank with
  | [] => t
  | c :: r =>
      if c ≠ q then t
      else
        match r.dropWhile (· ≠ q) with
        | [] => t
        | _ :: front =>
            let as := Text.skipBlanks front
            if Text.isKeyword "SA" (as.take 2) && Text.startsWord (as.drop 2).head? then
              front.reverse ++ (r.takeWhile (· ≠ q)).reverse ++ tail.reverse
            else t

/-- Takes the quotes off the types of all CAST calls. `room` is the number of levels that may still
be entered, and `seen` the text since the last group, backwards. -/
def clean (limit : Nat) (q : Char) : Nesting → Nat → Text → Except Error Text
  | .done, _, _ => .ok []
  | .piece p rest, room, seen => do
      let r ← clean limit q rest room (p.text.reverse ++ seen)
      return p.text ++ r
  | .group inner rest, room, seen =>
      match room with
      | 0 => .error (.nestingTooDeep limit)
      | below + 1 => do
          let i ← clean limit q inner below []
          let r ← clean limit q rest room []
          return '(' :: ((if endsWithCast seen then strip q i else i) ++ ')' :: r)

end CastTarget

/-- Quotes the names of an expression and leaves keywords, functions and CAST types alone. -/
def Dialect.quoteNames (d : Dialect) (t : Text) : Text := d.quoteTokens .none (Token.ofText d t)

/-- Quotes an expression in the smart way: names are quoted, CAST types are not. -/
def quoteSmart (s : Settings) (t : Text) : Except Error Text :=
  let quoted := s.dialect.quoteNames t
  if CastTarget.isMentioned none quoted then
    CastTarget.clean s.maxNesting s.dialect.identifierQuote (Nesting.ofText s.dialect quoted)
      s.maxNesting []
  else .ok quoted

end SqlStatement
