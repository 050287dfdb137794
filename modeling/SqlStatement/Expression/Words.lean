import SqlStatement.Dialect.Keyword

/-!
# Quoting every bare word

This mode takes whatever stands between blanks, commas, dots and parentheses as
a name, function names included, and puts it in identifier quotes. Keywords
that stand alone, collations and literals are left as they are.
-/
namespace SqlStatement

/-- A stretch of an expression: a literal, a run of blanks, a character that ends names, or a run
of other characters. -/
inductive Chunk where
  | literal (text : Text)
  | blanks (text : Text)
  | mark (c : Char)
  | run (text : Text)
  deriving DecidableEq, Repr

namespace Chunk

/-- The text of a chunk. -/
def text : Chunk → Text
  | literal t | blanks t | run t => t
  | mark c => [c]

/-- A character, apart from blanks, that ends names. -/
def isMark (c : Char) : Bool := c == ',' || c == '.' || c == '(' || c == ')'

/-- Puts a piece in front of chunks, as part of the first run if it fits. -/
def attach : Piece → List Chunk → List Chunk
  | .literal t, cs => literal t :: cs
  | .stray q, cs => mark q :: cs
  | .char c, cs =>
      if Text.isBlank c then
        match cs with
        | blanks b :: cs => blanks (c :: b) :: cs
        | cs => blanks [c] :: cs
      else if isMark c then mark c :: cs
      else
        match cs with
        | run r :: cs => run (c :: r) :: cs
        | cs => run [c] :: cs

/-- The chunks of a text. -/
def ofText (d : Dialect) (t : Text) : List Chunk := (Piece.ofText d t).foldr attach []

/-- Whether a chunk lets a keyword begin or end: blanks and commas do. -/
def delimits : Chunk → Bool
  | blanks _ => true
  | mark c => c == ','
  | _ => false

/-- Whether the end or one that delimits comes next. -/
def endsHere : List Chunk → Bool
  | [] => true
  | c :: _ => c.delimits

/-- Whether a word is followed by the name of a collation or a character set. -/
def isCollationKeyword (w : Text) : Bool := Text.isAnyKeyword ["COLLATE", "USING"] w

end Chunk

namespace Dialect

/-- Puts a text in identifier quotes. -/
def quoteName (d : Dialect) (t : Text) : Text := d.identifierQuote :: (t ++ [d.identifierQuote])

/-- Whether a run has a letter or underscore that makes it a name. In the generic dialect it has to
stand at the start of a word; `before` is the character in front of the run. -/
def hasName : Dialect → Option Char → Text → Bool
  | _, _, [] => false
  | mysql, _, t => t.any Text.isNameStart
  | generic, before, c :: t =>
      (Text.isNameStart c && Text.startsWord before) || hasName generic (some c) t

/-- A run as it is written: in quotes if it has a name. -/
def quoteRun (d : Dialect) (before : Option Char) (t : Text) : Text :=
  if d.hasName before t then d.quoteName t else t

/-- The run behind a collation keyword: its first word is kept, what follows is a run of its own. -/
def keepCollation (d : Dialect) (t : Text) : Text :=
  let name := t.takeWhile Text.isWordChar
  name ++ d.quoteRun name.getLast? (t.dropWhile Text.isWordChar)

/-- Whether a run names a collation: it starts with a word. -/
def startsCollation (t : Text) : Bool := !(t.takeWhile Text.isWordChar).isEmpty

/-- Quotes the runs of an expression. `before` is the chunk in front. -/
def quoteChunks (d : Dialect) (before : Option Chunk) : List Chunk → Text
  | [] => []
  | .run a :: .blanks b :: .run c :: cs =>
      if before.all Chunk.delimits then
        if Text.isAnyKeyword d.expressionKeywords a then
          a ++ d.quoteChunks (some (.run a)) (.blanks b :: .run c :: cs)
        else if d.isKeywordPair a c && Chunk.endsHere cs then
          a ++ b ++ c ++ d.quoteChunks (some (.run c)) cs
        else if Chunk.isCollationKeyword a && startsCollation c then
          a ++ b ++ d.keepCollation c ++ d.quoteChunks (some (.run c)) cs
        else
          d.quoteRun none a ++
            d.quoteChunks (some (.run a)) (.blanks b :: .run c :: cs)
      else
        d.quoteRun none a ++
          d.quoteChunks (some (.run a)) (.blanks b :: .run c :: cs)
  | .run a :: cs =>
      if before.all Chunk.delimits && Text.isAnyKeyword d.expressionKeywords a &&
          Chunk.endsHere cs then
        a ++ d.quoteChunks (some (.run a)) cs
      else d.quoteRun none a ++ d.quoteChunks (some (.run a)) cs
  | c :: cs => c.text ++ d.quoteChunks (some c) cs

/-- Quotes every bare word of an expression, function names included. -/
def quoteWords (d : Dialect) (t : Text) : Text := d.quoteChunks none (Chunk.ofText d t)

end Dialect
end SqlStatement
