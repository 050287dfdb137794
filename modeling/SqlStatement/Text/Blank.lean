/-!
# Text and its blank characters

Statements are handled as lists of characters. Two kinds of blank matter. A
*blank* is one of the six ASCII characters that separate the words of a
statement. A *white* character is any character with the Unicode property
White_Space; parts and values lose white characters at both ends.
-/
namespace SqlStatement

/-- Text of a statement, one entry per character. -/
abbrev Text := List Char

namespace Text

/-- Space, tab, line feed, carriage return, vertical tab and form feed. -/
def isBlank (c : Char) : Bool :=
  c == ' ' || c == '\t' || c == '\n' || c == '\r' || c == '\x0b' || c == '\x0c'

/-- The characters with the Unicode property White_Space. -/
def isWhite (c : Char) : Bool :=
  let n := c.toNat
  (9 ≤ n && n ≤ 13) || n == 0x20 || n == 0x85 || n == 0xa0 || n == 0x1680 ||
    (0x2000 ≤ n && n ≤ 0x200a) || n == 0x2028 || n == 0x2029 || n == 0x202f ||
    n == 0x205f || n == 0x3000

/-- Drops the characters that satisfy `p` at the end. -/
def dropEndWhile (p : Char → Bool) (t : Text) : Text :=
  (t.reverse.dropWhile p).reverse

/-- Drops the characters that satisfy `p` at both ends. -/
def trimWhere (p : Char → Bool) (t : Text) : Text :=
  dropEndWhile p (t.dropWhile p)

/-- Drops the white characters at both ends. -/
def trim (t : Text) : Text := trimWhere isWhite t

/-- Drops the blanks in front. -/
def skipBlanks (t : Text) : Text := t.dropWhile isBlank

/-- Joins texts with a separator between neighbours. -/
def joinWith (separator : Text) : List Text → Text
  | [] => []
  | [t] => t
  | t :: ts => t ++ separator ++ joinWith separator ts

theorem isWhite_of_isBlank {c : Char} (h : isBlank c = true) : isWhite c = true := by
  simp only [isBlank, Bool.or_eq_true, beq_iff_eq] at h
  rcases h with ((((h | h) | h) | h) | h) | h <;> subst h <;> decide

@[simp] theorem joinWith_nil (separator : Text) : joinWith separator [] = [] := rfl

@[simp] theorem joinWith_singleton (separator t : Text) : joinWith separator [t] = t := rfl

theorem joinWith_cons_cons (separator t u : Text) (ts : List Text) :
    joinWith separator (t :: u :: ts) = t ++ separator ++ joinWith separator (u :: ts) := rfl

end Text
end SqlStatement
