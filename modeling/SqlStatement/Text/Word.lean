import SqlStatement.Text.Blank

/-!
# Words

A word is a run of ASCII letters, digits and underscores; every other character
stands outside words. Keywords are written in upper case here and compared with
words without regard to the case of ASCII letters.
-/
namespace SqlStatement.Text

/-- An ASCII letter, an ASCII digit or the underscore. -/
def isWordChar (c : Char) : Bool := c.isAlphanum || c == '_'

/-- A character a name may start with: an ASCII letter or the underscore. -/
def isNameStart (c : Char) : Bool := c.isAlpha || c == '_'

/-- The text with its ASCII letters in upper case. -/
def upper (t : Text) : Text := t.map Char.toUpper

/-- Whether a word is the given upper-case keyword, in any case of its letters. -/
def isKeyword (keyword : String) (word : Text) : Bool := upper word == keyword.toList

/-- Whether a word is one of the given upper-case keywords. -/
def isAnyKeyword (keywords : List String) (word : Text) : Bool :=
  keywords.any (isKeyword · word)

/-- Whether the first word of a text, behind blanks, is the given upper-case keyword. -/
def startsWithKeyword (keyword : String) (t : Text) : Bool :=
  isKeyword keyword ((skipBlanks t).takeWhile isWordChar)

/-- Whether a word may start behind the character in front, if there is one. -/
def startsWord : Option Char → Bool
  | none => true
  | some c => !isWordChar c

/-- The words of a text, in order, whatever stands between them. -/
def words (t : Text) : List Text :=
  (t.foldr attach (false, [])).2
where
  /-- The first component says whether the text read so far starts with a word character. -/
  attach (c : Char) : Bool × List Text → Bool × List Text
    | (true, w :: ws) => if isWordChar c then (true, (c :: w) :: ws) else (false, w :: ws)
    | (_, ws) => if isWordChar c then (true, [c] :: ws) else (false, ws)

/-- The number a list of ASCII digits writes in base ten. -/
def digitsValue (t : Text) : Nat := t.foldl (fun n c => 10 * n + (c.toNat - '0'.toNat)) 0

/-- The digits of a number in base ten, most significant first. -/
def ofNat (n : Nat) : Text := Nat.toDigits 10 n

/-- An integer in base ten, with a minus sign if it is negative. -/
def ofInt : Int → Text
  | .ofNat n => ofNat n
  | .negSucc n => '-' :: ofNat (n + 1)

/-- The digits of a number, with zeros in front up to the given width. -/
def ofNatPadded (width n : Nat) : Text :=
  let digits := ofNat n
  List.replicate (width - digits.length) '0' ++ digits

end SqlStatement.Text
