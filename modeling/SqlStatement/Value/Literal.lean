import SqlStatement.Literal
import SqlStatement.Value

/-!
# Values as literals

`Dialect.quoteValue` writes a value as a literal, and `Dialect.unquoteValue`
reads a literal as a value. Floating-point literals keep a fraction or an
exponent, so that they are read as floating-point numbers again.
-/
namespace SqlStatement

/-- Floating-point literals have the point in its place from a ten-thousandth up to ten to the
sixteenth, and an exponent outside of it; integers get a point and a zero. -/
def literalLayout : NumberLayout := ⟨some (-4, 15), true⟩

namespace Dialect

mutual

/-- The literal of a value. `empty` stands for null and for numbers that have no literal. -/
def quoteValue (d : Dialect) (empty : Text) : Value → Text
  | .null => empty
  | .bool b => if b then "TRUE".toList else "FALSE".toList
  | .int n => Text.ofInt n.toInt
  | .float x => if x.isFinite then literalLayout.render x else empty
  | .text t => d.quoteString t
  | .dateTime t => d.quoteString t.text
  | .list items => '(' :: (Text.joinWith [',', ' '] (d.quoteValues empty items) ++ [')'])

/-- The literals of several values. -/
def quoteValues (d : Dialect) (empty : Text) : List Value → List Text
  | [] => []
  | v :: vs => d.quoteValue empty v :: d.quoteValues empty vs

end

end Dialect

namespace Numeral

/-- A sign in front of a number, whether it is a minus, and the rest. -/
def sign : Text → Bool × Text
  | '-' :: t => (true, t)
  | '+' :: t => (false, t)
  | t => (false, t)

/-- The integer that a text of digits with an optional sign writes. -/
def integer? (t : Text) : Option Int :=
  let s := sign t
  if !s.2.isEmpty && s.2.all Char.isDigit then
    some (if s.1 then -(Text.digitsValue s.2 : Int) else Text.digitsValue s.2)
  else none

/-- The digits in front of a decimal point, those behind it, and the rest of a number: there is a
digit on one side of the point. -/
def mantissa? (t : Text) : Option (Text × Text × Text) :=
  let whole := t.takeWhile Char.isDigit
  let (fraction, rest) := match t.dropWhile Char.isDigit with
    | '.' :: t => (t.takeWhile Char.isDigit, t.dropWhile Char.isDigit)
    | t => ([], t)
  if whole.isEmpty && fraction.isEmpty then none else some (whole, fraction, rest)

/-- The exponent at the end of a number, zero if there is none. -/
def exponent? : Text → Option Int
  | [] => some 0
  | e :: t => if e = 'e' ∨ e = 'E' then integer? t else none

/-- The floating-point number nearest to what a text writes: digits with an optional sign, an
optional point and an optional exponent. -/
def double? (t : Text) : Option Double := do
  let s := sign t
  let (whole, fraction, rest) ← mantissa? s.2
  let exponent ← exponent? rest
  return Double.ofDecimal s.1 (Text.digitsValue (whole ++ fraction)) (exponent - fraction.length)

end Numeral

namespace Dialect

/-- The number that a text writes: an integer if it is one in range, else a floating-point
number. -/
def number? (t : Text) : Option Value :=
  match (Numeral.integer? t).filter Value.inRange with
  | some n => some (.int (Int64.ofInt n))
  | none => (Numeral.double? t).map .float

/-- The value of a literal with nothing but white characters around it. DEFAULT counts as null. -/
def unquoteValue (d : Dialect) (t : Text) : Except Error Value :=
  let token := Text.trim t
  if Text.isAnyKeyword ["NULL", "DEFAULT"] token then .ok .null
  else if Text.isKeyword "TRUE" token then .ok (.bool true)
  else if Text.isKeyword "FALSE" token then .ok (.bool false)
  else
    match (number? token).or ((d.unquoteString? token).map .text) with
    | some v => .ok v
    | none => .error (.invalidValue t)

end Dialect
end SqlStatement
