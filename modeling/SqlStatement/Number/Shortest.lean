import SqlStatement.Number.Double

/-!
# Shortest decimals

A finite number is written with the fewest digits that read back as the same
number; of the decimals with that many digits the nearest is taken, and of two
equally near ones the larger. How the digits are laid out, with a point or
with an exponent, is the choice of a layout.
-/
namespace SqlStatement

/-- A positive decimal: its digits without zeros at either end, and the place of the point
counted from in front of them, so that its value is 0.DIGITS times ten to that power. -/
structure ShortDecimal where
  digits : Text
  point : Int
  deriving DecidableEq, Repr

namespace ShortDecimal

/-- The decimal `coefficient * 10 ^ exponent`. -/
def ofScientific (coefficient : Nat) (exponent : Int) : ShortDecimal :=
  let digits := Text.ofNat coefficient
  ⟨Text.dropEndWhile (· == '0') digits, exponent + digits.length⟩

end ShortDecimal

namespace Double

/-- The value of a finite number without its sign, as a quotient. -/
def quotient (x : Double) : Nat × Nat := (x.significand * twoTo x.scale, twoTo 1074)

/-- The number of decimal places that a quotient is shifted by before its digits are counted; the
smallest positive number is above ten to minus this power. -/
def shift : Nat := 340

/-- The place of the decimal point of a positive number in front of its first digit. -/
def pointPlace (x : Double) : Int :=
  let v := x.quotient
  (Text.ofNat (v.1 * tenTo shift / v.2)).length - (shift : Int)

/-- Where a number lies on a grid of decimals: `below` times ten to the power `exponent` is the next
one that is not above it, and `upperIsNear` tells whether the one after it is at least as near. -/
structure GridPlace where
  below : Nat
  exponent : Int
  upperIsNear : Bool
  deriving DecidableEq, Repr

/-- The place of a positive number on the grid of decimals with the given number of digits. -/
def gridPlace (x : Double) (count : Nat) : GridPlace :=
  let v := x.quotient
  let exponent := x.pointPlace - count
  let scaled : Nat × Nat :=
    if 0 ≤ exponent then (v.1, v.2 * tenTo exponent.toNat)
    else (v.1 * tenTo (-exponent).toNat, v.2)
  ⟨scaled.1 / scaled.2, exponent, scaled.2 ≤ 2 * (scaled.1 % scaled.2)⟩

/-- Whether a decimal with the sign of a number reads back as that number. -/
def isReadFrom (x : Double) (coefficient : Nat) (exponent : Int) : Bool :=
  ofDecimal x.isNegative coefficient exponent == x

/-- The nearest decimal with the given number of digits that reads back as the number. -/
def readable? (x : Double) (count : Nat) : Option (Nat × Int) :=
  let place := x.gridPlace count
  let lower := x.isReadFrom place.below place.exponent
  let upper := x.isReadFrom (place.below + 1) place.exponent
  if upper && (place.upperIsNear || !lower) then some (place.below + 1, place.exponent)
  else if lower then some (place.below, place.exponent)
  else none

/-- The exact decimal of a finite number. -/
def exactDecimal (x : Double) : Nat × Int :=
  if 1074 ≤ x.scale then (x.significand * twoTo (x.scale - 1074), 0)
  else (x.significand * Nat.pow 5 (1074 - x.scale), x.scale - (1074 : Int))

/-- The shortest decimal of a positive or negative finite number, without its sign. -/
def shortest (x : Double) : ShortDecimal :=
  let d := ((List.range' 1 17).findSome? x.readable?).getD x.exactDecimal
  .ofScientific d.1 d.2

end Double

/-- How a number is laid out. -/
structure NumberLayout where
  /-- The powers of ten of the first digit between which the point is written in its place; outside
  of them an exponent follows. -/
  positional : Option (Int × Int)
  /-- Whether an integer gets a point and a zero. -/
  integerPoint : Bool
  deriving DecidableEq, Repr

namespace NumberLayout

/-- Digits with the point in its place. -/
def plain (layout : NumberLayout) (d : ShortDecimal) : Text :=
  let n : Int := d.digits.length
  if d.point ≤ 0 then '0' :: '.' :: (List.replicate (-d.point).toNat '0' ++ d.digits)
  else if n ≤ d.point then
    d.digits ++ List.replicate (d.point - n).toNat '0' ++
      if layout.integerPoint then ['.', '0'] else []
  else d.digits.take d.point.toNat ++ '.' :: d.digits.drop d.point.toNat

/-- Digits with the point behind the first one and an exponent. -/
def scientific (d : ShortDecimal) : Text :=
  let fraction := match d.digits.drop 1 with
    | [] => []
    | more => '.' :: more
  d.digits.take 1 ++ fraction ++ 'e' :: Text.ofInt (d.point - 1)

/-- The digits of a decimal as the layout has them. -/
def digits (layout : NumberLayout) (d : ShortDecimal) : Text :=
  match layout.positional with
  | none => layout.plain d
  | some (low, high) =>
      if low ≤ d.point - 1 ∧ d.point - 1 ≤ high then layout.plain d else scientific d

/-- The text of a number. -/
def render (layout : NumberLayout) (x : Double) : Text :=
  let sign := if x.isNegative then ['-'] else []
  if x.isNaN then "NaN".toList
  else if !x.isFinite then sign ++ "inf".toList
  else if x.unsignedBits = 0 then sign ++ (if layout.integerPoint then "0.0".toList else ['0'])
  else sign ++ layout.digits x.shortest

end NumberLayout
end SqlStatement
