import SqlStatement.Text.Word

/-!
# Double-precision numbers

A number is its 64-bit word in the binary64 format. Its value is computed with
exact natural numbers, and rounding goes to the nearest number, of two equally
near ones to the one with an even significand.
-/
namespace SqlStatement

/-- A number in the binary64 format. -/
structure Double where
  bits : UInt64
  deriving DecidableEq, Repr

namespace Double

/-- A power of two. -/
def twoTo (n : Nat) : Nat := Nat.pow 2 n

/-- A power of ten. -/
def tenTo (n : Nat) : Nat := Nat.pow 10 n

/-- The word of the positive infinity; smaller words without a sign are finite numbers. -/
def infinityBits : Nat := 0x7ff0000000000000

/-- The word that holds the sign alone. -/
def signBits : Nat := twoTo 63

/-- The word without its sign. -/
def unsignedBits (x : Double) : Nat := x.bits.toNat % signBits

/-- Whether the sign is set. -/
def isNegative (x : Double) : Bool := signBits ≤ x.bits.toNat

/-- Neither an infinity nor a NaN. -/
def isFinite (x : Double) : Bool := x.unsignedBits < infinityBits

/-- Not a number. -/
def isNaN (x : Double) : Bool := infinityBits < x.unsignedBits

/-- The number with the given sign and unsigned word. -/
def ofUnsigned (negative : Bool) (word : Nat) : Double :=
  ⟨UInt64.ofNat (if negative then signBits + word else word)⟩

/-- The exponent of two by which the significand of a finite number is scaled, counted from the
smallest one, -1074. -/
def scale (x : Double) : Nat := x.unsignedBits / twoTo 52 - 1

/-- The significand of a finite number, with its leading bit. -/
def significand (x : Double) : Nat :=
  x.unsignedBits - x.scale * twoTo 52

/-- The quotient rounded to the nearest integer, a tie to the even one. -/
def roundQuotient (num den : Nat) : Nat :=
  let q := num / den
  let r := num % den
  if 2 * r < den || (2 * r == den && q % 2 == 0) then q else q + 1

/-- The number nearest to a quotient. A scale is chosen at which the significand has 53 bits, or
the smallest scale; a significand that rounds up to 54 bits carries into the scale by itself. -/
def ofQuotient (negative : Bool) (num den : Nat) : Double :=
  let num := num * twoTo 1074
  let scale := (num / den).log2 + 1 - 53
  let word := scale * twoTo 52 + roundQuotient num (den * twoTo scale)
  ofUnsigned negative (min word infinityBits)

/-- The number nearest to a decimal. A decimal that is far too large or too small is decided by
its exponent alone. -/
def ofDecimal (negative : Bool) (coefficient : Nat) (exponent : Int) : Double :=
  let magnitude := exponent + (Text.ofNat coefficient).length
  if coefficient = 0 ∨ magnitude < -330 then ofUnsigned negative 0
  else if 310 < magnitude then ofUnsigned negative infinityBits
  else if 0 ≤ exponent then ofQuotient negative (coefficient * tenTo exponent.toNat) 1
  else ofQuotient negative coefficient (tenTo (-exponent).toNat)

/-- The number nearest to a natural number. -/
def ofNat (n : Nat) : Double := ofQuotient false n 1

/-- A number in the binary32 format with the same value; a NaN is made quiet. -/
def ofSingle (bits : UInt32) : Double :=
  let word := bits.toNat % twoTo 31
  let negative := twoTo 31 ≤ bits.toNat
  let fraction := word % twoTo 23
  let exponent := word / twoTo 23
  if exponent = 255 then
    ofUnsigned negative
      (if fraction = 0 then infinityBits
        else infinityBits + twoTo 51 + fraction % twoTo 22 * twoTo 29)
  else if exponent = 0 then ofQuotient negative fraction (twoTo 149)
  else ofQuotient negative ((twoTo 23 + fraction) * twoTo exponent) (twoTo 150)

end Double
end SqlStatement
