import SqlStatement.Calendar
import SqlStatement.Number.Shortest

/-!
# Values

The values that are written into statements as literals and read out of them.
-/
namespace SqlStatement

/-- A value of a statement. -/
inductive Value where
  | null
  | bool (b : Bool)
  | int (n : Int64)
  | float (x : Double)
  | text (t : Text)
  | dateTime (t : DateTime)
  | list (items : List Value)
  deriving Repr

namespace Value

instance : Inhabited Value := ⟨null⟩

/-- Whether an integer is in the range of integer values. -/
def inRange (n : Int) : Bool := Int64.minValue.toInt ≤ n && n ≤ Int64.maxValue.toInt

/-- The value of an unsigned number: an integer if it is in the range of integers, otherwise the
nearest floating-point number. -/
def ofUnsigned (n : UInt64) : Value :=
  if inRange n.toNat then int (Int64.ofNat n.toNat) else float (.ofNat n.toNat)

/-- Whether a value is null. -/
def isNull : Value → Bool
  | null => true
  | _ => false

/-- The items of a list. -/
def items? : Value → Option (List Value)
  | list items => some items
  | _ => none

/-- The text of a text value. -/
def text? : Value → Option Text
  | text t => some t
  | _ => none

/-- Floating-point numbers in running text have their point in its place and none if they are
integers. -/
def plainLayout : NumberLayout := ⟨none, false⟩

mutual

/-- A value as running text, for a text that is to be quoted with other characters around it. -/
def plainText : Value → Text
  | null => []
  | bool b => if b then ['1'] else []
  | int n => Text.ofInt n.toInt
  | float x => plainLayout.render x
  | text t => t
  | dateTime t => t.text
  | list items => Text.joinWith [',', ' '] (plainTexts items)

/-- The running texts of several values. -/
def plainTexts : List Value → List Text
  | [] => []
  | v :: vs => plainText v :: plainTexts vs

end

end Value
end SqlStatement
