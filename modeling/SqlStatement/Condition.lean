import SqlStatement.Expression.Mode
import SqlStatement.Placeholder

/-!
# Conditions

A condition is built from an expression and a value. The value goes into the
placeholders of the expression if it has any; otherwise the expression is
compared with the value.
-/
namespace SqlStatement

/-- An expression, and the value it is compared with or filled with. -/
structure Criterion where
  expression : Text
  value : Option Value := none
  deriving Repr

namespace Condition

/-- Whether a value is there to compare with: null and the empty list are not. -/
def isComparable : Value → Bool
  | .null => false
  | .list items => !items.isEmpty
  | _ => true

/-- A column compared with a value. Without a value the column is a condition of its own, unless it
is a mere identifier. -/
def compare (d : Dialect) (column : Text) (value : Option Value) : Text :=
  match value.filter isComparable with
  | none => if d.isIdentifier column then [] else column
  | some v =>
      let operator := match v with
        | .list _ => " IN ".toList
        | _ => " = ".toList
      column ++ operator ++ d.quoteValue "NULL".toList v

/-- The values for the placeholders of an expression: the items of a list if there are several
placeholders, else the value itself. -/
def arguments (placeholders : Nat) (value : Option Value) : List Value :=
  match value.getD .null with
  | .list items => if 1 < placeholders then items else [.list items]
  | v => [v]

end Condition

/-- The condition of a criterion, empty if there is nothing to compare. -/
def buildCondition (s : Settings) (mode : QuoteMode) (c : Criterion) : Except Error Text := do
  let placeholders := s.dialect.countPlaceholders c.expression
  let column ← quoteIdentifier s mode c.expression
  if placeholders = 0 then return Condition.compare s.dialect column c.value
  else return s.dialect.bind { positional := Condition.arguments placeholders c.value } column

/-- The conditions of several criteria, empty ones left out, joined by AND. -/
def buildConditions (s : Settings) (mode : QuoteMode) (cs : List Criterion) :
    Except Error Text := do
  let conditions ← cs.mapM (buildCondition s mode)
  return Text.joinWith " AND ".toList (conditions.filter (! ·.isEmpty))

end SqlStatement
