import SqlStatement.Nesting
import SqlStatement.Parts
import SqlStatement.Value.Literal

/-!
# Columns and rows

The lists in a `columns` part and in a `values` part are cut at their top-level
commas.
-/
namespace SqlStatement

/-- The expressions of the `columns` part. -/
def splitColumns (d : Dialect) (ps : Parts) : Except Error (List Text) := do
  return d.splitTopLevel (← Parts.require ps "columns" .columns)

namespace Row

/-- Takes one pair of parentheses off a row, or one of the two if the other is missing. -/
def unwrap (row : Text) : Text :=
  let inner := match row with
    | '(' :: t => t
    | t => t
  if inner.getLast? = some ')' then inner.dropLast else inner

end Row

/-- The rows of the `values` part, each as a list of expressions. Empty rows are left out. -/
def splitRows (d : Dialect) (ps : Parts) : Except Error (List (List Text)) := do
  let rows := d.splitTopLevel (← Parts.require ps "values" .rows)
  return (rows.map fun row => d.splitTopLevel (Row.unwrap row)).filter (! ·.isEmpty)

/-- The rows of the `values` part as values. -/
def splitRowValues (d : Dialect) (ps : Parts) : Except Error (List (List Value)) := do
  (← splitRows d ps).mapM fun row => row.mapM d.unquoteValue

end SqlStatement
