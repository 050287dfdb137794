import SqlStatement.Identifier
import SqlStatement.Nesting
import SqlStatement.Parts
import SqlStatement.Value.Literal

/-!
# Assignments

The assignments of a `set` part, as a map from columns to expressions. What has
no column that can be recognised is kept under the empty name.
-/
namespace SqlStatement

namespace Assignment

/-- A user variable at the start of a text: at signs and a word. -/
def userVariable? (t : Text) : Option (Text × Text) :=
  let signs := t.takeWhile (· == '@')
  let rest := t.dropWhile (· == '@')
  let word := rest.takeWhile Text.isWordChar
  if signs.isEmpty || word.isEmpty then none
  else some (signs ++ word, rest.dropWhile Text.isWordChar)

/-- The column or variable that a text starts with, and the rest. -/
def target? (d : Dialect) (t : Text) : Option (Text × Text) :=
  (d.identifier? t).or (userVariable? t)

/-- The column and the expression of an assignment. -/
def split (d : Dialect) (segment : Text) : Text × Text :=
  match target? d (Text.skipBlanks segment) with
  | none => ([], segment)
  | some (target, rest) =>
      match Text.skipBlanks rest with
      | '=' :: expression => (target, Text.skipBlanks expression)
      | _ => ([], segment)

/-- The name of a column without the quotes around it. -/
def columnName (d : Dialect) (column : Text) : Text :=
  Text.trimWhere (· == d.identifierQuote) (Text.trim column)

end Assignment

/-- The assignments of the `set` part. A later assignment to a column replaces the earlier one. -/
def splitAssignments (d : Dialect) (ps : Parts) : Except Error (OrderedMap Text Text) := do
  let segments := d.splitTopLevel (← Parts.require ps "set" .assignments)
  return .ofList <| segments.map fun segment =>
    let a := Assignment.split d segment
    (Assignment.columnName d a.1, Text.trim a.2)

/-- The assignments of the `set` part with values in place of expressions. -/
def splitAssignmentValues (d : Dialect) (ps : Parts) : Except Error (OrderedMap Text Value) := do
  let assignments ← splitAssignments d ps
  let pairs ← assignments.toList.mapM fun a => do
    return (a.1, ← d.unquoteValue a.2)
  return ⟨pairs⟩

end SqlStatement
