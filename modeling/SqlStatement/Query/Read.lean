import SqlStatement.Count
import SqlStatement.Query.Edit
import SqlStatement.Reading.Assignments
import SqlStatement.Reading.Tables

/-!
# Reading a query

Readers see the statement with all its changes. Subqueries are numbered as in
the statement the query was made from; one can be copied, or taken out and
edited in place.
-/
namespace SqlStatement

namespace Query

/-- A subquery of the statement as a query of its own, without changes. -/
def detach (q : Query) (number : Nat) : Except Error Query := do
  let e ← Subquery.extract q.settings q.statement
  if number = 0 then throw (.subqueryOutOfRange number e.subqueries.length)
  match e.subqueries[number - 1]? with
  | some t => return ofStatement q.settings (Subquery.inject q.settings.dialect (t :: e.subqueries))
  | none => throw (.subqueryOutOfRange number e.subqueries.length)

/-- A copy of a subquery, with its changes if it is taken out. -/
def subquery (q : Query) (number : Nat) : Except Error Query :=
  match q.attached.lookup number with
  | some sub => .ok sub
  | none => q.detach number

end Query

namespace Edit

/-- Edits a subquery in place. It is taken out if it was not yet, and goes behind the others. -/
def subquery {β : Type} (number : Nat) (edit : Query → β × Query) : Edit β := do
  let q ← get
  let sub ← ofExcept (q.subquery number)
  let (answer, edited) := edit sub
  set { q with
    attached := q.attached.filter (fun (p : Nat × Query) => p.1 ≠ number) ++ [(number, edited)]
    memo := {} }
  return answer

/-- Reads the parts with all changes. -/
def readParts {α : Type} (reader : Parts → Except Error α) : Edit α := do
  ofExcept (reader (← parts))

/-- A query that counts the rows of this one. -/
def count (allRows : Bool) : Edit Query := do
  let s := (← get).settings
  let statement ← readParts (countStatement s · allRows)
  return .ofStatement s statement

/-- The tables. -/
def tables : Edit (OrderedMap Text Text) := do readParts (splitTables (← get).settings)

/-- The columns. -/
def columns : Edit (List Text) := do readParts (splitColumns (← get).settings.dialect)

/-- The assignments. -/
def assignments : Edit (OrderedMap Text Text) := do
  readParts (splitAssignments (← get).settings.dialect)

/-- The assignments as values. -/
def assignmentValues : Edit (OrderedMap Text Value) := do
  readParts (splitAssignmentValues (← get).settings.dialect)

/-- The rows. -/
def rows : Edit (List (List Text)) := do readParts (splitRows (← get).settings.dialect)

/-- The rows as values. -/
def rowValues : Edit (List (List Value)) := do readParts (splitRowValues (← get).settings.dialect)

/-- The row limit. -/
def rowLimit : Edit RowLimit := readParts splitLimit

end Edit
end SqlStatement
