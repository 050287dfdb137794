import SqlStatement.Query.Basic
import SqlStatement.Reading.Columns

/-!
# What a query stands for

The parts and the statement of a query, worked out from its statement and its
changes alone. A subquery that is taken out and changed stands in the statement
as it is now; an enclosing subquery wins over those inside it.
-/
namespace SqlStatement.Query

/-- The key of the part that says what happens on a duplicate key. -/
def duplicateKey : String := "on duplicate key update"

/-- The text of that part which stands for an update of every inserted column. -/
def updateMarker : Text := ['1']

/-- The assignment of the inserted value to its column. -/
def insertedAssignment (s : Settings) (column : Text) : Except Error Text := do
  let name ← quoteIdentifier s .strict column
  return name ++ " = VALUES(".toList ++ name ++ [')']

/-- Writes the assignments that the marker stands for, if the marker is there. -/
def expandMarker (s : Settings) (ps : Parts) : Except Error Parts := do
  if (ps.get? duplicateKey).any fun t => Text.trim t == updateMarker then
    let columns ← splitColumns s.dialect ps
    let assignments ← columns.mapM (insertedAssignment s)
    return ps.insert duplicateKey (Text.joinWith [',', ' '] assignments)
  else return ps

/-- Selects all columns where a SELECT names none. -/
def fillColumns (ps : Parts) : Parts :=
  if ps.keys.head? == some "select" && !Parts.hasText ps "columns" then ps.insert "columns" ['*']
  else ps

/-- The changes of a query made to the parts of its statement: replacements, then fragments. -/
def composeFrom (q : Query) (base : Parts) : Except Error Parts :=
  if q.isMutated then do
    let replaced := q.replacements.toList.foldl (fun (ps : Parts) p => ps.insert p.1 p.2) base
    let merged := addParts q.settings.dialect replaced q.additions
    let expanded ← expandMarker q.settings (fillColumns merged)
    return expanded.mapValues Text.trim
  else .ok base

/-- The statement of a query with literals in place of placeholders. -/
def bound (q : Query) (statement : Text) : Text := q.settings.dialect.bind q.parameters statement

mutual

/-- Whether a query or a subquery of it has any changes or values. -/
def isChanged : Query → Bool
  | ⟨_, _, replacements, additions, parameters, attached, _⟩ =>
      !replacements.isEmpty || !additions.isEmpty || !parameters.isEmpty || anyChanged attached

/-- Whether any of several subqueries is changed. -/
def anyChanged : List (Nat × Query) → Bool
  | [] => false
  | (_, q) :: rest => q.isChanged || anyChanged rest

end

/-- Texts put in place of the sets with their numbers. -/
def placeTexts (sets : List Text) (texts : List (Nat × Text)) : List Text :=
  texts.foldl (fun sets p => sets.set p.1 p.2) sets

/-- The statement around the texts of changed subqueries. -/
def assemble (s : Settings) (statement : Text) (changed : Bool)
    (texts : Except Error (List (Nat × Text))) : Except Error Text :=
  if changed then do
    let e ← Subquery.extract s statement
    return Subquery.inject s.dialect (placeTexts e.sets (← texts))
  else .ok statement

/-- The statement of a query, written from its parts if it has changes. -/
def finish (q : Query) (base : Text) : Except Error Text := do
  if q.isMutated then
    return q.bound (Parts.join (← q.composeFrom (← split q.settings base)))
  else return q.bound base

mutual

/-- The statement of a query with all its changes and values. -/
def render : Query → Except Error Text
  | ⟨statement, settings, replacements, additions, parameters, attached, memo⟩ => do
      let base ← assemble settings statement (anyChanged attached) (changedTexts attached)
      finish ⟨statement, settings, replacements, additions, parameters, attached, memo⟩ base

/-- The statements of the changed ones among subqueries, with their numbers. -/
def changedTexts : List (Nat × Query) → Except Error (List (Nat × Text))
  | [] => .ok []
  | (number, q) :: rest =>
      if q.isChanged then do
        let t ← q.render
        return (number, t) :: (← changedTexts rest)
      else changedTexts rest

end

/-- The statement of a query with its changed subqueries in place, before its own changes. -/
def baseText (q : Query) : Except Error Text :=
  assemble q.settings q.statement (anyChanged q.attached) (changedTexts q.attached)

/-- The parts of the statement before the changes of the query itself. -/
def baseParts (q : Query) : Except Error Parts := do split q.settings (← q.baseText)

/-- The parts with all changes. -/
def compose (q : Query) : Except Error Parts := do q.composeFrom (← q.baseParts)

end SqlStatement.Query
