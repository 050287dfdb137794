import SqlStatement.Reading.RowLimit
import SqlStatement.Split

/-!
# Counting statements

The rows that a statement selects or touches are counted by a SELECT over the
same tables with the same condition. A row limit cuts the count unless all rows
are asked for.
-/
namespace SqlStatement

namespace Count

/-- The parts that tell which rows are meant: those of the query that an INSERT or REPLACE takes its
rows from, if there is one. -/
def source (s : Settings) (ps : Parts) : Except Error Parts :=
  if (Parts.type? ps).any StatementType.isInsertLike && Parts.hasText ps "query" then
    split s (Text.trim (Parts.text ps "query"))
  else .ok ps

/-- The tables whose rows are counted. -/
def tables (ps : Parts) : Except Error Text :=
  match ((ps.get? "from").or (ps.get? "into")).or (ps.get? "table") with
  | some t => .ok t
  | none => .error (.uncountable (StatementType.shown (Parts.type? ps)))

/-- A function call as it is written. -/
def call (function : String) (arguments : Text) : Text :=
  function.toList ++ '(' :: (arguments ++ [')'])

/-- The count of all rows. -/
def everyRow : Text := call "COUNT" ['*']

/-- The count of distinct values. -/
def distinctValues (expression : Text) : Text :=
  call "COUNT" ("DISTINCT ".toList ++ Text.trim expression)

/-- The count of a statement's rows: of distinct values if the SELECT asks for them, of groups if it
has groups. -/
def column (ps : Parts) : Text :=
  if Parts.type? ps ≠ some .select then everyRow
  else if (Text.words (Parts.text ps "select")).any (Text.isKeyword "DISTINCT") then
    distinctValues (Parts.text ps "columns")
  else if Parts.hasText ps "group by" then distinctValues (Parts.text ps "group by")
  else everyRow

/-- A count cut by a row limit. -/
def limited (column : Text) (limit : RowLimit) : Text :=
  match limit.rows, limit.offset with
  | some rows, some offset =>
      call "LEAST" (column ++ " - ".toList ++ Text.ofNat offset.toNat ++ ", ".toList ++
        Text.ofNat rows.toNat)
  | some rows, none => call "LEAST" (column ++ ", ".toList ++ Text.ofNat rows.toNat)
  | none, _ => column

/-- The count of a SELECT with HAVING: the rows of the SELECT as a derived table. -/
def derived (ps : Parts) (allRows : Bool) : Parts :=
  let inner := Parts.join (if allRows then ps.erase "limit" else ps)
  ⟨[("select", []), ("columns", everyRow), ("from", '(' :: (inner ++ ") AS q".toList))]⟩

end Count

/-- A statement that counts the rows which the parts select or touch. -/
def countStatement (s : Settings) (ps : Parts) (allRows : Bool) : Except Error Text := do
  let ps ← Count.source s ps
  let tables ← Count.tables ps
  if Parts.type? ps = some .select ∧ Parts.hasText ps "having" then
    return Parts.join (Count.derived ps allRows)
  else
    let limit ← if !allRows && ps.contains "limit" then splitLimit ps else pure {}
    let column := Count.limited (Count.column ps) limit
    return Parts.join ⟨[("select", []), ("columns", column), ("from", tables),
      ("where", Parts.text ps "where")]⟩

end SqlStatement
