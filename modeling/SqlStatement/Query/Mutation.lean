import SqlStatement.Query.Edit
import SqlStatement.Reading.RowLimit

/-!
# Changes to a query

A mutation says what a caller wants, in columns, values and expressions. It is
turned into a change, fragments for one part with everything quoted; the change
is recorded only if the statement has that part. A mutation that fails records
nothing.
-/
namespace SqlStatement

/-- What a caller wants to change. Options say where a fragment goes and how it is quoted. -/
inductive Mutation where
  /-- The table of the statement, or a further table behind the given join syntax. -/
  | table (join table on : Text) (options : PartOptions)
  | columns (columns : List Text) (options : PartOptions)
  | columnAs (column newName : Text)
  | assign (assignments : List (Text × Assigned)) (options : PartOptions)
  /-- Assignments as text, or the query that an INSERT takes its rows from. -/
  | assignText (expression : Text) (options : PartOptions)
  | rows (rows : List (List Value)) (options : PartOptions)
  | rowText (row : Text) (options : PartOptions)
  | filter (criterion : Criterion) (options : PartOptions)
  | filterAll (criteria : List Criterion)
  | having (criterion : Criterion) (options : PartOptions)
  | groupBy (columns : List Text) (options : PartOptions)
  | orderBy (columns : List Text) (order : SortOrder) (options : PartOptions)
  | limit (rows offset : UInt64)
  | limitText (limit : Text)
  /-- A page, counted from 1. Without a row count the current one is used. -/
  | page (page : UInt64) (rows : Option UInt64)
  /-- On a duplicate key every inserted column is updated, if nothing else is said there. -/
  | updateInserted
  | updateInsertedColumns (columns : List Text)
  | updateAssign (assignments : List (Text × Assigned)) (options : PartOptions)
  | options (options : Text) (options : PartOptions)
  | bind (values : List Value)
  | bindNamed (values : List (Text × Value))
  deriving Repr

/-- Fragments for a part, in the order in which they are recorded. -/
structure Change where
  part : String
  fragments : List (Placement × Text)
  deriving DecidableEq, Repr

namespace Query

/-- Records a fragment for a part. -/
def record (part : String) (q : Query) (fragment : Placement × Text) : Query :=
  let known := (q.additions.get? part).getD {}
  match fragment with
  | (.replace, t) => { q with replacements := q.replacements.insert part t }
  | (.prepend, t) =>
      { q with additions := q.additions.insert part { known with prepend := known.prepend ++ [t] } }
  | (.append, t) =>
      { q with additions := q.additions.insert part { known with append := known.append ++ [t] } }

/-- The part that holds the tables of the statement. -/
def tablePart (q : Query) : String :=
  match q.type? with
  | some .insert | some .replace => "into"
  | some .update | some .truncate => "table"
  | _ => "from"

end Query

namespace Edit

/-- Records a change if the statement has its part. -/
def commit (c : Change) : Edit Unit := do
  requirePart c.part
  unless c.fragments.isEmpty do
    modify fun q => c.fragments.foldl (Query.record c.part) q
    forget

end Edit

namespace Change

/-- One fragment for a part, placed by the options or as is usual. -/
def single (part : String) (options : PartOptions) (usual : Placement) (t : Text) : Change :=
  ⟨part, [(options.placement.getD usual, t)]⟩

/-- Quoted expressions with commas between them. -/
def listed (s : Settings) (options : PartOptions) (suffix : Text) (ts : List Text) :
    Except Error Text := do
  let quoted ← ts.mapM fun t => return (← quoteIdentifier s (options.quote.getD .smart) t) ++ suffix
  return Text.joinWith [',', ' '] quoted

/-- A table. Without join syntax it replaces the tables that are there, or is added with a comma
where the options say so. A join in front has its condition behind the existing tables. -/
def ofTable (q : Query) (join table on : Text) (options : PartOptions) : Except Error Change := do
  let placement := options.placement.getD (if join.isEmpty then .replace else .append)
  if placement = .replace ∧ ¬ join.isEmpty then throw (.joinWhileReplacing join)
  let join := if join.isEmpty && placement != .replace then [','] else join
  let table ← quoteIdentifier q.settings (options.quote.getD .words) table
  let condition ←
    if join.isEmpty || on.isEmpty then pure []
    else
      let quoted ← quoteIdentifier q.settings .smart on
      pure ("ON ".toList ++ quoted)
  let fragments := match placement with
    | .replace => [(.replace, table)]
    | .prepend =>
        (.prepend, table ++ ' ' :: join) ::
          if condition.isEmpty then [] else [(.append, condition)]
    | .append =>
        [(.append, join ++ ' ' :: table ++ if condition.isEmpty then [] else ' ' :: condition)]
  return ⟨q.tablePart, fragments⟩

/-- The right side of an assignment. `empty` stands for null. -/
def rightSide (s : Settings) (empty : Text) (mode : QuoteMode) : Assigned → Except Error Text
  | .value v => .ok (s.dialect.quoteValue empty v)
  | .expression t => quoteIdentifier s mode t

/-- An assignment. A column with an equals sign is an assignment by itself. -/
def assignment (q : Query) (mode : QuoteMode) (a : Text × Assigned) : Except Error Text :=
  if a.1.contains '=' then quoteIdentifier q.settings mode a.1
  else do
    let column ← quoteIdentifier q.settings .strict a.1
    let empty := if q.isInsertLike then "DEFAULT".toList else "NULL".toList
    return column ++ " = ".toList ++ (← rightSide q.settings empty mode a.2)

/-- An assignment for a duplicate key. -/
def duplicateAssignment (s : Settings) (mode : QuoteMode) (a : Text × Assigned) :
    Except Error Text := do
  let column ← quoteIdentifier s .strict a.1
  return column ++ " = ".toList ++ (← rightSide s "DEFAULT".toList mode a.2)

/-- Assignments given as text. A SELECT is the query of an INSERT or REPLACE. -/
def ofAssignText (q : Query) (t : Text) (options : PartOptions) : Except Error Change := do
  if q.isInsertLike && StatementType.detect q.settings.dialect t == some .select then
    return single "query" options .append t
  else
    return single "set" options .append
      (← quoteIdentifier q.settings (options.quote.getD .smart) t)

/-- Rows given as text without parentheses. A replacement writes all of them at once. -/
def ofRows (rows : List Text) (options : PartOptions) : Change :=
  match options.placement.getD .append with
  | .replace =>
      ⟨"values", [(.replace, Text.joinWith [',', ' '] (rows.map Addition.parenthesize))]⟩
  | placement => ⟨"values", rows.map fun row => (placement, row)⟩

/-- A condition for a part, or no change if there is nothing to compare. -/
def ofCondition (part : String) (options : PartOptions) (condition : Text) : Option Change :=
  if condition.isEmpty then none else some (single part options .append condition)

/-- A row limit, which replaces the one that is there. -/
def ofLimit (rows offset : Nat) : Change :=
  let text :=
    if offset = 0 then Text.ofNat rows
    else Text.ofNat rows ++ " OFFSET ".toList ++ Text.ofNat offset
  ⟨"limit", [(.replace, text)]⟩

/-- The row limit of a page: as many rows as were passed on all pages before are left out. -/
def ofPage (page rows : UInt64) : Except Error Change :=
  let offset := rows.toNat * (page.toNat - 1)
  if offset < UInt64.size then .ok (ofLimit rows.toNat offset)
  else .error (.pageOutOfRange page.toNat rows.toNat)

/-- The row count of a limit given as text: the number behind the comma if there is one, else the
number in front. It is zero if there is none or it does not fit into 64 bits. -/
def rowCount (limit : Text) : UInt64 :=
  let rows := match limit.dropWhile (· ≠ ',') with
    | _ :: t => t
    | [] => limit
  (RowLimit.number? ((Text.trim rows).takeWhile Char.isDigit)).getD 0

end Change

namespace Mutation

/-- The change of a page; the current row count is read from the query. -/
def pageChange (page : UInt64) : Option UInt64 → Edit Change
  | some 0 => return Change.ofLimit 0 0
  | some count => Edit.ofExcept (Change.ofPage page count)
  | none => do
      let count := Change.rowCount (Parts.text (← Edit.parts) "limit")
      if count = 0 then throw .unknownRowCount
      Edit.ofExcept (Change.ofPage page count)

/-- The change that lets a duplicate key update every inserted column. There is none if the part
is written already. -/
def updateInsertedChange : Edit (Option Change) := do
  Edit.requirePart Query.duplicateKey
  let q ← get
  let pending := ((q.additions.get? Query.duplicateKey).getD {}).append.contains Query.updateMarker
  if pending then return none
  if (Parts.text (← Edit.parts) Query.duplicateKey).isEmpty then
    return some ⟨Query.duplicateKey, [(.append, Query.updateMarker)]⟩
  else return none

/-- The change that a mutation makes to a query. -/
def change? (m : Mutation) : Edit (Option Change) := do
  let q ← get
  let s := q.settings
  let make (c : Except Error Change) : Edit (Option Change) := do return some (← Edit.ofExcept c)
  match m with
  | table join name on o => make (Change.ofTable q join name on o)
  | columns cs o => make do
      return .single "columns" o .append (← Change.listed s o [] cs)
  | columnAs column newName => make do
      let column ← quoteIdentifier s .smart column
      let newName ← quoteIdentifier s .strict newName
      return .single "columns" {} .append (column ++ " AS ".toList ++ newName)
  | assign assignments o => make do
      let written ← assignments.mapM (Change.assignment q (o.quote.getD .smart))
      return .single "set" o .append (Text.joinWith [',', ' '] written)
  | assignText t o => make (Change.ofAssignText q t o)
  | rows values o =>
      let row (items : List Value) : Text :=
        Text.joinWith [',', ' '] (s.dialect.quoteValues "DEFAULT".toList items)
      return some (Change.ofRows (values.map row) o)
  | rowText row o => return some (Change.ofRows [row] o)
  | filter c o => do
      let condition ← Edit.ofExcept (buildCondition s (o.quote.getD .smart) c)
      return Change.ofCondition "where" o condition
  | filterAll cs => do
      let condition ← Edit.ofExcept (buildConditions s .smart cs)
      return Change.ofCondition "where" {} condition
  | having c o => do
      let condition ← Edit.ofExcept (buildCondition s (o.quote.getD .smart) c)
      return Change.ofCondition "having" o condition
  | groupBy cs o => make do
      return .single "group by" o .append (← Change.listed s o [] cs)
  | orderBy cs order o => make do
      return .single "order by" o .prepend (← Change.listed s o order.suffix cs)
  | limit count offset => return some (Change.ofLimit count.toNat offset.toNat)
  | limitText t => return some ⟨"limit", [(.replace, Text.trim t)]⟩
  | page number count => return some (← pageChange number count)
  | updateInserted => updateInsertedChange
  | updateInsertedColumns cs => make do
      let assignments ← cs.mapM (Query.insertedAssignment s)
      return .single Query.duplicateKey {} .append (Text.joinWith [',', ' '] assignments)
  | updateAssign assignments o => make do
      let written ← assignments.mapM (Change.duplicateAssignment s (o.quote.getD .smart))
      return .single Query.duplicateKey o .append (Text.joinWith [',', ' '] written)
  | options t o => return some (.single "options" o .append (Text.trim t))
  | bind _ | bindNamed _ => return none

/-- The values for placeholders that a mutation leaves. -/
def parameters (p : Parameters) : Mutation → Parameters
  | bind values => { p with positional := values }
  | bindNamed values =>
      { p with
        named := values.foldl (fun (m : OrderedMap Text Value) v => m.insert v.1 v.2) p.named }
  | _ => p

end Mutation

/-- Applies a mutation to a query. -/
def Edit.mutate (m : Mutation) : Edit Unit := do
  match ← m.change? with
  | some c => commit c
  | none => modify fun q => { q with parameters := m.parameters q.parameters }

end SqlStatement
