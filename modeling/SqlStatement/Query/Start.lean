import SqlStatement.Query.Mutation

/-!
# Starting a query

Queries that begin with an empty statement of some type, and the statements
that control transactions.
-/
namespace SqlStatement.Query

/-- A query with one mutation made to it. -/
def withMutation (q : Query) (m : Mutation) : Except Error Query :=
  match (Edit.mutate m).run q with
  | .ok _ q => .ok q
  | .error e _ => .error e

/-- A SELECT of columns; without columns it selects all. -/
def select (s : Settings) (columns : List Text) : Except Error Query :=
  let q := ofStatement s "SELECT".toList
  if columns.isEmpty then .ok q else q.withMutation (.columns columns {})

/-- A SELECT that counts rows. -/
def countRows (s : Settings) : Query := ofStatement s "SELECT COUNT(*)".toList

/-- An INSERT. -/
def insert (s : Settings) : Query := ofStatement s "INSERT INTO".toList

/-- A REPLACE, which the generic dialect does not have. -/
def replace (s : Settings) : Except Error Query :=
  match s.dialect with
  | .mysql => .ok (ofStatement s "REPLACE INTO".toList)
  | .generic => .error .replaceUnavailable

/-- An INSERT that updates every inserted column on a duplicate key. -/
def upsert (s : Settings) : Except Error Query := (insert s).withMutation .updateInserted

/-- An UPDATE, of a table if one is given. -/
def update (s : Settings) (table : Option Text) : Except Error Query :=
  let q := ofStatement s "UPDATE".toList
  match table with
  | some t => q.withMutation (.table [] t [] {})
  | none => .ok q

/-- A DELETE. -/
def delete (s : Settings) : Query := ofStatement s "DELETE".toList

/-- The start of a transaction. -/
def begin (s : Settings) : Query := ofStatement s "BEGIN".toList

/-- The end of a transaction. -/
def commit (s : Settings) : Query := ofStatement s "COMMIT".toList

/-- A statement with the name of a savepoint, which is a word. -/
def naming (s : Settings) (statement : String) (savepoint : Text) : Except Error Query :=
  if !savepoint.isEmpty && savepoint.all Text.isWordChar then
    .ok (ofStatement s (statement.toList ++ ' ' :: savepoint))
  else .error .invalidSavepoint

/-- Sets a savepoint. -/
def savepoint (s : Settings) (name : Text) : Except Error Query := naming s "SAVEPOINT" name

/-- Goes back to the start of the transaction or to a savepoint. -/
def rollback (s : Settings) : Option Text → Except Error Query
  | some name => naming s "ROLLBACK TO" name
  | none => .ok (ofStatement s "ROLLBACK".toList)

end SqlStatement.Query
