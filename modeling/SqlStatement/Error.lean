import SqlStatement.Text.Word

/-!
# Errors

Every error names its cause and carries what its message needs. The texts that
are reported are written in `Error.message` and nowhere else.
-/
namespace SqlStatement

/-- What a reader wanted from a part that the statement does not have. -/
inductive Wanted where
  | columns
  | assignments
  | tables
  | rows
  | rowLimit
  | part (key : String)
  deriving DecidableEq, Repr

/-- Why a statement could not be split, quoted, read or built. -/
inductive Error where
  /-- The text does not start with a known statement keyword. -/
  | unrecognized (statement : Text)
  /-- Statements of this type are known but have no parts. -/
  | unsplittable (type : Text)
  /-- The clauses do not fit the pattern of the statement's family. -/
  | invalidSyntax (family : String) (statement : Text)
  /-- The expression cannot be quoted safely. -/
  | unsafeIdentifier (expression : Text)
  /-- Statements of this type lack the part that was asked for. -/
  | missingPart (type : Text) (wanted : Wanted)
  /-- The text is no row limit. -/
  | invalidLimit (text : Text)
  /-- The text is no literal. -/
  | invalidValue (text : Text)
  /-- No dialect has this name. -/
  | unsupportedDialect (name : Text)
  /-- Groups or subqueries nest deeper than the limit. -/
  | nestingTooDeep (limit : Nat)
  /-- The statement has fewer subqueries. -/
  | subqueryOutOfRange (index count : Nat)
  /-- Statements of this type touch no table whose rows could be counted. -/
  | uncountable (type : Text)
  /-- A join was given for a table that replaces the others. -/
  | joinWhileReplacing (join : Text)
  /-- The current row limit has no row count to page by. -/
  | unknownRowCount
  /-- The first row of the page is past the largest offset. -/
  | pageOutOfRange (page rows : Nat)
  /-- The dialect has no REPLACE statement. -/
  | replaceUnavailable
  /-- A savepoint name has other characters than those of words. -/
  | invalidSavepoint
  deriving DecidableEq, Repr

namespace Error

/-- The text that reports a missing part. -/
def missingPartMessage (type : Text) : Wanted → Text
  | .columns => "It's not possible to extract columns of a ".toList ++ type ++ " query.".toList
  | .assignments =>
      "It's not possible to extract the set part of a ".toList ++ type ++ " query.".toList
  | .tables => "It's not possible to extract tables of a ".toList ++ type ++ " query.".toList
  | .rows => "It's not possible to extract values of a ".toList ++ type ++ " query.".toList
  | .rowLimit => "A ".toList ++ type ++ " query doesn't have a LIMIT part.".toList
  | .part key =>
      "A ".toList ++ type ++ " query doesn't have a ".toList ++ key.toList ++ " part".toList

/-- The text that reports an error. -/
def message : Error → Text
  | unrecognized statement => "Unable to split query: ".toList ++ statement
  | unsplittable type => "Unable to split ".toList ++ type ++ " query.".toList
  | invalidSyntax family statement =>
      "Unable to split ".toList ++ family.toList ++ " query, invalid syntax: ".toList ++ statement
  | unsafeIdentifier expression =>
      "Unable to quote '".toList ++ expression ++ "' safely".toList
  | missingPart type wanted => missingPartMessage type wanted
  | invalidLimit text => "Invalid limit statement '".toList ++ text ++ "'".toList
  | invalidValue text => "Unable to convert '".toList ++ text ++ "' to a value".toList
  | unsupportedDialect name => "Unsupported SQL dialect '".toList ++ name ++ "'".toList
  | nestingTooDeep limit =>
      "Statement nesting exceeds the limit of ".toList ++ Text.ofNat limit ++ " levels".toList
  | subqueryOutOfRange index count =>
      "Unable to get subquery #".toList ++ Text.ofNat index ++ ": query only has ".toList ++
        Text.ofNat count ++ " subqueries".toList
  | uncountable type => "Unable to count rows for ".toList ++ type ++ " query.".toList
  | joinWhileReplacing join => join ++ " specified when replacing the table".toList
  | unknownRowCount => "Unable to set limit offset: rowcount couldn't be determined".toList
  | pageOutOfRange page rows =>
      "Unable to set limit offset: page ".toList ++ Text.ofNat page ++ " of ".toList ++
        Text.ofNat rows ++ " rows is out of range".toList
  | replaceUnavailable => "REPLACE query is only available for MySQL".toList
  | invalidSavepoint => "Savepoint identifier must be alphanumeric".toList

/-- The expression could not be quoted safely. -/
def isUnsafeIdentifier : Error → Bool
  | unsafeIdentifier _ => true
  | _ => false

/-- The statement has no parts at all. -/
def isUnsupported : Error → Bool
  | unrecognized _ | unsplittable _ => true
  | _ => false

/-- The clauses of the statement do not fit its pattern. -/
def isInvalidSyntax : Error → Bool
  | invalidSyntax _ _ => true
  | _ => false

/-- The part that was asked for does not exist. -/
def isMissingPart : Error → Bool
  | missingPart _ _ => true
  | _ => false

end Error
end SqlStatement
