import SqlStatement.Dialect.Keyword

/-!
# Types of statements

The type of a statement is read off the phrase it starts with. Seven types can
be split into parts; the others are known by their phrase only.
-/
namespace SqlStatement

/-- The type of a statement. -/
inductive StatementType where
  | select
  | insert
  | replace
  | update
  | delete
  | truncate
  | set
  /-- A statement that has no parts, such as ALTER TABLE or BEGIN. -/
  | other (phrase : Text)
  deriving DecidableEq, Repr

namespace StatementType

/-- The type of an upper-case phrase with single spaces. -/
def ofPhrase (phrase : Text) : StatementType :=
  if phrase = "SELECT".toList then select
  else if phrase = "INSERT".toList then insert
  else if phrase = "REPLACE".toList then replace
  else if phrase = "UPDATE".toList then update
  else if phrase = "DELETE".toList then delete
  else if phrase = "TRUNCATE".toList then truncate
  else if phrase = "SET".toList then set
  else other phrase

/-- The phrase of a type. -/
def phrase : StatementType → Text
  | select => "SELECT".toList
  | insert => "INSERT".toList
  | replace => "REPLACE".toList
  | update => "UPDATE".toList
  | delete => "DELETE".toList
  | truncate => "TRUNCATE".toList
  | set => "SET".toList
  | other p => p

/-- The phrase of a type as messages show it, empty where there is no type. -/
def shown : Option StatementType → Text
  | some t => t.phrase
  | none => []

/-- INSERT and REPLACE share their clauses. -/
def isInsertLike : StatementType → Bool
  | insert | replace => true
  | _ => false

/-- The type of a statement, if it starts with a known phrase. -/
def detect (d : Dialect) (statement : Text) : Option StatementType :=
  let ts := Token.skipSpace (Token.ofText d statement)
  (d.statementPhrases.find? fun p => (p.after? ts).isSome).map fun p => ofPhrase p.text

end StatementType
end SqlStatement
