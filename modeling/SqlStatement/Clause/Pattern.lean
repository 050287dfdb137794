import SqlStatement.Clause.Search

/-!
# Statement patterns

The clauses of each type of statement in order. A statement that does not fit
its pattern is reported under the name of its family.
-/
namespace SqlStatement

/-- The clauses of a type of statement, and the name under which a failure is reported. -/
structure Pattern where
  family : String
  steps : List Step
  /-- Whether parenthesised queries are hidden while the statement is matched. -/
  hidesSubqueries : Bool

namespace Pattern

/-- The keywords that begin the options at the end of a SELECT. -/
def optionKeywords : List Phrase :=
  [["PROCEDURE"], ["INTO"], ["FOR", "UPDATE"], ["LOCK", "IN", "SHARE", "MODE"],
    ["LOCK", "IN", "SHAREMODE"], ["CASCADE", "ON"], ["CASCADEON"]]

/-- The pattern of INSERT and REPLACE; `key` is the key of the first part. -/
def insertLike (d : Dialect) (key : String) : Pattern where
  family := "INSERT/REPLACE"
  steps :=
    [.lead [["INSERT"], ["REPLACE"]], .modifiers key d.insertModifiers none,
      .clause "into" ["INTO"], .columnList "columns", .clause "set" ["SET"],
      .rows "values" ["VALUES"], .query "query",
      .clause "on duplicate key update" ["ON", "DUPLICATE", "KEY", "UPDATE"], .finish]
  hidesSubqueries := false

/-- The pattern of a type of statement, if it has parts. -/
def ofType? (d : Dialect) : StatementType → Option Pattern
  | .select => some {
      family := "SELECT"
      steps :=
        [.lead [["SELECT"]], .modifiers "select" d.selectModifiers none, .value "columns",
          .clause "from" ["FROM"], .clause "where" ["WHERE"], .clause "group by" ["GROUP", "BY"],
          .clause "having" ["HAVING"], .clause "order by" ["ORDER", "BY"],
          .clause "limit" ["LIMIT"], .options "options" optionKeywords, .finish]
      hidesSubqueries := true }
  | .insert => some (insertLike d "insert")
  | .replace => some (insertLike d "replace")
  | .update => some {
      family := "UPDATE"
      steps :=
        [.lead [["UPDATE"]], .modifiers "update" d.insertModifiers none, .value "table",
          .clause "set" ["SET"], .clause "where" ["WHERE"], .clause "limit" ["LIMIT"], .finish]
      hidesSubqueries := true }
  | .delete => some {
      family := "DELETE"
      steps :=
        [.lead [["DELETE"]], .modifiers "delete" d.deleteModifiers none, .value "columns",
          .clause "from" ["FROM"], .clause "where" ["WHERE"], .clause "order by" ["ORDER", "BY"],
          .clause "limit" ["LIMIT"], .finish]
      hidesSubqueries := true }
  | .truncate => some {
      family := "TRUNCATE"
      steps :=
        [.lead [["TRUNCATE"]], .modifiers "truncate" [["TABLE"]] (some 1), .value "table", .finish]
      hidesSubqueries := false }
  | .set => some {
      family := "SET"
      steps := [.lead [["SET"]], .value "set", .finish]
      hidesSubqueries := false }
  | .other _ => none

/-- The parts of a text by a pattern; `statement` is what a failure reports. -/
def parts (p : Pattern) (d : Dialect) (statement text : Text) : Except Error Parts :=
  match matchSteps d p.steps text with
  | some captures => .ok ⟨captures⟩
  | none => .error (.invalidSyntax p.family statement)

end Pattern
end SqlStatement
