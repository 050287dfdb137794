import SqlStatement.Phrase

/-!
# Keywords of the dialects

The phrases that statements start with, the modifiers behind the statement
keyword, the keywords that the quoting of expressions leaves alone, and the
words of join syntax.
-/
namespace SqlStatement.Dialect

/-- Phrases of two words: each of the first behind each of the second. -/
def pairs (firsts seconds : List String) : List Phrase :=
  firsts.flatMap fun a => seconds.map fun b => [a, b]

/-- The phrases a statement may start with, in the order in which they are tried. -/
def statementPhrases (d : Dialect) : List Phrase :=
  [["SELECT"], ["INSERT"], ["REPLACE"], ["UPDATE"], ["DELETE"], ["TRUNCATE"], ["CALL"], ["DO"],
      ["HANDLER"]] ++
    (match d with
      | generic => []
      | mysql => [["LOAD", "DATA", "INFILE"], ["LOAD", "XML", "INFILE"]]) ++
    pairs ["ALTER", "CREATE", "DROP", "RENAME"]
      ["DATABASE", "TABLE", "VIEW", "FUNCTION", "PROCEDURE", "TRIGGER", "INDEX"] ++
    [["PREPARE"], ["EXECUTE"], ["DEALLOCATE", "PREPARE"], ["DESCRIBE"], ["EXPLAIN"], ["HELP"],
      ["USE"], ["LOCK", "TABLES"], ["UNLOCK", "TABLES"], ["SET"], ["SHOW"],
      ["START", "TRANSACTION"], ["BEGIN"], ["COMMIT"], ["ROLLBACK"], ["SAVEPOINT"],
      ["RELEASE", "SAVEPOINT"], ["CACHE", "INDEX"], ["FLUSH"], ["KILL"], ["LOAD"], ["RESET"],
      ["PURGE", "BINARY", "LOGS"], ["START", "SLAVE"], ["STOP", "SLAVE"]]

/-- The single keywords that expressions keep unquoted. -/
def expressionKeywords (d : Dialect) : List String :=
  ["NULL", "TRUE", "FALSE", "DEFAULT", "DIV", "AND", "OR", "XOR", "NOT", "IN", "IS", "BETWEEN",
      "LIKE", "MATCH", "AS", "CASE", "WHEN", "THEN", "END", "ASC", "DESC", "BINARY"] ++
    match d with
    | generic => []
    | mysql => ["RLIKE", "REGEXP"]

/-- Whether two words with blanks between them are a keyword that expressions keep unquoted. -/
def isKeywordPair (d : Dialect) (first second : Text) : Bool :=
  d == mysql && Text.isKeyword "SOUNDS" first && Text.isKeyword "LIKE" second

/-- The modifiers of SELECT. -/
def selectModifiers : Dialect → List Phrase
  | generic => [["ALL"], ["DISTINCT"], ["DISTINCTROW"]]
  | mysql => [["ALL"], ["DISTINCT"], ["DISTINCTROW"], ["HIGH_PRIORITY"], ["STRAIGHT_JOIN"],
      ["SQL_SMALL_RESULT"], ["SQL_BIG_RESULT"], ["SQL_BUFFER_RESULT"], ["SQL_CACHE"],
      ["SQL_NO_CACHE"], ["SQL_CALC_FOUND_ROWS"]]

/-- The modifiers of INSERT, REPLACE and UPDATE. -/
def insertModifiers : Dialect → List Phrase
  | generic => []
  | mysql => [["LOW_PRIORITY"], ["DELAYED"], ["HIGH_PRIORITY"], ["IGNORE"]]

/-- The modifiers of DELETE. -/
def deleteModifiers : Dialect → List Phrase
  | generic => []
  | mysql => [["LOW_PRIORITY"], ["QUICK"], ["IGNORE"]]

/-- The word that ends join syntax. -/
def joinHeads : Dialect → List String
  | generic => ["JOIN"]
  | mysql => ["STRAIGHT_JOIN", "JOIN"]

/-- The words that end an alias or a join condition in a table list. -/
def joinWords (d : Dialect) : List String :=
  ["NATURAL", "LEFT", "RIGHT", "INNER", "CROSS", "OUTER"] ++ d.joinHeads

end SqlStatement.Dialect
