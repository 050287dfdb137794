import SqlStatement.Error

/-!
# Dialects

Two dialects differ in their quote characters, in the escapes of string
literals, in whether names may start with digits, and in a few keywords. The
keyword tables stand in `SqlStatement.Dialect.Keyword`.
-/
namespace SqlStatement

/-- How a quote character is written inside a quoted literal. -/
inductive Escape where
  /-- There is no way: the literal ends at the next quote. -/
  | never
  /-- The quote is written twice. -/
  | doubling
  /-- A backslash takes the next character as it is; the quote may also be written twice. -/
  | backslash
  deriving DecidableEq, Repr

/-- A dialect of SQL. -/
inductive Dialect where
  | generic
  | mysql
  deriving DecidableEq, Repr

namespace Dialect

/-- The name a dialect is configured by. -/
def key : Dialect → String
  | generic => "generic"
  | mysql => "mysql"

/-- The dialect configured by a name; `ansi` is another name of the generic dialect. -/
def ofKey? (key : String) : Option Dialect :=
  if key = "mysql" then some mysql
  else if key = "generic" ∨ key = "ansi" then some generic
  else none

/-- The name a dialect is shown by. -/
def name : Dialect → String
  | generic => "ANSI"
  | mysql => "MySQL"

/-- Finds a dialect by name; `ansi` is another name of the generic dialect. -/
def ofName? (name : Text) : Option Dialect :=
  let n := Text.trim name
  if Text.isAnyKeyword ["GENERIC", "ANSI"] n then some generic
  else if Text.isKeyword "MYSQL" n then some mysql
  else none

/-- Finds a dialect by name, or says that there is none. -/
def ofName (name : Text) : Except Error Dialect :=
  match ofName? name with
  | some d => .ok d
  | none => .error (.unsupportedDialect name)

/-- The quote string literals are written with. -/
def stringQuote : Dialect → Char := fun _ => '\''

/-- The quote of identifiers. -/
def identifierQuote : Dialect → Char
  | generic => '"'
  | mysql => '\x60'

/-- The quotes a string literal may have. -/
def isStringQuote : Dialect → Char → Bool
  | generic, c => c == '\''
  | mysql, c => c == '\'' || c == '"'

/-- A character that opens a literal, be it a string or an identifier. -/
def isQuote (d : Dialect) (c : Char) : Bool :=
  c == d.identifierQuote || d.isStringQuote c

/-- The escapes of string literals. -/
def stringEscape : Dialect → Escape
  | generic => .doubling
  | mysql => .backslash

/-- Whether a word is a name: it has a letter or an underscore, in the generic dialect as its
first character. -/
def isName : Dialect → Text → Bool
  | generic, c :: _ => Text.isNameStart c
  | generic, [] => false
  | mysql, w => w.any Text.isNameStart

end Dialect

/-- A dialect together with the depth to which groups and subqueries may nest. A limit of
zero still allows the statement itself. -/
structure Settings where
  dialect : Dialect := .mysql
  maxNesting : Nat := 32
  deriving DecidableEq, Repr

/-- The settings for a dialect given by name. -/
def Settings.ofName (name : Text) : Except Error Settings :=
  (Dialect.ofName name).map fun d => { dialect := d }

end SqlStatement
