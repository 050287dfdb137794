import SqlStatement.Expression.Smart
import SqlStatement.Identifier

/-!
# Quoting modes

Whatever a caller passes as a column, a table or an expression is quoted in one
of four modes before it is written into a part.
-/
namespace SqlStatement

/-- How the identifiers of an expression are quoted. -/
inductive QuoteMode where
  /-- The expression is taken as it is. -/
  | none
  /-- Names are quoted; keywords, literals and function names are not. -/
  | smart
  /-- Every bare word that is no keyword is quoted, function names included. -/
  | words
  /-- The whole expression is one dotted path. -/
  | strict
  deriving DecidableEq, Repr

/-- Quotes the identifiers of an expression. The modes that read an expression refuse one with an
unclosed literal or parentheses that do not pair up. -/
def quoteIdentifier (s : Settings) : QuoteMode → Text → Except Error Text
  | .none, t => .ok t
  | .strict, t => s.dialect.quotePath t
  | .words, t =>
      if s.dialect.isBalanced t then .ok (s.dialect.quoteWords t) else .error (.unsafeIdentifier t)
  | .smart, t =>
      if s.dialect.isBalanced t then quoteSmart s t else .error (.unsafeIdentifier t)

end SqlStatement
