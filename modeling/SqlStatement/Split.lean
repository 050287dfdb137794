import SqlStatement.Subquery

/-!
# Splitting a statement

A statement is matched with the pattern of its type. Parenthesised queries are
hidden behind markers meanwhile, so that their clauses do not count, and stand
in the parts as they were afterwards.
-/
namespace SqlStatement

/-- The parts of a text by a pattern, with subqueries hidden while it is matched. -/
def Pattern.partsAround (p : Pattern) (s : Settings) (statement : Text) : Except Error Parts :=
  if (Nesting.ofText s.dialect statement).hasSubquery then do
    let e ← Subquery.extract s statement
    let parts ← p.parts s.dialect statement e.outer
    return Subquery.injectParts s.dialect e.sets parts
  else p.parts s.dialect statement statement

/-- Splits a statement into parts. Every part of its type is there, in clause order; clauses that
the statement does not have are empty. -/
def split (s : Settings) (statement : Text) : Except Error Parts :=
  match StatementType.detect s.dialect statement with
  | none => .error (.unrecognized statement)
  | some type =>
      match Pattern.ofType? s.dialect type with
      | none => .error (.unsplittable type.phrase)
      | some p =>
          if p.hidesSubqueries then p.partsAround s statement
          else p.parts s.dialect statement statement

end SqlStatement
