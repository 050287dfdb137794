import SqlStatement.Condition
import SqlStatement.Merge
import SqlStatement.Split

/-!
# Queries

A query keeps the statement it was made from and records changes beside it:
replacements of parts, fragments to merge into parts, values for placeholders,
and subqueries that have changes of their own. What has been worked out of
these is kept in a memo until something changes.
-/
namespace SqlStatement

/-- Where a fragment goes, seen from the text that is there. -/
inductive Placement where
  | prepend
  | append
  | replace
  deriving DecidableEq, Repr

/-- Placement and quoting of a change, where they differ from what is usual for it. -/
structure PartOptions where
  placement : Option Placement := none
  quote : Option QuoteMode := none
  deriving DecidableEq, Repr

/-- The direction of an ordering. -/
inductive SortOrder where
  | unspecified
  | ascending
  | descending
  deriving DecidableEq, Repr

/-- What stands behind an ordered column. -/
def SortOrder.suffix : SortOrder → Text
  | unspecified => []
  | ascending => " ASC".toList
  | descending => " DESC".toList

/-- The right side of an assignment: a value, or an expression whose names are quoted. -/
inductive Assigned where
  | value (v : Value)
  | expression (t : Text)
  deriving Repr

/-- Results worked out of a query: the parts of its statement, the parts with all changes, and the
statement written from those. -/
structure Memo where
  base : Option Parts := none
  composed : Option Parts := none
  written : Option Text := none
  deriving Repr

/-- A statement with recorded changes. -/
structure Query where
  statement : Text
  settings : Settings
  replacements : OrderedMap String Text := ⟨[]⟩
  additions : OrderedMap String Addition := ⟨[]⟩
  parameters : Parameters := {}
  /-- Subqueries with their numbers, in the order in which they were last taken out. -/
  attached : List (Nat × Query) := []
  memo : Memo := {}
  deriving Repr

namespace Query

/-- A query without changes. -/
def ofStatement (settings : Settings) (statement : Text) : Query := { statement, settings }

/-- The type of the statement. -/
def type? (q : Query) : Option StatementType := StatementType.detect q.settings.dialect q.statement

/-- Whether the statement is an INSERT or REPLACE. -/
def isInsertLike (q : Query) : Bool := q.type?.any StatementType.isInsertLike

/-- Whether there are replacements or fragments. -/
def isMutated (q : Query) : Bool := !q.replacements.isEmpty || !q.additions.isEmpty

/-- The query without its changes. -/
def base (q : Query) : Query := ofStatement q.settings q.statement

end Query
end SqlStatement
