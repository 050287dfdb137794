import SqlStatement.Query.Compose

/-!
# Editing a query

An edit reads and changes a query and may fail; what it has done to the query
until then stays. Readers keep what they have worked out in the memo of the
query. A query with subqueries taken out keeps nothing, since those can change
on their own.
-/
namespace SqlStatement

/-- An action on a query that may fail. -/
abbrev Edit := EStateM Error Query

namespace Edit

/-- A result that may be an error, as an edit that leaves the query alone. -/
def ofExcept {α : Type} : Except Error α → Edit α
  | .ok a => pure a
  | .error e => throw e

/-- Changes the memo if the query keeps one. -/
def remember (change : Memo → Memo) : Edit Unit :=
  modify fun q => if q.attached.isEmpty then { q with memo := change q.memo } else q

/-- Forgets what depends on the changes of the query. -/
def forget : Edit Unit :=
  modify fun q => { q with memo := { base := q.memo.base } }

/-- The parts of the statement before the changes of the query. -/
def baseParts : Edit Parts := do
  let q ← get
  match q.memo.base with
  | some ps => return ps
  | none =>
      let ps ← ofExcept q.baseParts
      remember ({ · with base := some ps })
      return ps

/-- The parts with all changes. -/
def parts : Edit Parts := do
  let q ← get
  match q.memo.composed with
  | some ps => return ps
  | none =>
      let base ← baseParts
      let ps ← ofExcept (q.composeFrom base)
      remember ({ · with composed := some ps })
      return ps

/-- The statement written from the parts with all changes. -/
def written : Edit Text := do
  let q ← get
  match q.memo.written with
  | some t => return t
  | none =>
      let t := Parts.join (← parts)
      remember ({ · with written := some t })
      return t

/-- The statement with all changes and with literals in place of placeholders. -/
def toSql : Edit Text := do
  let q ← get
  if q.isMutated then return q.bound (← written)
  else return q.bound (← ofExcept q.baseText)

/-- Fails unless the statement has a part. -/
def requirePart (key : String) : Edit Unit := do
  let base ← baseParts
  let q ← get
  unless base.contains key do
    throw (.missingPart (StatementType.shown q.type?) (.part key))

end Edit
end SqlStatement
