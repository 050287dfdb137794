import SqlStatement.Parts

/-!
# Row limits

A limit is written as a row count alone, as a row count with an offset behind
OFFSET, or as an offset and a row count with a comma between them.
-/
namespace SqlStatement

/-- How many rows are returned, and how many are passed over before them. -/
structure RowLimit where
  rows : Option UInt64 := none
  offset : Option UInt64 := none
  deriving DecidableEq, Repr

namespace RowLimit

/-- The number written by digits alone, if it fits into 64 bits. -/
def number? (digits : Text) : Option UInt64 :=
  if digits.isEmpty || !digits.all Char.isDigit then none
  else
    let n := Text.digitsValue digits
    if n < UInt64.size then some (UInt64.ofNat n) else none

/-- What stands behind the word OFFSET, if a text starts with it and blanks on both sides. -/
def behindOffset? (t : Text) : Option Text :=
  if (t.head?.any Text.isBlank) then
    let word := Text.skipBlanks t
    let rest := word.drop 6
    if Text.isKeyword "OFFSET" (word.take 6) && rest.head?.any Text.isBlank then
      some (Text.skipBlanks rest)
    else none
  else none

/-- The limit that a text without white characters at its ends writes. -/
def ofTrimmed? (t : Text) : Option RowLimit := do
  let first ← number? (t.takeWhile Char.isDigit)
  let rest := t.dropWhile Char.isDigit
  match behindOffset? rest, Text.skipBlanks rest with
  | some offset, _ => return { rows := some first, offset := some (← number? offset) }
  | none, [] => return { rows := some first }
  | none, ',' :: rows =>
      return { rows := some (← number? (Text.skipBlanks rows)), offset := some first }
  | none, _ => none

/-- Reads a limit; a text of white characters alone is no limit at all. -/
def ofText (t : Text) : Except Error RowLimit :=
  let trimmed := Text.trim t
  if trimmed.isEmpty then .ok {}
  else
    match ofTrimmed? trimmed with
    | some limit => .ok limit
    | none => .error (.invalidLimit trimmed)

end RowLimit

/-- The limit in the `limit` part. -/
def splitLimit (ps : Parts) : Except Error RowLimit := do
  RowLimit.ofText (← Parts.require ps "limit" .rowLimit)

end SqlStatement
