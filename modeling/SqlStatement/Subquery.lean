import SqlStatement.Nesting
import SqlStatement.Clause.Pattern

/-!
# Subqueries behind markers

A group that starts with SELECT is a subquery. Extraction takes the content of
every subquery out of a statement and leaves a marker with its number in its
place; subqueries in subqueries are taken out too. The statement is number 0,
and numbers follow the opening parentheses from left to right. Injection puts
the texts back.
-/
namespace SqlStatement

namespace Nesting

/-- The characters in front of the first literal or group. -/
def leading : Nesting → Text
  | piece (.char c) rest => c :: rest.leading
  | _ => []

/-- Whether the text starts with the word SELECT, behind blanks. -/
def startsQuery (n : Nesting) : Bool := Text.startsWithKeyword "SELECT" n.leading

/-- Whether there is a subquery at any depth. -/
def hasSubquery : Nesting → Bool
  | done => false
  | piece _ rest => rest.hasSubquery
  | group inner rest => inner.startsQuery || inner.hasSubquery || rest.hasSubquery

end Nesting

namespace Subquery

/-- The marker of a subquery. -/
def marker (number : Nat) : Text := '#' :: 's' :: 'u' :: 'b' :: Text.ofNat number

/-- A statement with markers in place of its subqueries, and the subqueries by number from 1. -/
structure Extraction where
  outer : Text
  subqueries : List Text := []
  deriving DecidableEq, Repr

/-- All texts of an extraction; the statement is number 0. -/
def Extraction.sets (e : Extraction) : List Text := e.outer :: e.subqueries

/-- Takes the subqueries out of a nesting. `room` is the number of levels that may still be
entered, and `next` the number of the first subquery. -/
def takeOut (limit : Nat) : Nesting → Nat → Nat → Except Error Extraction
  | .done, _, _ => .ok { outer := [] }
  | .piece p rest, room, next => do
      let r ← takeOut limit rest room next
      return { r with outer := p.text ++ r.outer }
  | .group inner rest, room, next =>
      if inner.startsQuery then
        match room with
        | 0 => .error (.nestingTooDeep limit)
        | below + 1 => do
            let i ← takeOut limit inner below (next + 1)
            let r ← takeOut limit rest room (next + 1 + i.subqueries.length)
            return {
              outer := '(' :: (marker next ++ ')' :: r.outer)
              subqueries := i.outer :: (i.subqueries ++ r.subqueries) }
      else do
        let i ← takeOut limit inner room next
        let r ← takeOut limit rest room (next + i.subqueries.length)
        return {
          outer := '(' :: (i.outer ++ ')' :: r.outer)
          subqueries := i.subqueries ++ r.subqueries }

/-- Whether the word SELECT, in any case and also as a piece of another word, begins behind the
given number of bytes of the text in UTF-8. -/
def mentionsSelect : Nat → Text → Bool
  | _, [] => false
  | bytes, c :: rest =>
      (bytes == 0 && Text.isKeyword "SELECT" ((c :: rest).take 6)) ||
        mentionsSelect (bytes - c.utf8Size) rest

/-- The bytes at the start of a statement in which no SELECT is looked for. -/
def headBytes : Nat := 6

/-- The query part of an INSERT or REPLACE, if the statement has one, with all its parts. -/
def insertedQuery? (s : Settings) (statement : Text) : Except Error (Option (Parts × Text)) :=
  match (StatementType.detect s.dialect statement).filter StatementType.isInsertLike with
  | none => .ok none
  | some type =>
      match Pattern.ofType? s.dialect type with
      | none => .ok none
      | some pattern => do
          let parts ← pattern.parts s.dialect statement statement
          if Parts.hasText parts "query" then return some (parts, Parts.text parts "query")
          else return none

/-- Takes the subqueries out of a statement. A query that an INSERT or REPLACE takes its rows
from is a subquery too, the first one; the statement is then written again from its parts. -/
def extract (s : Settings) (statement : Text) : Except Error Extraction := do
  if mentionsSelect headBytes statement then
    match ← insertedQuery? s statement with
    | none => takeOut s.maxNesting (Nesting.ofText s.dialect statement) s.maxNesting 1
    | some (parts, query) =>
        match s.maxNesting with
        | 0 => .error (.nestingTooDeep 0)
        | below + 1 => do
            let q ← takeOut s.maxNesting (Nesting.ofText s.dialect query) below 2
            let outer := Parts.join (parts.insert "query" (marker 1))
            let r ← takeOut s.maxNesting (Nesting.ofText s.dialect outer) s.maxNesting
              (2 + q.subqueries.length)
            return { outer := r.outer, subqueries := q.outer :: (q.subqueries ++ r.subqueries) }
  else return { outer := statement }

/-- The number that a word behind `#` marks, and what is left of the word. -/
def markedNumber? (w : Text) : Option (Nat × Text) :=
  if w.take 3 = ['s', 'u', 'b'] then
    let digits := (w.drop 3).takeWhile Char.isDigit
    if digits.isEmpty then none
    else some (Text.digitsValue digits, (w.drop 3).dropWhile Char.isDigit)
  else none

/-- The text for the marker in a word behind `#`, if there is a set with that number. -/
def replacement? (sets : List Text) (w : Text) : Option Text :=
  match markedNumber? w with
  | some (number, rest) => if number = 0 then none else sets[number]?.map (· ++ rest)
  | none => none

/-- Puts texts in place of the markers outside literals, and says whether there was any. -/
def fill (sets : List Text) : List Token → Text × Bool
  | [] => ([], false)
  | .symbol '#' :: .word w :: ts =>
      let r := fill sets ts
      match replacement? sets w with
      | some t => (t ++ r.1, true)
      | none => ('#' :: (w ++ r.1), r.2)
  | t :: ts =>
      let r := fill sets ts
      (t.text ++ r.1, r.2)

/-- Fills markers until none is left or the passes are used up. -/
def fillAll (d : Dialect) (sets : List Text) : Nat → Text → Text
  | 0, t => t
  | passes + 1, t =>
      match fill sets (Token.ofText d t) with
      | (filled, true) => fillAll d sets passes filled
      | (_, false) => t

/-- Puts the subqueries back into a text. Every pass fills one level. -/
def injectInto (d : Dialect) (sets : List Text) (t : Text) : Text :=
  fillAll d sets (sets.length + 1) t

/-- Puts the subqueries back into the statement they were taken from. -/
def inject (d : Dialect) : List Text → Text
  | [] => []
  | [t] => t
  | t :: ts => injectInto d (t :: ts) t

/-- Puts the subqueries back into every part. -/
def injectParts (d : Dialect) (sets : List Text) (parts : Parts) : Parts :=
  if sets.length < 2 then parts else parts.mapValues (injectInto d sets)

end Subquery
end SqlStatement
