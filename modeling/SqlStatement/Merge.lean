import SqlStatement.Identifier
import SqlStatement.Parts

/-!
# Merging fragments into parts

Fragments are put in front of and behind the text of a part. How they are
joined depends on the part: as a list with commas, as rows in parentheses, as a
chain of tables, as conditions that all have to hold, or with spaces.
-/
namespace SqlStatement

/-- Fragments to put in front of a part and behind it. -/
structure Addition where
  prepend : List Text := []
  append : List Text := []
  deriving DecidableEq, Repr

namespace Addition

/-- The text of a part among its fragments, left out if it is empty. -/
def chain (a : Addition) (current : Text) : List Text :=
  a.prepend ++ (if current.isEmpty then [] else [current]) ++ a.append

/-- A text in parentheses. -/
def parenthesize (t : Text) : Text := '(' :: (t ++ [')'])

/-- Fragments in front, the text itself and fragments behind, with spaces in between. -/
def spaced (a : Addition) (current : Text) : Text :=
  (if a.prepend.isEmpty then [] else Text.joinWith [' '] a.prepend ++ [' ']) ++ current ++
    (if a.append.isEmpty then [] else ' ' :: Text.joinWith [' '] a.append)

/-- Rows in parentheses among the rows that are there. -/
def rows (a : Addition) (current : Text) : Text :=
  Text.joinWith [',', ' '] <|
    a.prepend.map parenthesize ++ (if current.isEmpty then [] else [current]) ++
      a.append.map parenthesize

/-- A chain of tables. Tables that are there already become a group, unless they are a single
name. -/
def tables (d : Dialect) (a : Addition) (current : Text) : Text :=
  let existing :=
    if current.isEmpty || d.isIdentifier current then current else parenthesize current
  Text.trimWhere (fun c => c == ' ' || c == ',') (a.spaced existing)

/-- Conditions that all have to hold, each in parentheses if there are several. -/
def conditions? (a : Addition) (current : Text) : Option Text :=
  match a.chain current with
  | [] => none
  | [only] => some only
  | several => some (parenthesize (Text.joinWith ") AND (".toList several))

/-- The text of a part with fragments merged into it, if there is anything to write. -/
def merge? (d : Dialect) (key : String) (a : Addition) (current : Text) : Option Text :=
  if key ∈ ["columns", "set", "group by", "order by"] then
    some (Text.joinWith [',', ' '] (a.chain current))
  else if key = "values" then some (a.rows current)
  else if key ∈ ["from", "into", "table"] then some (tables d a current)
  else if key ∈ ["where", "having"] then a.conditions? current
  else some (a.spaced current)

end Addition

/-- Merges fragments into the parts of their keys. A part that does not exist yet goes last. -/
def addParts (d : Dialect) (ps : Parts) (additions : OrderedMap String Addition) : Parts :=
  additions.toList.foldl
    (fun (merged : Parts) (p : String × Addition) =>
      match p.2.merge? d p.1 (Text.trim (Parts.text ps p.1)) with
      | some t => merged.insert p.1 t
      | none => merged)
    ps

end SqlStatement
