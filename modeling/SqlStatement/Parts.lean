import SqlStatement.OrderedMap
import SqlStatement.StatementType

/-!
# Parts of a statement

A statement is taken apart into named parts in clause order. The first key
names the statement itself, so it tells the type. `Parts.join` writes parts as
a statement; it checks nothing and writes them as they are.
-/
namespace SqlStatement

/-- Named parts in the order in which they are written. -/
abbrev Parts := OrderedMap String Text

namespace Parts

/-- The type named by the first key. -/
def type? (ps : Parts) : Option StatementType :=
  ps.keys.head?.map fun key => StatementType.ofPhrase (Text.upper key.toList)

/-- The text of a part, empty if there is no such part. -/
def text (ps : Parts) (key : String) : Text := (ps.get? key).getD []

/-- Whether a part is there with more than white characters in it. -/
def hasText (ps : Parts) (key : String) : Bool := !(Text.trim (text ps key)).isEmpty

/-- The text of a part, or the report that this type of statement lacks it. -/
def require (ps : Parts) (key : String) (wanted : Wanted) : Except Error Text :=
  match ps.get? key with
  | some t => .ok t
  | none => .error (.missingPart (StatementType.shown (type? ps)) wanted)

/-- The parts that are written without their key in front. -/
def unprefixed : List String := ["columns", "query", "table", "options"]

/-- The characters that a part loses at both ends when it is written. -/
def isPadding (c : Char) : Bool := c == ' ' || c == '\t' || c == '\n' || c == ','

/-- A part as it is written: its key in upper case and its text, or only one of them. -/
def fragment (insertLike : Bool) (key : String) (text : Text) : Text :=
  let body := if insertLike && key == "columns" then '(' :: (text ++ [')']) else text
  if key ∈ unprefixed then body
  else if body.isEmpty then Text.upper key.toList
  else Text.upper key.toList ++ ' ' :: body

/-- The fragments of a list of parts. Empty parts are left out, except in front of everything. -/
def fragments (insertLike : Bool) : List (String × Text) → List Text
  | [] => []
  | (key, value) :: rest =>
      fragment insertLike key (Text.trimWhere isPadding value) ::
        rest.filterMap fun p =>
          let t := Text.trimWhere isPadding p.2
          if t.isEmpty then none else some (fragment insertLike p.1 t)

/-- Writes parts as a statement. -/
def join (ps : Parts) : Text :=
  Text.joinWith [' '] (fragments ((type? ps).any StatementType.isInsertLike) ps.toList)

end Parts
end SqlStatement
