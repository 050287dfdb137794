import SqlStatement.OrderedMap
import SqlStatement.Token
import SqlStatement.Value.Literal

/-!
# Placeholders

A placeholder is `?` or a colon with a word behind it, outside literals. A
percent sign right before or behind belongs to it and ends up inside the
literal that is put in its place. A template shows a statement as running text
and placeholders.
-/
namespace SqlStatement

/-- A placeholder, with percent signs before and behind; `?` has no name. -/
structure Placeholder where
  name : Option Text
  wildBefore : Bool := false
  wildBehind : Bool := false
  deriving DecidableEq, Repr

/-- A stretch of running text, or a placeholder. -/
inductive TemplatePart where
  | text (t : Text)
  | hole (p : Placeholder)
  deriving DecidableEq, Repr

namespace Placeholder

/-- A percent sign where one belongs to a placeholder. -/
def wildcard (present : Bool) : Text := if present then ['%'] else []

/-- The placeholder as it stands in the statement. -/
def text (p : Placeholder) : Text :=
  wildcard p.wildBefore ++
    (match p.name with
      | none => ['?']
      | some n => ':' :: n) ++
    wildcard p.wildBehind

/-- The literal that a value becomes in place of the placeholder. -/
def literal (d : Dialect) (p : Placeholder) (v : Value) : Text :=
  if p.wildBefore || p.wildBehind then
    d.quoteString (wildcard p.wildBefore ++ (v.plainText ++ wildcard p.wildBehind))
  else d.quoteValue "NULL".toList v

end Placeholder

namespace TemplatePart

/-- The placeholders among tokens, with percent signs still apart. -/
def ofTokens : List Token → List TemplatePart
  | [] => []
  | t :: ts =>
      if t = .symbol '?' then hole ⟨none, false, false⟩ :: ofTokens ts
      else if t = .symbol ':' then
        match ts with
        | .word w :: us => hole ⟨some w, false, false⟩ :: ofTokens us
        | us => text [':'] :: ofTokens us
      else text t.text :: ofTokens ts

/-- Joins percent signs to the placeholders beside them, from left to right. -/
def joinWildcards : List TemplatePart → List TemplatePart
  | [] => []
  | text ['%'] :: hole p :: text ['%'] :: rest =>
      hole { p with wildBefore := true, wildBehind := true } :: joinWildcards rest
  | text ['%'] :: hole p :: rest => hole { p with wildBefore := true } :: joinWildcards rest
  | hole p :: text ['%'] :: rest => hole { p with wildBehind := true } :: joinWildcards rest
  | part :: rest => part :: joinWildcards rest

/-- A statement as running text and placeholders. -/
def ofStatement (d : Dialect) (t : Text) : List TemplatePart :=
  joinWildcards (ofTokens (Token.ofText d t))

end TemplatePart

/-- Values for the placeholders of a statement: those of `?` in order, and those of names. -/
structure Parameters where
  positional : List Value := []
  named : OrderedMap Text Value := ⟨[]⟩
  deriving Repr

namespace Parameters

/-- Whether there are no values at all. -/
def isEmpty (p : Parameters) : Bool := p.positional.isEmpty && p.named.isEmpty

/-- Writes the text of a template with values in place of its placeholders. One without a value
stays as it is. -/
def fill (d : Dialect) (named : OrderedMap Text Value) : List Value → List TemplatePart → Text
  | _, [] => []
  | vs, .text t :: rest => t ++ fill d named vs rest
  | vs, .hole p :: rest =>
      match p.name with
      | some n =>
          (match named.get? n with
            | some v => p.literal d v
            | none => p.text) ++ fill d named vs rest
      | none =>
          match vs with
          | v :: vs => p.literal d v ++ fill d named vs rest
          | [] => p.text ++ fill d named [] rest

end Parameters

namespace Dialect

/-- Puts literals in place of the placeholders of a statement. -/
def bind (d : Dialect) (p : Parameters) (statement : Text) : Text :=
  Parameters.fill d p.named p.positional (TemplatePart.ofStatement d statement)

/-- The number of placeholders of a statement. -/
def countPlaceholders (d : Dialect) (statement : Text) : Nat :=
  (TemplatePart.ofStatement d statement).countP fun part =>
    match part with
    | .hole _ => true
    | .text _ => false

end Dialect
end SqlStatement
