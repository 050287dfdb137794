import SqlStatement.Literal

/-!
# Identifiers

A plain identifier is a path of one to three segments with dots between them;
a segment is a name or stands in identifier quotes. Strict quoting reads a path
of any number of segments, takes every unquoted segment as it is, whatever its
characters, and writes all of them in quotes.
-/
namespace SqlStatement

/-- The segment of a path at the start of a text, and the rest. -/
def Dialect.segment? (d : Dialect) (t : Text) : Option (Text × Text) :=
  match d.identifierLiteral? t with
  | some r => some r
  | none =>
      let w := t.takeWhile Text.isWordChar
      if d.isName w then some (w, t.dropWhile Text.isWordChar) else none

/-- Up to `more` further segments, each behind a dot, and the rest. -/
def Dialect.furtherSegments (d : Dialect) : Nat → Text → Text × Text
  | more + 1, '.' :: t =>
      match d.segment? t with
      | some (segment, rest) =>
          let r := d.furtherSegments more rest
          ('.' :: (segment ++ r.1), r.2)
      | none => ([], '.' :: t)
  | _, t => ([], t)

/-- The identifier at the start of a text, and the rest: one to three segments, as many as there
are. -/
def Dialect.identifier? (d : Dialect) (t : Text) : Option (Text × Text) :=
  (d.segment? t).map fun first =>
    let r := d.furtherSegments 2 first.2
    (first.1 ++ r.1, r.2)

/-- Whether a text is a plain identifier with nothing but white characters around it. -/
def Dialect.isIdentifier (d : Dialect) (t : Text) : Bool :=
  match d.identifier? (Text.trim t) with
  | some (_, []) => true
  | _ => false

/-- Where the reading of a path stands. -/
inductive PathState where
  /-- In front of a segment. -/
  | start
  /-- In a segment without quotes. -/
  | bare
  /-- Between the quotes of a segment. -/
  | quoted
  /-- Behind the closing quote of a segment. -/
  | closed
  deriving DecidableEq, Repr

namespace PathState

/-- Reads a path and writes it with every segment in quotes. There is no path if a segment is
missing or a quote stands inside a segment. -/
def quote? (q : Char) : PathState → Text → Option Text
  | start, [] => none
  | start, c :: t =>
      if c = q then (quote? q quoted t).map (q :: ·)
      else if c = '.' then none
      else (quote? q bare t).map (q :: c :: ·)
  | bare, [] => some [q]
  | bare, c :: t =>
      if c = q then none
      else if c = '.' then (quote? q start t).map (q :: '.' :: ·)
      else (quote? q bare t).map (c :: ·)
  | quoted, [] => none
  | quoted, c :: t =>
      if c = q then (quote? q closed t).map (q :: ·) else (quote? q quoted t).map (c :: ·)
  | closed, [] => some []
  | closed, c :: t => if c = '.' then (quote? q start t).map ('.' :: ·) else none

end PathState

/-- Quotes a path strictly: every segment ends up in identifier quotes. -/
def Dialect.quotePath (d : Dialect) (t : Text) : Except Error Text :=
  let path := Text.trim t
  match PathState.quote? d.identifierQuote .start path with
  | some quoted => .ok quoted
  | none => .error (.unsafeIdentifier path)

end SqlStatement
