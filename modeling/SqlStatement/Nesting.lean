import SqlStatement.Piece

/-!
# Groups in a text

The nesting of a text shows its closed groups as a tree. A parenthesis without
a partner, and one separated from its partner by an unclosed quote, stays an
ordinary piece. Scans that treat groups as units recurse on this tree.
-/
namespace SqlStatement

/-- A text as a sequence of pieces and closed groups. -/
inductive Nesting where
  | done
  | piece (p : Piece) (rest : Nesting)
  | group (inner rest : Nesting)
  deriving DecidableEq, Repr

namespace Nesting

/-- The pieces of a nesting, the parentheses of its groups included. -/
def pieces : Nesting → List Piece
  | done => []
  | piece p rest => p :: rest.pieces
  | group inner rest => .char '(' :: (inner.pieces ++ .char ')' :: rest.pieces)

/-- The text of a nesting. -/
def text (n : Nesting) : Text := Piece.textOf n.pieces

/-- The text of a nesting with further text behind it. -/
def textOnto (behind : Text) : Nesting → Text
  | done => behind
  | piece p rest => p.text ++ rest.textOnto behind
  | group inner rest => '(' :: inner.textOnto (')' :: rest.textOnto behind)

/-- One nesting behind another. -/
def append : Nesting → Nesting → Nesting
  | done, m => m
  | piece p rest, m => piece p (rest.append m)
  | group inner rest, m => group inner (rest.append m)

/-- Puts closing parentheses that found no partner between the nestings they separate. -/
def flatten (current : Nesting) : List Nesting → Nesting
  | [] => current
  | outer :: others => current.append (piece (.char ')') (flatten outer others))

/-- Puts a piece in front of what has been read from the right: the nesting up to the nearest
closing parenthesis without a partner, and the nestings behind each such parenthesis. -/
def push (p : Piece) (state : Nesting × List Nesting) : Nesting × List Nesting :=
  match p with
  | .literal _ => (piece p state.1, state.2)
  | .stray _ => (piece p (flatten state.1 state.2), [])
  | .char c =>
      if c = ')' then (done, state.1 :: state.2)
      else if c = '(' then
        match state.2 with
        | outer :: outers => (group state.1 outer, outers)
        | [] => (piece p state.1, [])
      else (piece p state.1, state.2)

/-- The nesting of a list of pieces. -/
def ofPieces (ps : List Piece) : Nesting :=
  let state := ps.foldr push (done, [])
  flatten state.1 state.2

/-- The nesting of a text. -/
def ofText (d : Dialect) (t : Text) : Nesting := ofPieces (Piece.ofText d t)

@[simp] theorem pieces_append (n m : Nesting) : (n.append m).pieces = n.pieces ++ m.pieces := by
  induction n with
  | done => rfl
  | piece p rest ih => simp [append, pieces, ih]
  | group inner rest _ ih => simp [append, pieces, ih]

theorem pieces_flatten (current : Nesting) (outers : List Nesting) :
    (flatten current outers).pieces =
      current.pieces ++ outers.flatMap fun o => .char ')' :: o.pieces := by
  induction outers generalizing current with
  | nil => simp [flatten]
  | cons o os ih => simp [flatten, pieces, ih]

theorem pieces_push (p : Piece) (state : Nesting × List Nesting) :
    (flatten (push p state).1 (push p state).2).pieces = p :: (flatten state.1 state.2).pieces := by
  obtain ⟨current, outers⟩ := state
  cases p with
  | literal t => simp [push, pieces_flatten, pieces]
  | stray q => simp [push, flatten, pieces]
  | char c =>
      simp only [push]
      split
      · rename_i hc
        simp [hc, pieces_flatten, pieces]
      · split
        · rename_i hc
          cases outers <;> simp [hc, pieces_flatten, pieces]
        · simp [pieces_flatten, pieces]

theorem textOnto_eq (behind : Text) (n : Nesting) : n.textOnto behind = n.text ++ behind := by
  induction n generalizing behind with
  | done => rfl
  | piece p rest ih => simp [textOnto, text, pieces, ih]
  | group inner rest ih₁ ih₂ => simp [textOnto, text, pieces, ih₁, ih₂, Piece.text]

/-- The nesting loses no piece. -/
@[simp] theorem pieces_ofPieces (ps : List Piece) : (ofPieces ps).pieces = ps := by
  simp only [ofPieces]
  induction ps with
  | nil => rfl
  | cons p ps ih => rw [List.foldr_cons, pieces_push, ih]

/-- The nesting loses nothing of the text. -/
@[simp] theorem text_ofText (d : Dialect) (t : Text) : (ofText d t).text = t := by
  simp [text, ofText]

/-- Whether a piece ends a top-level segment: a comma, a parenthesis without a partner or an
unclosed quote. -/
def separates : Piece → Bool
  | .char c => c == ',' || c == '(' || c == ')'
  | .stray _ => true
  | .literal _ => false

/-- The first segment of a nesting and the segments behind it. -/
def cut : Nesting → Text × List Text
  | done => ([], [])
  | piece p rest =>
      let r := rest.cut
      if separates p then ([], r.1 :: r.2) else (p.text ++ r.1, r.2)
  | group inner rest =>
      let r := rest.cut
      ('(' :: inner.textOnto (')' :: r.1), r.2)

/-- The segments between top-level commas, as they stand. -/
def segments (n : Nesting) : List Text := n.cut.1 :: n.cut.2

end Nesting

/-- The segments of a text between commas outside literals and groups, trimmed; empty segments
are left out. -/
def Dialect.splitTopLevel (d : Dialect) (t : Text) : List Text :=
  ((Nesting.ofText d t).segments.map Text.trim).filter (! ·.isEmpty)

end SqlStatement
