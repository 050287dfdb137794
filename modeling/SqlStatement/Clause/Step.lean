import SqlStatement.Parts

/-!
# Steps of a statement pattern

A pattern is a list of steps, one for each clause, in the order in which the
clauses may appear. A step offers choices: where its part begins and ends, and
where the next step goes on. The order of the choices is the order in which
they are tried; values grow one token at a time, and an optional clause that
does not lead on is left out last.
-/
namespace SqlStatement

/-- One element of a statement pattern. Steps with a key fill the part of that name. -/
inductive Step where
  /-- The statement keyword, behind blanks. -/
  | lead (keywords : List Phrase)
  /-- Modifiers, each behind blanks, as many as can be had and at most `most` if given. -/
  | modifiers (key : String) (phrases : List Phrase) (most : Option Nat)
  /-- A value without a keyword. -/
  | value (key : String)
  /-- A keyword and a value, or nothing. -/
  | clause (key : String) (keyword : Phrase)
  /-- A list in parentheses, or nothing. -/
  | columnList (key : String)
  /-- A keyword and rows in parentheses with commas between them, or nothing. -/
  | rows (key : String) (keyword : Phrase)
  /-- A SELECT query or the marker of one, or nothing. -/
  | query (key : String)
  /-- Everything from a keyword to the first semicolon, or nothing. -/
  | options (key : String) (keywords : List Phrase)
  /-- The end of the text or a semicolon. -/
  | finish
  deriving DecidableEq, Repr

/-- A way to go on: the part runs from `start` to `stop`, the next step begins at `next`, and
`width` tokens are passed over. -/
structure Choice where
  start : List Token
  stop : List Token
  next : List Token
  width : Nat
  deriving DecidableEq, Repr

namespace Choice

/-- The tokens of the part. -/
def taken (c : Choice) : List Token := c.start.take (c.start.length - c.stop.length)

/-- The choice to leave the part empty and to stay. -/
def skip (ts : List Token) : Choice := ⟨ts, ts, ts, 0⟩

end Choice

namespace Step

/-- The key of the part that a step fills. -/
def key? : Step → Option String
  | lead _ | finish => none
  | modifiers k _ _ | value k | clause k _ | columnList k | rows k _ | query k | options k _ =>
      some k

/-- The choices of a value that begins at `start`: it may end before each token from `rest` on,
the shortest first, and never extends over an unclosed quote. -/
def valueChoices (start : List Token) : Nat → List Token → List Choice
  | width, [] => [⟨start, [], [], width⟩]
  | width, .unterminated q :: ts =>
      [⟨start, .unterminated q :: ts, .unterminated q :: ts, width⟩]
  | width, t :: ts => ⟨start, t :: ts, t :: ts, width⟩ :: valueChoices start (width + 1) ts

/-- The places behind one modifier, two modifiers and so on. -/
def modifierEnds (phrases : List Phrase) : Option Nat → List Token → List (List Token)
  | most, ts => ends ts.length most ts
where
  /-- The places behind modifiers; every modifier takes a blank, so `fuel` is the length. -/
  ends : Nat → Option Nat → List Token → List (List Token)
    | 0, _, _ => []
    | _, some 0, _ => []
    | fuel + 1, most, .space _ :: ts =>
        match Phrase.afterAny? phrases ts with
        | some after => after :: ends fuel (most.map (· - 1)) after
        | none => []
    | _, _, _ => []

/-- The places behind one row, two rows and so on, each with the blanks behind the row. -/
def rowEnds (ts : List Token) : List (List Token) := ends ts.length ts
where
  /-- The places behind rows; every row takes a token, so `fuel` is the length. -/
  ends : Nat → List Token → List (List Token)
    | 0, _ => []
    | fuel + 1, ts =>
        match Token.group? ts with
        | none => []
        | some (_, behind) =>
            let place := Token.skipSpace behind
            match place with
            | .symbol ',' :: more => place :: ends fuel (Token.skipSpace more)
            | _ => [place]

/-- Whether a word is `sub` in any case followed by digits. -/
def isMarkerWord (w : Text) : Bool :=
  Text.isKeyword "SUB" (w.take 3) && 3 < w.length && (w.drop 3).all Char.isDigit

/-- The tokens behind the marker of a query. -/
def afterMarker? : List Token → Option (List Token)
  | .symbol '#' :: .word w :: ts => if isMarkerWord w then some ts else none
  | _ => none

/-- The text up to the first semicolon, even one inside a literal. -/
def optionsText (ts : List Token) : Text := (Token.textOf ts).takeWhile (· ≠ ';')

/-- The choices of a step, in the order in which they are tried. -/
def choices (step : Step) (ts : List Token) : List Choice :=
  let goOn (start stop next : List Token) : Choice :=
    ⟨start, stop, next, ts.length - next.length⟩
  match step with
  | lead keywords =>
      match Phrase.afterAny? keywords (Token.skipSpace ts) with
      | some after => [goOn after after after]
      | none => []
  | modifiers _ phrases most =>
      ((ts :: modifierEnds phrases most ts).reverse).map fun stop =>
        goOn ts stop (Token.skipSpace stop)
  | value _ => valueChoices ts 0 ts
  | clause _ keyword =>
      match keyword.after? ts with
      | some after =>
          let start := Token.skipSpace after
          valueChoices start (ts.length - start.length) start ++ [.skip ts]
      | none => [.skip ts]
  | columnList _ =>
      match Token.group? ts with
      | some (inner, behind) =>
          [goOn (ts.drop 1) (ts.drop (1 + inner.length)) (Token.skipSpace behind), .skip ts]
      | none => [.skip ts]
  | rows _ keyword =>
      match keyword.after? ts with
      | some after =>
          let start := Token.skipSpace after
          ((rowEnds start).reverse.map fun stop => goOn start stop stop) ++ [.skip ts]
      | none => [.skip ts]
  | query _ =>
      match ts with
      | .word w :: rest =>
          if Text.isKeyword "SELECT" w then valueChoices ts 1 rest ++ [.skip ts] else [.skip ts]
      | _ =>
          match afterMarker? ts with
          | some behind => [goOn ts behind (Token.skipSpace behind), .skip ts]
          | none => [.skip ts]
  | options _ keywords =>
      if Phrase.startsAny keywords ts then [goOn ts [] []] else [.skip ts]
  | finish =>
      match ts with
      | [] | .symbol ';' :: _ => [.skip ts]
      | _ => []

/-- The text of the part that a step fills by a choice, without white characters at its ends. -/
def captured (step : Step) (c : Choice) : Text :=
  Text.trim <|
    match step with
    | options _ _ => optionsText c.taken
    | _ => Token.textOf c.taken

end Step
end SqlStatement
