import SqlStatement.Clause.Step
import Std.Data.TreeSet

/-!
# Matching a pattern

`search` tries the choices of every step in order and goes back when the steps
behind fail. `Recall.search` does the same but remembers from which step and
place no match was found, so that a statement is matched in polynomial time.
The running program uses the second, and the first says what it means.
-/
namespace SqlStatement

/-- The texts of the parts that a pattern fills, in the order of its steps. -/
abbrev Captures := List (String × Text)

/-- The captures of a step for a choice: one if the step fills a part. -/
def Step.captures (step : Step) (c : Choice) : Captures :=
  match step.key? with
  | some key => [(key, step.captured c)]
  | none => []

/-- The captures of the first way through the steps, in the order of their choices. -/
def search : List Step → List Token → Option Captures
  | [], _ => some []
  | step :: steps, ts =>
      (step.choices ts).findSome? fun c => (search steps c.next).map (step.captures c ++ ·)

namespace Recall

/-- Steps and places from which no match was found, each by the number of steps and of tokens
that are left. -/
abbrev Failures := Std.TreeSet (Nat × Nat) lexOrd.compare

/-- Tries choices in order. `next` goes on from a place with the given number of tokens left. -/
def firstChoice (next : Nat → List Token → Failures → Option Captures × Failures) (step : Step)
    (left : Nat) : List Choice → Failures → Option Captures × Failures
  | [], failures => (none, failures)
  | c :: cs, failures =>
      match next (left - c.width) c.next failures with
      | (some found, failures) => (some (step.captures c ++ found), failures)
      | (none, failures) => firstChoice next step left cs failures

/-- The search that skips what is known to fail. `left` is the number of tokens. -/
def search : List Step → Nat → List Token → Failures → Option Captures × Failures
  | [], _, _, failures => (some [], failures)
  | step :: steps, left, ts, failures =>
      if failures.contains (steps.length, left) then (none, failures)
      else
        match firstChoice (search steps) step left (step.choices ts) failures with
        | (none, failures) => (none, failures.insert (steps.length, left))
        | (some found, failures) => (some found, failures)

end Recall

/-- The parts of the text of a statement by a pattern. -/
def matchSteps (d : Dialect) (steps : List Step) (t : Text) : Option Captures :=
  let ts := Token.ofText d t
  (Recall.search steps ts.length ts ∅).1

end SqlStatement
