import Mathlib.Logic.Function.Basic
import SqlStatement.Proofs.Recording

/-!
# Captures that are overwritten in place

A matcher may keep one slot for each part and write the text of every choice
into it before it goes on. Paths that are given up leave their texts behind, and
places that are known to fail are skipped without touching any slot. If no two
steps share a slot, this does not show in the end: whether a match is found does
not depend on the slots, and each step on the path that is found writes its slot
after all the paths that were given up before. So the slots hold the texts of
the first path in the order of the search, with and without the memory of
failures, and these are the captures of the search that keeps no slots.
-/
namespace SqlStatement
open Token

namespace Step

/-- Whether a choice of the step ends the match: the end does, and so do options that are there,
since they take all that is left. -/
def completes (step : Step) (ts : List Token) : Bool :=
  match step with
  | finish => true
  | options _ keywords => Phrase.startsAny keywords ts
  | _ => false

/-- The keys of the parts that steps fill. -/
def keysOf (steps : List Step) : List String := steps.filterMap key?

/-- The steps up to the first end. What stands behind it is never reached. -/
def reached : List Step → List Step
  | [] => []
  | finish :: _ => [finish]
  | step :: steps => step :: reached steps

/-- The steps behind the first end. -/
def unreached : List Step → List Step
  | [] => []
  | finish :: steps => steps
  | _ :: steps => unreached steps

/-- Whether options stand only right in front of the end. -/
def optionsBeforeFinish : List Step → Bool
  | [] => true
  | options _ _ :: steps => steps.head? == some finish && optionsBeforeFinish steps
  | _ :: steps => optionsBeforeFinish steps

end Step

/-- All the ways through the steps to the end, in the order of the search. -/
def paths : List Step → List Token → List (List Choice)
  | [], _ => []
  | step :: steps, ts =>
      (step.choices ts).flatMap fun c =>
        (if step.completes ts then [[]] else paths steps c.next).map (c :: ·)

/-- A match under way: the text in each slot, and the failures that were found. -/
structure Attempt where
  slots : String → Text := fun _ => []
  failures : Recall.Failures := ∅

namespace Attempt

/-- Writes the text of a choice into the slot of its step, whatever is there. -/
def fill (p : Attempt) (step : Step) (c : Choice) : Attempt :=
  match step.key? with
  | some key => { p with slots := Function.update p.slots key (step.captured c) }
  | none => p

/-- Tries choices in order. A choice that does not lead on leaves its text in the slot. -/
def firstChoice (next : List Token → Attempt → Bool × Attempt) (step : Step) :
    List Choice → Attempt → Bool × Attempt
  | [], p => (false, p)
  | c :: cs, p =>
      match next c.next (p.fill step c) with
      | (true, p) => (true, p)
      | (false, p) => firstChoice next step cs p

/-- Matches steps and fills their slots in place. Failures are remembered, or not. -/
def run (remembers : Bool) : List Step → List Token → Attempt → Bool × Attempt
  | [], _, p => (false, p)
  | step :: steps, ts, p =>
      if remembers && p.failures.contains (steps.length, ts.length) then (false, p)
      else
        let next := if step.completes ts then fun _ p => (true, p) else run remembers steps
        match firstChoice next step (step.choices ts) p with
        | (true, p) => (true, p)
        | (false, p) =>
            if remembers then
              (false, { p with failures := p.failures.insert (steps.length, ts.length) })
            else (false, p)

/-- The slots of steps. -/
def read (p : Attempt) (steps : List Step) : Captures :=
  (Step.keysOf steps).map fun key => (key, p.slots key)

/-- The texts in the slots after a match. -/
def captures? (remembers : Bool) (d : Dialect) (steps : List Step) (t : Text) : Option Captures :=
  let r := run remembers steps (ofText d t) {}
  if r.1 then some (r.2.read steps) else none

@[simp] theorem failures_fill (p : Attempt) (step : Step) (c : Choice) :
    (p.fill step c).failures = p.failures := by
  rw [fill]
  split <;> rfl

theorem slots_fill_self {step : Step} {key : String} (h : step.key? = some key) (p : Attempt)
    (c : Choice) : (p.fill step c).slots key = step.captured c := by
  rw [fill, h]
  exact Function.update_self key _ _

/-- A choice is written into no other slot. -/
theorem slots_fill_of_ne {step : Step} {key : String} (h : key ∉ step.key?) (p : Attempt)
    (c : Choice) : (p.fill step c).slots key = p.slots key := by
  rw [fill]
  split
  · rename_i other known
    refine Function.update_of_ne ?_ _ _
    rintro rfl
    exact h known
  · rfl

end Attempt

/-- Steps with an end, and with no options but right in front of it. -/
inductive Terminated : List Step → Prop
  | finish (behind : List Step) : Terminated (.finish :: behind)
  | options (key : String) (keywords : List Phrase) (behind : List Step) :
      Terminated (.options key keywords :: .finish :: behind)
  | step {step : Step} {steps : List Step} (hc : ∀ ts, step.completes ts = false)
      (h : Terminated steps) : Terminated (step :: steps)

theorem terminated_of_getLast? {steps : List Step} (he : steps.getLast? = some .finish)
    (ho : Step.optionsBeforeFinish steps = true) : Terminated steps := by
  induction steps with
  | nil => simp at he
  | cons step steps ih =>
      have behind (hne : step ≠ .finish) : steps.getLast? = some .finish := by
        cases steps with
        | nil => exact absurd (by simpa using he) hne
        | cons => simpa [List.getLast?_cons_cons] using he
      cases step with
      | finish => exact .finish steps
      | options key keywords =>
          rw [Step.optionsBeforeFinish, Bool.and_eq_true, beq_iff_eq] at ho
          obtain ⟨rest, rfl⟩ := List.head?_eq_some_iff.mp ho.1
          exact .options key keywords rest
      | _ => exact .step (fun _ => rfl) (ih (behind nofun) ho)

theorem Step.reached_of_completes {step : Step} (h : ∀ ts, step.completes ts = false)
    (steps : List Step) : reached (step :: steps) = step :: reached steps := by
  cases step with
  | finish => cases h []
  | _ => rfl

theorem capturesOf_nil (steps : List Step) : capturesOf steps [] = [] := by
  cases steps <;> rfl

namespace Attempt
variable {all : List Step} {tokens ts : List Token} {p : Attempt} {live : List String}
  {step : Step} {steps : List Step} {ways : List (List Choice)}

/-- Remembered failures from which no way leads on. -/
abbrev Sound (all : List Step) (tokens : List Token) (failures : Recall.Failures) : Prop :=
  Recall.SoundFor (fun steps ts => paths steps ts = []) all tokens failures

/-- What a match that may write the slots `live` comes to: other slots are kept, a match is found
if there is a way, and then the slots hold the texts of the first way. -/
structure Outcome (all : List Step) (tokens : List Token) (live : List String) (steps : List Step)
    (ways : List (List Choice)) (p : Attempt) (r : Bool × Attempt) : Prop where
  kept : ∀ key, key ∉ live → r.2.slots key = p.slots key
  sound : Sound all tokens r.2.failures
  found : r.1 = !ways.isEmpty
  filled : ∀ way ∈ ways.head?, (live.map fun key => (key, r.2.slots key)) = capturesOf steps way

theorem outcome_found (steps : List Step) (h : Sound all tokens p.failures) :
    Outcome all tokens [] steps [[]] p (true, p) where
  kept _ _ := rfl
  sound := h
  found := rfl
  filled := by
    rintro _ ⟨⟩
    exact (capturesOf_nil steps).symm

theorem outcome_none (live : List String) (steps : List Step) (h : Sound all tokens p.failures) :
    Outcome all tokens live steps [] p (false, p) where
  kept _ _ := rfl
  sound := h
  found := rfl
  filled := by simp

/-- Trying choices fills the slot of the step and those behind it. What is written for a choice
that does not lead on is overwritten for the next. -/
theorem outcome_firstChoice {next : List Token → Attempt → Bool × Attempt} {cs : List Choice}
    {behind : Choice → List (List Choice)}
    (hnext : ∀ c ∈ cs, ∀ p : Attempt, Sound all tokens p.failures →
      Outcome all tokens live steps (behind c) p (next c.next p))
    (hf : ∀ key ∈ step.key?, key ∉ live) (h : Sound all tokens p.failures) :
    Outcome all tokens (step.key?.toList ++ live) (step :: steps)
      (cs.flatMap fun c => (behind c).map (c :: ·)) p (firstChoice next step cs p) := by
  induction cs generalizing p with
  | nil => exact outcome_none _ _ h
  | cons c cs ih =>
      have tried := hnext c (by simp) (p.fill step c) (by rwa [failures_fill])
      have others {key : String} (hk : key ∉ step.key?.toList ++ live) :
          (next c.next (p.fill step c)).2.slots key = p.slots key := by
        rw [List.mem_append, not_or, Option.mem_toList] at hk
        rw [tried.kept key hk.2, slots_fill_of_ne hk.1]
      rw [firstChoice]
      generalize next c.next (p.fill step c) = r at tried others
      obtain ⟨found, p'⟩ := r
      cases found with
      | false =>
          have none : behind c = [] := by simpa using tried.found.symm
          rw [List.flatMap_cons, none]
          have rest := ih (fun c hc => hnext c (by simp [hc])) tried.sound
          exact { rest with kept := fun key hk => (rest.kept key hk).trans (others hk) }
      | true =>
          obtain ⟨way, ways, first⟩ : ∃ way ways, behind c = way :: ways :=
            List.exists_cons_of_ne_nil (by simpa using tried.found.symm)
          rw [List.flatMap_cons, first]
          refine ⟨fun key hk => others hk, tried.sound, by simp, ?_⟩
          rintro _ ⟨⟩
          have behind := tried.filled way (by rw [first]; rfl)
          rw [List.map_append, behind, capturesOf, Step.captures]
          cases hk : step.key? with
          | none => rfl
          | some key =>
              have here : p'.slots key = step.captured c := by
                rw [tried.kept key (hf key hk), slots_fill_self hk]
              rw [Option.toList_some, List.map_singleton, here]

/-- A match from a place comes to what going on from its choices comes to. -/
theorem outcome_run_cons {remembers : Bool} (hall : step :: steps <:+ all) (ht : ts <:+ tokens)
    (h : Sound all tokens p.failures) (hf : ∀ key ∈ step.key?, key ∉ live)
    (hnext : ∀ c ∈ step.choices ts, ∀ p : Attempt, Sound all tokens p.failures →
      Outcome all tokens live steps (if step.completes ts then [[]] else paths steps c.next) p
        ((if step.completes ts then fun _ p => (true, p) else run remembers steps) c.next p)) :
    Outcome all tokens (step.key?.toList ++ live) (step :: steps) (paths (step :: steps) ts) p
      (run remembers (step :: steps) ts p) := by
  rw [run]
  split
  · rename_i known
    rw [Bool.and_eq_true] at known
    rw [h step steps ts hall ht known.2]
    exact outcome_none _ _ h
  · have tried : Outcome all tokens _ _ (paths (step :: steps) ts) p _ :=
      outcome_firstChoice hnext hf h
    dsimp only
    revert tried
    generalize firstChoice _ step (step.choices ts) p = r
    intro tried
    obtain ⟨found, p'⟩ := r
    cases found with
    | true => exact tried
    | false =>
        have none : paths (step :: steps) ts = [] := by simpa using tried.found.symm
        dsimp only
        split
        · exact { tried with sound := tried.sound.insert hall ht none }
        · exact tried

/-- Neither the slots nor the failures that are remembered matter for whether a match is found. -/
theorem outcome_run {remembers : Bool} (hs : Terminated steps)
    (hk : (Step.keysOf (Step.reached steps)).Nodup) (hall : steps <:+ all) (ht : ts <:+ tokens)
    (h : Sound all tokens p.failures) :
    Outcome all tokens (Step.keysOf (Step.reached steps)) steps (paths steps ts) p
      (run remembers steps ts p) := by
  have finish {behind : List Step} {ts : List Token} {p : Attempt}
      (hall : .finish :: behind <:+ all) (ht : ts <:+ tokens) (h : Sound all tokens p.failures) :
      Outcome all tokens [] (.finish :: behind) (paths (.finish :: behind) ts) p
        (run remembers (.finish :: behind) ts p) :=
    outcome_run_cons hall ht h (by simp) fun _ _ _ hp => outcome_found behind hp
  have onward {step : Step} {steps : List Step} (hall : step :: steps <:+ all) :
      steps <:+ all := (List.suffix_cons step steps).trans hall
  have later {step : Step} {ts : List Token} (ht : ts <:+ tokens) :
      ∀ c ∈ step.choices ts, c.next <:+ tokens := fun c hc => by
    obtain ⟨before, after, cuts, -⟩ := Step.takes_of_mem_choices hc
    exact cuts.next_suffix.trans ht
  induction hs generalizing ts p with
  | finish behind => exact finish hall ht h
  | options key keywords behind =>
      change Outcome all tokens ((Step.options key keywords).key?.toList ++ []) _ _ p _
      refine outcome_run_cons hall ht h (by simp) fun c hc p hp => ?_
      by_cases taken : (Step.options key keywords).completes ts = true
      · rw [if_pos taken, if_pos taken]
        exact outcome_found _ hp
      · rw [if_neg taken, if_neg taken]
        exact finish (onward hall) (later ht c hc) hp
  | @step step steps hc hs ih =>
      have keys : Step.keysOf (step :: Step.reached steps) =
          step.key?.toList ++ Step.keysOf (Step.reached steps) := by
        rw [Step.keysOf, List.filterMap_cons]
        cases step.key? <;> rfl
      rw [Step.reached_of_completes hc, keys] at hk ⊢
      obtain ⟨-, distinct, apart⟩ := List.nodup_append.mp hk
      have fresh : ∀ key ∈ step.key?, key ∉ Step.keysOf (Step.reached steps) := fun key hkey hm =>
        apart key (Option.mem_toList.mpr hkey) key hm rfl
      refine outcome_run_cons hall ht h fresh fun c hm p hp => ?_
      rw [hc, if_neg Bool.false_ne_true, if_neg Bool.false_ne_true]
      exact ih distinct (onward hall) (later ht c hm) hp

end Attempt

/-- The search that keeps no slots takes the first way too. -/
theorem search_cons_eq {step : Step} {steps behind : List Step} {ts : List Token}
    {ways : Choice → List (List Choice)}
    (h : ∀ c ∈ step.choices ts, search behind c.next = (ways c).head?.map (capturesOf steps)) :
    search (step :: behind) ts =
      ((step.choices ts).flatMap fun c => (ways c).map (c :: ·)).head?.map
        (capturesOf (step :: steps)) := by
  rw [search, List.head?_flatMap, List.map_findSome?]
  generalize step.choices ts = cs at h ⊢
  induction cs with
  | nil => rfl
  | cons c cs ih =>
      rw [List.findSome?_cons, List.findSome?_cons, h c List.mem_cons_self,
        ih fun c hc => h c (List.mem_cons_of_mem _ hc), Function.comp_apply, List.head?_map,
        Option.map_map, Option.map_map]
      rfl

theorem search_reached {steps : List Step} (hs : Terminated steps) (ts : List Token) :
    search (Step.reached steps) ts = (paths steps ts).head?.map (capturesOf steps) := by
  have finish (behind : List Step) (ts : List Token) :
      search [.finish] ts =
        (paths (.finish :: behind) ts).head?.map (capturesOf (.finish :: behind)) :=
    search_cons_eq fun c _ => by
      rw [search, Step.completes, if_pos rfl]
      exact congrArg some (capturesOf_nil behind).symm
  induction hs generalizing ts with
  | finish behind => exact finish behind ts
  | options key keywords behind =>
      refine search_cons_eq fun c hc => ?_
      by_cases taken : Phrase.startsAny keywords ts = true
      · rw [Step.choices, if_pos taken, List.mem_singleton] at hc
        rw [hc, Step.completes, if_pos taken]
        rfl
      · rw [Step.completes, if_neg taken]
        exact finish behind c.next
  | @step step steps hc hs ih =>
      rw [Step.reached_of_completes hc]
      refine search_cons_eq fun c _ => ?_
      rw [hc, if_neg Bool.false_ne_true]
      exact ih c.next

theorem Step.reached_append_unreached (steps : List Step) :
    reached steps ++ unreached steps = steps := by
  induction steps with
  | nil => rfl
  | cons step steps ih =>
      cases step with
      | finish => rfl
      | _ => exact congrArg (_ :: ·) ih

/-- A matcher that fills slots in place finds the first way in the order of the search, with its
memory of failures and without, and so does the search that keeps no slots. No slot holds a text of
a way that was given up: those behind the first end are still empty. -/
theorem captures?_eq_first (d : Dialect) {steps : List Step} (t : Text)
    (hk : (Step.keysOf steps).Nodup) (he : steps.getLast? = some .finish)
    (ho : Step.optionsBeforeFinish steps = true) :
    let first := (paths steps (ofText d t)).head?.map (capturesOf steps)
    (∀ remembers, Attempt.captures? remembers d steps t =
      first.map (· ++ (Step.keysOf (Step.unreached steps)).map (·, []))) ∧
      matchSteps d (Step.reached steps) t = first ∧
      search (Step.reached steps) (ofText d t) = first := by
  intro first
  have hs := terminated_of_getLast? he ho
  have plain : search (Step.reached steps) (ofText d t) = first := search_reached hs _
  have keys : Step.keysOf steps =
      Step.keysOf (Step.reached steps) ++ Step.keysOf (Step.unreached steps) := by
    rw [Step.keysOf, ← Step.reached_append_unreached steps, List.filterMap_append,
      Step.reached_append_unreached]
    rfl
  obtain ⟨distinct, -, apart⟩ := List.nodup_append.mp (keys ▸ hk)
  refine ⟨fun remembers => ?_, ?_, plain⟩
  · have empty : Attempt.Sound steps (ofText d t) ∅ := fun _ _ _ _ _ hc => by simp at hc
    have outcome : Attempt.Outcome _ _ _ _ _ {} (Attempt.run remembers steps (ofText d t) {}) :=
      Attempt.outcome_run hs distinct List.suffix_rfl List.suffix_rfl empty
    rw [Attempt.captures?, outcome.found]
    cases ways : paths steps (ofText d t) with
    | nil => simp [first, ways]
    | cons way others =>
        have filled := outcome.filled way (by rw [ways]; rfl)
        have untouched : ((Step.keysOf (Step.unreached steps)).map fun key =>
            (key, (Attempt.run remembers steps (ofText d t) {}).2.slots key)) =
              (Step.keysOf (Step.unreached steps)).map (·, []) :=
          List.map_congr_left fun key hm => congrArg (key, ·) <|
            outcome.kept key fun hr => apart key hr key hm rfl
        simp only [first, ways, Attempt.read, keys, List.map_append, filled, untouched]
        rfl
  · rw [matchSteps_eq, ← search_eq_route, plain]

/-- The column list is read, and its text is overwritten when nothing that follows fits and the
value of INTO grows beyond it. -/
theorem captures?_eq_first_insert :
    let steps := (Pattern.insertLike .mysql "insert").steps
    (Step.keysOf steps).Nodup ∧ steps.getLast? = some .finish ∧
      Step.optionsBeforeFinish steps = true ∧ Step.reached steps = steps ∧
      ∀ remembers, Attempt.captures? remembers .mysql steps
        "INSERT INTO t (a) b VALUES (1)".toList =
          some [("insert", []), ("into", "t (a) b".toList), ("columns", []), ("set", []),
            ("values", "(1)".toList), ("query", []), ("on duplicate key update", [])] := by
  intro steps
  have distinct : (Step.keysOf steps).Nodup := by decide
  have ends : steps.getLast? = some .finish := rfl
  have options : Step.optionsBeforeFinish steps = true := rfl
  refine ⟨distinct, ends, options, rfl, fun remembers => ?_⟩
  obtain ⟨filled, matched, -⟩ := captures?_eq_first .mysql
    "INSERT INTO t (a) b VALUES (1)".toList distinct ends options
  have found : matchSteps .mysql (Step.reached steps) "INSERT INTO t (a) b VALUES (1)".toList =
      some [("insert", []), ("into", "t (a) b".toList), ("columns", []), ("set", []),
        ("values", "(1)".toList), ("query", []), ("on duplicate key update", [])] := by
    decide +kernel
  rw [filled, ← matched, found]
  rfl

end SqlStatement
