import SqlStatement.Clause.Search
import SqlStatement.Proofs.Choices

/-!
# Routes through a pattern

The route of a pattern is the list of choices that the plain search takes. The
search that remembers failures takes the same: steps and places that are left
over determine each other's number within one run, so a remembered number
always stands for a failure of the plain search.
-/
namespace SqlStatement

/-- The choices of the first way through the steps. -/
def route : List Step → List Token → Option (List Choice)
  | [], _ => some []
  | step :: steps, ts => (step.choices ts).findSome? fun c => (route steps c.next).map (c :: ·)

/-- The captures of choices for steps. -/
def capturesOf : List Step → List Choice → Captures
  | step :: steps, c :: cs => step.captures c ++ capturesOf steps cs
  | _, _ => []

theorem search_eq_route (steps : List Step) (ts : List Token) :
    search steps ts = (route steps ts).map (capturesOf steps) := by
  induction steps generalizing ts with
  | nil => rfl
  | cons step steps ih =>
      rw [search, route, List.map_findSome?]
      congr 1
      funext c
      rw [ih, Function.comp_apply, Option.map_map, Option.map_map]
      rfl

namespace Recall

/-- Failures that are failures of the plain search, as far as they concern the given steps and
tokens. -/
def Sound (all : List Step) (tokens : List Token) (failures : Failures) : Prop :=
  ∀ step steps ts, step :: steps <:+ all → ts <:+ tokens →
    failures.contains (steps.length, ts.length) = true →
      SqlStatement.search (step :: steps) ts = none

variable {all : List Step} {tokens : List Token}

theorem sound_empty : Sound all tokens ∅ := by
  intro step steps ts _ _ h
  simp at h

theorem eq_of_suffix {α : Type} {xs ys zs : List α} (hx : xs <:+ zs) (hy : ys <:+ zs)
    (h : xs.length = ys.length) : xs = ys :=
  (List.suffix_of_suffix_length_le hx hy (Nat.le_of_eq h)).eq_of_length h

/-- Failures at which a search fails, as far as they concern the given steps and tokens. -/
def SoundFor (fails : List Step → List Token → Prop) (all : List Step) (tokens : List Token)
    (failures : Failures) : Prop :=
  ∀ step steps ts, step :: steps <:+ all → ts <:+ tokens →
    failures.contains (steps.length, ts.length) = true → fails (step :: steps) ts

theorem SoundFor.insert {fails : List Step → List Token → Prop} {failures : Failures} {step : Step}
    {steps : List Step} {ts : List Token} (h : SoundFor fails all tokens failures)
    (hs : step :: steps <:+ all) (ht : ts <:+ tokens) (hn : fails (step :: steps) ts) :
    SoundFor fails all tokens (failures.insert (steps.length, ts.length)) := by
  intro step' steps' ts' hs' ht' hc
  rw [Std.TreeSet.contains_insert, Bool.or_eq_true] at hc
  rcases hc with hk | hc
  · have key : (steps.length, ts.length) = (steps'.length, ts'.length) := by simpa using hk
    have lengths := Prod.mk.inj key
    have sameSteps : step :: steps = step' :: steps' :=
      eq_of_suffix hs hs' (by simp only [List.length_cons, lengths.1])
    have sameTokens : ts = ts' := eq_of_suffix ht ht' lengths.2
    rw [← sameSteps, ← sameTokens]
    exact hn
  · exact h step' steps' ts' hs' ht' hc

theorem Sound.insert {failures : Failures} {step : Step} {steps : List Step} {ts : List Token}
    (h : Sound all tokens failures) (hs : step :: steps <:+ all) (ht : ts <:+ tokens)
    (hn : SqlStatement.search (step :: steps) ts = none) :
    Sound all tokens (failures.insert (steps.length, ts.length)) := by
  have general :
      SoundFor (fun steps ts => SqlStatement.search steps ts = none) all tokens failures := h
  exact general.insert hs ht hn

/-- Trying choices keeps failures sound if going on from each of them does. -/
theorem firstChoice_spec {next : Nat → List Token → Failures → Option Captures × Failures}
    {step : Step} {steps : List Step} {ts : List Token} {cs : List Choice} {failures : Failures}
    (hcs : ∀ c ∈ cs, step.Takes ts c) (ht : ts <:+ tokens)
    (hnext : ∀ us failures, us <:+ tokens → Sound all tokens failures →
      (next us.length us failures).1 = SqlStatement.search steps us ∧
        Sound all tokens (next us.length us failures).2)
    (h : Sound all tokens failures) :
    (firstChoice next step ts.length cs failures).1 =
        cs.findSome? (fun c => (SqlStatement.search steps c.next).map (step.captures c ++ ·)) ∧
      Sound all tokens (firstChoice next step ts.length cs failures).2 := by
  induction cs generalizing failures with
  | nil => exact ⟨rfl, h⟩
  | cons c cs ih =>
      obtain ⟨before, after, cuts, -⟩ := hcs c (by simp)
      have left : ts.length - c.width = c.next.length := by
        have := cuts.width
        omega
      have step := hnext c.next failures (cuts.next_suffix.trans ht) h
      rw [firstChoice, left, List.findSome?_cons, ← step.1]
      generalize next c.next.length c.next failures = r at step
      obtain ⟨found, failures'⟩ := r
      cases found with
      | none => exact ih (fun c hc => hcs c (by simp [hc])) step.2
      | some found => exact ⟨rfl, step.2⟩

/-- The search that remembers failures finds what the plain search finds. -/
theorem search_spec {steps : List Step} {ts : List Token} {failures : Failures}
    (hs : steps <:+ all) (ht : ts <:+ tokens) (h : Sound all tokens failures) :
    (search steps ts.length ts failures).1 = SqlStatement.search steps ts ∧
      Sound all tokens (search steps ts.length ts failures).2 := by
  induction steps generalizing ts failures with
  | nil => exact ⟨rfl, h⟩
  | cons step steps ih =>
      rw [search]
      split
      · rename_i hc
        exact ⟨(h step steps ts hs ht hc).symm, h⟩
      · have takes : ∀ c ∈ step.choices ts, step.Takes ts c :=
          fun c hc => Step.takes_of_mem_choices hc
        have tried := firstChoice_spec takes ht
          (fun us failures hu hf => ih ((List.suffix_cons step steps).trans hs) hu hf) h
        generalize firstChoice (search steps) step ts.length (step.choices ts) failures = r at tried
        obtain ⟨found, failures'⟩ := r
        cases found with
        | none => exact ⟨tried.1, tried.2.insert hs ht tried.1.symm⟩
        | some found => exact tried

end Recall

/-- A pattern is matched along its route. -/
theorem matchSteps_eq (d : Dialect) (steps : List Step) (t : Text) :
    matchSteps d steps t = (route steps (Token.ofText d t)).map (capturesOf steps) := by
  rw [matchSteps, ← search_eq_route]
  exact (Recall.search_spec List.suffix_rfl List.suffix_rfl Recall.sound_empty).1

end SqlStatement
