import SqlStatement.Proofs.Calling

/-!
# Memos that are never out of date

A query is changed and asked by its own calls, and behind its back by those made
to a subquery that was taken out of it, at any depth. Since the memo of a query
does not notice the latter, a query with subqueries taken out keeps none. What
stands in any memo is therefore what the query would work out with everything
forgotten, its own results and those of its subqueries.
-/
namespace SqlStatement

namespace Edit
variable {α β : Type} {q : Query}

/-- An edit that leaves a query with subqueries taken out as it is. -/
def KeepsNothing (x : Edit α) : Prop := ∀ q, q.attached ≠ [] → x.left q = q

theorem KeepsNothing.bind {x : Edit α} {y : α → Edit β} (hx : x.KeepsNothing)
    (hy : ∀ a, (y a).KeepsNothing) : (x >>= y).KeepsNothing := by
  intro q hq
  have same := hx q hq
  rw [left] at same ⊢
  rw [run_bind]
  cases run : x.run q with
  | error e p =>
      rw [run] at same
      exact same
  | ok a p =>
      rw [run] at same
      subst same
      exact hy a p hq

theorem KeepsNothing.get {y : Query → Edit α} (hy : ∀ p, (y p).KeepsNothing) :
    (MonadState.get >>= y : Edit α).KeepsNothing := fun q hq => hy q q hq

end Edit

namespace Mutation

end Mutation

namespace Query

/-- The query or a subquery that was taken out of it, at any depth. -/
inductive Within (p : Query) : Query → Prop
  | self : Within p p
  | attached {q sub : Query} {number : Nat} (h : (number, sub) ∈ q.attached)
      (hp : Within p sub) : Within p q

/-- The memo holds what would be worked out again, and nothing where subqueries are taken out. -/
structure UpToDate (q : Query) : Prop where
  sound : q.Sound
  empty : q.attached ≠ [] → q.memo = {}

/-- A query is up to date at all depths. -/
def AllUpToDate (q : Query) : Prop := ∀ p : Query, p.Within q → p.UpToDate

theorem allUpToDate_iff {q : Query} :
    q.AllUpToDate ↔ q.UpToDate ∧ ∀ e ∈ q.attached, e.2.AllUpToDate := by
  constructor
  · intro h
    exact ⟨h q .self, fun e he p hp => h p (.attached he hp)⟩
  · rintro ⟨own, inside⟩ p hp
    cases hp with
    | self => exact own
    | attached he hp => exact inside _ he p hp

theorem sound_of_memo_eq {q : Query} (h : q.memo = {}) : q.Sound := by
  have sound := q.sound_empty
  rwa [← h, withMemo_self] at sound

theorem allUpToDate_ofStatement (s : Settings) (t : Text) : (ofStatement s t).AllUpToDate := by
  apply allUpToDate_iff.mpr
  exact ⟨⟨sound_of_memo_eq rfl, fun _ => rfl⟩, by simp [ofStatement]⟩

/-- A subquery is up to date, whether it was taken out before or is taken out now. -/
theorem AllUpToDate.subquery {q sub : Query} (h : q.AllUpToDate) {number : Nat}
    (hs : q.subquery number = .ok sub) : sub.AllUpToDate := by
  rw [Query.subquery] at hs
  cases hl : q.attached.lookup number with
  | some known =>
      rw [hl] at hs
      cases hs
      obtain ⟨before, behind, split, -⟩ := List.lookup_eq_some_iff.mp hl
      exact (allUpToDate_iff.mp h).2 (number, sub) (by simp [split])
  | none =>
      rw [hl] at hs
      obtain ⟨e, u, -, -, -, rfl⟩ := detach_eq_ok (s := q.settings) (t := q.statement) hs
      exact allUpToDate_ofStatement _ _

/-- One thing that happens to a query: a mutation, a question, the taking out of a subquery, or any
of these to a subquery that was taken out before. -/
inductive Step : Query → Query → Prop
  | mutate (m : Mutation) (q : Query) : Step q (Edit.left (Edit.mutate m) q)
  | ask {α : Type} (r : Reader α) (q : Query) : Step q (Edit.left r.run q)
  | takeOut (number : Nat) (q : Query) :
      Step q (Edit.left (Edit.subquery number fun sub => ((), sub)) q)
  | inside {q sub sub' : Query} {number : Nat} {before behind : List (Nat × Query)}
      (h : q.attached = before ++ (number, sub) :: behind) (step : Step sub sub') :
      Step q { q with attached := before ++ (number, sub') :: behind }

mutual

/-- The query with nothing remembered, by itself or by the subqueries taken out of it. -/
def forgotten : Query → Query
  | ⟨statement, settings, replacements, additions, parameters, attached, _⟩ =>
      ⟨statement, settings, replacements, additions, parameters, allForgotten attached, {}⟩

/-- Subqueries with nothing remembered. -/
def allForgotten : List (Nat × Query) → List (Nat × Query)
  | [] => []
  | (number, q) :: rest => (number, q.forgotten) :: allForgotten rest

end

mutual

theorem isChanged_forgotten : (q : Query) → q.forgotten.isChanged = q.isChanged
  | ⟨_, _, _, _, _, attached, _⟩ => by
      simp only [forgotten, isChanged, anyChanged_allForgotten attached]

theorem anyChanged_allForgotten : (attached : List (Nat × Query)) →
    anyChanged (allForgotten attached) = anyChanged attached
  | [] => rfl
  | (_, q) :: rest => by
      simp only [allForgotten, anyChanged, isChanged_forgotten q, anyChanged_allForgotten rest]

end

mutual

/-- What is remembered has no part in how a query is written. -/
theorem render_forgotten : (q : Query) → q.forgotten.render = q.render
  | ⟨_, _, _, _, _, attached, _⟩ => by
      simp only [forgotten, render, anyChanged_allForgotten attached,
        changedTexts_allForgotten attached]
      rfl

theorem changedTexts_allForgotten : (attached : List (Nat × Query)) →
    changedTexts (allForgotten attached) = changedTexts attached
  | [] => rfl
  | (_, q) :: rest => by
      simp only [allForgotten, changedTexts, isChanged_forgotten q, render_forgotten q,
        changedTexts_allForgotten rest]

end

end Query
end SqlStatement
