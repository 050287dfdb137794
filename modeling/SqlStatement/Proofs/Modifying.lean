import SqlStatement.Proofs.Rescanning

/-!
# The longest run of modifiers

Modifiers are single words. A route always takes as many of them as there are,
because whatever can be reached from an earlier place can be reached from behind
the last modifier. In a layout the same run is followed by other tokens; it is
still the longest, since neither the first value nor a later phrase begins with
a modifier that was not read.
-/
namespace SqlStatement
open Token
variable {phrases : List Phrase}

/-- Whether a token is one of the modifiers. -/
def isModifier (phrases : List Phrase) (t : Token) : Bool := Phrase.startsAny phrases [t]

theorem isModifier_iff {t : Token} :
    isModifier phrases t = true ↔ ∃ k w, [k] ∈ phrases ∧ t = .word w ∧
      Text.isKeyword k w = true := by
  rw [isModifier, Phrase.startsAny_iff]
  constructor
  · rintro ⟨p, hp, ts, ht, hpre⟩
    obtain ⟨k, ks, w, us, rfl, rfl, hk⟩ := ht.head
    obtain ⟨rfl, hus⟩ := List.cons_prefix_cons.mp hpre
    cases List.prefix_nil.mp hus
    cases ks with
    | nil => exact ⟨k, w, hp, rfl, hk⟩
    | cons k' ks => simp [Phrase.Spells] at ht
  · rintro ⟨k, w, hp, rfl, hk⟩
    exact ⟨[k], hp, [.word w], hk, List.prefix_rfl⟩

theorem isWord_of_isModifier {t : Token} (h : isModifier phrases t = true) : t.isWord = true := by
  obtain ⟨k, w, -, rfl, -⟩ := isModifier_iff.mp h
  rfl

theorem isModifier_eq_false {t : Token} (h : t.isWord = false) : isModifier phrases t = false := by
  by_contra modifier
  rw [isWord_of_isModifier (by simpa using modifier)] at h
  cases h

theorem afterAny?_cons (hs : ∀ p ∈ phrases, p.length = 1) (t : Token) (ts : List Token) :
    Phrase.afterAny? phrases (t :: ts) = if isModifier phrases t then some ts else none := by
  induction phrases with
  | nil => rfl
  | cons p phrases ih =>
      obtain ⟨k, rfl⟩ := List.length_eq_one_iff.mp (hs p (by simp))
      have rest := ih fun p hp => hs p (by simp [hp])
      rw [isModifier, Phrase.startsAny_cons, ← isModifier, Phrase.afterAny?, List.findSome?_cons]
      rw [Phrase.afterAny?] at rest
      rw [rest]
      cases t with
      | word w => by_cases hk : Text.isKeyword k w = true <;> simp [Phrase.after?, hk]
      | space | quoted | symbol | unterminated => simp [Phrase.after?]

theorem afterAny?_nil : Phrase.afterAny? phrases [] = none := by
  rw [Phrase.afterAny?, List.findSome?_eq_none_iff]
  exact fun p _ => after?_of_atEnd p atEnd_nil

/-- Tokens at which no further modifier is read. -/
def Unmodified (phrases : List Phrase) (ts : List Token) : Prop :=
  ∀ b t us, ts = .space b :: t :: us → isModifier phrases t = false

/-- A run of modifiers that cannot be continued. -/
inductive Longest (phrases : List Phrase) : Option Nat → List Token → List Token → Prop
  | stop {most : Option Nat} {rest : List Token}
      (h : most = some 0 ∨ Unmodified phrases rest) : Longest phrases most [] rest
  | next {most : Option Nat} (b : Text) {t : Token} {run rest : List Token}
      (hm : most ≠ some 0) (ht : isModifier phrases t = true)
      (h : Longest phrases (most.map (· - 1)) run rest) :
      Longest phrases most (.space b :: t :: run) rest

namespace Longest
variable {most : Option Nat} {run rest : List Token}

theorem unique (h : Longest phrases most run rest) {run' rest' : List Token}
    (h' : Longest phrases most run' rest') (he : run ++ rest = run' ++ rest') : rest = rest' := by
  induction h generalizing run' rest' with
  | stop hs =>
      cases h' with
      | stop => exact he
      | next b hm ht _ =>
          rw [List.nil_append] at he
          rcases hs with hs | hs
          · exact absurd hs hm
          · rw [hs _ _ _ he] at ht
            simp at ht
  | next b hm ht _ ih =>
      cases h' with
      | stop hs =>
          rw [List.nil_append] at he
          rcases hs with hs | hs
          · exact absurd hs hm
          · rw [hs _ _ _ he.symm] at ht
            simp at ht
      | next b' hm' ht' h' =>
          simp only [List.cons_append, List.cons.injEq] at he
          exact ih h' he.2.2

/-- The run that ends at the last of the places behind modifiers. -/
structure EndsAt (phrases : List Phrase) (most : Option Nat) (ts : List Token)
    (ends : List (List Token)) (run rest : List Token) : Prop where
  eq_append : ts = run ++ rest
  longest : Longest phrases most run rest
  last : (ts :: ends).getLast? = some rest
  passed : ∀ stop ∈ ts :: ends, ∃ passed, stop = passed ++ rest ∧
    ∀ t ∈ passed, t.isSpace = true ∨ isModifier phrases t = true

theorem endsAt_nil {ts : List Token} (h : most = some 0 ∨ Unmodified phrases ts) :
    EndsAt phrases most ts [] [] ts := by
  refine ⟨rfl, .stop h, rfl, fun stop hm => ⟨[], ?_, by simp⟩⟩
  exact List.mem_singleton.mp hm

theorem EndsAt.cons {ts : List Token} {ends : List (List Token)} (b : Text) {t : Token}
    (h : EndsAt phrases (most.map (· - 1)) ts ends run rest) (hm : most ≠ some 0)
    (ht : isModifier phrases t = true) :
    EndsAt phrases most (.space b :: t :: ts) (ts :: ends) (.space b :: t :: run) rest := by
  refine ⟨?_, .next b hm ht h.longest, ?_, fun stop hm => ?_⟩
  · rw [h.eq_append]
    rfl
  · rw [List.getLast?_cons_of_ne_nil (by simp), h.last]
  · rcases List.mem_cons.mp hm with rfl | hm
    · obtain ⟨passed, he, hp⟩ := h.passed ts (by simp)
      refine ⟨.space b :: t :: passed, by rw [he]; rfl, fun u hu => ?_⟩
      simp only [List.mem_cons] at hu
      rcases hu with rfl | rfl | hu
      · exact .inl rfl
      · exact .inr ht
      · exact hp u hu
    · exact h.passed stop hm

theorem exists_endsAt (hs : ∀ p ∈ phrases, p.length = 1) (fuel : Nat) (most : Option Nat)
    (ts : List Token) (hf : ts.length ≤ fuel) :
    ∃ run rest, EndsAt phrases most ts (Step.modifierEnds.ends phrases fuel most ts) run rest := by
  have idle {t : Token} (us : List Token) (h : t.isSpace = false) :
      Unmodified phrases (t :: us) := by
    rintro b t' us' ⟨⟩
    simp [isSpace] at h
  induction fuel generalizing most ts with
  | zero =>
      cases List.length_eq_zero_iff.mp (Nat.le_zero.mp hf)
      exact ⟨[], [], endsAt_nil (.inr (by simp [Unmodified]))⟩
  | succ fuel ih =>
      cases ts with
      | nil =>
          rw [ends_nil]
          exact ⟨[], [], endsAt_nil (.inr (by simp [Unmodified]))⟩
      | cons u us =>
          cases u with
          | word | quoted | symbol | unterminated =>
              rw [ends_of_not_space _ _ _ _ rfl]
              exact ⟨[], _, endsAt_nil (.inr (idle _ rfl))⟩
          | space b =>
              by_cases hm : most = some 0
              · subst hm
                exact ⟨[], _, endsAt_nil (.inl rfl)⟩
              · rw [Step.modifierEnds.ends]
                · cases us with
                  | nil =>
                      rw [afterAny?_nil]
                      exact ⟨[], _, endsAt_nil (.inr (by rintro b t us ⟨⟩))⟩
                  | cons t us =>
                      rw [afterAny?_cons hs]
                      by_cases ht : isModifier phrases t = true
                      · rw [if_pos ht]
                        have shorter : us.length ≤ fuel := by
                          simp only [List.length_cons] at hf
                          omega
                        obtain ⟨run, rest, h⟩ := ih (most.map (· - 1)) us shorter
                        exact ⟨_, rest, h.cons b hm ht⟩
                      · rw [if_neg ht]
                        refine ⟨[], _, endsAt_nil (.inr ?_)⟩
                        rintro b t us ⟨⟩
                        simpa using ht
                · exact hm

end Longest

variable {most : Option Nat} {run rest : List Token} {steps : List Step}

/-- The longest run is tried first. -/
theorem exists_choices_modifiers (hs : ∀ p ∈ phrases, p.length = 1) (key : String)
    (most : Option Nat) (ts : List Token) :
    ∃ run rest others, Longest.EndsAt phrases most ts (Step.modifierEnds phrases most ts) run rest ∧
      (Step.modifiers key phrases most).choices ts =
        ⟨ts, rest, skipSpace rest, ts.length - (skipSpace rest).length⟩ :: others := by
  obtain ⟨run, rest, h⟩ := Longest.exists_endsAt hs ts.length most ts (Nat.le_refl _)
  obtain ⟨front, hf⟩ := List.getLast?_eq_some_iff.mp h.last
  refine ⟨run, rest, front.reverse.map fun stop =>
    ⟨ts, stop, skipSpace stop, ts.length - (skipSpace stop).length⟩, h, ?_⟩
  rw [Step.choices, Step.modifierEnds, hf, List.reverse_append, List.reverse_singleton,
    List.singleton_append, List.map_cons]

/-- A run of modifiers is taken as a whole if what stands behind it leads on. -/
theorem route_modifiers (key : String) {cs : List Choice} (hs : ∀ p ∈ phrases, p.length = 1)
    (h : Longest phrases most run rest) (hr : route steps (skipSpace rest) = some cs) :
    ∃ c : Choice, c.taken = run ∧
      route (.modifiers key phrases most :: steps) (run ++ rest) = some (c :: cs) := by
  obtain ⟨run', rest', others, ends, hc⟩ := exists_choices_modifiers hs key most (run ++ rest)
  have same : rest = rest' := h.unique ends.longest ends.eq_append
  subst same
  refine ⟨⟨run ++ rest, rest, skipSpace rest, (run ++ rest).length - (skipSpace rest).length⟩,
    Choice.taken_eq run rest _ _, ?_⟩
  rw [route_cons, hc, findSome?_cons_or, onward, hr]
  rfl

/-- A route takes the longest run of modifiers. -/
theorem Trailing.modifiers_longest {key value : String} {ts : List Token} {cs : List Choice}
    (h : Trailing steps) (hs : ∀ p ∈ phrases, p.length = 1)
    (hd : ∀ m ∈ phrases, ∀ p ∈ phrasesOf steps, p.head? ≠ m.head?)
    (hr : route (.modifiers key phrases most :: .value value :: steps) ts = some cs) :
    ∃ rest c cs', cs = c :: cs' ∧ ts = c.taken ++ rest ∧ Longest phrases most c.taken rest ∧
      route (.value value :: steps) (skipSpace rest) = some cs' := by
  obtain ⟨run, rest, others, ends, hc⟩ := exists_choices_modifiers hs key most ts
  have passes {t : Token} (ht : t.isSpace = true ∨ isModifier phrases t = true)
      (us : List Token) : ¬Stops steps (t :: us) := by
    rcases ht with ht | ht
    · exact not_stops_of_isSpace steps us ht
    · obtain ⟨k, w, hk, rfl, hw⟩ := isModifier_iff.mp ht
      rintro (he | ho)
      · exact absurd (he _ rfl) (by simp)
      · obtain ⟨p, hp, t, ht, hpre⟩ := Phrase.startsAny_iff.mp ho
        obtain ⟨k', ks, w', vs, rfl, rfl, hw'⟩ := ht.head
        rw [List.cons_prefix_cons] at hpre
        cases hpre.1
        refine hd _ hk _ (optionPhrasesOf_subset steps hp) ?_
        rw [List.head?_cons, List.head?_cons, Phrase.keyword_unique hw' hw]
  have reached : Reaches steps rest := by
    rw [route_cons] at hr
    obtain ⟨c, hm, found⟩ := List.exists_of_findSome?_eq_some hr
    simp only [Step.choices, List.mem_map, List.mem_reverse] at hm
    obtain ⟨stop, hm, rfl⟩ := hm
    obtain ⟨cs', hr', -⟩ := Option.map_eq_some_iff.mp found
    dsimp only at hr'
    rw [route_cons, Step.choices] at hr'
    obtain ⟨stop', c, cs'', -, he, closed, -, hr''⟩ := h.exists_quiet hr'
    have behind : Reaches steps (skipSpace stop) := by
      rw [he]
      exact (h.reaches hr'').append closed
    obtain ⟨passed, rfl, hp⟩ := ends.passed stop hm
    obtain ⟨gap, hg, hgap⟩ := skipSpace_eq (passed ++ rest)
    have whole : Reaches steps (passed ++ rest) := by
      rw [hgap]
      exact behind.append hg.isClosed
    exact whole.of_append fun t ht us => passes (hp t ht) us
  obtain ⟨cs', found⟩ := h.exists_value (reaches_skipSpace reached) (skipSpace rest) 0
  have next : route (.value value :: steps) (skipSpace rest) = some cs' := found
  rw [route_cons, hc, findSome?_cons_or, onward, next] at hr
  cases hr
  refine ⟨rest, _, cs', rfl, ?_⟩
  have eq := ends.eq_append
  subst eq
  rw [Choice.taken_eq]
  exact ⟨rfl, ends.longest, next⟩

/-- A run of modifiers is empty, or a blank and a part that neither begins nor ends with one. -/
theorem Longest.cases_part (h : Longest phrases most run rest) :
    run = [] ∨ ∃ b part, run = .space b :: part ∧ Firm part := by
  induction h with
  | stop => exact .inl rfl
  | @next most b t run rest hm ht h ih =>
      have dark := Phrase.isSpace_of_isWord (isWord_of_isModifier ht)
      refine .inr ⟨b, _, rfl, by simp, by simpa using dark, ?_⟩
      rcases ih with rfl | ⟨b', part, rfl, firm⟩
      · simpa using dark
      · rw [List.getLast?_cons_of_ne_nil (by simp), List.getLast?_cons_of_ne_nil firm.ne_nil]
        exact firm.last

theorem Longest.congr {rest' : List Token} (h : Longest phrases most run rest)
    (hu : Unmodified phrases rest → Unmodified phrases rest') :
    Longest phrases most run rest' := by
  induction h with
  | stop hs => exact .stop (hs.imp_right hu)
  | next b hm ht _ ih => exact .next b hm ht (ih hu)

/-- A run of modifiers is the longest in a layout too. -/
theorem Longest.again {rest' : List Token} (h : Longest phrases most run rest)
    (hu : Unmodified phrases rest → Unmodified phrases rest') :
    Longest phrases most (trail (strip run)) rest' := by
  have again := h.congr hu
  rcases h.cases_part with rfl | ⟨b, part, rfl, firm⟩
  · exact again
  · have same : strip (.space b :: part) = part := by
      have := strip_eq_self firm.head firm.last
      rw [strip] at this ⊢
      rw [List.dropWhile_cons_of_pos (by rfl), this]
    rw [same, trail, if_neg firm.ne_nil]
    cases again with
    | next b hm ht h => exact .next [' '] hm ht h

end SqlStatement
