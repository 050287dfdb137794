import SqlStatement.Proofs.Routes

/-!
# Scanning for clauses

Behind the first value of a pattern stand clauses, options and the end. A route
through such steps exists from a place only if something stands there that ends
a value: the keyword of one of the clauses, the options, a semicolon or the end.
It does exist from there if the end can be reached without an unclosed quote.
So a value runs to the first place of that kind, and has none inside.
-/
namespace SqlStatement
open Token

namespace Step

/-- The phrases that begin what a step reads. -/
def phrases : Step → List Phrase
  | clause _ keyword => [keyword]
  | options _ keywords => keywords
  | _ => []

/-- The phrases that begin the options, if a step has them. -/
def optionPhrases : Step → List Phrase
  | options _ keywords => keywords
  | _ => []

end Step

/-- The phrases that begin what one of the steps reads. -/
def phrasesOf (steps : List Step) : List Phrase := steps.flatMap Step.phrases

/-- The phrases that begin the options of the steps. -/
def optionPhrasesOf (steps : List Step) : List Phrase := steps.flatMap Step.optionPhrases

/-- The steps behind the first value of a pattern: clauses, options and the end. No clause begins
with the word with which something behind it may begin. -/
inductive Trailing : List Step → Prop
  | finish : Trailing [.finish]
  | options (key : String) (keywords : List Phrase) : Trailing [.options key keywords, .finish]
  | clause (key : String) {keyword : Phrase} {steps : List Step}
      (hf : ∀ p ∈ phrasesOf steps, p.head? ≠ keyword.head?) (h : Trailing steps) :
      Trailing (.clause key keyword :: steps)

theorem phrasesOf_clause (key : String) (keyword : Phrase) (steps : List Step) :
    phrasesOf (.clause key keyword :: steps) = keyword :: phrasesOf steps := rfl

theorem optionPhrasesOf_clause (key : String) (keyword : Phrase) (steps : List Step) :
    optionPhrasesOf (.clause key keyword :: steps) = optionPhrasesOf steps := rfl

theorem phrasesOf_options (key : String) (keywords : List Phrase) :
    phrasesOf [.options key keywords, .finish] = keywords := List.append_nil _

theorem optionPhrasesOf_options (key : String) (keywords : List Phrase) :
    optionPhrasesOf [.options key keywords, .finish] = keywords := List.append_nil _

theorem optionPhrasesOf_subset (steps : List Step) : optionPhrasesOf steps ⊆ phrasesOf steps := by
  intro p hp
  simp only [optionPhrasesOf, phrasesOf, List.mem_flatMap] at hp ⊢
  obtain ⟨step, hs, hp⟩ := hp
  refine ⟨step, hs, ?_⟩
  cases step with
  | options key keywords => exact hp
  | _ => simp [Step.optionPhrases] at hp

namespace Phrase

theorem startsAny_cons (p : Phrase) (phrases : List Phrase) (ts : List Token) :
    startsAny (p :: phrases) ts = ((p.after? ts).isSome || startsAny phrases ts) := by
  rw [startsAny, startsAny, afterAny?, afterAny?, List.findSome?_cons]
  cases p.after? ts <;> simp

/-- A keyword is no other keyword. -/
theorem keyword_unique {k k' : String} {w : Text} (h : Text.isKeyword k w = true)
    (h' : Text.isKeyword k' w = true) : k = k' := by
  simp only [Text.isKeyword, beq_iff_eq] at h h'
  exact String.toList_inj.mp (h.symm.trans h')

/-- Phrases that stand in front of the same tokens begin with the same word. -/
theorem head?_eq_of_after? {p q : Phrase} {ts us vs : List Token} (hp : p.after? ts = some us)
    (hq : q.after? ts = some vs) : p.head? = q.head? := by
  obtain ⟨t, ht, rfl⟩ := after?_eq_some hp
  obtain ⟨t', ht', he⟩ := after?_eq_some hq
  obtain ⟨k, ks, w, rest, rfl, rfl, hk⟩ := ht.head
  obtain ⟨k', ks', w', rest', rfl, rfl, hk'⟩ := ht'.head
  have first := congrArg List.head? he
  rw [List.cons_append, List.cons_append, List.head?_cons, List.head?_cons] at first
  cases first
  rw [List.head?_cons, List.head?_cons, keyword_unique hk hk']

theorem startsAny_eq_false_of_head {phrases : List Phrase} {p : Phrase} {ts us : List Token}
    (hf : ∀ q ∈ phrases, q.head? ≠ p.head?) (hp : p.after? ts = some us) :
    startsAny phrases ts = false := by
  by_contra hs
  rw [Bool.not_eq_false, startsAny, Option.isSome_iff_exists] at hs
  obtain ⟨vs, hv⟩ := hs
  obtain ⟨q, hq, hv⟩ := List.exists_of_findSome?_eq_some hv
  exact hf q hq (head?_eq_of_after? hv hp)

end Phrase

/-- The end or a semicolon. -/
def AtEnd (ts : List Token) : Prop := ∀ t, ts.head? = some t → t = .symbol ';'

theorem atEnd_nil : AtEnd [] := by simp [AtEnd]

theorem after?_of_atEnd {ts : List Token} (p : Phrase) (h : AtEnd ts) : p.after? ts = none := by
  cases hp : p.after? ts with
  | none => rfl
  | some us =>
      obtain ⟨t, ht, rfl⟩ := Phrase.after?_eq_some hp
      obtain ⟨k, ks, w, us, rfl, rfl, -⟩ := ht.head
      exact absurd (h _ rfl) (by simp)

theorem startsAny_of_atEnd {ts : List Token} (phrases : List Phrase) (h : AtEnd ts) :
    Phrase.startsAny phrases ts = false := by
  by_contra hs
  rw [Bool.not_eq_false, Phrase.startsAny, Option.isSome_iff_exists] at hs
  obtain ⟨us, hu⟩ := hs
  obtain ⟨p, hp, hu⟩ := List.exists_of_findSome?_eq_some hu
  rw [after?_of_atEnd p h] at hu
  simp at hu

/-- Going on from a choice. -/
def onward (steps : List Step) (c : Choice) : Option (List Choice) :=
  (route steps c.next).map (c :: ·)

theorem route_cons (step : Step) (steps : List Step) (ts : List Token) :
    route (step :: steps) ts = (step.choices ts).findSome? (onward steps) := rfl

theorem route_of_skip {step : Step} {ts : List Token} (steps : List Step)
    (h : step.choices ts = [.skip ts]) :
    route (step :: steps) ts = (route steps ts).map (.skip ts :: ·) := by
  rw [route_cons, h, List.findSome?_singleton]
  rfl

theorem route_finish_of_atEnd {ts : List Token} (h : AtEnd ts) :
    route [.finish] ts = some [.skip ts] := by
  cases ts with
  | nil => rfl
  | cons t ts =>
      rw [h t rfl]
      rfl

theorem route_finish_of_not {ts : List Token} (h : ¬AtEnd ts) : route [.finish] ts = none := by
  rw [route_cons, Step.choices]
  · rfl
  · rintro rfl
    exact h atEnd_nil
  · rintro us rfl
    exact h (by simp [AtEnd])

theorem choices_clause_of_none {key : String} {keyword : Phrase} {ts : List Token}
    (h : keyword.after? ts = none) : (Step.clause key keyword).choices ts = [.skip ts] := by
  rw [Step.choices, h]

theorem choices_options_of_not {key : String} {keywords : List Phrase} {ts : List Token}
    (h : Phrase.startsAny keywords ts = false) :
    (Step.options key keywords).choices ts = [.skip ts] := by
  simp [Step.choices, h]

theorem route_options {key : String} {keywords : List Phrase} {ts : List Token}
    (h : Phrase.startsAny keywords ts = true) :
    route [.options key keywords, .finish] ts = some [⟨ts, [], [], ts.length⟩, .skip []] := by
  rw [route_cons, Step.choices, if_pos h, List.findSome?_singleton, onward]
  dsimp only
  rw [route_finish_of_atEnd atEnd_nil]
  rfl

namespace Trailing
variable {steps : List Step} {ts : List Token}

/-- Nothing is found from a place where no value ends. -/
theorem route_eq_none (h : Trailing steps) (hs : Phrase.startsAny (phrasesOf steps) ts = false)
    (he : ¬AtEnd ts) : route steps ts = none := by
  induction h with
  | finish => exact route_finish_of_not he
  | options key keywords =>
      rw [phrasesOf_options] at hs
      rw [route_of_skip _ (choices_options_of_not hs), route_finish_of_not he]
      rfl
  | clause key hf h ih =>
      rw [phrasesOf_clause, Phrase.startsAny_cons, Bool.or_eq_false_iff,
        Option.isSome_eq_false_iff, Option.isNone_iff_eq_none] at hs
      rw [route_of_skip _ (choices_clause_of_none hs.1), ih hs.2]
      rfl

theorem route_of_atEnd (h : Trailing steps) (he : AtEnd ts) :
    route steps ts = some (steps.map fun _ => .skip ts) := by
  induction h with
  | finish => exact route_finish_of_atEnd he
  | options key keywords =>
      rw [route_of_skip _ (choices_options_of_not (startsAny_of_atEnd _ he)),
        route_finish_of_atEnd he]
      rfl
  | clause key hf h ih =>
      rw [route_of_skip _ (choices_clause_of_none (after?_of_atEnd _ he)), ih]
      rfl

/-- A clause whose keyword stands in front is read. -/
theorem route_clause_of_spells {key : String} {keyword : Phrase} {t : List Token}
    (h : Trailing (.clause key keyword :: steps)) (ht : keyword.Spells t) :
    route (.clause key keyword :: steps) (t ++ ts) =
      (Step.valueChoices (skipSpace ts) ((t ++ ts).length - (skipSpace ts).length)
        (skipSpace ts)).findSome? (onward steps) := by
  cases h with
  | clause key hf h =>
      have after := Phrase.after?_append ht ts
      have skipped : onward steps (.skip (t ++ ts)) = none := by
        rw [onward, Choice.skip, h.route_eq_none (Phrase.startsAny_eq_false_of_head hf after)]
        · rfl
        · intro he
          rw [after?_of_atEnd keyword he] at after
          simp at after
      rw [route_cons, Step.choices, after]
      dsimp only
      rw [List.findSome?_append, List.findSome?_singleton, skipped, Option.or_none]

end Trailing

/-- The end of a statement, or its options. -/
def Stops (steps : List Step) (ts : List Token) : Prop :=
  AtEnd ts ∨ Phrase.startsAny (optionPhrasesOf steps) ts = true

/-- The end of a statement or its options can be reached without an unclosed quote. -/
def Reaches (steps : List Step) (ts : List Token) : Prop :=
  ∃ pre post, ts = pre ++ post ∧ (∀ t ∈ pre, t.isClosed = true) ∧ Stops steps post

namespace Reaches
variable {steps : List Step} {ts : List Token}

theorem append {pre : List Token} (hp : ∀ t ∈ pre, t.isClosed = true) (h : Reaches steps ts) :
    Reaches steps (pre ++ ts) := by
  obtain ⟨u, v, rfl, hu, hv⟩ := h
  refine ⟨pre ++ u, v, by rw [List.append_assoc], ?_, hv⟩
  intro t ht
  exact (List.mem_append.mp ht).elim (hp t) (hu t)

theorem of_cons {t : Token} (h : Reaches steps (t :: ts)) (hs : ¬Stops steps (t :: ts)) :
    Reaches steps ts := by
  obtain ⟨pre, post, he, hp, hv⟩ := h
  cases pre with
  | nil =>
      rw [List.nil_append] at he
      exact absurd (he ▸ hv) hs
  | cons t' pre =>
      cases he
      exact ⟨pre, post, rfl, fun t ht => hp t (by simp [ht]), hv⟩

/-- Tokens at which nothing stops can be passed over. -/
theorem of_append {pre : List Token} (h : Reaches steps (pre ++ ts))
    (hs : ∀ t ∈ pre, ∀ us, ¬Stops steps (t :: us)) : Reaches steps ts := by
  induction pre with
  | nil => exact h
  | cons t pre ih => exact ih (h.of_cons (hs t (by simp) _)) fun t ht => hs t (by simp [ht])

end Reaches

theorem not_stops_of_isSpace {t : Token} (steps : List Step) (us : List Token)
    (h : t.isSpace = true) : ¬Stops steps (t :: us) := by
  rintro (he | hs)
  · rw [he t rfl] at h
    simp [isSpace] at h
  · obtain ⟨p, -, t', ht, hp⟩ := Phrase.startsAny_iff.mp hs
    obtain ⟨k, ks, w, vs, -, rfl, -⟩ := ht.head
    rw [List.cons_prefix_cons] at hp
    rw [← hp.1] at h
    simp [isSpace] at h

theorem reaches_skipSpace {steps : List Step} {ts : List Token} (h : Reaches steps ts) :
    Reaches steps (skipSpace ts) := by
  obtain ⟨gap, hg, he⟩ := skipSpace_eq ts
  rw [he] at h
  exact h.of_append fun t ht us => not_stops_of_isSpace steps us (hg t ht)

/-- A value runs to the first place from which the steps behind it lead on. -/
theorem exists_stop {steps : List Step} {start rest : List Token} {width : Nat}
    {cs : List Choice}
    (h : (Step.valueChoices start width rest).findSome? (onward steps) = some cs) :
    ∃ taken stop cs', rest = taken ++ stop ∧ (∀ t ∈ taken, t.isClosed = true) ∧
      route steps stop = some cs' ∧ cs = ⟨start, stop, stop, width + taken.length⟩ :: cs' ∧
      ∀ u v, taken = u ++ v → v ≠ [] → route steps (v ++ stop) = none := by
  have here {ts : List Token} {w : Nat} {cs : List Choice}
      (h : onward steps ⟨start, ts, ts, w⟩ = some cs) :
      ∃ cs', route steps ts = some cs' ∧ cs = ⟨start, ts, ts, w⟩ :: cs' := by
    obtain ⟨cs', hr, rfl⟩ := Option.map_eq_some_iff.mp h
    exact ⟨cs', hr, rfl⟩
  fun_induction Step.valueChoices start width rest with
  | case1 width =>
      obtain ⟨cs', hr, rfl⟩ := here (by simpa using h)
      exact ⟨[], [], cs', rfl, by simp, hr, rfl, by simp⟩
  | case2 width q ts =>
      obtain ⟨cs', hr, rfl⟩ := here (by simpa using h)
      exact ⟨[], _, cs', rfl, by simp, hr, rfl, by simp⟩
  | case3 width t ts hne ih =>
      rw [List.findSome?_cons] at h
      split at h
      · rename_i r found
        obtain ⟨cs', hr, rfl⟩ := here found
        cases h
        exact ⟨[], _, cs', rfl, by simp, hr, rfl, by simp⟩
      · rename_i failed
        obtain ⟨taken, stop, cs', rfl, hc, hr, rfl, hf⟩ := ih h
        have closed : t.isClosed = true := by
          cases t with
          | unterminated q => exact absurd rfl (hne q)
          | _ => rfl
        refine ⟨t :: taken, stop, cs', rfl, ?_, hr, ?_, ?_⟩
        · simpa [closed] using hc
        · simp only [List.length_cons]
          congr 2
          omega
        · intro u v he hv
          cases u with
          | nil =>
              rw [List.nil_append] at he
              rw [← he]
              exact Option.map_eq_none_iff.mp failed
          | cons t' u =>
              cases he
              exact hf u v rfl hv

theorem findSome?_valueChoices {steps : List Step} (start taken : List Token)
    {stop : List Token} {cs : List Choice} (width : Nat) (hc : ∀ t ∈ taken, t.isClosed = true)
    (hr : route steps stop = some cs)
    (hf : ∀ u v, taken = u ++ v → v ≠ [] → route steps (v ++ stop) = none) :
    (Step.valueChoices start width (taken ++ stop)).findSome? (onward steps) =
      some (⟨start, stop, stop, width + taken.length⟩ :: cs) := by
  induction taken generalizing width with
  | nil =>
      have first : onward steps ⟨start, stop, stop, width⟩ =
          some (⟨start, stop, stop, width⟩ :: cs) := by
        rw [onward, hr]
        rfl
      rw [List.nil_append]
      unfold Step.valueChoices
      split <;> simp [first]
  | cons t taken ih =>
      have failed : onward steps ⟨start, t :: taken ++ stop, t :: taken ++ stop, width⟩ = none := by
        rw [onward, hf [] (t :: taken) rfl (by simp)]
        rfl
      have rest := ih (width + 1) (fun t ht => hc t (by simp [ht])) fun u v he hv =>
        hf (t :: u) v (by rw [he]; rfl) hv
      have grow : Step.valueChoices start width (t :: taken ++ stop) =
          ⟨start, t :: taken ++ stop, t :: taken ++ stop, width⟩ ::
            Step.valueChoices start (width + 1) (taken ++ stop) := by
        cases t with
        | unterminated q => exact absurd (hc (.unterminated q) (by simp)) (by simp [isClosed])
        | _ => rfl
      rw [grow, List.findSome?_cons, failed, rest, List.length_cons, Nat.add_right_comm,
        Nat.add_assoc]

namespace Trailing
variable {steps : List Step} {ts : List Token}

theorem route_of_stops (h : Trailing steps) (hs : Stops steps ts) :
    ∃ cs, route steps ts = some cs := by
  rcases hs with he | ho
  · exact ⟨_, h.route_of_atEnd he⟩
  · induction h with
    | finish => simp [optionPhrasesOf, Step.optionPhrases, Phrase.startsAny, Phrase.afterAny?] at ho
    | options key keywords =>
        rw [optionPhrasesOf_options] at ho
        exact ⟨_, route_options ho⟩
    | @clause key keyword steps hf h ih =>
        rw [optionPhrasesOf_clause] at ho
        obtain ⟨cs, hcs⟩ := ih ho
        have other : keyword.after? ts = none := by
          cases hk : keyword.after? ts with
          | none => rfl
          | some us =>
              have := Phrase.startsAny_eq_false_of_head
                (fun p hp => hf p (optionPhrasesOf_subset _ hp)) hk
              simp [this] at ho
        rw [route_of_skip _ (choices_clause_of_none other), hcs]
        exact ⟨_, rfl⟩

/-- A value leads on if the end can be reached. -/
theorem exists_value (h : Trailing steps) (hr : Reaches steps ts) (start : List Token)
    (width : Nat) :
    ∃ cs, (Step.valueChoices start width ts).findSome? (onward steps) = some cs := by
  obtain ⟨pre, post, rfl, hp, hs⟩ := hr
  obtain ⟨cs, hcs⟩ := h.route_of_stops hs
  rw [← Option.isSome_iff_exists, List.findSome?_isSome_iff]
  refine ⟨⟨start, post, post, width + pre.length⟩,
    Step.mem_valueChoices.mpr ⟨pre, post, rfl, hp, rfl⟩, ?_⟩
  rw [onward, hcs]
  rfl

/-- Where a route begins, the end can be reached. -/
theorem reaches (h : Trailing steps) {cs : List Choice} (hr : route steps ts = some cs) :
    Reaches steps ts := by
  induction h generalizing ts cs with
  | finish =>
      by_cases he : AtEnd ts
      · exact ⟨[], ts, rfl, by simp, .inl he⟩
      · rw [route_finish_of_not he] at hr
        simp at hr
  | options key keywords =>
      cases ho : Phrase.startsAny keywords ts with
      | true => exact ⟨[], ts, rfl, by simp, .inr (by rw [optionPhrasesOf_options, ho])⟩
      | false =>
          by_cases he : AtEnd ts
          · exact ⟨[], ts, rfl, by simp, .inl he⟩
          · rw [route_of_skip _ (choices_options_of_not ho), route_finish_of_not he] at hr
            simp at hr
  | @clause key keyword steps hf h ih =>
      cases hk : keyword.after? ts with
      | none =>
          rw [route_of_skip _ (choices_clause_of_none hk)] at hr
          obtain ⟨cs', hcs, -⟩ := Option.map_eq_some_iff.mp hr
          exact ih hcs
      | some after =>
          obtain ⟨t, ht, rfl⟩ := Phrase.after?_eq_some hk
          rw [(Trailing.clause key hf h).route_clause_of_spells ht] at hr
          obtain ⟨taken, stop, cs', he, hc, hr, -, -⟩ := exists_stop hr
          obtain ⟨gap, hg, hs⟩ := skipSpace_eq after
          rw [hs, he]
          have reached : Reaches steps stop := ih hr
          exact ((reached.append hc).append hg.isClosed).append ht.isClosed

/-- A place where a clause or the options begin leads on if the end can be reached. -/
theorem route_of_spells (h : Trailing steps) {p : Phrase} (hp : p ∈ phrasesOf steps)
    {t : List Token} (ht : p.Spells t) (hr : Reaches steps ts) :
    ∃ cs, route steps (t ++ ts) = some cs := by
  induction h with
  | finish => simp [phrasesOf, Step.phrases] at hp
  | options key keywords =>
      rw [phrasesOf_options] at hp
      exact ⟨_, route_options (Phrase.startsAny_iff.mpr ⟨p, hp, t, ht, List.prefix_append t ts⟩)⟩
  | @clause key keyword steps hf h ih =>
      rw [phrasesOf_clause, List.mem_cons] at hp
      rcases hp with rfl | hp
      · rw [(Trailing.clause key hf h).route_clause_of_spells ht]
        exact h.exists_value (reaches_skipSpace hr) _ _
      · obtain ⟨cs, hcs⟩ := ih hp hr
        have other : keyword.after? (t ++ ts) = none := by
          cases hk : keyword.after? (t ++ ts) with
          | none => rfl
          | some us =>
              exact absurd (Phrase.head?_eq_of_after? (Phrase.after?_append ht ts) hk) (hf p hp)
        rw [route_of_skip _ (choices_clause_of_none other), hcs]
        exact ⟨_, rfl⟩

end Trailing
end SqlStatement
