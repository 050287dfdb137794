import SqlStatement.Proofs.Depths
import SqlStatement.Proofs.Detaching
import SqlStatement.Proofs.Items

/-!
# One sweep over a statement

The search for a match goes back: it tries every end of a value, and leaves a
clause out where its value leads nowhere. A statement that begins with its
keyword, modifiers and a value can be read without that. One sweep from left to
right takes the modifiers that are there, and ends a value at the first token
where the keyword of a later clause or of the options starts, at the first
semicolon outside literals, or at the end. If there is a match at all, the sweep
finds the parts that the search finds.
-/
namespace SqlStatement
open Token

/-- The tokens in front of the first place where one of the phrases or a semicolon stands, and the
tokens from there on. -/
def Token.upTo (phrases : List Phrase) : List Token → List Token × List Token
  | [] => ([], [])
  | t :: ts =>
      if t = .symbol ';' ∨ Phrase.startsAny phrases (t :: ts) = true then ([], t :: ts)
      else (t :: (upTo phrases ts).1, (upTo phrases ts).2)

/-- The longest run of modifiers, each behind blanks and at most `most` if given, and the tokens
behind it. -/
def Token.modifierRun (phrases : List Phrase) :
    Option Nat → List Token → List Token × List Token
  | most, .space b :: t :: ts =>
      if most ≠ some 0 ∧ isModifier phrases t = true then
        let r := modifierRun phrases (most.map (· - 1)) ts
        (.space b :: t :: r.1, r.2)
      else ([], .space b :: t :: ts)
  | _, ts => ([], ts)

/-- The clauses and the options behind the first value, in one sweep. A clause that does not start
where the value in front of it ends is empty. The options are no clause with a value: they are all
of the text from their keyword to the first semicolon, wherever it stands. -/
def sweepClauses : List Step → List Token → Captures
  | .clause key keyword :: later, ts =>
      match keyword.after? ts with
      | some after =>
          let r := upTo (phrasesOf later) (skipSpace after)
          (key, Text.trim (textOf r.1)) :: sweepClauses later r.2
      | none => (key, []) :: sweepClauses later ts
  | .options key keywords :: _, ts =>
      [(key, if Phrase.startsAny keywords ts = true then Text.trim (Step.optionsText ts) else [])]
  | _, _ => []

/-- The parts of a text in one sweep: behind the keyword of the statement the modifiers, the first
value, and the clauses. -/
def Pattern.sweep (p : Pattern) (d : Dialect) (t : Text) : Captures :=
  match p.steps with
  | .lead keywords :: .modifiers key phrases most :: .value value :: later =>
      let behind := (Phrase.afterAny? keywords (skipSpace (ofText d t))).getD []
      let run := modifierRun phrases most behind
      let r := upTo (phrasesOf later) (skipSpace run.2)
      (key, Text.trim (textOf run.1)) :: (value, Text.trim (textOf r.1)) :: sweepClauses later r.2
  | _ => []

section UpTo
variable {phrases : List Phrase} {ts taken stop : List Token}

/-- What stands where a value ends: one of the phrases, a semicolon, or nothing. -/
def Ends (phrases : List Phrase) (ts : List Token) : Prop :=
  AtEnd ts ∨ Phrase.startsAny phrases ts = true

theorem upTo_of_ends (h : Ends phrases ts) : upTo phrases ts = ([], ts) := by
  cases ts with
  | nil => rfl
  | cons t ts => rw [upTo, if_pos (h.imp_left fun he => he t rfl)]

theorem upTo_cons {t : Token} (h : ¬Ends phrases (t :: ts)) :
    upTo phrases (t :: ts) = (t :: (upTo phrases ts).1, (upTo phrases ts).2) := by
  rw [upTo, if_neg]
  rintro (rfl | starts)
  · exact h (.inl (by simp [AtEnd]))
  · exact h (.inr starts)

/-- Tokens are taken up to the first place where a value ends. -/
theorem upTo_append (hs : Ends phrases stop)
    (ht : ∀ u v, taken = u ++ v → v ≠ [] → ¬Ends phrases (v ++ stop)) :
    upTo phrases (taken ++ stop) = (taken, stop) := by
  induction taken with
  | nil => exact upTo_of_ends hs
  | cons t taken ih =>
      have rest := ih fun u v he hv => ht (t :: u) v (by rw [he]; rfl) hv
      have first : ¬Ends phrases (t :: (taken ++ stop)) := ht [] (t :: taken) rfl (by simp)
      rw [List.cons_append, upTo_cons first, rest]

end UpTo

/-- The longest run of modifiers is the one that is swept up. -/
theorem Longest.modifierRun_eq {phrases : List Phrase} {most : Option Nat} {run rest : List Token}
    (h : Longest phrases most run rest) : modifierRun phrases most (run ++ rest) = (run, rest) := by
  induction h with
  | @stop most rest hs =>
      rw [List.nil_append]
      unfold modifierRun
      split
      · rw [if_neg]
        rintro ⟨hm, ht⟩
        rcases hs with hs | hs
        · exact hm hs
        · rw [hs _ _ _ rfl] at ht
          cases ht
      · rfl
  | next b hm ht h ih =>
      rw [List.cons_append, List.cons_append, modifierRun, if_pos ⟨hm, ht⟩, ih]

namespace Trailing
variable {steps : List Step} {ts : List Token} {cs : List Choice}

/-- Steps lead on only from where a value ends. -/
theorem ends_of_route (h : Trailing steps) (hr : route steps ts = some cs) :
    Ends (phrasesOf steps) ts := by
  by_contra hn
  rw [Ends, not_or, Bool.not_eq_true] at hn
  rw [h.route_eq_none hn.2 hn.1] at hr
  cases hr

/-- Nothing stops inside a phrase. -/
theorem not_stops_of_mem_spells (hi : InnerFree (phrasesOf steps)) {p : Phrase}
    (hp : p ∈ phrasesOf steps) {t u : Token} {inner : List Token} (ht : p.Spells (t :: inner))
    (hu : u ∈ inner) (us : List Token) : ¬Stops steps (u :: us) := by
  rcases ht.mem_tail hu with space | ⟨k, hk, w, rfl, hw⟩
  · exact not_stops_of_isSpace steps us space
  · rintro (he | ho)
    · exact absurd (he _ rfl) (by simp)
    · have first := Phrase.startsAny_of_isKeyword hw
        (fun q hq => hi p hp k hk q (optionPhrasesOf_subset steps hq)) us
      rw [first] at ho
      cases ho

/-- A place where a value ends leads on if the end can be reached from it. -/
theorem exists_route_of_ends (h : Trailing steps) (hi : InnerFree (phrasesOf steps))
    (hr : Reaches steps ts) (he : Ends (phrasesOf steps) ts) : ∃ cs, route steps ts = some cs := by
  by_cases hs : Stops steps ts
  · exact h.route_of_stops hs
  · obtain ⟨p, hp, t, ht, rest, rfl⟩ :=
      Phrase.startsAny_iff.mp (he.resolve_left fun he => hs (.inl he))
    obtain ⟨k, ks, w, inner, rfl, rfl, -⟩ := ht.head
    have behind : Reaches steps rest :=
      (hr.of_cons hs).of_append fun u hu us => not_stops_of_mem_spells hi hp ht hu us
    exact h.route_of_spells hp ht behind

/-- The first value that leads on is the one that is swept up. -/
theorem exists_upTo_eq (h : Trailing steps) (hi : InnerFree (phrasesOf steps))
    {start : List Token} {width : Nat}
    (hr : (Step.valueChoices start width start).findSome? (onward steps) = some cs) :
    ∃ stop c cs', cs = c :: cs' ∧ route steps stop = some cs' ∧
      upTo (phrasesOf steps) start = (c.taken, stop) := by
  obtain ⟨taken, stop, cs', rfl, hc, hn, rfl, hf⟩ := exists_stop hr
  refine ⟨stop, _, cs', rfl, hn, ?_⟩
  rw [Choice.taken_eq]
  refine upTo_append (h.ends_of_route hn) fun u v he hv ends => ?_
  have closed : ∀ t ∈ v, t.isClosed = true := fun t ht => hc t (by simp [he, ht])
  obtain ⟨cs'', found⟩ := h.exists_route_of_ends hi ((h.reaches hn).append closed) ends
  rw [hf u v he hv] at found
  cases found

theorem captures_skip {key : String} {step : Step} (hk : step.key? = some key)
    (ts : List Token) : step.captures (.skip ts) = [(key, [])] := by
  unfold Step.captures
  rw [hk]
  unfold Step.captured
  rw [Choice.taken_skip]
  cases step <;> rfl

/-- The search finds for the steps behind the first value what the sweep finds. -/
theorem capturesOf_eq (h : Trailing steps) (hi : InnerFree (phrasesOf steps))
    (hr : route steps ts = some cs) : capturesOf steps cs = sweepClauses steps ts := by
  induction h generalizing ts cs with
  | finish =>
      obtain ⟨c, cs', rfl, -, hn⟩ := route_cons_eq_some hr
      cases hn
      rfl
  | options key keywords =>
      cases ho : Phrase.startsAny keywords ts with
      | true =>
          rw [route_options ho] at hr
          cases hr
          simp [capturesOf, sweepClauses, ho, Step.captures, Step.key?, Step.captured, Choice.taken]
      | false =>
          rw [route_of_skip _ (choices_options_of_not ho)] at hr
          obtain ⟨cs', hn, rfl⟩ := Option.map_eq_some_iff.mp hr
          obtain ⟨c, cs'', rfl, -, hn⟩ := route_cons_eq_some hn
          cases hn
          rw [capturesOf, captures_skip rfl, sweepClauses, ho]
          rfl
  | @clause key keyword steps hf h ih =>
      have inner : InnerFree (phrasesOf steps) := hi.of_subset (by
        rw [phrasesOf_clause]
        exact List.subset_cons_self _ _)
      cases hk : keyword.after? ts with
      | none =>
          rw [route_of_skip _ (choices_clause_of_none hk)] at hr
          obtain ⟨cs', hn, rfl⟩ := Option.map_eq_some_iff.mp hr
          rw [capturesOf, captures_skip rfl, ih inner hn, sweepClauses, hk]
          rfl
      | some after =>
          obtain ⟨t, ht, rfl⟩ := Phrase.after?_eq_some hk
          rw [(Trailing.clause key hf h).route_clause_of_spells ht] at hr
          obtain ⟨stop, c, cs', rfl, hn, swept⟩ := h.exists_upTo_eq inner hr
          rw [capturesOf, ih inner hn, sweepClauses, hk]
          simp only [swept]
          rfl

end Trailing

namespace Pattern
variable {p : Pattern} {d : Dialect} {k key value : String} {phrases : List Phrase}
  {most : Option Nat} {steps : List Step}

/-- The search finds in a text what the sweep finds. -/
theorem Regular.sweep_eq (h : p.Regular k key value phrases most steps) {t : Text}
    {captures : Captures} (hm : matchSteps d p.steps t = some captures) :
    captures = p.sweep d t := by
  rw [matchSteps_eq] at hm
  obtain ⟨cs, hr, rfl⟩ := Option.map_eq_some_iff.mp hm
  rw [h.steps_eq] at hr ⊢
  rw [sweep, h.steps_eq]
  rw [route_cons, Step.choices] at hr
  cases hb : Phrase.afterAny? [[k]] (skipSpace (ofText d t)) with
  | none =>
      rw [hb] at hr
      cases hr
  | some behind =>
      rw [hb] at hr
      obtain ⟨cs', hr', rfl⟩ := Option.map_eq_some_iff.mp (List.findSome?_singleton ▸ hr)
      obtain ⟨rest, run, cs'', rfl, rfl, longest, hv⟩ :=
        h.trailing.modifiers_longest h.single h.disjoint hr'
      rw [route_cons, Step.choices] at hv
      obtain ⟨stop, c, cs, rfl, hn, swept⟩ := h.trailing.exists_upTo_eq h.innerFree hv
      simp only [hb, Option.getD_some, longest.modifierRun_eq, swept]
      rw [capturesOf, capturesOf, capturesOf, h.trailing.capturesOf_eq h.innerFree hn]
      rfl

end Pattern

/-- A statement that hides its subqueries is split by matching what is left of it when they are
taken out, and they are put back into the parts. -/
theorem exists_extraction {s : Settings} {t : Text} {type : StatementType} {p : Pattern}
    {parts : Parts} (h : split s t = .ok parts) (ht : type ∈ [.select, .update, .delete])
    (hd : StatementType.detect s.dialect t = some type)
    (hp : Pattern.ofType? s.dialect type = some p) :
    ∃ e captures, Subquery.extract s t = .ok e ∧
      matchSteps s.dialect p.steps e.outer = some captures ∧
        parts = Subquery.injectParts s.dialect e.sets ⟨captures⟩ := by
  obtain ⟨p', hp', hides, -⟩ := StatementType.exists_pattern_of_mem s.dialect ht
  cases hp.symm.trans hp'
  have matched {u : Text} {parts : Parts} (h : p.parts s.dialect t u = .ok parts) :
      ∃ captures, matchSteps s.dialect p.steps u = some captures ∧ parts = ⟨captures⟩ := by
    rw [Pattern.parts] at h
    split at h
    · rename_i captures hm
      cases h
      exact ⟨captures, hm, rfl⟩
    · cases h
  rw [split, hd] at h
  dsimp only at h
  rw [hp] at h
  dsimp only at h
  rw [if_pos hides, Pattern.partsAround] at h
  split at h
  · obtain ⟨e, he, h⟩ := bind_eq_ok_iff.mp h
    obtain ⟨found, hf, h⟩ := bind_eq_ok_iff.mp h
    obtain ⟨captures, hm, rfl⟩ := matched hf
    cases h
    exact ⟨e, captures, he, hm, rfl⟩
  · rename_i none
    obtain ⟨captures, hm, rfl⟩ := matched h
    have whole := Subquery.extract_of_not_hasSubquery ht hd (by simpa using none)
    exact ⟨_, captures, whole, hm, rfl⟩

/-- SELECT, UPDATE and DELETE are split without going back: what the search finds in the text
without subqueries is what one sweep over it finds. -/
theorem split_sweep {s : Settings} {t : Text} {type : StatementType} {p : Pattern} {parts : Parts}
    (h : split s t = .ok parts) (ht : type ∈ [.select, .update, .delete])
    (hd : StatementType.detect s.dialect t = some type)
    (hp : Pattern.ofType? s.dialect type = some p) :
    ∃ e, Subquery.extract s t = .ok e ∧
      matchSteps s.dialect p.steps e.outer = some (p.sweep s.dialect e.outer) ∧
        parts = Subquery.injectParts s.dialect e.sets ⟨p.sweep s.dialect e.outer⟩ := by
  obtain ⟨e, captures, he, hm, rfl⟩ := exists_extraction h ht hd hp
  have plain := StatementType.isInsertLike_of_mem ht
  obtain ⟨k, -, -, cases⟩ := Pattern.exists_regular hp plain
  obtain ⟨p', hp', hides, -⟩ := StatementType.exists_pattern_of_mem s.dialect ht
  cases hp.symm.trans hp'
  obtain ⟨key, value, phrases, most, regular⟩ := cases.resolve_right fun hset => by
    simp [hides] at hset
  obtain rfl := regular.sweep_eq hm
  exact ⟨e, he, hm, rfl⟩

/-- A modifier, a subquery that hides a keyword, a keyword inside a literal, and an unclosed quote
in the options. -/
theorem split_sweep_select :
    split {} "SELECT ALL a FROM (SELECT b FROM u) v WHERE c = ' LIMIT ' INTO OUTFILE 'd".toList =
      .ok ⟨[("select", "ALL".toList), ("columns", "a".toList),
        ("from", "(SELECT b FROM u) v".toList), ("where", "c = ' LIMIT '".toList),
        ("group by", []), ("having", []), ("order by", []), ("limit", []),
        ("options", "INTO OUTFILE 'd".toList)]⟩ ∧
    ∃ e, Subquery.extract {}
        "SELECT ALL a FROM (SELECT b FROM u) v WHERE c = ' LIMIT ' INTO OUTFILE 'd".toList = .ok e ∧
      matchSteps .mysql ((Pattern.ofType? .mysql .select).get rfl).steps e.outer =
        some (((Pattern.ofType? .mysql .select).get rfl).sweep .mysql e.outer) := by
  let t : Text :=
    "SELECT ALL a FROM (SELECT b FROM u) v WHERE c = ' LIMIT ' INTO OUTFILE 'd".toList
  have accepted : split {} t = .ok ⟨[("select", "ALL".toList), ("columns", "a".toList),
      ("from", "(SELECT b FROM u) v".toList), ("where", "c = ' LIMIT '".toList),
      ("group by", []), ("having", []), ("order by", []), ("limit", []),
      ("options", "INTO OUTFILE 'd".toList)]⟩ := by decide +kernel
  have select : StatementType.detect .mysql t = some .select := by decide +kernel
  obtain ⟨e, extracted, swept, -⟩ := split_sweep accepted (by decide) select rfl
  exact ⟨accepted, e, extracted, swept⟩

end SqlStatement
