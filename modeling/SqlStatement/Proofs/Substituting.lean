import SqlStatement.Proofs.Recording
import SqlStatement.Proofs.Transcribing

/-!
# Other texts for the parts of a statement

What a route takes for a part keeps to itself, since a value ends in front of
the first phrase that may stand behind it. So the parts of a statement fit its
steps, and any of them may be exchanged for other texts that do: the statement
that is written then has the exchanged parts, and the others as they were.
-/
namespace SqlStatement
open Token
variable {d : Dialect} {limit : Nat} {steps : List Step} {f : String → Text}

/-- A phrase in front of tokens ends with a word. -/
theorem Phrase.startsAny_of_concat {phrases : List Phrase} {ts : List Token} {m : Token}
    (hm : m.isWord = false) (h : startsAny phrases (ts ++ [m]) = true) :
    startsAny phrases ts = true := by
  obtain ⟨p, hp, t, ht, hpre⟩ := startsAny_iff.mp h
  refine startsAny_iff.mpr ⟨p, hp, t, ht, ?_⟩
  rcases List.prefix_concat_iff.mp hpre with rfl | inside
  · rcases ht.mem (by simp : m ∈ ts ++ [m]) with hs | ⟨_, _, _, rfl, _⟩
    · obtain ⟨b, rfl⟩ := exists_space hs
      exact absurd rfl ht.before_space.1
    · cases hm
  · exact inside

namespace Fits

theorem cons {step : Step} (first : step.Fits d limit steps f) (h : Fits d limit steps f) :
    Fits d limit (step :: steps) f := by
  intro step' rest hs
  rcases List.suffix_cons_iff.mp hs with he | hs
  · cases he
    exact first
  · exact h step' rest hs

/-- Options are read again when they are trimmed. -/
theorem options_trimWhere {keywords : List Phrase} {p : Char → Bool} {t : Text}
    (hp : ∀ c, p c = true → Text.isSlack c = true)
    (h : Sealed d limit (d.veil t) ∧ ';' ∉ t ∧ Phrase.startsAny keywords (d.veil t) = true) :
    Sealed d limit (d.veil (Text.trimWhere p t)) ∧ ';' ∉ Text.trimWhere p t ∧
      Phrase.startsAny keywords (d.veil (Text.trimWhere p t)) = true := by
  refine Text.trimWhere_induction (P := fun t => Sealed d limit (d.veil t) ∧ ';' ∉ t ∧
    Phrase.startsAny keywords (d.veil t) = true) ?_ ?_ h
  · rintro c t hc ⟨sealed, -, begins⟩
    obtain ⟨veil, -⟩ := sealed.of_cons (hp c hc)
    rcases attach_or (Text.isWordChar_of_isSlack (hp c hc)) (d.veil t) with he | ⟨b, he⟩ <;>
      rw [veil, he, startsAny_of_not_word _ rfl] at begins <;> cases begins
  · rintro t c hc ⟨sealed, plain, begins⟩
    obtain ⟨veil, rest⟩ := sealed.of_concat (hp c hc)
    obtain ⟨front, m, behind, he, hm, hf, hb⟩ :=
      exists_beside (Text.isWordChar_of_isSlack (hp c hc)) rest.legible.tidy tidy_nil
    have last : behind = [] := by rcases hb with rfl | rfl <;> rfl
    subst last
    rw [veil, he] at begins
    have front := Phrase.startsAny_of_concat (by rcases hm with rfl | ⟨-, b, rfl⟩ <;> rfl) begins
    refine ⟨rest, fun hm => plain (by simp [hm]), ?_⟩
    obtain ⟨q, hq, u, hu, hpre⟩ := Phrase.startsAny_iff.mp front
    refine Phrase.startsAny_iff.mpr ⟨q, hq, u, hu, ?_⟩
    rcases hf with hf | ⟨b, hf⟩ <;> rw [hf]
    · exact hpre
    · exact hpre.trans (List.prefix_append ..)

/-- Texts that fit fit when they are trimmed. -/
theorem trimWhere {p : Char → Bool} (hp : ∀ c, p c = true → Text.isSlack c = true)
    (h : Fits d limit steps f) : Fits d limit steps fun key => Text.trimWhere p (f key) := by
  intro step rest hs
  have fits := h step rest hs
  cases step with
  | clause key keyword => exact (Contained.trimWhere hp fits).1
  | options key keywords =>
      rcases fits with none | fits
      · exact .inl (congrArg (Text.trimWhere p) none)
      · exact .inr (options_trimWhere hp fits)
  | lead | modifiers | value | columnList | rows | query | finish => trivial

end Fits

/-- What a value takes from sealed tokens keeps to itself. -/
theorem Token.Sealed.contained_taken {ts taken : List Token} {phrases : List Phrase}
    (h : Sealed d limit ts) (hi : taken <:+: ts) (hc : ∀ t ∈ taken, t.isClosed = true)
    (hq : Quiet phrases taken) (plain : .symbol ';' ∉ ts) :
    Contained d limit phrases [] (Text.trim (textOf taken)) := by
  have part := h.of_infix hi hc
  have whole : Contained d limit phrases [] (textOf taken) := by
    refine ⟨?_, ?_, ?_, ?_, ?_⟩ <;> rw [part.veil_textOf]
    · exact part
    · exact hc
    · exact hq
    · rw [Unled]
      cases (taken.dropWhile Token.isSlack).head? <;> rfl
    · exact fun hm => plain (hi.subset hm)
  exact (whole.trimWhere fun c hc => Text.isSlack_of_isWhite hc).1

/-- What a route takes fits the steps. -/
theorem Trailing.fits_of_route {ts : List Token} {cs : List Choice} (ht : Trailing steps)
    (hr : route steps ts = some cs) (hs : Sealed d limit ts) (plain : ';' ∉ textOf ts)
    (hf : ∀ p ∈ capturesOf steps cs, f p.1 = p.2) : Fits d limit steps f := by
  have shown {ts : List Token} (plain : ';' ∉ textOf ts) : .symbol ';' ∉ ts := fun hm =>
    plain (List.mem_flatMap.mpr ⟨_, hm, by simp [text]⟩)
  have none : Fits d limit [] f := fun _ _ hs => by simp at hs
  induction ht generalizing ts cs with
  | finish => exact .cons trivial none
  | options key keywords =>
      refine .cons ?_ (.cons trivial none)
      cases ho : Phrase.startsAny keywords ts with
      | true =>
          rw [route_options ho] at hr
          cases hr
          have taken : textOf (Choice.mk ts [] [] ts.length).taken = textOf ts := by
            simp [Choice.taken]
          have text : f key = Text.trim (textOf ts) := by
            have captured : (Step.options key keywords).captured _ = Text.trim (textOf _) :=
              captured_of_not_options ⟨ts, [], [], ts.length⟩ fun _ _ _ => by rwa [taken]
            rw [← taken, ← captured]
            exact hf _ (List.mem_cons_self ..)
          refine .inr ?_
          rw [text]
          exact Fits.options_trimWhere (fun c hc => Text.isSlack_of_isWhite hc)
            ⟨by rwa [hs.veil_textOf], plain, by rwa [hs.veil_textOf]⟩
      | false =>
          rw [route_of_skip _ (choices_options_of_not ho)] at hr
          obtain ⟨cs', -, rfl⟩ := Option.map_eq_some_iff.mp hr
          have text := hf _ (List.mem_cons_self ..)
          simp only [Step.captured, Step.optionsText, Choice.taken_skip] at text
          exact .inl text
  | @clause key keyword steps absent ht ih =>
      rcases (Trailing.clause key absent ht).clause_cases hr with
        ⟨cs', rfl, hr'⟩ | ⟨t, gap, stop, c, cs', -, -, rfl, rfl, closed, quiet, hr'⟩
      · refine .cons ?_ (ih hr' hs plain fun p hp => hf p (List.mem_cons_of_mem _ hp))
        have text : f key = Text.trim (textOf (Choice.skip ts).taken) :=
          hf _ (List.mem_cons_self ..)
        rw [Choice.taken_skip] at text
        rw [Step.Fits, text]
        exact .nil
      · have suffix : stop <:+ t ++ (gap ++ (c.taken ++ stop)) := by
          rw [← List.append_assoc, ← List.append_assoc]
          exact List.suffix_append ..
        refine .cons ?_ (ih hr' (hs.of_suffix suffix) (fun hm => plain ?_)
          fun p hp => hf p (List.mem_cons_of_mem _ hp))
        · have text : f key = Text.trim (textOf c.taken) := hf _ (List.mem_cons_self ..)
          rw [Step.Fits, text]
          refine hs.contained_taken ?_ closed quiet (shown plain)
          rw [← List.append_assoc]
          exact List.infix_append' ..
        · obtain ⟨u, hu, hm⟩ := List.mem_flatMap.mp hm
          exact List.mem_flatMap.mpr ⟨u, suffix.subset hu, hm⟩

/-- Modifiers are words, so nothing is trimmed off them but the blanks around them. -/
theorem Longest.trimWhere_textOf {phrases : List Phrase} {most : Option Nat}
    {run rest : List Token} (h : Longest phrases most run rest) (ht : Tidy run) :
    Text.trim (textOf run) = textOf (strip run) ∧
      ∀ p : Char → Bool, (∀ c, p c = true → Text.isSlack c = true) →
        Text.trimWhere p (textOf (strip run)) = textOf (strip run) := by
  rcases h.cases_part with rfl | ⟨b, part, rfl, firm⟩
  · exact ⟨rfl, fun _ _ => rfl⟩
  have same : strip (.space b :: part) = part := by
    have := strip_eq_self firm.head firm.last
    rw [strip] at this ⊢
    rwa [List.dropWhile_cons_of_pos (by rfl)]
  have proper : ∀ t ∈ part, t.isSpace = false → t.Proper ∧ t.isWord = true := fun t hm hs =>
    ⟨ht.proper t (by simp [hm]),
      (h.bare t (by simp [hm])).resolve_right (by simp [hs])⟩
  have edge {t : Token} (hm : t ∈ part) (hs : t.isSpace = false) :
      t.text ≠ [] ∧ ∀ c ∈ t.text, Text.isSlack c = false := by
    obtain ⟨proper, word⟩ := proper t hm hs
    cases t with
    | word w =>
        refine ⟨proper.1, fun c hc => ?_⟩
        by_contra slack
        have := Text.isWordChar_of_isSlack (by simpa using slack)
        rw [proper.2 c hc] at this
        cases this
    | space | quoted | symbol | unterminated => cases word
  have trimmed (p : Char → Bool) (hp : ∀ c, p c = true → Text.isSlack c = true) :
      Text.trimWhere p (textOf part) = textOf part := by
    have kept {c : Char} (hc : Text.isSlack c = false) : p c = false := by
      by_contra slack
      rw [hp c (by simpa using slack)] at hc
      cases hc
    refine Text.trimWhere_of_ends (fun c hc => kept ?_) fun c hc => kept ?_
    · obtain ⟨t, us, rfl⟩ := List.exists_cons_of_ne_nil firm.ne_nil
      obtain ⟨full, dark⟩ := edge (List.mem_cons_self ..) (firm.head t rfl)
      rw [textOf_cons, List.head?_append_of_ne_nil _ full] at hc
      exact dark c (List.mem_of_mem_head? hc)
    · obtain ⟨us, t, rfl⟩ := List.eq_nil_or_concat' part |>.resolve_left firm.ne_nil
      obtain ⟨full, dark⟩ := edge (t := t) (by simp) (firm.last t (by simp))
      rw [textOf_append, textOf_cons, textOf_nil, List.append_nil,
        List.getLast?_append_of_ne_nil _ full] at hc
      exact dark c (List.mem_of_mem_getLast? hc)
  rw [same]
  refine ⟨?_, trimmed⟩
  have blank : Text.trim b = [] := by
    have := trim_textOf_of_blanks (tidy_singleton (ht.proper _ (List.mem_cons_self ..)))
      (by simp [Blanks, isSpace])
    simpa [text] using this
  rw [textOf_cons]
  exact (Text.trim_append_left blank).trans
    (trimmed Text.isWhite fun c hc => Text.isSlack_of_isWhite hc)

theorem OrderedMap.get?_of_mem {κ α : Type} [DecidableEq κ] {m : OrderedMap κ α}
    (hn : m.keys.Nodup) {p : κ × α} (hp : p ∈ m.toList) : m.get? p.1 = some p.2 := by
  obtain ⟨l⟩ := m
  rw [get?]
  rw [keys] at hn
  dsimp only at hn hp ⊢
  induction l with
  | nil => simp at hp
  | cons q l ih =>
      rw [List.map_cons, List.nodup_cons] at hn
      rw [find?]
      rcases List.mem_cons.mp hp with rfl | hp
      · exact if_pos rfl
      · rw [if_neg]
        · exact ih hn.2 hp
        · intro same
          exact hn.1 (same ▸ List.mem_map_of_mem hp)

theorem Parts.text_of_mem {ps : Parts} (hn : ps.keys.Nodup) {p : String × Text}
    (hp : p ∈ ps.toList) : text ps p.1 = p.2 := by
  rw [text, OrderedMap.get?_of_mem hn hp]
  rfl

/-- The parts of a statement, seen as the texts that its steps fill. -/
theorem Parts.eq_partsOf {ps : Parts} (hn : ps.keys.Nodup)
    (keys : ps.keys = steps.filterMap Step.key?) : ps = ⟨partsOf steps (text ps)⟩ := by
  have filled : partsOf steps (text ps) = ps.keys.map fun key => (key, text ps key) := by
    rw [keys, List.map_filterMap]
    rfl
  have same : ps.toList.map (fun p => (p.1, text ps p.1)) = ps.toList.map id :=
    List.map_congr_left fun p hp => by rw [text_of_mem hn hp]; rfl
  rw [filled, OrderedMap.keys, List.map_map]
  exact congrArg OrderedMap.mk (same.trans (List.map_id _)).symm

namespace Pattern.Regular
variable {s : Settings} {t : Text} {stated : Parts} {p : Pattern} {k key value : String}
  {phrases : List Phrase} {most : Option Nat}

/-- The parts of a statement whose parentheses are closed around its subqueries keep to
themselves. -/
theorem exists_parts (h : p.Regular k key value phrases most steps)
    (hd : StatementType.detect s.dialect t = some (.ofPhrase k.toList))
    (hp : Pattern.ofType? s.dialect (.ofPhrase k.toList) = some p)
    (hides : p.hidesSubqueries = true) (hs : split s t = .ok stated)
    (unmarked : ¬Subquery.hashSub <:+: Piece.ofText s.dialect t)
    (semicolon : ';' ∉ t) (shut : Shut (s.dialect.veil t)) :
    (∃ run rest, Longest phrases most run rest ∧ Legible s.dialect run ∧
      Parts.text stated key = Text.trim (textOf run)) ∧
      Contained s.dialect s.maxNesting (phrasesOf steps) [] (Parts.text stated value) ∧
      Fits s.dialect s.maxNesting steps (Parts.text stated) := by
  have nodup := nodup_keys_split hs
  obtain ⟨deep, cs, hr, rfl⟩ := (split_eq_ok_iff hd hp unmarked semicolon).mp hs
  have sealed : Sealed s.dialect s.maxNesting (p.tokens s.dialect t) := by
    rw [Pattern.tokens, if_pos hides]
    exact .of_veil shut unmarked (deep hides)
  have plain : ';' ∉ textOf (p.tokens s.dialect t) := by rwa [p.textOf_tokens]
  generalize p.tokens s.dialect t = ts at hr sealed plain
  obtain ⟨gap, w, c₀, c₁, rest, cs, rfl, -, -, -, he, longest, hr⟩ := h.exists_reading hr
  rw [route_cons, Step.choices] at hr
  obtain ⟨stop, c, cs, rfl, cut, closed, quiet, hr⟩ := h.trailing.exists_quiet hr
  obtain ⟨before, -, hb⟩ := skipSpace_eq rest
  have whole : ts = (gap ++ .word w :: c₁.taken) ++ (before ++ (c.taken ++ stop)) := by
    rw [he, ← cut, ← hb]
    simp
  have captures : capturesOf p.steps (c₀ :: c₁ :: c :: cs) =
      (key, Text.trim (textOf c₁.taken)) :: (value, Text.trim (textOf c.taken)) ::
        capturesOf steps cs := by
    rw [h.steps_eq]
    rfl
  have text {q : String × Text} (hq : q ∈ capturesOf p.steps (c₀ :: c₁ :: c :: cs)) :
      Parts.text ⟨capturesOf p.steps (c₀ :: c₁ :: c :: cs)⟩ q.1 = q.2 :=
    Parts.text_of_mem nodup hq
  have behind : stop <:+ ts := by
    rw [whole, ← List.append_assoc before, ← List.append_assoc]
    exact List.suffix_append ..
  refine ⟨⟨c₁.taken, rest, longest, ?_, ?_⟩, ?_, ?_⟩
  · refine Sealed.legible (sealed.of_infix ?_ longest.bare.isClosed)
    rw [he, List.append_cons]
    exact List.infix_append' ..
  · exact text (q := (key, Text.trim (textOf c₁.taken))) (captures ▸ List.mem_cons_self ..)
  · rw [text (q := (value, Text.trim (textOf c.taken)))
      (captures ▸ List.mem_cons_of_mem _ (List.mem_cons_self ..))]
    refine sealed.contained_taken ?_ closed quiet fun hm => plain ?_
    · rw [whole, ← List.append_assoc]
      exact List.infix_append' ..
    · exact List.mem_flatMap.mpr ⟨_, hm, by simp [Token.text]⟩
  · refine h.trailing.fits_of_route hr (sealed.of_suffix behind) (fun hm => plain ?_)
      fun q hq => text (by simp [captures, hq])
    obtain ⟨u, hu, hm⟩ := List.mem_flatMap.mp hm
    exact List.mem_flatMap.mpr ⟨u, behind.subset hu, hm⟩

/-- A statement stays readable when texts that keep to themselves are put in place of its parts:
it is split into these texts, without what joining trims. -/
theorem split_substituted {run rest : List Token} (h : p.Regular k key value phrases most steps)
    (hp : Pattern.ofType? s.dialect (.ofPhrase k.toList) = some p)
    (hk : k ∈ StatementType.keywords) (hides : p.hidesSubqueries = true)
    (longest : Longest phrases most run rest) (legible : Legible s.dialect run)
    (same : f key = Text.trim (textOf run))
    (hv : Contained s.dialect s.maxNesting (phrasesOf steps) phrases (f value))
    (hf : Fits s.dialect s.maxNesting steps f) :
    split s (Parts.join ⟨partsOf p.steps f⟩) =
      .ok ⟨(partsOf p.steps f).map fun q =>
        (q.1, Text.trim (Text.trimWhere Parts.isPadding q.2))⟩ := by
  obtain ⟨k', hk', type, key', keywords, first, steps', opens⟩ := p.exists_opens hp
  cases StatementType.ofPhrase_injective k hk k' hk' type
  obtain ⟨-, he⟩ := List.cons.inj (h.steps_eq.symm.trans opens.steps_eq)
  obtain ⟨rfl, -⟩ := List.cons.inj he
  obtain rfl : key = key' := Option.some.inj opens.key_eq
  obtain ⟨trimmed, padded⟩ := longest.trimWhere_textOf legible.tidy
  have slack : ∀ c, Parts.isPadding c = true → Text.isSlack c = true :=
    fun c hc => Text.isSlack_of_isPadding hc
  have part : Legible s.dialect (strip run) := by
    obtain ⟨before, after, he⟩ := isInfix_strip run
    have closed := longest.bare.isClosed
    rw [← he] at legible closed
    exact (legible.left (.inl fun t ht => closed t (List.mem_append_left _ ht))).right
  have written := h.split_written hp hk hides (longest.again id) part
    (f := fun key => Text.trimWhere Parts.isPadding (f key)) (hv.trimWhere slack).1
    (hf.trimWhere slack)
  have parts : partsOf p.steps f = (key, f key) :: partsOf (.value value :: steps) f := by
    rw [h.steps_eq]
    rfl
  have mapped : (partsOf (.value value :: steps) f).map
      (fun q => (q.1, Text.trimWhere Parts.isPadding q.2)) =
        partsOf (.value value :: steps) fun key => Text.trimWhere Parts.isPadding (f key) := by
    rw [partsOf, List.map_filterMap]
    refine List.filterMap_congr fun step _ => ?_
    cases step.key? <;> rfl
  have plain : (Parts.type? ⟨(key, f key) :: partsOf (.value value :: steps) f⟩).any
      StatementType.isInsertLike = false := by
    rw [Parts.type?, OrderedMap.keys, List.map_cons, List.head?_cons, Option.map_some,
      opens.upper_key]
    exact Pattern.isInsertLike_of_hides hp hides
  have head : Parts.fragment false key (Text.trimWhere Parts.isPadding (f key)) =
      textOf (headline k (strip run)) := by
    rw [same, trimmed, padded _ slack, Parts.fragment_eq, if_neg opens.unprefixed, opens.upper_key,
      headline]
    simp only [List.isEmpty_iff, textOf_eq_nil_iff part]
    split <;> simp [Token.text]
  have full : textOf (headline k (strip run)) ≠ [] := by
    have word : textOf (Phrase.tokens [k]) ≠ [] :=
      (opens.plain.legible_tokens s.dialect).textOf_ne_nil (by simp [Phrase.tokens])
    rw [headline_eq, ← List.singleton_append, textOf_append]
    exact List.append_ne_nil_of_left_ne_nil word _
  rw [parts, Parts.join_cons plain (head ▸ full), head, mapped, written, List.map_cons, ← mapped,
    List.map_map, same, trimmed, padded _ slack]
  rfl

end Pattern.Regular
end SqlStatement
