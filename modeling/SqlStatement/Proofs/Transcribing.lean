import SqlStatement.Proofs.Confining

/-!
# Writing parts and reading them again

Parts whose texts keep to themselves are read again as they were written: the
statement is their tokens one after the other, each behind its keyword, and what
stands behind a part begins with a keyword or is nothing. So every value ends
where it was written to end, whatever stands in it. The parts need not come from
a statement; all that counts is each text by itself.
-/
namespace SqlStatement
open Token
variable {d : Dialect} {limit : Nat} {words : List Phrase}

namespace Text

/-- Two texts with a space between them, or the one that is there. -/
def spaced (t u : Text) : Text := if t = [] then u else if u = [] then t else t ++ ' ' :: u

theorem joinWith_space_cons {t : Text} {ts : List Text} (ht : t ≠ []) (h : ∀ u ∈ ts, u ≠ []) :
    joinWith [' '] (t :: ts) = spaced t (joinWith [' '] ts) := by
  rw [spaced, if_neg ht]
  cases ts with
  | nil => rfl
  | cons u us =>
      have full : joinWith [' '] (u :: us) ≠ [] := by
        have := h u (by simp)
        cases us <;> simp [joinWith, this]
      rw [joinWith_cons_cons, if_neg full, List.append_assoc]
      rfl

end Text

theorem Token.trim_textOf_of_blanks {ts : List Token} (ht : Tidy ts) (hb : Blanks ts) :
    Text.trim (textOf ts) = [] := by
  refine Text.trim_eq_nil_iff.mpr fun c hc => Text.isWhite_of_isBlank ?_
  by_contra blank
  exact not_mem_textOf_of_blanks ht hb (by simpa using blank) hc

namespace Begins
variable {phrases : List Phrase} {ts : List Token} (h : Begins phrases ts)
include h

/-- What begins with phrases begins with no word that begins none of them. -/
theorem unled (hd : ∀ m ∈ words, ∀ q ∈ phrases, q.head? ≠ m.head?) : Unled words ts := by
  rcases h with rfl | h
  · exact .nil
  · obtain ⟨p, hp, t, ht, us, rfl⟩ := Phrase.startsAny_iff.mp h
    obtain ⟨k, ks, w, vs, rfl, rfl, hk⟩ := ht.head
    change isModifier words (.word w) = false
    by_contra modifier
    obtain ⟨k', w', hm, he, hk'⟩ := isModifier_iff.mp (by simpa using modifier)
    cases he
    exact hd _ hm _ hp (by rw [List.head?_cons, List.head?_cons, Phrase.keyword_unique hk hk'])

theorem selects_eq_false (hs : ∀ q ∈ phrases, q.head? ≠ some "SELECT") : selects ts = false := by
  have unled : Unled [["SELECT"]] ts := h.unled (by simpa using hs)
  exact unled.selects_eq_false

/-- A phrase begins with no blank. -/
theorem skipSpace_eq_self : skipSpace ts = ts := by
  rcases h with rfl | h
  · rfl
  · obtain ⟨p, hp, t, ht, us, rfl⟩ := Phrase.startsAny_iff.mp h
    obtain ⟨k, ks, w, vs, rfl, rfl, -⟩ := ht.head
    rfl

end Begins

section Values
variable {steps : List Step} {w R : Text} {cs : List Choice}

/-- A contained text ends in front of what the steps behind it read, be it with blanks at its
ends. -/
theorem Contained.exists_cut {phrases : List Phrase} (hw : Contained d limit phrases words w)
    (hR : Sealed d limit (d.veil R)) (hs : selects (d.veil R) = false)
    (hf : skipSpace (d.veil R) = d.veil R) :
    Sealed d limit (d.veil (Text.spaced w R)) ∧
      (Unled words (d.veil R) → Unled words (d.veil (Text.spaced w R))) ∧
      ∃ part gap, skipSpace (d.veil (Text.spaced w R)) = part ++ (gap ++ d.veil R) ∧
        part <:+: d.veil w ∧
        (gap = [] ∧ (part = [] ∨ d.veil R = []) ∨ d.veil R ≠ [] ∧ ∃ b, gap = [space b]) := by
  by_cases none : w = []
  · rw [Text.spaced, if_pos none, none, Dialect.veil_nil]
    exact ⟨hR, id, [], [], by rw [hf]; rfl, List.nil_infix, .inl ⟨rfl, .inl rfl⟩⟩
  by_cases last : R = []
  · rw [Text.spaced, if_neg none, if_pos last, last, Dialect.veil_nil]
    obtain ⟨gap, -, hg⟩ := skipSpace_eq (d.veil w)
    refine ⟨hw.isSealed, fun _ => hw.unled, _, [], (List.append_nil _).symm, ?_,
      .inl ⟨rfl, .inr rfl⟩⟩
    exact ⟨gap, [], by rw [List.append_nil, ← hg]⟩
  have full : d.veil R ≠ [] := by
    intro empty
    have := textOf_veil d R
    rw [empty] at this
    exact last this.symm
  obtain ⟨veil, whole⟩ := hw.isSealed.veil_append_cons (c := ' ') hw.closed hR (by simp)
    fun _ => hs
  obtain ⟨front, b, he, hf'⟩ := exists_beside_blank (c := ' ') (by decide)
    hw.isSealed.legible.tidy hR.legible.tidy
  have before : front <+: d.veil w := by
    rcases hf' with hf' | ⟨b, hf'⟩ <;> rw [hf']
    exact List.prefix_append ..
  rw [hf] at he
  rw [Text.spaced, if_neg none, if_neg last, veil, he]
  refine ⟨he ▸ veil ▸ whole,
    fun hu => (hw.unled.of_prefix before).append_cons rfl fun _ => hu, ?_⟩
  cases front with
  | nil => exact ⟨[], [], hf.symm ▸ rfl, List.nil_infix, .inl ⟨rfl, .inl rfl⟩⟩
  | cons t front =>
      obtain ⟨gap, -, hg⟩ := skipSpace_eq (t :: front)
      refine ⟨skipSpace (t :: front), [space b], ?_, ?_, .inr ⟨full, b, rfl⟩⟩
      · cases t <;> rfl
      · exact List.IsInfix.trans ⟨gap, [], by rw [List.append_nil, ← hg]⟩ before.isInfix

/-- A contained text is the value that is read in front of what the steps behind it read. -/
theorem Contained.exists_value (hw : Contained d limit (phrasesOf steps) words w)
    (h : Trailing steps) (hi : InnerFree (phrasesOf steps)) (hR : Sealed d limit (d.veil R))
    (hs : selects (d.veil R) = false) (hb : Begins (phrasesOf steps) (d.veil R))
    (hr : route steps (d.veil R) = some cs) (width : Nat) :
    ∃ c : Choice, Text.trim (textOf c.taken) = Text.trim w ∧
      (Step.valueChoices (skipSpace (d.veil (Text.spaced w R))) width
        (skipSpace (d.veil (Text.spaced w R)))).findSome? (onward steps) = some (c :: cs) := by
  obtain ⟨whole, -, part, gap, cut, inside, apart⟩ :=
    hw.exists_cut hR hs hb.skipSpace_eq_self
  have found := h.value_apart hi (hw.quiet.of_infix inside)
    (fun hm => hw.semicolon (inside.subset hm)) (fun t ht => hw.closed t (inside.subset ht)) apart
    hb hr (part ++ (gap ++ d.veil R)) width
  rw [cut]
  refine ⟨_, ?_, found⟩
  rw [← List.append_assoc, Choice.taken_eq]
  -- The text in front of `R` is `w` with a space or without.
  obtain ⟨before, hg, hv⟩ := skipSpace_eq (d.veil (Text.spaced w R))
  have blank := trim_textOf_of_blanks (hv ▸ whole.legible.tidy).left hg
  have text := textOf_veil d (Text.spaced w R)
  rw [hv, cut, ← List.append_assoc part, textOf_append, textOf_append, textOf_veil] at text
  obtain ⟨behind, white, hw'⟩ : ∃ behind, Text.trim behind = [] ∧
      textOf before ++ textOf (part ++ gap) = w ++ behind := by
    rw [← List.append_assoc, Text.spaced] at text
    split at text
    · rename_i none
      refine ⟨[], rfl, ?_⟩
      rw [none, List.append_nil]
      exact List.self_eq_append_left.mp text.symm
    · split at text
      · rename_i last
        refine ⟨[], rfl, ?_⟩
        rw [List.append_nil, ← text, last, List.append_nil]
      · refine ⟨[' '], rfl, List.append_cancel_right (?_ : _ ++ R = _ ++ R)⟩
        rw [text]
        simp
  rw [← Text.trim_append_left blank, hw', Text.trim_append_right white]

end Values

theorem Bare.isClosed {ts : List Token} (h : Bare ts) : ∀ t ∈ ts, t.isClosed = true := by
  intro t ht
  rcases h t ht with hw | hs
  · cases t with
    | word w => rfl
    | space | quoted | symbol | unterminated => cases hw
  · exact isClosed_of_isSpace hs

/-- Words in front of a text and a space stand in front of its tokens. -/
theorem Token.Sealed.exists_lead {ts : List Token} {t : Text} (h : Sealed d limit (d.veil t))
    (hl : Legible d ts) (hb : Bare ts) (last : ∀ t ∈ ts.getLast?, t.isSpace = false) :
    ∃ b, d.veil (textOf ts ++ ' ' :: t) = ts ++ space b :: skipSpace (d.veil t) ∧
      Sealed d limit (d.veil (textOf ts ++ ' ' :: t)) := by
  have lead : Sealed d limit ts := .of_bare hl hb
  have closed := hb.isClosed
  have bare : symbol '(' ∉ ts := fun hm => by simpa [isWord, isSpace] using hb _ hm
  have same := lead.veil_textOf
  obtain ⟨veil, whole⟩ := Sealed.veil_append_cons (a := textOf ts) (c := ' ') (same.symm ▸ lead)
    (same.symm ▸ closed) h (by simp) (by simp [same, bare])
  rw [same] at veil
  obtain ⟨front, b, he, rfl | ⟨b', rfl⟩⟩ := exists_beside_blank (c := ' ') (by decide) hl.tidy
    h.legible.tidy
  · exact ⟨b, veil.trans he, whole⟩
  · have := last (space b') (by simp)
    cases this

/-- The parts behind the first one as they are written. -/
def Parts.written (ps : List (String × Text)) : Text :=
  Text.joinWith [' '] (ps.filterMap fun p =>
    if p.2.isEmpty then none else some (fragment false p.1 p.2))

namespace Parts
variable {key : String} {w : Text} {ps : List (String × Text)}

theorem fragment_eq (key : String) (w : Text) : fragment false key w =
    if key ∈ unprefixed then w
    else if w.isEmpty then Text.upper key.toList else Text.upper key.toList ++ ' ' :: w := by
  simp [fragment]

theorem fragment_ne_nil (key : String) (hw : w ≠ []) : fragment false key w ≠ [] := by
  rw [fragment_eq]
  split
  · exact hw
  · rw [if_neg (by simpa using hw)]
    simp

theorem written_cons_nil (key : String) (ps : List (String × Text)) :
    written ((key, []) :: ps) = written ps := rfl

/-- What stands first is written in front of the other parts. -/
theorem joinWith_cons_written {t : Text} (ht : t ≠ []) (ps : List (String × Text)) :
    Text.joinWith [' '] (t :: ps.filterMap fun p =>
      if p.2.isEmpty then none else some (fragment false p.1 p.2)) =
        Text.spaced t (written ps) := by
  rw [Text.joinWith_space_cons ht, written]
  intro u hu
  obtain ⟨p, -, hp⟩ := List.mem_filterMap.mp hu
  split at hp
  · cases hp
  · rename_i some
    cases hp
    exact fragment_ne_nil p.1 (by simpa using some)

theorem written_cons (key : String) (hw : w ≠ []) (ps : List (String × Text)) :
    written ((key, w) :: ps) = Text.spaced (fragment false key w) (written ps) := by
  have full : w.isEmpty = false := by simpa using hw
  rw [written, List.filterMap_cons_some (b := fragment false key w) (by simp [full]),
    joinWith_cons_written (fragment_ne_nil key hw)]

/-- Parts are joined by writing them without what pads them. -/
theorem join_cons (hi : (type? ⟨(key, w) :: ps⟩).any StatementType.isInsertLike = false)
    (hw : fragment false key (Text.trimWhere isPadding w) ≠ []) :
    join ⟨(key, w) :: ps⟩ = Text.spaced (fragment false key (Text.trimWhere isPadding w))
      (written (ps.map fun p => (p.1, Text.trimWhere isPadding p.2))) := by
  rw [join, hi, fragments, ← joinWith_cons_written hw, List.filterMap_map]
  rfl

end Parts

/-- Steps that read parts in what is written for them, with no semicolon in the options. -/
structure Rereads (d : Dialect) (limit : Nat) (steps : List Step) (ps : List (String × Text)) :
    Prop where
  isSealed : Sealed d limit (d.veil (Parts.written ps))
  begins : Begins (phrasesOf steps) (d.veil (Parts.written ps))
  exists_route : ∃ cs, route steps (d.veil (Parts.written ps)) = some cs ∧ OptionsPlain steps cs ∧
    capturesOf steps cs = ps.map fun p => (p.1, Text.trim p.2)

namespace Rereads
variable {steps : List Step} {ps : List (String × Text)} {key : String} {keyword : Phrase}
  {keywords : List Phrase} {w : Text}

theorem finish : Rereads d limit [.finish] [] := by
  have empty : d.veil (Parts.written []) = [] := d.veil_nil
  refine ⟨?_, ?_, ?_⟩ <;> rw [empty]
  · exact .of_bare legible_nil (by simp [Bare])
  · exact .inl rfl
  · exact ⟨_, route_finish_of_atEnd atEnd_nil, by simp [OptionsPlain], rfl⟩

theorem options_nil (key : String) (keywords : List Phrase) :
    Rereads d limit [.options key keywords, .finish] [(key, [])] := by
  have empty : d.veil (Parts.written [(key, [])]) = [] := d.veil_nil
  refine ⟨?_, ?_, ?_⟩ <;> rw [empty]
  · exact .of_bare legible_nil (by simp [Bare])
  · exact .inl rfl
  · refine ⟨_, (Trailing.options key keywords).route_of_atEnd atEnd_nil, ?_, rfl⟩
    intro key' keywords' c hc
    have taken : c.taken = [] := by
      obtain ⟨-, hm⟩ := List.of_mem_zip hc
      obtain ⟨_, -, rfl⟩ := List.mem_map.mp hm
      exact Choice.taken_skip []
    simp [taken]

theorem options (hw : w ≠ []) (unprefixed : key ∈ Parts.unprefixed)
    (hs : Sealed d limit (d.veil w)) (plain : ';' ∉ w)
    (begins : Phrase.startsAny keywords (d.veil w) = true) :
    Rereads d limit [.options key keywords, .finish] [(key, w)] := by
  have text : Parts.written [(key, w)] = w := by
    rw [Parts.written_cons key hw, Parts.fragment_eq, if_pos unprefixed, Text.spaced, if_neg hw]
    rfl
  have taken : textOf (Choice.mk (d.veil w) [] [] (d.veil w).length).taken = w := by
    simp [Choice.taken, textOf_veil]
  refine ⟨?_, ?_, ?_⟩ <;> rw [text]
  · exact hs
  · rw [phrasesOf_options]
    exact .inr begins
  · refine ⟨_, route_options begins, fun key' keywords' c hc => ?_, ?_⟩
    · simp only [List.zip_cons_cons, List.zip_nil_right, List.mem_cons, Prod.mk.injEq,
        List.not_mem_nil, or_false, reduceCtorEq, false_and] at hc
      rw [hc.2, taken]
      exact plain
    · rw [capturesOf, Step.captures, Step.key?, captured_of_not_options _ fun _ _ _ => ?_, taken]
      · rfl
      · rwa [taken]

section Clause
variable (h : Rereads d limit steps ps) (ht : Trailing (.clause key keyword :: steps))
include h ht

theorem clause_nil : Rereads d limit (.clause key keyword :: steps) ((key, []) :: ps) := by
  obtain ⟨cs, hr, options, captures⟩ := h.exists_route
  have absent : ∀ p ∈ phrasesOf steps, p.head? ≠ keyword.head? := by
    cases ht with
    | clause _ absent _ => exact absent
  refine ⟨?_, ?_, ?_⟩ <;> rw [Parts.written_cons_nil]
  · exact h.isSealed
  · refine h.begins.mono ?_
    rw [phrasesOf_clause]
    exact List.subset_cons_self _ _
  · refine ⟨.skip (d.veil (Parts.written ps)) :: cs, ?_, fun key' keywords' c hc => ?_, ?_⟩
    · rw [route_of_skip _ (choices_clause_of_none (h.begins.after?_eq_none absent)), hr]
      rfl
    · simp only [List.zip_cons_cons, List.mem_cons, Prod.mk.injEq, reduceCtorEq, false_and,
        false_or] at hc
      exact options key' keywords' c hc
    · rw [capturesOf, captures]
      change (key, Text.trim (textOf (Choice.skip _).taken)) :: _ = _
      rw [Choice.taken_skip]
      rfl

/-- A clause is its keyword and its text in front of what is written for the others. -/
theorem clause (hn : (Step.clause key keyword).Named false)
    (hi : InnerFree (phrasesOf steps)) (hs : ∀ q ∈ phrasesOf steps, q.head? ≠ some "SELECT")
    (hw : Contained d limit (phrasesOf steps) [] w) (some : w ≠ []) :
    Rereads d limit (.clause key keyword :: steps) ((key, w) :: ps) := by
  obtain ⟨cs, hr, options, captures⟩ := h.exists_route
  obtain ⟨named, spelled, phrase⟩ := hn
  have plain : Trailing steps := by
    cases ht with
    | clause _ _ h => exact h
  have text : Parts.written ((key, w) :: ps) =
      textOf keyword.tokens ++ ' ' :: Text.spaced w (Parts.written ps) := by
    rw [Parts.written_cons key some, Parts.fragment_eq, if_neg named, if_neg (by simpa using some),
      spelled, ← Phrase.textOf_tokens, Text.spaced, Text.spaced, if_neg (by simp), if_neg some]
    split
    · rfl
    · rw [List.append_assoc]
      rfl
  have unselected := h.begins.selects_eq_false hs
  obtain ⟨whole, -⟩ := hw.exists_cut h.isSealed unselected h.begins.skipSpace_eq_self
  obtain ⟨b, veil, lead⟩ := whole.exists_lead (phrase.legible_tokens d)
    phrase.spells_tokens.bare fun t ht =>
      Phrase.isSpace_of_isWord (Phrase.isWord_getLast?_tokens keyword t ht)
  obtain ⟨c, taken, found⟩ := hw.exists_value plain hi h.isSealed unselected h.begins hr
    ((keyword.tokens ++ space b :: skipSpace (d.veil (Text.spaced w (Parts.written ps)))).length -
      (skipSpace (d.veil (Text.spaced w (Parts.written ps)))).length)
  refine ⟨text ▸ lead, ?_, c :: cs, ?_, fun key' keywords' c' hc => ?_, ?_⟩
  · rw [text, veil]
    exact .inr (Phrase.startsAny_iff.mpr ⟨keyword, by simp [phrasesOf_clause], _,
      phrase.spells_tokens, List.prefix_append _ _⟩)
  · rw [text, veil, ht.route_clause_of_spells phrase.spells_tokens]
    exact found
  · simp only [List.zip_cons_cons, List.mem_cons, Prod.mk.injEq, reduceCtorEq, false_and,
      false_or] at hc
    exact options key' keywords' c' hc
  · rw [capturesOf, captures, List.map_cons, ← taken]
    rfl

end Clause
end Rereads

/-- The parts that steps fill with given texts. -/
def partsOf (steps : List Step) (f : String → Text) : List (String × Text) :=
  steps.filterMap fun step => step.key?.map fun key => (key, f key)

theorem partsOf_value (key : String) (steps : List Step) (f : String → Text) :
    partsOf (.value key :: steps) f = (key, f key) :: partsOf steps f := rfl

/-- Whether a step reads a text again in front of what the steps behind it read. -/
def Step.Fits (d : Dialect) (limit : Nat) (rest : List Step) (f : String → Text) : Step → Prop
  | clause key _ => Contained d limit (phrasesOf rest) [] (f key)
  | options key keywords =>
      f key = [] ∨ Sealed d limit (d.veil (f key)) ∧ ';' ∉ f key ∧
        Phrase.startsAny keywords (d.veil (f key)) = true
  | _ => True

/-- Texts that each of the steps reads again. -/
def Fits (d : Dialect) (limit : Nat) (steps : List Step) (f : String → Text) : Prop :=
  ∀ step rest, step :: rest <:+ steps → step.Fits d limit rest f

/-- Steps read again the texts that fit them. -/
theorem Fits.rereads {steps : List Step} {f : String → Text} (hf : Fits d limit steps f)
    (ht : Trailing steps) (hn : ∀ step ∈ steps, step.Named false)
    (hi : InnerFree (phrasesOf steps)) (hs : ∀ q ∈ phrasesOf steps, q.head? ≠ some "SELECT") :
    Rereads d limit steps (partsOf steps f) := by
  have trailing := ht
  induction ht with
  | finish => exact .finish
  | options key keywords =>
      have fits := hf _ _ List.suffix_rfl
      by_cases none : f key = []
      · have reads : Rereads d limit _ _ := .options_nil key keywords
        rwa [← none] at reads
      · obtain ⟨hs, plain, begins⟩ := fits.resolve_left none
        exact .options none (hn _ (List.mem_cons_self ..)).1 hs plain begins
  | @clause key keyword steps absent ht ih =>
      have fits := hf _ _ List.suffix_rfl
      have sub : phrasesOf steps ⊆ phrasesOf (.clause key keyword :: steps) := by
        rw [phrasesOf_clause]
        exact List.subset_cons_self _ _
      have rest := ih (fun step rest hm => hf step rest (hm.trans (List.suffix_cons ..)))
        (fun step hm => hn step (by simp [hm])) (hi.of_subset sub) (fun q hq => hs q (sub hq)) ht
      by_cases none : f key = []
      · have reads := rest.clause_nil trailing
        rwa [← none] at reads
      · exact rest.clause trailing (hn _ (List.mem_cons_self ..)) (hi.of_subset sub)
          (fun q hq => hs q (sub hq)) fits none

theorem Token.trim_textOf_trail (ts : List Token) :
    Text.trim (textOf (trail ts)) = Text.trim (textOf ts) := by
  rw [trail]
  split
  · rename_i empty
    rw [empty]
  · exact Text.trim_append_left (t := [' ']) (by decide)

/-- Modifiers stand behind the keyword of a statement as they are, in front of what follows. -/
theorem Longest.exists_headline {phrases : List Phrase} {most : Option Nat}
    {part rest : List Token} {k : String} {t : Text} (hl : Longest phrases most (trail part) rest)
    (hk : Phrase.IsPlain [k]) (legible : Legible d part) (ht : Sealed d limit (d.veil t)) :
    ∃ rest', d.veil (Text.spaced (textOf (headline k part)) t) = headline k part ++ rest' ∧
      Sealed d limit (d.veil (Text.spaced (textOf (headline k part)) t)) ∧
      skipSpace rest' = skipSpace (d.veil t) ∧
      (rest' = [] ∨ ∃ b, rest' = space b :: skipSpace (d.veil t)) := by
  have firm : part = [] ∨ Firm part := by
    by_cases none : part = []
    · exact .inl none
    · have run := hl.cases_part
      rw [trail, if_neg none] at run
      obtain ⟨b, part', he, firm⟩ := run.resolve_left (by simp)
      cases he
      exact .inr firm
  obtain ⟨lead, ends⟩ := legible_headline hk legible
    (firm.elim (fun none => by simp [none]) fun firm => firm.head)
    (firm.elim (fun none => by simp [none]) fun firm => firm.last)
  have bare : Bare (headline k part) := by
    rw [headline_eq]
    exact List.forall_mem_cons.mpr ⟨.inl rfl, hl.bare⟩
  have some : textOf (headline k part) ≠ [] := lead.textOf_ne_nil ends.ne_nil
  rw [Text.spaced, if_neg some]
  split
  · rename_i none
    have alone : Sealed d limit (headline k part) := .of_bare lead bare
    refine ⟨[], ?_, ?_, ?_, .inl rfl⟩
    · rw [alone.veil_textOf, List.append_nil]
    · rwa [alone.veil_textOf]
    · rw [none, Dialect.veil_nil]
  · obtain ⟨b, veil, whole⟩ := ht.exists_lead lead bare ends.last
    exact ⟨_, veil, whole, rfl, .inr ⟨b, rfl⟩⟩

namespace Pattern.Regular
variable {s : Settings} {p : Pattern} {k key value : String} {phrases : List Phrase}
  {most : Option Nat} {steps : List Step} {part rest : List Token} {f : String → Text}

/-- A statement that is written from its modifiers and from texts that keep to themselves has
these texts for its parts. -/
theorem split_written (h : p.Regular k key value phrases most steps)
    (hp : Pattern.ofType? s.dialect (.ofPhrase k.toList) = some p)
    (hk : k ∈ StatementType.keywords) (hides : p.hidesSubqueries = true)
    (hl : Longest phrases most (trail part) rest) (legible : Legible s.dialect part)
    (hv : Contained s.dialect s.maxNesting (phrasesOf steps) phrases (f value))
    (hf : Fits s.dialect s.maxNesting steps f) :
    split s (Text.spaced (textOf (headline k part))
        (Parts.written (partsOf (.value value :: steps) f))) =
      .ok ⟨(key, Text.trim (textOf part)) ::
        (partsOf (.value value :: steps) f).map fun p => (p.1, Text.trim p.2)⟩ := by
  have named : ∀ step ∈ steps, step.Named false := fun step hm => h.named step (by simp [hm])
  have again := hf.rereads h.trailing named h.innerFree h.selectless
  obtain ⟨cs, hr, options, captures⟩ := again.exists_route
  have unselected := again.begins.selects_eq_false h.selectless
  have written : Parts.written (partsOf (.value value :: steps) f) =
      Text.spaced (f value) (Parts.written (partsOf steps f)) := by
    rw [partsOf_value]
    by_cases none : f value = []
    · rw [none, Parts.written_cons_nil, Text.spaced, if_pos rfl]
    · rw [Parts.written_cons value none, Parts.fragment_eq,
        if_pos (h.named _ (List.mem_cons_self ..)).1]
  have first := again.begins.unled h.disjoint
  obtain ⟨whole, unled, -⟩ :=
    hv.exists_cut again.isSealed unselected again.begins.skipSpace_eq_self
  obtain ⟨c, taken, found⟩ := hv.exists_value h.trailing h.innerFree again.isSealed unselected
    again.begins hr 0
  obtain ⟨rest', veil, joined, skipped, gap⟩ := hl.exists_headline h.plain legible whole
  rw [← written] at veil joined skipped gap found
  -- The keyword, the modifiers and the first value are read in front of the other parts.
  have unmodified : Unmodified phrases rest' := by
    rintro b t us rfl
    obtain ⟨b', he⟩ := gap.resolve_left (by simp)
    obtain ⟨-, he⟩ := List.cons.inj he
    refine (Unled.skipSpace_iff.mpr (unled first)).head?_eq_false t ?_
    rw [← written, ← he]
    rfl
  have value_read : route (.value value :: steps) (skipSpace rest') = some (c :: cs) := by
    rw [route_cons, Step.choices, skipped]
    exact found
  obtain ⟨c₀, c₁, -, run, lead⟩ := h.route_headline (hl.congr fun _ => unmodified) value_read
  rw [← veil] at lead
  have tokens : p.tokens s.dialect (Text.spaced (textOf (headline k part))
      (Parts.written (partsOf (.value value :: steps) f))) = s.dialect.veil _ := if_pos hides
  have type : StatementType.detect s.dialect (Text.spaced (textOf (headline k part))
      (Parts.written (partsOf (.value value :: steps) f))) = some (.ofPhrase k.toList) := by
    have text := textOf_veil s.dialect (Text.spaced (textOf (headline k part))
      (Parts.written (partsOf (.value value :: steps) f)))
    have read := joined.legible
    rw [veil, headline_eq, List.cons_append] at text read
    obtain ⟨us, hu⟩ := read.ofText_word
    rw [text] at hu
    exact StatementType.detect_of_word hk hu
  have unmarked := joined.unmarked
  have deep := joined.depth_le
  rw [textOf_veil] at unmarked deep
  refine (split_eq_ok_iff_of_optionsPlain type hp unmarked fun cs' hr' => ?_).mpr
    ⟨fun _ => deep, c₀ :: c₁ :: c :: cs, by rw [tokens, lead], ?_⟩
  · rw [tokens, lead] at hr'
    cases hr'
    rw [h.steps_eq]
    intro key' keywords' c' hc
    simp only [List.zip_cons_cons, List.mem_cons, Prod.mk.injEq, reduceCtorEq, false_and,
      false_or] at hc
    exact options key' keywords' c' hc
  · rw [h.steps_eq, partsOf_value, List.map_cons, ← taken, ← trim_textOf_trail part, ← run,
      ← captures]
    rfl

end Pattern.Regular
end SqlStatement
