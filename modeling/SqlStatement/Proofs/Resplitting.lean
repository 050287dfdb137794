import SqlStatement.Proofs.Composing

/-!
# Splitting joined parts

The tokens of joined parts are their layout. Their type is that of the statement,
the veil of the joined text is the layout of the veiled parts, and a pattern
without a column list reads in the layout of parts the parts that it is made from.
So the parts of a statement are the parts of what they are joined to.
-/
namespace SqlStatement
open Token
variable {d : Dialect}

namespace Token
variable {ts : List Token}

theorem strip_nil : strip [] = [] := rfl

theorem strip_trail_strip (ts : List Token) : strip (trail (strip ts)) = strip ts := by
  have same := strip_eq_self (isSpace_head?_strip ts) (isSpace_getLast?_strip ts)
  rw [trail]
  split
  · rename_i he
    rw [he, strip_nil]
  · rw [strip, List.dropWhile_cons_of_pos rfl, ← strip, same]

theorem head?_strip (hf : ∀ t ∈ ts.head?, t.isSpace = false) :
    ∀ t ∈ (strip ts).head?, t ∈ ts.head? := by
  intro t ht
  have front : ts.dropWhile isSpace = ts := by
    cases ts with
    | nil => rfl
    | cons t ts => rw [List.dropWhile_cons_of_neg (by simp [hf t rfl])]
  obtain ⟨us, hu⟩ := List.rdropWhile_prefix isSpace (l := ts)
  rw [strip, front] at ht
  rw [← hu, List.head?_append, ht]
  rfl

/-- Runs of blanks are single tokens. -/
theorem isSpace_head?_skipSpace (ht : Tidy ts) : ∀ t ∈ (skipSpace ts).head?, t.isSpace = false := by
  cases ts with
  | nil => simp [skipSpace]
  | cons t ts =>
      obtain ⟨-, -, apart⟩ := tidy_cons_iff.mp ht
      cases t with
      | space b => exact fun u hu => (apart u hu).2 rfl
      | word | quoted | symbol | unterminated => simp [skipSpace, isSpace]

theorem bare_trail_strip (h : Bare ts) : Bare (trail (strip ts)) := by
  intro t ht
  rw [trail] at ht
  split at ht
  · simp at ht
  · rcases List.mem_cons.mp ht with rfl | ht
    · exact .inr rfl
    · exact h t (strip_subset ts ht)

end Token

section Modifiers
variable {phrases : List Phrase} {most : Option Nat} {run rest : List Token}

theorem Longest.isWord_getLast? (h : Longest phrases most run rest) :
    ∀ t ∈ run.getLast?, t.isWord = true := by
  induction h with
  | stop => simp
  | @next most b t run rest hm ht h ih =>
      intro u hu
      rw [List.getLast?_cons_of_ne_nil (by simp)] at hu
      cases run with
      | nil =>
          cases hu
          exact isWord_of_isModifier ht
      | cons t' run => exact ih u (by rwa [List.getLast?_cons_of_ne_nil (by simp)] at hu)

theorem Longest.bare (h : Longest phrases most run rest) : Bare run := by
  induction h with
  | stop => simp [Bare]
  | next b hm ht h ih =>
      intro u hu
      simp only [List.mem_cons] at hu
      rcases hu with rfl | rfl | hu
      · exact .inr rfl
      · exact .inl (isWord_of_isModifier ht)
      · exact ih u hu

/-- No modifier stands where none was read. -/
theorem Unmodified.head?_skipSpace (h : Unmodified phrases rest)
    (hw : ∀ t ∈ rest.head?, t.isWord = false) :
    ∀ t ∈ (skipSpace rest).head?, isModifier phrases t = false := by
  cases rest with
  | nil => simp [skipSpace]
  | cons t us =>
      cases t with
      | space b =>
          intro t ht
          cases us with
          | nil => simp [skipSpace] at ht
          | cons u us =>
              cases ht
              exact h b _ _ rfl
      | word | quoted | symbol | unterminated => exact fun t ht => isModifier_eq_false (hw t ht)

theorem unmodified_trail {ws : List Token}
    (h : ∀ t ∈ ws.head?, isModifier phrases t = false) : Unmodified phrases (trail ws) := by
  intro b t us he
  rw [trail] at he
  split at he
  · simp at he
  · cases he
    exact h t rfl

end Modifiers

/-- A statement keyword is read in front of what follows it. -/
theorem route_lead {k : String} (hk : Phrase.IsPlain [k]) (steps : List Step)
    (ts : List Token) :
    ∃ c : Choice, c.part = [] ∧ route (.lead [[k]] :: steps) (.word k.toList :: ts) =
      (route steps ts).map (c :: ·) := by
  have after : Phrase.afterAny? [[k]] (skipSpace (.word k.toList :: ts)) = some ts := by
    change Phrase.afterAny? [[k]] (.word k.toList :: ts) = _
    rw [afterAny?_cons (by simp), if_pos]
    exact isModifier_iff.mpr ⟨k, _, by simp, rfl, hk.spells_tokens⟩
  refine ⟨⟨ts, ts, ts, (Token.word k.toList :: ts).length - ts.length⟩, ?_, ?_⟩
  · rw [Choice.part, Choice.taken, Nat.sub_self]
    rfl
  · rw [route_cons, Step.choices, after, List.findSome?_singleton]
    rfl

namespace StatementType

theorem ofPhrase_injective :
    ∀ k ∈ keywords, ∀ k' ∈ keywords, ofPhrase k.toList = ofPhrase k'.toList → k = k' := by
  decide

theorem isPlain_keyword : ∀ k ∈ keywords, Phrase.IsPlain [k] := by decide

/-- The keyword of a statement is a phrase that statements begin with, and the only one with its
first word. -/
theorem statementPhrases_keyword (d : Dialect) :
    ∀ k ∈ keywords, [k] ∈ d.statementPhrases ∧
      ∀ p ∈ d.statementPhrases, p.head? = some k → p = [k] := by
  cases d <;> decide +kernel

/-- A text whose first token is the keyword of a statement is a statement of that type. -/
theorem detect_of_word {t : Text} {k : String} {ts : List Token} (hk : k ∈ keywords)
    (h : Token.ofText d t = .word k.toList :: ts) : detect d t = some (ofPhrase k.toList) := by
  obtain ⟨known, only⟩ := statementPhrases_keyword d k hk
  have after := Phrase.after?_append (isPlain_keyword k hk).spells_tokens ts
  rw [detect, h]
  change (d.statementPhrases.find? fun p => (p.after? (.word k.toList :: ts)).isSome).map _ = _
  cases found : d.statementPhrases.find? fun p => (p.after? (.word k.toList :: ts)).isSome with
  | none =>
      have := List.find?_eq_none.mp found [k] known
      change ¬(Phrase.after? [k] (.word k.toList :: ts)).isSome = true at this
      change Phrase.after? [k] (.word k.toList :: ts) = _ at after
      simp [after] at this
  | some q =>
      have begins : (q.after? (.word k.toList :: ts)).isSome = true := by
        have := List.find?_some found
        exact this
      obtain ⟨us, hu⟩ := Option.isSome_iff_exists.mp begins
      have head := Phrase.head?_eq_of_after? hu after
      rw [only q (List.mem_of_find?_eq_some found) head]
      rfl

end StatementType

namespace Pattern

/-- A pattern of a keyword, modifiers of single words, a value and the steps behind it, none of
which can be taken for another. -/
structure Regular (p : Pattern) (k key value : String) (phrases : List Phrase)
    (most : Option Nat) (steps : List Step) : Prop where
  steps_eq : p.steps = .lead [[k]] :: .modifiers key phrases most :: .value value :: steps
  plain : Phrase.IsPlain [k]
  trailing : Trailing steps
  single : ∀ m ∈ phrases, m.length = 1
  disjoint : ∀ m ∈ phrases, ∀ q ∈ phrasesOf steps, q.head? ≠ m.head?
  innerFree : InnerFree (phrasesOf steps)
  selectless : ∀ q ∈ phrasesOf steps, q.head? ≠ some "SELECT"
  named : ∀ step ∈ .value value :: steps, step.Named false

namespace Regular
variable {p : Pattern} {k key value : String} {phrases : List Phrase} {most : Option Nat}
  {steps : List Step} {ts : List Token} {cs : List Choice}

/-- A regular pattern reads its keyword, the longest run of modifiers, and the rest. -/
theorem exists_reading (h : p.Regular k key value phrases most steps)
    (hr : route p.steps ts = some cs) :
    ∃ gap w c₀ c₁ rest cs', cs = c₀ :: c₁ :: cs' ∧ c₀.part = [] ∧ Blanks gap ∧
      Text.isKeyword k w = true ∧ ts = gap ++ .word w :: (c₁.taken ++ rest) ∧
        Longest phrases most c₁.taken rest ∧
          route (.value value :: steps) (skipSpace rest) = some cs' := by
  rw [h.steps_eq] at hr
  obtain ⟨c₀, _, rfl, ⟨before, after, cuts, frames, -⟩, hr⟩ := route_cons_eq_some hr
  obtain ⟨rest, c₁, cs', rfl, he, longest, hr⟩ :=
    h.trailing.modifiers_longest h.single h.disjoint hr
  have eq := cuts.eq_append
  obtain ⟨gap, w, hg, hw, hb, no_taken, no_after⟩ :
      ∃ gap w, Blanks gap ∧ Text.isKeyword k w = true ∧ before = gap ++ [.word w] ∧
        c₀.taken = [] ∧ after = [] := by
    generalize c₀.taken = taken at frames
    cases frames with
    | lead hg hp ht =>
        cases List.mem_singleton.mp hp
        obtain ⟨_, _, w, us, hks, rfl, hw⟩ := ht.head
        cases hks
        cases us with
        | nil => exact ⟨_, w, hg, hw, rfl, rfl, rfl⟩
        | cons u us => simp [Phrase.Spells] at ht
    | skip ho => simp [Step.isOptional] at ho
  refine ⟨gap, w, c₀, c₁, rest, cs', rfl, ?_, hg, hw, ?_, longest, hr⟩
  · rw [Choice.part, no_taken, strip_nil]
  · rw [eq, hb, no_taken, no_after, he]
    simp

/-- What stands behind the modifiers in the layout begins with none that was not read. -/
theorem unmodified (h : p.Regular k key value phrases most steps) {w : Text}
    {run rest : List Token} (hl : Longest phrases most run rest)
    (ht : Tidy (.word w :: (run ++ rest))) (hs : .symbol ';' ∉ rest)
    (hr : route (.value value :: steps) (skipSpace rest) = some cs)
    (hu : Unmodified phrases rest) :
    Unmodified phrases
      (trail (spaced (fragmentsOf (.value value :: steps) (cs.map Choice.part)))) := by
  refine unmodified_trail fun t hhead => ?_
  obtain ⟨gap, -, hgap⟩ := skipSpace_eq rest
  have named : ∀ step ∈ steps, step.Named false := fun step hm => h.named step (by simp [hm])
  rw [route_cons, Step.choices] at hr
  obtain ⟨stop, c, cs', rfl, he, closed, quiet, hr'⟩ := h.trailing.exists_quiet hr
  rw [List.map_cons] at hhead
  by_cases hp : c.part = []
  · rw [hp, fragmentsOf_absent] at hhead
    have begins := (h.trailing.readsAgain named h.innerFree hr' fun hm => hs (by
      rw [hgap, he]
      simp [hm])).1
    rcases begins with hnil | ha
    · rw [hnil] at hhead
      simp at hhead
    · obtain ⟨q, hq, t', ht', us, hus⟩ := Phrase.startsAny_iff.mp ha
      obtain ⟨k', ks, w', vs, rfl, rfl, hw'⟩ := ht'.head
      rw [← hus] at hhead
      cases hhead
      by_contra hm
      rw [Bool.not_eq_false, isModifier_iff] at hm
      obtain ⟨k'', w'', hk'', ⟨⟩, hw''⟩ := hm
      refine h.disjoint _ hk'' _ hq ?_
      rw [List.head?_cons, List.head?_cons, Phrase.keyword_unique hw' hw'']
  · obtain ⟨u, us, hpart⟩ := List.exists_cons_of_ne_nil hp
    rw [layout_value value steps _ hp, hpart] at hhead
    cases hhead
    have tidy : Tidy rest := (tidy_cons_iff.mp ht).2.1.right
    have front : ∀ u ∈ c.taken.head?, u ∈ (skipSpace rest).head? := by
      intro u hm
      rw [he, List.head?_append, hm]
      rfl
    have first : t ∈ c.taken.head? := by
      refine head?_strip (fun u hm => isSpace_head?_skipSpace tidy u (front u hm)) t ?_
      rw [← Choice.part, hpart]
      rfl
    refine hu.head?_skipSpace (fun u hm => ?_) t (front t first)
    rw [← List.cons_append] at ht
    obtain ⟨-, -, apart⟩ := tidy_append_iff.mp ht
    cases run with
    | nil => exact (apart (.word w) rfl u hm).1 rfl
    | cons t' run =>
        obtain ⟨v, hv⟩ : ∃ v, v ∈ (t' :: run).getLast? :=
          ⟨_, List.getLast?_eq_getLast_of_ne_nil (by simp)⟩
        exact (apart v (by rwa [List.getLast?_cons_of_ne_nil (by simp)]) u hm).1
          (hl.isWord_getLast? v hv)

/-- The keyword and its modifiers are read in front of the other parts. -/
theorem route_headline (h : p.Regular k key value phrases most steps) {part rest : List Token}
    (hl : Longest phrases most (trail part) rest)
    (hr : route (.value value :: steps) (skipSpace rest) = some cs) :
    ∃ c₀ c₁ : Choice, c₀.part = [] ∧ c₁.taken = trail part ∧
      route p.steps (headline k part ++ rest) = some (c₀ :: c₁ :: cs) := by
  obtain ⟨c₁, taken, modifiers⟩ := route_modifiers key h.single hl hr
  obtain ⟨c₀, part₀, lead⟩ := route_lead h.plain
    (.modifiers key phrases most :: .value value :: steps) (trail part ++ rest)
  refine ⟨c₀, c₁, part₀, taken, ?_⟩
  rw [h.steps_eq, headline_eq, List.cons_append, lead, modifiers]
  rfl

/-- A regular pattern reads in the layout of parts the parts that it is made from. -/
theorem readsAgain (h : p.Regular k key value phrases most steps)
    (hr : route p.steps ts = some cs) (ht : Tidy ts) (hs : .symbol ';' ∉ ts) :
    ∃ cs', route p.steps (layout k p.steps (cs.map Choice.part)) = some cs' ∧
      cs'.map Choice.part = cs.map Choice.part := by
  obtain ⟨gap, w, c₀, c₁, rest, cs, rfl, part₀, hg, -, rfl, longest, hr⟩ := h.exists_reading hr
  have clean : .symbol ';' ∉ rest := fun hm => hs (by simp [hm])
  obtain ⟨behind, hgap, he⟩ := skipSpace_eq rest
  obtain ⟨cs', hr', parts⟩ := h.trailing.readsAgain_value
    (fun step hm => h.named step (by simp [hm])) h.innerFree hr fun hm => clean (by
      rw [he]
      simp [hm])
  have again := longest.again (h.unmodified longest ht.right clean hr)
  obtain ⟨-, -, -, skipped⟩ :=
    exists_trail (spaced (fragmentsOf (.value value :: steps) (cs.map Choice.part)))
  rw [← skipped] at hr'
  obtain ⟨c₀', c₁', part₀', taken, found⟩ := h.route_headline again hr'
  have tokens : layout k p.steps ((c₀ :: c₁ :: cs).map Choice.part) = headline k c₁.part ++
      trail (spaced (fragmentsOf (.value value :: steps) (cs.map Choice.part))) := by
    rw [h.steps_eq, List.map_cons, List.map_cons, layout,
      spaced_cons _ fun f hf => fragmentsOf_ne_nil hf]
  rw [tokens]
  refine ⟨c₀' :: c₁' :: cs', found, ?_⟩
  simp only [List.map_cons, part₀', part₀, parts]
  rw [Choice.part, taken, strip_trail_strip]
  rfl

/-- The layout of the parts of a veiled statement is veiled. -/
theorem veiled_layout (h : p.Regular k key value phrases most steps)
    (hr : route p.steps ts = some cs) (hl : Legible d ts) (ht : Tame (textOf ts))
    (hv : Veiled d (piecesOf ts)) (hw : Tidy (layout k p.steps (cs.map Choice.part))) :
    Veiled d (piecesOf (layout k p.steps (cs.map Choice.part))) := by
  obtain ⟨gap, w, c₀, c₁, rest, cs, rfl, -, hg, -, rfl, longest, hr⟩ := h.exists_reading hr
  obtain ⟨behind, -, he⟩ := skipSpace_eq rest
  have suffix : skipSpace rest <:+ gap ++ .word w :: (c₁.taken ++ rest) := by
    refine ⟨gap ++ .word w :: (c₁.taken ++ behind), ?_⟩
    conv_rhs => rw [he]
    simp
  have legible : Legible d (skipSpace rest) := by
    obtain ⟨front, hf⟩ := suffix
    rw [← hf] at hl
    exact hl.right
  have veiled : Veiled d (piecesOf (skipSpace rest)) := by
    obtain ⟨front, hf⟩ := suffix
    rw [← hf, piecesOf_append] at hv
    exact hv.right
  have groups := h.trailing.sameGroups_value h.named h.innerFree h.selectless hr legible
    (ht.of_subset suffix.subset) veiled
  rw [h.steps_eq, List.map_cons, List.map_cons, layout, headline_eq,
    spaced_cons _ fun f hf => fragmentsOf_ne_nil hf] at hw ⊢
  rw [piecesOf_append]
  refine hw.left.veiled_bare (fun t hm => ?_) groups.trail.veiled
  rcases List.mem_cons.mp hm with rfl | hm
  · exact .inl rfl
  · exact bare_trail_strip longest.bare t hm

end Regular

/-- So does the pattern of SET, which has no modifiers. -/
theorem readsAgain_set {ts : List Token} {cs : List Choice}
    (hr : route [.lead [["SET"]], .value "set", .finish] ts = some cs)
    (hs : .symbol ';' ∉ ts) :
    ∃ cs', route [.lead [["SET"]], .value "set", .finish]
        (layout "SET" [.lead [["SET"]], .value "set", .finish] (cs.map Choice.part)) = some cs' ∧
      cs'.map Choice.part = cs.map Choice.part := by
  obtain ⟨c₀, _, rfl, ⟨before, after, cuts, frames, -⟩, hr⟩ := route_cons_eq_some hr
  have part₀ : c₀.part = [] := by
    rw [Choice.part]
    generalize c₀.taken = taken at frames
    cases frames with
    | lead | skip => rfl
  rw [route_cons, Step.choices] at hr
  obtain ⟨stop, c, cs, rfl, he, closed, -, hr⟩ := Trailing.finish.exists_quiet hr
  have clean : .symbol ';' ∉ trail c.part := by
    intro hm
    rw [trail] at hm
    split at hm
    · simp at hm
    · rcases List.mem_cons.mp hm with hm | hm
      · simp at hm
      · refine hs (cuts.next_suffix.subset ?_)
        rw [he]
        exact List.mem_append_left _ (strip_subset _ hm)
  have ends : AtEnd stop := by
    by_contra hn
    rw [route_finish_of_not hn] at hr
    simp at hr
  rw [route_finish_of_atEnd ends] at hr
  cases hr
  have value := findSome?_valueChoices (trail c.part) (trail c.part) 0 (fun t ht => ?_)
    (route_finish_of_atEnd atEnd_nil) fun u v hu hv => ?_
  · rw [List.append_nil] at value
    obtain ⟨c₀', part₀', lead⟩ := route_lead (k := "SET") (by decide) [.value "set", .finish]
      (trail c.part)
    rw [route_cons (.value "set"), Step.choices, value] at lead
    have same : layout "SET" [.lead [["SET"]], .value "set", .finish]
        ([c₀, c, .skip stop].map Choice.part) = .word "SET".toList :: trail c.part := by
      rw [List.map_cons, List.map_cons, List.map_singleton, Trailing.part_skip, layout,
        fragmentsOf_absent]
      rfl
    rw [same]
    refine ⟨_, lead, ?_⟩
    rw [List.map_cons, List.map_cons, List.map_singleton, List.map_cons, List.map_cons,
      List.map_singleton, part₀, part₀', Trailing.part_skip, Trailing.part_skip,
      Choice.part, Choice.taken, List.length_nil, Nat.sub_zero, List.take_length]
    rw [Choice.part, strip_trail_strip]
  · rw [trail] at ht
    split at ht
    · simp at ht
    · rcases List.mem_cons.mp ht with rfl | ht
      · rfl
      · exact closed t (strip_subset _ ht)
  · obtain ⟨t, v, rfl⟩ := List.exists_cons_of_ne_nil hv
    refine route_finish_of_not fun ha => clean ?_
    rw [hu, ← ha t rfl]
    simp

/-- The pattern of a statement without a column list is regular, or it is SET. -/
theorem exists_regular {p : Pattern} {type : StatementType} (h : ofType? d type = some p)
    (hi : type.isInsertLike = false) :
    ∃ k ∈ StatementType.keywords, type = .ofPhrase k.toList ∧
      ((∃ key value phrases most, p.Regular k key value phrases most (p.steps.drop 3)) ∨
        k = "SET" ∧ p.hidesSubqueries = false ∧
          p.steps = [.lead [["SET"]], .value "set", .finish]) := by
  cases type with
  | other phrase => simp [ofType?] at h
  | insert | replace => simp [StatementType.isInsertLike] at hi
  | set =>
      cases h
      exact ⟨"SET", by decide, rfl, .inr ⟨rfl, rfl, rfl⟩⟩
  | select | update | delete | truncate =>
      have trailing := trailing_steps h rfl (by simp)
      cases h
      refine ⟨_, ?_, ?_, .inl ⟨_, _, _, _, rfl, ?_, trailing, ?_, ?_, ?_, ?_, ?_⟩⟩ <;>
        cases d <;> decide

theorem readsAgain {p : Pattern} {type : StatementType} {k : String} {ts : List Token}
    {cs : List Choice} (h : ofType? d type = some p) (hi : type.isInsertLike = false)
    (hk : k ∈ StatementType.keywords) (ht : type = .ofPhrase k.toList)
    (hr : route p.steps ts = some cs) (tidy : Tidy ts) (hs : .symbol ';' ∉ ts) :
    ∃ cs', route p.steps (layout k p.steps (cs.map Choice.part)) = some cs' ∧
      cs'.map Choice.part = cs.map Choice.part := by
  obtain ⟨k', hk', ht', cases⟩ := exists_regular h hi
  cases StatementType.ofPhrase_injective k hk k' hk' (ht.symm.trans ht')
  rcases cases with ⟨key, value, phrases, most, regular⟩ | ⟨rfl, -, he⟩
  · exact regular.readsAgain hr tidy hs
  · rw [he] at hr ⊢
    exact readsAgain_set hr hs

end Pattern

namespace Veiled

theorem levels_le_iff {ps : List Piece} {n : Nat} :
    levels d ps ≤ n ↔ ∀ t, .literal t ∈ ps → (Nesting.ofText d t).depth ≤ n := by
  induction ps with
  | nil => simp [levels]
  | cons p ps ih =>
      cases p with
      | literal t =>
          rw [levels, Nat.max_le, ih]
          simp
      | char c | stray c =>
          rw [levels, ih]
          · simp
          · simp

end Veiled

/-- Legible veiled tokens are the veil of their text. -/
theorem Token.Legible.veil_textOf {ts : List Token} (h : Legible d ts)
    (hv : Veiled d (piecesOf ts)) :
    d.veil (textOf ts) = ts ∧
      (Nesting.ofText d (textOf ts)).depth = Veiled.levels d (piecesOf ts) := by
  obtain ⟨veiled, depth⟩ := hv.veiled_ofPieces
  rw [Dialect.veil, Nesting.ofText, h.ofText_textOf, veiled, depth, h.tidy.ofPieces_piecesOf]
  exact ⟨rfl, rfl⟩

/-- Legible tokens whose literals stand for themselves are the tokens of their text. -/
theorem Token.Legible.ofText_eq {ts : List Token} (h : Legible d ts)
    (hl : ∀ x, quoted x ∈ ts → Piece.ofText d x = [.literal x]) :
    Token.ofText d (textOf ts) = ts := by
  have same : ∀ ps : List Piece, (∀ x, .literal x ∈ ps → Piece.ofText d x = [.literal x]) →
      Piece.unveil d ps = ps := by
    intro ps hps
    induction ps with
    | nil => rfl
    | cons p ps ih =>
        rw [Piece.unveil_cons, ih fun x hx => hps x (by simp [hx])]
        cases p with
        | literal x => rw [Piece.unveiled, hps x (by simp), List.singleton_append]
        | char | stray => rfl
  rw [Token.ofText, h.ofText_textOf, same, h.tidy.ofPieces_piecesOf]
  exact fun x hx => hl x (literal_mem_piecesOf.mp hx)

/-- The first word of legible tokens is the first word of their text. -/
theorem Token.Legible.ofText_word {w : Text} {ts : List Token} (h : Legible d (.word w :: ts)) :
    ∃ us, Token.ofText d (textOf (.word w :: ts)) = .word w :: us := by
  obtain ⟨proper, tidy, apart⟩ := tidy_cons_iff.mp h.tidy
  rw [Token.ofText, h.ofText_textOf, piecesOf_cons, Piece.unveil_append, pieces,
    Piece.unveil_chars, ofPieces_word proper.1 proper.2]
  · exact ⟨_, rfl⟩
  · exact isWord_head?_unveil tidy h.literals.of_cons fun u hu =>
      (apart u hu).1 rfl

theorem capturesOf_congr {steps : List Step} {cs cs' : List Choice}
    (h : List.Forall₂ (Step.Reads d) steps cs) (h' : List.Forall₂ (Step.Reads d) steps cs')
    (hp : cs'.map Choice.part = cs.map Choice.part) :
    capturesOf steps cs' = capturesOf steps cs := by
  induction h generalizing cs' with
  | nil =>
      cases h'
      rfl
  | @cons step c steps cs reads _ ih =>
      cases h' with
      | @cons _ c' _ cs' reads' rest' =>
          obtain ⟨part, parts⟩ := List.cons.inj hp
          rw [capturesOf, capturesOf, ih rest' parts, Step.captures, Step.captures,
            reads.captured, reads'.captured, part]

/-- The tokens of joined parts, as the pattern reads them, are their layout. -/
theorem Pattern.Opens.tokens_layout {p : Pattern} {k key : String} {keywords : List Phrase}
    {first : Step} {steps : List Step} {t : Text} {cs : List Choice} {type : StatementType}
    (h : p.Opens k key keywords first steps) (hp : Pattern.ofType? d type = some p)
    (hi : type.isInsertLike = false) (hk : k ∈ StatementType.keywords)
    (ht : type = .ofPhrase k.toList) (hr : route p.steps (p.tokens d t) = some cs)
    (tame : Tame t) {limit : Nat}
    (hd : p.hidesSubqueries = true → (Nesting.ofText d t).depth ≤ limit) :
    p.tokens d (textOf (layout k p.steps (cs.map Choice.part))) =
        layout k p.steps (cs.map Choice.part) ∧
      (p.hidesSubqueries = true →
        (Nesting.ofText d (textOf (layout k p.steps (cs.map Choice.part)))).depth ≤ limit) := by
  have legible := p.legible_tokens d t
  have tame' : Tame (textOf (p.tokens d t)) := by rwa [p.textOf_tokens]
  have whole := h.legible_layout hr legible tame'
  have literal {x : Text} (hx : quoted x ∈ layout k p.steps (cs.map Choice.part)) :
      quoted x ∈ p.tokens d t :=
    (h.mem_layout hr hx).resolve_right fun hf => hf.1 x rfl
  by_cases hh : p.hidesSubqueries = true
  · have veil : p.tokens d t = d.veil t := if_pos hh
    obtain ⟨k', hk', ht', cases⟩ := Pattern.exists_regular hp hi
    cases StatementType.ofPhrase_injective k hk k' hk' (ht.symm.trans ht')
    obtain ⟨key, value, phrases, most, regular⟩ := cases.resolve_right fun hn => by
      rw [hn.2.1] at hh
      simp at hh
    have veiled : Veiled d (piecesOf (p.tokens d t)) := veil ▸ veiled_veil d t
    obtain ⟨same, depth⟩ :=
      whole.veil_textOf (regular.veiled_layout hr legible tame' veiled whole.tidy)
    refine ⟨by rw [Pattern.tokens, if_pos hh, same], fun _ => ?_⟩
    have levels := (legible.veil_textOf veiled).2
    rw [p.textOf_tokens] at levels
    have below := hd hh
    rw [levels, Veiled.levels_le_iff] at below
    rw [depth, Veiled.levels_le_iff]
    exact fun x hx => below x (literal_mem_piecesOf.mpr (literal (literal_mem_piecesOf.mp hx)))
  · refine ⟨?_, fun hn => absurd hn hh⟩
    rw [Pattern.tokens, if_neg hh]
    refine whole.ofText_eq fun x hx => ?_
    have := literal hx
    rw [Pattern.tokens, if_neg hh] at this
    exact ofText_of_quoted_mem this

/-- The parts of a statement without a column list are the parts of what they are joined to. -/
theorem split_join {s : Settings} {t : Text} {parts : Parts} (h : split s t = .ok parts)
    (hi : ¬(StatementType.detect s.dialect t).any StatementType.isInsertLike) (hs : ';' ∉ t)
    (hm : ¬Subquery.hashSub <:+: Piece.ofText s.dialect t)
    (hw : ∀ c ∈ t, Text.isWhite c = true → Text.isBlank c = true)
    (hc : ∀ p ∈ parts.toList, Unbordered p.2) : split s (Parts.join parts) = .ok parts := by
  obtain ⟨type, p, hd, hp⟩ := exists_pattern h
  obtain ⟨deep, cs, hr, rfl⟩ := (split_eq_ok_iff hd hp hm hs).mp h
  obtain ⟨k, hk, rfl, key, keywords, step, steps, opens⟩ := p.exists_opens hp
  have insert : (StatementType.ofPhrase k.toList).isInsertLike = false := by
    rw [hd] at hi
    simpa using hi
  have legible := p.legible_tokens s.dialect t
  have tame : Tame (textOf (p.tokens s.dialect t)) := by
    rw [p.textOf_tokens]
    exact ⟨hw, hs⟩
  have clean : .symbol ';' ∉ p.tokens s.dialect t := fun hm =>
    tame.semicolon (List.mem_flatMap.mpr ⟨_, hm, by simp [text]⟩)
  have markless : Markless s.dialect (p.tokens s.dialect t) := by
    rwa [Markless, ← legible.ofText_textOf, p.textOf_tokens]
  obtain ⟨cs', again, parts⟩ := Pattern.readsAgain hp insert hk rfl hr legible.tidy clean
  obtain ⟨same, deep'⟩ := opens.tokens_layout hp insert hk rfl hr ⟨hw, hs⟩ deep
  have whole := opens.legible_layout hr legible tame
  have tame' := opens.tame_layout hr tame
  have type : StatementType.detect s.dialect
      (textOf (layout k p.steps (cs.map Choice.part))) = some (.ofPhrase k.toList) := by
    obtain ⟨c₀, c₁, cs₁, rfl, he⟩ := opens.exists_layout hr
    rw [headline_eq, spaced_cons _ fun f hf => fragmentsOf_ne_nil hf, List.cons_append] at he
    rw [he] at whole ⊢
    obtain ⟨us, hu⟩ := whole.ofText_word
    exact StatementType.detect_of_word hk hu
  have markless' : ¬Subquery.hashSub <:+:
      Piece.ofText s.dialect (textOf (layout k p.steps (cs.map Choice.part))) := by
    rw [whole.ofText_textOf]
    exact opens.markless_layout hr markless
  rw [opens.join_eq hr legible tame hc]
  refine (split_eq_ok_iff type hp markless' tame'.semicolon).mpr
    ⟨deep', cs', by rw [same, again], ?_⟩
  rw [capturesOf_congr (reads_of_route hr legible tame) (reads_of_route again whole tame') parts]

theorem split_join_update :
    split {} "UPDATE ignore t SET a = (select 1 where 2) LIMIT 3".toList =
      .ok ⟨[("update", "ignore".toList), ("table", "t".toList),
        ("set", "a = (select 1 where 2)".toList), ("where", []), ("limit", "3".toList)]⟩ := by
  let parts : Parts := ⟨[("update", "ignore".toList), ("table", "t".toList),
    ("set", "a = (select 1 where 2)".toList), ("where", []), ("limit", "3".toList)]⟩
  have joined : Parts.join parts =
      "UPDATE ignore t SET a = (select 1 where 2) LIMIT 3".toList := by
    decide +kernel
  have accepted : split {}
      "update ignore  t set a = (select 1 where 2)where limit 3".toList = .ok parts := by
    decide +kernel
  have white : ∀ c ∈ "update ignore  t set a = (select 1 where 2)where limit 3".toList,
      Text.isWhite c = true → Text.isBlank c = true := by
    simp [Text.isWhite, Text.isBlank]
  have again := split_join accepted (by decide +kernel) (by decide +kernel) (by decide +kernel)
    white (by decide +kernel)
  rwa [joined] at again

end SqlStatement
