import SqlStatement.Proofs.Splitting

/-!
# The layout of joined parts

Joined parts are stretches of tokens with a space between neighbours: the
statement keyword with its modifiers, and then one stretch for every part that
is not empty, with its keyword or its parentheses. The stretches are made from
the parts that a route takes, so the tokens of the joined text are known before
the text is read again.
-/
namespace SqlStatement
open Token
variable {d : Dialect}

namespace Text

theorem trimWhere_of_ends {p : Char → Bool} {t : Text} (hf : ∀ c ∈ t.head?, p c = false)
    (hl : ∀ c ∈ t.getLast?, p c = false) : trimWhere p t = t := by
  have front : t.dropWhile p = t := by
    cases t with
    | nil => rfl
    | cons c t => rw [List.dropWhile_cons_of_neg (by simp [hf c rfl])]
  rw [trimWhere, front]
  change List.rdropWhile p t = t
  rw [List.rdropWhile_eq_self_iff]
  intro hne
  simp [hl _ (List.getLast?_eq_getLast_of_ne_nil hne)]

/-- A text between two characters that are not white has nothing to trim. -/
theorem trim_enclosed {first last : Char} (hf : isWhite first = false)
    (hl : isWhite last = false) (t : Text) :
    trim (first :: (t ++ [last])) = first :: (t ++ [last]) := by
  apply trimWhere_of_ends
  · intro c hc
    cases hc
    exact hf
  · intro c hc
    rw [← List.cons_append, List.getLast?_concat] at hc
    cases hc
    exact hl

theorem isWhite_head?_trim (t : Text) : ∀ c ∈ (trim t).head?, isWhite c = false := by
  intro c hc
  have front : c ∈ (t.dropWhile isWhite).head? := by
    obtain ⟨u, hu⟩ := List.rdropWhile_prefix isWhite (l := t.dropWhile isWhite)
    rw [← hu, List.head?_append]
    change (List.rdropWhile isWhite (t.dropWhile isWhite)).head? = some c at hc
    rw [hc, Option.some_or]
    rfl
  have := List.head?_dropWhile_not isWhite t
  rw [front] at this
  simpa using this

theorem isWhite_getLast?_trim (t : Text) : ∀ c ∈ (trim t).getLast?, isWhite c = false := by
  intro c hc
  obtain ⟨hne, rfl⟩ := List.mem_getLast?_eq_getLast hc
  exact Bool.eq_false_iff.mpr (List.rdropWhile_last_not isWhite (t.dropWhile isWhite) hne)

end Text

/-- A text that begins and ends with no comma. -/
def Unbordered (t : Text) : Prop := t.head? ≠ some ',' ∧ t.getLast? ≠ some ','

instance (t : Text) : Decidable (Unbordered t) := inferInstanceAs (Decidable (_ ∧ _))

/-- A trimmed text without commas at its ends is written as it is. -/
theorem trimWhere_isPadding_trim {t : Text} (h : Unbordered (Text.trim t)) :
    Text.trimWhere Parts.isPadding (Text.trim t) = Text.trim t := by
  have padding {c : Char} (hw : Text.isWhite c = false) (hc : c ≠ ',') :
      Parts.isPadding c = false := by
    by_contra hp
    simp only [Bool.not_eq_false, Parts.isPadding, Bool.or_eq_true, beq_iff_eq] at hp
    rcases hp with ((rfl | rfl) | rfl) | rfl
    · simp [Text.isWhite] at hw
    · simp [Text.isWhite] at hw
    · simp [Text.isWhite] at hw
    · exact hc rfl
  refine Text.trimWhere_of_ends (fun c hc => padding (Text.isWhite_head?_trim t c hc) ?_)
    fun c hc => padding (Text.isWhite_getLast?_trim t c hc) ?_
  · rintro rfl
    exact h.1 hc
  · rintro rfl
    exact h.2 hc

namespace Phrase

/-- The tokens of a phrase with single spaces. -/
def tokens : Phrase → List Token
  | [] => []
  | [k] => [.word k.toList]
  | k :: k' :: ks => .word k.toList :: .space [' '] :: tokens (k' :: ks)

/-- A phrase of words in upper case. -/
def IsPlain (p : Phrase) : Prop :=
  p ≠ [] ∧ ∀ k ∈ p, k.toList ≠ [] ∧ k.toList.all Text.isWordChar = true ∧
    Text.upper k.toList = k.toList

instance (p : Phrase) : Decidable p.IsPlain := inferInstanceAs (Decidable (_ ∧ _))

theorem textOf_tokens (p : Phrase) : textOf p.tokens = p.text := by
  fun_induction tokens p with
  | case1 => rfl
  | case2 k => exact List.append_nil _
  | case3 k k' ks ih =>
      rw [textOf_cons, textOf_cons, ih]
      exact (List.append_assoc k.toList [' '] _).symm

theorem IsPlain.of_cons {k k' : String} {ks : Phrase} (h : IsPlain (k :: k' :: ks)) :
    IsPlain (k' :: ks) := ⟨by simp, fun k hk => h.2 k (by simp [hk])⟩

theorem IsPlain.spells_tokens {p : Phrase} (h : p.IsPlain) : p.Spells p.tokens := by
  fun_induction tokens p with
  | case1 => exact absurd rfl h.1
  | case2 k => simpa [Spells, Text.isKeyword] using (h.2 k (by simp)).2.2
  | case3 k k' ks ih =>
      refine ⟨?_, ih h.of_cons⟩
      simpa [Text.isKeyword] using (h.2 k (by simp)).2.2

theorem isWord_head?_tokens (p : Phrase) : ∀ t ∈ p.tokens.head?, t.isWord = true := by
  fun_cases tokens p <;> simp [isWord]

theorem isWord_getLast?_tokens (p : Phrase) : ∀ t ∈ p.tokens.getLast?, t.isWord = true := by
  fun_induction tokens p with
  | case1 => simp
  | case2 k => simp [isWord]
  | case3 k k' ks ih =>
      have hne : tokens (k' :: ks) ≠ [] := by cases ks <;> simp [tokens]
      rwa [List.getLast?_cons_of_ne_nil (by simp), List.getLast?_cons_of_ne_nil hne]

theorem isSpace_of_isWord {t : Token} (h : t.isWord = true) : t.isSpace = false := by
  cases t <;> simp_all [isWord, isSpace]

theorem IsPlain.legible_tokens {p : Phrase} (h : p.IsPlain) (d : Dialect) :
    Legible d p.tokens := by
  have word {k : String} (hk : k.toList ≠ [] ∧ k.toList.all Text.isWordChar = true ∧
      Text.upper k.toList = k.toList) : Legible d [.word k.toList] := by
    have chars : ∀ c ∈ k.toList, Text.isWordChar c = true := List.all_eq_true.mp hk.2.1
    refine ⟨tidy_singleton ⟨hk.1, chars⟩, ?_, by simp [Literals]⟩
    have lexed : Piece.Lexed d (k.toList.map .char ++ []) :=
      .map_char (fun c hc => Dialect.isQuote_of_isWordChar (chars c hc)) .nil
    rw [piecesOf_cons, piecesOf_nil, pieces, lexed.unveil_eq]
    exact lexed
  fun_induction tokens p with
  | case1 => exact legible_nil
  | case2 k => exact word (h.2 k (by simp))
  | case3 k k' ks ih =>
      refine (word (h.2 k (by simp))).spaced (ih h.of_cons) (by simp [isClosed])
        (by simp [isSpace]) fun t ht => ?_
      exact isSpace_of_isWord (isWord_head?_tokens _ t ht)

end Phrase

namespace Token

/-- Stretches of tokens with a space between neighbours. -/
def spaced : List (List Token) → List Token
  | [] => []
  | [ts] => ts
  | ts :: us :: rest => ts ++ space [' '] :: spaced (us :: rest)

theorem textOf_spaced (fs : List (List Token)) :
    textOf (spaced fs) = Text.joinWith [' '] (fs.map textOf) := by
  fun_induction spaced fs with
  | case1 => rfl
  | case2 ts => rfl
  | case3 ts us rest ih =>
      rw [textOf_append, textOf_cons, ih]
      exact (List.append_assoc (textOf ts) [' '] _).symm

/-- Tokens that neither begin nor end with blanks. -/
structure Firm (ts : List Token) : Prop where
  ne_nil : ts ≠ []
  head : ∀ t ∈ ts.head?, t.isSpace = false
  last : ∀ t ∈ ts.getLast?, t.isSpace = false

theorem firm_strip {ts : List Token} (h : strip ts ≠ []) : Firm (strip ts) :=
  ⟨h, isSpace_head?_strip ts, isSpace_getLast?_strip ts⟩

theorem head?_spaced {f : List Token} (fs : List (List Token)) (h : f ≠ []) :
    (spaced (f :: fs)).head? = f.head? := by
  obtain ⟨t, ts, rfl⟩ := List.exists_cons_of_ne_nil h
  cases fs <;> rfl

theorem legible_spaced {fs : List (List Token)} (h : ∀ f ∈ fs, Legible d f ∧ Firm f)
    (hc : ∀ f ∈ fs.dropLast, ∀ t ∈ f, t.isClosed = true) : Legible d (spaced fs) := by
  fun_induction spaced fs with
  | case1 => exact legible_nil
  | case2 ts => exact (h ts (by simp)).1
  | case3 ts us rest ih =>
      have first := h ts (by simp)
      have second := h us (by simp)
      refine first.1.spaced (ih (fun f hf => h f (by simp [hf])) fun f hf => hc f ?_)
        (hc ts (by simp)) first.2.last ?_
      · rw [List.dropLast_cons_of_ne_nil (by simp)]
        exact List.mem_cons_of_mem _ hf
      · rw [head?_spaced rest second.2.ne_nil]
        exact second.2.head

theorem Legible.textOf_ne_nil {ts : List Token} (h : Legible d ts) (hne : ts ≠ []) :
    textOf ts ≠ [] := by
  obtain ⟨t, ts, rfl⟩ := List.exists_cons_of_ne_nil hne
  have proper := h.tidy.proper t (by simp)
  rw [textOf_cons]
  refine List.append_ne_nil_of_left_ne_nil ?_ _
  cases t with
  | word w | space w => exact proper.1
  | symbol c | unterminated q => simp [text]
  | quoted x =>
      rintro rfl
      rcases h.literals [] (by simp) with hx | hx
      · simp at hx
      · obtain ⟨ps, hx, -⟩ := hx.ofText_eq
        simp at hx

end Token

namespace Choice

/-- The tokens of the part without blanks at its ends. -/
def part (c : Choice) : List Token := strip c.taken

end Choice

namespace Step

/-- The tokens that are written in front of a part. -/
def opening : Step → List Token
  | clause _ keyword | rows _ keyword => keyword.tokens ++ [.space [' ']]
  | columnList _ => [.symbol '(']
  | _ => []

/-- The tokens that are written behind a part. -/
def closing : Step → List Token
  | columnList _ => [.symbol ')']
  | _ => []

/-- Steps whose part is written under the key with which the step reads it. -/
def Named (insertLike : Bool) : Step → Prop
  | clause key keyword | rows key keyword =>
      key ∉ Parts.unprefixed ∧ Text.upper key.toList = keyword.text ∧ keyword.IsPlain
  | columnList key => insertLike = true ∧ key = "columns"
  | value key | query key | options key _ =>
      key ∈ Parts.unprefixed ∧ (insertLike && key == "columns") = false
  | finish => True
  | lead _ | modifiers _ _ _ => False

instance (insertLike : Bool) (step : Step) : Decidable (step.Named insertLike) :=
  match step with
  | .clause _ _ | .rows _ _ | .columnList _ | .value _ | .query _ | .options _ _ =>
      inferInstanceAs (Decidable (_ ∧ _))
  | .finish => inferInstanceAs (Decidable True)
  | .lead _ | .modifiers _ _ _ => inferInstanceAs (Decidable False)

theorem Named.fragment_eq {insertLike : Bool} {step : Step} {key : String}
    (h : step.Named insertLike) (hk : step.key? = some key) {part : List Token}
    (hp : textOf part ≠ []) :
    Parts.fragment insertLike key (textOf part) =
      textOf (step.opening ++ (part ++ step.closing)) := by
  have unprefixed {key : String} (h : key ∈ Parts.unprefixed ∧
      (insertLike && key == "columns") = false) :
      Parts.fragment insertLike key (textOf part) = textOf part := by
    rw [Parts.fragment, h.2, if_pos h.1]
    rfl
  have prefixed {key : String} {keyword : Phrase} (h : key ∉ Parts.unprefixed ∧
      Text.upper key.toList = keyword.text ∧ keyword.IsPlain) :
      Parts.fragment insertLike key (textOf part) =
        textOf ((keyword.tokens ++ [.space [' ']]) ++ (part ++ [])) := by
    have other : (insertLike && key == "columns") = false := by
      have : key ≠ "columns" := by
        rintro rfl
        exact h.1 (by decide)
      simp [this]
    have full : (textOf part).isEmpty = false := by simpa using hp
    rw [Parts.fragment, other, if_neg h.1, h.2.1]
    simp only [Bool.false_eq_true, if_false, full, textOf_append, textOf_cons,
      Phrase.textOf_tokens, List.append_assoc, List.append_nil, text, List.singleton_append]
  cases step with
  | clause key' keyword | rows key' keyword =>
      cases hk
      exact prefixed h
  | columnList key' =>
      cases hk
      obtain ⟨rfl, rfl⟩ := h
      rw [Parts.fragment, if_pos (by decide)]
      simp [opening, closing, text]
  | value key' | query key' | options key' _ =>
      cases hk
      rw [unprefixed h]
      simp [opening, closing]
  | finish => simp [key?] at hk
  | lead | modifiers => exact h.elim

end Step
/-- A text whose white characters are blanks, without semicolons. -/
structure Tame (t : Text) : Prop where
  white : ∀ c ∈ t, Text.isWhite c = true → Text.isBlank c = true
  semicolon : ';' ∉ t

theorem Tame.of_subset {ts us : List Token} (h : Tame (textOf us)) (hs : ts ⊆ us) :
    Tame (textOf ts) := by
  have sub : textOf ts ⊆ textOf us := by
    intro c hc
    obtain ⟨t, ht, hc⟩ := List.mem_flatMap.mp hc
    exact List.mem_flatMap.mpr ⟨t, hs ht, hc⟩
  exact ⟨fun c hc => h.white c (sub hc), fun hm => h.semicolon (sub hm)⟩

/-- What a step reads as its part: legible tokens whose text is the part. -/
structure Step.Reads (d : Dialect) (step : Step) (c : Choice) : Prop where
  legible : Legible d c.part
  captured : step.captured c = textOf c.part
  keyless : step.key? = none → c.part = []
  closed : (∀ t ∈ c.part, t.isClosed = true) ∨ ∃ key keywords, step = .options key keywords

theorem Step.Takes.reads {step : Step} {ts : List Token} {c : Choice} (h : step.Takes ts c)
    (hl : Legible d ts) (ht : Tame (textOf ts)) : step.Reads d c := by
  obtain ⟨before, after, cuts, frames, closed⟩ := h
  have eq := cuts.eq_append
  have sub : c.taken ⊆ ts := by
    rw [eq]
    intro t hm
    simp [hm]
  have tame := ht.of_subset sub
  have slice : (∀ t ∈ c.taken, t.isClosed = true) ∨ after ++ c.next = [] := by
    rw [← cuts.stop]
    exact closed.imp_right And.left
  rw [eq] at hl
  have legible : Legible d c.taken := by
    refine hl.right.left (slice.imp_right fun hn => ?_)
    simp [hn]
  refine ⟨hl.strip slice, ?_, ?_, ?_⟩
  · rw [captured_of_not_options c fun _ _ _ => tame.semicolon, legible.trim_textOf tame.white,
      Choice.part]
  · intro hk
    rw [Choice.part]
    generalize c.taken = taken at frames
    cases frames with
    | lead | skip => rfl
    | modifiers | value | clause | columnList | rows | query | options => simp [key?] at hk
  · refine closed.imp (fun hc t hm => hc t (strip_subset _ hm)) And.right

theorem reads_of_route {steps : List Step} {ts : List Token} {cs : List Choice}
    (h : route steps ts = some cs) (hl : Legible d ts) (ht : Tame (textOf ts)) :
    List.Forall₂ (Step.Reads d) steps cs := by
  induction steps generalizing ts cs with
  | nil =>
      cases h
      exact .nil
  | cons step steps ih =>
      obtain ⟨c, cs', rfl, takes, hr⟩ := route_cons_eq_some h
      refine .cons (takes.reads hl ht) (ih hr ?_ ?_)
      · obtain ⟨before, after, cuts, -⟩ := takes
        obtain ⟨front, hf⟩ := cuts.next_suffix
        rw [← hf] at hl
        exact hl.right
      · obtain ⟨before, after, cuts, -⟩ := takes
        exact ht.of_subset cuts.next_suffix.subset

/-- The stretches that the parts of steps are written as. Nothing is written for an empty part. -/
def fragmentsOf : List Step → List (List Token) → List (List Token)
  | step :: steps, part :: parts =>
      if part = [] then fragmentsOf steps parts
      else (step.opening ++ (part ++ step.closing)) :: fragmentsOf steps parts
  | _, _ => []

/-- The stretch that begins a statement: its keyword and its first part. -/
def headline (keyword : String) (part : List Token) : List Token :=
  .word keyword.toList :: if part = [] then [] else .space [' '] :: part

theorem textOf_eq_nil_iff {ts : List Token} (h : Legible d ts) : textOf ts = [] ↔ ts = [] := by
  refine ⟨fun ht => ?_, fun ht => ht ▸ rfl⟩
  by_contra hne
  exact h.textOf_ne_nil hne ht

theorem filterMap_capturesOf {insertLike : Bool} {steps : List Step} {cs : List Choice}
    (hr : List.Forall₂ (Step.Reads d) steps cs) (hn : ∀ step ∈ steps, step.Named insertLike)
    (hb : ∀ p ∈ capturesOf steps cs, Unbordered p.2) :
    (capturesOf steps cs).filterMap (fun p =>
      let t := Text.trimWhere Parts.isPadding p.2
      if t.isEmpty then none else some (Parts.fragment insertLike p.1 t)) =
        (fragmentsOf steps (cs.map Choice.part)).map textOf := by
  induction hr with
  | nil => rfl
  | @cons step c steps cs reads _ ih =>
      rw [capturesOf] at hb ⊢
      have rest := ih (fun step hs => hn step (by simp [hs])) fun p hp => hb p (by simp [hp])
      rw [List.map_cons, fragmentsOf, List.filterMap_append, rest]
      cases hk : step.key? with
      | none => rw [if_pos (reads.keyless hk), Step.captures, hk, List.filterMap_nil,
          List.nil_append]
      | some key =>
          have captures : step.captures c = [(key, textOf c.part)] := by
            rw [Step.captures, hk, reads.captured]
          rw [captures] at hb
          have plain : Text.trimWhere Parts.isPadding (textOf c.part) = textOf c.part := by
            have := hb _ (List.mem_append_left _ (List.mem_singleton_self _))
            rw [← reads.captured] at this ⊢
            exact trimWhere_isPadding_trim this
          rw [captures, List.filterMap_cons, List.filterMap_nil]
          simp only [plain, List.isEmpty_iff, textOf_eq_nil_iff reads.legible]
          by_cases hp : c.part = []
          · rw [if_pos hp, if_pos hp, List.nil_append]
          · rw [if_neg hp, if_neg hp, List.map_cons,
              ← (hn step (by simp)).fragment_eq hk (reads.legible.textOf_ne_nil hp),
              List.singleton_append]

/-- Joined parts are the stretches of their statement with a space between neighbours. -/
theorem join_capturesOf {k key : String} {keywords : List Phrase} {first : Step}
    {steps : List Step} {c₀ c₁ : Choice} {cs : List Choice} (hk : key ∉ Parts.unprefixed)
    (hu : Text.upper key.toList = k.toList) (hkey : first.key? = some key)
    (hn : ∀ step ∈ steps, step.Named (StatementType.ofPhrase k.toList).isInsertLike)
    (hr : List.Forall₂ (Step.Reads d) (.lead keywords :: first :: steps) (c₀ :: c₁ :: cs))
    (hb : ∀ p ∈ capturesOf (.lead keywords :: first :: steps) (c₀ :: c₁ :: cs), Unbordered p.2) :
    Parts.join ⟨capturesOf (.lead keywords :: first :: steps) (c₀ :: c₁ :: cs)⟩ =
      textOf (spaced (headline k c₁.part :: fragmentsOf steps (cs.map Choice.part))) := by
  cases hr with
  | cons _ hr =>
      cases hr with
      | cons reads hr =>
          have captures : capturesOf (.lead keywords :: first :: steps) (c₀ :: c₁ :: cs) =
              (key, textOf c₁.part) :: capturesOf steps cs := by
            rw [capturesOf, capturesOf, Step.captures, Step.captures, hkey, reads.captured]
            rfl
          rw [captures] at hb ⊢
          have plain : Text.trimWhere Parts.isPadding (textOf c₁.part) = textOf c₁.part := by
            have := hb _ (List.mem_cons_self ..)
            rw [← reads.captured] at this ⊢
            exact trimWhere_isPadding_trim this
          have rest := filterMap_capturesOf hr hn fun p hp => hb p (by simp [hp])
          have other : key ≠ "columns" := by
            rintro rfl
            exact hk (by decide)
          have fragment (il : Bool) : Parts.fragment il key (textOf c₁.part) =
              textOf (headline k c₁.part) := by
            rw [Parts.fragment, if_neg hk, hu, headline]
            simp only [other, beq_iff_eq, Bool.and_eq_true, and_false, if_false,
              List.isEmpty_iff, textOf_eq_nil_iff reads.legible]
            split
            · simp [text]
            · simp [text]
          rw [Parts.join, textOf_spaced, List.map_cons, ← rest, ← hu]
          simp only [Parts.fragments, plain, fragment]
          rfl

namespace Step
variable {insertLike : Bool} {step : Step}

theorem Named.isClosed_opening (h : step.Named insertLike) :
    ∀ t ∈ step.opening, t.isClosed = true := by
  have keyword {p : Phrase} (hp : p.IsPlain) :
      ∀ t ∈ p.tokens ++ [.space [' ']], t.isClosed = true := by
    intro t ht
    rcases List.mem_append.mp ht with ht | ht
    · exact hp.spells_tokens.isClosed t ht
    · exact List.mem_singleton.mp ht ▸ rfl
  cases step with
  | clause key' p | rows key' p => exact keyword h.2.2
  | columnList key' => simp [opening, isClosed]
  | lead | modifiers | value | query | options | finish => simp [opening]

theorem isClosed_closing (step : Step) : ∀ t ∈ step.closing, t.isClosed = true := by
  cases step <;> simp [closing, isClosed]

/-- What is written for a part is legible, and neither begins nor ends with blanks. -/
theorem Reads.legible_fragment {c : Choice} (h : step.Reads d c) (hn : step.Named insertLike)
    (hp : c.part ≠ []) :
    Legible d (step.opening ++ (c.part ++ step.closing)) ∧
      Firm (step.opening ++ (c.part ++ step.closing)) := by
  have firm : Firm c.part := firm_strip hp
  have keyword {p : Phrase} (hk : p.IsPlain) :
      Legible d ((p.tokens ++ [.space [' ']]) ++ (c.part ++ [])) ∧
        Firm ((p.tokens ++ [.space [' ']]) ++ (c.part ++ [])) := by
    have words : ∀ t ∈ p.tokens.getLast?, t.isSpace = false := fun t ht =>
      Phrase.isSpace_of_isWord (Phrase.isWord_getLast?_tokens p t ht)
    rw [List.append_nil, List.append_assoc, List.singleton_append]
    refine ⟨(hk.legible_tokens d).spaced h.legible hk.spells_tokens.isClosed words firm.head,
      ⟨by simp, fun t ht => ?_, fun t ht => ?_⟩⟩
    · have hne : p.tokens ≠ [] := hk.spells_tokens.ne_nil
      rw [List.head?_append_of_ne_nil _ hne] at ht
      exact Phrase.isSpace_of_isWord (Phrase.isWord_head?_tokens p t ht)
    · rw [List.getLast?_append_of_ne_nil _ (by simp),
        List.getLast?_cons_of_ne_nil firm.ne_nil] at ht
      exact firm.last t ht
  cases step with
  | clause key' p | rows key' p => exact keyword hn.2.2
  | columnList key' =>
      have closed : ∀ t ∈ c.part, t.isClosed = true := by
        rcases h.closed with hc | ⟨_, _, hc⟩
        · exact hc
        · simp at hc
      have inner : Legible d (c.part ++ [.symbol ')']) := by
        refine h.legible.append (legible_nil.symbol_cons (by decide) (by decide)
          (by cases d <;> decide)) closed ?_ ?_
        · rintro t - u ⟨⟩
          exact ⟨fun _ => rfl, fun _ => rfl⟩
        · rintro _ ⟨⟩
          cases d <;> decide
      refine ⟨inner.symbol_cons (by decide) (by decide) (by cases d <;> decide),
        by simp [opening], ?_, ?_⟩
      · rintro t ⟨⟩
        rfl
      · intro t ht
        rw [opening, closing, ← List.append_assoc, List.getLast?_concat] at ht
        cases ht
        rfl
  | value | query | options =>
      simp only [opening, closing, List.nil_append, List.append_nil]
      exact ⟨h.legible, firm⟩
  | finish => exact absurd (h.keyless rfl) hp
  | lead | modifiers => exact hn.elim

end Step

theorem legible_fragmentsOf {insertLike : Bool} {steps : List Step} {cs : List Choice}
    (hr : List.Forall₂ (Step.Reads d) steps cs) (hn : ∀ step ∈ steps, step.Named insertLike)
    {f : List Token} (hf : f ∈ fragmentsOf steps (cs.map Choice.part)) : Legible d f ∧ Firm f := by
  induction hr with
  | nil => simp [fragmentsOf] at hf
  | @cons step c steps cs reads _ ih =>
      rw [List.map_cons, fragmentsOf] at hf
      split at hf
      · exact ih (fun step hs => hn step (by simp [hs])) hf
      · rename_i hp
        rcases List.mem_cons.mp hf with rfl | hf
        · exact reads.legible_fragment (hn step (by simp)) hp
        · exact ih (fun step hs => hn step (by simp [hs])) hf

theorem fragmentsOf_of_route_nil {steps : List Step} {cs : List Choice}
    (h : route steps [] = some cs) : fragmentsOf steps (cs.map Choice.part) = [] := by
  have empty : ∀ c ∈ cs, c.part = [] := by
    intro c hc
    have := taken_subset_of_route h hc
    rw [Choice.part, List.subset_nil.mp this]
    rfl
  clear h
  induction steps generalizing cs with
  | nil => rfl
  | cons step steps ih =>
      cases cs with
      | nil => rfl
      | cons c cs =>
          rw [List.map_cons, fragmentsOf, if_pos (empty c (by simp))]
          exact ih fun c hc => empty c (by simp [hc])

/-- Only the last stretch may have an unclosed quote. -/
theorem closed_fragmentsOf {insertLike : Bool} {steps : List Step} {ts : List Token}
    {cs : List Choice} (h : route steps ts = some cs)
    (hn : ∀ step ∈ steps, step.Named insertLike) {f : List Token}
    (hf : f ∈ (fragmentsOf steps (cs.map Choice.part)).dropLast) :
    ∀ t ∈ f, t.isClosed = true := by
  induction steps generalizing ts cs with
  | nil => simp [fragmentsOf] at hf
  | cons step steps ih =>
      obtain ⟨c, cs', rfl, ⟨before, after, cuts, -, closed⟩, hr⟩ := route_cons_eq_some h
      have rest := ih hr fun step hs => hn step (by simp [hs])
      rw [List.map_cons, fragmentsOf] at hf
      split at hf
      · exact rest hf
      · by_cases hne : fragmentsOf steps (cs'.map Choice.part) = []
        · simp [hne] at hf
        · rw [List.dropLast_cons_of_ne_nil hne] at hf
          rcases List.mem_cons.mp hf with rfl | hf
          · rcases closed with closed | ⟨hstop, -⟩
            · intro t ht
              simp only [List.mem_append] at ht
              rcases ht with ht | ht | ht
              · exact (hn step (by simp)).isClosed_opening t ht
              · exact closed t (strip_subset _ ht)
              · exact step.isClosed_closing t ht
            · have next : c.next = [] := by
                have := cuts.stop
                rw [hstop] at this
                exact (List.nil_eq_append_iff.mp this).2
              rw [next] at hr
              exact absurd (fragmentsOf_of_route_nil hr) hne
          · exact rest hf

theorem legible_headline {k : String} (hk : Phrase.IsPlain [k]) {part : List Token}
    (hl : Legible d part) (hp : ∀ t ∈ part.head?, t.isSpace = false)
    (he : ∀ t ∈ part.getLast?, t.isSpace = false) :
    Legible d (headline k part) ∧ Firm (headline k part) := by
  have word := hk.legible_tokens d
  rw [headline]
  split
  · exact ⟨word, by simp, by simp [isSpace], by simp [isSpace]⟩
  · rename_i hne
    refine ⟨word.spaced hl (by simp [Phrase.tokens, isClosed]) (by simp [Phrase.tokens, isSpace])
      hp, by simp, by simp [isSpace], ?_⟩
    intro t ht
    rw [List.getLast?_cons_of_ne_nil (by simp), List.getLast?_cons_of_ne_nil hne] at ht
    exact he t ht

/-- The tokens of joined parts are legible. -/
theorem legible_layout {insertLike : Bool} {k : String} {keywords : List Phrase} {first : Step}
    {steps : List Step} {ts : List Token} {c₀ c₁ : Choice} {cs : List Choice}
    (hk : Phrase.IsPlain [k]) (hf : ∀ key keywords, first ≠ .options key keywords)
    (hn : ∀ step ∈ steps, step.Named insertLike)
    (h : route (.lead keywords :: first :: steps) ts = some (c₀ :: c₁ :: cs))
    (hl : Legible d ts) (ht : Tame (textOf ts)) :
    Legible d (spaced (headline k c₁.part :: fragmentsOf steps (cs.map Choice.part))) := by
  have reads := reads_of_route h hl ht
  obtain ⟨_, _, he, -, hr⟩ := route_cons_eq_some h
  cases he
  obtain ⟨_, _, he, -, hr⟩ := route_cons_eq_some hr
  cases he
  cases reads with
  | cons _ reads =>
      cases reads with
      | cons reads rest =>
          have first := legible_headline hk reads.legible (isSpace_head?_strip _)
            (isSpace_getLast?_strip _)
          refine legible_spaced (fun f hm => ?_) fun f hm => ?_
          · rcases List.mem_cons.mp hm with rfl | hm
            · exact first
            · exact legible_fragmentsOf rest hn hm
          · by_cases hne : fragmentsOf steps (cs.map Choice.part) = []
            · simp [hne] at hm
            · rw [List.dropLast_cons_of_ne_nil hne] at hm
              rcases List.mem_cons.mp hm with rfl | hm
              · have closed : ∀ t ∈ c₁.part, t.isClosed = true :=
                  reads.closed.resolve_right fun ⟨key, keywords, he⟩ => hf key keywords he
                rw [headline]
                split
                · simp [isClosed]
                · simpa [isClosed] using closed
              · exact closed_fragmentsOf hr hn hm

/-- How a pattern begins: the keyword of the statement, the part that has its name, and steps up
to the end. -/
structure Pattern.Opens (p : Pattern) (k key : String) (keywords : List Phrase) (first : Step)
    (steps : List Step) : Prop where
  steps_eq : p.steps = .lead keywords :: first :: (steps ++ [.finish])
  single : ∀ q ∈ keywords, q.length = 1
  first_eq : first = .value key ∨ ∃ phrases most, first = .modifiers key phrases most
  upper_key : Text.upper key.toList = k.toList
  unprefixed : key ∉ Parts.unprefixed
  plain : Phrase.IsPlain [k]
  named : ∀ step ∈ steps, step.Named (StatementType.ofPhrase k.toList).isInsertLike

namespace Pattern.Opens
variable {p : Pattern} {k key : String} {keywords : List Phrase} {first : Step}
  {steps : List Step}

theorem key_eq (h : p.Opens k key keywords first steps) : first.key? = some key := by
  rcases h.first_eq with rfl | ⟨_, _, rfl⟩ <;> rfl

theorem first_ne_options (h : p.Opens k key keywords first steps) (key' : String)
    (keywords' : List Phrase) : first ≠ .options key' keywords' := by
  rcases h.first_eq with rfl | ⟨_, _, rfl⟩ <;> simp

theorem named_finish (h : p.Opens k key keywords first steps) :
    ∀ step ∈ steps ++ [.finish], step.Named (StatementType.ofPhrase k.toList).isInsertLike := by
  intro step hm
  rcases List.mem_append.mp hm with hm | hm
  · exact h.named step hm
  · exact List.mem_singleton.mp hm ▸ trivial

end Pattern.Opens

theorem Pattern.exists_opens {p : Pattern} {type : StatementType} (h : ofType? d type = some p) :
    ∃ k ∈ StatementType.keywords, type = .ofPhrase k.toList ∧
      ∃ key keywords first steps, p.Opens k key keywords first steps := by
  have mk {k key : String} {keywords : List Phrase} {first : Step}
      (hs : p.steps = .lead keywords :: first :: ((p.steps.drop 2).dropLast ++ [.finish]))
      (hq : ∀ q ∈ keywords, q.length = 1)
      (hf : first = .value key ∨ ∃ phrases most, first = .modifiers key phrases most)
      (hu : Text.upper key.toList = k.toList) (hk : key ∉ Parts.unprefixed)
      (hp : Phrase.IsPlain [k])
      (hn : ∀ step ∈ (p.steps.drop 2).dropLast,
        step.Named (StatementType.ofPhrase k.toList).isInsertLike) :
      ∃ key keywords first steps, p.Opens k key keywords first steps :=
    ⟨key, keywords, first, _, hs, hq, hf, hu, hk, hp, hn⟩
  cases type with
  | other phrase => simp [ofType?] at h
  | select =>
      cases h
      exact ⟨"SELECT", by decide, rfl, mk rfl (by decide) (.inr ⟨_, _, rfl⟩) (by decide)
        (by decide) (by decide) (by cases d <;> decide)⟩
  | insert =>
      cases h
      exact ⟨"INSERT", by decide, rfl, mk rfl (by decide) (.inr ⟨_, _, rfl⟩) (by decide)
        (by decide) (by decide) (by cases d <;> decide)⟩
  | replace =>
      cases h
      exact ⟨"REPLACE", by decide, rfl, mk rfl (by decide) (.inr ⟨_, _, rfl⟩) (by decide)
        (by decide) (by decide) (by cases d <;> decide)⟩
  | update =>
      cases h
      exact ⟨"UPDATE", by decide, rfl, mk rfl (by decide) (.inr ⟨_, _, rfl⟩) (by decide)
        (by decide) (by decide) (by cases d <;> decide)⟩
  | delete =>
      cases h
      exact ⟨"DELETE", by decide, rfl, mk rfl (by decide) (.inr ⟨_, _, rfl⟩) (by decide)
        (by decide) (by decide) (by cases d <;> decide)⟩
  | truncate =>
      cases h
      exact ⟨"TRUNCATE", by decide, rfl, mk rfl (by decide) (.inr ⟨_, _, rfl⟩) (by decide)
        (by decide) (by decide) (by cases d <;> decide)⟩
  | set =>
      cases h
      exact ⟨"SET", by decide, rfl, mk rfl (by decide) (.inl rfl) (by decide) (by decide)
        (by decide) (by decide)⟩

end SqlStatement
