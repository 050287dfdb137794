import SqlStatement.Proofs.Letters
import SqlStatement.Proofs.Reveiling

/-!
# What a layout is made of

Besides the tokens of the parts a layout has words of keywords, single spaces and
the parentheses of a column list. None of these is a literal, a semicolon or the
beginning of a marker, so a layout has none of them that the parts do not have.
-/
namespace SqlStatement
open Token
variable {d : Dialect}

theorem Text.isWhite_of_isWordChar {c : Char} (h : isWordChar c = true) : isWhite c = false := by
  have bounds := toNat_of_isWordChar h
  simp only [isWhite]
  generalize c.toNat = n at bounds
  simp only [Bool.or_eq_false_iff, Bool.and_eq_false_iff, decide_eq_false_iff_not,
    beq_eq_false_iff_ne]
  omega

/-- A stretch of a layout is made from one of the parts. -/
theorem exists_of_mem_fragmentsOf {steps : List Step} {parts : List (List Token)}
    {f : List Token} (hf : f ∈ fragmentsOf steps parts) :
    ∃ step ∈ steps, ∃ part ∈ parts, f = step.opening ++ (part ++ step.closing) := by
  induction steps generalizing parts with
  | nil => simp [fragmentsOf] at hf
  | cons step steps ih =>
      cases parts with
      | nil => simp [fragmentsOf] at hf
      | cons part parts =>
          have rest (h : f ∈ fragmentsOf steps parts) :
              ∃ s ∈ step :: steps, ∃ p ∈ part :: parts, f = s.opening ++ (p ++ s.closing) := by
            obtain ⟨s, hs, p, hp, he⟩ := ih h
            exact ⟨s, by simp [hs], p, by simp [hp], he⟩
          rw [fragmentsOf] at hf
          split at hf
          · exact rest hf
          · rcases List.mem_cons.mp hf with rfl | hf
            · exact ⟨step, by simp, part, by simp, rfl⟩
            · exact rest hf

namespace Token
variable {ts us : List Token}

/-- A token that a layout may add: no literal, no semicolon, and white only as a blank. -/
def Framing (t : Token) : Prop :=
  (∀ x, t ≠ quoted x) ∧ ∀ c ∈ t.text, c ≠ ';' ∧ (Text.isWhite c = true → Text.isBlank c = true)

theorem framing_space : Framing (space [' ']) := by
  refine ⟨by simp, fun c hc => ?_⟩
  cases List.mem_singleton.mp hc
  decide

theorem framing_of_bare (ht : Tidy ts) (hb : Bare ts) : ∀ t ∈ ts, Framing t := by
  intro t hm
  have proper := ht.proper t hm
  cases t with
  | word w =>
      refine ⟨by simp, fun c hc => ⟨?_, fun white => ?_⟩⟩
      · rintro rfl
        exact absurd (proper.2 _ hc) (by decide)
      · rw [Text.isWhite_of_isWordChar (proper.2 c hc)] at white
        simp at white
  | space b =>
      refine ⟨by simp, fun c hc => ⟨?_, fun _ => proper.2 c hc⟩⟩
      rintro rfl
      exact absurd (proper.2 _ hc) (by decide)
  | quoted | symbol | unterminated => simpa [isWord, isSpace] using hb _ hm

theorem mem_spaced {fs : List (List Token)} {t : Token} (h : t ∈ spaced fs) :
    t = space [' '] ∨ ∃ f ∈ fs, t ∈ f := by
  fun_induction spaced fs with
  | case1 => simp at h
  | case2 ts => exact .inr ⟨ts, by simp, h⟩
  | case3 ts us rest ih =>
      rw [List.mem_append, List.mem_cons] at h
      rcases h with h | h | h
      · exact .inr ⟨ts, by simp, h⟩
      · exact .inl h
      · rcases ih h with h | ⟨f, hf, h⟩
        · exact .inl h
        · exact .inr ⟨f, List.mem_cons_of_mem _ hf, h⟩

end Token

theorem Step.Named.framing {insertLike : Bool} {step : Step} (h : step.Named insertLike) :
    ∀ t ∈ step.opening ++ step.closing, Framing t := by
  have keyword {p : Phrase} (hp : p.IsPlain) :
      ∀ t ∈ (p.tokens ++ [.space [' ']]) ++ [], Framing t := by
    intro t ht
    simp only [List.append_nil, List.mem_append, List.mem_singleton] at ht
    rcases ht with ht | rfl
    · exact framing_of_bare (hp.legible_tokens .mysql).tidy hp.spells_tokens.bare t ht
    · exact framing_space
  cases step with
  | clause key p | rows key p => exact keyword h.2.2
  | columnList key =>
      intro t ht
      simp only [opening, closing, List.cons_append, List.nil_append, List.mem_cons,
        List.not_mem_nil, or_false] at ht
      rcases ht with rfl | rfl <;> simp [Framing, Token.text] <;> decide
  | lead | modifiers | value | query | options | finish => simp [opening, closing]

theorem not_infix_append_cons {α : Type} {w xs ys : List α} {x : α} (hx : x ∉ w)
    (hxs : ¬w <:+: xs) (hys : ¬w <:+: ys) : ¬w <:+: xs ++ x :: ys := by
  intro h
  rcases List.infix_append_iff_ne_nil.mp h with h | h | ⟨w₁, w₂, -, hne, rfl, -, hp⟩
  · exact hxs h
  · rcases List.infix_cons_iff.mp h with h | h
    · cases w with
      | nil => exact hys List.nil_infix
      | cons y w =>
          obtain ⟨rfl, -⟩ := List.cons_prefix_cons.mp h
          exact hx (by simp)
    · exact hys h
  · obtain ⟨y, w₂, rfl⟩ := List.exists_cons_of_ne_nil hne
    obtain ⟨rfl, -⟩ := List.cons_prefix_cons.mp hp
    exact hx (by simp)

namespace Token
variable {ts us : List Token}

/-- Tokens in which no marker begins, outside of literals. -/
def Markless (d : Dialect) (ts : List Token) : Prop :=
  ¬Subquery.hashSub <:+: Piece.unveil d (piecesOf ts)

theorem Markless.of_infix (h : Markless d us) (hi : ts <:+: us) : Markless d ts := by
  intro hm
  refine h (hm.trans ?_)
  obtain ⟨before, after, rfl⟩ := hi
  simp only [piecesOf_append, Piece.unveil_append]
  exact List.infix_append ..

/-- A token of one character that is in no marker separates markers. -/
theorem Markless.cons {t : Token} {c : Char} (h : Markless d ts) (h' : Markless d us)
    (ht : t.pieces = [.char c]) (hc : .char c ∉ Subquery.hashSub) :
    Markless d (ts ++ t :: us) := by
  rw [Markless, piecesOf_append, piecesOf_cons, ht, Piece.unveil_append]
  exact not_infix_append_cons hc h h'

theorem markless_of_bare (ht : Tidy ts) (hb : Bare ts) : Markless d ts := by
  intro hm
  obtain ⟨p, hp, hash⟩ := List.mem_flatMap.mp (hm.mem (a := .char '#') (by decide))
  obtain ⟨t, hmem, hp⟩ := List.mem_flatMap.mp hp
  have proper := ht.proper t hmem
  have word := hb t hmem
  cases t with
  | word w =>
      obtain ⟨c, hc, rfl⟩ := List.mem_map.mp hp
      cases List.mem_singleton.mp hash
      exact absurd (proper.2 _ hc) (by decide)
  | space b =>
      obtain ⟨c, hc, rfl⟩ := List.mem_map.mp hp
      cases List.mem_singleton.mp hash
      exact absurd (proper.2 _ hc) (by decide)
  | quoted | symbol | unterminated => simp [isWord, isSpace] at word

theorem markless_nil : Markless d [] := markless_of_bare tidy_nil (by simp [Bare])

theorem markless_spaced {fs : List (List Token)} (h : ∀ f ∈ fs, Markless d f) :
    Markless d (spaced fs) := by
  fun_induction spaced fs with
  | case1 => exact markless_nil
  | case2 ts => exact h ts (by simp)
  | case3 ts us rest ih =>
      exact (h ts (by simp)).cons (ih fun f hf => h f (by simp [hf])) rfl (by decide)

end Token

theorem Step.Named.markless {insertLike : Bool} {step : Step} (h : step.Named insertLike)
    {part : List Token} (hp : Markless d part) :
    Markless d (step.opening ++ (part ++ step.closing)) := by
  have keyword {p : Phrase} (hk : p.IsPlain) :
      Markless d ((p.tokens ++ [.space [' ']]) ++ (part ++ [])) := by
    have words : Markless d p.tokens :=
      markless_of_bare (hk.legible_tokens d).tidy hk.spells_tokens.bare
    rw [List.append_nil, List.append_assoc, List.singleton_append]
    exact words.cons hp rfl (by decide)
  cases step with
  | clause key p | rows key p => exact keyword h.2.2
  | columnList key =>
      exact markless_nil.cons (hp.cons markless_nil rfl (by decide)) rfl (by decide)
  | lead | modifiers | value | query | options | finish =>
      simpa [opening, closing] using hp

theorem headline_eq (k : String) (part : List Token) :
    headline k part = .word k.toList :: trail part := rfl

theorem Phrase.IsPlain.markless_headline {k : String} (hk : IsPlain [k]) {part : List Token}
    (hp : Markless d part) : Markless d (headline k part) := by
  have word : Markless d [.word k.toList] :=
    markless_of_bare (hk.legible_tokens d).tidy hk.spells_tokens.bare
  rw [headline]
  split
  · exact word
  · exact word.cons hp rfl (by decide)

/-- The layout of the parts of a statement: its keyword with the first part, and the others. -/
def layout (k : String) : List Step → List (List Token) → List Token
  | _ :: _ :: steps, _ :: part :: parts => spaced (headline k part :: fragmentsOf steps parts)
  | _, _ => []

namespace Pattern.Opens
variable {p : Pattern} {k key : String} {keywords : List Phrase} {first : Step}
  {steps : List Step} {ts : List Token} {cs : List Choice}

/-- The layout begins with the keyword of the statement. -/
theorem exists_layout (h : p.Opens k key keywords first steps)
    (hr : route p.steps ts = some cs) :
    ∃ c₀ c₁ cs', cs = c₀ :: c₁ :: cs' ∧
      layout k p.steps (cs.map Choice.part) =
        spaced (headline k c₁.part :: fragmentsOf (steps ++ [.finish]) (cs'.map Choice.part)) := by
  rw [h.steps_eq] at hr ⊢
  obtain ⟨c₀, _, rfl, -, hr⟩ := route_cons_eq_some hr
  obtain ⟨c₁, cs', rfl, -, -⟩ := route_cons_eq_some hr
  exact ⟨c₀, c₁, cs', rfl, rfl⟩

/-- Joined parts are the text of their layout. -/
theorem join_eq (h : p.Opens k key keywords first steps) (hr : route p.steps ts = some cs)
    (hl : Legible d ts) (ht : Tame (textOf ts))
    (hb : ∀ q ∈ capturesOf p.steps cs, Unbordered q.2) :
    Parts.join ⟨capturesOf p.steps cs⟩ = textOf (layout k p.steps (cs.map Choice.part)) := by
  have reads := reads_of_route hr hl ht
  obtain ⟨c₀, c₁, cs', rfl, he⟩ := h.exists_layout hr
  rw [he]
  rw [h.steps_eq] at reads hb ⊢
  exact join_capturesOf h.unprefixed h.upper_key h.key_eq h.named_finish reads hb

theorem legible_layout (h : p.Opens k key keywords first steps)
    (hr : route p.steps ts = some cs) (hl : Legible d ts) (ht : Tame (textOf ts)) :
    Legible d (layout k p.steps (cs.map Choice.part)) := by
  obtain ⟨c₀, c₁, cs', rfl, he⟩ := h.exists_layout hr
  rw [he]
  rw [h.steps_eq] at hr
  exact SqlStatement.legible_layout h.plain h.first_ne_options h.named_finish hr hl ht

theorem isInfix_part (hr : route p.steps ts = some cs) {part : List Token}
    (hp : part ∈ cs.map Choice.part) : part <:+: ts := by
  obtain ⟨c, hc, rfl⟩ := List.mem_map.mp hp
  exact (isInfix_strip _).trans (taken_infix_of_route hr hc)

/-- Every token of a layout is a token of the statement, or one that layouts add. -/
theorem mem_layout (h : p.Opens k key keywords first steps) (hr : route p.steps ts = some cs)
    {t : Token} (ht : t ∈ layout k p.steps (cs.map Choice.part)) : t ∈ ts ∨ Framing t := by
  obtain ⟨c₀, c₁, cs', rfl, he⟩ := h.exists_layout hr
  rw [he] at ht
  rcases mem_spaced ht with rfl | ⟨f, hf, ht⟩
  · exact .inr framing_space
  · rcases List.mem_cons.mp hf with rfl | hf
    · have word := framing_of_bare (h.plain.legible_tokens .mysql).tidy h.plain.spells_tokens.bare
      rw [headline_eq] at ht
      rcases List.mem_cons.mp ht with rfl | ht
      · exact .inr (word _ (List.mem_singleton_self _))
      · rw [trail] at ht
        split at ht
        · simp at ht
        · rcases List.mem_cons.mp ht with rfl | ht
          · exact .inr framing_space
          · exact .inl ((isInfix_part hr (by simp)).subset ht)
    · obtain ⟨step, hs, part, hp, rfl⟩ := exists_of_mem_fragmentsOf hf
      have framing := (h.named_finish step hs).framing
      simp only [List.mem_append] at ht framing
      rcases ht with ht | ht | ht
      · exact .inr (framing t (.inl ht))
      · exact .inl ((isInfix_part hr (by simpa using .inr (.inr (List.mem_map.mp hp)))).subset ht)
      · exact .inr (framing t (.inr ht))

theorem tame_layout (h : p.Opens k key keywords first steps) (hr : route p.steps ts = some cs)
    (ht : Tame (textOf ts)) : Tame (textOf (layout k p.steps (cs.map Choice.part))) := by
  have chars {c : Char} (hc : c ∈ textOf (layout k p.steps (cs.map Choice.part))) :
      c ∈ textOf ts ∨ c ≠ ';' ∧ (Text.isWhite c = true → Text.isBlank c = true) := by
    obtain ⟨t, hm, hc⟩ := List.mem_flatMap.mp hc
    refine (h.mem_layout hr hm).imp (fun hm => ?_) fun hf => hf.2 c hc
    exact List.mem_flatMap.mpr ⟨t, hm, hc⟩
  refine ⟨fun c hc => ?_, fun hc => ?_⟩
  · exact (chars hc).elim (ht.white c) And.right
  · exact (chars hc).elim ht.semicolon fun hf => hf.1 rfl

theorem markless_layout (h : p.Opens k key keywords first steps)
    (hr : route p.steps ts = some cs) (hm : Markless d ts) :
    Markless d (layout k p.steps (cs.map Choice.part)) := by
  have parts {part : List Token} (hp : part ∈ cs.map Choice.part) : Markless d part :=
    hm.of_infix (isInfix_part hr hp)
  obtain ⟨c₀, c₁, cs', rfl, he⟩ := h.exists_layout hr
  rw [he]
  refine markless_spaced fun f hf => ?_
  rcases List.mem_cons.mp hf with rfl | hf
  · exact h.plain.markless_headline (parts (by simp))
  · obtain ⟨step, hs, part, hp, rfl⟩ := exists_of_mem_fragmentsOf hf
    refine (h.named_finish step hs).markless (parts ?_)
    simp only [List.map_cons, List.mem_cons]
    exact .inr (.inr hp)

end Pattern.Opens
end SqlStatement
