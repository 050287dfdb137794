import Mathlib.Data.List.Infix
import SqlStatement.Proofs.Resplitting

/-!
# Texts side by side

A text is shut if no parenthesis that its veil shows has SELECT behind it, so
whatever it is written next to, its subqueries are the ones it has by itself.
Shut texts with a comma, a parenthesis or a blank between them have the tokens
of both. A text also keeps its tokens when it loses white characters and commas
at its ends, except that a run of blanks may get shorter.
-/
namespace SqlStatement
open Token
variable {d : Dialect}

namespace Text

/-- A character that parts can lose at their ends: white, or a comma. -/
def isSlack (c : Char) : Bool := isWhite c || c == ','

theorem isSlack_of_isPadding {c : Char} (h : Parts.isPadding c = true) : isSlack c = true := by
  simp only [Parts.isPadding, Bool.or_eq_true, beq_iff_eq] at h
  rcases h with ((rfl | rfl) | rfl) | rfl <;> decide

theorem isSlack_of_isWhite {c : Char} (h : isWhite c = true) : isSlack c = true := by
  rw [isSlack, h, Bool.true_or]

theorem isWordChar_of_isSlack {c : Char} (h : isSlack c = true) : isWordChar c = false := by
  by_contra word
  rw [Bool.not_eq_false] at word
  rw [isSlack, isWhite_of_isWordChar word, Bool.false_or, beq_iff_eq] at h
  subst h
  revert word
  decide

/-- A property that is kept when a text loses a character at either end is kept by trimming. -/
theorem trimWhere_induction {P : Text → Prop} {p : Char → Bool}
    (front : ∀ c t, p c = true → P (c :: t) → P t)
    (back : ∀ t c, p c = true → P (t ++ [c]) → P t) {t : Text} (h : P t) : P (trimWhere p t) := by
  have behind (t : Text) (h : P t) : P (List.rdropWhile p t) := by
    induction t using List.reverseRecOn with
    | nil => exact h
    | append_singleton t c ih =>
        cases hc : p c with
        | true =>
            rw [List.rdropWhile_concat_pos _ _ _ hc]
            exact ih (back t c hc h)
        | false => rwa [List.rdropWhile_concat_neg _ _ _ (by simp [hc])]
  refine behind _ ?_
  induction t with
  | nil => exact h
  | cons c t ih =>
      cases hc : p c with
      | true =>
          rw [List.dropWhile_cons_of_pos hc]
          exact ih (front c t hc h)
      | false => rwa [List.dropWhile_cons_of_neg (by simp [hc])]

end Text

theorem Dialect.isQuote_of_isSlack {c : Char} (h : Text.isSlack c = true) :
    d.isQuote c = false := by
  rw [Text.isSlack, Bool.or_eq_true, beq_iff_eq] at h
  rcases h with h | rfl
  · exact isQuote_of_isWhite h
  · cases d <;> decide

namespace Token
variable {ts us : List Token}

theorem exists_space {t : Token} (h : t.isSpace = true) : ∃ b, t = space b := by
  cases t with
  | space b => exact ⟨b, rfl⟩
  | word | quoted | symbol | unterminated => cases h

theorem skipSpace_of_not {t : Token} (ts : List Token) (h : t.isSpace = false) :
    skipSpace (t :: ts) = t :: ts := by
  cases t with
  | space b => cases h
  | word | quoted | symbol | unterminated => rfl

/-- Whether one of several words stands in front can be read off the first token. -/
theorem startsAny_cons {phrases : List Phrase} (hs : ∀ p ∈ phrases, p.length = 1) (t : Token)
    (ts : List Token) : Phrase.startsAny phrases (t :: ts) = isModifier phrases t := by
  rw [Phrase.startsAny, afterAny?_cons hs]
  cases isModifier phrases t <;> rfl

theorem selects_append_left (us : List Token) (h : selects ts = true) :
    selects (ts ++ us) = true := by
  have whole : skipSpace (ts ++ us) = skipSpace ts ++ us := by
    cases ts with
    | nil => simp [selects, skipSpace, Phrase.startsAny, Phrase.afterAny?, Phrase.after?] at h
    | cons t ts => cases t <;> rfl
  obtain ⟨p, hp, t, ht, hpre⟩ := Phrase.startsAny_iff.mp h
  rw [selects, whole]
  exact Phrase.startsAny_iff.mpr ⟨p, hp, t, ht, hpre.trans (List.prefix_append ..)⟩

/-- Tokens that do not begin with a word, blanks aside, do not begin with it in front of something
that is no word, unless there are none and it begins there. -/
theorem startsAny_append_cons {phrases : List Phrase} (single : ∀ p ∈ phrases, p.length = 1)
    {m : Token} (hm : m.isWord = false) (hs : Phrase.startsAny phrases (skipSpace ts) = false)
    (hu : ts = [] → m.isSpace = true → Phrase.startsAny phrases us = false) :
    Phrase.startsAny phrases (skipSpace (ts ++ m :: us)) = false := by
  have dark : isModifier phrases m = false := isModifier_eq_false hm
  cases ts with
  | nil =>
      cases hb : m.isSpace with
      | true =>
          obtain ⟨b, rfl⟩ := exists_space hb
          exact hu rfl rfl
      | false => rw [List.nil_append, skipSpace_of_not us hb, startsAny_cons single, dark]
  | cons t ts =>
      cases hb : t.isSpace with
      | true =>
          obtain ⟨b, rfl⟩ := exists_space hb
          cases ts with
          | nil =>
              rw [List.singleton_append, skipSpace, startsAny_cons single]
              exact dark
          | cons u ts =>
              rw [skipSpace, startsAny_cons single] at hs
              rw [List.cons_append, skipSpace, List.cons_append, startsAny_cons single]
              exact hs
      | false =>
          rw [skipSpace_of_not ts hb, startsAny_cons single] at hs
          rw [List.cons_append, skipSpace_of_not _ hb, startsAny_cons single]
          exact hs

/-- Tokens that do not begin with SELECT do not begin with it in front of something that is no
word, unless they are blanks in front of SELECT. -/
theorem selects_append_cons {m : Token} (hm : m.isWord = false) (hs : selects ts = false)
    (hu : ts = [] → m.isSpace = true → Phrase.startsAny [["SELECT"]] us = false) :
    selects (ts ++ m :: us) = false := startsAny_append_cons (by simp) hm hs hu

/-- A character that is in no word stands as a symbol, or in a run with the blanks behind it. -/
theorem attach_or {c : Char} (hc : Text.isWordChar c = false) (ts : List Token) :
    attach (.char c) ts = symbol c :: ts ∨ ∃ b, attach (.char c) ts = space b :: skipSpace ts := by
  by_cases hb : Text.isBlank c = true
  · right
    cases ts with
    | nil => exact ⟨[c], attach_space hb (by simp)⟩
    | cons t ts =>
        cases t with
        | space b => exact ⟨c :: b, attach_space_space b ts hb⟩
        | word | quoted | symbol | unterminated => exact ⟨[c], attach_space hb (by simp [isSpace])⟩
  · exact .inl (attach_symbol ts hc (by simpa using hb))

/-- No parenthesis among the tokens has SELECT behind it. -/
def Shut (ts : List Token) : Prop := ∀ us, symbol '(' :: us <:+ ts → selects us = false

theorem shut_iff : Shut ts ↔
    ∀ us ∈ ts.tails, us.head? = some (symbol '(') → selects us.tail = false := by
  constructor
  · intro h us hu hh
    obtain ⟨us, rfl⟩ := List.head?_eq_some_iff.mp hh
    exact h us ((List.mem_tails _ _).mp hu)
  · exact fun h us hu => h _ ((List.mem_tails _ _).mpr hu) rfl

instance (ts : List Token) : Decidable (Shut ts) := decidable_of_iff _ shut_iff.symm

namespace Shut

theorem of_suffix (h : Shut us) (hs : ts <:+ us) : Shut ts := fun vs hv => h vs (hv.trans hs)

theorem of_skipSpace (h : Shut (skipSpace ts)) : Shut ts := by
  cases ts with
  | nil => exact h
  | cons t ts =>
      cases t with
      | space b =>
          rintro us ⟨front, he⟩
          cases front with
          | nil => cases he
          | cons t front =>
              cases he
              exact h us ⟨front, rfl⟩
      | word | quoted | symbol | unterminated => exact h

theorem of_infix (h : Shut us) (hi : ts <:+: us) : Shut ts := by
  obtain ⟨front, behind, rfl⟩ := hi
  intro vs hv
  have whole := h (vs ++ behind) <| by
    obtain ⟨between, rfl⟩ := hv
    exact ⟨front ++ between, by simp⟩
  by_contra hs
  rw [selects_append_left behind (by simpa using hs)] at whole
  cases whole

/-- Shut legible tokens are their own veil. -/
theorem veiled (h : Shut ts) (hl : Legible d ts) : Veiled d (piecesOf ts) := by
  have literals := hl.literals
  have tidy := hl.tidy
  clear hl
  induction ts with
  | nil => exact .nil
  | cons t ts ih =>
      obtain ⟨proper, behind, -⟩ := tidy_cons_iff.mp tidy
      have rest := ih (h.of_suffix (List.suffix_cons ..)) literals.of_cons behind
      rw [piecesOf_cons]
      have bare (hb : t.isWord = true ∨ t.isSpace = true) : Veiled d (t.pieces ++ piecesOf ts) := by
        have := (tidy_singleton proper).veiled_bare (by simpa [Bare] using hb) rest
        simpa using this
      cases t with
      | word w => exact bare (.inl rfl)
      | space b => exact bare (.inr rfl)
      | quoted x =>
          refine .piece (by simp) (fun t ht => ?_) rest
          cases ht
          exact literals x (by simp)
      | unterminated q => exact .piece (by simp) (by simp) rest
      | symbol c =>
          by_cases hc : c = '('
          · subst hc
            refine .paren (fun hs => ?_) rest
            change Piece.startsSelect (piecesOf ts) = true at hs
            rw [startsSelect_piecesOf behind, h ts List.suffix_rfl] at hs
            cases hs
          · exact .piece (by simpa using hc) (by simp) rest

/-- Shut tokens on both sides of a token that is no word are shut, unless this puts a parenthesis
in front of SELECT. -/
theorem append_cons {m : Token} (h : Shut ts) (h' : Shut us) (hm : m.isWord = false)
    (opens : m = symbol '(' → selects us = false)
    (gap : m.isSpace = true → symbol '(' ∈ ts → Phrase.startsAny [["SELECT"]] us = false) :
    Shut (ts ++ m :: us) := by
  rintro vs ⟨front, he⟩
  rcases List.append_eq_append_iff.mp he with ⟨r, hf, hr⟩ | ⟨r, hf, hr⟩
  · cases r with
    | nil =>
        cases hr
        exact opens rfl
    | cons t r =>
        cases hr
        exact selects_append_cons hm (h r ⟨front, hf.symm⟩) fun _ hs => gap hs (by simp [hf])
  · cases r with
    | nil =>
        cases hr
        exact opens rfl
    | cons t r =>
        cases hr
        exact h' vs ⟨r, rfl⟩

end Shut

/-- The tokens of two stretches with a character between them. -/
def beside (c : Char) (ts us : List Token) : List Token :=
  ofPieces (piecesOf ts ++ .char c :: piecesOf us)

@[simp] theorem piecesOf_beside (c : Char) (ts us : List Token) :
    piecesOf (beside c ts us) = piecesOf ts ++ .char c :: piecesOf us := piecesOf_ofPieces _

@[simp] theorem textOf_beside (c : Char) (ts us : List Token) :
    textOf (beside c ts us) = textOf ts ++ c :: textOf us := by
  rw [← textOf_piecesOf, piecesOf_beside, Piece.textOf_append, Piece.textOf_cons, textOf_piecesOf,
    textOf_piecesOf]
  rfl

theorem eq_beside {c : Char} {vs : List Token} (ht : Tidy vs)
    (hp : piecesOf vs = piecesOf ts ++ .char c :: piecesOf us) : vs = beside c ts us := by
  rw [beside, ← hp, ht.ofPieces_piecesOf]

/-- A character that is neither blank nor in a word stands as a symbol. -/
theorem beside_symbol {c : Char} (hw : Text.isWordChar c = false) (hb : Text.isBlank c = false)
    (ht : Tidy ts) (hu : Tidy us) : beside c ts us = ts ++ symbol c :: us := by
  have proper : (symbol c).Proper := ⟨hw, hb⟩
  refine (eq_beside (tidy_append_iff.mpr ⟨ht, tidy_cons_iff.mpr ⟨proper, hu, ?_⟩, ?_⟩) ?_).symm
  · exact fun u _ => ⟨by simp [isWord], by simp [isSpace]⟩
  · rintro t - u ⟨⟩
    exact ⟨fun _ => rfl, fun _ => rfl⟩
  · rw [piecesOf_append, piecesOf_cons]
    rfl

theorem tidy_skipSpace (h : Tidy us) :
    Tidy (skipSpace us) ∧ ∀ t ∈ (skipSpace us).head?, t.isSpace = false := by
  refine ⟨?_, isSpace_head?_skipSpace h⟩
  obtain ⟨gap, -, he⟩ := skipSpace_eq us
  rw [he] at h
  exact h.right

/-- A blank makes one run with the blanks on both sides of it. -/
theorem exists_beside_blank {c : Char} (hc : Text.isBlank c = true) (ht : Tidy ts)
    (hu : Tidy us) : ∃ front b, beside c ts us = front ++ space b :: skipSpace us ∧
      (ts = front ∨ ∃ b', ts = front ++ [space b']) := by
  obtain ⟨behind, hb, pieces⟩ : ∃ behind : Text, (∀ c ∈ behind, Text.isBlank c = true) ∧
      piecesOf us = behind.map .char ++ piecesOf (skipSpace us) := by
    cases us with
    | nil => exact ⟨[], by simp, rfl⟩
    | cons u us =>
        cases u with
        | space b => exact ⟨b, (hu.proper _ (List.mem_cons_self ..)).2, rfl⟩
        | word | quoted | symbol | unterminated => exact ⟨[], by simp, rfl⟩
  obtain ⟨tail, first⟩ := tidy_skipSpace hu
  have whole {front : List Token} {before : Text} (hf : Tidy front)
      (last : ∀ t ∈ front.getLast?, t.isSpace = false)
      (hb' : ∀ c ∈ before, Text.isBlank c = true)
      (he : piecesOf ts = piecesOf front ++ before.map .char) :
      front ++ space (before ++ c :: behind) :: skipSpace us = beside c ts us := by
    have proper : (space (before ++ c :: behind)).Proper := by
      refine ⟨by simp, List.forall_mem_append.mpr ⟨hb', List.forall_mem_cons.mpr ⟨hc, hb⟩⟩⟩
    refine eq_beside (tidy_append_iff.mpr ⟨hf, tidy_cons_iff.mpr ⟨proper, tail, ?_⟩, ?_⟩) ?_
    · exact fun u hu => ⟨by simp [isWord], fun _ => first u hu⟩
    · rintro t hm u ⟨⟩
      exact ⟨fun _ => rfl, fun hs => by rw [last t hm] at hs; cases hs⟩
    · simp [he, pieces, Token.pieces]
  rcases List.eq_nil_or_concat' ts with rfl | ⟨front, t, rfl⟩
  · exact ⟨[], _, (whole tidy_nil (by simp) (by simp : ∀ c ∈ ([] : Text), _) (by simp)).symm,
      .inl rfl⟩
  · obtain ⟨tidy, single, apart⟩ := tidy_append_iff.mp ht
    cases t with
    | space b =>
        have proper : (space b).Proper := single.proper _ (List.mem_singleton_self _)
        refine ⟨front, _, (whole tidy (fun t hm => ?_) proper.2 ?_).symm,
          .inr ⟨b, rfl⟩⟩
        · by_contra hs
          have := (apart t hm (space b) rfl).2 (by simpa using hs)
          cases this
        · simp [Token.pieces]
    | word | quoted | symbol | unterminated =>
        refine ⟨_, _, (whole ht ?_ (by simp : ∀ c ∈ ([] : Text), _) (by simp)).symm, .inl rfl⟩
        rw [List.getLast?_concat]
        rintro _ ⟨⟩
        rfl

/-- Legible tokens whose subqueries are closed, unmarked and nest as deeply as they may. -/
structure Sealed (d : Dialect) (limit : Nat) (ts : List Token) : Prop where
  legible : Legible d ts
  shut : Shut ts
  markless : Markless d ts
  levels : ∀ x, quoted x ∈ ts → (Nesting.ofText d x).depth ≤ limit

namespace Sealed
variable {limit : Nat} {a b : Text} {c : Char}

theorem veil_textOf (h : Sealed d limit ts) : d.veil (textOf ts) = ts :=
  (h.legible.veil_textOf (h.shut.veiled h.legible)).1

theorem depth_le (h : Sealed d limit ts) : (Nesting.ofText d (textOf ts)).depth ≤ limit := by
  rw [(h.legible.veil_textOf (h.shut.veiled h.legible)).2, Veiled.levels_le_iff]
  exact fun x hx => h.levels x (literal_mem_piecesOf.mp hx)

theorem unmarked (h : Sealed d limit ts) :
    ¬Subquery.hashSub <:+: Piece.ofText d (textOf ts) := by
  rw [h.legible.ofText_textOf]
  exact h.markless

theorem of_infix (h : Sealed d limit us) (hi : ts <:+: us) (hc : ∀ t ∈ ts, t.isClosed = true) :
    Sealed d limit ts := by
  refine ⟨?_, h.shut.of_infix hi, h.markless.of_infix hi, fun x hx => h.levels x (hi.subset hx)⟩
  have legible := h.legible
  obtain ⟨front, behind, rfl⟩ := hi
  rw [List.append_assoc] at legible
  exact legible.right.left (.inl hc)

theorem of_suffix (h : Sealed d limit us) (hs : ts <:+ us) : Sealed d limit ts := by
  refine ⟨?_, h.shut.of_suffix hs, h.markless.of_infix hs.isInfix,
    fun x hx => h.levels x (hs.subset hx)⟩
  have legible := h.legible
  obtain ⟨front, rfl⟩ := hs
  exact legible.right

/-- The veil of a text is sealed if its subqueries are. -/
theorem of_veil {t : Text} (shut : Shut (d.veil t))
    (unmarked : ¬Subquery.hashSub <:+: Piece.ofText d t)
    (deep : (Nesting.ofText d t).depth ≤ limit) : Sealed d limit (d.veil t) := by
  refine ⟨legible_veil d t, shut, ?_, fun x hx => ?_⟩
  · rw [Markless, unveil_veil]
    exact unmarked
  · have levels := ((legible_veil d t).veil_textOf (veiled_veil d t)).2
    rw [textOf_veil] at levels
    rw [levels, Veiled.levels_le_iff] at deep
    exact deep x (literal_mem_piecesOf.mpr hx)

theorem of_bare (ht : Legible d ts) (hb : Bare ts) : Sealed d limit ts := by
  refine ⟨ht, fun us hu => ?_, markless_of_bare ht.tidy hb, fun x hx => ?_⟩
  · have := hb _ (hu.subset (List.mem_cons_self ..))
    simp [isWord, isSpace] at this
  · have := hb _ hx
    simp [isWord, isSpace] at this

/-- Sealed tokens with a seam between them are sealed. -/
theorem beside (h : Sealed d limit ts) (hc : ∀ t ∈ ts, t.isClosed = true) (h' : Sealed d limit us)
    (seam : c ∈ [',', '(', ')', ' '])
    (free : c = '(' ∨ c = ' ' ∧ symbol '(' ∈ ts → selects us = false) :
    Sealed d limit (beside c ts us) := by
  have plain : d.isQuote c = false ∧ .char c ∉ Subquery.hashSub := by
    simp only [List.mem_cons, List.not_mem_nil, or_false] at seam
    rcases seam with rfl | rfl | rfl | rfl <;> cases d <;> decide
  have literal {x : Text} (hx : quoted x ∈ Token.beside c ts us) :
      quoted x ∈ ts ∨ quoted x ∈ us := by
    rw [← literal_mem_piecesOf, piecesOf_beside] at hx
    simpa [literal_mem_piecesOf] using hx
  refine ⟨⟨tidy_ofPieces _, ?_, fun x hx => ?_⟩, ?_, ?_, fun x hx => ?_⟩
  · rw [piecesOf_beside, Piece.unveil_append]
    refine h.legible.lexed.append (.char plain.1 h'.legible.lexed)
      (fun p hp => h.legible.literals.isClosed hc hp) ?_
    rintro _ ⟨⟩
    exact plain.1
  · exact (literal hx).elim (h.legible.literals x) (h'.legible.literals x)
  · by_cases blank : c = ' '
    · subst blank
      obtain ⟨front, b, he, hf⟩ := exists_beside_blank (c := ' ') (by decide)
        h.legible.tidy h'.legible.tidy
      have inside : front <:+: ts := by
        rcases hf with rfl | ⟨b', rfl⟩
        · exact List.infix_rfl
        · exact (List.prefix_append ..).isInfix
      obtain ⟨gap, -, hg⟩ := skipSpace_eq us
      rw [he]
      exact (h.shut.of_infix inside).append_cons (h'.shut.of_suffix ⟨gap, hg.symm⟩) rfl (by simp)
        fun _ hm => free (.inr ⟨rfl, inside.subset hm⟩)
    · have symbol : Text.isWordChar c = false ∧ Text.isBlank c = false := by
        simp only [List.mem_cons, List.not_mem_nil, or_false] at seam
        rcases seam with rfl | rfl | rfl | rfl
        · decide
        · decide
        · decide
        · exact absurd rfl blank
      rw [beside_symbol symbol.1 symbol.2 h.legible.tidy h'.legible.tidy]
      refine h.shut.append_cons h'.shut rfl (fun he => free (.inl ?_)) (by simp [isSpace])
      cases he
      rfl
  · rw [Markless, piecesOf_beside, Piece.unveil_append]
    exact not_infix_append_cons plain.2 h.markless h'.markless
  · exact (literal hx).elim (h.levels x) (h'.levels x)

/-- The veil of two sealed texts with a seam between them. -/
theorem veil_append_cons (ha : Sealed d limit (d.veil a)) (hc : ∀ t ∈ d.veil a, t.isClosed = true)
    (hb : Sealed d limit (d.veil b)) (seam : c ∈ [',', '(', ')', ' '])
    (free : c = '(' ∨ c = ' ' ∧ symbol '(' ∈ d.veil a → selects (d.veil b) = false) :
    d.veil (a ++ c :: b) = Token.beside c (d.veil a) (d.veil b) ∧
      Sealed d limit (d.veil (a ++ c :: b)) := by
  have both := ha.beside hc hb seam free
  have veil := both.veil_textOf
  rw [textOf_beside, textOf_veil, textOf_veil] at veil
  rw [veil]
  exact ⟨rfl, both⟩

end Sealed

/-- What is no character outside of literals neither begins nor ends with one that is lost at
the ends of a text. -/
theorem Legible.ends_of_mem (h : Legible d ts) {p : Piece} (hp : p ∈ piecesOf ts) :
    (∃ c, p = .char c) ∨ p.text ≠ [] ∧ (∀ c ∈ p.text.head?, Text.isSlack c = false) ∧
      ∀ c ∈ p.text.getLast?, Text.isSlack c = false := by
  have quote {q : Char} (hq : d.isQuote q = true) : Text.isSlack q = false := by
    by_contra hs
    rw [Dialect.isQuote_of_isSlack (by simpa using hs)] at hq
    cases hq
  have enclosed {first last : Char} {body : Text} (hf : Text.isSlack first = false)
      (hl : Text.isSlack last = false) :
      first :: (body ++ [last]) ≠ [] ∧
        (∀ c ∈ (first :: (body ++ [last])).head?, Text.isSlack c = false) ∧
          ∀ c ∈ (first :: (body ++ [last])).getLast?, Text.isSlack c = false := by
    refine ⟨by simp, ?_, ?_⟩
    · rintro _ ⟨⟩
      exact hf
    · rw [← List.cons_append, List.getLast?_concat]
      rintro _ ⟨⟩
      exact hl
  cases p with
  | char c => exact .inl ⟨c, rfl⟩
  | stray q =>
      have hq : d.isQuote q = true := by
        have shown : Piece.stray q ∈ Piece.unveil d (piecesOf ts) :=
          List.mem_flatMap.mpr ⟨_, hp, List.mem_singleton_self _⟩
        have lexed := h.lexed
        obtain ⟨front, behind, he⟩ := List.append_of_mem shown
        rw [he] at lexed
        cases lexed.right with
        | stray hq => exact hq
      exact .inr (by simp [Piece.text, quote hq])
  | literal x =>
      right
      rw [Piece.text]
      rcases h.literals x (literal_mem_piecesOf.mp hp) with hx | hx
      · have lexed := Piece.lexed_ofText d x
        rw [hx] at lexed
        cases lexed with
        | literal hl =>
            obtain ⟨q, body, rfl, hq⟩ := Dialect.literal?_ends hl
            exact enclosed (quote hq) (quote hq)
      · obtain ⟨ps, hx, -⟩ := hx.ofText_eq
        rw [← Piece.textOf_ofText d x, hx]
        have parentheses := @enclosed '(' ')' (Piece.textOf ps) (by decide) (by decide)
        simpa [Piece.text] using parentheses

namespace Sealed
variable {limit : Nat} {t : Text} {c : Char}

/-- What is left of sealed tokens without a character at one end, if that is legible. -/
theorem of_pieces (h : Sealed d limit ts) (hu : Legible d us) (shut : Shut us)
    (hi : piecesOf us <:+: piecesOf ts) : Sealed d limit us := by
  refine ⟨hu, shut, fun hm => h.markless (hm.trans ?_), fun x hx => ?_⟩
  · obtain ⟨front, behind, he⟩ := hi
    rw [← he]
    simp only [Piece.unveil_append]
    exact List.infix_append ..
  · exact h.levels x (literal_mem_piecesOf.mp (hi.subset (literal_mem_piecesOf.mpr hx)))

/-- A text without its first character, where that is one that parts lose. -/
theorem of_cons (h : Sealed d limit (d.veil (c :: t))) (hc : Text.isSlack c = true) :
    d.veil (c :: t) = attach (.char c) (d.veil t) ∧ Sealed d limit (d.veil t) := by
  obtain ⟨ps, hp⟩ : ∃ ps, piecesOf (d.veil (c :: t)) = .char c :: ps := by
    have text := textOf_veil d (c :: t)
    rw [← textOf_piecesOf] at text
    cases hp : piecesOf (d.veil (c :: t)) with
    | nil => simp [hp] at text
    | cons p ps =>
        rw [hp, Piece.textOf_cons] at text
        rcases h.legible.ends_of_mem (p := p) (by simp [hp]) with ⟨c', rfl⟩ | ⟨hne, hf, -⟩
        · cases text
          exact ⟨ps, rfl⟩
        · obtain ⟨c', w, hw⟩ := List.exists_cons_of_ne_nil hne
          rw [hw] at text hf
          cases text
          rw [hf c rfl] at hc
          cases hc
  have tokens : d.veil (c :: t) = attach (.char c) (ofPieces ps) := by
    rw [← h.legible.tidy.ofPieces_piecesOf, hp, ofPieces_cons]
  have text : textOf (ofPieces ps) = t := by
    have := textOf_veil d (c :: t)
    rw [tokens, textOf_attach] at this
    exact List.tail_eq_of_cons_eq this
  have legible : Legible d (ofPieces ps) := by
    refine ⟨tidy_ofPieces ps, ?_, fun x hx => h.legible.literals x ?_⟩
    · have lexed := h.legible.lexed
      rw [hp] at lexed
      rw [piecesOf_ofPieces]
      exact lexed.of_cons
    · rw [← literal_mem_piecesOf] at hx ⊢
      rw [piecesOf_ofPieces] at hx
      simp [hp, hx]
  have shut : Shut (ofPieces ps) := by
    have whole := h.shut
    rw [tokens] at whole
    rcases attach_or (Text.isWordChar_of_isSlack hc) (ofPieces ps) with ha | ⟨b, ha⟩
    · rw [ha] at whole
      exact whole.of_suffix (List.suffix_cons ..)
    · rw [ha] at whole
      exact (whole.of_suffix (List.suffix_cons ..)).of_skipSpace
  have rest := h.of_pieces legible shut <| by
    rw [hp, piecesOf_ofPieces]
    exact (List.suffix_cons ..).isInfix
  have veil := rest.veil_textOf
  rw [text] at veil
  rw [veil]
  exact ⟨tokens, rest⟩

/-- A text without its last character, where that is one that parts lose. -/
theorem of_concat (h : Sealed d limit (d.veil (t ++ [c]))) (hc : Text.isSlack c = true) :
    d.veil (t ++ [c]) = Token.beside c (d.veil t) [] ∧ Sealed d limit (d.veil t) := by
  obtain ⟨ps, hp⟩ : ∃ ps, piecesOf (d.veil (t ++ [c])) = ps ++ [.char c] := by
    have text := textOf_veil d (t ++ [c])
    rw [← textOf_piecesOf] at text
    rcases List.eq_nil_or_concat' (piecesOf (d.veil (t ++ [c]))) with hp | ⟨ps, p, hp⟩
    · simp [hp] at text
    · rw [hp, Piece.textOf_append, Piece.textOf_cons, Piece.textOf_nil, List.append_nil] at text
      rcases h.legible.ends_of_mem (p := p) (by simp [hp]) with ⟨c', rfl⟩ | ⟨hne, -, hl⟩
      · have last := congrArg List.getLast? text
        simp only [Piece.text, List.getLast?_concat] at last
        cases last
        exact ⟨ps, hp⟩
      · have last := congrArg List.getLast? text
        rw [List.getLast?_append_of_ne_nil _ hne, List.getLast?_concat] at last
        rw [hl c last] at hc
        cases hc
  have text : textOf (ofPieces ps) = t := by
    have := textOf_veil d (t ++ [c])
    rw [← textOf_piecesOf, hp, Piece.textOf_append] at this
    rw [textOf_ofPieces]
    exact List.append_cancel_right this
  have pieces : piecesOf (Token.beside c (ofPieces ps) []) = piecesOf (d.veil (t ++ [c])) := by
    rw [piecesOf_beside, piecesOf_ofPieces, hp]
    rfl
  have tokens : d.veil (t ++ [c]) = Token.beside c (ofPieces ps) [] := by
    rw [← h.legible.tidy.ofPieces_piecesOf, ← pieces, piecesOf_beside]
    rfl
  have legible : Legible d (ofPieces ps) := by
    refine ⟨tidy_ofPieces ps, ?_, fun x hx => h.legible.literals x ?_⟩
    · have lexed := h.legible.lexed
      rw [hp, Piece.unveil_append] at lexed
      rw [piecesOf_ofPieces]
      refine lexed.left (.inr ?_)
      rintro _ ⟨⟩
      exact Dialect.isQuote_of_isSlack hc
    · rw [← literal_mem_piecesOf] at hx ⊢
      rw [piecesOf_ofPieces] at hx
      simp [hp, hx]
  have shut : Shut (ofPieces ps) := by
    have whole := h.shut
    rw [tokens] at whole
    by_cases hb : Text.isBlank c = true
    · obtain ⟨front, b, he, hf⟩ := exists_beside_blank hb (tidy_ofPieces ps) tidy_nil
      rw [he] at whole
      have first : Shut front := whole.of_infix (List.prefix_append ..).isInfix
      rcases hf with hf | ⟨b', hf⟩
      · exact hf ▸ first
      · rw [hf]
        exact first.append_cons (by simp [Shut]) rfl (by simp) (by simp [Phrase.startsAny,
          Phrase.afterAny?, Phrase.after?])
    · rw [beside_symbol (Text.isWordChar_of_isSlack hc) (by simpa using hb) (tidy_ofPieces ps)
        tidy_nil] at whole
      exact whole.of_infix (List.prefix_append ..).isInfix
  have rest := h.of_pieces legible shut <| by
    rw [hp, piecesOf_ofPieces]
    exact (List.prefix_append ..).isInfix
  have veil := rest.veil_textOf
  rw [text] at veil
  rw [veil]
  exact ⟨tokens, rest⟩

end Sealed
end Token
end SqlStatement
