import SqlStatement.Proofs.Choices
import SqlStatement.Proofs.Tokenizing
import SqlStatement.Proofs.Trimming
import SqlStatement.Proofs.Veiling

/-!
# Legible tokens

Tokens are legible if they are the tokens of their text, except that a literal
may be the veil of a subquery. Stretches of legible tokens are legible, and so
are legible tokens with a space between them, as long as no quote is left open.
What can be read in a text, blanks aside, is read off its legible tokens one by
one.
-/
namespace SqlStatement
variable {d : Dialect}

theorem IsSubquery.ofText_eq {t : Text} (h : IsSubquery d t) :
    ∃ ps, Piece.ofText d t = .char '(' :: (ps ++ [.char ')']) ∧ ∀ p ∈ ps, p.isClosed = true := by
  obtain ⟨inner, closed, -, he⟩ := h
  refine ⟨inner.pieces, ?_, fun p hp => closed.isClosed_of_mem hp⟩
  have := congrArg Nesting.pieces he
  rwa [Nesting.ofText, Nesting.pieces_ofPieces] at this

namespace Piece

theorem Lexed.ofText_of_mem {ps : List Piece} (h : Lexed d ps) {t : Text}
    (ht : .literal t ∈ ps) : ofText d t = [.literal t] := by
  induction h with
  | nil => simp at ht
  | char _ _ ih | stray _ _ _ ih => exact ih (by simpa using ht)
  | literal hl _ ih =>
      rcases List.mem_cons.mp ht with he | ht
      · cases he
        exact ofText_literal_self hl
      · exact ih ht

theorem unveil_chars (w : Text) : unveil d (w.map .char) = w.map .char := by
  induction w with
  | nil => rfl
  | cons c w ih =>
      rw [List.map_cons, unveil_cons, ih]
      rfl

/-- A text without veils stands for itself. -/
theorem Lexed.unveil_eq {ps : List Piece} (h : Lexed d ps) : unveil d ps = ps := by
  induction h with
  | nil => rfl
  | char _ _ ih | stray _ _ _ ih => rw [unveil_cons, ih]; rfl
  | literal hl _ ih => rw [unveil_cons, ih, unveiled, ofText_literal_self hl]; rfl

end Piece

theorem Veiled.literal_of_mem {ps : List Piece} (h : Veiled d ps) {t : Text}
    (ht : .literal t ∈ ps) : Piece.ofText d t = [.literal t] ∨ IsSubquery d t := by
  induction h with
  | nil => simp at ht
  | piece _ hl _ ih =>
      rcases List.mem_cons.mp ht with he | ht
      · exact hl t he.symm
      · exact ih ht
  | paren _ _ ih => exact ih (by simpa using ht)

namespace Token
variable {ts us : List Token}

/-- Every literal stands for itself or is the veil of a subquery. -/
def Literals (d : Dialect) (ts : List Token) : Prop :=
  ∀ t, quoted t ∈ ts → Piece.ofText d t = [.literal t] ∨ IsSubquery d t

theorem Literals.left (h : Literals d (ts ++ us)) : Literals d ts :=
  fun t ht => h t (by simp [ht])

theorem Literals.right (h : Literals d (ts ++ us)) : Literals d us :=
  fun t ht => h t (by simp [ht])

theorem Literals.of_cons {t : Token} (h : Literals d (t :: ts)) : Literals d ts :=
  fun t ht => h t (by simp [ht])

theorem Literals.append (h : Literals d ts) (h' : Literals d us) : Literals d (ts ++ us) :=
  fun t ht => (List.mem_append.mp ht).elim (h t) (h' t)

theorem Literals.isClosed (h : Literals d ts) (hc : ∀ t ∈ ts, t.isClosed = true) {p : Piece}
    (hp : p ∈ Piece.unveil d (piecesOf ts)) : p.isClosed = true := by
  obtain ⟨q, hq, hp⟩ := List.mem_flatMap.mp hp
  obtain ⟨t, ht, hq⟩ := List.mem_flatMap.mp hq
  cases t with
  | word w | space w =>
      obtain ⟨c, -, rfl⟩ := List.mem_map.mp hq
      exact List.mem_singleton.mp hp ▸ rfl
  | symbol c =>
      cases List.mem_singleton.mp hq
      exact List.mem_singleton.mp hp ▸ rfl
  | unterminated q => exact absurd (hc _ ht) (by simp [Token.isClosed])
  | quoted x =>
      cases List.mem_singleton.mp hq
      rw [Piece.unveiled] at hp
      rcases h x ht with hx | hx
      · rw [hx] at hp
        exact List.mem_singleton.mp hp ▸ rfl
      · obtain ⟨ps, hx, closed⟩ := hx.ofText_eq
        simp only [hx, List.mem_cons, List.mem_append, List.not_mem_nil, or_false] at hp
        rcases hp with rfl | hp | rfl
        · rfl
        · exact closed p hp
        · rfl

/-- Tokens as a text has them, where a literal may be the veil of a subquery. -/
structure Legible (d : Dialect) (ts : List Token) : Prop where
  tidy : Tidy ts
  lexed : Piece.Lexed d (Piece.unveil d (piecesOf ts))
  literals : Literals d ts

theorem literal_mem_piecesOf {t : Text} : .literal t ∈ piecesOf ts ↔ quoted t ∈ ts := by
  constructor
  · intro h
    obtain ⟨u, hu, h⟩ := List.mem_flatMap.mp h
    cases u with
    | quoted x =>
        cases List.mem_singleton.mp h
        exact hu
    | word | space | symbol | unterminated => simp [pieces] at h
  · exact fun h => List.mem_flatMap.mpr ⟨quoted t, h, by simp [pieces]⟩

theorem ofText_of_quoted_mem {t x : Text} (h : quoted x ∈ ofText d t) :
    Piece.ofText d x = [.literal x] := by
  refine (Piece.lexed_ofText d t).ofText_of_mem ?_
  have := literal_mem_piecesOf.mpr h
  rwa [piecesOf_ofText] at this

theorem legible_ofText (d : Dialect) (t : Text) : Legible d (ofText d t) := by
  have lexed := Piece.lexed_ofText d t
  refine ⟨tidy_ofText d t, ?_, fun t ht => .inl (ofText_of_quoted_mem ht)⟩
  rw [piecesOf_ofText, lexed.unveil_eq]
  exact lexed

theorem legible_nil : Legible d [] := ⟨tidy_nil, .nil, by simp [Literals]⟩

namespace Legible

/-- The pieces of the text are those that the tokens stand for. -/
theorem ofText_textOf (h : Legible d ts) :
    Piece.ofText d (textOf ts) = Piece.unveil d (piecesOf ts) := by
  rw [← h.lexed.ofText_textOf, Piece.textOf_unveil, textOf_piecesOf]

theorem right (h : Legible d (ts ++ us)) : Legible d us := by
  have lexed := h.lexed
  rw [piecesOf_append, Piece.unveil_append] at lexed
  exact ⟨h.tidy.right, lexed.right, h.literals.right⟩

/-- What stands in front of no quote, or has no unclosed quote, is legible. -/
theorem left (h : Legible d (ts ++ us))
    (hc : (∀ t ∈ ts, t.isClosed = true) ∨
      ∀ c, (textOf us).head? = some c → d.isQuote c = false) : Legible d ts := by
  have lexed := h.lexed
  rw [piecesOf_append, Piece.unveil_append] at lexed
  refine ⟨h.tidy.left, lexed.left ?_, h.literals.left⟩
  rw [Piece.textOf_unveil, textOf_piecesOf]
  exact hc.imp_left fun closed p hp => h.literals.left.isClosed closed hp

theorem append (h : Legible d ts) (h' : Legible d us) (hc : ∀ t ∈ ts, t.isClosed = true)
    (hb : ∀ t ∈ ts.getLast?, ∀ u ∈ us.head?, Apart t u)
    (hq : ∀ c, (textOf us).head? = some c → d.isQuote c = false) : Legible d (ts ++ us) := by
  refine ⟨tidy_append_iff.mpr ⟨h.tidy, h'.tidy, hb⟩, ?_, h.literals.append h'.literals⟩
  rw [piecesOf_append, Piece.unveil_append]
  refine h.lexed.append h'.lexed (fun p hp => h.literals.isClosed hc hp) ?_
  rwa [Piece.textOf_unveil, textOf_piecesOf]

theorem space_cons (h : Legible d ts) (hs : ∀ t ∈ ts.head?, t.isSpace = false) :
    Legible d (space [' '] :: ts) := by
  refine ⟨tidy_cons_iff.mpr ⟨proper_space, h.tidy, fun u hu => ?_⟩, ?_, fun t ht => ?_⟩
  · exact ⟨by simp [isWord], fun _ => hs u hu⟩
  · exact .char (Dialect.isQuote_of_isBlank (by decide)) h.lexed
  · exact h.literals t (by simpa using ht)

theorem symbol_cons (h : Legible d ts) {c : Char} (hw : Text.isWordChar c = false)
    (hb : Text.isBlank c = false) (hq : d.isQuote c = false) : Legible d (symbol c :: ts) := by
  refine ⟨tidy_cons_iff.mpr ⟨⟨hw, hb⟩, h.tidy, fun u _ => ?_⟩, .char hq h.lexed, fun t ht => ?_⟩
  · exact ⟨by simp [isWord], by simp [isSpace]⟩
  · exact h.literals t (by simpa using ht)

/-- Legible tokens may stand side by side with a space between them. -/
theorem spaced (h : Legible d ts) (h' : Legible d us) (hc : ∀ t ∈ ts, t.isClosed = true)
    (hl : ∀ t ∈ ts.getLast?, t.isSpace = false) (hf : ∀ t ∈ us.head?, t.isSpace = false) :
    Legible d (ts ++ space [' '] :: us) := by
  refine h.append (h'.space_cons hf) hc (fun t ht u hu => ?_) fun c hh => ?_
  · cases hu
    exact ⟨fun _ => rfl, fun hs => absurd hs (by simp [hl t ht])⟩
  · cases hh
    exact Dialect.isQuote_of_isBlank (by decide)

end Legible

/-- The tokens that are no blanks. -/
def visible (ts : List Token) : List Token := ts.filter (!·.isSpace)

@[simp] theorem visible_nil : visible [] = [] := rfl

@[simp] theorem visible_append (ts us : List Token) :
    visible (ts ++ us) = visible ts ++ visible us := List.filter_append ..

theorem visible_cons_of_not {t : Token} (ts : List Token) (h : t.isSpace = false) :
    visible (t :: ts) = t :: visible ts := by simp [visible, h]

theorem visible_of_blanks {ts : List Token} (h : Blanks ts) : visible ts = [] := by
  rw [visible, List.filter_eq_nil_iff]
  intro t ht
  simp [h t ht]

/-- What a token shows: blanks show nothing, and the veil of a subquery shows its tokens. -/
def revealed (d : Dialect) : Token → List Token
  | space _ => []
  | quoted t => visible (ofText d t)
  | t => [t]

end Token

/-- The tokens of a text that are no blanks. -/
def Dialect.visible (d : Dialect) (t : Text) : List Token := Token.visible (Token.ofText d t)

namespace Token
variable {ts us : List Token}

theorem visible_ofPieces_blanks {b : Text} (hb : ∀ c ∈ b, Text.isBlank c = true)
    (ps : List Piece) : visible (ofPieces (b.map .char ++ ps)) = visible (ofPieces ps) := by
  induction b with
  | nil => rfl
  | cons c b ih =>
      have hc := hb c (by simp)
      rw [← ih fun c hm => hb c (by simp [hm]), List.map_cons, List.cons_append, ofPieces_cons]
      rcases attach_cases (.char c) (ofPieces (b.map .char ++ ps)) with
        ha | ⟨_, w, us, hp, hs, ha⟩ | ⟨_, b', us, hp, hs, ha⟩
      · rw [ha, attach_space hc (by simp), visible_append]
        rfl
      · cases hp
        rw [attach_space hc (by simp [hs, isSpace])]
        rfl
      · rw [ha, hs]
        rfl

/-- A piece that begins no word is the beginning of a token that is no word. -/
theorem isWord_head?_ofPieces {p : Piece} (ps : List Piece)
    (hp : ∀ c, p = .char c → Text.isWordChar c = false) :
    ∀ t, (ofPieces (p :: ps)).head? = some t → t.isWord = false := by
  intro t ht
  rw [ofPieces_cons] at ht
  cases p with
  | literal x | stray q =>
      cases ht
      rfl
  | char c =>
      have hw := hp c rfl
      by_cases hb : Text.isBlank c = true
      · rcases attach_cases (.char c) (ofPieces ps) with
          ha | ⟨_, w, us, hc, hs, ha⟩ | ⟨_, b, us, hc, hs, ha⟩
        · rw [ha, attach_space hb (by simp)] at ht
          cases ht
          rfl
        · cases hc
          rw [attach_space hb (by simp [hs, isSpace])] at ht
          cases ht
          rfl
        · rw [ha] at ht
          cases ht
          rfl
      · rw [attach_symbol _ hw (by simpa using hb)] at ht
        cases ht
        rfl

/-- In front of tokens that begin with no word no word begins behind the veil either. -/
theorem isWord_head?_unveil (ht : Tidy ts) (hl : Literals d ts)
    (h : ∀ t ∈ ts.head?, t.isWord = false) :
    ∀ t, (ofPieces (Piece.unveil d (piecesOf ts))).head? = some t → t.isWord = false := by
  have first {p : Piece} {ps : List Piece} (he : Piece.unveil d (piecesOf ts) = p :: ps)
      (hp : ∀ c, p = .char c → Text.isWordChar c = false) :
      ∀ t, (ofPieces (Piece.unveil d (piecesOf ts))).head? = some t → t.isWord = false := by
    rw [he]
    exact isWord_head?_ofPieces ps hp
  cases ts with
  | nil => simp
  | cons t ts =>
      have hw := h t rfl
      have proper := ht.proper t (by simp)
      cases t with
      | word w => simp [isWord] at hw
      | space b =>
          obtain ⟨c, b', rfl⟩ := List.exists_cons_of_ne_nil proper.1
          refine first (p := .char c) rfl ?_
          rintro _ ⟨⟩
          exact Text.isWordChar_of_isBlank (proper.2 c (by simp))
      | symbol c =>
          refine first (p := .char c) rfl ?_
          rintro _ ⟨⟩
          exact proper.1
      | unterminated q => exact first (p := .stray q) rfl (by simp)
      | quoted x =>
          rcases hl x (by simp) with hx | hx
          · have literal : Piece.unveil d (piecesOf (.quoted x :: ts)) =
                .literal x :: Piece.unveil d (piecesOf ts) := by
              simp [pieces, Piece.unveiled, hx]
            exact first literal (by simp)
          · obtain ⟨ps, hx, -⟩ := hx.ofText_eq
            have group : Piece.unveil d (piecesOf (.quoted x :: ts)) =
                .char '(' :: (ps ++ .char ')' :: Piece.unveil d (piecesOf ts)) := by
              simp [pieces, Piece.unveiled, hx]
            refine first group ?_
            rintro _ ⟨⟩
            decide

/-- What a text shows is what its tokens show. -/
theorem visible_unveil (ht : Tidy ts) (hl : Literals d ts) :
    visible (ofPieces (Piece.unveil d (piecesOf ts))) = ts.flatMap (revealed d) := by
  induction ts with
  | nil => rfl
  | cons t ts ih =>
      obtain ⟨proper, tidy, apart⟩ := tidy_cons_iff.mp ht
      have rest := ih tidy hl.of_cons
      rw [piecesOf_cons, Piece.unveil_append, List.flatMap_cons]
      cases t with
      | word w =>
          rw [pieces, Piece.unveil_chars, ofPieces_word proper.1 proper.2,
            visible_cons_of_not _ rfl, rest]
          · rfl
          · exact isWord_head?_unveil tidy hl.of_cons fun u hu =>
              (apart u hu).1 rfl
      | space b =>
          rw [pieces, Piece.unveil_chars, visible_ofPieces_blanks proper.2, rest]
          rfl
      | symbol c =>
          change visible (ofPieces (.char c :: Piece.unveil d (piecesOf ts))) = _
          rw [ofPieces_symbol_cons _ proper.1 proper.2, visible_cons_of_not _ rfl, rest]
          rfl
      | unterminated q =>
          change visible (.unterminated q :: ofPieces (Piece.unveil d (piecesOf ts))) = _
          rw [visible_cons_of_not _ rfl, rest]
          rfl
      | quoted x =>
          have shown : visible (ofPieces (Piece.ofText d x ++ Piece.unveil d (piecesOf ts))) =
              visible (ofPieces (Piece.ofText d x)) ++ ts.flatMap (revealed d) := by
            rw [← rest, ← visible_append, ofPieces_append]
            intro p hp
            rcases hl x (by simp) with hx | hx
            · rw [hx] at hp
              cases hp
              rfl
            · obtain ⟨ps, hx, -⟩ := hx.ofText_eq
              rw [hx, ← List.cons_append, List.getLast?_concat] at hp
              cases hp
              exact standsApart_of_symbol _ (by decide) (by decide)
          rw [pieces, Piece.unveil_cons, Piece.unveiled, Piece.unveil_nil, List.append_nil, shown]
          rfl

/-- What the text of legible tokens shows. -/
theorem Legible.visible_textOf (h : Legible d ts) :
    d.visible (textOf ts) = ts.flatMap (revealed d) := by
  rw [Dialect.visible, ofText, h.ofText_textOf, visible_unveil h.tidy h.literals]

/-- The tokens without the runs of blanks at both ends. -/
def strip (ts : List Token) : List Token := (ts.dropWhile isSpace).rdropWhile isSpace

theorem exists_strip (ts : List Token) :
    ∃ before after, Blanks before ∧ Blanks after ∧ ts = before ++ (strip ts ++ after) := by
  refine ⟨ts.takeWhile isSpace, (ts.dropWhile isSpace).rtakeWhile isSpace, ?_, ?_, ?_⟩
  · exact fun t ht => List.mem_takeWhile_imp ht
  · exact fun t ht => List.mem_rtakeWhile_imp ht
  · rw [strip, List.rdropWhile_append_rtakeWhile, List.takeWhile_append_dropWhile]

theorem isInfix_strip (ts : List Token) : strip ts <:+: ts := by
  obtain ⟨before, after, -, -, he⟩ := exists_strip ts
  exact ⟨before, after, by rw [List.append_assoc, ← he]⟩

theorem strip_subset (ts : List Token) : strip ts ⊆ ts := (isInfix_strip ts).subset

theorem isSpace_getLast?_strip (ts : List Token) :
    ∀ t ∈ (strip ts).getLast?, t.isSpace = false := by
  intro t ht
  obtain ⟨hne, rfl⟩ := List.mem_getLast?_eq_getLast ht
  have := List.rdropWhile_last_not isSpace _ hne
  exact Bool.eq_false_iff.mpr this

theorem isSpace_head?_strip (ts : List Token) : ∀ t ∈ (strip ts).head?, t.isSpace = false := by
  intro t ht
  have front : t ∈ (ts.dropWhile isSpace).head? := by
    obtain ⟨us, hu⟩ := List.rdropWhile_prefix isSpace (l := ts.dropWhile isSpace)
    rw [← hu]
    rw [strip] at ht
    rw [List.head?_append, ht, Option.some_or]
    rfl
  have := List.head?_dropWhile_not isSpace ts
  rw [front] at this
  simpa using this

theorem strip_eq_self (hf : ∀ t ∈ ts.head?, t.isSpace = false)
    (hl : ∀ t ∈ ts.getLast?, t.isSpace = false) : strip ts = ts := by
  have front : ts.dropWhile isSpace = ts := by
    cases ts with
    | nil => rfl
    | cons t ts => rw [List.dropWhile_cons_of_neg (by simp [hf t rfl])]
  rw [strip, front, List.rdropWhile_eq_self_iff]
  intro hne
  simp [hl _ (List.getLast?_eq_getLast_of_ne_nil hne)]

theorem flatMap_revealed_of_blanks {ts : List Token} (h : Blanks ts) :
    ts.flatMap (revealed d) = [] := by
  rw [List.flatMap_eq_nil_iff]
  intro t ht
  have space := h t ht
  cases t with
  | space b => rfl
  | _ => simp [isSpace] at space

theorem flatMap_revealed_strip (ts : List Token) :
    (strip ts).flatMap (revealed d) = ts.flatMap (revealed d) := by
  obtain ⟨before, after, hb, ha, he⟩ := exists_strip ts
  conv_rhs => rw [he]
  rw [List.flatMap_append, List.flatMap_append, flatMap_revealed_of_blanks hb,
    flatMap_revealed_of_blanks ha, List.append_nil, List.nil_append]

theorem piecesOf_ends {t : Token} (ht : t.Proper)
    (hw : ∀ c ∈ t.text, Text.isWhite c = true → Text.isBlank c = true)
    (hs : t.isSpace = false) :
    (∃ p ps, t.pieces = p :: ps ∧ p.isWhite = false) ∧
      ∃ ps p, t.pieces = ps ++ [p] ∧ p.isWhite = false := by
  cases t with
  | word w =>
      have dark {c : Char} (hc : c ∈ w) : Piece.isWhite (.char c) = false := by
        by_contra white
        rw [Bool.not_eq_false] at white
        have := Text.isWordChar_of_isBlank (hw c hc white)
        simp [ht.2 c hc] at this
      refine ⟨?_, ?_⟩
      · obtain ⟨c, w, rfl⟩ := List.exists_cons_of_ne_nil ht.1
        exact ⟨_, _, rfl, dark (by simp)⟩
      · obtain ⟨w, c, rfl⟩ := (List.eq_nil_or_concat' w).resolve_left ht.1
        exact ⟨w.map .char, .char c, by rw [pieces, List.map_append]; rfl, dark (by simp)⟩
  | space b => simp [isSpace] at hs
  | symbol c =>
      have dark : Piece.isWhite (.char c) = false := by
        by_contra white
        rw [Bool.not_eq_false] at white
        have := hw c (by simp [text]) white
        simp [ht.2] at this
      exact ⟨⟨_, [], rfl, dark⟩, [], _, rfl, dark⟩
  | quoted x => exact ⟨⟨_, [], rfl, rfl⟩, [], _, rfl, rfl⟩
  | unterminated q => exact ⟨⟨_, [], rfl, rfl⟩, [], _, rfl, rfl⟩

theorem isWhite_of_mem_space {b : Text} (h : (space b).Proper) {p : Piece}
    (hp : p ∈ (space b).pieces) : p.isWhite = true := by
  obtain ⟨c, hc, rfl⟩ := List.mem_map.mp hp
  exact Text.isWhite_of_isBlank (h.2 c hc)

theorem dropWhile_piecesOf (ht : ∀ t ∈ ts, t.Proper)
    (hw : ∀ c ∈ textOf ts, Text.isWhite c = true → Text.isBlank c = true) :
    (piecesOf ts).dropWhile Piece.isWhite = piecesOf (ts.dropWhile isSpace) := by
  induction ts with
  | nil => rfl
  | cons t ts ih =>
      have rest := ih (fun u hu => ht u (by simp [hu])) fun c hc => hw c (by simp [hc])
      have proper := ht t (by simp)
      cases hs : t.isSpace with
      | true =>
          cases t with
          | space b =>
              rw [List.dropWhile_cons_of_pos hs, piecesOf_cons, ← rest,
                List.dropWhile_append_of_pos fun p hp => isWhite_of_mem_space proper hp]
          | _ => simp [isSpace] at hs
      | false =>
          obtain ⟨⟨p, ps, he, hp⟩, -⟩ := piecesOf_ends proper (fun c hc => hw c (by simp [hc])) hs
          rw [List.dropWhile_cons_of_neg (by simp [hs]), piecesOf_cons, he, List.cons_append,
            List.dropWhile_cons_of_neg (by simp [hp])]

theorem rdropWhile_piecesOf (ht : ∀ t ∈ ts, t.Proper)
    (hw : ∀ c ∈ textOf ts, Text.isWhite c = true → Text.isBlank c = true) :
    (piecesOf ts).rdropWhile Piece.isWhite = piecesOf (ts.rdropWhile isSpace) := by
  induction ts using List.reverseRecOn with
  | nil => rfl
  | append_singleton ts t ih =>
      have rest := ih (fun u hu => ht u (by simp [hu])) fun c hc => hw c (by simp [hc])
      have proper := ht t (by simp)
      rw [piecesOf_append, piecesOf_cons, piecesOf_nil, List.append_nil]
      cases hs : t.isSpace with
      | true =>
          cases t with
          | space b =>
              have white : ∀ p ∈ (space b).pieces.reverse, p.isWhite = true := fun p hp =>
                isWhite_of_mem_space proper (List.mem_reverse.mp hp)
              rw [List.rdropWhile_concat_pos _ _ _ hs, ← rest, List.rdropWhile,
                List.reverse_append, List.dropWhile_append_of_pos white, ← List.rdropWhile]
          | _ => simp [isSpace] at hs
      | false =>
          obtain ⟨-, ps, p, he, hp⟩ := piecesOf_ends proper (fun c hc => hw c (by simp [hc])) hs
          rw [List.rdropWhile_concat_neg _ _ _ (by simp [hs]), he, ← List.append_assoc,
            List.rdropWhile_concat_neg _ _ _ (by simp [hp]), piecesOf_append, piecesOf_cons,
            piecesOf_nil, List.append_nil, he, List.append_assoc]

theorem Legible.firm (h : Legible d ts) {p : Piece} (hp : p ∈ piecesOf ts) : p.Firm := by
  have shown {p : Piece} (hp : p ∈ Piece.unveil d (piecesOf ts)) : p.Firm := h.lexed.firm hp
  cases p with
  | char c => exact Piece.firm_char c
  | stray q => exact shown (List.mem_flatMap.mpr ⟨.stray q, hp, by simp [Piece.unveiled]⟩)
  | literal x =>
      rcases h.literals x (literal_mem_piecesOf.mp hp) with hx | hx
      · exact shown (List.mem_flatMap.mpr ⟨.literal x, hp, by simp [Piece.unveiled, hx]⟩)
      · obtain ⟨ps, hx, -⟩ := hx.ofText_eq
        have text : x = '(' :: (Piece.textOf ps ++ [')']) := by
          rw [← Piece.textOf_ofText d x, hx]
          simp [Piece.text]
        exact Piece.firm_literal '(' ')' (by simp [text]) (by decide) (by decide)

/-- A text whose white characters are blanks is trimmed token by token. -/
theorem Legible.trim_textOf (h : Legible d ts)
    (hw : ∀ c ∈ textOf ts, Text.isWhite c = true → Text.isBlank c = true) :
    Text.trim (textOf ts) = textOf (strip ts) := by
  rw [← textOf_piecesOf ts, Piece.trim_textOf fun p hp => h.firm hp, Piece.strip,
    dropWhile_piecesOf h.tidy.proper hw, rdropWhile_piecesOf, textOf_piecesOf, strip]
  · exact fun t ht => h.tidy.proper t ((List.dropWhile_sublist _).subset ht)
  · intro c hc
    obtain ⟨t, ht, hc⟩ := List.mem_flatMap.mp hc
    exact hw c (List.mem_flatMap.mpr ⟨t, (List.dropWhile_sublist _).subset ht, hc⟩)

/-- A stretch without blanks at its ends is legible if it has no unclosed quote or is the last. -/
theorem Legible.strip {before after : List Token} (h : Legible d (before ++ (ts ++ after)))
    (hc : (∀ t ∈ ts, t.isClosed = true) ∨ after = []) : Legible d (Token.strip ts) := by
  obtain ⟨front, back, -, hb, he⟩ := exists_strip ts
  have inner := h.right
  rw [he, List.append_assoc, List.append_assoc] at inner
  refine inner.right.left ?_
  rcases hc with hc | rfl
  · exact .inl fun t ht => hc t (strip_subset ts ht)
  · right
    intro c hh
    rw [List.append_nil] at hh inner
    cases back with
    | nil => simp at hh
    | cons t back =>
        have space := hb t (by simp)
        have proper := inner.right.right.tidy.proper t (by simp)
        cases t with
        | space b =>
            obtain ⟨c', b', rfl⟩ := List.exists_cons_of_ne_nil proper.1
            cases hh
            exact Dialect.isQuote_of_isBlank (proper.2 c (by simp))
        | _ => simp [isSpace] at space

end Token
end SqlStatement
