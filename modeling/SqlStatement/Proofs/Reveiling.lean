import SqlStatement.Proofs.Modifying

/-!
# The veil of a layout

A layout moves parts and leaves out keywords and blanks, none of which is a
parenthesis or an unclosed quote. So the parentheses in a part are closed in the
layout if they are closed in the statement, and a parenthesis at the end of a
part has a keyword behind it that is not SELECT. The stretches behind veils are
therefore the veil of the text they are joined to.
-/
namespace SqlStatement
open Token
variable {d : Dialect}

namespace Text

theorem firstWord_of_edge {t : Text} (h : Edge t) : firstWord t = [] := by
  have := firstWord_append (t := []) h
  rwa [List.nil_append] at this

theorem firstWord_blanks {b : Text} (hb : ∀ c ∈ b, isBlank c = true) (t : Text) :
    firstWord (b ++ t) = firstWord t := by
  rw [firstWord, skipBlanks, List.dropWhile_append_of_pos hb, firstWord, skipBlanks]

theorem isBlank_of_isWordChar {c : Char} (h : isWordChar c = true) : isBlank c = false := by
  by_contra hb
  rw [isWordChar_of_isBlank (by simpa using hb)] at h
  simp at h

theorem firstWord_word {w t : Text} (hne : w ≠ []) (hw : ∀ c ∈ w, isWordChar c = true)
    (ht : ∀ c ∈ t.head?, isWordChar c = false) : firstWord (w ++ t) = w := by
  obtain ⟨c, w, rfl⟩ := List.exists_cons_of_ne_nil hne
  have first := isBlank_of_isWordChar (hw c (by simp))
  rw [firstWord, skipBlanks, List.cons_append, List.dropWhile_cons_of_neg (by simp [first]),
    ← List.cons_append, List.takeWhile_append_of_pos hw]
  cases t with
  | nil => simp
  | cons c' t => rw [List.takeWhile_cons_of_neg (by simp [ht c' rfl]), List.append_nil]

end Text

namespace Token
variable {ts us : List Token}

theorem chars_map (w : Text) (ps : List Piece) :
    Piece.chars (w.map .char ++ ps) = w ++ Piece.chars ps := by
  induction w with
  | nil => rfl
  | cons c w ih => rw [List.map_cons, List.cons_append, Piece.chars, ih, List.cons_append]

theorem head?_chars (h : Tidy ts) (hw : ∀ t ∈ ts.head?, t.isWord = false) :
    ∀ c ∈ (Piece.chars (piecesOf ts)).head?, Text.isWordChar c = false := by
  intro c hc
  cases ts with
  | nil => simp [Piece.chars] at hc
  | cons t ts =>
      have proper := h.proper t (by simp)
      rw [piecesOf_cons] at hc
      cases t with
      | word w => simpa [isWord] using hw _ rfl
      | space b =>
          obtain ⟨c', b, rfl⟩ := List.exists_cons_of_ne_nil proper.1
          cases hc
          exact Text.isWordChar_of_isBlank (proper.2 c (by simp))
      | symbol c' =>
          cases hc
          exact proper.1
      | quoted | unterminated => simp [pieces, Piece.chars] at hc

/-- Whether the tokens begin with SELECT, behind blanks. -/
def selects (ts : List Token) : Bool := Phrase.startsAny [["SELECT"]] (skipSpace ts)

theorem startsAny_select (t : Token) (ts : List Token) :
    Phrase.startsAny [["SELECT"]] (t :: ts) = isModifier [["SELECT"]] t := by
  rw [Phrase.startsAny, afterAny?_cons (by simp)]
  cases isModifier [["SELECT"]] t <;> rfl

theorem startsSelect_word {w : Text} {ts : List Token} (h : Tidy (word w :: ts)) :
    Text.firstWord (Piece.chars (piecesOf (word w :: ts))) = w := by
  obtain ⟨proper, tidy, apart⟩ := tidy_cons_iff.mp h
  rw [piecesOf_cons, pieces, chars_map]
  exact Text.firstWord_word proper.1 proper.2
    (head?_chars tidy fun t ht => (apart t ht).1 rfl)

/-- Whether a text begins with SELECT can be read off its tokens. -/
theorem startsSelect_piecesOf (h : Tidy ts) : Piece.startsSelect (piecesOf ts) = selects ts := by
  have first {ts : List Token} (h : Tidy ts) (hs : ∀ t ∈ ts.head?, t.isSpace = false) :
      Piece.startsSelect (piecesOf ts) = Phrase.startsAny [["SELECT"]] ts := by
    cases ts with
    | nil => decide
    | cons t ts =>
        rw [startsAny_select]
        cases t with
        | word w =>
            rw [Piece.startsSelect, startsSelect_word h]
            by_cases hw : Text.isKeyword "SELECT" w = true
            · rw [hw, eq_comm, isModifier_iff]
              exact ⟨"SELECT", w, by simp, rfl, hw⟩
            · rw [Bool.not_eq_true] at hw
              rw [hw, eq_comm, Bool.eq_false_iff, Ne, isModifier_iff]
              rintro ⟨k, w', hk, ⟨⟩, hw'⟩
              simp only [List.mem_singleton, List.cons.injEq, and_true] at hk
              rw [hk, hw] at hw'
              simp at hw'
        | space b => simpa [isSpace] using hs _ rfl
        | symbol c =>
            have proper := h.proper _ (List.mem_cons_self ..)
            rw [Piece.startsSelect, Text.firstWord_of_edge]
            · rfl
            · exact Text.edge_cons _ proper.1 proper.2
        | quoted | unterminated => rfl
  cases ts with
  | nil => exact first h (by simp)
  | cons t ts =>
      obtain ⟨proper, tidy, apart⟩ := tidy_cons_iff.mp h
      cases t with
      | space b =>
          rw [selects, skipSpace, ← first tidy fun t ht => (apart t ht).2 rfl, piecesOf_cons,
            pieces, Piece.startsSelect, chars_map, Text.firstWord_blanks proper.2,
            Piece.startsSelect]
      | word | quoted | symbol | unterminated => exact first h (by simp [isSpace])

/-- What stands behind a token that is no blank does not matter for the first word. -/
theorem selects_append (hne : ts ≠ []) (hl : ∀ t ∈ ts.getLast?, t.isSpace = false)
    (us us' : List Token) : selects (ts ++ us) = selects (ts ++ us') := by
  obtain ⟨t, ts, rfl⟩ := List.exists_cons_of_ne_nil hne
  cases t with
  | space b =>
      cases ts with
      | nil => simpa [isSpace] using hl _ rfl
      | cons u ts =>
          simp only [selects, List.cons_append, skipSpace]
          rw [startsAny_select, startsAny_select]
  | word | quoted | symbol | unterminated =>
      simp only [selects, List.cons_append, skipSpace]
      rw [startsAny_select, startsAny_select]

end Token

namespace Veiled
variable {ps qs : List Piece}

theorem right (h : Veiled d (ps ++ qs)) : Veiled d qs := by
  induction ps with
  | nil => exact h
  | cons p ps ih =>
      rw [List.cons_append] at h
      cases h with
      | piece _ _ h | paren _ h => exact ih h

theorem chars_append {w : Text} (hw : '(' ∉ w) (h : Veiled d qs) :
    Veiled d (w.map .char ++ qs) := by
  induction w with
  | nil => exact h
  | cons c w ih =>
      refine .piece ?_ (by simp) (ih fun hm => hw (by simp [hm]))
      rintro ⟨⟩
      exact hw (by simp)

end Veiled

/-- Words and blanks. -/
def Bare (ts : List Token) : Prop := ∀ t ∈ ts, t.isWord = true ∨ t.isSpace = true

theorem Token.Blanks.bare {ts : List Token} (h : Blanks ts) : Bare ts := fun t ht => .inr (h t ht)

theorem Phrase.Spells.bare {p : Phrase} {ts : List Token} (h : p.Spells ts) : Bare ts := by
  intro t ht
  rcases h.mem ht with hs | ⟨k, -, w, rfl, -⟩
  · exact .inr hs
  · exact .inl rfl

namespace Token
variable {ts us vs : List Token}

/-- Words and blanks are ordinary pieces. -/
theorem Proper.isOrdinary_of_mem_pieces {t : Token} (h : t.Proper)
    (bare : t.isWord = true ∨ t.isSpace = true) : ∀ p ∈ t.pieces, p.isOrdinary = true := by
  intro p hp
  cases t with
  | word w =>
      obtain ⟨c, hc, rfl⟩ := List.mem_map.mp hp
      exact Piece.isOrdinary_of_isWordChar (h.2 c hc)
  | space b =>
      obtain ⟨c, hc, rfl⟩ := List.mem_map.mp hp
      exact Piece.isOrdinary_of_isBlank (h.2 c hc)
  | quoted | symbol | unterminated => simp [isWord, isSpace] at bare

theorem Tidy.closes_bare (h : Tidy ts) (hb : Bare ts) (depth : Nat) (ps : List Piece) :
    Piece.closes depth (piecesOf ts ++ ps) = Piece.closes depth ps := by
  refine Piece.closes_append_of_foldlM (Piece.foldlM_of_isOrdinary (fun p hp => ?_) depth) ps
  obtain ⟨t, ht, hp⟩ := List.mem_flatMap.mp hp
  exact (h.proper t ht).isOrdinary_of_mem_pieces (hb t ht) p hp

theorem Tidy.veiled_bare (h : Tidy ts) (hb : Bare ts) {ps : List Piece} (hv : Veiled d ps) :
    Veiled d (piecesOf ts ++ ps) := by
  induction ts with
  | nil => exact hv
  | cons t ts ih =>
      obtain ⟨proper, tidy, -⟩ := tidy_cons_iff.mp h
      have rest := ih tidy fun t ht => hb t (by simp [ht])
      rw [piecesOf_cons, List.append_assoc]
      cases t with
      | word w => exact rest.chars_append fun hm => by simpa [Text.isWordChar] using proper.2 _ hm
      | space b => exact rest.chars_append fun hm => by simpa [Text.isBlank] using proper.2 _ hm
      | quoted | symbol | unterminated =>
          have := hb _ (List.mem_cons_self ..)
          simp [isWord, isSpace] at this

/-- Veiled tokens that end with no blank are veiled whatever follows them, if it closes the same
groups and does not begin with SELECT. -/
theorem veiled_congr (hv : Veiled d (piecesOf (ts ++ us))) (ht : Tidy (ts ++ us))
    (ht' : Tidy (ts ++ vs)) (hl : ∀ t ∈ ts.getLast?, t.isSpace = false)
    (hv' : Veiled d (piecesOf vs))
    (hc : ∀ depth, Piece.closes depth (piecesOf us) = Piece.closes depth (piecesOf vs))
    (hs : selects vs = false) : Veiled d (piecesOf (ts ++ vs)) := by
  induction ts with
  | nil => exact hv'
  | cons t ts ih =>
      rw [List.cons_append] at hv ht ht' ⊢
      rw [piecesOf_cons] at hv ⊢
      obtain ⟨proper, tidy, -⟩ := tidy_cons_iff.mp ht
      obtain ⟨-, tidy', -⟩ := tidy_cons_iff.mp ht'
      have last : ∀ t ∈ ts.getLast?, t.isSpace = false := by
        intro u hu
        cases ts with
        | nil => simp at hu
        | cons t' ts => exact hl u (by rwa [List.getLast?_cons_of_ne_nil (by simp)])
      have rest := ih hv.right tidy tidy' last
      have word : t.isWord = true ∨ t.isSpace = true →
          Veiled d (t.pieces ++ piecesOf (ts ++ vs)) := by
        intro hb
        have := (tidy_singleton proper).veiled_bare (by simpa [Bare] using hb) rest
        simpa using this
      cases t with
      | word w => exact word (.inl rfl)
      | space b => exact word (.inr rfl)
      | unterminated q => exact .piece (by simp) (by simp) rest
      | quoted x =>
          cases hv with
          | piece hp hl _ => exact .piece hp hl rest
      | symbol c =>
          cases hv with
          | piece hp hl _ => exact .piece hp hl rest
          | paren hclose _ =>
              refine .paren (fun hsel => ?_) rest
              change Piece.startsSelect (piecesOf (ts ++ vs)) = true at hsel
              change Piece.closes 0 (piecesOf (ts ++ vs)) = false
              rw [startsSelect_piecesOf tidy'] at hsel
              by_cases hne : ts = []
              · rw [hne, List.nil_append, hs] at hsel
                simp at hsel
              · rw [selects_append hne last vs us, ← startsSelect_piecesOf tidy] at hsel
                rw [piecesOf_append, ← Piece.closes_append_congr hc 0, ← piecesOf_append]
                exact hclose hsel

end Token

theorem Token.blanks_of_strip_eq_nil {ts : List Token} (h : strip ts = []) : Blanks ts := by
  obtain ⟨before, after, hb, ha, he⟩ := exists_strip ts
  rw [h] at he
  intro t ht
  rw [he] at ht
  simp only [List.nil_append, List.mem_append] at ht
  exact ht.elim (hb t) (ha t)

/-- Veiled tokens that close the same groups as the tokens they are made from. -/
structure SameGroups (d : Dialect) (ts ws : List Token) : Prop where
  veiled : Veiled d (piecesOf ws)
  closes : ∀ depth, Piece.closes depth (piecesOf ws) = Piece.closes depth (piecesOf ts)

namespace SameGroups
variable {us ts ws taken stop : List Token}

theorem bare_left (h : SameGroups d ts ws) (ht : Tidy us) (hb : Bare us) :
    SameGroups d (us ++ ts) ws := by
  refine ⟨h.veiled, fun depth => ?_⟩
  rw [piecesOf_append, ht.closes_bare hb, h.closes]

theorem bare_right (h : SameGroups d ts ws) (ht : Tidy us) (hb : Bare us) :
    SameGroups d ts (us ++ ws) := by
  refine ⟨?_, fun depth => ?_⟩
  · rw [piecesOf_append]
    exact ht.veiled_bare hb h.veiled
  · rw [piecesOf_append, ht.closes_bare hb, h.closes]

theorem trail (h : SameGroups d ts ws) : SameGroups d ts (trail ws) := by
  rw [Token.trail]
  split
  · rename_i he
    exact he ▸ h
  · have space : Tidy [.space [' ']] := tidy_singleton proper_space
    exact h.bare_right space (by simp [Bare, isSpace])

/-- A part may be moved in front of what the statement has behind it, in its layout. -/
theorem part (h : SameGroups d stop ws) (hv : Veiled d (piecesOf (taken ++ stop)))
    (ht : Tidy (taken ++ stop)) (hw : Tidy (strip taken ++ Token.trail ws))
    (hs : selects (Token.trail ws) = false) :
    SameGroups d (taken ++ stop) (strip taken ++ Token.trail ws) := by
  obtain ⟨before, after, hb, ha, he⟩ := exists_strip taken
  have split : taken ++ stop = before ++ (strip taken ++ (after ++ stop)) := by
    conv_lhs => rw [he]
    simp
  rw [split] at hv ht ⊢
  have behind : SameGroups d (after ++ stop) (Token.trail ws) :=
    h.trail.bare_left ht.right.right.left ha.bare
  rw [piecesOf_append] at hv
  refine SameGroups.bare_left ⟨?_, fun depth => ?_⟩ ht.left hb.bare
  · exact veiled_congr hv.right ht.right hw (isSpace_getLast?_strip taken) behind.veiled
      (fun depth => (behind.closes depth).symm) hs
  · rw [piecesOf_append, piecesOf_append (strip taken)]
    exact Piece.closes_append_congr behind.closes depth

end SameGroups

namespace Trailing
variable {steps : List Step} {insertLike : Bool} {ts : List Token} {cs : List Choice}

theorem legible_layout (hr : route steps ts = some cs)
    (hn : ∀ step ∈ steps, step.Named insertLike) (hl : Legible d ts) (ht : Tame (textOf ts)) :
    Legible d (spaced (fragmentsOf steps (cs.map Choice.part))) := by
  refine legible_spaced (fun f hf => ?_) fun f hf => closed_fragmentsOf hr hn hf
  exact legible_fragmentsOf (reads_of_route hr hl ht) hn hf

theorem selects_trail {ws : List Token} (hb : Begins (phrasesOf steps) ws)
    (hs : ∀ p ∈ phrasesOf steps, p.head? ≠ some "SELECT") : selects (trail ws) = false := by
  rw [trail]
  split
  · rfl
  · rename_i hne
    obtain ⟨p, hp, t, ht, hpre⟩ := Phrase.startsAny_iff.mp (hb.resolve_left hne)
    obtain ⟨k, ks, w, us, rfl, rfl, hw⟩ := ht.head
    obtain ⟨vs, rfl⟩ := hpre
    rw [selects, skipSpace, List.cons_append, startsAny_select, Bool.eq_false_iff, Ne,
      isModifier_iff]
    rintro ⟨k', w', hk', ⟨⟩, hw'⟩
    simp only [List.mem_singleton, List.cons.injEq, and_true] at hk'
    subst hk'
    exact hs _ hp (by rw [List.head?_cons, Phrase.keyword_unique hw hw'])

theorem sameGroups_nil : SameGroups d [] [] := ⟨.nil, fun _ => rfl⟩

theorem eq_nil_of_atEnd (ht : Tame (textOf ts)) (he : AtEnd ts) : ts = [] := by
  by_contra hne
  obtain ⟨t, ts, rfl⟩ := List.exists_cons_of_ne_nil hne
  refine ht.semicolon ?_
  rw [he t rfl, textOf_cons]
  simp [text]

/-- The layout of the parts of steps is veiled as the statement is. -/
theorem sameGroups (h : Trailing steps) (hn : ∀ step ∈ steps, step.Named insertLike)
    (hi : InnerFree (phrasesOf steps)) (hs : ∀ p ∈ phrasesOf steps, p.head? ≠ some "SELECT")
    (hr : route steps ts = some cs) (hl : Legible d ts) (ht : Tame (textOf ts))
    (hv : Veiled d (piecesOf ts)) :
    SameGroups d ts (spaced (fragmentsOf steps (cs.map Choice.part))) := by
  induction h generalizing ts cs with
  | finish =>
      by_cases he : AtEnd ts
      · rw [route_finish_of_atEnd he] at hr
        cases hr
        rw [eq_nil_of_atEnd ht he]
        exact sameGroups_nil
      · rw [route_finish_of_not he] at hr
        simp at hr
  | options key keywords =>
      have whole := legible_layout hr hn hl ht
      cases ho : Phrase.startsAny keywords ts with
      | true =>
          rw [route_options ho] at hr
          cases hr
          have full : strip ts ≠ [] := by
            intro he
            have starts := startsAny_strip ho
            rw [he, startsAny_of_atEnd keywords atEnd_nil] at starts
            simp at starts
          have part : (Choice.mk ts [] [] ts.length).part = strip ts := by
            simp [Choice.part, Choice.taken]
          rw [List.map_cons, List.map_singleton, part, part_skip,
            layout_options key keywords full] at whole ⊢
          have front : Veiled d (piecesOf (ts ++ [])) := by rwa [List.append_nil]
          have tidy : Tidy (ts ++ []) := by
            rw [List.append_nil]
            exact hl.tidy
          have := sameGroups_nil.part front tidy (by simpa [trail] using whole.tidy) rfl
          simpa [trail] using this
      | false =>
          rw [route_of_skip _ (choices_options_of_not ho)] at hr
          obtain ⟨cs', hr', rfl⟩ := Option.map_eq_some_iff.mp hr
          by_cases he : AtEnd ts
          · rw [route_finish_of_atEnd he] at hr'
            cases hr'
            rw [eq_nil_of_atEnd ht he]
            exact sameGroups_nil
          · rw [route_finish_of_not he] at hr'
            simp at hr'
  | @clause key keyword steps hf h ih =>
      have whole := legible_layout hr hn hl ht
      have plain := (hn _ (List.mem_cons_self ..)).2.2
      have named : ∀ step ∈ steps, step.Named insertLike := fun step hm => hn step (by simp [hm])
      have sub : phrasesOf steps ⊆ phrasesOf (.clause key keyword :: steps) := by
        rw [phrasesOf_clause]
        exact List.subset_cons_self _ _
      have selectless : ∀ p ∈ phrasesOf steps, p.head? ≠ some "SELECT" :=
        fun p hp => hs p (sub hp)
      rcases (Trailing.clause key hf h).clause_cases hr with
        ⟨cs', rfl, hr'⟩ | ⟨t, gap, stop, c, cs', hst, hg, rfl, rfl, closed, quiet, hr'⟩
      · rw [List.map_cons, part_skip, fragmentsOf_absent]
        exact ih named (hi.of_subset sub) selectless hr' hl ht hv
      · have suffix : stop <:+ t ++ (gap ++ (c.taken ++ stop)) :=
          ⟨t ++ (gap ++ c.taken), by simp⟩
        have tame := ht.of_subset suffix.subset
        rw [piecesOf_append, piecesOf_append] at hv
        have front := hv.right.right
        rw [piecesOf_append] at front
        have rest := ih named (hi.of_subset sub) selectless hr' hl.right.right.right tame
          front.right
        rw [← piecesOf_append] at front
        have begins := (h.readsAgain named (hi.of_subset sub) hr' fun hm =>
          tame.semicolon (List.mem_flatMap.mpr ⟨_, hm, by simp [text]⟩)).1
        rw [List.map_cons] at whole ⊢
        refine SameGroups.bare_left (SameGroups.bare_left ?_ hl.right.tidy.left hg.bare)
          hl.tidy.left hst.bare
        by_cases hp : c.part = []
        · rw [hp, fragmentsOf_absent]
          exact rest.bare_left hl.right.right.tidy.left (blanks_of_strip_eq_nil hp).bare
        · rw [layout_clause key steps _ keyword hp] at whole ⊢
          have tidy := whole.tidy.right
          have moved := rest.part front hl.right.right.tidy (tidy_cons_iff.mp tidy).2.1
            (selects_trail begins selectless)
          have behind := moved.bare_right (tidy_singleton (tidy_cons_iff.mp tidy).1)
            (by simp [Bare, isSpace])
          exact behind.bare_right whole.tidy.left plain.spells_tokens.bare

/-- So is the layout with the first value of a pattern in front. -/
theorem sameGroups_value {key : String} (h : Trailing steps)
    (hn : ∀ step ∈ .value key :: steps, step.Named insertLike) (hi : InnerFree (phrasesOf steps))
    (hs : ∀ p ∈ phrasesOf steps, p.head? ≠ some "SELECT")
    (hr : route (.value key :: steps) ts = some cs) (hl : Legible d ts) (ht : Tame (textOf ts))
    (hv : Veiled d (piecesOf ts)) :
    SameGroups d ts (spaced (fragmentsOf (.value key :: steps) (cs.map Choice.part))) := by
  have whole := legible_layout hr hn hl ht
  have named : ∀ step ∈ steps, step.Named insertLike := fun step hm => hn step (by simp [hm])
  rw [route_cons, Step.choices] at hr
  obtain ⟨stop, c, cs', rfl, rfl, closed, quiet, hr'⟩ := h.exists_quiet hr
  have tame := ht.of_subset (List.suffix_append c.taken stop).subset
  have behind := hv
  rw [piecesOf_append] at behind
  have rest := h.sameGroups named hi hs hr' hl.right tame behind.right
  rw [List.map_cons] at whole ⊢
  by_cases hp : c.part = []
  · rw [hp, fragmentsOf_absent]
    exact rest.bare_left hl.tidy.left (blanks_of_strip_eq_nil hp).bare
  · have begins := (h.readsAgain named hi hr' fun hm =>
      tame.semicolon (List.mem_flatMap.mpr ⟨_, hm, by simp [text]⟩)).1
    rw [layout_value key steps _ hp] at whole ⊢
    exact rest.part hv hl.tidy whole.tidy (selects_trail begins hs)

end Trailing
end SqlStatement
