import SqlStatement.Condition
import SqlStatement.Proofs.Binding
import SqlStatement.Proofs.Casting

/-!
# Placeholders of quoted expressions

The quoting of names reads words, and the word behind a colon is one of them: it
is put in quotes like any other, and what was a placeholder is none any more. So
an expression keeps exactly those placeholders that have no name or a name that
the quoting leaves alone, such as a number or a keyword. A condition takes its
value in place of the first `?` that is left, and if there is no `?`, its value
is written nowhere.
-/
namespace SqlStatement

namespace Token
variable {keep : Text → List Token → Bool} {ts : List Token}

/-- A test takes away placeholders with names only. -/
theorem none_mem_placeholders_iff : none ∈ placeholders keep ts ↔ symbol '?' ∈ ts := by
  induction ts with
  | nil => simp [placeholders]
  | cons t ts ih =>
      rw [placeholders]
      split
      · rename_i ht
        simp [ht]
      · rename_i ht
        split <;> simp [ih, Ne.symm ht]

theorem length_placeholders_le (keep : Text → List Token → Bool) (ts : List Token) :
    (placeholders keep ts).length ≤ (placeholders (fun _ _ => true) ts).length := by
  induction ts with
  | nil => exact Nat.le_refl _
  | cons t ts ih =>
      have word : wordAhead keep ts ≠ [] → wordAhead (fun _ _ => true) ts ≠ [] := by
        unfold wordAhead
        split <;> simp
      rw [placeholders, placeholders]
      split
      · exact Nat.succ_le_succ ih
      · split
        · rename_i ht
          rw [if_pos ⟨ht.1, word ht.2⟩]
          exact Nat.succ_le_succ ih
        · split
          · exact Nat.le_succ_of_le ih
          · exact ih

/-- All placeholders pass a test if the word behind each colon does. -/
theorem placeholders_eq_iff (h : ∀ t ∈ ts, t.Proper) :
    placeholders keep ts = placeholders (fun _ _ => true) ts ↔
      ∀ w behind, symbol ':' :: word w :: behind <:+ ts → keep w behind = true := by
  induction ts with
  | nil => simp [placeholders]
  | cons t ts ih =>
      obtain ⟨-, proper⟩ := List.forall_mem_cons.mp h
      have suffixes : (∀ w behind, symbol ':' :: word w :: behind <:+ t :: ts →
            keep w behind = true) ↔
          (∀ w behind, symbol ':' = t → word w :: behind = ts → keep w behind = true) ∧
            ∀ w behind, symbol ':' :: word w :: behind <:+ ts → keep w behind = true := by
        simp only [List.suffix_cons_iff, List.cons.injEq, or_imp, and_imp, forall_and]
      rw [suffixes, ← ih proper, placeholders, placeholders]
      by_cases mark : t = symbol '?'
      · simp [mark]
      · rw [if_neg mark, if_neg mark]
        by_cases colon : t = symbol ':'
        · simp only [colon, true_and, true_imp_iff]
          cases ts with
          | nil => simp [wordAhead]
          | cons u us =>
              cases u with
              | word w =>
                  have named : w ≠ [] := (proper (word w) (by simp)).1
                  cases hk : keep w us with
                  | true => simp [wordAhead, named, hk]
                  | false =>
                      have fewer := length_placeholders_le keep (word w :: us)
                      have lost : wordAhead keep (word w :: us) = [] := by simp [wordAhead, hk]
                      have word : wordAhead (fun _ _ => true) (word w :: us) = w := rfl
                      rw [lost, word, if_neg (by simp), if_pos named]
                      refine iff_of_false (fun he => ?_) fun all => ?_
                      · have := congrArg List.length he
                        rw [List.length_cons] at this
                        omega
                      · have := all.1 w us rfl
                        rw [hk] at this
                        cases this
              | space | quoted | symbol | unterminated => simp [wordAhead]
        · simp [colon, Ne.symm colon]

end Token

namespace Piece
variable {d : Dialect} {ps : List Piece}

theorem isWordChar_last {w : Text} {b : Bool} (hne : w ≠ [])
    (hw : ∀ c ∈ w, Text.isWordChar c = true) :
    (w.map char).getLast?.elim b isWordChar = true := by
  rw [List.getLast?_map, List.getLast?_eq_some_getLast hne]
  exact hw _ (List.getLast_mem hne)

theorem sheltered_of_true {b : Bool} (h : sheltered d true ps = true) :
    sheltered d b ps = true := by
  cases ps with
  | nil => rfl
  | cons p ps =>
      rw [sheltered, Bool.and_eq_true] at h ⊢
      refine ⟨?_, h.2⟩
      cases hn : p.name? d with
      | none => rfl
      | some w => simp [hn] at h

theorem sheltered_fuse {b : Bool} (p : Piece) (h : sheltered d b (p :: ps) = true) :
    sheltered d b (fuse d p ps) = true := by
  unfold fuse
  split
  · rename_i a t ps
    split
    · rename_i ht
      simp only [Dialect.takesIn, Bool.and_eq_true] at ht
      have unnamed : (literal (a ++ t)).name? d = none := by
        cases a with
        | nil => simp at ht
        | cons q a =>
            have apart : q ≠ d.identifierQuote := by
              rintro rfl
              have string : d.isStringQuote d.identifierQuote = true := ht.2
              cases d <;> simp [Dialect.isStringQuote, Dialect.identifierQuote] at string
            simp [name?, apart]
      simp only [sheltered, Bool.and_eq_true] at h
      rw [sheltered, unnamed]
      exact h.2.2
    · exact h
  · exact h

theorem sheltered_weld {b : Bool} (h : sheltered d b ps = true) :
    sheltered d b (weld d ps) = true := by
  induction ps generalizing b with
  | nil => rfl
  | cons p ps ih =>
      rw [sheltered, Bool.and_eq_true] at h
      rw [weld_cons]
      refine sheltered_fuse p ?_
      rw [sheltered, h.1, ih h.2]
      rfl

end Piece

theorem Token.isWordChar_last {t : Token} {b : Bool} (ht : t.isWord = false) (proper : t.Proper) :
    t.pieces.getLast?.elim b Piece.isWordChar = false := by
  cases t with
  | word w => cases ht
  | space w =>
      rw [pieces, List.getLast?_map, List.getLast?_eq_some_getLast proper.1]
      exact Text.isWordChar_of_isBlank (proper.2 _ (List.getLast_mem proper.1))
  | symbol c => exact proper.1
  | quoted | unterminated => rfl

namespace Dialect
variable {d : Dialect} {keep keep' : Text → List Token → Bool} {ts : List Token} {out : Text}

/-- Whether the quoting of names leaves a word alone in front of other tokens. -/
def leaves (d : Dialect) (call : TrimCall) (w : Text) (behind : List Token) : Bool :=
  (call == .opened && TrimCall.isSide w) || Text.isAnyKeyword d.expressionKeywords w ||
    (match behind with
      | .space _ :: .word c :: _ => d.isKeywordPair w c || Chunk.isCollationKeyword w
      | _ => false) ||
    !d.isName w || opensCall behind

/-- The placeholders that an expression keeps when its names are quoted: all `?`, and those with a
name that is left alone. -/
def keptPlaceholders (d : Dialect) (t : Text) : List (Option Text) :=
  Token.placeholders (d.leaves .none) (Token.ofText d t)

/-- A text that is written for tokens with some words in quotes. The first word passes a test if it
is not one of them, and the colons in front of quoted words open no placeholder any more. -/
def Spells (d : Dialect) (keep : Text → List Token → Bool) (ts : List Token) (out : Text) : Prop :=
  ∃ qs, Piece.Names d (Token.piecesOf ts) qs ∧ Piece.textOf qs = out ∧
    Piece.outlook qs = ⟨Token.wordAhead keep ts, Token.placeholders (d.leaves .none) ts⟩ ∧
    ∀ b, (b = true → ∀ t ∈ ts.head?, t.isWord = false) →
      Piece.sheltered d b (Token.piecesOf ts) = true → Piece.sheltered d b qs = true

namespace Spells

theorem nil : Spells d keep [] [] := ⟨[], .nil, rfl, rfl, fun _ _ h => h⟩

/-- Behind a word, nothing that is quoted follows at once. -/
theorem sheltered_behind {w : Text} {b : Bool} (h : Token.Tidy (.word w :: ts))
    (hb : Piece.sheltered d b (Token.piecesOf (.word w :: ts)) = true) :
    Piece.sheltered d true (Token.piecesOf ts) = true := by
  obtain ⟨⟨named, word⟩, -, -⟩ := Token.tidy_cons_iff.mp h
  rw [Token.piecesOf_cons, Token.pieces, Piece.sheltered_append, Piece.isWordChar_last named word,
    Bool.and_eq_true] at hb
  exact hb.2

theorem leave {w : Text} (h : Token.Tidy (.word w :: ts)) (hk : keep w ts = true)
    (hs : Spells d keep' ts out) : Spells d keep (.word w :: ts) (w ++ out) := by
  obtain ⟨qs, names, rfl, outlook, sheltered⟩ := hs
  obtain ⟨⟨named, word⟩, -, apart⟩ := Token.tidy_cons_iff.mp h
  refine ⟨w.map .char ++ qs, (Piece.Names.refl _).append names, by simp, ?_, fun b _ hb => ?_⟩
  · have none : Token.wordAhead keep' ts = [] :=
      Token.wordAhead_of_head fun t ht => (apart t ht).1 rfl
    rw [Piece.outlook_word word, outlook, none, Token.placeholders_cons_of_ne (by simp)]
    simp [Token.wordAhead, hk]
  · rw [Piece.sheltered_append, Piece.sheltered_chars, Piece.isWordChar_last named word]
    exact sheltered true (fun _ t ht => (apart t ht).1 rfl) (sheltered_behind h hb)

theorem quote {w : Text} (h : Token.Tidy (.word w :: ts)) (hk : keep w ts = false)
    (hs : Spells d keep' ts out) : Spells d keep (.word w :: ts) (d.quoteName w ++ out) := by
  obtain ⟨qs, names, rfl, outlook, sheltered⟩ := hs
  obtain ⟨⟨named, word⟩, -, apart⟩ := Token.tidy_cons_iff.mp h
  refine ⟨.literal (d.quoteName w) :: qs,
    .quote w (fun c hc => isInert_of_isWordChar (word c hc)) names, rfl, ?_, fun b hf hb => ?_⟩
  · rw [Piece.outlook_cons, outlook, Token.placeholders_cons_of_ne (by simp)]
    simp [Outlook.behind, Token.wordAhead, hk]
  · have first : b = false := by
      by_contra hc
      exact absurd (hf (by simpa using hc) _ rfl) (by simp [Token.isWord])
    have rest := sheltered false (by simp) (Piece.sheltered_of_true (sheltered_behind h hb))
    rw [Piece.sheltered, Piece.name?_quoteName, first, Bool.and_eq_true]
    exact ⟨by simpa using word, rest⟩

theorem other {t : Token} (ht : t.isWord = false) (h : Token.Tidy (t :: ts))
    (hc : t = .symbol ':' → keep' = d.leaves .none) (hs : Spells d keep' ts out) :
    Spells d keep (t :: ts) (t.text ++ out) := by
  obtain ⟨qs, names, rfl, outlook, sheltered⟩ := hs
  obtain ⟨proper, -, -⟩ := Token.tidy_cons_iff.mp h
  refine ⟨t.pieces ++ qs, (Piece.Names.refl _).append names,
    by rw [Piece.textOf_append, Token.textOf_pieces], ?_, fun b _ hb => ?_⟩
  · rw [Token.outlook_pieces_append ht proper outlook fun colon => by rw [hc colon],
      Token.wordAhead_of_head (by simp [ht])]
  · rw [Token.piecesOf_cons, Piece.sheltered_append, Token.isWordChar_last ht proper,
      Bool.and_eq_true] at hb
    rw [Piece.sheltered_append, hb.1, Token.isWordChar_last ht proper]
    exact sheltered false (by simp) hb.2

theorem word {w : Text} (h : Token.Tidy (.word w :: ts))
    (hk : keep w ts = !(d.isName w && !opensCall ts)) (hs : Spells d keep' ts out) :
    Spells d keep (.word w :: ts) (d.quoteWord w ts ++ out) := by
  rw [quoteWord]
  split
  · rename_i name
    exact .quote h (by rw [hk, name]; rfl) hs
  · rename_i name
    exact .leave h (by rw [hk, Bool.eq_false_iff.mpr name]; rfl) hs

end Spells

/-- The text of tokens with their names in quotes. -/
theorem spells_quoteTokens (call : TrimCall) {ts : List Token} (h : Token.Tidy ts) :
    Spells d (d.leaves call) ts (d.quoteTokens call ts) := by
  fun_induction quoteTokens d call ts with
  | case1 => exact .nil
  | case2 call a b c ts hs ih | case6 call a ts _ hs ih =>
      exact .leave h (by simp [leaves, hs]) (ih (Token.tidy_cons_iff.mp h).2.1)
  | case3 call a b c ts hs hk ih | case7 call a ts _ hs hk ih =>
      exact .leave h (by simp [leaves, hk]) (ih (Token.tidy_cons_iff.mp h).2.1)
  | case4 call a b c ts hs hk hp ih =>
      have space := (Token.tidy_cons_iff.mp h).2.1
      have word := (Token.tidy_cons_iff.mp space).2.1
      -- The second word of a pair stays too, whatever it would be on its own.
      have second : Spells d (fun _ _ => true) (.word c :: ts) (c ++ d.quoteTokens .none ts) :=
        .leave word rfl (ih (Token.tidy_cons_iff.mp word).2.1)
      have behind : Spells d (fun _ _ => true) (.space b :: .word c :: ts)
          (b ++ (c ++ d.quoteTokens .none ts)) := .other rfl space (by simp) second
      rw [List.append_assoc, List.append_assoc]
      exact .leave h (by simp [leaves, hp]) behind
  | case5 call a b c ts hs hk hp ih =>
      refine .word h ?_ (ih (Token.tidy_cons_iff.mp h).2.1)
      simp [leaves, hs, hk, hp]
  | case8 call a ts hn hs hk ih =>
      refine .word h ?_ (ih (Token.tidy_cons_iff.mp h).2.1)
      simp [leaves, hs, hk]
  | case9 call t ts _ hw ih =>
      have plain : t.isWord = false := by
        cases t with
        | word w => exact (hw w rfl).elim
        | space | quoted | symbol | unterminated => rfl
      refine .other plain h ?_ (ih (Token.tidy_cons_iff.mp h).2.1)
      rintro rfl
      cases call <;> rfl

end Dialect

theorem placeholders_quoteSmart {s : Settings} {t out : Text} (h : quoteSmart s t = .ok out)
    (ht : s.dialect.Closed t)
    (hn : CastTarget.isMentioned none (s.dialect.quoteNames t) = true →
      Piece.sheltered s.dialect false (Piece.ofText s.dialect t) = true) :
    s.dialect.placeholders out = s.dialect.keptPlaceholders t := by
  obtain ⟨qs, names, quoted, outlook, sheltered⟩ :=
    s.dialect.spells_quoteTokens .none (Token.tidy_ofPieces (Piece.ofText s.dialect t))
  rw [Token.piecesOf_ofPieces] at names sheltered
  have whole := names.whole fun _ => ht.whole
  have pieces : Piece.ofText s.dialect (s.dialect.quoteNames t) = Piece.weld s.dialect qs := by
    rw [Dialect.quoteNames, Token.ofText, ← quoted, Piece.ofText_textOf_of_whole whole]
  rw [quoteSmart] at h
  split at h
  · rename_i cast
    have welded : (Nesting.ofText s.dialect (s.dialect.quoteNames t)).pieces =
        Piece.weld s.dialect qs := (Nesting.pieces_ofPieces _).trans pieces
    have quiet := Piece.sheltered_weld (sheltered false (by simp) (hn cast))
    obtain ⟨closed, -⟩ := ht.of_renders ⟨qs, names, quoted⟩
    have whole' : ∀ p ∈ Piece.weld s.dialect qs, p.Whole s.dialect :=
      pieces ▸ fun _ => closed.whole
    obtain ⟨rs, names', rfl, spares⟩ :=
      CastTarget.exists_clean h (welded ▸ whole') (welded ▸ .of_sheltered quiet)
    rw [welded] at names' spares
    rw [Dialect.placeholders_textOf (names'.whole_of_quoted whole'), (spares false quiet).2,
      Piece.outlook_weld, outlook]
    rfl
  · cases h
    rw [Dialect.placeholders_eq_outlook, pieces, Piece.outlook_weld, outlook]
    rfl

namespace Parameters
variable {d : Dialect} {named : OrderedMap Text Value}

/-- Without `?`, positional values are written nowhere. -/
theorem fill_of_none_not_mem {parts : List TemplatePart} (h : none ∉ TemplatePart.names parts)
    (vs : List Value) : fill d named vs parts = fill d named [] parts := by
  induction parts with
  | nil => cases vs <;> rfl
  | cons part parts ih =>
      cases part with
      | text t =>
          rw [fill, fill, ih h]
      | hole p =>
          rw [TemplatePart.names_hole, List.mem_cons, not_or] at h
          obtain ⟨n, hn⟩ := Option.ne_none_iff_exists'.mp (Ne.symm h.1)
          simp only [fill, hn, ih h.2]

/-- The first value stands in place of the first `?`. -/
theorem fill_append_hole {before : List TemplatePart} {p : Placeholder}
    (h : none ∉ TemplatePart.names before) (hp : p.name = none) (v : Value) (vs : List Value)
    (after : List TemplatePart) :
    fill d named (v :: vs) (before ++ .hole p :: after) =
      fill d named [] before ++ p.literal d v ++ fill d named vs after := by
  induction before with
  | nil => simp only [List.nil_append, fill, hp]
  | cons part before ih =>
      cases part with
      | text t => rw [List.cons_append, fill, fill, ih h, List.append_assoc, List.append_assoc,
          List.append_assoc]
      | hole p' =>
          rw [TemplatePart.names_hole, List.mem_cons, not_or] at h
          obtain ⟨n, hn⟩ := Option.ne_none_iff_exists'.mp (Ne.symm h.1)
          simp only [List.cons_append, fill, hn, ih h.2, List.append_assoc]

end Parameters

/-- A template with a `?` in it is cut at the first one. -/
theorem TemplatePart.exists_hole {parts : List TemplatePart} (h : none ∈ names parts) :
    ∃ before p after, parts = before ++ .hole p :: after ∧ p.name = none ∧
      none ∉ names before := by
  induction parts with
  | nil => cases h
  | cons part parts ih =>
      have further (h : none ∈ names parts) (hp : none ∉ names [part]) :
          ∃ before p after, part :: parts = before ++ .hole p :: after ∧ p.name = none ∧
            none ∉ names before := by
        obtain ⟨before, p, after, rfl, hn, hb⟩ := ih h
        refine ⟨part :: before, p, after, rfl, hn, ?_⟩
        rw [← List.singleton_append, names_append, List.mem_append, not_or]
        exact ⟨hp, hb⟩
      cases part with
      | text t => exact further h (by simp)
      | hole p =>
          cases hp : p.name with
          | none => exact ⟨[], p, parts, rfl, hp, by simp⟩
          | some n => exact further (by simpa [hp] using h) (by simp [hp])

/-- An accepted expression keeps the placeholders whose names the quoting leaves alone, and so all
of them if it leaves alone each word behind a colon; where a CAST is mentioned, the caller's own
quoted names are words apart from others. A condition made of such an expression has its value in
place of the first `?`. If all placeholders have names, or the value is an empty list for several,
nothing is written. -/
theorem placeholders_quoteIdentifier {s : Settings} {e t : Text}
    (h : quoteIdentifier s .smart e = .ok t)
    (hn : CastTarget.isMentioned none (s.dialect.quoteNames e) = true →
      Piece.sheltered s.dialect false (Piece.ofText s.dialect e) = true) :
    s.dialect.placeholders t = s.dialect.keptPlaceholders e ∧
      (s.dialect.placeholders t = s.dialect.placeholders e ↔
        ∀ w behind, .symbol ':' :: .word w :: behind <:+ Token.ofText s.dialect e →
          s.dialect.leaves .none w behind = true) ∧
      (none ∈ s.dialect.placeholders e → ∀ value v vs,
        Condition.arguments (s.dialect.placeholders e).length value = v :: vs →
          ∃ before p after, TemplatePart.ofStatement s.dialect t = before ++ .hole p :: after ∧
            p.name = none ∧ none ∉ TemplatePart.names before ∧
            buildCondition s .smart ⟨e, value⟩ =
              .ok (Parameters.fill s.dialect ⟨[]⟩ [] before ++ p.literal s.dialect v ++
                Parameters.fill s.dialect ⟨[]⟩ vs after)) ∧
      (s.dialect.placeholders e ≠ [] → ∀ value, none ∉ s.dialect.placeholders e ∨
        Condition.arguments (s.dialect.placeholders e).length value = [] →
          buildCondition s .smart ⟨e, value⟩ = .ok t) := by
  have kept : s.dialect.placeholders t = s.dialect.keptPlaceholders e := by
    have smart := h
    rw [quoteIdentifier] at smart
    split at smart
    · rename_i balanced
      exact placeholders_quoteSmart smart (Dialect.isBalanced_iff.mp balanced).1 hn
    · cases smart
  have unnamed : none ∈ s.dialect.placeholders t ↔ none ∈ s.dialect.placeholders e := by
    rw [kept, Dialect.keptPlaceholders, Dialect.placeholders_eq_tokens,
      Token.none_mem_placeholders_iff, Token.none_mem_placeholders_iff]
  have built (value : Option Value) (he : s.dialect.placeholders e ≠ []) :
      buildCondition s .smart ⟨e, value⟩ =
        .ok (Parameters.fill s.dialect ⟨[]⟩
          (Condition.arguments (s.dialect.placeholders e).length value)
          (TemplatePart.ofStatement s.dialect t)) := by
    have some : ¬(s.dialect.placeholders e).length = 0 := by simpa using he
    rw [buildCondition, Dialect.countPlaceholders_eq]
    dsimp only
    rw [h]
    exact if_neg some
  have unfilled : Parameters.fill s.dialect ⟨[]⟩ [] (TemplatePart.ofStatement s.dialect t) = t :=
    s.dialect.bind_empty t
  refine ⟨kept, ?_, fun he value v vs hv => ?_, fun he value dropped => ?_⟩
  · rw [kept, Dialect.placeholders_eq_tokens]
    exact Token.placeholders_eq_iff (Token.tidy_ofPieces _).proper
  · obtain ⟨before, p, after, template, hp, hb⟩ := TemplatePart.exists_hole (unnamed.mpr he)
    refine ⟨before, p, after, template, hp, hb, ?_⟩
    rw [built value (List.ne_nil_of_mem he), hv, template, Parameters.fill_append_hole hb hp]
  · rw [built value he]
    rcases dropped with hq | hv
    · rw [Parameters.fill_of_none_not_mem (fun hm => hq (unnamed.mp hm)), unfilled]
    · rw [hv, unfilled]

theorem placeholders_quoteIdentifier_cast :
    Dialect.mysql.placeholders "CAST(`a` AS int) = ? OR `b` = :`n` OR `c` = :1".toList =
      [none, some ['1']] := by
  have quoted : quoteIdentifier {} .smart "CAST(a AS `int`) = ? OR b = :n OR c = :1".toList =
      .ok "CAST(`a` AS int) = ? OR `b` = :`n` OR `c` = :1".toList := by decide +kernel
  have kept : Dialect.mysql.keptPlaceholders "CAST(a AS `int`) = ? OR b = :n OR c = :1".toList =
      [none, some ['1']] := by decide +kernel
  rw [← kept]
  exact (placeholders_quoteIdentifier quoted fun _ => by decide +kernel).1

/-- The name behind a colon is quoted, and the placeholder is gone. -/
theorem not_placeholders_quoteIdentifier :
    ¬∀ (s : Settings) (e t : Text), quoteIdentifier s .smart e = .ok t →
      s.dialect.placeholders t = s.dialect.placeholders e := by
  intro h
  have same := h {} "a = :name".toList "`a` = :`name`".toList (by decide +kernel)
  exact absurd same (by decide +kernel)

end SqlStatement
