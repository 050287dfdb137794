import Mathlib.Data.List.TakeWhile
import Mathlib.Logic.Function.Iterate
import SqlStatement.Proofs.Extraction
import SqlStatement.Proofs.Tokenizing

/-!
# Injection undoes extraction

One pass of an injection shows items one level deeper. What the pass reads are
the tokens of the text, so every level has to be lexed; what it writes for a
marker is level zero of the subquery with that number. A statement nests no
deeper than it has subqueries, so the passes are enough to show everything.
-/
namespace SqlStatement

namespace Subquery
variable {d : Dialect} {sets : List Text}

theorem markedNumber?_marker (number : Nat) :
    markedNumber? ('s' :: 'u' :: 'b' :: Text.ofNat number) = some (number, []) := by
  have digits : ∀ c ∈ Text.ofNat number, c.isDigit = true := fun c hc =>
    Nat.isDigit_of_mem_toDigits (by decide) (by decide) hc
  have value : Text.digitsValue (Text.ofNat number) = number := Nat.ofDigitChars_ten_toDigits
  have written : (Text.ofNat number).isEmpty = false := by
    simp [Text.ofNat]
  rw [markedNumber?, if_pos (by rfl)]
  simp only [List.drop_succ_cons, List.drop_zero]
  rw [List.takeWhile_eq_self_iff.mpr digits, List.dropWhile_eq_nil_iff.mpr digits, value,
    written]
  rfl

theorem isWordChar_of_mem_marker {number : Nat} :
    ∀ c ∈ 's' :: 'u' :: 'b' :: Text.ofNat number, Text.isWordChar c = true := by
  intro c hc
  simp only [List.mem_cons] at hc
  rcases hc with rfl | rfl | rfl | hc
  · decide
  · decide
  · decide
  · have digit := Nat.isDigit_of_mem_toDigits (by decide) (by decide) hc
    simp [Text.isWordChar, Char.isAlphanum, digit]

theorem replacement?_marker {number : Nat} {t : Text} (hn : 0 < number)
    (h : sets[number]? = some t) :
    replacement? sets ('s' :: 'u' :: 'b' :: Text.ofNat number) = some t := by
  rw [replacement?, markedNumber?_marker]
  simp [Nat.ne_of_gt hn, h]

theorem isWordChar_sub : ∀ c ∈ ['s', 'u', 'b'], Text.isWordChar c = true :=
  List.all_eq_true.mp (by decide)

theorem sub_of_replacement? {w t : Text} (h : replacement? sets w = some t) :
    ['s', 'u', 'b'] <+: w := by
  simp only [replacement?, markedNumber?] at h
  split at h
  · rename_i hm
    split at hm
    · rename_i hw
      rw [← hw]
      exact List.take_prefix 3 w
    · simp at hm
  · simp at h

theorem fill_cons {t : Token} (ts : List Token) (h : t ≠ .symbol '#') :
    (fill sets (t :: ts)).1 = t.text ++ (fill sets ts).1 := by
  rw [fill]
  rintro w ts' rfl
  exact absurd rfl h

theorem fill_hash {ts : List Token}
    (h : ∀ w us, ts = .word w :: us → replacement? sets w = none) :
    (fill sets (.symbol '#' :: ts)).1 = '#' :: (fill sets ts).1 := by
  cases ts with
  | nil => rfl
  | cons t ts =>
      cases t with
      | word w =>
          rw [fill, h w ts rfl, fill_cons (t := .word w) _ (by simp)]
          rfl
      | space | quoted | symbol | unterminated => rfl

theorem fill_marker {number : Nat} {t : Text} (ts : List Token) (hn : 0 < number)
    (h : sets[number]? = some t) :
    (fill sets (.symbol '#' :: .word ('s' :: 'u' :: 'b' :: Text.ofNat number) :: ts)).1 =
      t ++ (fill sets ts).1 := by
  rw [fill, replacement?_marker hn h]

theorem fill_attach {p : Piece} (ts : List Token) (h : p ≠ .char '#') :
    (fill sets (Token.attach p ts)).1 = p.text ++ (fill sets ts).1 := by
  rcases Token.attach_cases p ts with ha | ⟨c, w, us, rfl, rfl, ha⟩ | ⟨c, b, us, rfl, rfl, ha⟩
  · obtain ⟨t, ht, hp⟩ := Token.attach_nil p
    have hne : t ≠ .symbol '#' := by
      rintro rfl
      exact h (by simpa [Token.pieces] using hp.symm)
    rw [ha, ht, List.singleton_append, fill_cons ts hne, ← Token.textOf_pieces, hp]
    simp
  · rw [ha, fill_cons us (by simp), fill_cons us (by simp)]
    rfl
  · rw [ha, fill_cons us (by simp), fill_cons us (by simp)]
    rfl

/-- A piece in which no marker begins is written as it is. -/
theorem fill_piece {p : Piece} {ps : List Piece}
    (h : p = .char '#' → ¬['s', 'u', 'b'].map Piece.char <+: ps) :
    (fill sets (Token.ofPieces (p :: ps))).1 = p.text ++ (fill sets (Token.ofPieces ps)).1 := by
  rw [Token.ofPieces_cons]
  by_cases hash : p = .char '#'
  · subst hash
    rw [Token.attach_symbol _ (by decide) (by decide), fill_hash]
    · rfl
    · intro w us hw
      by_contra hsome
      obtain ⟨t, ht⟩ := Option.ne_none_iff_exists'.mp hsome
      refine h rfl (((sub_of_replacement? ht).map Piece.char).trans ?_)
      have same := congrArg Token.piecesOf hw
      rw [Token.piecesOf_ofPieces, Token.piecesOf_cons, Token.pieces] at same
      rw [same]
      exact List.prefix_append _ _
  · exact fill_attach _ hash

/-- A marker in parentheses is filled. -/
theorem fill_hole {number : Nat} {t : Text} (hn : 0 < number) (ht : sets[number]? = some t)
    (ps : List Piece) :
    (fill sets (Token.ofPieces (.char '(' :: ((marker number).map .char ++ .char ')' :: ps)))).1 =
      '(' :: (t ++ ')' :: (fill sets (Token.ofPieces ps)).1) := by
  have closing : ∀ u, (Token.ofPieces (.char ')' :: ps)).head? = some u → u.isWord = false := by
    intro u hu
    rw [Token.ofPieces_symbol_cons _ (by decide) (by decide)] at hu
    cases hu
    rfl
  rw [fill_piece (by simp), marker, List.map_cons, List.cons_append,
    Token.ofPieces_symbol_cons _ (by decide) (by decide),
    Token.ofPieces_word (by simp) isWordChar_of_mem_marker closing, fill_marker _ hn ht,
    fill_piece (by simp)]
  rfl

/-- A pass that finds no marker writes the tokens as they are. -/
theorem fill_eq_textOf {ts : List Token} (h : (fill sets ts).2 = false) :
    (fill sets ts).1 = Token.textOf ts := by
  fun_induction fill sets ts with
  | case1 => rfl
  | case2 => simp at h
  | case3 w ts r hr ih =>
      rw [Token.textOf_cons, Token.textOf_cons, ← ih h]
      rfl
  | case4 t ts hne r ih => rw [Token.textOf_cons, ← ih h]

/-- The text after one pass. -/
def pass (d : Dialect) (sets : List Text) (t : Text) : Text := (fill sets (Token.ofText d t)).1

theorem fillAll_eq_iterate (passes : Nat) (t : Text) :
    fillAll d sets passes t = (pass d sets)^[passes] t := by
  induction passes generalizing t with
  | zero => rfl
  | succ passes ih =>
      rw [Function.iterate_succ_apply, fillAll]
      split
      · rename_i filled hf
        rw [ih, pass, hf]
      · rename_i filled hf
        have same : pass d sets t = t := by
          have unchanged : (fill sets (Token.ofText d t)).2 = false := by rw [hf]
          rw [pass, fill_eq_textOf unchanged, Token.textOf_ofText]
        rw [same, Function.iterate_fixed same]

/-- Items whose markers are filled with the subqueries they stand for, and which have no other
markers. -/
inductive Fillable (sets : List Text) : List Item → Prop
  | nil : Fillable sets []
  | plain {p : Piece} {its : List Item}
      (hp : p = .char '#' → ∀ level,
        ¬['s', 'u', 'b'].map Piece.char <+: its.flatMap (Item.pieces level))
      (h : Fillable sets its) : Fillable sets (.plain p :: its)
  | query {number : Nat} {content : Nesting} {its : List Item} (hn : 0 < number)
      (hs : sets[number]? = some (outerText (number + 1) content))
      (hc : Fillable sets (content.items (number + 1))) (h : Fillable sets its) :
      Fillable sets (.query number content :: its)

/-- Filling shows items one level deeper. -/
theorem Fillable.fill_shown {its : List Item} (h : Fillable sets its) (level : Nat)
    {rest : List Piece} (hr : ∀ t, (Token.ofPieces rest).head? = some t → t.isWord = false) :
    (fill sets (Token.ofPieces (its.flatMap (Item.pieces level) ++ rest))).1 =
      Piece.textOf (its.flatMap (Item.pieces (level + 1))) ++
        (fill sets (Token.ofPieces rest)).1 := by
  induction h generalizing level rest with
  | nil => rfl
  | @plain p its hp _ ih =>
      simp only [List.flatMap_cons, Item.pieces_plain, List.cons_append, List.nil_append,
        Piece.textOf_cons, List.append_assoc]
      rw [fill_piece, ih level hr]
      exact fun hash sub => hp hash level (Token.prefix_of_prefix_append isWordChar_sub hr sub)
  | @query number content its hn hs _ _ ihc ih =>
      cases level with
      | zero =>
          simp only [List.flatMap_cons, Item.pieces, List.cons_append, List.append_assoc,
            List.nil_append]
          rw [fill_hole hn hs, ih 0 hr]
          simp [outerText, Nesting.shown, Piece.text]
      | succ level =>
          simp only [List.flatMap_cons, Item.pieces, List.cons_append, List.append_assoc,
            List.nil_append]
          rw [fill_piece (by simp), ihc level, fill_piece (by simp), ih (level + 1) hr]
          · simp [Piece.text]
          · intro t ht
            rw [Token.ofPieces_symbol_cons _ (by decide) (by decide)] at ht
            cases ht
            rfl

/-- Texts that hold the subqueries of a list under their numbers, from a number on. -/
def Holds (sets : List Text) : Nat → List Nesting → Prop
  | _, [] => True
  | number, n :: ns => sets[number]? = some (outerText (number + 1) n) ∧ Holds sets (number + 1) ns

theorem holds_append (number : Nat) (ns ms : List Nesting) :
    Holds sets number (ns ++ ms) ↔ Holds sets number ns ∧ Holds sets (number + ns.length) ms := by
  induction ns generalizing number with
  | nil => simp [Holds]
  | cons n ns ih =>
      rw [List.cons_append, Holds, Holds, ih, and_assoc, List.length_cons, Nat.add_right_comm,
        Nat.add_assoc number]

theorem holds_outerTexts (before : List Text) (ns : List Nesting) :
    Holds (before ++ outerTexts before.length ns) before.length ns := by
  induction ns generalizing before with
  | nil => trivial
  | cons n ns ih =>
      refine ⟨by simp [outerTexts], ?_⟩
      have := ih (before ++ [outerText (before.length + 1) n])
      rw [List.length_append, List.length_singleton, List.append_assoc] at this
      exact this

/-- The pieces of the text that markers start with. -/
def hashSub : List Piece := ['#', 's', 'u', 'b'].map .char

theorem head?_group (inner rest : Nesting) (next : Nat) (its : List Item)
    (level : Nat) :
    (((Nesting.group inner rest).items next ++ its).flatMap (Item.pieces level)).head? =
      some (.char '(') := by
  rw [Nesting.items]
  split
  · cases level <;> rfl
  · simp

/-- A word that starts with the items of a nesting stands in its pieces. -/
theorem prefix_pieces {w : Text} {n : Nesting} {next level : Nat} {its : List Item}
    (hw : ∀ c ∈ w, Text.isWordChar c = true)
    (hi : ∀ it, its.head? = some it → it = .plain (.char ')'))
    (h : w.map Piece.char <+: (n.items next ++ its).flatMap (Item.pieces level)) :
    w.map Piece.char <+: n.pieces := by
  induction w generalizing n next with
  | nil => exact List.nil_prefix
  | cons c w ih =>
      have hc := hw c (by simp)
      cases n with
      | done =>
          cases its with
          | nil => simp [Nesting.items] at h
          | cons it its =>
              rw [hi it rfl] at h
              simp only [Nesting.items, List.nil_append, List.flatMap_cons, Item.pieces_plain,
                List.map_cons, List.cons_append, List.cons_prefix_cons, Piece.char.injEq] at h
              rw [h.1] at hc
              exact absurd hc (by decide)
      | piece p rest =>
          simp only [Nesting.items, List.cons_append, List.flatMap_cons, Item.pieces_plain,
            List.map_cons, List.nil_append, List.cons_prefix_cons] at h
          rw [Nesting.pieces, List.map_cons, List.cons_prefix_cons]
          exact ⟨h.1, ih (fun c hc => hw c (by simp [hc])) h.2⟩
      | group inner rest =>
          have first : c = '(' := by
            have opened := head?_group inner rest next its level
            obtain ⟨ps, hp⟩ := h
            rw [← hp] at opened
            simpa using opened
          rw [first] at hc
          exact absurd hc (by decide)

theorem Fillable.items {n : Nesting} {next : Nat} {its : List Item} (hn : 0 < next)
    (hm : ¬hashSub <:+: n.pieces) (hs : Holds sets next n.queries)
    (hi : ∀ it, its.head? = some it → it = .plain (.char ')')) (h : Fillable sets its) :
    Fillable sets (n.items next ++ its) := by
  induction n generalizing next its with
  | done => exact h
  | piece p rest ih =>
      refine .plain ?_ (ih hn (fun hr => hm ?_) hs hi h)
      · rintro rfl level hp
        refine hm (List.IsPrefix.isInfix ?_)
        have := prefix_pieces isWordChar_sub hi hp
        exact List.cons_prefix_cons.mpr ⟨rfl, this⟩
      · exact hr.trans (List.suffix_cons p _).isInfix
  | group inner rest ih₁ ih₂ =>
      have mInner : ¬hashSub <:+: inner.pieces := fun hc =>
        hm (hc.trans ⟨[.char '('], .char ')' :: rest.pieces, by simp [Nesting.pieces]⟩)
      have mRest : ¬hashSub <:+: rest.pieces := fun hc =>
        hm (hc.trans ⟨.char '(' :: (inner.pieces ++ [.char ')']), [], by simp [Nesting.pieces]⟩)
      by_cases hq : inner.startsQuery = true
      · rw [Nesting.queries, if_pos hq, Holds, holds_append] at hs
        have hitems : Fillable sets (inner.items (next + 1)) := by
          have := ih₁ (Nat.succ_pos next) mInner hs.2.1 (by simp) .nil
          rwa [List.append_nil] at this
        rw [Nesting.items, if_pos hq, List.cons_append]
        exact .query hn hs.1 hitems (ih₂ (by omega) mRest hs.2.2 hi h)
      · rw [Nesting.queries, if_neg hq, holds_append] at hs
        rw [Nesting.items, if_neg hq, List.cons_append, List.append_assoc, List.cons_append]
        refine .plain (fun hp => by simp at hp) (ih₁ hn mInner hs.1 (by simp) ?_)
        exact .plain (fun hp => by simp at hp) (ih₂ (by omega) mRest hs.2 hi h)

/-- A pass over items that are shown down to a level shows them one level deeper. -/
theorem pass_textOf {its : List Item} {level : Nat} (h : Fillable sets its)
    (hl : Piece.Lexed d (its.flatMap (Item.pieces level))) :
    pass d sets (Piece.textOf (its.flatMap (Item.pieces level))) =
      Piece.textOf (its.flatMap (Item.pieces (level + 1))) := by
  have edge : ∀ t, (Token.ofPieces []).head? = some t → t.isWord = false := by simp
  have := h.fill_shown level edge
  rw [List.append_nil] at this
  rw [pass, Token.ofText_textOf_of_lexed hl, this]
  exact List.append_nil _

theorem iterate_pass {its : List Item} (h : Fillable sets its)
    (hl : ∀ level, Piece.Lexed d (its.flatMap (Item.pieces level))) (passes : Nat) :
    (pass d sets)^[passes] (Piece.textOf (its.flatMap (Item.pieces 0))) =
      Piece.textOf (its.flatMap (Item.pieces passes)) := by
  induction passes with
  | zero => rfl
  | succ passes ih => rw [Function.iterate_succ_apply', ih, pass_textOf h (hl passes)]

/-- A nesting with all its subqueries behind markers is injected back to its text. -/
theorem injectInto_outerText {n : Nesting} (hl : Piece.Lexed d n.pieces)
    (hm : ¬hashSub <:+: n.pieces) :
    injectInto d (outerText 1 n :: outerTexts 1 n.queries) (outerText 1 n) = n.text := by
  have fillable : Fillable (outerText 1 n :: outerTexts 1 n.queries) (n.items 1) := by
    have := Fillable.items Nat.one_pos hm (holds_outerTexts [outerText 1 n] n.queries)
      (by simp) .nil
    rwa [List.append_nil] at this
  have levels (level : Nat) : Piece.Lexed d ((n.items 1).flatMap (Item.pieces level)) :=
    hl.masks (n.masks_shown level 1)
  have deep : n.depth ≤ (outerText 1 n :: outerTexts 1 n.queries).length + 1 := by
    have := n.depth_le_length_queries
    simp only [List.length_cons, length_outerTexts]
    omega
  have steps := iterate_pass fillable levels
    ((outerText 1 n :: outerTexts 1 n.queries).length + 1)
  have full := Nesting.shown_of_depth_le 1 deep
  rw [Nesting.shown] at full
  rw [full] at steps
  rw [injectInto, fillAll_eq_iterate]
  exact steps

/-- A statement that takes no rows from a query is extracted from its nesting, if at all. -/
theorem extract_cases {s : Settings} {statement : Text} {e : Extraction}
    (hk : ¬(StatementType.detect s.dialect statement).any StatementType.isInsertLike)
    (h : extract s statement = .ok e) :
    e = { outer := statement } ∨
      takeOut s.maxNesting (Nesting.ofText s.dialect statement) s.maxNesting 1 = .ok e := by
  have none : (StatementType.detect s.dialect statement).filter StatementType.isInsertLike =
      none := by
    simpa [Option.filter_eq_none_iff, Option.any_eq_true] using hk
  rw [extract] at h
  split at h
  · rw [insertedQuery?, none] at h
    exact .inr h
  · cases h
    exact .inl rfl

/-- Injection undoes extraction, whatever the number and the nesting of the subqueries. -/
theorem inject_extract (s : Settings) (statement : Text) (e : Extraction)
    (hk : ¬(StatementType.detect s.dialect statement).any StatementType.isInsertLike)
    (hm : ¬hashSub <:+: Piece.ofText s.dialect statement)
    (h : extract s statement = .ok e) : inject s.dialect e.sets = statement := by
  rcases extract_cases hk h with rfl | h
  · rfl
  · rw [takeOut_eq] at h
    split at h
    · cases h
      have pieces : (Nesting.ofText s.dialect statement).pieces =
          Piece.ofText s.dialect statement := Nesting.pieces_ofPieces _
      have back := injectInto_outerText (d := s.dialect) (n := Nesting.ofText s.dialect statement)
        (pieces ▸ Piece.lexed_ofText _ _) (pieces ▸ hm)
      have text := Nesting.text_ofText s.dialect statement
      generalize Nesting.ofText s.dialect statement = n at back text
      rw [text] at back
      cases hq : n.queries with
      | nil =>
          have flat := n.depth_le_length_queries
          rw [hq] at flat
          rw [← text, Nesting.text, ← Nesting.shown_of_depth_le 1 flat]
          rfl
      | cons q qs =>
          rw [hq] at back
          exact back
    · simp at h

theorem inject_extract_nested :
    inject .mysql (["SELECT (#sub1) FROM t", "SELECT '#sub1 (' FROM (#sub2) AS u", "SELECT 1"].map
      String.toList) = "SELECT (SELECT '#sub1 (' FROM (SELECT 1) AS u) FROM t".toList :=
  inject_extract {} "SELECT (SELECT '#sub1 (' FROM (SELECT 1) AS u) FROM t".toList
    { outer := "SELECT (#sub1) FROM t".toList
      subqueries := ["SELECT '#sub1 (' FROM (#sub2) AS u".toList, "SELECT 1".toList] }
    (by decide +kernel) (by decide +kernel) (by decide +kernel)

end Subquery
end SqlStatement
