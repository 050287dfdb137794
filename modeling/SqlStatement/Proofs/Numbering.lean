import SqlStatement.Proofs.Injection

/-!
# The order of the markers

The texts of an extraction make a tree: the statement is the root, and a marker
in a text leads to the text it stands for. The walk through the tree goes down
at every marker before it goes on to the next one. It comes to the texts in the
order of their numbers and to each of them once, so no text holds a marker of
itself or of one before it, and there are no markers beside those of the tree.
-/
namespace SqlStatement
namespace Subquery
variable {d : Dialect} {sets : List Text}

/-- The markers among tokens: a hash and the word behind it, if that starts with `sub`. -/
def marks : List Token → List Text
  | .symbol '#' :: .word w :: ts =>
      if ['s', 'u', 'b'] <+: w then ('#' :: w) :: marks ts else marks ts
  | _ :: ts => marks ts
  | [] => []

/-- The markers of a text outside its literals. -/
def marksOf (d : Dialect) (t : Text) : List Text := marks (Token.ofText d t)

/-- The numbers that a walk passes when it goes, for each of the markers, through the text that is
stored under its number. -/
inductive Visits (d : Dialect) (sets : List Text) : List Text → List Nat → Prop
  | nil : Visits d sets [] []
  | cons {number : Nat} {t : Text} {ms : List Text} {inner others : List Nat}
      (stored : sets[number]? = some t) (down : Visits d sets (marksOf d t) inner)
      (onwards : Visits d sets ms others) :
      Visits d sets (marker number :: ms) (number :: (inner ++ others))

theorem marker_injective {m n : Nat} (h : marker m = marker n) : m = n := by
  have same := congrArg markedNumber? (List.tail_eq_of_cons_eq h)
  rw [markedNumber?_marker, markedNumber?_marker] at same
  cases same
  rfl

section Marks

theorem marks_cons {t : Token} (ts : List Token) (h : t ≠ .symbol '#') :
    marks (t :: ts) = marks ts := by
  rw [marks]
  rintro w ts' rfl
  exact absurd rfl h

theorem marks_hash {ts : List Token} (h : ∀ w us, ts = .word w :: us → ¬['s', 'u', 'b'] <+: w) :
    marks (.symbol '#' :: ts) = marks ts := by
  cases ts with
  | nil => rfl
  | cons t ts =>
      cases t with
      | word w => rw [marks, if_neg (h w ts rfl), marks_cons _ (by simp)]
      | space | quoted | symbol | unterminated => rfl

theorem marks_attach {p : Piece} (ts : List Token) (h : p ≠ .char '#') :
    marks (Token.attach p ts) = marks ts := by
  rcases Token.attach_cases p ts with ha | ⟨c, w, us, rfl, rfl, ha⟩ | ⟨c, b, us, rfl, rfl, ha⟩
  · obtain ⟨t, ht, hp⟩ := Token.attach_nil p
    have hne : t ≠ .symbol '#' := by
      rintro rfl
      exact h (by simpa [Token.pieces] using hp.symm)
    rw [ha, ht, List.singleton_append, marks_cons ts hne]
  · rw [ha, marks_cons us (by simp), marks_cons us (by simp)]
  · rw [ha, marks_cons us (by simp), marks_cons us (by simp)]

/-- A piece in which no marker begins. -/
theorem marks_piece {p : Piece} {ps : List Piece}
    (h : p = .char '#' → ¬['s', 'u', 'b'].map Piece.char <+: ps) :
    marks (Token.ofPieces (p :: ps)) = marks (Token.ofPieces ps) := by
  rw [Token.ofPieces_cons]
  by_cases hash : p = .char '#'
  · subst hash
    rw [Token.attach_symbol _ (by decide) (by decide), marks_hash]
    intro w us hw sub
    refine h rfl ((sub.map Piece.char).trans ?_)
    have same := congrArg Token.piecesOf hw
    rw [Token.piecesOf_ofPieces, Token.piecesOf_cons, Token.pieces] at same
    rw [same]
    exact List.prefix_append _ _
  · exact marks_attach _ hash

/-- A marker in parentheses. -/
theorem marks_hole (number : Nat) (ps : List Piece) :
    marks (Token.ofPieces (.char '(' :: ((marker number).map .char ++ .char ')' :: ps))) =
      marker number :: marks (Token.ofPieces ps) := by
  have closing : ∀ u, (Token.ofPieces (.char ')' :: ps)).head? = some u → u.isWord = false := by
    intro u hu
    rw [Token.ofPieces_symbol_cons _ (by decide) (by decide)] at hu
    cases hu
    rfl
  rw [marks_piece (by simp), marker, List.map_cons, List.cons_append,
    Token.ofPieces_symbol_cons _ (by decide) (by decide),
    Token.ofPieces_word (by simp) isWordChar_of_mem_marker closing, marks,
    if_pos ⟨Text.ofNat number, rfl⟩, marks_piece (by simp)]

theorem marks_ofPieces {ps : List Piece} (h : ¬hashSub <:+: ps) :
    marks (Token.ofPieces ps) = [] := by
  induction ps with
  | nil => rfl
  | cons p ps ih =>
      rw [marks_piece, ih fun hi => h (hi.trans (List.suffix_cons p ps).isInfix)]
      rintro rfl sub
      exact h (List.IsPrefix.isInfix (List.cons_prefix_cons.mpr ⟨rfl, sub⟩))

end Marks

/-- The marks of an item with its marker in place. -/
def itemMarks : Item → List Text
  | .plain _ => []
  | .query number _ => [marker number]

/-- The markers of items are those of the subqueries among them. -/
theorem Fillable.marks_pieces {its : List Item} (h : Fillable sets its) :
    marks (Token.ofPieces (its.flatMap (Item.pieces 0))) = its.flatMap itemMarks := by
  induction h with
  | nil => rfl
  | @plain p its hp _ ih =>
      rw [List.flatMap_cons, Item.pieces_plain, List.singleton_append,
        marks_piece fun hash => hp hash 0, ih]
      rfl
  | @query number content its hn hs _ _ _ ih =>
      rw [List.flatMap_cons, Item.pieces, List.cons_append, List.append_assoc,
        List.singleton_append, marks_hole, ih]
      rfl

namespace Visits

theorem append {ms ms' : List Text} {ns ns' : List Nat} (h : Visits d sets ms ns)
    (h' : Visits d sets ms' ns') : Visits d sets (ms ++ ms') (ns ++ ns') := by
  induction h with
  | nil => exact h'
  | cons stored down onwards _ ih =>
      rw [List.cons_append, List.cons_append, List.append_assoc]
      exact .cons stored down ih

/-- The markers in the texts that a walk passes, and those it begins with, are those of the numbers
that it passes. -/
theorem perm {ms : List Text} {ns : List Nat} (h : Visits d sets ms ns) :
    (ms ++ ns.flatMap fun n => marksOf d (sets[n]?.getD [])).Perm (ns.map marker) := by
  induction h with
  | nil => exact .refl _
  | @cons number t ms inner others stored _ _ down onwards =>
      simp only [List.flatMap_cons, stored, Option.getD_some, List.flatMap_append, List.map_cons,
        List.map_append, List.cons_append]
      refine .cons _ (.trans ?_ (down.append onwards))
      rw [← List.append_assoc, ← List.append_assoc, ← List.append_assoc]
      refine .append_right _ ?_
      exact List.append_assoc ms _ _ ▸ List.perm_append_comm

theorem subset {ms : List Text} {ns : List Nat} (h : Visits d sets ms ns) :
    ms ⊆ ns.map marker :=
  fun _ hm => h.perm.subset (List.mem_append_left _ hm)

/-- Where the numbers increase along a walk, they increase from a text to the markers in it. -/
theorem lt_of_mem {ms : List Text} {ns : List Nat} (h : Visits d sets ms ns)
    (sorted : ns.Pairwise (· < ·)) {i m : Nat} {t : Text} (hi : i ∈ ns) (ht : sets[i]? = some t)
    (hm : marker m ∈ marksOf d t) : i < m := by
  induction h with
  | nil => simp at hi
  | @cons number t' ms inner others stored inside _ down onwards =>
      obtain ⟨first, rest⟩ := List.pairwise_cons.mp sorted
      obtain ⟨inner', others', -⟩ := List.pairwise_append.mp rest
      rcases List.mem_cons.mp hi with rfl | hi
      · obtain rfl : t' = t := Option.some.inj (stored.symm.trans ht)
        obtain ⟨k, hk, same⟩ := List.mem_map.mp (inside.subset hm)
        rw [← marker_injective same]
        exact first k (List.mem_append_left _ hk)
      · rcases List.mem_append.mp hi with hi | hi
        · exact down inner' hi
        · exact onwards others' hi

end Visits

/-- A text with its subqueries behind markers has these markers. -/
theorem marksOf_outerText {n : Nesting} {next : Nat} (hn : 0 < next)
    (hl : Piece.Lexed d n.pieces) (hm : ¬hashSub <:+: n.pieces)
    (hs : Holds sets next n.queries) :
    marksOf d (outerText next n) = (n.items next).flatMap itemMarks := by
  have fillable : Fillable sets (n.items next ++ []) := .items hn hm hs (by simp) .nil
  rw [List.append_nil] at fillable
  rw [marksOf, outerText, Token.ofText_textOf_of_lexed (hl.masks (n.masks_shown 0 next))]
  exact fillable.marks_pieces

/-- The walk from the markers of a nesting passes the numbers of its subqueries in their order. -/
theorem visits_items {n : Nesting} {next : Nat} (hn : 0 < next) (hl : Piece.Lexed d n.pieces)
    (hm : ¬hashSub <:+: n.pieces) (hs : Holds sets next n.queries) :
    Visits d sets ((n.items next).flatMap itemMarks) (List.range' next n.queries.length) := by
  induction n generalizing next with
  | done => exact .nil
  | piece p rest ih =>
      exact ih hn hl.of_cons (fun h => hm (h.trans (List.suffix_cons p _).isInfix)) hs
  | group inner rest ih₁ ih₂ =>
      have lInner : Piece.Lexed d inner.pieces :=
        hl.of_cons.left (.inr fun c hc => by
          obtain rfl : c = ')' := by simpa [Piece.text, eq_comm] using hc
          exact Piece.isQuote_of_isPlain (by decide))
      have mInner : ¬hashSub <:+: inner.pieces := fun h =>
        hm (h.trans ⟨[.char '('], .char ')' :: rest.pieces, by simp [Nesting.pieces]⟩)
      have mRest : ¬hashSub <:+: rest.pieces := fun h =>
        hm (h.trans ⟨.char '(' :: (inner.pieces ++ [.char ')']), [], by simp [Nesting.pieces]⟩)
      have behind := hl.of_cons.right.of_cons
      by_cases hq : inner.startsQuery = true
      · rw [Nesting.queries, if_pos hq, Holds, holds_append] at hs
        have down := ih₁ (Nat.succ_pos next) lInner mInner hs.2.1
        rw [← marksOf_outerText (Nat.succ_pos next) lInner mInner hs.2.1] at down
        rw [Nesting.items, if_pos hq, Nesting.queries, if_pos hq, List.length_cons,
          List.length_append, List.range'_succ, ← List.range'_append_1]
        exact .cons hs.1 down (ih₂ (by omega) behind mRest hs.2.2)
      · rw [Nesting.queries, if_neg hq, holds_append] at hs
        rw [Nesting.items, if_neg hq, Nesting.queries, if_neg hq, List.length_append,
          ← List.range'_append_1, List.flatMap_cons, List.flatMap_append, List.flatMap_cons]
        exact (ih₁ hn lInner mInner hs.1).append (ih₂ (by omega) behind mRest hs.2)

theorem visits_extract {s : Settings} {t : Text} {e : Extraction}
    (hk : ¬(StatementType.detect s.dialect t).any StatementType.isInsertLike)
    (hm : ¬hashSub <:+: Piece.ofText s.dialect t) (h : extract s t = .ok e) :
    Visits s.dialect e.sets (marksOf s.dialect e.outer) (List.range' 1 e.subqueries.length) := by
  rcases extract_cases hk h with rfl | h
  · rw [marksOf, Token.ofText, marks_ofPieces hm]
    exact .nil
  · rw [takeOut_eq] at h
    split at h
    · cases h
      have pieces : (Nesting.ofText s.dialect t).pieces = Piece.ofText s.dialect t :=
        Nesting.pieces_ofPieces _
      rw [← pieces] at hm
      have lexed : Piece.Lexed s.dialect (Nesting.ofText s.dialect t).pieces :=
        pieces ▸ Piece.lexed_ofText _ _
      generalize Nesting.ofText s.dialect t = n at hm lexed
      have holds := holds_outerTexts [outerText 1 n] n.queries
      have walk := visits_items Nat.one_pos lexed hm holds
      rwa [← marksOf_outerText Nat.one_pos lexed hm holds, ← length_outerTexts 1] at walk
    · cases h

/-- The texts of an extraction have the markers of its subqueries, each once, and no others. A
marker leads to a text with a greater number, and the walk from the statement passes the
subqueries in the order of their numbers. -/
theorem numbered_extract {s : Settings} {t : Text} {e : Extraction}
    (hk : ¬(StatementType.detect s.dialect t).any StatementType.isInsertLike)
    (hm : ¬hashSub <:+: Piece.ofText s.dialect t) (h : extract s t = .ok e) :
    (e.sets.flatMap (marksOf s.dialect)).Perm
        ((List.range' 1 e.subqueries.length).map marker) ∧
      (∀ i u m, e.sets[i]? = some u → marker m ∈ marksOf s.dialect u → i < m) ∧
      Visits s.dialect e.sets (marksOf s.dialect e.outer)
        (List.range' 1 e.subqueries.length) := by
  have walk := visits_extract hk hm h
  refine ⟨?_, fun i u m hi hu => ?_, walk⟩
  · have texts : ((List.range' 1 e.subqueries.length).flatMap fun n =>
        marksOf s.dialect (e.sets[n]?.getD [])) = e.subqueries.flatMap (marksOf s.dialect) := by
      rw [List.flatMap_def, List.flatMap_def]
      refine congrArg _ (List.ext_getElem (by simp) fun i h₁ h₂ => ?_)
      have := List.length_map (marksOf s.dialect) ▸ h₂
      simp [Extraction.sets, Nat.add_comm 1, List.getElem?_eq_getElem this]
    have perm := walk.perm
    rwa [texts] at perm
  · cases i with
    | zero =>
        cases hi
        obtain ⟨k, hk, same⟩ := List.mem_map.mp (walk.subset hu)
        rw [← marker_injective same]
        exact (List.mem_range'_1.mp hk).1
    | succ i =>
        refine walk.lt_of_mem List.pairwise_lt_range' (List.mem_range'_1.mpr ⟨by omega, ?_⟩) hi hu
        have := (List.getElem?_eq_some_iff.mp hi).1
        simp only [Extraction.sets, List.length_cons] at this
        omega

theorem numbered_extract_nested :
    let texts := ["SELECT (#sub1), c FROM (#sub3) v", "SELECT '(#sub2)' FROM (#sub2) AS u",
      "SELECT 1", "SELECT 2"].map String.toList
    (texts.flatMap (marksOf .mysql)).Perm ((List.range' 1 3).map marker) ∧
      (∀ i u m, texts[i]? = some u → marker m ∈ marksOf .mysql u → i < m) ∧
      Visits .mysql texts (marksOf .mysql "SELECT (#sub1), c FROM (#sub3) v".toList)
        (List.range' 1 3) :=
  numbered_extract (s := {})
    (t := "SELECT (SELECT '(#sub2)' FROM (SELECT 1) AS u), c FROM (SELECT 2) v".toList)
    (e := { outer := "SELECT (#sub1), c FROM (#sub3) v".toList
            subqueries := ["SELECT '(#sub2)' FROM (#sub2) AS u".toList, "SELECT 1".toList,
              "SELECT 2".toList] })
    (by decide +kernel) (by decide +kernel) (by decide +kernel)

end Subquery
end SqlStatement
