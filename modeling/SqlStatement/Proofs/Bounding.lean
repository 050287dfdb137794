import SqlStatement.Proofs.Grouping
import SqlStatement.Proofs.Pairing
import SqlStatement.Proofs.Widening
import SqlStatement.Reading.Tables

/-!
# Where a join condition ends

The condition of a join is read up to a comma, a word of join syntax or a
parenthesis without a partner. Literals and groups are passed as a whole. So a
balanced condition is read to its end if it has no comma and none of these words
outside of its literals and groups; a function that is called LEFT or RIGHT is
such a word. White characters at its ends make no difference.
-/
namespace SqlStatement
open Piece
variable {d : Dialect} {ps : List Piece}

namespace Text

theorem words_cons {c : Char} (hc : isWordChar c = false) (t : Text) : words (c :: t) = words t :=
  words_append_cons hc [] t

theorem words_of_word {w : Text} (some : w ≠ []) (hw : ∀ c ∈ w, isWordChar c = true) :
    words w = [w] := by
  have run : w.foldr words.attach (false, []) = (true, [w]) := by
    induction w with
    | nil => exact absurd rfl some
    | cons c w ih =>
        obtain ⟨hc, hw⟩ := List.forall_mem_cons.mp hw
        cases w with
        | nil => simp [words.attach, hc]
        | cons c' w => rw [List.foldr_cons, ih (by simp) hw, words.attach, if_pos hc]
  exact congrArg Prod.snd run

/-- A word in front of any other character is the first word. -/
theorem words_word_append {w t : Text} (some : w ≠ []) (hw : ∀ c ∈ w, isWordChar c = true)
    (ht : ∀ c ∈ t.head?, isWordChar c = false) : words (w ++ t) = w :: words t := by
  cases t with
  | nil => rw [List.append_nil, words_of_word some hw]; rfl
  | cons c t =>
      have edge := ht c rfl
      rw [words_append_cons edge, words_of_word some hw, words_cons edge]
      rfl

section Ends
variable {p : Char → Bool}

/-- What satisfies the condition is taken up to the first character that does not. -/
theorem takeWhile_dropWhile_append {t u : Text} (ht : ∀ c ∈ t, p c = true)
    (hu : ∀ c ∈ u.head?, p c = false) : (t ++ u).takeWhile p = t ∧ (t ++ u).dropWhile p = u := by
  rw [List.takeWhile_append_of_pos ht, List.dropWhile_append_of_pos ht]
  cases u with
  | nil => simp
  | cons c u => simp [hu c rfl]

/-- What is dropped at the end satisfies the condition. -/
theorem exists_dropEndWhile (p : Char → Bool) (t : Text) :
    ∃ b, (∀ c ∈ b, p c = true) ∧ t = dropEndWhile p t ++ b :=
  ⟨t.rtakeWhile p, fun _ hc => List.mem_rtakeWhile_imp hc,
    List.rdropWhile_append_rtakeWhile.symm⟩

theorem dropEndWhile_append_of_pos (t : Text) {u : Text} (hu : ∀ c ∈ u, p c = true) :
    dropEndWhile p (t ++ u) = dropEndWhile p t := by
  rw [dropEndWhile, List.reverse_append, List.dropWhile_append_of_pos (by simpa using hu)]
  rfl

theorem dropEndWhile_append (t : Text) {u : Text} (hu : dropEndWhile p u ≠ []) :
    dropEndWhile p (t ++ u) = t ++ dropEndWhile p u := by
  have some : (u.reverse.dropWhile p).isEmpty = false := by simpa [dropEndWhile] using hu
  simp [dropEndWhile, List.dropWhile_append, some]

end Ends

end Text

namespace TableRef

/-- A word is read as a whole, or it ends the condition. -/
theorem conditionText_word_append {w t : Text} (some : w ≠ [])
    (hw : ∀ c ∈ w, Text.isWordChar c = true) (ht : ∀ c ∈ t.head?, Text.isWordChar c = false) :
    conditionText d (w ++ t) =
      if Text.isAnyKeyword d.joinWords w then [] else w ++ conditionText d t := by
  obtain ⟨c, w, rfl⟩ := List.exists_cons_of_ne_nil some
  have hc := hw c (by simp)
  obtain ⟨front, behind⟩ := Text.takeWhile_dropWhile_append hw ht
  rw [List.cons_append, List.takeWhile_cons_of_pos hc] at front
  rw [List.cons_append, List.dropWhile_cons_of_pos hc] at behind
  have next : next? d (c :: (w ++ t)) = .some (.char c, w ++ t) := by
    simp [next?, Dialect.isQuote_of_isWordChar hc]
  rw [List.cons_append, conditionText]
  split <;> rename_i h <;> cases next.symm.trans h
  rw [if_pos hc, front, behind]

theorem conditionText_nil : conditionText d [] = [] := by
  rw [conditionText]
  split <;> rename_i h <;> first | rfl | cases h

theorem conditionText_literal {lit : Text} (h : Lexed d (.literal lit :: ps)) :
    conditionText d (textOf (.literal lit :: ps)) = lit ++ conditionText d (textOf ps) := by
  have next := h.next?_textOf
  rw [conditionText]
  split <;> rename_i h <;> cases next.symm.trans h
  rfl

theorem conditionText_char {c : Char} (t : Text) (quote : d.isQuote c = false)
    (word : Text.isWordChar c = false) (ordinary : (Piece.char c).isOrdinary = true)
    (comma : c ≠ ',') : conditionText d (c :: t) = c :: conditionText d t := by
  have next : next? d (c :: t) = some (.char c, t) := by simp [next?, quote]
  simp only [isOrdinary, Bool.and_eq_true, bne_iff_ne] at ordinary
  rw [conditionText]
  split <;> rename_i h <;> cases next.symm.trans h
  simp [word, comma, ordinary.1, ordinary.2]

theorem conditionText_group {inner : Nesting} (closed : inner.Closed)
    (h : Lexed d (.char '(' :: (inner.pieces ++ .char ')' :: ps))) :
    conditionText d (textOf (.char '(' :: (inner.pieces ++ .char ')' :: ps))) =
      '(' :: (inner.text ++ ')' :: conditionText d (textOf ps)) := by
  have next := h.next?_textOf
  have group := Dialect.group?_pieces closed h
  rw [conditionText]
  split <;> rename_i h <;> cases next.symm.trans h
  rw [if_neg (by decide), if_neg (by decide), if_pos rfl]
  split <;> rename_i h <;> cases group.symm.trans h
  rfl

end TableRef

namespace Nesting

theorem ofText_nil (d : Dialect) : ofText d [] = done := by
  rw [ofText, Piece.ofText_nil]
  rfl

/-- A closed nesting begins with a word, which may be empty. -/
theorem exists_word {n : Nesting} (closed : n.Closed) :
    ∃ (w : Text) (m : Nesting), (∀ c ∈ w, Text.isWordChar c = true) ∧ m.Closed ∧
      n.pieces = w.map .char ++ m.pieces ∧ n.outside = w ++ m.outside ∧
      (∀ c ∈ m.outside.head?, Text.isWordChar c = false) ∧
      ∀ c, m.pieces.head? = some (.char c) → Text.isWordChar c = false := by
  induction n with
  | done => exact ⟨[], done, by simp, trivial, rfl, rfl, by simp [outside], by simp [pieces]⟩
  | group inner rest =>
      exact ⟨[], group inner rest, by simp, closed, rfl, rfl, by simp [outside]; decide,
        by simp [pieces]; decide⟩
  | piece p rest ih =>
      cases p with
      | stray q => exact absurd closed.1 Bool.false_ne_true
      | literal t =>
          exact ⟨[], piece (.literal t) rest, by simp, closed, rfl, rfl, by simp [outside]; decide,
            by simp [pieces]⟩
      | char c =>
          by_cases hc : Text.isWordChar c = true
          · obtain ⟨w, m, hw, hm, pieces, outside, rest⟩ := ih closed.2
            exact ⟨c :: w, m, List.forall_mem_cons.mpr ⟨hc, hw⟩, hm,
              by simp [Nesting.pieces, pieces], by simp [Nesting.outside, outside], rest⟩
          · have edge : Text.isWordChar c = false := by simpa using hc
            exact ⟨[], piece (.char c) rest, by simp, closed, rfl, rfl,
              by simpa [outside] using edge, by simpa [pieces] using edge⟩

/-- Nothing outside of the literals and groups ends a join condition. -/
structure Unbroken (d : Dialect) (n : Nesting) : Prop where
  comma : ',' ∉ n.outside
  words : ∀ w ∈ Text.words n.outside, Text.isAnyKeyword d.joinWords w = false

instance (d : Dialect) (n : Nesting) : Decidable (n.Unbroken d) :=
  decidable_of_iff
    (',' ∉ n.outside ∧ ∀ w ∈ Text.words n.outside, Text.isAnyKeyword d.joinWords w = false)
    ⟨fun ⟨comma, words⟩ => ⟨comma, words⟩, fun h => ⟨h.comma, h.words⟩⟩

theorem Unbroken.of_cons {n m : Nesting} {c : Char} (h : n.Unbroken d)
    (ho : n.outside = c :: m.outside) (hc : Text.isWordChar c = false) : m.Unbroken d := by
  refine ⟨fun hm => h.comma (by simp [ho, hm]), fun w hw => h.words w ?_⟩
  rwa [ho, Text.words_cons hc]

/-- Where no character of a word comes next, the text goes on with none. -/
theorem head?_textOf_append {n : Nesting} (lexed : Lexed d (n.pieces ++ ps))
    (first : ∀ c, n.pieces.head? = some (.char c) → Text.isWordChar c = false)
    (edge : ∀ c, ps.head? = some (.char c) → Text.isWordChar c = false) :
    ∀ c ∈ (textOf (n.pieces ++ ps)).head?, Text.isWordChar c = false := by
  have next : ∀ c, (n.pieces ++ ps).head? = some (.char c) → Text.isWordChar c = false := by
    intro c hc
    rw [List.head?_append] at hc
    cases hn : n.pieces.head? with
    | none => exact edge c (by simpa [hn] using hc)
    | some p => exact first c (by simpa [hn] using hc)
  have quote {q : Char} (hq : d.isQuote q = true) : Text.isWordChar q = false := by
    by_contra word
    rw [Dialect.isQuote_of_isWordChar (by simpa using word)] at hq
    cases hq
  intro c hc
  generalize n.pieces ++ ps = qs at lexed next hc
  cases lexed with
  | nil => simp at hc
  | char _ _ =>
      cases hc
      exact next c rfl
  | literal hl _ =>
      obtain ⟨q, body, rfl, hq⟩ := Dialect.literal?_quote hl
      cases hc
      exact quote hq
  | stray hq _ _ =>
      cases hc
      exact quote hq

theorem Unbroken.of_word {n m : Nesting} {w : Text} (h : n.Unbroken d)
    (ho : n.outside = w ++ m.outside) (some : w ≠ []) (hw : ∀ c ∈ w, Text.isWordChar c = true)
    (front : ∀ c ∈ m.outside.head?, Text.isWordChar c = false) :
    Text.isAnyKeyword d.joinWords w = false ∧ m.Unbroken d := by
  have words : Text.words n.outside = w :: Text.words m.outside := by
    rw [ho, Text.words_word_append some hw front]
  refine ⟨h.words w (by simp [words]), fun hm => h.comma (by simp [ho, hm]), fun v hv => ?_⟩
  exact h.words v (by simp [words, hv])

/-- A closed nesting without breaks is read to its end, and on from there. -/
theorem conditionText_pieces {n : Nesting} (closed : n.Closed) (unbroken : n.Unbroken d)
    (lexed : Lexed d (n.pieces ++ ps))
    (edge : ∀ c, ps.head? = some (.char c) → Text.isWordChar c = false) :
    TableRef.conditionText d (textOf (n.pieces ++ ps)) =
      n.text ++ TableRef.conditionText d (textOf ps) := by
  -- Words are read as a whole, so the induction is on the number of pieces.
  induction hlen : n.pieces.length using Nat.strong_induction_on generalizing n with
  | _ k ih =>
    cases n with
    | done => rfl
    | group inner rest =>
        have behind : rest.Unbroken d := (unbroken.of_cons (m := piece (.char ')') rest) rfl
          (by decide)).of_cons rfl (by decide)
        rw [pieces, List.cons_append, List.append_assoc, List.cons_append] at lexed ⊢
        rw [TableRef.conditionText_group closed.1 lexed, ih rest.pieces.length
          (by simp [← hlen, pieces]; omega) closed.2 behind lexed.of_cons.right.of_cons rfl]
        simp [text, pieces, Piece.text]
    | piece p rest =>
        cases p with
        | stray q => exact absurd closed.1 Bool.false_ne_true
        | literal t =>
            have behind : rest.Unbroken d := (unbroken.of_cons (m := piece (.char '\'') rest) rfl
              (by decide)).of_cons rfl (by decide)
            rw [pieces, List.cons_append] at lexed ⊢
            rw [TableRef.conditionText_literal lexed, ih rest.pieces.length
              (by simp [← hlen, pieces]) closed.2 behind lexed.of_cons rfl]
            simp [text, pieces, Piece.text]
        | char c =>
            by_cases hc : Text.isWordChar c = true
            · obtain ⟨w, m, hw, hm, split, outside, front, first⟩ :=
                exists_word (n := piece (.char c) rest) closed
              obtain ⟨w, rfl⟩ : ∃ w', w = c :: w' := by
                cases w with
                | nil =>
                    have none := first c (by simp [← show pieces _ = m.pieces from split, pieces])
                    rw [hc] at none
                    cases none
                | cons c' w =>
                    rw [pieces, List.map_cons, List.cons_append, List.cons.injEq,
                      Piece.char.injEq] at split
                    exact ⟨w, by rw [split.1]⟩
              obtain ⟨keyword, behind⟩ := unbroken.of_word outside (by simp) hw front
              have shorter : m.pieces.length < k := by
                rw [← hlen, split, List.length_append, List.length_map, List.length_cons]
                omega
              rw [split, List.append_assoc] at lexed ⊢
              rw [textOf_append, textOf_map_char, TableRef.conditionText_word_append (by simp) hw
                (head?_textOf_append lexed.right first edge), if_neg (by simp [keyword]),
                ih m.pieces.length shorter hm behind lexed.right rfl,
                text, text, split, textOf_append, textOf_map_char, List.append_assoc]
            · have word : Text.isWordChar c = false := by simpa using hc
              have comma : c ≠ ',' := fun h => unbroken.comma (by simp [outside, h])
              rw [pieces, List.cons_append] at lexed ⊢
              have quote : d.isQuote c = false := by
                cases lexed with
                | char quote _ => exact quote
              rw [textOf_cons, Piece.text, List.singleton_append,
                TableRef.conditionText_char _ quote word closed.1 comma, ih rest.pieces.length
                (by simp [← hlen, pieces]) closed.2 (unbroken.of_cons rfl word) lexed.of_cons rfl]
              simp [text, pieces, Piece.text]

end Nesting

/-- A condition that is read to its end behind ON: it is balanced, has no comma and no join syntax
outside of its literals and groups, and is not blank. -/
structure Dialect.IsJoinCondition (d : Dialect) (t : Text) : Prop where
  balanced : d.isBalanced t = true
  unbroken : (Nesting.ofText d t).Unbroken d
  filled : Text.trim t ≠ []

instance (d : Dialect) (t : Text) : Decidable (d.IsJoinCondition t) :=
  decidable_of_iff
    (d.isBalanced t = true ∧ (Nesting.ofText d t).Unbroken d ∧ Text.trim t ≠ [])
    ⟨fun ⟨balanced, unbroken, filled⟩ => ⟨balanced, unbroken, filled⟩,
      fun h => ⟨h.balanced, h.unbroken, h.filled⟩⟩

namespace Dialect.IsJoinCondition
variable {t u : Text}

/-- The condition is read to its end if neither a word nor a literal goes on behind it. -/
theorem conditionText_append (h : d.IsJoinCondition t)
    (edge : ∀ c ∈ u.head?, Text.isWordChar c = false ∧ d.isQuote c = false) :
    TableRef.conditionText d (t ++ u) = t ++ TableRef.conditionText d u := by
  have pieces : (Nesting.ofText d t).pieces = Piece.ofText d t := Nesting.pieces_ofPieces _
  have lexed : Lexed d (Piece.ofText d t ++ Piece.ofText d u) := by
    refine (Piece.lexed_ofText d t).append (Piece.lexed_ofText d u)
      (Dialect.closed_of_isBalanced h.balanced) fun c hc => ?_
    rw [textOf_ofText] at hc
    exact (edge c hc).2
  have next : ∀ c, (Piece.ofText d u).head? = some (.char c) → Text.isWordChar c = false := by
    intro c hc
    obtain ⟨rest, hr⟩ := List.head?_eq_some_iff.mp hc
    have text := textOf_ofText d u
    rw [hr] at text
    exact (edge c (by rw [← text]; rfl)).1
  have read := Nesting.conditionText_pieces (Nesting.closed_ofText h.balanced) h.unbroken
    (pieces ▸ lexed) next
  rwa [textOf_append, ← Nesting.text, Nesting.text_ofText, textOf_ofText] at read

variable {c : Char}

theorem ne_nil (h : d.IsJoinCondition t) : t ≠ [] := by
  rintro rfl
  exact h.filled rfl

theorem of_cons (h : d.IsJoinCondition (c :: t)) (hc : Text.isWhite c = true) :
    d.IsJoinCondition t := by
  have separates := Dialect.isSeparator_of_isWhite (d := d) hc
  have nested := Nesting.ofText_append_char (u := t) (Dialect.closed_of_forall (t := []) (by simp))
    (.inl Dialect.isBalanced_nil) separates.2.1 separates.2.2
  rw [Nesting.ofText_nil] at nested
  refine ⟨(Dialect.isBalanced_cons_iff separates).mp h.balanced,
    h.unbroken.of_cons (c := c) (congrArg Nesting.outside nested) separates.1, fun blank => ?_⟩
  refine h.filled (Text.trim_eq_nil_iff.mpr (List.forall_mem_cons.mpr ⟨hc, ?_⟩))
  exact Text.trim_eq_nil_iff.mp blank

/-- The last character of a condition is no comma that could be dropped. -/
theorem of_concat (h : d.IsJoinCondition (t ++ [c])) (hc : Text.isWhite c = true ∨ c = ',') :
    d.IsJoinCondition t := by
  have separates : d.IsSeparator c := by
    rcases hc with white | rfl
    · exact Dialect.isSeparator_of_isWhite white
    · exact ⟨by decide, by cases d <;> decide, by decide⟩
  have balanced := Dialect.isBalanced_of_append h.balanced separates
  have nested := Nesting.ofText_append_char (u := []) (Dialect.closed_of_isBalanced balanced)
    (.inl balanced) separates.2.1 separates.2.2
  have outside : (Nesting.ofText d (t ++ [c])).outside = (Nesting.ofText d t).outside ++ [c] := by
    rw [nested, Nesting.outside_append, Nesting.ofText_nil]
    rfl
  have white : Text.isWhite c = true :=
    hc.resolve_right fun comma => h.unbroken.comma (outside ▸ by simp [comma])
  refine ⟨balanced, ⟨fun hm => h.unbroken.comma (by simp [outside, hm]), fun w hw => ?_⟩,
    fun blank => h.filled (Text.trim_eq_nil_iff.mpr (List.forall_mem_append.mpr
      ⟨Text.trim_eq_nil_iff.mp blank, by simpa using white⟩))⟩
  exact h.unbroken.words w (by rw [outside, Text.words_append_cons separates.1]; simp [hw])

theorem dropWhile {p : Char → Bool} (h : d.IsJoinCondition t)
    (hp : ∀ c, p c = true → Text.isWhite c = true) : d.IsJoinCondition (t.dropWhile p) := by
  induction t with
  | nil => exact h
  | cons c t ih =>
      by_cases hc : p c = true
      · rw [List.dropWhile_cons_of_pos hc]
        exact ih (h.of_cons (hp c hc))
      · rwa [List.dropWhile_cons_of_neg hc]

theorem dropEndWhile {p : Char → Bool} (h : d.IsJoinCondition t)
    (hp : ∀ c, p c = true → Text.isWhite c = true ∨ c = ',') :
    d.IsJoinCondition (Text.dropEndWhile p t) := by
  change d.IsJoinCondition (t.rdropWhile p)
  induction t using List.reverseRecOn with
  | nil => exact h
  | append_singleton t c ih =>
      by_cases hc : p c = true
      · rw [List.rdropWhile_concat_pos _ _ _ hc]
        exact ih (h.of_concat (hp c hc))
      · rwa [List.rdropWhile_concat_neg _ _ _ hc]

end Dialect.IsJoinCondition
end SqlStatement
