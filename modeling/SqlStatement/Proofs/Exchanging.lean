import SqlStatement.Proofs.Filling
import SqlStatement.Proofs.Composing

/-!
# Other texts in place of subqueries

Some subqueries of a statement are exchanged for texts of their own, and those
inside them are gone. Injection writes the statement with the texts in place if
they are stored under the numbers of the subqueries: whatever stays finds its
partner as before, since the texts close their literals and have no markers.
-/
namespace SqlStatement

namespace Nesting
variable {d : Dialect}

/-- The text of a nesting with other texts for some of its subqueries, whose numbers go from `next`
on. -/
def textWith (texts : Nat → Option Text) : Nesting → Nat → Text
  | done, _ => []
  | piece p rest, next => p.text ++ rest.textWith texts next
  | group inner rest, next =>
      if inner.startsQuery then
        '(' :: ((texts next).getD (inner.textWith texts (next + 1)) ++
          ')' :: rest.textWith texts (next + 1 + inner.queries.length))
      else
        '(' :: (inner.textWith texts next ++
          ')' :: rest.textWith texts (next + inner.queries.length))

/-- The subqueries with their numbers, which go from `next` on. -/
def numbered (n : Nesting) (next : Nat) : List (Nesting × Nat) := n.queries.zipIdx next

theorem numbered_query {inner : Nesting} (rest : Nesting) (next : Nat)
    (h : inner.startsQuery = true) :
    (group inner rest).numbered next =
      (inner, next) :: (inner.numbered (next + 1) ++
        rest.numbered (next + 1 + inner.queries.length)) := by
  rw [numbered, queries, if_pos h, List.zipIdx_cons, List.zipIdx_append]
  rfl

theorem numbered_group {inner : Nesting} (rest : Nesting) (next : Nat)
    (h : ¬inner.startsQuery = true) :
    (group inner rest).numbered next =
      inner.numbered next ++ rest.numbered (next + inner.queries.length) := by
  rw [numbered, queries, if_neg h, List.zipIdx_append]
  rfl

/-- Texts that stand in the subqueries anyway may be put there or not. -/
theorem textWith_congr {texts texts' : Nat → Option Text} {n : Nesting} {next : Nat}
    (h : ∀ e ∈ n.numbered next, texts' e.2 = texts e.2 ∨
      (texts e.2 = none ∧ texts' e.2 = some (e.1.textWith texts (e.2 + 1)))) :
    n.textWith texts' next = n.textWith texts next := by
  induction n generalizing next with
  | done => rfl
  | piece p rest ih => rw [textWith, textWith, ih h]
  | group inner rest ih₁ ih₂ =>
      by_cases hq : inner.startsQuery = true
      · rw [numbered_query _ _ hq, List.forall_mem_cons, List.forall_mem_append] at h
        rw [textWith, textWith, if_pos hq, if_pos hq, ih₁ h.2.1, ih₂ h.2.2]
        rcases h.1 with same | ⟨absent, present⟩
        · rw [same]
        · rw [absent, present, Option.getD_some, Option.getD_none]
      · rw [numbered_group _ _ hq, List.forall_mem_append] at h
        rw [textWith, textWith, if_neg hq, if_neg hq, ih₁ h.1, ih₂ h.2]

/-- Without other texts the text is what it was. -/
theorem textWith_of_forall_none {texts : Nat → Option Text} {n : Nesting} {next : Nat}
    (h : ∀ e ∈ n.numbered next, texts e.2 = none) : n.textWith texts next = n.text := by
  induction n generalizing next with
  | done => rfl
  | piece p rest ih =>
      rw [textWith, ih h]
      rfl
  | group inner rest ih₁ ih₂ =>
      have opened : (group inner rest).text = '(' :: (inner.text ++ ')' :: rest.text) := by
        simp [text, pieces, Piece.text]
      by_cases hq : inner.startsQuery = true
      · rw [numbered_query _ _ hq, List.forall_mem_cons, List.forall_mem_append] at h
        rw [textWith, if_pos hq, h.1, ih₁ h.2.1, ih₂ h.2.2, opened, Option.getD_none]
      · rw [numbered_group _ _ hq, List.forall_mem_append] at h
        rw [textWith, if_neg hq, ih₁ h.1, ih₂ h.2, opened]

/-- The filling of a nesting in front of another: its subqueries are holes, with other texts for
some of them. -/
def filling (d : Dialect) (texts : Nat → Option Text) : Nesting → Nat → Filling → Filling
  | done, _, behind => behind
  | piece p rest, next, behind => .piece p (rest.filling d texts next behind)
  | group inner rest, next, behind =>
      if inner.startsQuery then
        .hole next
          (match texts next with
            | some t => .flat (Piece.ofText d t)
            | none => inner.filling d texts (next + 1) .done)
          (rest.filling d texts (next + 1 + inner.queries.length) behind)
      else
        .piece (.char '(') (inner.filling d texts next
          (.piece (.char ')') (rest.filling d texts (next + inner.queries.length) behind)))

theorem filling_query (texts : Nat → Option Text) {inner : Nesting} (rest : Nesting) (next : Nat)
    (behind : Filling) (h : inner.startsQuery = true) :
    (group inner rest).filling d texts next behind =
      .hole next
        (match texts next with
          | some t => .flat (Piece.ofText d t)
          | none => inner.filling d texts (next + 1) .done)
        (rest.filling d texts (next + 1 + inner.queries.length) behind) := by
  rw [filling, if_pos h]

theorem filling_group (texts : Nat → Option Text) {inner : Nesting} (rest : Nesting) (next : Nat)
    (behind : Filling) (h : ¬inner.startsQuery = true) :
    (group inner rest).filling d texts next behind =
      .piece (.char '(') (inner.filling d texts next
        (.piece (.char ')') (rest.filling d texts (next + inner.queries.length) behind))) := by
  rw [filling, if_neg h]

section Filling
variable {texts : Nat → Option Text}

/-- With markers in all holes nothing is seen of the texts. -/
theorem shown_filling (n : Nesting) (next : Nat) (behind : Filling) :
    (n.filling d texts next behind).shown 0 = n.shown 0 next ++ behind.shown 0 := by
  induction n generalizing next behind with
  | done => rfl
  | piece p rest ih => rw [filling, Filling.shown_piece, ih, shown_piece, List.cons_append]
  | group inner rest ih₁ ih₂ =>
      by_cases hq : inner.startsQuery = true
      · rw [filling_query _ _ _ _ hq, Filling.shown, ih₂, shown_query _ _ _ hq, Item.pieces]
        simp
      · rw [filling_group _ _ _ _ hq, Filling.shown_piece, ih₁, Filling.shown_piece, ih₂,
          shown_group _ _ _ hq]
        simp

theorem textOf_whole_filling (n : Nesting) (next : Nat) (behind : Filling) :
    Piece.textOf (n.filling d texts next behind).whole =
      n.textWith texts next ++ Piece.textOf behind.whole := by
  induction n generalizing next behind with
  | done => rfl
  | piece p rest ih =>
      rw [filling, Filling.whole, Piece.textOf_cons, ih, textWith, List.append_assoc]
  | group inner rest ih₁ ih₂ =>
      by_cases hq : inner.startsQuery = true
      · rw [filling_query _ _ _ _ hq, Filling.whole, textWith, if_pos hq]
        cases texts next with
        | none => simp [ih₁, ih₂, Filling.whole, Piece.text]
        | some t => simp [ih₂, Piece.text]
      · rw [filling_group _ _ _ _ hq, Filling.whole, textWith, if_neg hq]
        simp [ih₁, ih₂, Filling.whole, Piece.text]

theorem depth_filling (n : Nesting) (next : Nat) (behind : Filling) :
    (n.filling d texts next behind).depth ≤ max n.depth behind.depth := by
  induction n generalizing next behind with
  | done => exact Nat.le_max_right _ _
  | piece p rest ih => exact ih next behind
  | group inner rest ih₁ ih₂ =>
      by_cases hq : inner.startsQuery = true
      · rw [filling_query _ _ _ _ hq, Filling.depth, depth, if_pos hq]
        have more := ih₂ (next + 1 + inner.queries.length) behind
        cases texts next with
        | none =>
            have content := ih₁ (next + 1) .done
            simp only [Filling.depth] at content ⊢
            omega
        | some t =>
            simp only [Filling.depth_flat]
            omega
      · rw [filling_group _ _ _ _ hq, depth, if_neg hq]
        have content := ih₁ next
          (.piece (.char ')') (rest.filling d texts (next + inner.queries.length) behind))
        have more := ih₂ (next + inner.queries.length) behind
        simp only [Filling.depth] at content ⊢
        omega

/-- Every hole finds what it is filled with, if the texts are stored in place of subqueries. -/
theorem stored_filling {sets : List Text} {n : Nesting} {next : Nat} {behind : Filling}
    (hn : 0 < next)
    (hs : ∀ e ∈ n.numbered next,
      sets[e.2]? = some ((texts e.2).getD (Subquery.outerText (e.2 + 1) e.1)))
    (hb : behind.Stored sets) : (n.filling d texts next behind).Stored sets := by
  induction n generalizing next behind with
  | done => exact hb
  | piece p rest ih => exact ih hn hs hb
  | group inner rest ih₁ ih₂ =>
      by_cases hq : inner.startsQuery = true
      · rw [numbered_query _ _ hq, List.forall_mem_cons, List.forall_mem_append] at hs
        rw [filling_query _ _ _ _ hq]
        refine ⟨⟨hn, hs.1.trans ?_⟩, ?_, ih₂ (by omega) hs.2.2 hb⟩
        · cases texts next with
          | none => simp [shown_filling, Subquery.outerText]
          | some t => simp
        · cases texts next with
          | none => exact ih₁ (by omega) hs.2.1 trivial
          | some t => exact Filling.stored_flat sets _
      · rw [numbered_group _ _ hq, List.forall_mem_append] at hs
        rw [filling_group _ _ _ _ hq]
        exact ih₁ hn hs.1 (ih₂ (by omega) hs.2 hb)

end Filling

end Nesting

namespace Piece
variable {d : Dialect} {ps qs inner inner' : List Piece}

/-- Lexed and closed pieces without markers. -/
structure Clean (d : Dialect) (ps : List Piece) : Prop where
  lexed : Lexed d ps
  closed : ∀ p ∈ ps, p.isClosed = true
  unmarked : ¬Subquery.hashSub <:+: ps

/-- Clean pieces that begin like others. -/
structure Resembles (d : Dialect) (ps qs : List Piece) : Prop extends Clean d qs where
  head : (textOf qs).head? = (textOf ps).head?
  word : ∀ w : Text, (∀ c ∈ w, Text.isWordChar c = true) → w.map char <+: qs → w.map char <+: ps

theorem Clean.left (h : Clean d (ps ++ qs)) : Clean d ps := by
  have closed : ∀ p ∈ ps, p.isClosed = true := fun p hp => h.closed p (by simp [hp])
  exact ⟨h.lexed.left (.inl closed), closed, fun hi =>
    h.unmarked (hi.trans (List.prefix_append ps qs).isInfix)⟩

theorem Clean.right (h : Clean d (ps ++ qs)) : Clean d qs :=
  ⟨h.lexed.right, fun p hp => h.closed p (by simp [hp]),
    fun hi => h.unmarked (hi.trans (List.suffix_append ps qs).isInfix)⟩

theorem Clean.of_cons {p : Piece} (h : Clean d (p :: ps)) : Clean d ps := by
  have whole : Clean d ([p] ++ ps) := h
  exact whole.right

namespace Resembles

theorem nil : Resembles d [] [] where
  lexed := .nil
  closed := by simp
  unmarked := by decide
  head := rfl
  word := fun _ _ h => h

theorem piece {p : Piece} (h : Resembles d ps qs) (hp : Clean d (p :: ps)) :
    Resembles d (p :: ps) (p :: qs) where
  lexed := by
    obtain ⟨lexed, closed, -⟩ := hp
    cases lexed with
    | char hq _ => exact .char hq h.lexed
    | literal hl _ =>
        exact .literal (Dialect.literal?_swap _ hl fun c hc _ _ => .inl (h.head ▸ hc)) h.lexed
    | stray => simp [isClosed] at closed
  closed := List.forall_mem_cons.mpr ⟨hp.closed p List.mem_cons_self, h.closed⟩
  unmarked := by
    intro hi
    rcases List.infix_cons_iff.mp hi with begun | hi
    · obtain ⟨rfl, sub⟩ := List.cons_prefix_cons.mp begun
      exact hp.unmarked (List.IsPrefix.isInfix (List.cons_prefix_cons.mpr
        ⟨rfl, h.word _ Subquery.isWordChar_sub sub⟩))
    · exact h.unmarked hi
  head := by rw [textOf_cons, textOf_cons, List.head?_append, List.head?_append, h.head]
  word := by
    intro w hw hp
    cases w with
    | nil => exact List.nil_prefix
    | cons c w =>
        rw [List.map_cons, List.cons_prefix_cons] at hp ⊢
        exact ⟨hp.1, h.word w (fun c hc => hw c (by simp [hc])) hp.2⟩

/-- The content of a group does not matter for what stands around it. -/
theorem group (inner : List Piece) (h : Resembles d ps qs) (hi : Clean d inner') :
    Resembles d (.char '(' :: (inner ++ .char ')' :: ps))
      (.char '(' :: (inner' ++ .char ')' :: qs)) where
  lexed := by
    refine .char (isQuote_of_isPlain (by decide)) (hi.lexed.append ?_ hi.closed ?_)
    · exact .char (isQuote_of_isPlain (by decide)) h.lexed
    · rintro c ⟨⟩
      exact isQuote_of_isPlain (by decide)
  closed := by
    intro q hq
    simp only [List.mem_cons, List.mem_append] at hq
    rcases hq with rfl | hq | rfl | hq
    · rfl
    · exact hi.closed q hq
    · rfl
    · exact h.closed q hq
  unmarked := (not_infix_append_cons (by decide) (by decide)
    (not_infix_append_cons (by decide) hi.unmarked h.unmarked) : ¬_ <:+: [] ++ _ :: _)
  head := rfl
  word := by
    intro w hw hp
    cases w with
    | nil => exact List.nil_prefix
    | cons c w =>
        cases (List.cons_prefix_cons.mp hp).1
        exact absurd (hw '(' (by simp)) (by decide)

end Resembles
end Piece

namespace Nesting
variable {d : Dialect} {texts : Nat → Option Text}

/-- With clean texts the whole is clean and begins as before. -/
theorem resembles_filling
    (ht : ∀ number t, texts number = some t → Piece.Clean d (Piece.ofText d t)) {n : Nesting}
    {next : Nat} {behind : Filling} {ps : List Piece} (hb : Piece.Resembles d ps behind.whole)
    (hn : Piece.Clean d (n.pieces ++ ps)) :
    Piece.Resembles d (n.pieces ++ ps) (n.filling d texts next behind).whole := by
  induction n generalizing next behind ps with
  | done => exact hb
  | piece p rest ih => exact (ih hb hn.of_cons).piece hn
  | group inner rest ih₁ ih₂ =>
      have shape : (group inner rest).pieces ++ ps =
          .char '(' :: (inner.pieces ++ .char ')' :: (rest.pieces ++ ps)) := by simp [pieces]
      rw [shape] at hn ⊢
      have inside : Piece.Clean d (inner.pieces ++ .char ')' :: (rest.pieces ++ ps)) :=
        hn.of_cons
      have closing : Piece.Clean d (.char ')' :: (rest.pieces ++ ps)) := inside.right
      have more (next : Nat) : Piece.Resembles d (rest.pieces ++ ps)
          (rest.filling d texts next behind).whole := ih₂ hb closing.of_cons
      by_cases hq : inner.startsQuery = true
      · rw [filling_query _ _ _ _ hq]
        refine (more _).group _ ?_
        cases h : texts next with
        | some t =>
            rw [Filling.whole_flat]
            exact ht next t h
        | none =>
            have content : Piece.Resembles d (inner.pieces ++ [])
                (inner.filling d texts (next + 1) .done).whole :=
              ih₁ .nil (by simpa using inside.left)
            exact content.toClean
      · rw [filling_group _ _ _ _ hq]
        exact (ih₁ ((more _).piece closing) inside).piece hn

end Nesting

namespace Subquery
variable {d : Dialect} {sets : List Text} {texts : Nat → Option Text}

/-- Injection puts the stored texts in place of the subqueries and leaves the rest. -/
theorem injectInto_textWith
    (ht : ∀ number t, texts number = some t → Piece.Clean d (Piece.ofText d t)) {n : Nesting}
    {next : Nat} (hc : Piece.Clean d n.pieces) (hn : 0 < next)
    (hs : ∀ e ∈ n.numbered next, sets[e.2]? = some ((texts e.2).getD (outerText (e.2 + 1) e.1)))
    (hl : n.queries.length ≤ sets.length) :
    injectInto d sets (outerText next n) = n.textWith texts next := by
  have whole : Piece.Resembles d (n.pieces ++ []) (n.filling d texts next .done).whole :=
    Nesting.resembles_filling ht .nil (by simpa using hc)
  have deep : (n.filling d texts next .done).depth ≤ sets.length + 1 := by
    have levels : (n.filling d texts next .done).depth ≤ _ := n.depth_filling next .done
    have := n.depth_le_length_queries
    simp only [Filling.depth] at levels
    omega
  have filled :=
    fillAll_shown whole.lexed whole.unmarked (Nesting.stored_filling hn hs trivial) deep
  rw [Nesting.shown_filling, Nesting.textOf_whole_filling] at filled
  rw [injectInto, outerText]
  simpa [Filling.whole] using filled

end Subquery
end SqlStatement
