import SqlStatement.Proofs.Masking
import SqlStatement.Subquery

/-!
# What an extraction takes out

A text is read as a list of items: pieces that stay, and subqueries with their
numbers, each with the parentheses around it. Showing an item down to some level of nesting
gives the texts between the statement with all markers and the statement as it
was. Extraction writes level zero of the statement, and level zero of every
subquery behind it, in the order of their numbers.
-/
namespace SqlStatement

/-- A piece of a text, or a subquery in its parentheses: its number and its content. -/
inductive Item where
  | plain (p : Piece)
  | query (number : Nat) (content : Nesting)
  deriving DecidableEq, Repr

namespace Nesting

/-- The contents of the subqueries at all depths, in the order of their numbers. -/
def queries : Nesting → List Nesting
  | done => []
  | piece _ rest => rest.queries
  | group inner rest =>
      if inner.startsQuery then inner :: (inner.queries ++ rest.queries)
      else inner.queries ++ rest.queries

theorem mem_queries_group {inner rest content : Nesting} :
    content ∈ (group inner rest).queries ↔
      (inner.startsQuery = true ∧ content = inner) ∨ content ∈ inner.queries ∨
        content ∈ rest.queries := by
  rw [queries]
  split
  · simp [*]
  · simp [*]

/-- How many levels of subqueries there are. -/
def depth : Nesting → Nat
  | done => 0
  | piece _ rest => rest.depth
  | group inner rest =>
      if inner.startsQuery then max (inner.depth + 1) rest.depth else max inner.depth rest.depth

/-- The items of a nesting; `next` is the number of the first subquery. -/
def items : Nesting → Nat → List Item
  | done, _ => []
  | piece p rest, next => .plain p :: rest.items next
  | group inner rest, next =>
      if inner.startsQuery then
        .query next inner :: rest.items (next + 1 + inner.queries.length)
      else
        .plain (.char '(') ::
          (inner.items next ++ .plain (.char ')') :: rest.items (next + inner.queries.length))

end Nesting

/-- The pieces of an item that is shown down to a level. -/
def Item.pieces : Nat → Item → List Piece
  | _, plain p => [p]
  | 0, query number _ => .char '(' :: ((Subquery.marker number).map .char ++ [.char ')'])
  | level + 1, query number content =>
      .char '(' :: ((content.items (number + 1)).flatMap (pieces level) ++ [.char ')'])

@[simp] theorem Item.pieces_plain (level : Nat) (p : Piece) : pieces level (plain p) = [p] := by
  cases level <;> rfl

namespace Nesting

/-- The pieces of a nesting that is shown down to a level. -/
def shown (level next : Nat) (n : Nesting) : List Piece :=
  (n.items next).flatMap (Item.pieces level)

theorem shown_piece (level next : Nat) (p : Piece) (rest : Nesting) :
    shown level next (piece p rest) = p :: shown level next rest := by
  simp [shown, items]

theorem shown_query {inner : Nesting} (level next : Nat) (rest : Nesting)
    (h : inner.startsQuery = true) :
    shown level next (group inner rest) =
      Item.pieces level (.query next inner) ++
        shown level (next + 1 + inner.queries.length) rest := by
  simp [shown, items, h]

theorem shown_group {inner : Nesting} (level next : Nat) (rest : Nesting)
    (h : ¬inner.startsQuery = true) :
    shown level next (group inner rest) =
      .char '(' :: (shown level next inner ++
        .char ')' :: shown level (next + inner.queries.length) rest) := by
  simp [shown, items, h]

theorem depth_le_length_queries (n : Nesting) : n.depth ≤ n.queries.length := by
  induction n with
  | done => exact Nat.le_refl 0
  | piece p rest ih => exact ih
  | group inner rest ih₁ ih₂ =>
      simp only [depth, queries]
      split <;> simp only [List.length_cons, List.length_append] <;> omega

/-- Deep enough a level shows everything. -/
theorem shown_of_depth_le {n : Nesting} {level : Nat} (next : Nat) (h : n.depth ≤ level) :
    n.shown level next = n.pieces := by
  induction n generalizing level next with
  | done => rfl
  | piece p rest ih => rw [shown_piece, ih next h, pieces]
  | group inner rest ih₁ ih₂ =>
      simp only [depth] at h
      by_cases hq : inner.startsQuery = true
      · rw [if_pos hq] at h
        obtain ⟨below, rfl⟩ : ∃ below, level = below + 1 := ⟨level - 1, by omega⟩
        rw [shown_query _ _ _ hq, ih₂ _ (by omega), pieces]
        have := ih₁ (next + 1) (show inner.depth ≤ below by omega)
        rw [shown] at this
        rw [Item.pieces, this, List.cons_append, List.append_assoc, List.singleton_append]
      · rw [if_neg hq] at h
        rw [shown_group _ _ _ hq, ih₁ _ (by omega), ih₂ _ (by omega), pieces]

theorem isPlain_of_mem_marker {number : Nat} {c : Char} (h : c ∈ Subquery.marker number) :
    Piece.isPlain c = true := by
  simp only [Subquery.marker, List.mem_cons] at h
  rcases h with rfl | rfl | rfl | rfl | h
  · decide
  · decide
  · decide
  · decide
  · have digit := Nat.isDigit_of_mem_toDigits (by decide) (by decide) h
    simp only [Piece.isPlain, Bool.and_eq_true, bne_iff_ne]
    refine ⟨⟨⟨?_, ?_⟩, ?_⟩, ?_⟩ <;> rintro rfl <;> simp at digit

/-- Every level masks the whole. -/
theorem masks_shown (n : Nesting) (level next : Nat) :
    Piece.Masks n.pieces (n.shown level next) := by
  induction level generalizing n next with
  | zero =>
      induction n generalizing next with
      | done => exact .nil
      | piece p rest ih =>
          rw [shown_piece, pieces]
          exact .keep p (ih next)
      | group inner rest ih₁ ih₂ =>
          by_cases hq : inner.startsQuery = true
          · rw [shown_query _ _ _ hq, pieces, Item.pieces, List.cons_append, List.append_assoc,
              List.singleton_append]
            exact .mask _ (fun c hc => isPlain_of_mem_marker hc) (ih₂ _)
          · rw [shown_group _ _ _ hq, pieces]
            exact .keep _ ((ih₁ _).append (.keep _ (ih₂ _)))
  | succ level deeper =>
      induction n generalizing next with
      | done => exact .nil
      | piece p rest ih =>
          rw [shown_piece, pieces]
          exact .keep p (ih next)
      | group inner rest ih₁ ih₂ =>
          by_cases hq : inner.startsQuery = true
          · rw [shown_query _ _ _ hq, pieces, Item.pieces, List.cons_append, List.append_assoc,
              List.singleton_append]
            exact .keep _ ((deeper inner _).append (.keep _ (ih₂ _)))
          · rw [shown_group _ _ _ hq, pieces]
            exact .keep _ ((ih₁ _).append (.keep _ (ih₂ _)))

end Nesting

/-- Two steps behind each other give a result if each of them does. -/
theorem bind_both {α β γ : Type} {P Q : Prop} [Decidable P] [Decidable Q] (e : Error) (a : α)
    (b : α → β) (f : α → β → γ) :
    ((if P then .ok a else .error e : Except Error α) >>= fun a =>
      (if Q then .ok (b a) else .error e : Except Error β) >>= fun b => .ok (f a b)) =
        if P ∧ Q then .ok (f a (b a)) else .error e := by
  by_cases hp : P
  · by_cases hq : Q
    · rw [if_pos hp, if_pos ⟨hp, hq⟩]
      simp only [bind, Except.bind, if_pos hq]
    · rw [if_pos hp, if_neg fun both => hq both.2]
      simp only [bind, Except.bind, if_neg hq]
  · rw [if_neg hp, if_neg fun both => hp both.1]
    rfl

namespace Subquery

/-- The text of a nesting with markers in place of its subqueries. -/
def outerText (next : Nat) (n : Nesting) : Text := Piece.textOf (n.shown 0 next)

/-- The texts of subqueries with markers for the subqueries in them; `number` is the number of the
first. -/
def outerTexts : Nat → List Nesting → List Text
  | _, [] => []
  | number, n :: ns => outerText (number + 1) n :: outerTexts (number + 1) ns

@[simp] theorem length_outerTexts (number : Nat) (ns : List Nesting) :
    (outerTexts number ns).length = ns.length := by
  induction ns generalizing number with
  | nil => rfl
  | cons n ns ih => rw [outerTexts, List.length_cons, List.length_cons, ih]

theorem outerTexts_append (number : Nat) (ns ms : List Nesting) :
    outerTexts number (ns ++ ms) =
      outerTexts number ns ++ outerTexts (number + ns.length) ms := by
  induction ns generalizing number with
  | nil => rfl
  | cons n ns ih =>
      rw [List.cons_append, outerTexts, outerTexts, ih, List.length_cons, List.cons_append]
      congr 3
      omega

/-- An extraction fails only where subqueries nest too deeply. -/
theorem takeOut_eq (limit : Nat) (n : Nesting) (room next : Nat) :
    takeOut limit n room next =
      if n.depth ≤ room then
        .ok { outer := outerText next n, subqueries := outerTexts next n.queries }
      else .error (.nestingTooDeep limit) := by
  induction n generalizing room next with
  | done => rfl
  | piece p rest ih =>
      rw [takeOut, ih, show (Nesting.piece p rest).depth = rest.depth from rfl]
      by_cases hr : rest.depth ≤ room
      · simp only [if_pos hr, bind, Except.bind, pure, Except.pure, outerText,
          Nesting.shown_piece, Piece.textOf_cons, Nesting.queries]
      · rw [if_neg hr, if_neg hr]
        rfl
  | group inner rest ih₁ ih₂ =>
      by_cases hq : inner.startsQuery = true
      · simp only [takeOut, if_pos hq, Nesting.depth]
        cases room with
        | zero => simp
        | succ below =>
            simp only [ih₁, ih₂]
            refine (bind_both _ _ _ _).trans (if_congr (by omega) ?_ rfl)
            simp only [length_outerTexts, outerText, Nesting.shown_query _ _ _ hq, Nesting.queries,
              if_pos hq, Item.pieces, Piece.textOf_cons, Piece.textOf_append,
              Piece.textOf_map_char, Piece.text, List.nil_append, List.cons_append,
              List.append_assoc, outerTexts, outerTexts_append]
      · simp only [takeOut, if_neg hq, Nesting.depth, ih₁, ih₂]
        refine (bind_both _ _ _ _).trans (if_congr Nat.max_le.symm ?_ rfl)
        simp only [length_outerTexts, outerText, Nesting.shown_group _ _ _ hq, Nesting.queries,
          if_neg hq, Piece.textOf_cons, Piece.textOf_append, Piece.text, List.singleton_append,
          outerTexts_append]

end Subquery
end SqlStatement
