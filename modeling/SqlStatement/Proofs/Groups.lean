import Mathlib.Tactic.Common
import SqlStatement.Subquery

/-!
# Groups and the parentheses that make them

A parenthesis opens a group exactly if the pieces behind it close one more group
than they open before any unclosed quote. In the nesting of a text the contents
of groups are closed: they have neither unclosed quotes nor parentheses without
a partner. Reading closed pieces therefore only adds to what was read before.
-/
namespace SqlStatement

namespace Piece

/-- Whether pieces close a group that is open in front of them. `depth` counts the groups opened
since then. -/
def closes : Nat → List Piece → Bool
  | _, [] => false
  | depth, p :: ps =>
      match p.depthBehind? depth with
      | some depth => closes depth ps
      | none => p == .char ')'

theorem closes_of_depthBehind? {p : Piece} {depth depth' : Nat} (ps : List Piece)
    (h : p.depthBehind? depth = some depth') : closes depth (p :: ps) = closes depth' ps := by
  rw [closes, h]

/-- Whether a piece is no parenthesis and no unclosed quote. -/
def isOrdinary : Piece → Bool
  | .literal _ => true
  | .stray _ => false
  | .char c => c != '(' && c != ')'

theorem depthBehind?_of_isOrdinary {p : Piece} (depth : Nat) (h : p.isOrdinary = true) :
    p.depthBehind? depth = some depth := by
  cases p with
  | literal t => rfl
  | stray q => simp [isOrdinary] at h
  | char c =>
      simp only [isOrdinary, Bool.and_eq_true, bne_iff_ne] at h
      simp [depthBehind?, groupsBehind?, h.1, h.2]

/-- The pieces that are not ordinary. -/
theorem isOrdinary_or (p : Piece) :
    p.isOrdinary = true ∨ p = char '(' ∨ p = char ')' ∨ ∃ q, p = stray q := by
  cases p with
  | literal t => exact .inl rfl
  | stray q => exact .inr (.inr (.inr ⟨q, rfl⟩))
  | char c =>
      by_cases opens : c = '('
      · exact .inr (.inl (congrArg char opens))
      · by_cases closes : c = ')'
        · exact .inr (.inr (.inl (congrArg char closes)))
        · exact .inl (by simp [isOrdinary, opens, closes])

theorem isOrdinary_of_isWordChar {c : Char} (h : Text.isWordChar c = true) :
    (char c).isOrdinary = true := by
  obtain ordinary | opens | closes | ⟨q, stray⟩ := (char c).isOrdinary_or
  · exact ordinary
  · cases opens
    cases h
  · cases closes
    cases h
  · cases stray

theorem isOrdinary_of_isBlank {c : Char} (h : Text.isBlank c = true) :
    (char c).isOrdinary = true := by
  obtain ordinary | opens | closes | ⟨q, stray⟩ := (char c).isOrdinary_or
  · exact ordinary
  · cases opens
    cases h
  · cases closes
    cases h
  · cases stray

theorem foldlM_of_isOrdinary {ps : List Piece} (h : ∀ p ∈ ps, p.isOrdinary = true) (depth : Nat) :
    ps.foldlM depthBehind? depth = some depth := by
  induction ps with
  | nil => rfl
  | cons p ps ih =>
      obtain ⟨first, rest⟩ := List.forall_mem_cons.mp h
      rw [List.foldlM_cons, depthBehind?_of_isOrdinary depth first]
      exact ih rest

/-- A group whose content leaves as many groups open as there were. -/
theorem foldlM_group {ps : List Piece} (h : ∀ k, ps.foldlM depthBehind? k = some k)
    (qs : List Piece) (depth : Nat) :
    (char '(' :: (ps ++ char ')' :: qs)).foldlM depthBehind? depth =
      qs.foldlM depthBehind? depth := by
  have opened : (char '(').depthBehind? depth = some (depth + 1) := rfl
  have closed : (char ')').depthBehind? (depth + 1) = some depth := rfl
  rw [List.foldlM_cons, opened, Option.bind_eq_bind, Option.bind_some, List.foldlM_append, h,
    Option.bind_eq_bind, Option.bind_some, List.foldlM_cons, closed, Option.bind_eq_bind,
    Option.bind_some]

theorem closes_cons_of_isOrdinary {p : Piece} (depth : Nat) (ps : List Piece)
    (h : p.isOrdinary = true) : closes depth (p :: ps) = closes depth ps :=
  closes_of_depthBehind? ps (depthBehind?_of_isOrdinary depth h)

theorem closes_open (depth : Nat) (ps : List Piece) :
    closes depth (.char '(' :: ps) = closes (depth + 1) ps :=
  closes_of_depthBehind? ps rfl

theorem closes_close_zero (ps : List Piece) : closes 0 (.char ')' :: ps) = true := rfl

theorem closes_close_succ (depth : Nat) (ps : List Piece) :
    closes (depth + 1) (.char ')' :: ps) = closes depth ps :=
  closes_of_depthBehind? ps rfl

theorem closes_stray (depth : Nat) (q : Char) (ps : List Piece) :
    closes depth (.stray q :: ps) = false := rfl

/-- More groups to close are not closed earlier. -/
theorem closes_of_closes_succ {depth : Nat} {ps : List Piece} (h : closes (depth + 1) ps = true) :
    closes depth ps = true := by
  induction ps generalizing depth with
  | nil => simp [closes] at h
  | cons p ps ih =>
      obtain ho | rfl | rfl | ⟨q, rfl⟩ := p.isOrdinary_or
      · rw [closes_cons_of_isOrdinary _ _ ho] at h ⊢
        exact ih h
      · rw [closes_open] at h ⊢
        exact ih h
      · rw [closes_close_succ] at h
        cases depth with
        | zero => rfl
        | succ depth =>
            rw [closes_close_succ]
            exact ih h
      · rw [closes_stray] at h
        cases h

/-- What stands behind some pieces matters only for whether it closes groups. -/
theorem closes_append_congr {ps qs qs' : List Piece}
    (h : ∀ depth, closes depth qs = closes depth qs')
    (depth : Nat) : closes depth (ps ++ qs) = closes depth (ps ++ qs') := by
  induction ps generalizing depth with
  | nil => exact h depth
  | cons p ps ih =>
      rw [List.cons_append, List.cons_append, closes, closes]
      split
      · exact ih _
      · rfl

/-- Pieces are passed on the way to the end of a group. -/
theorem closes_append_of_foldlM {ps : List Piece} {depth depth' : Nat}
    (h : ps.foldlM depthBehind? depth = some depth') (qs : List Piece) :
    closes depth (ps ++ qs) = closes depth' qs := by
  induction ps generalizing depth with
  | nil =>
      cases h
      rfl
  | cons p ps ih =>
      rw [List.foldlM_cons, Option.bind_eq_bind, Option.bind_eq_some_iff] at h
      obtain ⟨between, first, h⟩ := h
      rw [List.cons_append, closes_of_depthBehind? _ first]
      exact ih h

end Piece

namespace Nesting

/-- No unclosed quote and no parenthesis without a partner. -/
def Closed : Nesting → Prop
  | done => True
  | piece p rest => p.isOrdinary = true ∧ rest.Closed
  | group inner rest => inner.Closed ∧ rest.Closed

/-- Groups have closed contents, and no closed group was left out. -/
def Sound : Nesting → Prop
  | done => True
  | piece p rest => (p = .char '(' → Piece.closes 0 rest.pieces = false) ∧ rest.Sound
  | group inner rest => inner.Closed ∧ rest.Sound

theorem Closed.append_sound {n m : Nesting} (hn : n.Closed) (hm : m.Sound) :
    (n.append m).Sound := by
  induction n with
  | done => exact hm
  | piece p rest ih =>
      refine ⟨?_, ih hn.2⟩
      rintro rfl
      exact absurd hn.1 (by decide)
  | group inner rest _ ih => exact ⟨hn.1, ih hn.2⟩

theorem Closed.sound {n : Nesting} (h : n.Closed) : n.Sound := by
  induction n with
  | done => trivial
  | piece p rest ih =>
      refine ⟨?_, ih h.2⟩
      rintro rfl
      exact absurd h.1 (by decide)
  | group inner rest _ ih => exact ⟨h.1, ih h.2⟩

/-- Closed nestings leave as many groups open as there were. -/
theorem Closed.foldlM_pieces {n : Nesting} (h : n.Closed) (k : Nat) :
    n.pieces.foldlM Piece.depthBehind? k = some k := by
  induction n generalizing k with
  | done => rfl
  | piece p rest ih =>
      rw [pieces, List.foldlM_cons, Piece.depthBehind?_of_isOrdinary k h.1]
      exact ih h.2 k
  | group inner rest ih₁ ih₂ =>
      rw [pieces, Piece.foldlM_group (ih₁ h.1)]
      exact ih₂ h.2 k

/-- Closed pieces close nothing that is open around them. -/
theorem Closed.closes_append {n : Nesting} (h : n.Closed) (depth : Nat) (ps : List Piece) :
    Piece.closes depth (n.pieces ++ ps) = Piece.closes depth ps :=
  Piece.closes_append_of_foldlM (h.foldlM_pieces depth) ps

theorem append_assoc (n m o : Nesting) : (n.append m).append o = n.append (m.append o) := by
  induction n with
  | done => rfl
  | piece p rest ih => simp only [append, ih]
  | group inner rest _ ih => simp only [append, ih]

theorem append_done (n : Nesting) : n.append done = n := by
  induction n with
  | done => rfl
  | piece p rest ih => rw [append, ih]
  | group inner rest _ ih => rw [append, ih]

theorem push_of_isOrdinary {p : Piece} (hp : p.isOrdinary = true) (current : Nesting)
    (outers : List Nesting) : push p (current, outers) = (piece p current, outers) := by
  cases p with
  | literal t => rfl
  | stray q => simp [Piece.isOrdinary] at hp
  | char c =>
      simp only [Piece.isOrdinary, Bool.and_eq_true, bne_iff_ne] at hp
      simp [push, hp.1, hp.2]

/-- Reading closed pieces adds their nesting to the current one. -/
theorem Closed.foldr_push {n : Nesting} (h : n.Closed) (current : Nesting)
    (outers : List Nesting) :
    n.pieces.foldr push (current, outers) = (n.append current, outers) := by
  induction n generalizing current outers with
  | done => rfl
  | piece p rest ih =>
      rw [pieces, List.foldr_cons, ih h.2, push_of_isOrdinary h.1]
      rfl
  | group inner rest ih₁ ih₂ =>
      rw [pieces, List.foldr_cons, List.foldr_append, List.foldr_cons, ih₂ h.2]
      have closing : push (.char ')') (rest.append current, outers) =
          (done, rest.append current :: outers) := rfl
      rw [closing, ih₁ h.1, append_done]
      rfl

theorem Closed.ofPieces_pieces {n : Nesting} (h : n.Closed) : ofPieces n.pieces = n := by
  rw [ofPieces, h.foldr_push]
  exact append_done n

/-- What has been read from the right: closed nestings up to the last, which is sound and closes
nothing. -/
def Settled : Nesting → List Nesting → Prop
  | current, [] => current.Sound ∧ Piece.closes 0 current.pieces = false
  | current, outer :: outers => current.Closed ∧ Settled outer outers

theorem Settled.sound {current : Nesting} {outers : List Nesting} (h : Settled current outers) :
    (flatten current outers).Sound := by
  induction outers generalizing current with
  | nil => exact h.1
  | cons outer outers ih =>
      refine h.1.append_sound ⟨?_, ih h.2⟩
      intro hp
      simp at hp

theorem Settled.push {p : Piece} {current : Nesting} {outers : List Nesting}
    (h : Settled current outers) :
    Settled (push p (current, outers)).1 (push p (current, outers)).2 := by
  obtain ho | rfl | rfl | ⟨q, rfl⟩ := p.isOrdinary_or
  · rw [push_of_isOrdinary ho]
    cases outers with
    | nil =>
        refine ⟨⟨?_, h.1⟩, ?_⟩
        · rintro rfl
          exact absurd ho (by decide)
        · rw [pieces, Piece.closes_cons_of_isOrdinary _ _ ho]
          exact h.2
    | cons outer outers => exact ⟨⟨ho, h.1⟩, h.2⟩
  · cases outers with
    | nil =>
        refine ⟨⟨fun _ => h.2, h.1⟩, ?_⟩
        change Piece.closes 0 (.char '(' :: current.pieces) = false
        rw [Piece.closes_open]
        by_contra hc
        rw [Bool.not_eq_false] at hc
        exact absurd (h.2.symm.trans (Piece.closes_of_closes_succ hc)) (by simp)
    | cons outer outers =>
        cases outers with
        | nil =>
            refine ⟨⟨h.1, h.2.1⟩, ?_⟩
            change Piece.closes 0
              (.char '(' :: (current.pieces ++ .char ')' :: outer.pieces)) = false
            rw [Piece.closes_open, h.1.closes_append, Piece.closes_close_succ]
            exact h.2.2
        | cons outer' outers => exact ⟨⟨h.1, h.2.1⟩, h.2.2⟩
  · exact ⟨trivial, h⟩
  · exact ⟨⟨fun hp => by simp at hp, h.sound⟩, rfl⟩

theorem sound_ofPieces (ps : List Piece) : (ofPieces ps).Sound := by
  have settled : Settled (ps.foldr Nesting.push (done, [])).1
      (ps.foldr Nesting.push (done, [])).2 := by
    induction ps with
    | nil => exact ⟨trivial, rfl⟩
    | cons p ps ih => exact ih.push
  exact settled.sound

end Nesting
end SqlStatement
