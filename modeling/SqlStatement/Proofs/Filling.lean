import SqlStatement.Proofs.Injection

/-!
# Markers filled with any texts

A filling says what an injection makes of a text: pieces that stay, and holes
with a number and with the content that is put in. The content need not be what
was taken out. Showing a filling down to a level gives the texts between the
passes: a pass reads one level and writes the next. If every hole finds level
zero of its content under its number, and no marker begins in what stays, then
the passes end with the whole.
-/
namespace SqlStatement

/-- A text with numbered holes in parentheses, and what is put into them. -/
inductive Filling where
  | done
  | piece (p : Piece) (rest : Filling)
  | hole (number : Nat) (content rest : Filling)
  deriving DecidableEq, Repr

namespace Filling

/-- The pieces of a filling that is shown down to a level. Below it are markers. -/
def shown : Nat → Filling → List Piece
  | _, done => []
  | level, piece p rest => p :: rest.shown level
  | 0, hole number _ rest =>
      .char '(' :: ((Subquery.marker number).map .char ++ .char ')' :: rest.shown 0)
  | level + 1, hole _ content rest =>
      .char '(' :: (content.shown level ++ .char ')' :: rest.shown (level + 1))

/-- The pieces with every hole filled. -/
def whole : Filling → List Piece
  | done => []
  | piece p rest => p :: rest.whole
  | hole _ content rest => .char '(' :: (content.whole ++ .char ')' :: rest.whole)

/-- How many levels of holes there are. -/
def depth : Filling → Nat
  | done => 0
  | piece _ rest => rest.depth
  | hole _ content rest => max (content.depth + 1) rest.depth

/-- Whether every hole finds its content, with markers in it, under its number. -/
def Stored (sets : List Text) : Filling → Prop
  | done => True
  | piece _ rest => rest.Stored sets
  | hole number content rest =>
      (0 < number ∧ sets[number]? = some (Piece.textOf (content.shown 0))) ∧
        content.Stored sets ∧ rest.Stored sets

/-- A filling without holes. -/
def flat (ps : List Piece) : Filling := ps.foldr piece done

@[simp] theorem shown_done (level : Nat) : done.shown level = [] := by
  cases level <;> rfl

@[simp] theorem shown_piece (level : Nat) (p : Piece) (rest : Filling) :
    (piece p rest).shown level = p :: rest.shown level := by
  cases level <;> rfl

theorem shown_of_depth_le {f : Filling} {level : Nat} (h : f.depth ≤ level) :
    f.shown level = f.whole := by
  induction f generalizing level with
  | done => exact shown_done level
  | piece p rest ih => rw [shown_piece, whole, ih h]
  | hole number content rest ih₁ ih₂ =>
      rw [depth] at h
      obtain ⟨below, rfl⟩ : ∃ below, level = below + 1 := ⟨level - 1, by omega⟩
      rw [shown, whole, ih₁ (by omega), ih₂ (by omega)]

/-- Every level masks the whole. -/
theorem masks_shown (f : Filling) (level : Nat) : Piece.Masks f.whole (f.shown level) := by
  induction f generalizing level with
  | done =>
      rw [shown_done]
      exact .nil
  | piece p rest ih =>
      rw [shown_piece, whole]
      exact .keep p (ih level)
  | hole number content rest ih₁ ih₂ =>
      cases level with
      | zero => exact .mask _ (fun c hc => Nesting.isPlain_of_mem_marker hc) (ih₂ 0)
      | succ level => exact .keep _ ((ih₁ level).append (.keep _ (ih₂ _)))

/-- A word at the start of a level is at the start of the whole. -/
theorem prefix_whole {w : Text} {f : Filling} {level : Nat}
    (hw : ∀ c ∈ w, Text.isWordChar c = true) (h : w.map Piece.char <+: f.shown level) :
    w.map Piece.char <+: f.whole := by
  induction w generalizing f with
  | nil => exact List.nil_prefix
  | cons c w ih =>
      cases f with
      | done => simp at h
      | piece p rest =>
          rw [shown_piece, List.map_cons, List.cons_prefix_cons] at h
          rw [whole, List.map_cons, List.cons_prefix_cons]
          exact ⟨h.1, ih (fun c hc => hw c (by simp [hc])) h.2⟩
      | hole number content rest =>
          have opened : c = '(' := by
            cases level <;> simpa [shown] using (List.cons_prefix_cons.mp h).1
          exact absurd (hw c (by simp)) (by rw [opened]; decide)

@[simp] theorem shown_flat (ps : List Piece) (level : Nat) : (flat ps).shown level = ps := by
  induction ps with
  | nil => exact shown_done level
  | cons p ps ih => exact (shown_piece level p (flat ps)).trans (congrArg _ ih)

@[simp] theorem whole_flat (ps : List Piece) : (flat ps).whole = ps := by
  induction ps with
  | nil => rfl
  | cons p ps ih => exact congrArg (p :: ·) ih

@[simp] theorem depth_flat (ps : List Piece) : (flat ps).depth = 0 := by
  induction ps with
  | nil => rfl
  | cons p ps ih => exact ih

theorem stored_flat (sets : List Text) (ps : List Piece) : (flat ps).Stored sets := by
  induction ps with
  | nil => trivial
  | cons p ps ih => exact ih

end Filling

namespace Subquery
open Token
variable {d : Dialect} {sets : List Text}

/-- A pass over a level writes the next one. -/
theorem fill_shown {f : Filling} (hs : f.Stored sets) (hm : ¬hashSub <:+: f.whole) (level : Nat)
    {rest : List Piece} (hr : ∀ t, (ofPieces rest).head? = some t → t.isWord = false) :
    (fill sets (ofPieces (f.shown level ++ rest))).1 =
      Piece.textOf (f.shown (level + 1)) ++ (fill sets (ofPieces rest)).1 := by
  induction f generalizing level rest with
  | done => simp
  | piece p more ih =>
      have unmarked : ¬hashSub <:+: more.whole := fun h =>
        hm (h.trans (List.suffix_cons p _).isInfix)
      rw [Filling.shown_piece, Filling.shown_piece, List.cons_append, fill_piece,
        ih hs unmarked level hr, Piece.textOf_cons, List.append_assoc]
      rintro rfl sub
      have begun := Filling.prefix_whole isWordChar_sub
        (prefix_of_prefix_append isWordChar_sub hr sub)
      exact hm (List.IsPrefix.isInfix (List.cons_prefix_cons.mpr ⟨rfl, begun⟩))
  | hole number content more ih₁ ih₂ =>
      obtain ⟨⟨hn, ht⟩, hc, hmore⟩ := hs
      have inside : ¬hashSub <:+: content.whole := fun h =>
        hm (h.trans ⟨[.char '('], .char ')' :: more.whole, by simp [Filling.whole]⟩)
      have behind : ¬hashSub <:+: more.whole := fun h =>
        hm (h.trans ⟨.char '(' :: (content.whole ++ [.char ')']), [], by simp [Filling.whole]⟩)
      cases level with
      | zero =>
          simp only [Filling.shown, List.cons_append, List.append_assoc]
          rw [fill_hole hn ht, ih₂ hmore behind 0 hr]
          simp [Piece.text]
      | succ level =>
          simp only [Filling.shown, List.cons_append, List.append_assoc]
          rw [fill_piece (by simp), ih₁ hc inside level, fill_piece (by simp),
            ih₂ hmore behind (level + 1) hr]
          · simp [Piece.text]
          · intro t ht
            rw [ofPieces_symbol_cons _ (by decide) (by decide)] at ht
            cases ht
            rfl

/-- The passes of an injection fill all holes. -/
theorem fillAll_shown {f : Filling} (hl : Piece.Lexed d f.whole) (hm : ¬hashSub <:+: f.whole)
    (hs : f.Stored sets) {passes : Nat} (hp : f.depth ≤ passes) :
    fillAll d sets passes (Piece.textOf (f.shown 0)) = Piece.textOf f.whole := by
  have step (level : Nat) : pass d sets (Piece.textOf (f.shown level)) =
      Piece.textOf (f.shown (level + 1)) := by
    have filled := fill_shown hs hm level
      (by simp : ∀ t, (ofPieces []).head? = some t → t.isWord = false)
    rw [List.append_nil] at filled
    rw [pass, ofText_textOf_of_lexed (hl.masks (f.masks_shown level)), filled]
    exact List.append_nil _
  have run (level : Nat) : (pass d sets)^[level] (Piece.textOf (f.shown 0)) =
      Piece.textOf (f.shown level) := by
    induction level with
    | zero => rfl
    | succ level ih => rw [Function.iterate_succ_apply', ih, step]
  rw [fillAll_eq_iterate, run, Filling.shown_of_depth_le hp]

end Subquery
end SqlStatement
