import SqlStatement.Proofs.Welding

/-!
# Balanced texts

Whether a text is balanced depends on two things only: its literals are closed,
and the parentheses outside literals pair up. The parentheses and commas outside
literals are the delimiters of a text.
-/
namespace SqlStatement

namespace Piece

/-- A parenthesis or a comma outside literals. -/
def delimiter? : Piece → Option Char
  | char c => if c = '(' ∨ c = ')' ∨ c = ',' then some c else none
  | literal _ | stray _ => none

theorem filterMap_delimiter?_bare (ps : List Piece) :
    (bare ps).filterMap delimiter? = ps.filterMap delimiter? := by
  rw [bare, List.filterMap_filter]
  refine congrArg (List.filterMap · ps) (funext fun p => ?_)
  cases p <;> rfl

/-- The groups that closed pieces open and close are those of their delimiters. -/
theorem foldlM_depthBehind? {ps : List Piece} (h : ∀ p ∈ ps, p.isClosed = true) (depth : Nat) :
    ps.foldlM depthBehind? depth = (ps.filterMap delimiter?).foldlM groupsBehind? depth := by
  induction ps generalizing depth with
  | nil => rfl
  | cons p ps ih =>
      obtain ⟨hp, hps⟩ := List.forall_mem_cons.mp h
      rw [List.foldlM_cons]
      cases p with
      | stray q => simp [isClosed] at hp
      | literal t => exact ih hps depth
      | char c =>
          by_cases hc : c = '(' ∨ c = ')' ∨ c = ','
          · have found : (char c).delimiter? = some c := if_pos hc
            rw [List.filterMap_cons_some found, List.foldlM_cons]
            exact congrArg _ (funext fun depth => ih hps depth)
          · have none : (char c).delimiter? = none := if_neg hc
            rw [List.filterMap_cons_none none, ← ih hps]
            simp only [not_or] at hc
            simp [depthBehind?, groupsBehind?, hc.1, hc.2.1]

theorem isClosed_of_foldlM {ps : List Piece} {depth depth' : Nat}
    (h : ps.foldlM depthBehind? depth = some depth') : ∀ p ∈ ps, p.isClosed = true := by
  induction ps generalizing depth with
  | nil => simp
  | cons p ps ih =>
      rw [List.foldlM_cons, Option.bind_eq_bind, Option.bind_eq_some_iff] at h
      obtain ⟨between, hp, h⟩ := h
      refine List.forall_mem_cons.mpr ⟨?_, ih h⟩
      cases p with
      | stray q => simp [depthBehind?] at hp
      | literal | char => rfl

end Piece

namespace Dialect
variable {d : Dialect} {t u : Text}

/-- The parentheses and commas of a text outside literals, in order. -/
def delimiters (d : Dialect) (t : Text) : List Char := (Piece.ofText d t).filterMap Piece.delimiter?

theorem isBalanced_iff :
    d.isBalanced t = true ↔
      d.Closed t ∧ (d.delimiters t).foldlM Piece.groupsBehind? 0 = some 0 := by
  rw [isBalanced, beq_iff_eq]
  constructor
  · intro h
    have closed := Piece.isClosed_of_foldlM h
    exact ⟨closed, by rw [delimiters, ← Piece.foldlM_depthBehind? closed, h]⟩
  · rintro ⟨closed, h⟩
    rw [Piece.foldlM_depthBehind? closed, ← delimiters, h]

/-- Closed texts with the same delimiters are balanced both or neither. -/
theorem closed_of_isBalanced (h : d.isBalanced t = true) : d.Closed t := (isBalanced_iff.mp h).1

theorem isBalanced_of_delimiters_eq (hb : d.isBalanced t = true) (hu : d.Closed u)
    (h : d.delimiters u = d.delimiters t) : d.isBalanced u = true := by
  rw [isBalanced_iff] at hb ⊢
  exact ⟨hu, by rw [h, hb.2]⟩

theorem delimiters_textOf {ps : List Piece} (h : ∀ p ∈ ps, p.Whole d) :
    d.delimiters (Piece.textOf ps) = ps.filterMap Piece.delimiter? := by
  rw [delimiters, Piece.ofText_textOf_of_whole h, ← Piece.filterMap_delimiter?_bare,
    Piece.bare_weld, Piece.filterMap_delimiter?_bare]

end Dialect
end SqlStatement
