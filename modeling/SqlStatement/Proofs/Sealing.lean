import SqlStatement.Proofs.Decoding
import SqlStatement.Proofs.Spotting

/-!
# What values do not show

A placeholder begins with a question mark or a colon outside literals. Texts
with neither stay without placeholders when they are put behind each other, in
parentheses or in a list, so the literal of a value has none, and it is the one
item of its own text. No value can change how a statement around it is read.
-/
namespace SqlStatement

namespace Piece
variable {ps : List Piece}

/-- Whether a placeholder can begin with a piece. -/
def isSign (p : Piece) : Bool := p == .char '?' || p == .char ':'

/-- Where no placeholder can begin none is seen. -/
theorem outlook_of_isSign (h : ∀ p ∈ bare ps, isSign p = false) :
    (outlook ps).placeholders = [] := by
  induction ps with
  | nil => rfl
  | cons p ps ih =>
      rw [outlook_cons]
      cases p with
      | literal t => exact ih h
      | stray q => exact ih fun p hp => h p (List.mem_cons_of_mem _ hp)
      | char c =>
          have rest := ih fun p hp => h p (List.mem_cons_of_mem _ hp)
          have plain := h (.char c) List.mem_cons_self
          simp only [isSign, Bool.or_eq_false_iff, beq_eq_false_iff_ne, ne_eq, char.injEq] at plain
          simp only [Outlook.behind, if_neg plain.1, plain.2, false_and, if_false]
          split <;> exact rest

end Piece

namespace Dialect
variable {d : Dialect} {empty t u : Text}

/-- A closed text in which no placeholder can begin. -/
structure Quiet (d : Dialect) (t : Text) : Prop where
  closed : d.Closed t
  plain : ∀ p ∈ d.bare t, p.isSign = false

namespace Quiet

theorem countPlaceholders_eq (h : d.Quiet t) : d.countPlaceholders t = 0 := by
  rw [Dialect.countPlaceholders_eq, placeholders_eq_outlook, Piece.outlook_of_isSign h.plain]
  rfl

theorem append (ht : d.Quiet t) (hu : d.Quiet u) : d.Quiet (t ++ u) := by
  refine ⟨ht.closed.append hu.closed, ?_⟩
  rw [ht.closed.bare_append hu.closed]
  exact List.forall_mem_append.mpr ⟨ht.plain, hu.plain⟩

theorem of_textOf {ps : List Piece} (h : ∀ p ∈ ps, p.Whole d ∧ p.isSign = false) :
    d.Quiet (Piece.textOf ps) := by
  have whole : ∀ p ∈ ps, p.Whole d := fun p hp => (h p hp).1
  refine ⟨closed_textOf whole, fun p hp => ?_⟩
  rw [bare, Piece.ofText_textOf_of_whole whole, Piece.bare_weld] at hp
  exact (h p (List.mem_filter.mp hp).1).2

theorem of_chars (h : ∀ c ∈ t, d.isQuote c = false ∧ (Piece.char c).isSign = false) :
    d.Quiet t := by
  rw [← Piece.textOf_map_char t]
  exact of_textOf (List.forall_mem_map.mpr h)

theorem of_literal (h : (Piece.literal t).Whole d) : d.Quiet t := by
  have quiet := of_textOf (List.forall_mem_singleton.mpr ⟨h, rfl⟩)
  rwa [Piece.textOf_cons, Piece.textOf_nil, List.append_nil] at quiet

theorem joinWith {separator : Text} {ts : List Text} (hs : d.Quiet separator)
    (h : ∀ t ∈ ts, d.Quiet t) : d.Quiet (Text.joinWith separator ts) :=
  Text.joinWith_induction (of_chars (by simp)) (fun _ _ ht hu => (ht.append hs).append hu) h

end Quiet

theorem isSign_of_isAtomChar {c : Char} (h : Text.isAtomChar c = true) :
    (Piece.char c).isSign = false := by
  have apart : c ≠ '?' ∧ c ≠ ':' := by
    constructor <;> rintro rfl <;> exact absurd h (by decide)
  simp [Piece.isSign, apart]

/-- No placeholder begins in a literal, lists of literals included. -/
theorem IsLiteral.quiet (h : d.IsLiteral t) : d.Quiet t := by
  induction h with
  | atom _ plain =>
      exact .of_chars fun c hc =>
        ⟨isQuote_of_isInert (isInert_of_isAtomChar (plain c hc)), isSign_of_isAtomChar (plain c hc)⟩
  | string t => exact .of_literal (d.literal?_quoteString t)
  | list _ ih =>
      have sign (c : Char) (hc : c = '(' ∨ c = ')' ∨ c = ',' ∨ c = ' ') : d.Quiet [c] := by
        refine .of_chars (List.forall_mem_singleton.mpr ?_)
        rcases hc with rfl | rfl | rfl | rfl <;> cases d <;> exact ⟨rfl, rfl⟩
      have opening := sign '(' (by simp)
      have closing := sign ')' (by simp)
      have separator := (sign ',' (by simp)).append (sign ' ' (by simp))
      exact opening.append ((separator.joinWith ih).append closing)

/-- A literal is balanced, has no placeholder and is its own only item, whatever value it stands
for: the texts in a list may have all the quotes, parentheses, commas and question marks there
are. -/
theorem quoteValue_inert (he : empty ∈ ["NULL".toList, "DEFAULT".toList]) (v : Value) :
    d.isBalanced (d.quoteValue empty v) = true ∧
      d.countPlaceholders (d.quoteValue empty v) = 0 ∧
      d.splitTopLevel (d.quoteValue empty v) = [d.quoteValue empty v] := by
  have literal := isLiteral_quoteValue (d := d) he v
  have single := literal.isItem.splitTopLevel
  rw [literal.trim_eq] at single
  exact ⟨literal.isItem.isBalanced, literal.quiet.countPlaceholders_eq, single literal.ne_nil⟩

theorem quoteValue_inert_list :
    mysql.isBalanced "('it\\'s ),?:x', (NULL, 7))".toList = true ∧
      mysql.countPlaceholders "('it\\'s ),?:x', (NULL, 7))".toList = 0 ∧
      mysql.splitTopLevel "('it\\'s ),?:x', (NULL, 7))".toList =
        ["('it\\'s ),?:x', (NULL, 7))".toList] :=
  have null : "NULL".toList ∈ ["NULL".toList, "DEFAULT".toList] := by decide
  quoteValue_inert (d := mysql) null
    (.list [.text "it's ),?:x".toList, .list [.null, .int 7]])

end Dialect
end SqlStatement
