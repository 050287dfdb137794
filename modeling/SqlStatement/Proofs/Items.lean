import SqlStatement.Proofs.Binding
import SqlStatement.Proofs.Casting
import SqlStatement.Proofs.Literals
import SqlStatement.Proofs.Segments
import SqlStatement.Query.Mutation

/-!
# Items of a list

A text is one item of a list if it is balanced and has no comma outside its
literals and groups. Names in quotes and the literals of all values are items,
whatever characters they stand for, and so are the assignments that are made of
them. An expression whose names are quoted is an item if it was one before.
-/
namespace SqlStatement

theorem bind_eq_ok_iff {ε α β : Type} {x : Except ε α} {f : α → Except ε β} {b : β} :
    x >>= f = .ok b ↔ ∃ a, x = .ok a ∧ f a = .ok b := by
  cases x <;> simp [bind, Except.bind]

theorem exists_of_mem_mapM {ε α β : Type} {f : α → Except ε β} {l : List α} {r : List β}
    (h : l.mapM f = .ok r) : ∀ b ∈ r, ∃ a ∈ l, f a = .ok b := by
  induction l generalizing r with
  | nil =>
      cases h
      simp
  | cons a l ih =>
      rw [List.mapM_cons] at h
      obtain ⟨b, hb, h⟩ := bind_eq_ok_iff.mp h
      obtain ⟨bs, hbs, h⟩ := bind_eq_ok_iff.mp h
      cases h
      refine List.forall_mem_cons.mpr ⟨⟨a, by simp, hb⟩, fun b hm => ?_⟩
      obtain ⟨a', ha, hf⟩ := ih hbs b hm
      exact ⟨a', List.mem_cons_of_mem _ ha, hf⟩

namespace Piece

/-- The number of open groups behind a delimiter. There is none behind a comma outside groups. -/
def itemBehind? (depth : Nat) (c : Char) : Option Nat :=
  if c = ',' ∧ depth = 0 then none else groupsBehind? depth c

theorem groupsBehind?_of_itemBehind? {depth depth' : Nat} {c : Char}
    (h : itemBehind? depth c = some depth') : groupsBehind? depth c = some depth' := by
  rw [itemBehind?] at h
  split at h
  · cases h
  · exact h

theorem foldlM_groupsBehind? {cs : List Char} {depth depth' : Nat}
    (h : cs.foldlM itemBehind? depth = some depth') :
    cs.foldlM groupsBehind? depth = some depth' := by
  induction cs generalizing depth with
  | nil => exact h
  | cons c cs ih =>
      rw [List.foldlM_cons, Option.bind_eq_bind, Option.bind_eq_some_iff] at h ⊢
      obtain ⟨between, hc, h⟩ := h
      exact ⟨between, groupsBehind?_of_itemBehind? hc, ih h⟩

/-- Commas are free to stand in a group. -/
theorem foldlM_itemBehind?_succ {cs : List Char} {depth depth' : Nat}
    (h : cs.foldlM groupsBehind? depth = some depth') :
    cs.foldlM itemBehind? (depth + 1) = some (depth' + 1) := by
  induction cs generalizing depth with
  | nil =>
      cases h
      rfl
  | cons c cs ih =>
      rw [List.foldlM_cons, Option.bind_eq_bind, Option.bind_eq_some_iff] at h ⊢
      obtain ⟨between, hc, h⟩ := h
      refine ⟨between + 1, ?_, ih h⟩
      simp only [groupsBehind?] at hc
      simp only [itemBehind?, groupsBehind?]
      split at hc
      · cases hc
        simp [*]
      · split at hc
        · split at hc
          · cases hc
          · cases hc
            simp [*]
            omega
        · cases hc
          simp [*]

end Piece

namespace Nesting
variable {n : Nesting}

/-- Where no delimiter is a comma outside groups there is one segment. -/
theorem Closed.cut_snd (h : n.Closed)
    (hi : (n.pieces.filterMap Piece.delimiter?).foldlM Piece.itemBehind? 0 = some 0) :
    n.cut.2 = [] := by
  induction n with
  | done => rfl
  | piece p rest ih =>
      rw [cut]
      cases p with
      | stray q => cases h.1
      | literal t => exact ih h.2 hi
      | char c =>
          have ordinary := h.1
          simp only [Piece.isOrdinary, Bool.and_eq_true, bne_iff_ne] at ordinary
          by_cases hc : c = ','
          · subst hc
            cases hi
          · have none : (Piece.char c).delimiter? = none := if_neg (by simp [ordinary, hc])
            rw [pieces, List.filterMap_cons_none none] at hi
            rw [if_neg (by simp [separates, ordinary, hc])]
            exact ih h.2 hi
  | group inner rest _ ih =>
      rw [cut]
      have level : (inner.pieces.filterMap Piece.delimiter?).foldlM Piece.itemBehind? 1 =
          some 1 := by
        refine Piece.foldlM_itemBehind?_succ ?_
        rw [← Piece.foldlM_depthBehind? (Piece.isClosed_of_foldlM (h.1.foldlM_pieces 0))]
        exact h.1.foldlM_pieces 0
      rw [pieces, List.filterMap_cons, List.filterMap_append] at hi
      change ((inner.pieces.filterMap Piece.delimiter?) ++ _).foldlM Piece.itemBehind? 1 = _ at hi
      rw [List.foldlM_append, level] at hi
      exact ih h.2 hi

end Nesting

namespace Dialect
variable {d : Dialect} {t u : Text}

/-- A text that is one item of a list: it is balanced, and no comma stands outside its literals and
groups. -/
def IsItem (d : Dialect) (t : Text) : Prop :=
  d.Closed t ∧ (d.delimiters t).foldlM Piece.itemBehind? 0 = some 0

instance (d : Dialect) (t : Text) : Decidable (d.IsItem t) :=
  inferInstanceAs (Decidable (_ ∧ _))

namespace IsItem

theorem isBalanced (h : d.IsItem t) : d.isBalanced t = true :=
  isBalanced_iff.mpr ⟨h.1, Piece.foldlM_groupsBehind? h.2⟩

theorem append (ht : d.IsItem t) (hu : d.IsItem u) : d.IsItem (t ++ u) := by
  refine ⟨ht.1.append hu.1, ?_⟩
  rw [ht.1.delimiters_append hu.1, List.foldlM_append, ht.2]
  exact hu.2

/-- An item is its own only item. -/
theorem splitTopLevel (h : d.IsItem t) (hn : Text.trim t ≠ []) :
    d.splitTopLevel t = [Text.trim t] := by
  have single := Nesting.cut_eq_of_snd ((Nesting.closed_ofText h.isBalanced).cut_snd (by
    rw [Nesting.ofText, Nesting.pieces_ofPieces]
    exact h.2))
  rw [splitTopLevel_eq, fields, Nesting.segments, single, Nesting.text_ofText]
  simp [hn]

end IsItem

/-- Closed texts with the same delimiters are items both or neither. -/
theorem IsItem.of_delimiters (h : d.IsItem t) (hu : d.Closed u)
    (he : d.delimiters u = d.delimiters t) : d.IsItem u := ⟨hu, he ▸ h.2⟩

/-- Whole pieces without delimiters are an item. -/
theorem isItem_textOf {ps : List Piece} (h : ∀ p ∈ ps, p.Whole d ∧ p.delimiter? = none) :
    d.IsItem (Piece.textOf ps) := by
  refine ⟨closed_textOf fun p hp => (h p hp).1, ?_⟩
  rw [delimiters_textOf fun p hp => (h p hp).1,
    List.filterMap_eq_nil_iff.mpr fun p hp => (h p hp).2]
  rfl

theorem isItem_of_isInert (h : ∀ c ∈ t, d.isInert c = true) : d.IsItem t := by
  rw [← Piece.textOf_map_char t]
  refine isItem_textOf fun p hp => ?_
  obtain ⟨c, hc, rfl⟩ := List.mem_map.mp hp
  exact ⟨isQuote_of_isInert (h c hc), delimiter?_of_isInert (h c hc)⟩

theorem isItem_literal (h : (Piece.literal t).Whole d) : d.IsItem t := by
  have := isItem_textOf (List.forall_mem_singleton.mpr ⟨h, rfl⟩)
  rwa [Piece.textOf_cons, Piece.textOf_nil, List.append_nil] at this

/-- A balanced text in parentheses is an item. -/
theorem isItem_parenthesize (h : d.isBalanced t = true) : d.IsItem (Addition.parenthesize t) := by
  obtain ⟨closed, level⟩ := isBalanced_iff.mp h
  have opening : d.Closed ['('] ∧ d.delimiters ['('] = ['('] := by cases d <;> decide +kernel
  have closing : d.Closed [')'] ∧ d.delimiters [')'] = [')'] := by cases d <;> decide +kernel
  have inner := closed.append closing.1
  refine ⟨opening.1.append inner, ?_⟩
  change (d.delimiters (['('] ++ (t ++ [')']))).foldlM Piece.itemBehind? 0 = some 0
  rw [opening.1.delimiters_append inner, closed.delimiters_append closing.1, opening.2, closing.2]
  change ((d.delimiters t) ++ [')']).foldlM Piece.itemBehind? 1 = some 0
  rw [List.foldlM_append, Piece.foldlM_itemBehind?_succ level]
  rfl

theorem isItem_quoteName {w : Text} (h : ∀ c ∈ w, c ≠ d.identifierQuote) :
    d.IsItem (d.quoteName w) := isItem_literal (Piece.whole_quoteName h)

theorem isItem_quoteString (d : Dialect) (t : Text) : d.IsItem (d.quoteString t) :=
  isItem_literal (d.literal?_quoteString t)

end Dialect

namespace PathState
variable {d : Dialect}

/-- What is written of a path: a list of names in quotes with dots between them, from the middle of
a name on what is left of it and the quote that closes it. -/
def Written (d : Dialect) : PathState → Text → Prop
  | start, out | closed, out => d.IsItem out
  | bare, out | quoted, out => ∃ w behind, out = w ++ d.identifierQuote :: behind ∧
      (∀ c ∈ w, c ≠ d.identifierQuote) ∧ d.IsItem behind

/-- What is left of a name makes up the name with what has been written of it. -/
theorem isItem_of_written {out : Text} (h : Written d quoted out) (w : Text)
    (hw : ∀ c ∈ w, c ≠ d.identifierQuote) : d.IsItem (d.identifierQuote :: (w ++ out)) := by
  obtain ⟨rest, behind, rfl, hr, hb⟩ := h
  have name := (Dialect.isItem_quoteName (List.forall_mem_append.mpr ⟨hw, hr⟩)).append hb
  simpa [Dialect.quoteName] using name

theorem isItem_dot {out : Text} (h : d.IsItem out) : d.IsItem ('.' :: out) :=
  (Dialect.isItem_of_isInert (List.forall_mem_singleton.mpr (by cases d <;> decide))).append h

theorem Written.cons {out : Text} {c : Char} (hc : c ≠ d.identifierQuote)
    (h : Written d quoted out) : Written d quoted (c :: out) := by
  obtain ⟨w, behind, rfl, hw, hb⟩ := h
  exact ⟨c :: w, behind, rfl, List.forall_mem_cons.mpr ⟨hc, hw⟩, hb⟩

theorem written_quote? {state : PathState} {t out : Text}
    (h : quote? d.identifierQuote state t = some out) : Written d state out := by
  have none : d.IsItem [] := Dialect.isItem_of_isInert (by simp)
  fun_induction quote? d.identifierQuote state t generalizing out with
  | case1 | case3 | case6 | case9 | case14 => cases h
  | case2 t ih =>
      obtain ⟨rest, hr, rfl⟩ := Option.map_eq_some_iff.mp h
      exact isItem_of_written (ih hr) [] (by simp)
  | case4 c t hc _ ih =>
      obtain ⟨rest, hr, rfl⟩ := Option.map_eq_some_iff.mp h
      exact isItem_of_written (ih hr) [c] (List.forall_mem_singleton.mpr hc)
  | case5 =>
      cases h
      exact ⟨[], [], rfl, by simp, none⟩
  | case7 t _ ih =>
      obtain ⟨rest, hr, rfl⟩ := Option.map_eq_some_iff.mp h
      exact ⟨[], '.' :: rest, rfl, by simp, isItem_dot (ih hr)⟩
  | case8 c t hc _ ih | case11 c t hc ih =>
      obtain ⟨rest, hr, rfl⟩ := Option.map_eq_some_iff.mp h
      exact Written.cons hc (ih hr)
  | case10 t ih =>
      obtain ⟨rest, hr, rfl⟩ := Option.map_eq_some_iff.mp h
      exact ⟨[], rest, rfl, by simp, ih hr⟩
  | case12 =>
      cases h
      exact none
  | case13 t ih =>
      obtain ⟨rest, hr, rfl⟩ := Option.map_eq_some_iff.mp h
      exact isItem_dot (ih hr)

end PathState

namespace Dialect
variable {d : Dialect}

theorem isItem_quotePath {t out : Text} (h : d.quotePath t = .ok out) : d.IsItem out := by
  rw [quotePath] at h
  split at h
  · rename_i quoted hq
    cases h
    exact PathState.written_quote? hq
  · cases h

theorem isInert_of_isAtomChar {c : Char} (h : Text.isAtomChar c = true) : d.isInert c = true := by
  rcases Text.isAtomChar_cases h with h | rfl | rfl
  · exact isInert_of_isWordChar h
  · cases d <;> decide
  · cases d <;> decide

/-- A literal is an item, lists of literals included. -/
theorem IsLiteral.isItem {t : Text} (h : d.IsLiteral t) : d.IsItem t := by
  induction h with
  | atom _ plain => exact isItem_of_isInert fun c hc => isInert_of_isAtomChar (plain c hc)
  | string t => exact d.isItem_quoteString t
  | list _ ih =>
      exact isItem_parenthesize (isBalanced_joinWith isBalanced_comma fun t ht =>
        (ih t ht).isBalanced)

end Dialect

/-- An expression that is an item and stays one when its names are quoted. A path may hold any
characters; in the smart way an expression that casts has no quote, parenthesis or comma in a quoted
name. -/
structure KeepsItem (s : Settings) (mode : QuoteMode) (t : Text) : Prop where
  item : mode ≠ .strict → s.dialect.IsItem t
  cast : mode = .smart → CastTarget.isMentioned none (s.dialect.quoteNames t) = true →
    Piece.InertNames s.dialect (Piece.ofText s.dialect t)

theorem KeepsItem.isItem {s : Settings} {mode : QuoteMode} {t out : Text}
    (ht : KeepsItem s mode t) (h : quoteIdentifier s mode t = .ok out) : s.dialect.IsItem out := by
  cases mode with
  | none =>
      cases h
      exact ht.item (by simp)
  | strict => exact Dialect.isItem_quotePath h
  | words =>
      have item := ht.item (by simp)
      simp only [quoteIdentifier, if_pos item.isBalanced] at h
      cases h
      obtain ⟨closed, delimiters⟩ := item.1.of_renders (Dialect.renders_quoteWords item.1)
      exact item.of_delimiters closed delimiters
  | smart =>
      have item := ht.item (by simp)
      rw [quoteIdentifier, if_pos item.isBalanced] at h
      obtain ⟨closed, delimiters⟩ := closed_quoteSmart h item.1 (ht.cast rfl)
      exact item.of_delimiters closed delimiters

/-- An item with an equals sign in it. -/
def Dialect.IsAssignment (d : Dialect) (t : Text) : Prop := d.IsItem t ∧ '=' ∈ t

namespace Dialect.IsAssignment
variable {d : Dialect}

theorem trim_ne_nil {t : Text} (h : d.IsAssignment t) : Text.trim t ≠ [] := fun hn =>
  absurd (Text.trim_eq_nil_iff.mp hn '=' h.2) (by decide)

theorem of_sides {column right : Text} (hc : d.IsItem column) (hr : d.IsItem right) :
    d.IsAssignment (column ++ " = ".toList ++ right) := by
  have sign : d.IsItem " = ".toList :=
    isItem_of_isInert (List.all_eq_true.mp (by cases d <;> decide))
  refine ⟨(hc.append sign).append hr, ?_⟩
  simp

/-- Assignments with commas between them are their own items. -/
theorem splitTopLevel_joinWith {ts : List Text} (h : ∀ t ∈ ts, d.IsAssignment t) :
    d.splitTopLevel (Text.joinWith [',', ' '] ts) = ts.map Text.trim := by
  rw [splitTopLevel_joinWith_comma fun t ht => (h t ht).1.isBalanced, List.map_eq_flatMap]
  exact List.flatMap_congr fun t ht => (h t ht).1.splitTopLevel (h t ht).trim_ne_nil

end Dialect.IsAssignment

/-- What is written for a column to get the value that was to be inserted is an assignment. -/
theorem isAssignment_insertedAssignment {s : Settings} {column out : Text}
    (h : Query.insertedAssignment s column = .ok out) : s.dialect.IsAssignment out := by
  obtain ⟨name, hn, h⟩ := bind_eq_ok_iff.mp h
  cases h
  have item : s.dialect.IsItem name := Dialect.isItem_quotePath hn
  have function : s.dialect.IsItem "VALUES".toList :=
    Dialect.isItem_of_isInert (List.all_eq_true.mp (by cases s.dialect <;> decide))
  have assigned := Dialect.IsAssignment.of_sides item
    (function.append (Dialect.isItem_parenthesize item.isBalanced))
  simpa [Addition.parenthesize] using assigned

/-- What is written for a duplicate key is an assignment if an expression on the right side is an
item. -/
theorem isAssignment_duplicateAssignment {s : Settings} {mode : QuoteMode} {a : Text × Assigned}
    {out : Text} (h : Change.duplicateAssignment s mode a = .ok out)
    (ha : ∀ t, a.2 = .expression t → KeepsItem s mode t) : s.dialect.IsAssignment out := by
  obtain ⟨column, hc, h⟩ := bind_eq_ok_iff.mp h
  obtain ⟨right, hr, h⟩ := bind_eq_ok_iff.mp h
  cases h
  refine .of_sides (Dialect.isItem_quotePath hc) ?_
  cases hs : a.2 with
  | value v =>
      rw [hs] at hr
      cases hr
      exact (Dialect.isLiteral_quoteValue (by simp) v).isItem
  | expression t =>
      rw [hs] at hr
      exact (ha t hs).isItem hr

end SqlStatement
