import Mathlib.Tactic.Common
import SqlStatement.Expression.Mode
import SqlStatement.Proofs.Balancing
import SqlStatement.Proofs.Tokenizing

/-!
# Quoted expressions

Quoting an expression puts some of its words and runs in identifier quotes and
changes nothing else. What is put in quotes has no quote, parenthesis or comma,
so literals stay closed and the delimiters stay where they are. Taking the
quotes off a CAST type again keeps this only if the type has none of these
characters either.
-/
namespace SqlStatement

namespace Dialect
variable {d : Dialect}

/-- Whether a character is no quote, parenthesis or comma. -/
def isInert (d : Dialect) (c : Char) : Bool := !d.isQuote c && c != '(' && c != ')' && c != ','

theorem isQuote_of_isInert {c : Char} (h : d.isInert c = true) : d.isQuote c = false := by
  simp only [isInert, Bool.and_eq_true, Bool.not_eq_true'] at h
  exact h.1.1.1

theorem isInert_of_isWordChar {c : Char} (h : Text.isWordChar c = true) : d.isInert c = true := by
  have apart : c ≠ '(' ∧ c ≠ ')' ∧ c ≠ ',' := by
    refine ⟨?_, ?_, ?_⟩ <;> rintro rfl <;> exact absurd h (by decide)
  simp [isInert, isQuote_of_isWordChar h, apart]

theorem delimiter?_of_isInert {c : Char} (h : d.isInert c = true) :
    (Piece.char c).delimiter? = none := by
  simp only [isInert, Bool.and_eq_true, bne_iff_ne] at h
  simp [Piece.delimiter?, h.1.1.2, h.1.2, h.2]

end Dialect

namespace Piece
variable {d : Dialect} {ps qs : List Piece}

/-- Pieces, and the same with some inert stretches in identifier quotes. -/
inductive Names (d : Dialect) : List Piece → List Piece → Prop
  | nil : Names d [] []
  | keep (p : Piece) {ps qs : List Piece} (h : Names d ps qs) : Names d (p :: ps) (p :: qs)
  | quote (w : Text) (hw : ∀ c ∈ w, d.isInert c = true) {ps qs : List Piece}
      (h : Names d ps qs) : Names d (w.map char ++ ps) (literal (d.quoteName w) :: qs)

theorem whole_quoteName {w : Text} (h : ∀ c ∈ w, c ≠ d.identifierQuote) :
    Whole d (literal (d.quoteName w)) := by
  rw [Whole, Dialect.quoteName, Dialect.literal?_cons, Dialect.escapeOf?_identifierQuote,
    Option.bind_some, Escape.close?_append_of_passes (Escape.passes_never h), Escape.close?,
    if_pos rfl]
  rfl

/-- A name ends at its quote, whatever stands behind it. -/
theorem literal?_quoteName {w : Text} (h : d.identifierQuote ∉ w) (rest : Text) :
    d.literal? (d.quoteName w ++ rest) = some (d.quoteName w, rest) := by
  have alone : d.literal? (d.quoteName w ++ []) = some (d.quoteName w, []) := by
    rw [List.append_nil]
    exact whole_quoteName fun c hc he => h (he ▸ hc)
  exact Dialect.literal?_swap rest alone fun c _ _ first => .inr (Option.some.inj first).symm

namespace Names

theorem refl (ps : List Piece) : Names d ps ps := by
  induction ps with
  | nil => exact .nil
  | cons p ps ih => exact .keep p ih

theorem append {ps' qs' : List Piece} (h : Names d ps qs) (h' : Names d ps' qs') :
    Names d (ps ++ ps') (qs ++ qs') := by
  induction h with
  | nil => exact h'
  | keep p _ ih => exact .keep p ih
  | quote w hw _ ih =>
      rw [List.append_assoc]
      exact .quote w hw ih

theorem delimiters (h : Names d ps qs) : qs.filterMap delimiter? = ps.filterMap delimiter? := by
  induction h with
  | nil => rfl
  | keep p _ ih => rw [List.filterMap_cons, List.filterMap_cons, ih]
  | quote w hw _ ih =>
      have inert : (w.map char).filterMap delimiter? = [] := by
        rw [List.filterMap_eq_nil_iff]
        rintro _ hp
        obtain ⟨c, hc, rfl⟩ := List.mem_map.mp hp
        exact Dialect.delimiter?_of_isInert (hw c hc)
      rw [List.filterMap_append, inert, List.nil_append, ← ih]
      rfl

theorem whole (h : Names d ps qs) (hp : ∀ p ∈ ps, Whole d p) : ∀ q ∈ qs, Whole d q := by
  induction h with
  | nil => exact hp
  | keep p _ ih =>
      obtain ⟨first, rest⟩ := List.forall_mem_cons.mp hp
      exact List.forall_mem_cons.mpr ⟨first, ih rest⟩
  | quote w hw _ ih =>
      refine List.forall_mem_cons.mpr ⟨?_, ih fun p hm => hp p (List.mem_append_right _ hm)⟩
      refine whole_quoteName fun c hc he => ?_
      have inert := Dialect.isQuote_of_isInert (hw c hc)
      simp [Dialect.isQuote, he] at inert

/-- With names in quotes pieces begin as before, or with a quote of a name. -/
theorem head? (h : Names d ps qs) {c : Char} (hc : (textOf qs).head? = some c) :
    (textOf ps).head? = some c ∨ c = d.identifierQuote := by
  induction h with
  | nil => exact .inl hc
  | keep p _ ih =>
      rw [textOf_cons, List.head?_append] at hc ⊢
      cases hp : p.text.head? with
      | none => simpa [hp] using ih (by simpa [hp] using hc)
      | some a => exact .inl (by simpa [hp] using hc)
  | quote => exact .inr (Option.some.inj hc).symm

/-- Putting names in quotes leaves the pieces of a closed text what they are. -/
theorem lexed (h : Names d ps qs) (hl : Lexed d ps) (hp : ∀ p ∈ ps, p.isClosed = true) :
    Lexed d qs := by
  induction h with
  | nil => exact hl
  | keep p names ih =>
      have rest := ih hl.of_cons fun p hm => hp p (List.mem_cons_of_mem _ hm)
      cases hl with
      | char hq _ => exact .char hq rest
      | literal hl _ =>
          refine .literal (Dialect.literal?_swap _ hl fun c hc _ _ => ?_) rest
          exact names.head? hc
      | stray => simp [isClosed] at hp
  | quote w hw _ ih =>
      refine .literal (literal?_quoteName (fun hm => ?_) _)
        (ih hl.right fun p hm => hp p (by simp [hm]))
      have inert := Dialect.isQuote_of_isInert (hw _ hm)
      simp [Dialect.isQuote] at inert

/-- Without the quotes that were put on, the pieces are as whole as before. -/
theorem whole_of_quoted (h : Names d ps qs) (hq : ∀ q ∈ qs, Whole d q) : ∀ p ∈ ps, Whole d p := by
  induction h with
  | nil => exact hq
  | keep p _ ih =>
      obtain ⟨first, rest⟩ := List.forall_mem_cons.mp hq
      exact List.forall_mem_cons.mpr ⟨first, ih rest⟩
  | quote w hw _ ih =>
      intro p hp
      rcases List.mem_append.mp hp with hp | hp
      · obtain ⟨c, hc, rfl⟩ := List.mem_map.mp hp
        exact Dialect.isQuote_of_isInert (hw c hc)
      · exact ih (fun q hm => hq q (List.mem_cons_of_mem _ hm)) p hp

/-- Characters outside literals stand in no quotes that were put on. -/
theorem exists_of_chars {w : Text} (h : Names d ps (w.map char ++ qs)) :
    ∃ ps', ps = w.map char ++ ps' ∧ Names d ps' qs := by
  induction w generalizing ps with
  | nil => exact ⟨ps, rfl, h⟩
  | cons c w ih =>
      rw [List.map_cons, List.cons_append] at h
      generalize hq : char c :: (w.map char ++ qs) = qs' at h
      cases h with
      | nil => simp at hq
      | keep p h =>
          cases hq
          obtain ⟨ps', rfl, h'⟩ := ih h
          exact ⟨ps', rfl, h'⟩
      | quote => simp at hq

theorem trans {rs : List Piece} (h : Names d ps qs) (h' : Names d qs rs) : Names d ps rs := by
  induction h' generalizing ps with
  | nil => exact h
  | keep p _ ih =>
      generalize hq : p :: _ = qs' at h
      cases h with
      | nil => simp at hq
      | keep p h =>
          cases hq
          exact .keep p (ih h)
      | quote w hw h =>
          cases hq
          exact .quote w hw (ih h)
  | quote w hw _ ih =>
      obtain ⟨ps', rfl, h'⟩ := exists_of_chars h
      exact .quote w hw (ih h')

end Names

/-- A text that is written for pieces with some inert stretches in identifier quotes. -/
def Renders (d : Dialect) (ps : List Piece) (t : Text) : Prop := ∃ qs, Names d ps qs ∧ textOf qs = t

namespace Renders
variable {t u : Text}

theorem refl (ps : List Piece) : Renders d ps (textOf ps) := ⟨ps, .refl ps, rfl⟩

theorem chars (t : Text) : Renders d (t.map char) t := ⟨t.map char, .refl _, textOf_map_char t⟩

theorem append {qs : List Piece} (h : Renders d ps t) (h' : Renders d qs u) :
    Renders d (ps ++ qs) (t ++ u) := by
  obtain ⟨ps', hp, rfl⟩ := h
  obtain ⟨qs', hq, rfl⟩ := h'
  exact ⟨ps' ++ qs', hp.append hq, textOf_append ps' qs'⟩

theorem quoteName {w : Text} (h : ∀ c ∈ w, d.isInert c = true) :
    Renders d (w.map char) (d.quoteName w) :=
  ⟨[literal (d.quoteName w)], by simpa using Names.quote w h .nil, List.append_nil _⟩

end Renders

end Piece

namespace Dialect
variable {d : Dialect}

theorem renders_quoteWord {w : Text} (hw : ∀ c ∈ w, Text.isWordChar c = true)
    (behind : List Token) : Piece.Renders d (w.map .char) (d.quoteWord w behind) := by
  rw [quoteWord]
  split
  · exact .quoteName fun c hc => isInert_of_isWordChar (hw c hc)
  · exact .chars w

/-- Quoting the names among tokens puts words in quotes and changes nothing else. -/
theorem renders_quoteTokens (call : TrimCall) {ts : List Token} (h : ∀ t ∈ ts, t.Proper) :
    Piece.Renders d (Token.piecesOf ts) (d.quoteTokens call ts) := by
  fun_induction quoteTokens d call ts with
  | case1 => exact .refl []
  | case2 _ a _ _ _ _ ih | case3 _ a _ _ _ _ _ ih | case6 _ a _ _ _ ih | case7 _ a _ _ _ _ ih =>
      exact (Piece.Renders.chars a).append (ih fun t ht => h t (List.mem_cons_of_mem _ ht))
  | case4 _ a b c ts _ _ _ ih =>
      rw [List.append_assoc, List.append_assoc]
      exact (Piece.Renders.chars a).append ((Piece.Renders.chars b).append
        ((Piece.Renders.chars c).append (ih fun t ht => h t (by simp [ht]))))
  | case5 _ a _ _ _ _ _ _ ih | case8 _ a _ _ _ _ ih =>
      exact (renders_quoteWord (h (.word a) (by simp)).2 _).append
        (ih fun t ht => h t (List.mem_cons_of_mem _ ht))
  | case9 _ t _ _ _ ih =>
      rw [Token.piecesOf_cons, ← Token.textOf_pieces t]
      exact (Piece.Renders.refl t.pieces).append (ih fun t ht => h t (List.mem_cons_of_mem _ ht))

end Dialect

namespace Chunk
variable {d : Dialect}

/-- The pieces of a chunk outside unclosed quotes. -/
def pieces : Chunk → List Piece
  | literal t => [.literal t]
  | blanks t | run t => t.map .char
  | mark c => [.char c]

theorem textOf_pieces (c : Chunk) : Piece.textOf c.pieces = c.text := by
  cases c with
  | literal | mark => exact List.append_nil _
  | blanks t | run t => exact Piece.textOf_map_char t

/-- Whether the characters of a run can be quoted. -/
def Inert (d : Dialect) : Chunk → Prop
  | run t => ∀ c ∈ t, d.isInert c = true
  | _ => True

theorem pieces_attach {p : Piece} (h : p.isClosed = true) (cs : List Chunk) :
    (attach p cs).flatMap pieces = p :: cs.flatMap pieces := by
  cases p with
  | literal t => rfl
  | stray q => simp [Piece.isClosed] at h
  | char c =>
      simp only [attach]
      split
      · split <;> rfl
      · split
        · rfl
        · split <;> rfl

theorem inert_attach {p : Piece} (h : p.Whole d) {cs : List Chunk} (hc : ∀ c ∈ cs, c.Inert d) :
    ∀ c ∈ attach p cs, c.Inert d := by
  cases p with
  | literal t => exact List.forall_mem_cons.mpr ⟨trivial, hc⟩
  | stray q => exact absurd h id
  | char c =>
      simp only [attach]
      split
      · split
        · exact List.forall_mem_cons.mpr ⟨trivial, (List.forall_mem_cons.mp hc).2⟩
        · exact List.forall_mem_cons.mpr ⟨trivial, hc⟩
      · split
        · exact List.forall_mem_cons.mpr ⟨trivial, hc⟩
        · rename_i hm
          have inert : d.isInert c = true := by
            have hq : d.isQuote c = false := h
            simp only [isMark, Bool.or_eq_true, beq_iff_eq, not_or] at hm
            simp [Dialect.isInert, hq, hm]
          split
          · obtain ⟨first, rest⟩ := List.forall_mem_cons.mp hc
            exact List.forall_mem_cons.mpr ⟨List.forall_mem_cons.mpr ⟨inert, first⟩, rest⟩
          · exact List.forall_mem_cons.mpr ⟨List.forall_mem_singleton.mpr inert, hc⟩

/-- The chunks of a closed text have its pieces, and their runs can be quoted. -/
theorem ofText_of_closed {t : Text} (h : d.Closed t) :
    (ofText d t).flatMap pieces = Piece.ofText d t ∧ ∀ c ∈ ofText d t, c.Inert d := by
  rw [ofText]
  have whole : ∀ p ∈ Piece.ofText d t, p.Whole d := fun _ => h.whole
  generalize Piece.ofText d t = ps at whole
  induction ps with
  | nil => exact ⟨rfl, by simp⟩
  | cons p ps ih =>
      obtain ⟨first, rest⟩ := List.forall_mem_cons.mp whole
      obtain ⟨pieces, inert⟩ := ih rest
      rw [List.foldr_cons, pieces_attach first.isClosed, pieces]
      exact ⟨rfl, inert_attach first inert⟩

end Chunk

namespace Dialect
variable {d : Dialect}

theorem renders_quoteRun (before : Option Char) {w : Text} (hw : ∀ c ∈ w, d.isInert c = true) :
    Piece.Renders d (w.map .char) (d.quoteRun before w) := by
  rw [quoteRun]
  split
  · exact .quoteName hw
  · exact .chars w

theorem renders_keepCollation {w : Text} (hw : ∀ c ∈ w, d.isInert c = true) :
    Piece.Renders d (w.map .char) (d.keepCollation w) := by
  have parts := List.takeWhile_append_dropWhile (p := Text.isWordChar) (l := w)
  have quoted := (Piece.Renders.chars (d := d) (w.takeWhile Text.isWordChar)).append
    (renders_quoteRun (w.takeWhile Text.isWordChar).getLast?
      fun c hc => hw c ((List.dropWhile_sublist Text.isWordChar).mem hc))
  rwa [← List.map_append, parts] at quoted

/-- Quoting the runs among chunks puts runs in quotes and changes nothing else. -/
theorem renders_quoteChunks (before : Option Chunk) {cs : List Chunk}
    (h : ∀ c ∈ cs, c.Inert d) :
    Piece.Renders d (cs.flatMap Chunk.pieces) (d.quoteChunks before cs) := by
  fun_induction quoteChunks d before cs with
  | case1 => exact .refl []
  | case2 _ a _ _ _ _ _ ih | case7 _ a _ _ _ ih =>
      exact (Piece.Renders.chars a).append (ih fun c hc => h c (List.mem_cons_of_mem _ hc))
  | case3 _ a b c cs _ _ _ ih =>
      rw [List.append_assoc, List.append_assoc]
      exact (Piece.Renders.chars a).append ((Piece.Renders.chars b).append
        ((Piece.Renders.chars c).append (ih fun c hc => h c (by simp [hc]))))
  | case4 _ a b c cs _ _ _ _ ih =>
      rw [List.append_assoc, List.append_assoc]
      exact (Piece.Renders.chars a).append ((Piece.Renders.chars b).append
        ((renders_keepCollation (h (.run c) (by simp))).append (ih fun c hc => h c (by simp [hc]))))
  | case5 _ a _ _ _ _ _ _ _ ih | case6 _ a _ _ _ _ ih | case8 _ a _ _ _ ih =>
      exact (renders_quoteRun none (h (.run a) (by simp))).append
        (ih fun c hc => h c (List.mem_cons_of_mem _ hc))
  | case9 _ c _ _ _ ih =>
      rw [List.flatMap_cons, ← Chunk.textOf_pieces c]
      exact (Piece.Renders.refl c.pieces).append (ih fun c hc => h c (List.mem_cons_of_mem _ hc))

/-- A text that is written for a closed text with some names in quotes. -/
theorem Closed.of_renders {t u : Text} (ht : d.Closed t)
    (h : Piece.Renders d (Piece.ofText d t) u) :
    d.Closed u ∧ d.delimiters u = d.delimiters t := by
  obtain ⟨qs, names, rfl⟩ := h
  have whole := names.whole fun _ => ht.whole
  exact ⟨closed_textOf whole, by rw [delimiters_textOf whole, names.delimiters, delimiters]⟩

theorem renders_quoteWords {t : Text} (h : d.Closed t) :
    Piece.Renders d (Piece.ofText d t) (d.quoteWords t) := by
  obtain ⟨pieces, inert⟩ := Chunk.ofText_of_closed h
  rw [← pieces]
  exact renders_quoteChunks none inert

theorem renders_quoteNames (d : Dialect) (t : Text) :
    Piece.Renders d (Piece.ofText d t) (d.quoteNames t) := by
  rw [← Token.piecesOf_ofText]
  exact renders_quoteTokens .none (Token.tidy_ofText d t).proper

end Dialect
end SqlStatement
