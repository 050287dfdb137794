import SqlStatement.Proofs.Tokenizing
import SqlStatement.Proofs.Veiling

/-!
# Welding closed texts

Closed texts stay closed when they are put behind each other. Their pieces stay
what they are, except that a string takes in a string behind it if both have
the same quote: `'a'` and `'b'` make up the one literal `'a''b'`. Nothing that
stands outside literals is touched by this.
-/
namespace SqlStatement

/-- The quote behind a closed literal starts an escape where quotes are doubled, and the literal
goes on. -/
theorem Escape.close?_append_quote {e : Escape} {q : Char} {lit : Text} (t : Text) (hq : q ≠ '\\')
    (he : e ≠ .never) (h : e.close? q lit = some (lit, [])) :
    e.close? q (lit ++ q :: t) = (e.close? q t).map fun r => (lit ++ q :: r.1, r.2) := by
  suffices run : ∀ body, e.close? q lit = some (body, []) →
      e.close? q (body ++ q :: t) = (e.close? q t).map fun r => (body ++ q :: r.1, r.2) from run _ h
  clear h
  fun_induction Escape.close? e q lit with
  | case1 => simp
  | case2 =>
      rintro _ ⟨⟩
      rw [List.singleton_append, close?, if_neg (fun hc => hq hc.1), if_pos rfl, if_pos ⟨rfl, he⟩]
      rfl
  | case3 => simp
  | case4 c c' r hc ih =>
      rintro _ h
      obtain ⟨⟨body, _⟩, hx, ⟨⟩⟩ := Option.map_eq_some_iff.mp h
      rw [List.cons_append, List.cons_append, close?, if_pos hc, ih _ hx, Option.map_map]
      rfl
  | case5 c' r hd hc ih =>
      rintro _ h
      obtain ⟨⟨body, _⟩, hx, ⟨⟩⟩ := Option.map_eq_some_iff.mp h
      rw [List.cons_append, List.cons_append, close?, if_neg hc, if_pos rfl, if_pos hd, ih _ hx,
        Option.map_map]
      rfl
  | case6 => simp
  | case7 c c' r hc hne ih =>
      rintro _ h
      obtain ⟨⟨body, _⟩, hx, ⟨⟩⟩ := Option.map_eq_some_iff.mp h
      rw [List.cons_append, close?_cons_of_ne _ hne hc, ih _ hx, Option.map_map]
      rfl

namespace Dialect
variable {d : Dialect}

/-- Whether a literal takes in a literal behind it: both have the same quote, and it is one that
can be written inside. -/
def takesIn (d : Dialect) (a b : Text) : Bool :=
  a.head? == b.head? && a.head?.any d.isStringQuote

theorem stringEscape_ne_never : d.stringEscape ≠ .never := by
  cases d <;> simp [stringEscape]

/-- A literal with one that it takes in is a single literal. -/
theorem literal?_of_takesIn {a b t : Text} (ha : d.literal? a = some (a, []))
    (hb : d.literal? (b ++ t) = some (b, t)) (h : d.takesIn a b = true) :
    d.literal? (a ++ b ++ t) = some (a ++ b, t) := by
  obtain ⟨q, a, rfl, hq⟩ := literal?_quote ha
  obtain ⟨q', b, rfl, -⟩ := literal?_quote hb
  simp only [takesIn, List.head?_cons, Bool.and_eq_true, beq_iff_eq, Option.some.injEq,
    Option.any_some] at h
  obtain ⟨rfl, hs⟩ := h
  have escapes : d.escapeOf? q = some d.stringEscape := by rw [escapeOf?, if_pos hs]
  have inner (t lit rest : Text) (h : d.literal? (q :: t) = some (q :: lit, rest)) :
      d.stringEscape.close? q t = some (lit, rest) := by
    rw [literal?_cons, escapes, Option.bind_some] at h
    obtain ⟨r, hr, he⟩ := Option.map_eq_some_iff.mp h
    cases he
    exact hr
  rw [List.append_assoc, List.cons_append, List.cons_append, literal?_cons, escapes,
    Option.bind_some, Escape.close?_append_quote _ (isQuote_ne_backslash hq) stringEscape_ne_never
      (inner _ _ _ ha), inner (b ++ t) _ _ hb]
  rfl

/-- A literal ends in front of a text that does not start with its own quote, or where its quote
cannot be written inside. -/
theorem literal?_append_of_head {a t : Text} (ha : d.literal? a = some (a, []))
    (h : ∀ c, a.head? = some c → t.head? = some c → d.isStringQuote c = false) :
    d.literal? (a ++ t) = some (a, t) := by
  have alone : d.literal? (a ++ []) = some (a, []) := by rwa [List.append_nil]
  refine literal?_swap t alone fun c ht hq hl => .inr ?_
  simpa [isQuote, h c hl ht] using hq

end Dialect

namespace Piece
variable {d : Dialect} {ps : List Piece}

/-- Whether a piece is a literal. -/
def isLiteral : Piece → Bool
  | literal _ => true
  | stray _ | char _ => false

/-- A piece that its own text is cut into. -/
def Whole (d : Dialect) : Piece → Prop
  | literal t => d.literal? t = some (t, [])
  | stray _ => False
  | char c => d.isQuote c = false

/-- The closed pieces of a text are cut from their own texts, too. -/
theorem Lexed.whole (h : Lexed d ps) {p : Piece} (hp : p ∈ ps) (hc : p.isClosed = true) :
    Whole d p := by
  induction h with
  | nil => simp at hp
  | @char c _ hq _ ih =>
      rcases List.mem_cons.mp hp with rfl | hp
      · exact hq
      · exact ih hp
  | @literal lit _ hl _ ih =>
      rcases List.mem_cons.mp hp with rfl | hp
      · have alone := Dialect.literal?_swap [] hl (by simp)
        rwa [List.append_nil] at alone
      · exact ih hp
  | @stray q _ _ _ _ ih =>
      rcases List.mem_cons.mp hp with rfl | hp
      · simp [isClosed] at hc
      · exact ih hp

/-- The pieces outside literals. -/
def bare (ps : List Piece) : List Piece := ps.filter fun p => !p.isLiteral

@[simp] theorem bare_append (ps qs : List Piece) : bare (ps ++ qs) = bare ps ++ bare qs :=
  List.filter_append ..

theorem isClosed_iff_bare : (∀ p ∈ ps, p.isClosed = true) ↔ ∀ p ∈ bare ps, p.isClosed = true := by
  refine ⟨fun h p hp => h p (List.mem_filter.mp hp).1, fun h p hp => ?_⟩
  cases p with
  | literal t => rfl
  | stray | char => exact h _ (List.mem_filter.mpr ⟨hp, rfl⟩)

/-- Puts a piece in front of others. A literal goes on with the first of them if it takes it in. -/
def fuse (d : Dialect) : Piece → List Piece → List Piece
  | literal a, literal b :: ps =>
      if d.takesIn a b then literal (a ++ b) :: ps else literal a :: literal b :: ps
  | p, ps => p :: ps

/-- Pieces put behind each other. -/
def weld (d : Dialect) (ps : List Piece) : List Piece := ps.foldr (fuse d) []

theorem weld_cons (p : Piece) (ps : List Piece) : weld d (p :: ps) = fuse d p (weld d ps) := rfl

theorem textOf_fuse (p : Piece) (ps : List Piece) :
    textOf (fuse d p ps) = p.text ++ textOf ps := by
  unfold fuse
  split
  · split <;> simp [text]
  · rfl

theorem textOf_weld (ps : List Piece) : textOf (weld d ps) = textOf ps := by
  induction ps with
  | nil => rfl
  | cons p ps ih => rw [weld_cons, textOf_fuse, ih, textOf_cons]

theorem bare_fuse (p : Piece) (ps : List Piece) : bare (fuse d p ps) = bare (p :: ps) := by
  unfold fuse
  split
  · split <;> rfl
  · rfl

/-- Nothing outside literals changes where pieces are put behind each other. -/
@[simp] theorem bare_weld (ps : List Piece) : bare (weld d ps) = bare ps := by
  induction ps with
  | nil => rfl
  | cons p ps ih =>
      rw [weld_cons, bare_fuse, bare, List.filter_cons, ← bare, ih, bare, bare, List.filter_cons]

theorem Lexed.fuse {p : Piece} (h : Lexed d ps) (hc : ∀ p ∈ ps, p.isClosed = true)
    (hp : Whole d p) : Lexed d (fuse d p ps) := by
  cases p with
  | stray q => exact absurd hp id
  | char c => exact .char hp h
  | literal a =>
      have alone (hh : ∀ c, a.head? = some c → (textOf ps).head? = some c →
          d.isStringQuote c = false) : Lexed d (.literal a :: ps) :=
        .literal (Dialect.literal?_append_of_head hp hh) h
      cases h with
      | nil => exact alone (by simp)
      | @char c _ hq _ =>
          refine alone fun c' _ ht => ?_
          obtain rfl : c = c' := Option.some.inj ht
          simp only [Dialect.isQuote, Bool.or_eq_false_iff] at hq
          exact hq.2
      | @literal b _ hb h' =>
          rw [Piece.fuse]
          split
          · rename_i ht
            exact .literal (Dialect.literal?_of_takesIn hp hb ht) h'
          · rename_i ht
            obtain ⟨q, b, rfl, -⟩ := Dialect.literal?_quote hb
            refine alone fun c ha hc => ?_
            obtain rfl : q = c := Option.some.inj hc
            simpa [Dialect.takesIn, ha] using ht
      | @stray q _ _ _ _ => exact absurd (hc (.stray q) (by simp)) (by simp [isClosed])

theorem Whole.isClosed {p : Piece} (h : Whole d p) : p.isClosed = true := by
  cases p with
  | stray q => exact absurd h id
  | literal | char => rfl

theorem isClosed_weld (h : ∀ p ∈ ps, p.isClosed = true) : ∀ p ∈ weld d ps, p.isClosed = true := by
  rw [isClosed_iff_bare, bare_weld, ← isClosed_iff_bare]
  exact h

/-- Whole pieces become the pieces of the text that they make up. -/
theorem lexed_weld (h : ∀ p ∈ ps, Whole d p) : Lexed d (weld d ps) := by
  induction ps with
  | nil => exact .nil
  | cons p ps ih =>
      have rest : ∀ p ∈ ps, Whole d p := fun p hp => h p (by simp [hp])
      exact (ih rest).fuse (isClosed_weld fun p hp => (rest p hp).isClosed) (h p (by simp))

theorem ofText_textOf_of_whole (h : ∀ p ∈ ps, Whole d p) : ofText d (textOf ps) = weld d ps := by
  rw [← (lexed_weld h).ofText_textOf, textOf_weld]

end Piece

namespace Dialect
variable {d : Dialect} {t u : Text}

/-- Whether every quoted literal of a text is closed. -/
def Closed (d : Dialect) (t : Text) : Prop := ∀ p ∈ Piece.ofText d t, p.isClosed = true

instance (d : Dialect) (t : Text) : Decidable (d.Closed t) :=
  inferInstanceAs (Decidable (∀ p ∈ Piece.ofText d t, p.isClosed = true))

theorem Closed.whole (h : d.Closed t) {p : Piece} (hp : p ∈ Piece.ofText d t) : p.Whole d :=
  (Piece.lexed_ofText d t).whole hp (h p hp)

theorem closed_textOf {ps : List Piece} (h : ∀ p ∈ ps, p.Whole d) : d.Closed (Piece.textOf ps) := by
  rw [Closed, Piece.ofText_textOf_of_whole h]
  exact Piece.isClosed_weld fun p hp => (h p hp).isClosed

theorem closed_of_forall (h : ∀ c ∈ t, d.isQuote c = false) : d.Closed t := by
  rw [← Piece.textOf_map_char t]
  refine closed_textOf fun p hp => ?_
  obtain ⟨c, hc, rfl⟩ := List.mem_map.mp hp
  exact h c hc

/-- The pieces of closed texts behind each other. -/
theorem Closed.ofText_append (ht : d.Closed t) (hu : d.Closed u) :
    Piece.ofText d (t ++ u) = Piece.weld d (Piece.ofText d t ++ Piece.ofText d u) := by
  rw [← Piece.ofText_textOf_of_whole fun p hp => (List.mem_append.mp hp).elim ht.whole hu.whole,
    Piece.textOf_append, Piece.textOf_ofText, Piece.textOf_ofText]

theorem Closed.append (ht : d.Closed t) (hu : d.Closed u) : d.Closed (t ++ u) := by
  rw [Closed, ht.ofText_append hu]
  exact Piece.isClosed_weld fun p hp => (List.mem_append.mp hp).elim (ht p) (hu p)

/-- The pieces of a text outside literals. -/
def bare (d : Dialect) (t : Text) : List Piece := Piece.bare (Piece.ofText d t)

/-- What stands outside literals in closed texts stands there when they are put behind each
other. -/
theorem Closed.bare_append (ht : d.Closed t) (hu : d.Closed u) :
    d.bare (t ++ u) = d.bare t ++ d.bare u := by
  rw [bare, ht.ofText_append hu, Piece.bare_weld, Piece.bare_append, bare, bare]

/-- Every token of a closed text is closed. -/
theorem Closed.text_of_mem (h : d.Closed t) {u : Token} (hu : u ∈ Token.ofText d t) :
    d.Closed u.text := by
  rw [← Token.textOf_pieces]
  exact closed_textOf fun p hp => h.whole (Token.mem_ofText_of_mem_pieces hu hp)

end Dialect
end SqlStatement
