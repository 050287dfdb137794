import Mathlib.Data.List.Forall2
import SqlStatement.Placeholder
import SqlStatement.Proofs.Welding

/-!
# Bound texts

A text value is written as a single closed literal, whatever its characters. Two
ways to bind texts to a closed statement therefore give the same pieces up to
the contents of literals, and where a bound literal is taken in by a literal in
front of it this happens both times. So the tokens agree in number and kind, and
in everything outside literals.
-/
namespace SqlStatement

namespace Dialect
variable {d : Dialect}

/-- A character stands for itself, or it stands behind a backslash. -/
theorem escapeChar_mysql (c : Char) :
    (mysql.escapeChar c = [c] ∧ c ≠ '\'' ∧ c ≠ '\\') ∨ ∃ c', mysql.escapeChar c = ['\\', c'] := by
  simp only [escapeChar]
  split_ifs
  all_goals first
    | exact .inr ⟨_, rfl⟩
    | exact .inl ⟨rfl, ‹_›, ‹_›⟩

/-- The escapes of a string literal leave the search for its closing quote to what follows. -/
theorem passes_escapes (d : Dialect) (t : Text) :
    d.stringEscape.passes d.stringQuote (t.flatMap d.escapeChar) = true := by
  induction t with
  | nil => rfl
  | cons c t ih =>
      rw [List.flatMap_cons]
      cases d with
      | generic =>
          by_cases hc : c = '\''
          · simpa [escapeChar, stringEscape, stringQuote, Escape.passes, hc] using ih
          · rw [escapeChar, if_neg hc, List.singleton_append]
            exact (Escape.passes_cons_of_ne _ hc (by simp [stringEscape])).trans ih
      | mysql =>
          obtain ⟨plain, hq, hb⟩ | ⟨c', escaped⟩ := escapeChar_mysql c
          · rw [plain, List.singleton_append]
            exact (Escape.passes_cons_of_ne _ hq fun he => hb he.1).trans ih
          · simpa [escaped, stringEscape, stringQuote, Escape.passes] using ih

/-- What a text is written as is a single closed literal. -/
theorem literal?_quoteString (d : Dialect) (t : Text) :
    d.literal? (d.quoteString t) = some (d.quoteString t, []) := by
  have escapes : d.escapeOf? d.stringQuote = some d.stringEscape := by cases d <;> rfl
  rw [quoteString, literal?_cons, escapes, Option.bind_some,
    Escape.close?_append_of_passes (d.passes_escapes t), Escape.close?, if_pos rfl]
  rfl

end Dialect

namespace Piece
variable {d : Dialect}

/-- Pieces that are the same, or two literals with the same quote. -/
inductive Alike : Piece → Piece → Prop
  | same (p : Piece) : Alike p p
  | literal {a b : Text} (h : a.head? = b.head?) : Alike (literal a) (literal b)

/-- Literals with the same quote take in alike literals, or leave them both times. -/
theorem Alike.fuse_literal {a b : Text} (h : a.head? = b.head?) {ps qs : List Piece}
    (hs : List.Forall₂ Alike ps qs) :
    List.Forall₂ Alike (fuse d (.literal a) ps) (fuse d (.literal b) qs) := by
  have joined {a' b' : Text} {ps qs : List Piece} (h' : a'.head? = b'.head?)
      (hs : List.Forall₂ Alike ps qs) :
      List.Forall₂ Alike (fuse d (.literal a) (.literal a' :: ps))
        (fuse d (.literal b) (.literal b' :: qs)) := by
    have same : d.takesIn a a' = d.takesIn b b' := by rw [Dialect.takesIn, Dialect.takesIn, h, h']
    rw [fuse, fuse, same]
    split
    · exact .cons (.literal (by rw [List.head?_append, List.head?_append, h, h'])) hs
    · exact .cons (.literal h) (.cons (.literal h') hs)
  cases hs with
  | nil => exact .cons (.literal h) .nil
  | @cons p _ _ _ h' hs =>
      cases h' with
      | literal h' => exact joined h' hs
      | same =>
          cases p with
          | literal t => exact joined rfl hs
          | stray | char => exact .cons (.literal h) (.cons (.same _) hs)

theorem Alike.fuse {p q : Piece} {ps qs : List Piece} (h : Alike p q)
    (hs : List.Forall₂ Alike ps qs) : List.Forall₂ Alike (fuse d p ps) (fuse d q qs) := by
  cases h with
  | literal h => exact fuse_literal h hs
  | same =>
      cases p with
      | literal t => exact fuse_literal rfl hs
      | stray | char => exact .cons (.same _) hs

theorem Alike.weld {ps qs : List Piece} (h : List.Forall₂ Alike ps qs) :
    List.Forall₂ Alike (weld d ps) (weld d qs) := by
  induction h with
  | nil => exact .nil
  | cons h _ ih => exact h.fuse ih

end Piece

namespace Token

/-- Tokens that are the same, or two quoted literals. -/
inductive Alike : Token → Token → Prop
  | same (t : Token) : Alike t t
  | quoted (a b : Text) : Alike (quoted a) (quoted b)

theorem Alike.refl (ts : List Token) : List.Forall₂ Alike ts ts :=
  List.forall₂_same.mpr fun t _ => .same t

/-- Pieces in front of tokens join the first of them both times, or stay apart both times. -/
theorem Alike.attach {p q : Piece} {ts us : List Token} (h : p.Alike q)
    (hs : List.Forall₂ Alike ts us) : List.Forall₂ Alike (attach p ts) (attach q us) := by
  cases h with
  | literal => exact .cons (.quoted _ _) hs
  | same =>
      cases hs with
      | nil => exact Alike.refl _
      | @cons _ _ ts us h hs =>
          cases h with
          | quoted a b =>
              have apart (x : Text) (ts : List Token) : standsApart p (.quoted x :: ts) :=
                standsApart_of_head p (by rintro _ ⟨⟩; exact ⟨rfl, rfl⟩)
              rw [apart a, apart b]
              exact List.rel_append (Alike.refl _) (.cons (.quoted a b) hs)
          | same =>
              have first (t : Token) (ts : List Token) :
                  Token.attach p (t :: ts) = Token.attach p [t] ++ ts :=
                attach_append p ts (List.cons_ne_nil t [])
              rw [first _ ts, first _ us]
              exact List.rel_append (Alike.refl _) hs

theorem Alike.ofPieces {ps qs : List Piece} (h : List.Forall₂ Piece.Alike ps qs) :
    List.Forall₂ Alike (ofPieces ps) (ofPieces qs) := by
  induction h with
  | nil => exact .nil
  | cons h _ ih => exact Alike.attach h ih

end Token
/-- Two texts that are put together from the same pieces outside literals, and from literals with
the same quotes. -/
def Dialect.Paired (d : Dialect) (t u : Text) : Prop :=
  ∃ ps qs, List.Forall₂ Piece.Alike ps qs ∧
    ((∀ p ∈ ps, p.Whole d) ∧ Piece.textOf ps = t) ∧ (∀ q ∈ qs, q.Whole d) ∧ Piece.textOf qs = u

namespace Dialect
variable {d : Dialect} {t u : Text}

theorem Closed.paired (h : d.Closed t) : d.Paired t t :=
  ⟨Piece.ofText d t, Piece.ofText d t, List.forall₂_same.mpr fun p _ => .same p,
    ⟨fun _ => h.whole, Piece.textOf_ofText d t⟩, fun _ => h.whole, Piece.textOf_ofText d t⟩

theorem Paired.append {t' u' : Text} (h : d.Paired t u) (h' : d.Paired t' u') :
    d.Paired (t ++ t') (u ++ u') := by
  obtain ⟨ps, qs, alike, ⟨hp, rfl⟩, hq, rfl⟩ := h
  obtain ⟨ps', qs', alike', ⟨hp', rfl⟩, hq', rfl⟩ := h'
  exact ⟨ps ++ ps', qs ++ qs', List.rel_append alike alike',
    ⟨fun p hm => (List.mem_append.mp hm).elim (hp p) (hp' p), Piece.textOf_append ps ps'⟩,
    fun q hm => (List.mem_append.mp hm).elim (hq q) (hq' q), Piece.textOf_append qs qs'⟩

theorem paired_quoteString (d : Dialect) (t u : Text) :
    d.Paired (d.quoteString t) (d.quoteString u) :=
  ⟨[.literal (d.quoteString t)], [.literal (d.quoteString u)], .cons (.literal rfl) .nil,
    ⟨List.forall_mem_singleton.mpr (d.literal?_quoteString t), List.append_nil _⟩,
    List.forall_mem_singleton.mpr (d.literal?_quoteString u), List.append_nil _⟩

/-- Paired texts have the same tokens up to the contents of literals. -/
theorem Paired.tokens (h : d.Paired t u) :
    List.Forall₂ Token.Alike (Token.ofText d t) (Token.ofText d u) := by
  obtain ⟨ps, qs, alike, ⟨hp, rfl⟩, hq, rfl⟩ := h
  rw [Token.ofText, Piece.ofText_textOf_of_whole hp, Token.ofText, Piece.ofText_textOf_of_whole hq]
  exact Token.Alike.ofPieces (Piece.Alike.weld alike)

end Dialect

namespace TemplatePart
variable {d : Dialect}

/-- Running text with closed literals, or a placeholder with such a name. -/
def Closed (d : Dialect) : TemplatePart → Prop
  | text t => d.Closed t
  | hole p => ∀ n, p.name = some n → d.Closed n

theorem closed_ofTokens {ts : List Token} (h : ∀ t ∈ ts, d.Closed t.text) :
    ∀ part ∈ ofTokens ts, part.Closed d := by
  fun_induction ofTokens ts with
  | case1 => simp
  | case2 ts ih =>
      refine List.forall_mem_cons.mpr ⟨?_, ih fun t ht => h t (by simp [ht])⟩
      rintro n ⟨⟩
  | case3 w ts _ ih =>
      refine List.forall_mem_cons.mpr ⟨?_, ih fun t ht => h t (by simp [ht])⟩
      rintro n ⟨⟩
      exact h (.word w) (by simp)
  | case4 ts _ _ ih =>
      exact List.forall_mem_cons.mpr ⟨h (.symbol ':') (by simp), ih fun t ht => h t (by simp [ht])⟩
  | case5 t ts _ _ ih =>
      exact List.forall_mem_cons.mpr ⟨h t (by simp), ih fun t ht => h t (by simp [ht])⟩

/-- Percent signs that join a placeholder change no name. -/
theorem closed_joinWildcards {parts : List TemplatePart} (h : ∀ part ∈ parts, part.Closed d) :
    ∀ part ∈ joinWildcards parts, part.Closed d := by
  fun_induction joinWildcards parts with
  | case1 => simp
  | case2 p rest ih =>
      exact List.forall_mem_cons.mpr ⟨h (.hole p) (by simp), ih fun t ht => h t (by simp [ht])⟩
  | case3 p rest _ ih =>
      exact List.forall_mem_cons.mpr ⟨h (.hole p) (by simp), ih fun t ht => h t (by simp [ht])⟩
  | case4 p rest ih =>
      exact List.forall_mem_cons.mpr ⟨h (.hole p) (by simp), ih fun t ht => h t (by simp [ht])⟩
  | case5 part rest _ _ _ ih =>
      exact List.forall_mem_cons.mpr ⟨h part (by simp), ih fun t ht => h t (by simp [ht])⟩

theorem closed_ofStatement {t : Text} (h : d.Closed t) :
    ∀ part ∈ ofStatement d t, part.Closed d :=
  closed_joinWildcards (closed_ofTokens fun _ => h.text_of_mem)

end TemplatePart

/-- A placeholder as it stands has no quote that its name does not have. -/
theorem Placeholder.closed_text {d : Dialect} {p : Placeholder}
    (h : (TemplatePart.hole p).Closed d) : d.Closed p.text := by
  have sign {t : Text} (ht : t ∈ [[], ['%'], ['?'], [':']]) : d.Closed t := by
    have plain : d.isQuote '%' = false ∧ d.isQuote '?' = false ∧ d.isQuote ':' = false := by
      cases d <;> decide
    simp only [List.mem_cons, List.not_mem_nil, or_false] at ht
    rcases ht with rfl | rfl | rfl | rfl <;> exact Dialect.closed_of_forall (by simp [plain])
  have wild (b : Bool) : d.Closed (wildcard b) := by cases b <;> exact sign (by simp [wildcard])
  refine ((wild _).append ?_).append (wild _)
  split
  · exact sign (by simp)
  · rename_i n hn
    exact (sign (t := [':']) (by simp)).append (h n hn)

/-- A text becomes a string literal, with or without percent signs around it. -/
theorem Placeholder.literal_text (d : Dialect) (p : Placeholder) (t : Text) :
    ∃ t', p.literal d (.text t) = d.quoteString t' := by
  rw [literal]
  split
  · exact ⟨_, rfl⟩
  · exact ⟨t, by rw [Dialect.quoteValue]⟩

theorem Placeholder.paired_literal (d : Dialect) (p : Placeholder) {v w : Value}
    (hv : v.text?.isSome = true) (hw : w.text?.isSome = true) :
    d.Paired (p.literal d v) (p.literal d w) := by
  cases v with
  | text t =>
      cases w with
      | text u =>
          obtain ⟨t', ht⟩ := p.literal_text d t
          obtain ⟨u', hu⟩ := p.literal_text d u
          rw [ht, hu]
          exact d.paired_quoteString t' u'
      | _ => simp [Value.text?] at hw
  | _ => simp [Value.text?] at hv

theorem OrderedMap.mem_of_get? {κ α : Type} [DecidableEq κ] {m : OrderedMap κ α} {key : κ}
    {value : α} (h : m.get? key = some value) : (key, value) ∈ m.toList := by
  obtain ⟨l⟩ := m
  change find? key l = some value at h
  induction l with
  | nil => simp [find?] at h
  | cons e rest ih =>
      obtain ⟨k, v⟩ := e
      rw [find?] at h
      split at h
      · rename_i hk
        cases h
        simp [hk]
      · exact List.mem_cons_of_mem _ (ih h)

namespace Parameters
variable {d : Dialect}

/-- Whether all values are texts. -/
def allText (p : Parameters) : Bool :=
  p.positional.all (·.text?.isSome) && p.named.toList.all (·.2.text?.isSome)

/-- Two ways to fill a template, placeholder by placeholder. -/
theorem paired_fill {named named' : OrderedMap Text Value} {parts : List TemplatePart}
    {vs vs' : List Value} (hc : ∀ part ∈ parts, part.Closed d)
    (hv : ∀ v ∈ vs, v.text?.isSome = true) (hv' : ∀ v ∈ vs', v.text?.isSome = true)
    (hm : ∀ e ∈ named.toList, e.2.text?.isSome = true)
    (hm' : ∀ e ∈ named'.toList, e.2.text?.isSome = true) (hl : vs.length = vs'.length)
    (hn : ∀ n, named.contains n = named'.contains n) :
    d.Paired (fill d named vs parts) (fill d named' vs' parts) := by
  induction parts generalizing vs vs' with
  | nil =>
      rw [fill, fill]
      exact (Dialect.closed_of_forall (by simp)).paired
  | cons part parts ih =>
      obtain ⟨first, rest⟩ := List.forall_mem_cons.mp hc
      cases part with
      | text t =>
          rw [fill, fill]
          exact (Dialect.Closed.paired first).append (ih rest hv hv' hl)
      | hole p =>
          have asIs := (Placeholder.closed_text first).paired
          unfold fill
          cases hp : p.name with
          | some n =>
              refine Dialect.Paired.append ?_ (ih rest hv hv' hl)
              have both := hn n
              rw [OrderedMap.contains, OrderedMap.contains] at both
              cases hg : named.get? n with
              | none =>
                  cases hg' : named'.get? n with
                  | none => exact asIs
                  | some w => simp [hg, hg'] at both
              | some v =>
                  cases hg' : named'.get? n with
                  | none => simp [hg, hg'] at both
                  | some w =>
                      exact p.paired_literal d (hm _ (OrderedMap.mem_of_get? hg))
                        (hm' _ (OrderedMap.mem_of_get? hg'))
          | none =>
              cases vs with
              | nil =>
                  obtain rfl : vs' = [] := List.length_eq_zero_iff.mp hl.symm
                  exact asIs.append (ih rest hv hv' hl)
              | cons v vs =>
                  obtain ⟨w, vs', rfl⟩ := List.exists_cons_of_length_eq_add_one hl.symm
                  obtain ⟨value, values⟩ := List.forall_mem_cons.mp hv
                  obtain ⟨value', values'⟩ := List.forall_mem_cons.mp hv'
                  exact (p.paired_literal d value value').append
                    (ih rest values values' (Nat.succ.inj hl))

end Parameters

namespace TemplatePart

/-- A placeholder without percent signs, or running text. -/
def Bare : TemplatePart → Prop
  | text _ => True
  | hole p => p.wildBefore = false ∧ p.wildBehind = false

theorem bare_ofTokens (ts : List Token) : ∀ part ∈ ofTokens ts, part.Bare := by
  fun_induction ofTokens ts with
  | case1 => simp
  | case2 ts ih => exact List.forall_mem_cons.mpr ⟨⟨rfl, rfl⟩, ih⟩
  | case3 w us h ih => exact List.forall_mem_cons.mpr ⟨⟨rfl, rfl⟩, ih⟩
  | case4 us h h' ih => exact List.forall_mem_cons.mpr ⟨trivial, ih⟩
  | case5 t ts h h' ih => exact List.forall_mem_cons.mpr ⟨trivial, ih⟩

end TemplatePart

namespace Parameters
open TemplatePart
variable {d : Dialect}

theorem fill_text (t : Text) (parts : List TemplatePart) :
    fill d ⟨[]⟩ [] (.text t :: parts) = t ++ fill d ⟨[]⟩ [] parts := rfl

theorem fill_hole (p : Placeholder) (parts : List TemplatePart) :
    fill d ⟨[]⟩ [] (.hole p :: parts) = p.text ++ fill d ⟨[]⟩ [] parts := by
  rw [fill]
  cases p.name <;> rfl

theorem fill_joinWildcards {parts : List TemplatePart} (h : ∀ part ∈ parts, part.Bare) :
    fill d ⟨[]⟩ [] (joinWildcards parts) = fill d ⟨[]⟩ [] parts := by
  fun_induction joinWildcards parts with
  | case1 => rfl
  | case2 p rest ih =>
      simp only [List.forall_mem_cons] at h
      obtain ⟨-, ⟨before, behind⟩, -, h⟩ := h
      simp only [fill_hole, fill_text, ih h, Placeholder.text, Placeholder.wildcard, before, behind]
      simp
  | case3 p rest hn ih =>
      simp only [List.forall_mem_cons] at h
      obtain ⟨-, ⟨before, behind⟩, h⟩ := h
      simp only [fill_hole, fill_text, ih h, Placeholder.text, Placeholder.wildcard, before, behind]
      simp
  | case4 p rest ih =>
      simp only [List.forall_mem_cons] at h
      obtain ⟨⟨before, behind⟩, -, h⟩ := h
      simp only [fill_hole, fill_text, ih h, Placeholder.text, Placeholder.wildcard, before, behind]
      simp
  | case5 part rest h₁ h₂ h₃ ih =>
      have rest := ih (List.forall_mem_cons.mp h).2
      cases part with
      | text t => rw [fill_text, fill_text, rest]
      | hole p => rw [fill_hole, fill_hole, rest]

theorem fill_ofTokens (ts : List Token) : fill d ⟨[]⟩ [] (ofTokens ts) = Token.textOf ts := by
  fun_induction ofTokens ts with
  | case1 => rfl
  | case2 ts ih =>
      rw [fill_hole, ih]
      rfl
  | case3 w us h ih =>
      rw [fill_hole, ih]
      simp [Placeholder.text, Placeholder.wildcard, Token.text]
  | case4 us h h' ih | case5 t ts h h' ih =>
      rw [fill_text, ih]
      rfl

end Parameters

/-- Without values a statement stays as it is. -/
theorem Dialect.bind_empty (d : Dialect) (t : Text) : d.bind {} t = t := by
  rw [bind, TemplatePart.ofStatement, Parameters.fill_joinWildcards (TemplatePart.bare_ofTokens _),
    Parameters.fill_ofTokens, Token.textOf_ofText]

/-- The texts that are bound to a closed statement decide nothing but the contents of literals: the
tokens are of the same kinds in the same order, and those that are no literals are the same. -/
theorem Dialect.bind_alike {d : Dialect} {t : Text} {p q : Parameters} (ht : d.Closed t)
    (hp : p.allText = true) (hq : q.allText = true)
    (hl : p.positional.length = q.positional.length)
    (hn : ∀ n, p.named.contains n = q.named.contains n) :
    List.Forall₂ Token.Alike (Token.ofText d (d.bind p t)) (Token.ofText d (d.bind q t)) := by
  simp only [Parameters.allText, Bool.and_eq_true, List.all_eq_true] at hp hq
  exact (Parameters.paired_fill (TemplatePart.closed_ofStatement ht) hp.1 hq.1 hp.2 hq.2 hl
    hn).tokens

theorem Dialect.bind_alike_doubled :
    List.Forall₂ Token.Alike (Token.ofText .generic "SELECT 'a''it''s' LIKE '%b%'".toList)
      (Token.ofText .generic "SELECT 'a''' LIKE '%?%'".toList) := by
  let statement : Text := "SELECT 'a'? LIKE %:n%".toList
  let p : Parameters := ⟨[.text "it's".toList], ⟨[("n".toList, .text "b".toList)]⟩⟩
  let q : Parameters := ⟨[.text []], ⟨[("n".toList, .text "?".toList)]⟩⟩
  have first : Dialect.generic.bind p statement = "SELECT 'a''it''s' LIKE '%b%'".toList := by
    decide +kernel
  have second : Dialect.generic.bind q statement = "SELECT 'a''' LIKE '%?%'".toList := by
    decide +kernel
  have names (n : Text) : p.named.contains n = q.named.contains n := by
    simp only [p, q, OrderedMap.contains, OrderedMap.get?, OrderedMap.find?]
    split <;> rfl
  rw [← first, ← second]
  exact Dialect.bind_alike (t := statement) (by decide +kernel) (by decide +kernel)
    (by decide +kernel) rfl names

end SqlStatement
