import SqlStatement.Proofs.Bytewise

/-!
# Tokens partition their text

The tokens of a text stand behind each other from the first byte to the last,
and every boundary lies between two characters. A quote is a token of its own
exactly where a reader that passes over literals as a whole comes to a quote
whose literal is closed nowhere in the rest. What a closed literal is and where
the reader comes is said here without the scanner.
-/
namespace SqlStatement

namespace Escape
variable {e : Escape} {q : Char}

/-- The texts between the quotes of a literal: ordinary characters, characters behind a backslash
and doubled quotes. -/
inductive Body (e : Escape) (q : Char) : Text → Prop
  | nil : Body e q []
  | plain {c : Char} {t : Text} (hc : c ≠ q) (hb : ¬(c = '\\' ∧ e = .backslash))
      (h : Body e q t) : Body e q (c :: t)
  | escaped (c : Char) {t : Text} (he : e = .backslash) (h : Body e q t) :
      Body e q ('\\' :: c :: t)
  | doubled {t : Text} (he : e ≠ .never) (h : Body e q t) : Body e q (q :: q :: t)

/-- A literal closes behind its body, unless it goes on with one more quote. -/
theorem Body.close? {body rest : Text} (h : Body e q body) (hq : q ≠ '\\')
    (hr : e = .never ∨ rest.head? ≠ some q) :
    e.close? q (body ++ q :: rest) = some (body ++ [q], rest) := by
  induction h with
  | nil => exact close?_quote rest hq hr
  | plain hc hb _ ih =>
      rw [List.cons_append, close?_cons_of_ne _ hc hb, ih]
      rfl
  | escaped c he _ ih =>
      rw [List.cons_append, List.cons_append, Escape.close?, if_pos ⟨rfl, he⟩, ih]
      rfl
  | doubled he _ ih =>
      rw [List.cons_append, List.cons_append, Escape.close?, if_neg fun hx => hq hx.1, if_pos rfl,
        if_pos ⟨rfl, he⟩, ih]
      rfl

theorem exists_body {t lit rest : Text} (h : e.close? q t = some (lit, rest)) :
    ∃ body, lit = body ++ [q] ∧ Body e q body := by
  fun_induction Escape.close? e q t generalizing lit rest with
  | case1 | case3 => cases h
  | case2 | case6 =>
      cases h
      exact ⟨[], rfl, .nil⟩
  | case4 c c' r hc ih =>
      obtain ⟨x, hx, rest⟩ := Option.map_eq_some_iff.mp h
      cases rest
      obtain ⟨body, made, hb⟩ := ih hx
      obtain ⟨rfl, he⟩ := hc
      exact ⟨'\\' :: c' :: body, by rw [made]; rfl, .escaped c' he hb⟩
  | case5 c' r hd _ ih =>
      obtain ⟨x, hx, rest⟩ := Option.map_eq_some_iff.mp h
      cases rest
      obtain ⟨body, made, hb⟩ := ih hx
      obtain ⟨rfl, he⟩ := hd
      exact ⟨c' :: c' :: body, by rw [made]; rfl, .doubled he hb⟩
  | case7 c c' r hc hne ih =>
      obtain ⟨x, hx, rest⟩ := Option.map_eq_some_iff.mp h
      cases rest
      obtain ⟨body, made, hb⟩ := ih hx
      exact ⟨c :: body, by rw [made]; rfl, .plain hne hc hb⟩

end Escape

namespace Dialect
variable {d : Dialect}

/-- A closed literal and what stands behind it. Where a doubled quote is an escape, this is no
further quote. -/
inductive Closes (d : Dialect) : Text → Text → Prop
  | intro {q : Char} {e : Escape} {body rest : Text} (opens : d.escapeOf? q = some e)
      (inside : e.Body q body) (ends : e = .never ∨ rest.head? ≠ some q) :
      Closes d (q :: (body ++ [q])) rest

/-- The scanner finds a literal exactly where a closed one stands. -/
theorem literal?_eq_some_iff {t lit rest : Text} :
    d.literal? t = some (lit, rest) ↔ t = lit ++ rest ∧ d.Closes lit rest := by
  constructor
  · intro h
    refine ⟨(literal?_append h).symm, ?_⟩
    obtain ⟨q, t, rfl⟩ : ∃ q t', t = q :: t' := by
      cases t with
      | nil => cases h
      | cons q t => exact ⟨q, t, rfl⟩
    rw [literal?_cons, Option.bind_eq_some_iff] at h
    obtain ⟨e, opens, h⟩ := h
    obtain ⟨r, closed, made⟩ := Option.map_eq_some_iff.mp h
    cases made
    obtain ⟨body, made, inside⟩ := Escape.exists_body closed
    rw [made]
    exact .intro opens inside (Escape.close?_head closed)
  · rintro ⟨rfl, ⟨opens, inside, ends⟩⟩
    have quote := isQuote_ne_backslash (isQuote_iff.mpr ⟨_, opens⟩)
    rw [List.cons_append, List.append_assoc, List.singleton_append, literal?_cons, opens,
      Option.bind_some, inside.close? quote ends]
    rfl

/-- No closed literal stands at the beginning of a text. -/
def NeverCloses (d : Dialect) (t : Text) : Prop := ∀ lit rest, t = lit ++ rest → ¬d.Closes lit rest

theorem literal?_eq_none_iff {t : Text} : d.literal? t = none ↔ d.NeverCloses t := by
  rw [Option.eq_none_iff_forall_ne_some]
  constructor
  · exact fun h lit rest ht closes => h (lit, rest) (literal?_eq_some_iff.mpr ⟨ht, closes⟩)
  · rintro h ⟨lit, rest⟩ found
    obtain ⟨ht, closes⟩ := literal?_eq_some_iff.mp found
    exact h lit rest ht closes

/-- The rests of a text that begin outside any literal. A reader comes to them that goes from
character to character, passes over a closed literal as a whole, and over a quote alone if its
literal is never closed. -/
inductive Outside (d : Dialect) : Text → Text → Prop
  | start (t : Text) : Outside d t t
  | char {c : Char} {t rest : Text} (hc : d.isQuote c = false) (h : Outside d t rest) :
      Outside d (c :: t) rest
  | literal {lit t rest : Text} (hl : d.Closes lit t) (h : Outside d t rest) :
      Outside d (lit ++ t) rest
  | unclosed {q : Char} {t rest : Text} (hq : d.isQuote q = true) (hn : d.NeverCloses (q :: t))
      (h : Outside d t rest) : Outside d (q :: t) rest

/-- Outside literals the pieces of a text can be cut. -/
theorem Outside.exists_pieces {t rest : Text} (h : d.Outside t rest) :
    ∃ ps, Piece.ofText d t = ps ++ Piece.ofText d rest := by
  induction h with
  | start t => exact ⟨[], rfl⟩
  | @char c t _ hc _ ih =>
      obtain ⟨ps, cut⟩ := ih
      exact ⟨.char c :: ps, by rw [Piece.ofText_char t hc, cut]; rfl⟩
  | @literal lit t _ hl _ ih =>
      obtain ⟨ps, cut⟩ := ih
      have found := literal?_eq_some_iff.mpr ⟨rfl, hl⟩
      exact ⟨.literal lit :: ps, by rw [Piece.ofText_literal found, cut]; rfl⟩
  | @unclosed q t _ hq hn _ ih =>
      obtain ⟨ps, cut⟩ := ih
      have found := literal?_eq_none_iff.mpr hn
      exact ⟨.stray q :: ps, by rw [Piece.ofText_stray hq found, cut]; rfl⟩

/-- What stands behind some of the pieces of a text begins outside literals. -/
theorem outside_of_lexed {ps qs : List Piece} (h : Piece.Lexed d (ps ++ qs)) :
    d.Outside (Piece.textOf (ps ++ qs)) (Piece.textOf qs) := by
  induction ps with
  | nil => exact .start _
  | cons p ps ih =>
      have behind := ih h.of_cons
      cases h with
      | char hc _ => exact .char hc behind
      | literal hl _ => exact .literal (literal?_eq_some_iff.mp hl).2 behind
      | stray hq hl _ => exact .unclosed hq (literal?_eq_none_iff.mp hl) behind

end Dialect

namespace Token
variable {d : Dialect}

/-- An unclosed quote is a token behind `a` exactly if the reader comes to it outside literals and
nothing behind it closes its literal. -/
theorem exists_unterminated_iff (d : Dialect) (a b : Text) (q : Char) :
    (∃ ts us, ofText d (a ++ q :: b) = ts ++ unterminated q :: us ∧ textOf ts = a) ↔
      d.Outside (a ++ q :: b) (q :: b) ∧ d.isQuote q = true ∧ d.NeverCloses (q :: b) := by
  constructor
  · rintro ⟨ts, us, tokens, before⟩
    have lexed := lexed_piecesOf_ofText d (a ++ q :: b)
    have text := textOf_ofText d (a ++ q :: b)
    rw [tokens, textOf_append, before, textOf_cons, Token.text] at text
    have behind : textOf us = b := by simpa using text
    rw [tokens, piecesOf_append, piecesOf_cons, Token.pieces, List.singleton_append] at lexed
    have reached := Dialect.outside_of_lexed lexed
    rw [Piece.textOf_append, Piece.textOf_cons, textOf_piecesOf, textOf_piecesOf, before,
      behind] at reached
    refine ⟨reached, ?_⟩
    cases lexed.right with
    | stray quote unclosed =>
        rw [textOf_piecesOf, behind] at unclosed
        exact ⟨quote, Dialect.literal?_eq_none_iff.mp unclosed⟩
  · rintro ⟨reached, quote, never⟩
    obtain ⟨ps, cut⟩ := reached.exists_pieces
    have text := Piece.textOf_ofText d (a ++ q :: b)
    rw [cut, Piece.textOf_append, Piece.textOf_ofText] at text
    rw [Piece.ofText_stray quote (Dialect.literal?_eq_none_iff.mpr never)] at cut
    refine ⟨ofPieces ps, ofText d b, ?_, ?_⟩
    · rw [ofText, cut, ofPieces_append]
      · rfl
      · refine fun p _ => standsApart_of_head p ?_
        rintro _ ⟨⟩
        exact ⟨rfl, rfl⟩
    · rw [textOf_ofPieces]
      exact List.append_cancel_right text

/-- Whether spans stand behind each other from one position to another, without a gap, an overlap
or an empty one. -/
def Cover : List Span → Nat → Nat → Prop
  | [], start, stop => start = stop
  | s :: ss, start, stop => s.start = start ∧ start < s.stop ∧ Cover ss s.stop stop

/-- Whether a position in the bytes of a text lies between two characters or at an end. -/
def IsBoundary (t : Text) (position : Nat) : Prop :=
  ∃ a b, t = a ++ b ∧ (Text.bytes a).length = position

theorem cover_spans {ts : List Token} (h : ∀ u ∈ ts, u.text ≠ []) (start : Nat) :
    Cover (spans start ts) start (start + (Text.bytes (textOf ts)).length) := by
  induction ts generalizing start with
  | nil => rfl
  | cons u us ih =>
      rw [List.forall_mem_cons] at h
      refine ⟨rfl, ?_, ?_⟩
      · obtain ⟨c, w, text⟩ := List.exists_cons_of_ne_nil h.1
        have := c.utf8Size_pos
        rw [text, Text.length_bytes_cons]
        exact Nat.lt_add_of_pos_right (by omega)
      · rw [textOf_cons, Text.bytes_append, List.length_append, ← Nat.add_assoc]
        exact ih h.2 _

theorem mem_spans_iff {ts : List Token} {start : Nat} {s : Span} :
    s ∈ spans start ts ↔ ∃ before u behind, ts = before ++ u :: behind ∧
      s = ⟨u.kind, start + (Text.bytes (textOf before)).length,
        start + (Text.bytes (textOf before ++ u.text)).length⟩ := by
  induction ts generalizing start with
  | nil => simp [spans]
  | cons u us ih =>
      have shift (before : List Token) (w : Text) :
          start + (Text.bytes (textOf (u :: before) ++ w)).length =
            start + (Text.bytes u.text).length + (Text.bytes (textOf before ++ w)).length := by
        rw [textOf_cons, List.append_assoc, Text.bytes_append, List.length_append, Nat.add_assoc]
      have shiftStart (before : List Token) := shift before []
      simp only [List.append_nil] at shiftStart
      rw [spans, List.mem_cons, ih]
      constructor
      · rintro (rfl | ⟨before, v, behind, rfl, rfl⟩)
        · exact ⟨[], u, us, rfl, rfl⟩
        · exact ⟨u :: before, v, behind, rfl, by rw [shift, shiftStart]⟩
      · rintro ⟨before, v, behind, cut, rfl⟩
        cases before with
        | nil =>
            cases cut
            exact .inl rfl
        | cons w before =>
            cases cut
            exact .inr ⟨before, v, behind, rfl, by rw [shift, shiftStart]⟩

theorem isChain_spans {ts : List Token} (h : ts.IsChain Apart) (start : Nat) :
    (spans start ts).IsChain fun s s' => s.kind = s'.kind → s.kind ≠ .word ∧ s.kind ≠ .space := by
  induction ts generalizing start with
  | nil => exact .nil
  | cons u us ih =>
      rw [List.isChain_cons] at h
      rw [spans, List.isChain_cons]
      refine ⟨?_, ih h.2 _⟩
      cases us with
      | nil => rintro s ⟨⟩
      | cons v us =>
          rintro s ⟨⟩ same
          obtain ⟨word, space⟩ := h.1 v rfl
          cases u <;> cases v <;> simp_all [kind, isWord, isSpace]

theorem text_ne_nil_of_mem {u : Token} {t : Text} (hu : u ∈ ofText d t) : u.text ≠ [] := by
  obtain ⟨before, behind, cut⟩ := List.append_of_mem hu
  have tidy := tidy_ofText d t
  have lexed := lexed_piecesOf_ofText d t
  rw [cut, piecesOf_append] at lexed
  rw [cut] at tidy
  obtain ⟨c, w, text, -⟩ := exists_begins tidy.right lexed.right
  simp [text]

/-- An unclosed quote is a span of one byte. -/
theorem unterminated_mem_spans_iff {t : Text} {start stop : Nat} :
    ⟨.unterminated, start, stop⟩ ∈ spans 0 (ofText d t) ↔
      ∃ a q b, t = a ++ q :: b ∧ start = (Text.bytes a).length ∧ stop = start + 1 ∧
        d.Outside t (q :: b) ∧ d.isQuote q = true ∧ d.NeverCloses (q :: b) := by
  have size {q : Char} (hq : d.isQuote q = true) : (Text.bytes [q]).length = 1 := by
    rw [Text.length_bytes_cons, Text.utf8Size_of_lt (d.isAscii_isQuote q hq)]
    rfl
  rw [mem_spans_iff]
  constructor
  · rintro ⟨before, u, behind, cut, same⟩
    rw [Span.mk.injEq, Nat.zero_add, Nat.zero_add] at same
    obtain ⟨kind, rfl, rfl⟩ := same
    obtain ⟨q, rfl⟩ : ∃ q, u = unterminated q := by
      cases u with
      | unterminated q => exact ⟨q, rfl⟩
      | word | space | quoted | symbol => cases kind
    have text := textOf_ofText d t
    rw [cut, textOf_append, textOf_cons, Token.text, List.singleton_append] at text
    subst text
    have place := (exists_unterminated_iff d (textOf before) (textOf behind) q).mp
      ⟨before, behind, cut, rfl⟩
    refine ⟨textOf before, q, textOf behind, rfl, rfl, ?_, place⟩
    rw [Text.bytes_append, List.length_append, Token.text, size place.2.1]
  · rintro ⟨a, q, b, rfl, rfl, rfl, place⟩
    obtain ⟨before, behind, cut, rfl⟩ := (exists_unterminated_iff d a b q).mpr place
    refine ⟨before, unterminated q, behind, cut, ?_⟩
    rw [Nat.zero_add, Nat.zero_add, Text.bytes_append, List.length_append, Token.text,
      size place.2.1]
    rfl

/-- How spans partition a text. -/
structure Partitions (d : Dialect) (t : Text) (ss : List Span) : Prop where
  cover : Cover ss 0 (Text.bytes t).length
  boundary : ∀ s ∈ ss, IsBoundary t s.start ∧ IsBoundary t s.stop
  apart : ss.IsChain fun s s' => s.kind = s'.kind → s.kind ≠ .word ∧ s.kind ≠ .space
  unterminated : ∀ start stop, ⟨.unterminated, start, stop⟩ ∈ ss ↔
    ∃ a q b, t = a ++ q :: b ∧ start = (Text.bytes a).length ∧ stop = start + 1 ∧
      d.Outside t (q :: b) ∧ d.isQuote q = true ∧ d.NeverCloses (q :: b)

/-- The tokens that are read off the bytes of a text are those of its characters, and they
partition it. -/
theorem partitions_byteTokens (d : Dialect) (t : Text) :
    d.byteTokens 0 (Text.bytes t) = spans 0 (ofText d t) ∧
      Partitions d t (d.byteTokens 0 (Text.bytes t)) := by
  refine ⟨byteTokens_bytes d t, ?_⟩
  rw [byteTokens_bytes]
  refine ⟨?_, ?_, isChain_spans (tidy_ofPieces _).apart 0, fun _ _ => unterminated_mem_spans_iff⟩
  · have cover := cover_spans (fun u hu => text_ne_nil_of_mem (d := d) (t := t) hu) 0
    rwa [textOf_ofText, Nat.zero_add] at cover
  · intro s hs
    obtain ⟨before, u, behind, cut, rfl⟩ := mem_spans_iff.mp hs
    have text := textOf_ofText d t
    rw [cut, textOf_append, textOf_cons] at text
    rw [Nat.zero_add, Nat.zero_add]
    refine ⟨⟨textOf before, u.text ++ textOf behind, text.symm, rfl⟩,
      ⟨textOf before ++ u.text, textOf behind, ?_, rfl⟩⟩
    rw [List.append_assoc, text]

example : Dialect.mysql.byteTokens 0 (Text.bytes "é'\\é' \"ab".toList) =
    [⟨.symbol, 0, 2⟩, ⟨.quoted, 2, 7⟩, ⟨.space, 7, 8⟩, ⟨.unterminated, 8, 9⟩, ⟨.word, 9, 11⟩] := by
  cbv

end Token
end SqlStatement
