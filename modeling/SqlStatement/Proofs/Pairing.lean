import SqlStatement.Proofs.Segments
import SqlStatement.Proofs.Depths

/-!
# Joins and their conditions

In a chain of tables every ON belongs to the last JOIN in front of it that has
no condition yet. Only words outside literals and parentheses count. So the
chain is read as a list of marks, and JOINs that are still open are kept on a
stack. The marks of balanced texts with a blank or another separator between
them are those of each text, and texts lose no mark at their ends.
-/
namespace SqlStatement

/-- A JOIN or an ON. -/
inductive JoinMark where
  | join
  | on
  deriving DecidableEq, Repr

namespace JoinMark

/-- For every ON the number of the JOIN that it belongs to, the last one without condition.
`opened` holds the numbers of these, the last in front, and `next` is the number of the next
JOIN. -/
def owners : List Nat → Nat → List JoinMark → List (Option Nat)
  | _, _, [] => []
  | opened, next, join :: marks => owners (next :: opened) (next + 1) marks
  | [], next, on :: marks => none :: owners [] next marks
  | number :: opened, next, on :: marks => some number :: owners opened next marks

theorem owners_joins (n next : Nat) (opened : List Nat) (marks : List JoinMark) :
    owners opened next (List.replicate n join ++ marks) =
      owners ((List.range' next n).reverse ++ opened) (next + n) marks := by
  induction n generalizing next opened with
  | zero => rfl
  | succ n ih =>
      rw [List.replicate_succ, List.cons_append, owners, ih, List.range'_succ, List.reverse_cons,
        List.append_assoc, List.singleton_append, Nat.add_assoc, Nat.add_comm 1]

theorem owners_ons (next : Nat) (opened : List Nat) :
    owners opened next (List.replicate opened.length on) = opened.map some := by
  induction opened with
  | nil => rfl
  | cons number opened ih =>
      rw [List.length_cons, List.replicate_succ, owners, ih, List.map_cons]

/-- As many conditions behind joins: the first belongs to the last join. -/
theorem owners_nested (n : Nat) :
    owners [] 0 (List.replicate n join ++ List.replicate n on) =
      (List.range n).reverse.map some := by
  have conditions := owners_ons n (List.range n).reverse
  rw [List.length_reverse, List.length_range] at conditions
  rw [owners_joins, List.append_nil, Nat.zero_add, ← List.range_eq_range', conditions]

end JoinMark

namespace Token
variable {d : Dialect} {ts us : List Token} {depth depth' : Nat}

/-- The mark of a word. -/
def joinMark? (d : Dialect) : Token → Option JoinMark
  | word w =>
      if Text.isAnyKeyword d.joinHeads w then some .join
      else if Text.isKeyword "ON" w then some .on
      else none
  | _ => none

/-- The marks outside groups. -/
def joinMarks (d : Dialect) : Nat → List Token → List JoinMark
  | _, [] => []
  | depth, t :: ts =>
      (if depth = 0 then (joinMark? d t).toList else []) ++
        joinMarks d ((t.depthBehind? depth).getD depth) ts

theorem joinMarks_append (h : ts.foldlM depthBehind? depth = some depth') :
    joinMarks d depth (ts ++ us) = joinMarks d depth ts ++ joinMarks d depth' us := by
  induction ts generalizing depth with
  | nil =>
      cases h
      rfl
  | cons t ts ih =>
      rw [List.foldlM_cons, Option.bind_eq_bind, Option.bind_eq_some_iff] at h
      obtain ⟨behind, ht, h⟩ := h
      rw [List.cons_append, joinMarks, joinMarks, ht, Option.getD_some, ih h, List.append_assoc]

theorem joinMarks_visible (depth : Nat) (ts : List Token) :
    joinMarks d depth (visible ts) = joinMarks d depth ts := by
  induction ts generalizing depth with
  | nil => rfl
  | cons t ts ih =>
      cases t with
      | space b =>
          rw [joinMarks, ← ih]
          simp [visible, isSpace, joinMark?, depthBehind?]
      | word | quoted | symbol | unterminated =>
          rw [visible_cons_of_not _ rfl, joinMarks, joinMarks, ih]

theorem foldlM_visible (depth : Nat) (ts : List Token) :
    (visible ts).foldlM depthBehind? depth = ts.foldlM depthBehind? depth := by
  induction ts generalizing depth with
  | nil => rfl
  | cons t ts ih =>
      cases t with
      | space b => exact ih depth
      | word | quoted | symbol | unterminated =>
          rw [visible_cons_of_not _ rfl, List.foldlM_cons, List.foldlM_cons, funext ih]

theorem visible_attach {c : Char} (hc : Text.isWordChar c = false) (ts : List Token) :
    visible (attach (.char c) ts) =
      (if Text.isBlank c then [] else [symbol c]) ++ visible ts := by
  by_cases hb : Text.isBlank c = true
  · rw [if_pos hb, List.nil_append]
    cases ts with
    | nil => simp [attach, hc, hb, visible, isSpace]
    | cons t ts => cases t <;> simp [attach, hc, hb, visible, isSpace]
  · rw [if_neg hb, attach_symbol _ hc (by simpa using hb), visible_cons_of_not _ rfl]
    rfl

/-- A character that is neither part of a word nor a parenthesis adds no mark. -/
theorem joinMarks_attach {c : Char} (hc : Text.isWordChar c = false)
    (ho : (Piece.char c).isOrdinary = true) (depth : Nat) (ts : List Token) :
    joinMarks d depth (attach (.char c) ts) = joinMarks d depth ts := by
  rw [← joinMarks_visible, visible_attach hc, ← joinMarks_visible depth ts]
  split
  · rfl
  · have still : (symbol c).depthBehind? depth = some depth := by
      simp only [Piece.isOrdinary, Bool.and_eq_true, bne_iff_ne] at ho
      simp [depthBehind?, Piece.groupsBehind?, ho]
    rw [List.singleton_append, joinMarks, still, Option.getD_some]
    simp [joinMark?]

/-- A character that is not part of a word keeps the tokens on its sides apart. -/
theorem visible_ofPieces_append {c : Char} (hc : Text.isWordChar c = false) (ps qs : List Piece) :
    visible (ofPieces (ps ++ .char c :: qs)) =
      visible (ofPieces ps) ++ visible (attach (.char c) (ofPieces qs)) := by
  -- blanks at the end of the pieces are put to what follows them
  induction ps using List.reverseRecOn generalizing c qs with
  | nil => rfl
  | append_singleton ps p ih =>
      by_cases blank : ∃ b, p = .char b ∧ Text.isBlank b = true
      · obtain ⟨b, rfl, hb⟩ := blank
        have hw := Text.isWordChar_of_isBlank hb
        rw [List.append_assoc, List.singleton_append, ih hw, ih hw [], visible_attach hw,
          visible_attach hw, if_pos hb, List.nil_append, List.nil_append, List.append_assoc]
        rfl
      · have apart : standsApart p (ofPieces (.char c :: qs)) := by
          cases p with
          | literal t | stray q => rfl
          | char b =>
              by_cases hw : Text.isWordChar b = true
              · refine standsApart_of_word hw (isWord_head?_ofPieces qs ?_)
                rintro _ ⟨⟩
                exact hc
              · refine standsApart_of_symbol _ (by simpa using hw) ?_
                by_contra hb
                exact blank ⟨b, rfl, by simpa using hb⟩
        rw [ofPieces_append (by simpa using apart), visible_append, ofPieces_cons (.char c)]

end Token

namespace Dialect
variable {d : Dialect} {t u : Text} {c : Char}

/-- The marks of a text. -/
def joinMarks (d : Dialect) (t : Text) : List JoinMark := Token.joinMarks d 0 (Token.ofText d t)

/-- A character that stands for itself and parts words. -/
def IsSeparator (d : Dialect) (c : Char) : Prop :=
  Text.isWordChar c = false ∧ d.isQuote c = false ∧ (Piece.char c).isOrdinary = true

@[simp] theorem joinMarks_nil : d.joinMarks [] = [] := by
  rw [joinMarks, Token.ofText, Piece.ofText_nil]
  rfl

theorem isSeparator_of_isWhite (h : Text.isWhite c = true) : d.IsSeparator c := by
  refine ⟨?_, isQuote_of_isWhite h, isOrdinary_of_isWhite h⟩
  by_contra hw
  rw [Text.isWhite_of_isWordChar (by simpa using hw)] at h
  cases h

theorem ofText_append_separator (h : d.Closed t) (hc : d.isQuote c = false) (u : Text) :
    Piece.ofText d (t ++ c :: u) = Piece.ofText d t ++ .char c :: Piece.ofText d u := by
  have lexed : Piece.Lexed d (Piece.ofText d t ++ .char c :: Piece.ofText d u) := by
    refine (Piece.lexed_ofText d t).append (.char hc (Piece.lexed_ofText d u)) h fun c' hh => ?_
    cases hh
    exact hc
  rw [← lexed.ofText_textOf, Piece.textOf_append, Piece.textOf_cons, Piece.textOf_ofText,
    Piece.textOf_ofText]
  rfl

/-- The marks of balanced texts with a separator between them. -/
theorem joinMarks_append (ht : d.isBalanced t = true) (hc : d.IsSeparator c) (u : Text) :
    d.joinMarks (t ++ c :: u) = d.joinMarks t ++ d.joinMarks u := by
  obtain ⟨word, quote, ordinary⟩ := hc
  have tokens : Token.visible (Token.ofText d (t ++ c :: u)) =
      Token.visible (Token.ofText d t) ++
        Token.visible (Token.attach (.char c) (Token.ofText d u)) := by
    rw [Token.ofText, ofText_append_separator (isBalanced_iff.mp ht).1 quote,
      Token.visible_ofPieces_append word, Token.ofText, Token.ofText]
  rw [joinMarks, ← Token.joinMarks_visible, tokens,
    Token.joinMarks_append ((Token.foldlM_visible 0 _).trans (Token.level_ofText_iff.mpr ht)),
    Token.joinMarks_visible, Token.joinMarks_visible, Token.joinMarks_attach word ordinary,
    joinMarks, joinMarks]

/-- A text that loses a separator at its end stays balanced. -/
theorem isBalanced_of_append (h : d.isBalanced (t ++ [c]) = true) (hc : d.IsSeparator c) :
    d.isBalanced t = true := by
  obtain ⟨-, quote, ordinary⟩ := hc
  obtain ⟨front, last, hp⟩ : ∃ ps p, Piece.ofText d (t ++ [c]) = ps ++ [p] := by
    rcases List.eq_nil_or_concat (Piece.ofText d (t ++ [c])) with none | some
    · have text := Piece.textOf_ofText d (t ++ [c])
      simp [none] at text
    · simpa using some
  have text := Piece.textOf_ofText d (t ++ [c])
  have lexed := Piece.lexed_ofText d (t ++ [c])
  have whole : last.Whole d := (isBalanced_iff.mp h).1.whole (by simp [hp])
  rw [hp, Piece.textOf_append, Piece.textOf_cons, Piece.textOf_nil, List.append_nil] at text
  obtain rfl : last = .char c := by
    cases last with
    | stray q => exact absurd whole id
    | char b => simpa [Piece.text] using congrArg List.getLast? text
    | literal lit =>
        obtain ⟨q, body, rfl, hq⟩ := literal?_ends whole
        obtain rfl : q = c := by
          have ends := congrArg List.getLast? text
          rw [Piece.text, ← List.cons_append, ← List.append_assoc, List.getLast?_concat,
            List.getLast?_concat] at ends
          exact Option.some.inj ends
        rw [quote] at hq
        cases hq
  rw [hp] at lexed
  have rest : Piece.ofText d t = front := by
    rw [← (List.append_inj_left' text rfl : Piece.textOf front = t)]
    refine (lexed.left (.inr fun b hb => ?_)).ofText_textOf
    cases hb
    exact quote
  have level := beq_iff_eq.mp h
  rw [hp, List.foldlM_append, Option.bind_eq_bind, Option.bind_eq_some_iff] at level
  obtain ⟨depth, level, still⟩ := level
  rw [List.foldlM_cons, Piece.depthBehind?_of_isOrdinary depth ordinary] at still
  cases still
  rw [isBalanced, rest, level]
  rfl

theorem isBalanced_cons_iff (hc : d.IsSeparator c) :
    d.isBalanced (c :: t) = true ↔ d.isBalanced t = true := by
  obtain ⟨-, quote, ordinary⟩ := hc
  have pieces := ofText_append_separator (t := []) (closed_of_forall (by simp)) quote t
  rw [List.nil_append, Piece.ofText_nil, List.nil_append] at pieces
  rw [isBalanced, isBalanced, pieces, List.foldlM_cons, Piece.depthBehind?_of_isOrdinary 0 ordinary]
  rfl

/-- A balanced text that loses separators at its ends keeps its marks. -/
theorem joinMarks_trimWhere {p : Char → Bool} (hp : ∀ c, p c = true → d.IsSeparator c)
    (h : d.isBalanced t = true) :
    d.isBalanced (Text.trimWhere p t) = true ∧
      d.joinMarks (Text.trimWhere p t) = d.joinMarks t := by
  have front (t : Text) (h : d.isBalanced t = true) : d.isBalanced (t.dropWhile p) = true ∧
      d.joinMarks (t.dropWhile p) = d.joinMarks t := by
    induction t with
    | nil => exact ⟨h, rfl⟩
    | cons c t ih =>
        by_cases hc : p c = true
        · obtain ⟨balanced, marks⟩ := ih ((isBalanced_cons_iff (hp c hc)).mp h)
          rw [List.dropWhile_cons_of_pos hc]
          have same := joinMarks_append isBalanced_nil (hp c hc) t
          rw [joinMarks_nil, List.nil_append, List.nil_append] at same
          exact ⟨balanced, marks.trans same.symm⟩
        · rw [List.dropWhile_cons_of_neg hc]
          exact ⟨h, rfl⟩
  have behind (t : Text) (h : d.isBalanced t = true) :
      d.isBalanced (t.rdropWhile p) = true ∧ d.joinMarks (t.rdropWhile p) = d.joinMarks t := by
    induction t using List.reverseRecOn with
    | nil => exact ⟨h, rfl⟩
    | append_singleton t c ih =>
        by_cases hc : p c = true
        · have rest := isBalanced_of_append h (hp c hc)
          obtain ⟨balanced, marks⟩ := ih rest
          rw [List.rdropWhile_concat_pos _ _ _ hc, joinMarks_append rest (hp c hc), joinMarks_nil,
            List.append_nil]
          exact ⟨balanced, marks⟩
        · rw [List.rdropWhile_concat_neg _ _ _ hc]
          exact ⟨h, rfl⟩
  obtain ⟨balanced, marks⟩ := front t h
  obtain ⟨balanced', marks'⟩ := behind _ balanced
  exact ⟨balanced', marks'.trans marks⟩

/-- The marks of balanced texts with blanks between them. -/
theorem joinMarks_joinWith {ts : List Text} (h : ∀ t ∈ ts, d.isBalanced t = true) :
    d.joinMarks (Text.joinWith [' '] ts) = ts.flatMap d.joinMarks := by
  induction ts with
  | nil => exact joinMarks_nil
  | cons t ts ih =>
      obtain ⟨first, rest⟩ := List.forall_mem_cons.mp h
      cases ts with
      | nil => simp
      | cons u us =>
          rw [Text.joinWith_cons_cons, List.append_assoc, List.singleton_append,
            joinMarks_append first (isSeparator_of_isWhite (by decide)), ih rest]
          rfl

end Dialect

end SqlStatement
