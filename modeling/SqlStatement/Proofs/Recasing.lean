import SqlStatement.Proofs.Relabeling
import SqlStatement.Proofs.Splitting

/-!
# Reading in upper case

A text in upper case has its pieces, groups and tokens where the text has them.
Each of them is what it was, in upper case: no reader tells two letters apart
except in the words that are compared with keywords, and these are compared in
upper case. So the type of a statement and the subqueries in it do not depend
on the case of its letters.
-/
namespace SqlStatement
variable {d : Dialect}

namespace Dialect

theorem isAlpha_of_isQuote {q : Char} (h : d.isQuote q = true) : q.isAlpha = false := by
  rcases isQuote_cases h with rfl | rfl | rfl <;> decide

theorem isQuote_toUpper (d : Dialect) (c : Char) : d.isQuote c.toUpper = d.isQuote c := by
  refine Text.test_toUpper (fun c hc => ?_) c
  by_contra quote
  rw [isAlpha_of_isQuote (Bool.not_eq_false _ ▸ quote)] at hc
  cases hc

end Dialect

theorem Escape.close?_upper (e : Escape) {q : Char} (hq : q.isAlpha = false) (t : Text) :
    e.close? q (Text.upper t) =
      (e.close? q t).map fun r => (Text.upper r.1, Text.upper r.2) := by
  have quote {c : Char} : c.toUpper = q ↔ c = q := Text.toUpper_eq_iff hq
  have backslash {c : Char} : c.toUpper = '\\' ↔ c = '\\' := Text.toUpper_eq_iff (by decide)
  fun_induction Escape.close? e q t with
  | case1 => rfl
  | case2 => simp [close?, quote]
  | case3 c h => simp [close?, quote, h]
  | case4 c c' rest h ih =>
      rw [Text.upper_cons, Text.upper_cons, close?, if_pos (by simpa [backslash] using h), ih]
      simp [Function.comp_def]
  | case5 c' rest h' h ih =>
      rw [Text.upper_cons, Text.upper_cons, close?, if_neg (by simpa [backslash] using h),
        if_pos (quote.mpr rfl), if_pos (by simpa [quote] using h'), ih]
      simp [Function.comp_def]
  | case6 c' rest h' h =>
      rw [Text.upper_cons, Text.upper_cons, close?, if_neg (by simpa [backslash] using h),
        if_pos (quote.mpr rfl), if_neg (by simpa [quote] using h')]
      rfl
  | case7 c c' rest h h' ih =>
      rw [Text.upper_cons, Text.upper_cons, close?, if_neg (by simpa [backslash] using h),
        if_neg (mt quote.mp h'), ← Text.upper_cons, ih]
      simp [Function.comp_def]

theorem Dialect.literal?_upper {q : Char} (hq : d.isQuote q = true) (t : Text) :
    d.literal? (q :: Text.upper t) =
      (d.literal? (q :: t)).map fun r => (Text.upper r.1, Text.upper r.2) := by
  have quote := isAlpha_of_isQuote hq
  rw [literal?_cons, literal?_cons]
  cases d.escapeOf? q with
  | none => rfl
  | some e => simp [e.close?_upper quote, Function.comp_def, Text.toUpper_of_isAlpha quote]

namespace Piece

/-- A piece with its letters in upper case. -/
def upper : Piece → Piece
  | literal t => literal (Text.upper t)
  | stray q => stray q.toUpper
  | char c => char c.toUpper

@[simp] theorem text_upper (p : Piece) : p.upper.text = Text.upper p.text := by
  cases p <;> rfl

@[simp] theorem textOf_upper (ps : List Piece) :
    textOf (ps.map upper) = Text.upper (textOf ps) := by
  induction ps with
  | nil => rfl
  | cons p ps ih => rw [List.map_cons, textOf_cons, text_upper, ih, textOf_cons, Text.upper_append]

theorem next?_upper (d : Dialect) (t : Text) :
    next? d (Text.upper t) = (next? d t).map fun r => (r.1.upper, Text.upper r.2) := by
  cases t with
  | nil => rfl
  | cons c t =>
      rw [Text.upper_cons, next?, next?, d.isQuote_toUpper]
      by_cases hq : d.isQuote c = true
      · have same := Text.toUpper_of_isAlpha (Dialect.isAlpha_of_isQuote hq)
        rw [if_pos hq, if_pos hq, same, Dialect.literal?_upper hq]
        cases d.literal? (c :: t) with
        | none => simp [upper, same]
        | some r => rfl
      · rw [if_neg hq, if_neg hq]
        rfl

theorem ofText_upper (d : Dialect) (t : Text) :
    ofText d (Text.upper t) = (ofText d t).map upper := by
  fun_induction ofText d t with
  | case1 t h =>
      have none := next?_upper d t
      rw [h] at none
      rw [ofText]
      split
      · rfl
      · rename_i some
        cases none.symm.trans some
  | case2 t p rest h ih =>
      have first := next?_upper d t
      rw [h] at first
      rw [ofText_of_next? first, ih]
      rfl

end Piece

namespace Nesting

/-- A nesting with its letters in upper case. -/
def upper : Nesting → Nesting
  | done => done
  | piece p rest => piece p.upper rest.upper
  | group inner rest => group inner.upper rest.upper

theorem append_upper (n m : Nesting) : (n.append m).upper = n.upper.append m.upper := by
  induction n with
  | done => rfl
  | piece p rest ih => rw [append, upper, ih, upper, append]
  | group inner rest _ ih => rw [append, upper, ih, upper, append]

theorem flatten_upper (current : Nesting) (outers : List Nesting) :
    (flatten current outers).upper = flatten current.upper (outers.map upper) := by
  induction outers generalizing current with
  | nil => rfl
  | cons outer outers ih =>
      rw [flatten, append_upper, upper, ih]
      rfl

theorem push_upper (p : Piece) (state : Nesting × List Nesting) :
    push p.upper (state.1.upper, state.2.map upper) =
      ((push p state).1.upper, (push p state).2.map upper) := by
  obtain ⟨current, outers⟩ := state
  cases p with
  | literal => rfl
  | stray =>
      simp only [Piece.upper, push, ← flatten_upper]
      rfl
  | char c =>
      simp only [Piece.upper, push, Text.toUpper_eq_iff (x := ')') (by decide),
        Text.toUpper_eq_iff (x := '(') (by decide)]
      split
      · rfl
      · split
        · cases outers <;> rfl
        · rfl

theorem ofPieces_upper (ps : List Piece) : ofPieces (ps.map Piece.upper) = (ofPieces ps).upper := by
  have run : (ps.map Piece.upper).foldr push (done, []) =
      ((ps.foldr push (done, [])).1.upper, (ps.foldr push (done, [])).2.map upper) := by
    induction ps with
    | nil => rfl
    | cons p ps ih => rw [List.map_cons, List.foldr_cons, ih, push_upper, List.foldr_cons]
  rw [ofPieces, run, ← flatten_upper, ofPieces]

theorem ofText_upper (d : Dialect) (t : Text) :
    ofText d (Text.upper t) = (ofText d t).upper := by
  rw [ofText, Piece.ofText_upper, ofPieces_upper, ofText]

theorem text_upper (n : Nesting) : n.upper.text = Text.upper n.text := by
  have pieces_upper : n.upper.pieces = n.pieces.map Piece.upper := by
    induction n with
    | done => rfl
    | piece p rest ih => rw [upper, pieces, ih, pieces, List.map_cons]
    | group inner rest ih₁ ih₂ =>
        rw [upper, pieces, ih₁, ih₂, pieces]
        simp [Piece.upper]
  rw [text, pieces_upper, Piece.textOf_upper, text]

theorem leading_upper (n : Nesting) : n.upper.leading = Text.upper n.leading := by
  induction n with
  | done | group => rfl
  | piece p rest ih =>
      cases p with
      | literal | stray => rfl
      | char c =>
          rw [upper, Piece.upper, leading, ih]
          rfl

theorem startsQuery_upper (n : Nesting) : n.upper.startsQuery = n.startsQuery := by
  rw [startsQuery, leading_upper, Text.startsWithKeyword, Text.skipBlanks,
    Text.dropWhile_upper Text.isBlank_toUpper, Text.takeWhile_upper Text.isWordChar_toUpper]
  exact Text.isKeyword_congr _ (Text.upper_upper _)

theorem depth_upper (n : Nesting) : n.upper.depth = n.depth := by
  induction n with
  | done => rfl
  | piece p rest ih => exact ih
  | group inner rest ih₁ ih₂ => rw [upper, depth, startsQuery_upper, ih₁, ih₂, depth]

theorem depth_congr {t u : Text} (h : Text.upper t = Text.upper u) :
    (ofText d t).depth = (ofText d u).depth := by
  rw [← depth_upper, ← ofText_upper, h, ofText_upper, depth_upper]

theorem veiled_upper (n : Nesting) : n.upper.veiled = n.veiled.map Piece.upper := by
  induction n with
  | done => rfl
  | piece p rest ih => rw [upper, veiled, ih, veiled, List.map_cons]
  | group inner rest ih₁ ih₂ =>
      rw [upper, veiled, startsQuery_upper, ih₁, ih₂, veiled]
      split
      · rw [List.map_cons, Piece.upper, groupText, text_upper, groupText, Text.upper_cons,
          Text.upper_append]
        rfl
      · simp [Piece.upper]

end Nesting

namespace Token

/-- A token with its letters in upper case. -/
def uppercase : Token → Token
  | word t => word (Text.upper t)
  | space t => space (Text.upper t)
  | quoted t => quoted (Text.upper t)
  | symbol c => symbol c.toUpper
  | unterminated q => unterminated q.toUpper

theorem recases_uppercase : Recases uppercase := by
  intro t
  cases t with
  | quoted t => exact .quoted t _
  | word t => exact .word (Text.upper_upper t)
  | space t => exact .space t _
  | symbol c => exact .symbol (Text.toUpper_toUpper c)
  | unterminated q => exact .unterminated q _

@[simp] theorem textOf_uppercase (ts : List Token) :
    textOf (ts.map uppercase) = Text.upper (textOf ts) := by
  induction ts with
  | nil => rfl
  | cons t ts ih =>
      rw [List.map_cons, textOf_cons, ih, textOf_cons, Text.upper_append]
      cases t <;> rfl

theorem piecesOf_uppercase (ts : List Token) :
    piecesOf (ts.map uppercase) = (piecesOf ts).map Piece.upper := by
  induction ts with
  | nil => rfl
  | cons t ts ih =>
      rw [List.map_cons, piecesOf_cons, ih, piecesOf_cons, List.map_append]
      cases t <;> simp [uppercase, pieces, Piece.upper, Text.upper]

theorem attach_uppercase (p : Piece) (ts : List Token) :
    attach p.upper (ts.map uppercase) = (attach p ts).map uppercase := by
  cases p with
  | literal | stray => rfl
  | char c =>
      simp only [Piece.upper, attach, Text.isWordChar_toUpper, Text.isBlank_toUpper]
      split
      · rcases ts with _ | ⟨_ | _ | _ | _ | _, ts⟩ <;> rfl
      · split
        · rcases ts with _ | ⟨_ | _ | _ | _ | _, ts⟩ <;> rfl
        · rfl

theorem ofPieces_uppercase (ps : List Piece) :
    ofPieces (ps.map Piece.upper) = (ofPieces ps).map uppercase := by
  induction ps with
  | nil => rfl
  | cons p ps ih => rw [List.map_cons, ofPieces_cons, ih, attach_uppercase, ofPieces_cons]

theorem ofText_upper (d : Dialect) (t : Text) :
    ofText d (Text.upper t) = (ofText d t).map uppercase := by
  rw [ofText, Piece.ofText_upper, ofPieces_uppercase, ofText]

end Token

theorem Pattern.tokens_upper (p : Pattern) (d : Dialect) (t : Text) :
    p.tokens d (Text.upper t) = (p.tokens d t).map Token.uppercase := by
  rw [tokens, tokens]
  split
  · rw [Dialect.veil, Nesting.ofText_upper, Nesting.veiled_upper, Token.ofPieces_uppercase,
      Dialect.veil]
  · exact Token.ofText_upper d t

theorem Pattern.tokens_congr (p : Pattern) {t u : Text} (h : Text.upper t = Text.upper u) :
    (p.tokens d t).map Token.uppercase = (p.tokens d u).map Token.uppercase := by
  rw [← tokens_upper, h, tokens_upper]

theorem StatementType.detect_upper (d : Dialect) (t : Text) :
    detect d (Text.upper t) = detect d t := by
  have first (p : Phrase) : (p.after? (Token.skipSpace (Token.ofText d (Text.upper t)))).isSome =
      (p.after? (Token.skipSpace (Token.ofText d t))).isSome := by
    rw [Token.ofText_upper, Token.recases_uppercase.skipSpace_map,
      Token.recases_uppercase.after?_map, Option.isSome_map]
  simp only [detect, first]

theorem StatementType.detect_congr {t u : Text} (h : Text.upper t = Text.upper u) :
    detect d t = detect d u := by
  rw [← detect_upper, h, detect_upper]

end SqlStatement
