import SqlStatement.Proofs.Dotting
import SqlStatement.Proofs.Parting
import SqlStatement.Proofs.Printing
import SqlStatement.Proofs.Widening

/-!
# Literals among names

The literal of a value is no name, so quoting the names of an expression leaves
it as it stands: a string is no word, a keyword is left alone, and a word that
begins with a digit is none in the generic dialect. In MySQL such a word is a
name as soon as it has a letter, and an exponent has one. The groups of a list
stand at its beginning or behind a comma, so none of them is the type of a CAST.
-/
namespace SqlStatement

namespace Value

mutual

/-- How deep lists are nested in a value. -/
def nesting : Value → Nat
  | list items => nestings items + 1
  | _ => 0

/-- How deep lists are nested in several values. -/
def nestings : List Value → Nat
  | [] => 0
  | v :: vs => max v.nesting (nestings vs)

end

mutual

/-- Whether a number in a value is written with an exponent. -/
def hasExponent : Value → Bool
  | float x => x.isFinite && (literalLayout.render x).contains 'e'
  | list items => anyExponent items
  | _ => false

/-- Whether a number in one of several values is written with an exponent. -/
def anyExponent : List Value → Bool
  | [] => false
  | v :: vs => v.hasExponent || anyExponent vs

end

end Value

namespace Text
variable {c : Char} (h : c.isDigit = true)
include h

theorem isNameStart_of_isDigit : isNameStart c = false := by
  unfold isNameStart
  rw [isAlpha_of_isDigit h, Bool.false_or, beq_eq_false_iff_ne]
  rintro rfl
  cases h

theorem isWordChar_of_isDigit : isWordChar c = true := by
  simp [isWordChar, Char.isAlphanum, h]

end Text

namespace Dialect
variable {d : Dialect} {t u : Text}

/-- Whether an expression is left as it stands when its names are quoted. -/
def Keeps (d : Dialect) (t : Text) : Prop := d.quoteNames t = t

section Characters
variable {c : Char} (hq : d.isQuote c = false) (hw : Text.isWordChar c = false)
include hq hw

theorem keeps_cons : d.Keeps (c :: t) ↔ d.Keeps t := by
  unfold Keeps
  rw [quoteNames_cons hq hw, List.cons_inj_right]

/-- Two expressions with a character between them are left alone if each of them is: quoting only
makes them longer. -/
theorem keeps_append_cons (ht : d.Closed t) (hb : Text.isBlank c = false) (ho : c ≠ '(') :
    d.Keeps (t ++ c :: u) ↔ d.Keeps t ∧ d.Keeps u := by
  unfold Keeps
  rw [quoteNames_append_cons hq hw ht hb ho]
  constructor
  · intro kept
    have front := d.length_le_quoteNames t
    have behind := d.length_le_quoteNames u
    have lengths := congrArg List.length kept
    simp only [List.length_append, List.length_cons] at lengths
    obtain ⟨ht, rest⟩ := List.append_inj kept (by omega)
    exact ⟨ht, (List.cons.inj rest).2⟩
  · rintro ⟨ht, hu⟩
    rw [ht, hu]

end Characters

theorem keeps_nil : d.Keeps [] := by
  unfold Keeps quoteNames
  rw [Token.ofText_nil]
  rfl

/-- A word that begins with a digit is left alone, in MySQL if it has no letter. -/
theorem keeps_word {c : Char} {w : Text} (digit : c.isDigit = true)
    (hw : ∀ c' ∈ c :: w, Text.isWordChar c' = true) :
    d.Keeps (c :: w) ↔ (d = .mysql → (c :: w).any Text.isNameStart = false) := by
  have keyword : Text.isAnyKeyword d.expressionKeywords (c :: w) = false := by
    unfold Text.isAnyKeyword
    rw [List.any_eq_false]
    intro k hk
    rw [Text.isKeyword_of_isAlpha (Text.isAlpha_of_isDigit digit)]
    · exact Bool.false_ne_true
    · revert k
      cases d <;> decide
  have longer : d.quoteName (c :: w) ≠ c :: w := by
    intro same
    have lengths := congrArg List.length same
    simp only [quoteName, List.length_cons, List.length_append, List.length_nil] at lengths
    omega
  unfold Keeps
  rw [quoteNames_word ⟨List.cons_ne_nil _ _, hw⟩, keyword]
  cases d with
  | generic => simp [isName, Text.isNameStart_of_isDigit digit]
  | mysql =>
      have name : isName .mysql (c :: w) = (c :: w).any Text.isNameStart := rfl
      rw [name]
      cases (c :: w).any Text.isNameStart <;> simp [longer]

theorem keeps_digits (digits : ∀ c ∈ t, c.isDigit = true) : d.Keeps t := by
  cases t with
  | nil => exact keeps_nil
  | cons c w =>
      have word := keeps_word (d := d) (digits c (by simp)) fun c' hc =>
        Text.isWordChar_of_isDigit (digits c' hc)
      refine word.mpr fun _ => List.any_eq_false.mpr fun c' hc => ?_
      rw [Text.isNameStart_of_isDigit (digits c' hc)]
      exact Bool.false_ne_true

theorem closed_of_isWordChar (h : ∀ c ∈ t, Text.isWordChar c = true) : d.Closed t :=
  closed_of_forall fun c hc => isQuote_of_isWordChar (h c hc)

section Numbers
variable {digits w : Text} (all : ∀ c ∈ digits, c.isDigit = true)
include all

theorem isWordChar_letter (hw : ∀ c ∈ w, c.isDigit = true) :
    ∀ c ∈ digits ++ 'e' :: w, Text.isWordChar c = true := by
  intro c hc
  rcases List.mem_append.mp hc with hc | hc
  · exact Text.isWordChar_of_isDigit (all c hc)
  · rcases List.mem_cons.mp hc with rfl | hc
    · rfl
    · exact Text.isWordChar_of_isDigit (hw c hc)

/-- Digits with a letter behind them are a name in MySQL. -/
theorem keeps_letter (some : digits ≠ []) (hw : ∀ c ∈ w, c.isDigit = true) :
    d.Keeps (digits ++ 'e' :: w) ↔ d ≠ .mysql := by
  have word := isWordChar_letter all hw
  obtain ⟨c, more, rfl⟩ := List.exists_cons_of_ne_nil some
  have letter : (c :: (more ++ 'e' :: w)).any Text.isNameStart = true :=
    List.any_eq_true.mpr ⟨'e', by simp, rfl⟩
  rw [List.cons_append] at word ⊢
  rw [keeps_word (all c (by simp)) word, letter]
  simp

/-- Digits are left alone, in MySQL if no exponent stands behind them. -/
theorem keeps_power (some : digits ≠ []) (e : Option Int) :
    d.Keeps (digits ++ FloatLiteral.power e) ↔ (d = .mysql → e = none) := by
  have decimal (n : Nat) : ∀ c ∈ Text.ofNat n, c.isDigit = true :=
    fun _ => Text.isDigit_of_mem_ofNat
  cases e with
  | none =>
      rw [FloatLiteral.power, List.append_nil]
      exact iff_of_true (keeps_digits all) fun _ => rfl
  | some e =>
      cases e with
      | ofNat n =>
          have letter := keeps_letter (d := d) all some (decimal n)
          simpa [FloatLiteral.power, Text.ofInt] using letter
      | negSucc n =>
          have minus : d.isQuote '-' = false := by cases d <;> decide
          have text : digits ++ FloatLiteral.power (.some (.negSucc n)) =
              (digits ++ ['e']) ++ '-' :: Text.ofNat (n + 1) := by
            simp [FloatLiteral.power, Text.ofInt]
          have letter := keeps_letter (d := d) (w := []) all some (by simp)
          have closed : d.Closed (digits ++ ['e']) :=
            closed_of_isWordChar (isWordChar_letter all (by simp))
          rw [text, keeps_append_cons minus rfl closed rfl (by decide), letter]
          simp [keeps_digits (decimal (n + 1))]

end Numbers

/-- A floating-point literal is left alone, in MySQL if it has no exponent. -/
theorem keeps_floatLiteral (l : FloatLiteral) :
    d.Keeps l.text ↔ (d = .mysql → l.exponent = none) := by
  have minus : d.isQuote '-' = false := by cases d <;> decide
  have point : d.isQuote '.' = false := by cases d <;> decide
  have closed : d.Closed l.whole :=
    closed_of_isWordChar fun c hc => Text.isWordChar_of_isDigit (l.isDigit_whole c hc)
  have signed : d.Keeps l.text ↔ d.Keeps l.unsigned := by
    unfold FloatLiteral.text
    split
    · exact keeps_cons minus rfl
    · rfl
  rw [signed, FloatLiteral.unsigned]
  by_cases fraction : l.fraction = []
  · rw [fraction]
    exact keeps_power l.isDigit_whole l.whole_ne_nil l.exponent
  · rw [FloatLiteral.point_of_ne_nil fraction, List.cons_append,
      keeps_append_cons point rfl closed rfl (by decide),
      keeps_power l.isDigit_fraction fraction, and_iff_right (keeps_digits l.isDigit_whole)]

theorem keeps_quoteString (d : Dialect) (t : Text) : d.Keeps (d.quoteString t) := by
  have tokens : Token.ofText d (d.quoteString t) = [.quoted (d.quoteString t)] := by
    have whole : d.literal? (d.quoteString t ++ []) = some (d.quoteString t, []) := by
      rw [List.append_nil]
      exact d.literal?_quoteString t
    rw [Token.ofText, Piece.ofText_literal_self whole]
    rfl
  unfold Keeps quoteNames
  rw [tokens, quoteTokens_of_not_word rfl]
  exact List.append_nil _

section Lists
variable {ts : List Text}

theorem isQuote_comma : d.isQuote ',' = false ∧ d.isQuote ' ' = false := by cases d <;> decide

theorem joinWith_comma_cons (t : Text) (hts : ts ≠ []) :
    Text.joinWith [',', ' '] (t :: ts) = t ++ ',' :: ' ' :: Text.joinWith [',', ' '] ts := by
  rw [Text.joinWith_cons hts]
  simp

/-- The items of a list are quoted one by one. -/
theorem quoteNames_joinWith (h : ∀ t ∈ ts, d.Closed t) :
    d.quoteNames (Text.joinWith [',', ' '] ts) =
      Text.joinWith [',', ' '] (ts.map d.quoteNames) := by
  obtain ⟨comma, blank⟩ := isQuote_comma (d := d)
  induction ts with
  | nil => exact keeps_nil
  | cons t ts ih =>
      obtain ⟨ht, hts⟩ := List.forall_mem_cons.mp h
      by_cases none : ts = []
      · rw [none]
        rfl
      · rw [List.map_cons, joinWith_comma_cons t none, joinWith_comma_cons _ (by simpa using none),
          quoteNames_append_cons comma rfl ht rfl (by decide), quoteNames_cons blank rfl, ih hts]

theorem quoteNames_parenthesize (h : d.Closed t) :
    d.quoteNames (Addition.parenthesize t) = Addition.parenthesize (d.quoteNames t) := by
  have opening : d.isQuote '(' = false := by cases d <;> decide
  have closing : d.isQuote ')' = false := by cases d <;> decide
  unfold Addition.parenthesize
  rw [quoteNames_cons opening rfl, quoteNames_append_cons closing rfl h rfl (by decide),
    show d.quoteNames [] = [] from keeps_nil]

theorem keeps_joinWith (h : ∀ t ∈ ts, d.Closed t) :
    d.Keeps (Text.joinWith [',', ' '] ts) ↔ ∀ t ∈ ts, d.Keeps t := by
  obtain ⟨comma, blank⟩ := isQuote_comma (d := d)
  induction ts with
  | nil => simp [keeps_nil]
  | cons t ts ih =>
      obtain ⟨ht, hts⟩ := List.forall_mem_cons.mp h
      by_cases none : ts = []
      · simp [none]
      · rw [joinWith_comma_cons t none, keeps_append_cons comma rfl ht rfl (by decide),
          keeps_cons blank rfl, ih hts, List.forall_mem_cons]

theorem keeps_parenthesize (h : d.Closed t) : d.Keeps (Addition.parenthesize t) ↔ d.Keeps t := by
  unfold Keeps
  rw [quoteNames_parenthesize h, Addition.parenthesize, Addition.parenthesize, List.cons_inj_right,
    List.append_cancel_right_eq]

end Lists

/-- A text without parentheses outside of its literals, or a list of such texts. The groups of a
list are nested at most `depth` deep. -/
inductive IsRow (d : Dialect) : Nat → Text → Prop
  | item {depth : Nat} {t : Text} (closed : d.Closed t) (plain : d.delimiters t = []) :
      IsRow d depth t
  | list {depth : Nat} {ts : List Text} (items : ∀ t ∈ ts, IsRow d depth t) :
      IsRow d (depth + 1) (Addition.parenthesize (Text.joinWith [',', ' '] ts))

namespace IsRow

theorem isBalanced {depth : Nat} (h : d.IsRow depth t) : d.isBalanced t = true := by
  induction h with
  | item closed plain => exact isBalanced_iff.mpr ⟨closed, by rw [plain]; rfl⟩
  | list _ ih => exact (isItem_parenthesize (isBalanced_joinWith isBalanced_comma ih)).isBalanced

theorem mono {depth depth' : Nat} (h : d.IsRow depth t) (le : depth ≤ depth') :
    d.IsRow depth' t := by
  induction h generalizing depth' with
  | item closed plain => exact .item closed plain
  | list _ ih =>
      obtain ⟨depth', rfl⟩ := Nat.exists_eq_add_one_of_ne_zero (show depth' ≠ 0 by omega)
      exact .list fun t ht => ih t ht (by omega)

end IsRow

end Dialect

namespace Nesting
variable {ps : List Piece}

/-- Pieces that are no parentheses make up no group. -/
theorem ofPieces_append_of_isOrdinary (h : ∀ p ∈ ps, p.isOrdinary = true) (rest : Nesting) :
    (ofPieces ps).append rest = ps.foldr piece rest := by
  induction ps with
  | nil => rfl
  | cons p ps ih =>
      obtain ⟨hp, hps⟩ := List.forall_mem_cons.mp h
      have first : (piece p done).Closed := ⟨hp, trivial⟩
      have read : ofPieces (p :: ps) = piece p (ofPieces ps) := first.ofPieces_pieces_append ps
      rw [read, List.foldr_cons, ← ih hps]
      rfl

end Nesting

namespace CastTarget
variable {d : Dialect} {limit room : Nat} {q : Char} {t : Text}

/-- Behind a comma and a space no type of a CAST stands. -/
theorem endsWithCast_comma (seen : Text) : endsWithCast (' ' :: ',' :: seen) = false := by
  have word : Text.isKeyword "TSAC" ((',' :: seen).take 4) = false :=
    Text.isKeyword_of_isAlpha rfl rfl
  have blanks : Text.skipBlanks (' ' :: ',' :: seen) = ',' :: seen := rfl
  unfold endsWithCast
  dsimp only
  rw [blanks, word, Bool.false_and]

theorem clean_foldr {ps : List Piece} {rest : Nesting} {behind : Text}
    (hr : ∀ seen, clean limit q rest room seen = .ok behind) (seen : Text) :
    clean limit q (ps.foldr .piece rest) room seen = .ok (Piece.textOf ps ++ behind) := by
  induction ps generalizing seen with
  | nil => exact hr seen
  | cons p ps ih =>
      rw [List.foldr_cons, clean, ih, Piece.textOf_cons, List.append_assoc]
      rfl

/-- Items are cleaned one by one: the next one stands behind a comma and a space. -/
theorem clean_joinWith {ts : List Text} (balanced : ∀ t ∈ ts, d.isBalanced t = true)
    (items : ∀ t ∈ ts, ∀ {rest : Nesting} {behind seen : Text}, endsWithCast seen = false →
      (∀ seen, clean limit q rest room seen = .ok behind) →
      clean limit q ((Nesting.ofText d t).append rest) room seen = .ok (t ++ behind))
    {seen : Text} (hs : endsWithCast seen = false) :
    clean limit q (Nesting.ofText d (Text.joinWith [',', ' '] ts)) room seen =
      .ok (Text.joinWith [',', ' '] ts) := by
  obtain ⟨comma, blank⟩ := Dialect.isQuote_comma (d := d)
  induction ts generalizing seen with
  | nil =>
      rw [Text.joinWith_nil, Nesting.ofText_nil]
      rfl
  | cons t ts ih =>
      obtain ⟨ht, hts⟩ := List.forall_mem_cons.mp balanced
      obtain ⟨first, others⟩ := List.forall_mem_cons.mp items
      by_cases none : ts = []
      · have last : clean limit q ((Nesting.ofText d t).append .done) room seen = .ok (t ++ []) :=
          first hs fun _ => rfl
        rwa [Nesting.append_done, List.append_nil, ← Text.joinWith_singleton [',', ' '] t,
          ← none] at last
      · have space := Nesting.ofText_append_char (t := []) (u := Text.joinWith [',', ' '] ts)
          (Dialect.closed_of_forall (by simp)) (.inl Dialect.isBalanced_nil) blank rfl
        rw [Nesting.ofText_nil, List.nil_append] at space
        rw [Dialect.joinWith_comma_cons t none, Nesting.ofText_append_char
          (Dialect.closed_of_isBalanced ht) (.inl ht) comma rfl, space]
        refine first hs fun seen => ?_
        have rest := ih hts others (endsWithCast_comma seen)
        simp only [Nesting.append, clean, Piece.text, List.reverse_singleton,
          List.singleton_append, rest]
        rfl

/-- What stands in a list is no type of a CAST. -/
theorem clean_row {depth : Nat} (h : d.IsRow depth t) (hd : depth ≤ room) {rest : Nesting}
    {behind seen : Text} (hs : endsWithCast seen = false)
    (hr : ∀ seen, clean limit q rest room seen = .ok behind) :
    clean limit q ((Nesting.ofText d t).append rest) room seen = .ok (t ++ behind) := by
  induction h generalizing room rest behind seen with
  | @item depth t closed plain =>
      have ordinary : ∀ p ∈ Piece.ofText d t, p.isOrdinary = true := by
        intro p hp
        have none := List.filterMap_eq_nil_iff.mp plain p hp
        have whole := closed p hp
        cases p with
        | literal t => rfl
        | stray q => cases whole
        | char c =>
            simp only [Piece.delimiter?, ite_eq_right_iff, reduceCtorEq, imp_false, not_or] at none
            simp [Piece.isOrdinary, none.1, none.2.1]
      rw [Nesting.ofText, Nesting.ofPieces_append_of_isOrdinary ordinary, clean_foldr hr,
        Piece.textOf_ofText]
  | @list depth ts items ih =>
      obtain ⟨below, rfl⟩ := Nat.exists_eq_add_one_of_ne_zero (show room ≠ 0 by omega)
      have balanced : ∀ t ∈ ts, d.isBalanced t = true := fun t ht => (items t ht).isBalanced
      have inner : clean limit q (Nesting.ofText d (Text.joinWith [',', ' '] ts)) below [] =
          .ok (Text.joinWith [',', ' '] ts) :=
        clean_joinWith balanced (fun t ht _ _ _ => ih t ht (by omega)) rfl
      rw [Nesting.ofText_parenthesize
        (Dialect.isBalanced_joinWith Dialect.isBalanced_comma balanced), Nesting.append,
        Nesting.append, clean, inner, hr, hs]
      simp [Addition.parenthesize]
      rfl

end CastTarget

namespace Dialect
variable {d : Dialect} {t : Text}

theorem plain_of_isInert (h : ∀ c ∈ t, d.isInert c = true) : d.Closed t ∧ d.delimiters t = [] := by
  have whole : ∀ p ∈ t.map .char, Piece.Whole d p :=
    List.forall_mem_map.mpr fun c hc => isQuote_of_isInert (h c hc)
  rw [← Piece.textOf_map_char t]
  refine ⟨closed_textOf whole, ?_⟩
  rw [delimiters_textOf whole, List.filterMap_eq_nil_iff]
  exact List.forall_mem_map.mpr fun c hc => delimiter?_of_isInert (h c hc)

theorem plain_quoteString (d : Dialect) (t : Text) :
    d.Closed (d.quoteString t) ∧ d.delimiters (d.quoteString t) = [] := by
  have whole : ∀ p ∈ [.literal (d.quoteString t)], Piece.Whole d p :=
    List.forall_mem_singleton.mpr (d.literal?_quoteString t)
  have text : Piece.textOf [.literal (d.quoteString t)] = d.quoteString t := List.append_nil _
  have closed := closed_textOf whole
  have delimiters := delimiters_textOf whole
  rw [text] at closed delimiters
  exact ⟨closed, delimiters⟩

/-- Names in quotes are no parentheses. -/
theorem IsRow.quoted (h : d.Closed t ∧ d.delimiters t = []) (depth : Nat) :
    d.IsRow depth (d.quoteNames t) := by
  obtain ⟨closed, delimiters⟩ := h.1.of_renders (d.renders_quoteNames t)
  exact .item closed (delimiters.trans h.2)

theorem plain_of_isAtomChar (h : ∀ c ∈ t, Text.isAtomChar c = true) :
    d.Closed t ∧ d.delimiters t = [] :=
  plain_of_isInert fun c hc => isInert_of_isAtomChar (h c hc)

theorem plain_null : d.Closed "NULL".toList ∧ d.delimiters "NULL".toList = [] :=
  plain_of_isAtomChar (List.all_eq_true.mp rfl)

theorem closed_quoteValues {vs : List Value} : ∀ t ∈ d.quoteValues "NULL".toList vs, d.Closed t :=
  fun t ht => (isLiteral_quoteValues List.mem_cons_self vs t ht).isItem.1

mutual

/-- What a value is written as is a list in a list at most as often as its lists are nested, also
with names in quotes. -/
theorem isRow_quoteValue :
    (v : Value) → d.IsRow v.nesting (d.quoteNames (d.quoteValue "NULL".toList v))
  | .null => .quoted plain_null _
  | .bool b => by
      rw [quoteValue]
      split <;> exact .quoted (plain_of_isAtomChar (List.all_eq_true.mp rfl)) _
  | .int n => .quoted (plain_of_isAtomChar Text.isAtomChar_of_mem_ofInt) _
  | .float x => by
      rw [quoteValue]
      split
      · exact .quoted (plain_of_isAtomChar (literalLayout.isAtomChar_render x)) _
      · exact .quoted plain_null _
  | .text t => .quoted (d.plain_quoteString t) _
  | .dateTime time => .quoted (d.plain_quoteString time.text) _
  | .list items => by
      have closed : d.Closed (Text.joinWith [',', ' '] (d.quoteValues "NULL".toList items)) :=
        closed_of_isBalanced (isBalanced_joinWith isBalanced_comma fun t ht =>
          (isLiteral_quoteValues List.mem_cons_self items t ht).isItem.isBalanced)
      have written := quoteNames_parenthesize closed
      rw [quoteNames_joinWith closed_quoteValues] at written
      have row := IsRow.list (List.forall_mem_map.mpr (isRow_quoteValues items))
      rwa [← written] at row

theorem isRow_quoteValues : (vs : List Value) →
    ∀ t ∈ d.quoteValues "NULL".toList vs, d.IsRow (Value.nestings vs) (d.quoteNames t)
  | [] => by simp [quoteValues]
  | v :: vs => by
      rw [quoteValues, List.forall_mem_cons]
      exact ⟨(isRow_quoteValue v).mono (Nat.le_max_left _ _), fun t ht =>
        (isRow_quoteValues vs t ht).mono (Nat.le_max_right _ _)⟩

end

theorem keeps_ofInt (n : Int) : d.Keeps (Text.ofInt n) := by
  have minus : d.isQuote '-' = false := by cases d <;> decide
  have decimal (n : Nat) : d.Keeps (Text.ofNat n) := keeps_digits fun _ => Text.isDigit_of_mem_ofNat
  cases n with
  | ofNat n => exact decimal n
  | negSucc n => exact (keeps_cons minus rfl).mpr (decimal (n + 1))

theorem keeps_null : d.Keeps "NULL".toList := by
  unfold Keeps
  cases d <;> decide +kernel

mutual

/-- The literal of a value is left alone, in MySQL if no number in it has an exponent. -/
theorem keeps_quoteValue : (v : Value) →
    (d.Keeps (d.quoteValue "NULL".toList v) ↔ (d = .mysql → v.hasExponent = false))
  | .null => iff_of_true keeps_null fun _ => rfl
  | .bool b => by
      refine iff_of_true ?_ fun _ => rfl
      unfold Keeps
      cases d <;> cases b <;> decide +kernel
  | .int n => iff_of_true (keeps_ofInt n.toInt) fun _ => rfl
  | .float x => by
      rw [quoteValue, Value.hasExponent]
      split
      · rename_i finite
        obtain ⟨l, written, -⟩ := exists_floatLiteral finite
        rw [written, keeps_floatLiteral, finite, l.contains_text, Bool.true_and,
          Option.isSome_eq_false_iff, Option.isNone_iff_eq_none]
      · rename_i infinite
        rw [Bool.not_eq_true] at infinite
        rw [infinite]
        exact iff_of_true keeps_null fun _ => rfl
  | .text t => iff_of_true (d.keeps_quoteString t) fun _ => rfl
  | .dateTime time => iff_of_true (d.keeps_quoteString time.text) fun _ => rfl
  | .list items => by
      have closed : d.Closed (Text.joinWith [',', ' '] (d.quoteValues "NULL".toList items)) :=
        closed_of_isBalanced (isBalanced_joinWith isBalanced_comma fun t ht =>
          (isLiteral_quoteValues List.mem_cons_self items t ht).isItem.isBalanced)
      exact (keeps_parenthesize closed).trans
        ((keeps_joinWith closed_quoteValues).trans (keeps_quoteValues items))

theorem keeps_quoteValues : (vs : List Value) →
    ((∀ t ∈ d.quoteValues "NULL".toList vs, d.Keeps t) ↔
      (d = .mysql → Value.anyExponent vs = false))
  | [] => by simp [quoteValues, Value.anyExponent]
  | v :: vs => by
      rw [quoteValues, List.forall_mem_cons, keeps_quoteValue v, keeps_quoteValues vs,
        Value.anyExponent, Bool.or_eq_false_iff]
      exact forall_and.symm

end

end Dialect

namespace Value
variable {s : Settings} {v : Value}

/-- An expression that is the literal of a value has its names in quotes and nothing else, a text
that reads like a CAST call included. -/
theorem quoteSmart_quoteValue (h : v.nesting ≤ s.maxNesting) :
    quoteSmart s (s.dialect.quoteValue "NULL".toList v) =
      .ok (s.dialect.quoteNames (s.dialect.quoteValue "NULL".toList v)) := by
  have row := s.dialect.isRow_quoteValue v
  have cleaned (t : Text) (row : s.dialect.IsRow v.nesting t) :
      CastTarget.clean s.maxNesting s.dialect.identifierQuote
        ((Nesting.ofText s.dialect t).append .done) s.maxNesting [] = .ok (t ++ []) :=
    CastTarget.clean_row row h rfl fun _ => rfl
  have literal := cleaned _ row
  rw [Nesting.append_done, List.append_nil] at literal
  unfold quoteSmart
  dsimp only
  split
  · exact literal
  · rfl

/-- Quoting the names of an expression leaves the literal of a value as it stands, and in MySQL the
only values that it does not leave alone are those with a number that is written with an
exponent. -/
theorem quoteIdentifier_quoteValue (h : v.nesting ≤ s.maxNesting) :
    quoteIdentifier s .smart (s.dialect.quoteValue "NULL".toList v) =
        .ok (s.dialect.quoteValue "NULL".toList v) ↔
      (s.dialect = .mysql → v.hasExponent = false) := by
  have balanced : s.dialect.isBalanced (s.dialect.quoteValue "NULL".toList v) = true :=
    (Dialect.isLiteral_quoteValue List.mem_cons_self v).isItem.isBalanced
  rw [quoteIdentifier, if_pos balanced, quoteSmart_quoteValue h, Except.ok.injEq]
  exact Dialect.keeps_quoteValue v

theorem quoteIdentifier_quoteValue_list :
    quoteIdentifier {} .smart "(NULL, -5, 2.5, (TRUE, 'CAST(a AS `b`)'))".toList =
      .ok "(NULL, -5, 2.5, (TRUE, 'CAST(a AS `b`)'))".toList := by
  have written : Dialect.mysql.quoteValue "NULL".toList
      (.list [.null, .int (-5), .float ⟨0x4004000000000000⟩,
        .list [.bool true, .text "CAST(a AS `b`)".toList]]) =
      "(NULL, -5, 2.5, (TRUE, 'CAST(a AS `b`)'))".toList := by
    decide +kernel
  have kept := (quoteIdentifier_quoteValue (s := {})
    (v := .list [.null, .int (-5), .float ⟨0x4004000000000000⟩,
      .list [.bool true, .text "CAST(a AS `b`)".toList]]) (by decide)).mpr
    fun _ => by decide +kernel
  rwa [written] at kept

/-- In MySQL a number with an exponent is taken for a name. -/
theorem not_quoteIdentifier_quoteValue :
    ¬∀ (s : Settings) (v : Value), v.nesting ≤ s.maxNesting →
      quoteIdentifier s .smart (s.dialect.quoteValue "NULL".toList v) =
        .ok (s.dialect.quoteValue "NULL".toList v) := by
  intro h
  have kept := h {} (.float ⟨0x4415af1d78b58c40⟩) (by decide)
  have written : Dialect.mysql.quoteValue "NULL".toList (.float ⟨0x4415af1d78b58c40⟩) =
      "1e20".toList := by
    decide +kernel
  have quoted : quoteIdentifier {} .smart "1e20".toList = .ok "`1e20`".toList := by
    decide +kernel
  rw [written, quoted] at kept
  exact absurd kept (by decide)

end Value

end SqlStatement
