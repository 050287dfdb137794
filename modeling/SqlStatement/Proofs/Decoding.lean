import SqlStatement.Proofs.Composing
import SqlStatement.Proofs.Items
import SqlStatement.Proofs.Letters

/-!
# Literals that are read back

What a value is written as has no white characters at its ends. A text becomes a
string literal, and the escapes in it stand for the characters of the text. An
integer becomes its digits with a sign in front. Neither begins with a letter,
so neither is taken for a word, and each is read as the value that was written.
-/
namespace SqlStatement

/-- Computations of which none fails, one for each of several inputs. -/
theorem mapM_map_eq_ok {ε α β γ : Type} {f : β → Except ε γ} {k : α → β} {g : α → γ} {l : List α}
    (h : ∀ a ∈ l, f (k a) = .ok (g a)) : (l.map k).mapM f = .ok (l.map g) := by
  induction l with
  | nil => rfl
  | cons a l ih =>
      rw [List.forall_mem_cons] at h
      rw [List.map_cons, List.mapM_cons, h.1, ih h.2]
      rfl

namespace Text

theorem digitsValue_ofNat (n : Nat) : digitsValue (ofNat n) = n := Nat.ofDigitChars_ten_toDigits

theorem isDigit_of_mem_ofNat {n : Nat} {c : Char} (h : c ∈ ofNat n) : c.isDigit = true :=
  Nat.isDigit_of_mem_toDigits (by decide) (by decide) h

theorem trim_of_isWhite {t : Text} (h : ∀ c ∈ t, isWhite c = false) : trim t = t :=
  trimWhere_of_ends (fun c hc => h c (List.mem_of_mem_head? hc))
    fun c hc => h c (List.mem_of_mem_getLast? hc)

/-- A text that does not begin with a letter is not a keyword that does. -/
theorem isKeyword_of_isAlpha {k : String} {c : Char} {t : Text} (hc : c.isAlpha = false)
    (hk : k.toList.head?.all Char.isAlpha = true) : isKeyword k (c :: t) = false := by
  by_contra h
  simp only [isKeyword, upper, Bool.not_eq_false, beq_iff_eq, List.map_cons] at h
  rw [← h, List.head?_cons, Option.all_some, toUpper_of_isAlpha hc, hc] at hk
  cases hk

end Text

namespace Numeral

theorem sign_of_isDigit {t : Text} (h : ∀ c ∈ t, c.isDigit = true) : sign t = (false, t) := by
  cases t with
  | nil => rfl
  | cons c t =>
      have digit := h c (by simp)
      unfold sign
      split
      · simp_all
      · simp_all
      · rfl

theorem integer?_ofNat (n : Nat) : integer? (Text.ofNat n) = some (n : Int) := by
  have digits : ∀ c ∈ Text.ofNat n, c.isDigit = true := fun c hc => Text.isDigit_of_mem_ofNat hc
  have written : (Text.ofNat n).isEmpty = false := by simp [Text.ofNat]
  simp only [integer?, sign_of_isDigit digits, written, List.all_eq_true.mpr digits,
    Text.digitsValue_ofNat]
  rfl

/-- An integer is read back from its digits. -/
theorem integer?_ofInt (n : Int) : integer? (Text.ofInt n) = some n := by
  cases n with
  | ofNat n => exact integer?_ofNat n
  | negSucc n =>
      have digits : ∀ c ∈ Text.ofNat (n + 1), c.isDigit = true :=
        fun c hc => Text.isDigit_of_mem_ofNat hc
      have written : (Text.ofNat (n + 1)).isEmpty = false := by simp [Text.ofNat]
      simp only [integer?, Text.ofInt, sign, written, List.all_eq_true.mpr digits,
        Text.digitsValue_ofNat]
      rfl

end Numeral

namespace Dialect
variable {d : Dialect}

theorem unescape_cons {q c : Char} {t : Text} (hq : c ≠ q)
    (hb : ¬(c = '\\' ∧ d.stringEscape = .backslash)) :
    d.unescape q (c :: t) = c :: d.unescape q t := by
  cases t with
  | nil => rfl
  | cons c' t => rw [unescape, if_neg fun h => hq h.1, if_neg hb]

/-- A character is what its escape stands for. -/
theorem unescape_escapeChar (d : Dialect) (c : Char) (t : Text) :
    d.unescape d.stringQuote (d.escapeChar c ++ t) = c :: d.unescape d.stringQuote t := by
  cases d with
  | generic =>
      by_cases hc : c = '\''
      · simp [escapeChar, stringQuote, hc, unescape]
      · rw [escapeChar, if_neg hc, List.singleton_append]
        exact unescape_cons hc (by simp [stringEscape])
  | mysql =>
      have behind (c' : Char) : mysql.unescape mysql.stringQuote (['\\', c'] ++ t) =
          unescapeChar c' :: mysql.unescape mysql.stringQuote t := by
        simp [stringQuote, unescape, stringEscape]
      simp only [escapeChar]
      split_ifs with h₀ hr hn hf ht hq hb
      · rw [behind, h₀]
        rfl
      · rw [behind, hr]
        rfl
      · rw [behind, hn]
        rfl
      · rw [behind, hf]
        rfl
      · rw [behind, ht]
        rfl
      · rw [behind, hq]
        rfl
      · rw [behind, hb]
        rfl
      · exact unescape_cons hq fun h => hb h.1

theorem unescape_escaped (d : Dialect) (t : Text) :
    d.unescape d.stringQuote (t.flatMap d.escapeChar) = t := by
  induction t with
  | nil => rfl
  | cons c t ih => rw [List.flatMap_cons, unescape_escapeChar, ih]

/-- A string literal ends at its own quote in front of anything but one more quote. -/
theorem stringLiteral?_quoteString_append (d : Dialect) (t : Text) {b : Text}
    (hb : b.head? ≠ some d.stringQuote) :
    d.stringLiteral? (d.quoteString t ++ b) = some (d.quoteString t, b) := by
  have opens : d.isStringQuote d.stringQuote = true := by cases d <;> rfl
  have closes : d.stringEscape.close? d.stringQuote (d.stringQuote :: b) =
      some ([d.stringQuote], b) :=
    Escape.close?_quote b (by cases d <;> decide) (.inr hb)
  rw [quoteString, List.cons_append, List.append_assoc, List.singleton_append, stringLiteral?,
    if_pos opens, Escape.close?_append_of_passes (d.passes_escapes t), closes]
  rfl

theorem stringLiteral?_quoteString (d : Dialect) (t : Text) :
    d.stringLiteral? (d.quoteString t) = some (d.quoteString t, []) := by
  have alone := d.stringLiteral?_quoteString_append t (b := []) (by simp)
  rwa [List.append_nil] at alone

/-- A text is read back from its string literal. -/
theorem unquoteString?_quoted (d : Dialect) (t : Text) :
    d.unquoteString? (d.quoteString t) = some t := by
  have quoted : d.isQuotedString (d.quoteString t) = true := by
    rw [isQuotedString, stringLiteral?_quoteString]
  rw [quoteString] at quoted ⊢
  simp only [unquoteString?, quoted]
  rw [List.dropLast_concat, unescape_escaped]

theorem trim_quoteString (d : Dialect) (t : Text) :
    Text.trim (d.quoteString t) = d.quoteString t := by
  have quote : Text.isWhite d.stringQuote = false := by cases d <;> decide
  exact Text.trim_enclosed quote quote _

/-- What begins with no digit, sign or point is not a number. -/
theorem number?_quoteString (d : Dialect) (t : Text) : number? (d.quoteString t) = none := by
  have head : d.stringQuote = '\'' := rfl
  have sign : Numeral.sign (d.quoteString t) = (false, d.quoteString t) := by
    rw [quoteString, head]
    rfl
  have integer : Numeral.integer? (d.quoteString t) = none := by
    rw [Numeral.integer?, sign, quoteString, head]
    rfl
  have double : Numeral.double? (d.quoteString t) = none := by
    rw [Numeral.double?, sign, quoteString, head]
    rfl
  rw [number?, integer, double]
  rfl

/-- A trimmed text that does not begin with a letter is a number or a string literal. -/
theorem unquoteValue_of_isAlpha {c : Char} {t : Text} (hc : c.isAlpha = false)
    (ht : Text.trim (c :: t) = c :: t) :
    d.unquoteValue (c :: t) =
      match (number? (c :: t)).or ((d.unquoteString? (c :: t)).map .text) with
      | some v => .ok v
      | none => .error (.invalidValue (c :: t)) := by
  have word (k : String) (hk : k ∈ ["NULL", "DEFAULT", "TRUE", "FALSE"]) :
      Text.isKeyword k (c :: t) = false :=
    Text.isKeyword_of_isAlpha hc (by revert k; decide)
  have null : Text.isAnyKeyword ["NULL", "DEFAULT"] (c :: t) = false := by
    simp [Text.isAnyKeyword, word]
  simp only [unquoteValue, ht, null, word "TRUE" (by simp), word "FALSE" (by simp)]
  rfl

theorem unquoteValue_quoteString (d : Dialect) (t : Text) :
    d.unquoteValue (d.quoteString t) = .ok (.text t) := by
  have trimmed := d.trim_quoteString t
  have number := d.number?_quoteString t
  have quoted := d.unquoteString?_quoted t
  rw [quoteString] at trimmed number quoted ⊢
  rw [unquoteValue_of_isAlpha (by cases d <;> decide) trimmed, number, quoted]
  rfl

theorem isWhite_of_isAtomChar {c : Char} (h : Text.isAtomChar c = true) :
    Text.isWhite c = false := by
  rcases Text.isAtomChar_cases h with h | rfl | rfl
  · exact Text.isWhite_of_isWordChar h
  · decide
  · decide

/-- There is nothing to trim at the ends of a literal. -/
theorem IsLiteral.trim_eq {t : Text} (h : d.IsLiteral t) : Text.trim t = t := by
  cases h with
  | atom _ plain => exact Text.trim_of_isWhite fun c hc => isWhite_of_isAtomChar (plain c hc)
  | string t => exact d.trim_quoteString t
  | list => exact Text.trim_enclosed (by decide) (by decide) _

theorem exists_ofInt (n : Int) : ∃ c t, Text.ofInt n = c :: t ∧ c.isAlpha = false := by
  cases n with
  | ofNat n =>
      obtain ⟨c, t, h⟩ := List.exists_cons_of_ne_nil (show Text.ofNat n ≠ [] by simp [Text.ofNat])
      exact ⟨c, t, h, Text.isAlpha_of_isDigit (Text.isDigit_of_mem_ofNat (n := n) (by simp [h]))⟩
  | negSucc n => exact ⟨'-', _, rfl, by decide⟩

theorem unquoteValue_ofInt (d : Dialect) (n : Int64) :
    d.unquoteValue (Text.ofInt n.toInt) = .ok (.int n) := by
  have trimmed : Text.trim (Text.ofInt n.toInt) = Text.ofInt n.toInt :=
    Text.trim_of_isWhite fun c hc => isWhite_of_isAtomChar (Text.isAtomChar_of_mem_ofInt c hc)
  have fits : Value.inRange n.toInt = true := by
    rw [Value.inRange, decide_eq_true n.minValue_le_toInt, decide_eq_true n.toInt_le]
    rfl
  have number : number? (Text.ofInt n.toInt) = some (.int n) := by
    rw [number?, Numeral.integer?_ofInt, Option.filter_some_pos fits]
    simp [Int64.ofInt_toInt]
  obtain ⟨c, t, written, alpha⟩ := exists_ofInt n.toInt
  rw [written] at trimmed number ⊢
  rw [unquoteValue_of_isAlpha alpha trimmed, number]
  rfl

end Dialect

namespace Value

/-- Null, truth values, integers and texts: what a literal says exactly. -/
def IsPlain : Value → Prop
  | null | bool _ | int _ | text _ => True
  | float _ | dateTime _ | list _ => False

instance (v : Value) : Decidable v.IsPlain := by
  cases v <;> first | exact isTrue trivial | exact isFalse id

/-- All values but floating-point numbers and lists. -/
def IsScalar : Value → Prop
  | null | bool _ | int _ | text _ | dateTime _ => True
  | float _ | list _ => False

instance (v : Value) : Decidable v.IsScalar := by
  cases v <;> first | exact isTrue trivial | exact isFalse id

/-- What a value is read back as: itself, but for a time the text that it is written as. -/
def readBack : Value → Value
  | dateTime time => text time.text
  | v => v

end Value

namespace Dialect
variable {d : Dialect} {empty : Text}

/-- Null, truth values, integers and texts are read back from their literals. -/
theorem unquoteValue_quoted (he : empty ∈ ["NULL".toList, "DEFAULT".toList]) {v : Value}
    (hv : v.IsPlain) : d.unquoteValue (d.quoteValue empty v) = .ok v := by
  cases v with
  | null =>
      rcases List.mem_pair.mp he with rfl | rfl
      · rfl
      · rfl
  | bool b => cases b <;> rfl
  | int n => exact d.unquoteValue_ofInt n
  | text t => exact d.unquoteValue_quoteString t
  | float _ | dateTime _ | list _ => exact hv.elim

/-- All scalar values are read back from their literals, a time as its text. What is read as a text
was written as one, even a text that reads NULL, TRUE or 12 without its quotes. -/
theorem scalar_read_back (he : empty ∈ ["NULL".toList, "DEFAULT".toList]) {v : Value}
    (hv : v.IsScalar) :
    d.unquoteValue (d.quoteValue empty v) = .ok v.readBack ∧
      ∀ t, d.unquoteValue (d.quoteValue empty v) = .ok (.text t) ↔
        v = .text t ∨ ∃ time, v = .dateTime time ∧ time.text = t := by
  have back : d.unquoteValue (d.quoteValue empty v) = .ok v.readBack := by
    cases v with
    | dateTime time => exact d.unquoteValue_quoteString time.text
    | null | bool _ | int _ | text _ => exact unquoteValue_quoted he trivial
    | float _ | list _ => exact hv.elim
  refine ⟨back, fun t => ?_⟩
  rw [back, Except.ok.injEq]
  cases v with
  | null | bool _ | int _ | text _ | dateTime _ => simp [Value.readBack]
  | float _ | list _ => exact hv.elim

theorem scalar_read_back_time :
    (Value.dateTime ⟨2024, 2, 29, 23, 59, 58, 0⟩).IsScalar ∧
      mysql.unquoteValue "'2024-02-29 23:59:58'".toList =
        .ok (.text "2024-02-29 23:59:58".toList) :=
  have null : "DEFAULT".toList ∈ ["NULL".toList, "DEFAULT".toList] := by decide
  ⟨by decide, (scalar_read_back (d := mysql) null
    (v := .dateTime ⟨2024, 2, 29, 23, 59, 58, 0⟩) (by decide)).1⟩

theorem quoteValues_eq_map (vs : List Value) :
    d.quoteValues empty vs = vs.map (d.quoteValue empty) := by
  induction vs with
  | nil => rfl
  | cons v vs ih => rw [quoteValues, ih, List.map_cons]

/-- A list of such values is read back from their literals. -/
theorem mapM_unquoteValue (he : empty ∈ ["NULL".toList, "DEFAULT".toList]) {vs : List Value}
    (hv : ∀ v ∈ vs, v.IsPlain) : (d.quoteValues empty vs).mapM d.unquoteValue = .ok vs := by
  rw [quoteValues_eq_map, mapM_map_eq_ok fun v hm => unquoteValue_quoted he (hv v hm), List.map_id']

/-- The literals of values with commas between them are their own items. -/
theorem splitTopLevel_quoteValues (he : empty ∈ ["NULL".toList, "DEFAULT".toList])
    (vs : List Value) :
    d.splitTopLevel (Text.joinWith [',', ' '] (d.quoteValues empty vs)) =
      d.quoteValues empty vs := by
  have literals := isLiteral_quoteValues (d := d) he vs
  rw [splitTopLevel_joinWith_comma fun t ht => (literals t ht).isItem.isBalanced]
  conv_rhs => rw [← List.flatMap_singleton' (d.quoteValues empty vs)]
  refine List.flatMap_congr fun t ht => ?_
  have single := (literals t ht).isItem.splitTopLevel
  rw [(literals t ht).trim_eq] at single
  exact single (literals t ht).ne_nil

end Dialect
end SqlStatement
