import SqlStatement.Proofs.Bounding
import SqlStatement.Proofs.Decoding
import SqlStatement.Proofs.Rounding

/-!
# Numbers that are read back

A floating-point literal has digits on both sides of a point or in front of an
exponent, so it is never read as an integer. What it writes is one decimal, and
zeros that are added to its digits or taken from them only shift the exponent.
The digits of a finite number make up a decimal that is rounded to that number,
so every finite number is read back from its literal.
-/
namespace SqlStatement
open Double (tenTo ofDecimal)

namespace Text

theorem digitsValue_append (t u : Text) :
    digitsValue (t ++ u) = digitsValue t * tenTo u.length + digitsValue u := by
  have read (t : Text) : digitsValue t = Nat.ofDigitChars 10 t 0 := rfl
  rw [read, Nat.ofDigitChars_append, Nat.ofDigitChars_eq_ofDigitChars_zero, Nat.mul_comm]
  rfl

theorem digitsValue_zeros (n : Nat) : digitsValue (List.replicate n '0') = 0 :=
  Nat.ofDigitChars_replicate_zero.trans (Nat.mul_zero _)

theorem digitsValue_append_zeros (t : Text) (n : Nat) :
    digitsValue (t ++ List.replicate n '0') = digitsValue t * tenTo n := by
  rw [digitsValue_append, digitsValue_zeros, List.length_replicate, Nat.add_zero]

theorem digitsValue_zeros_append (n : Nat) (t : Text) :
    digitsValue (List.replicate n '0' ++ t) = digitsValue t := by
  rw [digitsValue_append, digitsValue_zeros, Nat.zero_mul, Nat.zero_add]

end Text

/-- A decimal number: its sign, its digits as one integer, and the power of ten they count. -/
structure Decimal where
  negative : Bool
  coefficient : Nat
  exponent : Int
  deriving DecidableEq, Repr

namespace Decimal

/-- The absolute value. -/
def magnitude (n : Decimal) : ℚ := n.coefficient * 10 ^ n.exponent

/-- The nearest number in double precision. -/
def toDouble (n : Decimal) : Double := ofDecimal n.negative n.coefficient n.exponent

end Decimal

namespace Numeral

/-- The decimal that a text writes: digits with an optional sign, an optional point and an optional
exponent. -/
def decimal? (t : Text) : Option Decimal := do
  let (whole, fraction, rest) ← mantissa? (sign t).2
  let exponent ← exponent? rest
  return ⟨(sign t).1, Text.digitsValue (whole ++ fraction), exponent - fraction.length⟩

theorem double?_eq (t : Text) : double? t = (decimal? t).map Decimal.toDouble := by
  unfold double? decimal?
  dsimp only
  cases mantissa? (sign t).2 with
  | none => rfl
  | some m =>
      obtain ⟨whole, fraction, rest⟩ := m
      cases he : exponent? rest <;> simp [he, Decimal.toDouble]

end Numeral

/-- A floating-point literal: digits in front of a point and behind it, and an exponent. It has a
fraction or an exponent. -/
structure FloatLiteral where
  negative : Bool
  whole : Text
  fraction : Text
  exponent : Option Int
  whole_ne_nil : whole ≠ []
  isDigit_whole : ∀ c ∈ whole, c.isDigit = true
  isDigit_fraction : ∀ c ∈ fraction, c.isDigit = true
  not_integer : fraction ≠ [] ∨ exponent.isSome = true

namespace FloatLiteral

/-- The point and the digits behind it. -/
def point : Text → Text
  | [] => []
  | fraction => '.' :: fraction

/-- The letter and the exponent behind it. -/
def power : Option Int → Text
  | none => []
  | some e => 'e' :: Text.ofInt e

/-- The text behind the sign. -/
def unsigned (l : FloatLiteral) : Text := l.whole ++ (point l.fraction ++ power l.exponent)

/-- The text of a literal. -/
def text (l : FloatLiteral) : Text := (if l.negative then ['-'] else []) ++ l.unsigned

/-- The decimal that a literal writes. -/
def decimal (l : FloatLiteral) : Decimal :=
  ⟨l.negative, Text.digitsValue (l.whole ++ l.fraction), l.exponent.getD 0 - l.fraction.length⟩

variable (l : FloatLiteral)

theorem sign_text : Numeral.sign l.text = (l.negative, l.unsigned) := by
  unfold text
  cases l.negative with
  | true => rfl
  | false =>
      obtain ⟨c, whole, written⟩ := List.exists_cons_of_ne_nil l.whole_ne_nil
      have digit := l.isDigit_whole c (by simp [written])
      have minus : c ≠ '-' := by rintro rfl; cases digit
      have plus : c ≠ '+' := by rintro rfl; cases digit
      simp [unsigned, written, Numeral.sign, minus, plus]

theorem exists_text : ∃ c t, l.text = c :: t ∧ c.isAlpha = false := by
  unfold text
  cases l.negative with
  | true => exact ⟨'-', _, rfl, by decide⟩
  | false =>
      obtain ⟨c, whole, written⟩ := List.exists_cons_of_ne_nil l.whole_ne_nil
      have digit := l.isDigit_whole c (by simp [written])
      refine ⟨c, whole ++ (point l.fraction ++ power l.exponent), ?_,
        Text.isAlpha_of_isDigit digit⟩
      simp [unsigned, written]

theorem exponent?_power : (e : Option Int) → Numeral.exponent? (power e) = some (e.getD 0)
  | none => rfl
  | some e => Numeral.integer?_ofInt e

theorem head_power (e : Option Int) : ∀ c ∈ (power e).head?, c.isDigit = false := by
  cases e with
  | none => simp [power]
  | some e => exact fun c hc => Option.mem_some.mp hc ▸ rfl

theorem head_behindWhole (fraction : Text) (e : Option Int) :
    ∀ c ∈ (point fraction ++ power e).head?, c.isDigit = false := by
  cases fraction with
  | nil => exact head_power e
  | cons f fraction => exact fun c hc => Option.mem_some.mp hc ▸ rfl

theorem mantissa?_unsigned :
    Numeral.mantissa? l.unsigned = some (l.whole, l.fraction, power l.exponent) := by
  obtain ⟨whole, behind⟩ := Text.takeWhile_dropWhile_append l.isDigit_whole
    (head_behindWhole l.fraction l.exponent)
  have written : l.whole.isEmpty = false := by simpa using l.whole_ne_nil
  unfold Numeral.mantissa? unsigned
  rw [whole, behind]
  cases hf : l.fraction with
  | nil =>
      cases he : l.exponent <;> simp [point, power, written]
  | cons f fraction =>
      obtain ⟨digits, rest⟩ := Text.takeWhile_dropWhile_append l.isDigit_fraction
        (head_power l.exponent)
      rw [hf, List.cons_append] at digits rest
      simp [point, written, digits, rest]

theorem decimal?_text : Numeral.decimal? l.text = some l.decimal := by
  unfold Numeral.decimal?
  rw [sign_text, mantissa?_unsigned]
  simp [exponent?_power, decimal]

theorem integer?_text : Numeral.integer? l.text = none := by
  have other : l.unsigned.all Char.isDigit = false := by
    apply List.all_eq_false.mpr
    rcases l.not_integer with fraction | exponent
    · obtain ⟨f, more, written⟩ := List.exists_cons_of_ne_nil fraction
      exact ⟨'.', by simp [unsigned, point, written], by decide⟩
    · obtain ⟨e, written⟩ := Option.isSome_iff_exists.mp exponent
      exact ⟨'e', by simp [unsigned, power, written], by decide⟩
  unfold Numeral.integer?
  rw [sign_text]
  simp [other]

/-- The letter of the exponent is the only letter of a literal. -/
theorem contains_text (l : FloatLiteral) : l.text.contains 'e' = l.exponent.isSome := by
  have digit {t : Text} (ht : ∀ c ∈ t, c.isDigit = true) : 'e' ∉ t := fun h => by cases ht 'e' h
  have sign : 'e' ∉ (if l.negative then ['-'] else [] : Text) := by split <;> decide
  have fraction : 'e' ∉ point l.fraction := by
    cases hf : l.fraction with
    | nil => exact List.not_mem_nil
    | cons f fraction =>
        have none := digit l.isDigit_fraction
        rw [hf] at none
        exact fun h => (List.mem_cons.mp h).elim (by decide) none
  rw [Bool.eq_iff_iff, List.contains_iff_mem, text, unsigned]
  simp only [List.mem_append, sign, digit l.isDigit_whole, fraction, false_or]
  cases l.exponent <;> simp [power]

theorem point_of_ne_nil {fraction : Text} (h : fraction ≠ []) :
    point fraction = '.' :: fraction := by
  obtain ⟨c, t, rfl⟩ := List.exists_cons_of_ne_nil h
  rfl

theorem isDigit_zeros (n : Nat) : ∀ c ∈ List.replicate n '0', c.isDigit = true := fun _ hc =>
  List.eq_of_mem_replicate hc ▸ rfl

section Layouts
variable (negative : Bool) {d : ShortDecimal}

/-- With the point in its place a decimal is written in front of it, behind it or around it. -/
theorem exists_plain (some : d.digits ≠ []) (digits : ∀ c ∈ d.digits, c.isDigit = true) :
    ∃ l : FloatLiteral, l.negative = negative ∧ l.unsigned = literalLayout.plain d ∧
      l.decimal.toDouble =
        ofDecimal negative (Text.digitsValue d.digits) (d.point - d.digits.length) := by
  unfold NumberLayout.plain
  dsimp only
  split
  · rename_i small
    have fraction : List.replicate (-d.point).toNat '0' ++ d.digits ≠ [] := by simp [some]
    refine ⟨⟨negative, ['0'], List.replicate (-d.point).toNat '0' ++ d.digits, none, by simp,
      List.forall_mem_singleton.mpr rfl,
      List.forall_mem_append.mpr ⟨isDigit_zeros _, digits⟩, .inl fraction⟩,
      rfl, ?_, ?_⟩
    · simp [unsigned, point_of_ne_nil fraction, power]
    · have zero : Text.digitsValue (['0'] ++ (List.replicate (-d.point).toNat '0' ++ d.digits)) =
          Text.digitsValue d.digits :=
        (Text.digitsValue_zeros_append 1 _).trans (Text.digitsValue_zeros_append _ _)
      have places : (0 : Int) - (List.replicate (-d.point).toNat '0' ++ d.digits).length =
          d.point - d.digits.length := by
        rw [List.length_append, List.length_replicate]
        omega
      simp only [decimal, Decimal.toDouble, zero, Option.getD_none, places]
  · rename_i positive
    split
    · rename_i large
      let padding := (d.point - d.digits.length).toNat
      refine ⟨⟨negative, d.digits ++ List.replicate padding '0', ['0'], none, by simp [some],
        List.forall_mem_append.mpr ⟨digits, isDigit_zeros _⟩, List.forall_mem_singleton.mpr rfl,
        .inl (by simp)⟩, rfl, ?_, ?_⟩
      · simp [unsigned, point, power, literalLayout, padding]
      · have zeros : Text.digitsValue (d.digits ++ List.replicate padding '0' ++ ['0']) =
            Text.digitsValue d.digits * tenTo (padding + 1) := by
          rw [List.append_assoc, ← List.replicate_succ', Text.digitsValue_append_zeros]
        have places : (0 : Int) - 1 + (padding + 1 : Nat) = d.point - d.digits.length := by
          simp only [padding]
          omega
        simp only [decimal, Decimal.toDouble, zeros, Option.getD_none, List.length_singleton,
          Nat.cast_one, Double.ofDecimal_mul_tenTo, places]
    · rename_i middle
      have front : d.digits.take d.point.toNat ≠ [] := by
        simp only [ne_eq, List.take_eq_nil_iff, some, or_false]
        omega
      have behind : d.digits.drop d.point.toNat ≠ [] := by
        simp only [ne_eq, List.drop_eq_nil_iff]
        omega
      refine ⟨⟨negative, d.digits.take d.point.toNat, d.digits.drop d.point.toNat, none, front,
        fun c hc => digits c (List.mem_of_mem_take hc),
        fun c hc => digits c (List.mem_of_mem_drop hc), .inl behind⟩, rfl, ?_, ?_⟩
      · simp [unsigned, point_of_ne_nil behind, power]
      · have places : (0 : Int) - (d.digits.drop d.point.toNat).length =
            d.point - d.digits.length := by
          rw [List.length_drop]
          omega
        simp only [decimal, Decimal.toDouble, List.take_append_drop, Option.getD_none, places]

/-- With an exponent the point stands behind the first digit. -/
theorem exists_scientific (some : d.digits ≠ []) (digits : ∀ c ∈ d.digits, c.isDigit = true) :
    ∃ l : FloatLiteral, l.negative = negative ∧ l.unsigned = NumberLayout.scientific d ∧
      l.decimal.toDouble =
        ofDecimal negative (Text.digitsValue d.digits) (d.point - d.digits.length) := by
  have front : d.digits.take 1 ≠ [] := by simp [some]
  refine ⟨⟨negative, d.digits.take 1, d.digits.drop 1, Option.some (d.point - 1), front,
    fun c hc => digits c (List.mem_of_mem_take hc),
    fun c hc => digits c (List.mem_of_mem_drop hc), .inr rfl⟩, rfl, ?_, ?_⟩
  · unfold NumberLayout.scientific unsigned
    dsimp only
    rw [List.append_assoc]
    cases d.digits.drop 1 <;> rfl
  · have places : d.point - 1 - (d.digits.drop 1).length = d.point - d.digits.length := by
      have := List.length_pos_iff.mpr some
      rw [List.length_drop]
      omega
    simp only [decimal, Decimal.toDouble, List.take_append_drop, Option.getD_some, places]

end Layouts

end FloatLiteral

namespace ShortDecimal
variable {coefficient : Nat} {exponent : Int}

theorem isDigit_ofScientific :
    ∀ c ∈ (ofScientific coefficient exponent).digits, c.isDigit = true := by
  intro c hc
  rw [ofScientific, Text.dropEndWhile, List.mem_reverse] at hc
  exact Text.isDigit_of_mem_ofNat (List.mem_reverse.mp ((List.dropWhile_sublist _).mem hc))

/-- The zeros that are dropped at the end of the digits are made up for by the place of the
point. -/
theorem ofDecimal_ofScientific (negative : Bool) (coefficient : Nat) (exponent : Int) :
    ofDecimal negative (Text.digitsValue (ofScientific coefficient exponent).digits)
        ((ofScientific coefficient exponent).point -
          (ofScientific coefficient exponent).digits.length) =
      ofDecimal negative coefficient exponent := by
  obtain ⟨zeros, all, written⟩ :=
    Text.exists_dropEndWhile (· == '0') (Text.ofNat coefficient)
  have replicated : zeros = List.replicate zeros.length '0' :=
    List.eq_replicate_of_mem fun c hc => by simpa using all c hc
  have value : coefficient =
      Text.digitsValue (ofScientific coefficient exponent).digits * tenTo zeros.length := by
    rw [← Text.digitsValue_append_zeros, ← replicated, ofScientific, ← written,
      Text.digitsValue_ofNat]
  have places : (ofScientific coefficient exponent).point -
      (ofScientific coefficient exponent).digits.length = exponent + zeros.length := by
    have lengths := congrArg List.length written
    rw [List.length_append] at lengths
    simp only [ofScientific]
    omega
  rw [places, ← Double.ofDecimal_mul_tenTo, ← value]

end ShortDecimal

namespace Double
variable {x : Double}

/-- The digits of a finite number make up a decimal that is rounded to that number. -/
theorem exists_shortest (hx : x.isFinite = true) :
    ∃ coefficient exponent, x.shortest = .ofScientific coefficient exponent ∧
      ofDecimal x.isNegative coefficient exponent = x := by
  unfold shortest
  cases found : (List.range' 1 17).findSome? x.readable? with
  | none => exact ⟨_, _, rfl, ofDecimal_exactDecimal hx⟩
  | some n =>
      refine ⟨_, _, rfl, ?_⟩
      obtain ⟨count, -, read⟩ := List.exists_of_findSome?_eq_some found
      unfold readable? at read
      dsimp only [Option.getD_some] at read ⊢
      split at read
      · rename_i upper
        cases read
        exact beq_iff_eq.mp (Bool.and_eq_true_iff.mp upper).1
      · split at read
        · rename_i lower
          cases read
          exact beq_iff_eq.mp lower
        · cases read

end Double

/-- A finite number is written as a literal whose decimal is rounded to that number. -/
theorem exists_floatLiteral {x : Double} (hx : x.isFinite = true) :
    ∃ l : FloatLiteral, literalLayout.render x = l.text ∧ l.decimal.toDouble = x := by
  have real : x.isNaN = false := by
    simp only [Double.isFinite, Double.isNaN, decide_eq_true_eq, decide_eq_false_iff_not] at *
    omega
  unfold NumberLayout.render
  simp only [real, hx, Bool.not_true, Bool.false_eq_true, if_false]
  split
  · rename_i bits
    have zero : ∀ c ∈ ['0'], c.isDigit = true := List.forall_mem_singleton.mpr rfl
    refine ⟨⟨x.isNegative, ['0'], ['0'], none, by simp, zero, zero, .inl (by simp)⟩, rfl, ?_⟩
    have value := x.ofUnsigned_unsignedBits
    rw [bits] at value
    exact (Double.ofDecimal_zero _ _).trans value
  · rename_i bits
    obtain ⟨coefficient, exponent, written, value⟩ := Double.exists_shortest hx
    rw [← ShortDecimal.ofDecimal_ofScientific, ← written] at value
    have digits : ∀ c ∈ x.shortest.digits, c.isDigit = true := by
      rw [written]
      exact ShortDecimal.isDigit_ofScientific
    have some : x.shortest.digits ≠ [] := by
      intro none
      rw [none] at value
      apply bits
      rw [← value]
      exact (congrArg Double.unsignedBits (Double.ofDecimal_zero _ _)).trans
        (Double.unsignedBits_ofUnsigned (Nat.zero_le _))
    have laid : ∃ l : FloatLiteral, l.negative = x.isNegative ∧
        l.unsigned = literalLayout.digits x.shortest ∧ l.decimal.toDouble = x := by
      unfold NumberLayout.digits literalLayout
      dsimp only
      split
      · obtain ⟨l, sign, text, decimal⟩ :=
          FloatLiteral.exists_plain x.isNegative some digits
        exact ⟨l, sign, text, decimal.trans value⟩
      · obtain ⟨l, sign, text, decimal⟩ :=
          FloatLiteral.exists_scientific x.isNegative some digits
        exact ⟨l, sign, text, decimal.trans value⟩
    obtain ⟨l, sign, text, decimal⟩ := laid
    exact ⟨l, by rw [FloatLiteral.text, sign, text], decimal⟩

namespace Dialect

/-- A finite number is read back from its literal. -/
theorem number?_render {x : Double} (hx : x.isFinite = true) :
    number? (literalLayout.render x) = some (.float x) := by
  obtain ⟨l, written, value⟩ := exists_floatLiteral hx
  rw [written, number?, l.integer?_text, Numeral.double?_eq, l.decimal?_text]
  simp [value]

theorem unquoteValue_render (d : Dialect) {x : Double} (hx : x.isFinite = true) :
    d.unquoteValue (literalLayout.render x) = .ok (.float x) := by
  have number := number?_render hx
  have trimmed : Text.trim (literalLayout.render x) = literalLayout.render x :=
    Text.trim_of_isWhite fun c hc =>
      isWhite_of_isAtomChar (literalLayout.isAtomChar_render x c hc)
  obtain ⟨l, written, -⟩ := exists_floatLiteral hx
  obtain ⟨c, t, text, alpha⟩ := l.exists_text
  rw [written, text] at number trimmed ⊢
  rw [unquoteValue_of_isAlpha alpha trimmed, number]
  rfl

end Dialect
end SqlStatement
