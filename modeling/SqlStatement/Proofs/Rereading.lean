import SqlStatement.Proofs.Printing

/-!
# Literals that are read and written again

What a literal is read as is null, a truth value, an integer, a text or the
floating-point number nearest to a decimal. All of these are read back from what
they are written as, but for the infinities: a decimal past the largest finite
number is read as one of them, and they are written as null.
-/
namespace SqlStatement

namespace Double

/-- An infinity of either sign. -/
def isInfinite (x : Double) : Bool := x.unsignedBits == infinityBits

variable {negative : Bool} {coefficient : Nat} {exponent : Int}

theorem unsignedBits_ofDecimal_le :
    (ofDecimal negative coefficient exponent).unsignedBits ≤ infinityBits := by
  rw [ofDecimal_eq, ofQuotient_eq, unsignedBits_ofUnsigned (Nat.min_le_right _ _)]
  exact Nat.min_le_right _ _

end Double

namespace Decimal

variable {n : Decimal}

/-- A decimal is not rounded to anything but a finite number or an infinity. -/
theorem isInfinite_eq : n.toDouble.isInfinite = !n.toDouble.isFinite := by
  have most : n.toDouble.unsignedBits ≤ Double.infinityBits := Double.unsignedBits_ofDecimal_le
  rw [Bool.eq_iff_iff, Double.isInfinite, beq_iff_eq, Bool.not_eq_true', ← Bool.not_eq_true,
    Double.isFinite_iff]
  omega

/-- A decimal is rounded to an infinity if its value is not below the threshold. -/
theorem isInfinite_toDouble :
    n.toDouble.isInfinite = true ↔ 2 ^ 1024 - 2 ^ 970 ≤ n.magnitude := by
  have finite : n.toDouble.isFinite = true ↔ n.magnitude < 2 ^ 1024 - 2 ^ 970 :=
    Double.isFinite_ofDecimal
  rw [isInfinite_eq, Bool.not_eq_true', ← Bool.not_eq_true, finite, not_lt]

end Decimal

namespace Numeral

/-- What begins with a letter is no decimal. -/
theorem decimal?_of_isAlpha {c : Char} (hc : c.isAlpha = true) (t : Text) :
    decimal? (c :: t) = none := by
  have digit : c.isDigit = false := by
    by_contra h
    rw [Text.isAlpha_of_isDigit (by simpa using h)] at hc
    cases hc
  have other (x : Char) (hx : x.isAlpha = false) : c ≠ x := by
    rintro rfl
    rw [hc] at hx
    cases hx
  have unsigned : sign (c :: t) = (false, c :: t) := by
    simp [sign, other '-' (by decide), other '+' (by decide)]
  have mantissa : mantissa? (c :: t) = none := by
    simp [mantissa?, digit, other '.' (by decide)]
  simp [decimal?, unsigned, mantissa]

/-- An integer is a decimal of the same value. -/
theorem decimal?_of_integer? {t : Text} {i : Int} (h : integer? t = some i) :
    ∃ n, decimal? t = some n ∧ n.magnitude = |(i : ℚ)| := by
  unfold integer? at h
  dsimp only at h
  split at h
  · rename_i digits
    simp only [Bool.and_eq_true, Bool.not_eq_true', List.all_eq_true] at digits
    have mantissa : mantissa? (sign t).2 = some ((sign t).2, [], []) := by
      have front := Text.takeWhile_dropWhile_append digits.2 (u := []) (by simp)
      rw [List.append_nil] at front
      simp [mantissa?, front.1, front.2, digits.1]
    refine ⟨⟨(sign t).1, Text.digitsValue (sign t).2, 0⟩, ?_, ?_⟩
    · simp [decimal?, mantissa, exponent?]
    · cases h
      split <;> simp [Decimal.magnitude]
  · cases h

end Numeral

namespace Value

/-- An infinity of either sign. -/
def isInfinite : Value → Bool
  | float x => x.isInfinite
  | _ => false

theorem isInfinite_of_isPlain {v : Value} (h : v.IsPlain) : v.isInfinite = false := by
  cases v with
  | null | bool _ | int _ | text _ => rfl
  | float _ | dateTime _ | list _ => exact h.elim

end Value

namespace Dialect
variable {d : Dialect} {t : Text} {v : Value} {n : Decimal}

/-- A decimal is read as an integer of its value or as the nearest floating-point number. -/
theorem number?_of_decimal? (h : Numeral.decimal? t = some n) :
    (∃ i : Int64, number? t = some (.int i) ∧ n.magnitude = |(i.toInt : ℚ)|) ∨
      number? t = some (.float n.toDouble) := by
  unfold number?
  split
  · rename_i i integer
    obtain ⟨written, fits⟩ := Option.filter_eq_some_iff.mp integer
    obtain ⟨n', decimal, value⟩ := Numeral.decimal?_of_integer? written
    cases h.symm.trans decimal
    simp only [Value.inRange, Bool.and_eq_true, decide_eq_true_eq] at fits
    have most : Int64.maxValue.toInt < 2 ^ 63 := by decide
    have exact : (Int64.ofInt i).toInt = i :=
      Int64.toInt_ofInt_of_le fits.1 (Int.lt_of_le_of_lt fits.2 most)
    exact .inl ⟨Int64.ofInt i, rfl, by rw [exact, value]⟩
  · right
    rw [Numeral.double?_eq, h]
    rfl

/-- A number is no keyword, so its value is what it is read as. -/
theorem unquoteValue_of_number? (h : Numeral.decimal? (Text.trim t) = some n)
    (hv : number? (Text.trim t) = some v) : d.unquoteValue t = .ok v := by
  have word (k : String) (hk : k ∈ ["NULL", "DEFAULT", "TRUE", "FALSE"]) :
      Text.isKeyword k (Text.trim t) = false := by
    cases ht : Text.trim t with
    | nil =>
        rw [ht] at h
        cases h
    | cons c u =>
        have alpha : c.isAlpha = false := by
          by_contra letter
          rw [ht, Numeral.decimal?_of_isAlpha (by simpa using letter)] at h
          cases h
        exact Text.isKeyword_of_isAlpha alpha (by revert k; decide)
  have null : Text.isAnyKeyword ["NULL", "DEFAULT"] (Text.trim t) = false := by
    simp [Text.isAnyKeyword, word]
  simp [unquoteValue, null, word, hv]

/-- Anything but a decimal is read as null, a truth value or a text. -/
theorem isPlain_of_unquoteValue (h : Numeral.decimal? (Text.trim t) = none)
    (hv : d.unquoteValue t = .ok v) : v.IsPlain := by
  have integer : Numeral.integer? (Text.trim t) = none := by
    cases hi : Numeral.integer? (Text.trim t) with
    | none => rfl
    | some i =>
        obtain ⟨n, decimal, -⟩ := Numeral.decimal?_of_integer? hi
        cases h.symm.trans decimal
  have number : number? (Text.trim t) = none := by
    rw [number?, integer, Numeral.double?_eq, h]
    rfl
  unfold unquoteValue at hv
  dsimp only at hv
  rw [number, Option.none_or] at hv
  split at hv
  · cases hv
    trivial
  · split at hv
    · cases hv
      trivial
    · split at hv
      · cases hv
        trivial
      · cases hu : d.unquoteString? (Text.trim t) with
        | none =>
            rw [hu] at hv
            cases hv
        | some text =>
            rw [hu] at hv
            cases hv
            trivial

/-- What a literal is read as: a plain value, which no decimal past the threshold is read as, or
the nearest floating-point number. -/
theorem unquoteValue_cases (h : d.unquoteValue t = .ok v) :
    (v.IsPlain ∧ ∀ n, Numeral.decimal? (Text.trim t) = some n → n.magnitude < 2 ^ 1024 - 2 ^ 970) ∨
      ∃ n, Numeral.decimal? (Text.trim t) = some n ∧ v = .float n.toDouble := by
  cases decimal : Numeral.decimal? (Text.trim t) with
  | none => exact .inl ⟨isPlain_of_unquoteValue decimal h, by simp⟩
  | some n =>
      rcases number?_of_decimal? decimal with ⟨i, number, value⟩ | number
      · cases (unquoteValue_of_number? decimal number).symm.trans h
        refine .inl ⟨trivial, fun n' hn => ?_⟩
        cases hn
        have least : (-(2 ^ 63 : ℤ)) ≤ i.toInt := i.minValue_le_toInt
        have most : i.toInt ≤ 2 ^ 63 := by have := i.toInt_lt; omega
        have bound : |i.toInt| ≤ 2 ^ 63 := abs_le.mpr ⟨least, most⟩
        have threshold : (2 ^ 63 : ℤ) < Double.threshold := by decide +kernel
        rw [value, ← Double.cast_threshold]
        exact_mod_cast bound.trans_lt threshold
      · cases (unquoteValue_of_number? decimal number).symm.trans h
        exact .inr ⟨n, rfl, rfl⟩

/-- An infinity has no literal of its own. -/
theorem quoteValue_of_isInfinite {empty : Text} (h : v.isInfinite = true) :
    d.quoteValue empty v = empty := by
  cases v with
  | float x =>
      have bits : x.unsignedBits = Double.infinityBits := beq_iff_eq.mp h
      have infinite : x.isFinite = false := by simp [Double.isFinite, bits]
      rw [quoteValue, infinite]
      rfl
  | null | bool _ | int _ | text _ | dateTime _ | list _ => cases h

/-- A value that was read from a literal is written and read back as it is, unless it is an
infinity, which is written as null. An infinity is what a decimal is read as from a bound on that
lies between the largest finite number and the next power of two. -/
theorem unquoteValue_requoted (h : d.unquoteValue t = .ok v) :
    d.unquoteValue (d.quoteValue "NULL".toList v) =
        .ok (if v.isInfinite then .null else v) ∧
      (d.quoteValue "NULL".toList v = "NULL".toList ↔ v = .null ∨ v.isInfinite = true) ∧
      (v.isInfinite = true ↔ ∃ n, Numeral.decimal? (Text.trim t) = some n ∧
        2 ^ 1024 - 2 ^ 970 ≤ n.magnitude) := by
  have null : d.unquoteValue "NULL".toList = .ok .null := rfl
  have read : d.unquoteValue (d.quoteValue "NULL".toList v) =
      .ok (if v.isInfinite then .null else v) := by
    split
    · rename_i infinite
      rw [quoteValue_of_isInfinite infinite, null]
    · rename_i finite
      rcases unquoteValue_cases h with ⟨plain, -⟩ | ⟨n, -, rfl⟩
      · exact unquoteValue_quoted List.mem_cons_self plain
      · have number : n.toDouble.isFinite = true := by
          simpa [Value.isInfinite, Decimal.isInfinite_eq] using finite
        rw [quoteValue, if_pos number, unquoteValue_render d number]
  refine ⟨read, ⟨fun written => ?_, ?_⟩, ?_⟩
  · rw [written, null] at read
    by_cases infinite : v.isInfinite = true
    · exact .inr infinite
    · rw [if_neg infinite] at read
      cases read
      exact .inl rfl
  · rintro (rfl | infinite)
    · rfl
    · exact quoteValue_of_isInfinite infinite
  · rcases unquoteValue_cases h with ⟨plain, small⟩ | ⟨n, decimal, rfl⟩
    · rw [Value.isInfinite_of_isPlain plain]
      refine iff_of_false Bool.false_ne_true ?_
      rintro ⟨n, decimal, large⟩
      exact absurd (small n decimal) (not_lt.mpr large)
    · rw [decimal]
      simp only [Value.isInfinite, Option.some.injEq, exists_eq_left', Decimal.isInfinite_toDouble]

theorem unquoteValue_requoted_decimals :
    mysql.unquoteValue " -1.50".toList = .ok (.float ⟨0xbff8000000000000⟩) ∧
      mysql.unquoteValue (mysql.quoteValue "NULL".toList (.float ⟨0xbff8000000000000⟩)) =
        .ok (.float ⟨0xbff8000000000000⟩) ∧
      mysql.unquoteValue "-1e400".toList = .ok (.float ⟨0xfff0000000000000⟩) ∧
      mysql.quoteValue "NULL".toList (.float ⟨0xfff0000000000000⟩) = "NULL".toList := by
  have half : (⟨true, 150, -2⟩ : Decimal).toDouble = ⟨0xbff8000000000000⟩ := by decide +kernel
  have finite : mysql.unquoteValue " -1.50".toList = .ok (.float ⟨0xbff8000000000000⟩) := by
    rw [← half]
    rfl
  have infinite : mysql.unquoteValue "-1e400".toList = .ok (.float ⟨0xfff0000000000000⟩) := rfl
  exact ⟨finite, (unquoteValue_requoted finite).1, infinite,
    (unquoteValue_requoted infinite).2.1.mpr (.inr (by decide))⟩

/-- An infinity that was read from a literal is not read back. -/
theorem not_unquoteValue_requoted :
    ¬∀ (d : Dialect) (t : Text) (v : Value), d.unquoteValue t = .ok v →
      d.unquoteValue (d.quoteValue "NULL".toList v) = .ok v := by
  intro h
  cases h generic "1e400".toList (.float ⟨0x7ff0000000000000⟩) rfl

end Dialect
end SqlStatement
