import Mathlib.Data.Rat.Cast.Order
import Mathlib.Tactic.Ring
import Mathlib.Tactic.Linarith
import SqlStatement.Number.Shortest

/-!
# Rounding to double precision

A quotient is rounded to a word: a scale at which it has 53 bits, and the nearest
integer at that scale. The word depends on nothing but the value of the quotient.
The value of a finite number is rounded to that number, and what is rounded past
the largest finite number lies above one threshold. A decimal that is decided by
its exponent alone is rounded like any other quotient.
-/
namespace SqlStatement.Double

theorem twoTo_pos (n : Nat) : 0 < twoTo n := Nat.two_pow_pos n

theorem twoTo_add (m n : Nat) : twoTo (m + n) = twoTo m * twoTo n := Nat.pow_add 2 m n

theorem twoTo_le {m n : Nat} (h : m ≤ n) : twoTo m ≤ twoTo n := Nat.pow_le_pow_right (by decide) h

theorem tenTo_pos (n : Nat) : 0 < tenTo n := Nat.pow_pos (by decide)

theorem tenTo_add (m n : Nat) : tenTo (m + n) = tenTo m * tenTo n := Nat.pow_add 10 m n

theorem tenTo_le {m n : Nat} (h : m ≤ n) : tenTo m ≤ tenTo n := Nat.pow_le_pow_right (by decide) h

section Quotients
variable {num den k : Nat}

theorem roundQuotient_mul (hk : 0 < k) :
    roundQuotient (num * k) (den * k) = roundQuotient num den := by
  have twice : 2 * (num % den * k) = 2 * (num % den) * k := (Nat.mul_assoc 2 _ k).symm
  have below : 2 * (num % den) * k < den * k ↔ 2 * (num % den) < den := Nat.mul_lt_mul_right hk
  have tie : 2 * (num % den) * k = den * k ↔ 2 * (num % den) = den := Nat.mul_left_inj hk.ne'
  unfold roundQuotient
  simp only [Nat.mul_div_mul_right _ _ hk, Nat.mul_mod_mul_right, twice, below, beq_eq_decide, tie]

/-- The nearest integer is one of the two around the quotient. -/
theorem roundQuotient_cases (num den : Nat) :
    (roundQuotient num den = num / den ∧ 2 * (num % den) ≤ den) ∨
      (roundQuotient num den = num / den + 1 ∧ den ≤ 2 * (num % den)) := by
  unfold roundQuotient
  dsimp only
  split
  · rename_i down
    simp only [Bool.or_eq_true, Bool.and_eq_true, decide_eq_true_eq, beq_iff_eq] at down
    left
    omega
  · rename_i up
    simp only [Bool.or_eq_true, Bool.and_eq_true, decide_eq_true_eq, beq_iff_eq] at up
    right
    omega

theorem roundQuotient_exact (k : Nat) (hd : 0 < den) : roundQuotient (k * den) den = k := by
  unfold roundQuotient
  simp [Nat.mul_div_cancel k hd, hd]

theorem le_roundQuotient (hd : 0 < den) (h : k * den ≤ num) : k ≤ roundQuotient num den := by
  have quotient := (Nat.le_div_iff_mul_le hd).mpr h
  rcases roundQuotient_cases num den with ⟨he, -⟩ | ⟨he, -⟩ <;> omega

theorem roundQuotient_le (hd : 0 < den) (h : num < k * den) : roundQuotient num den ≤ k := by
  have quotient := (Nat.div_lt_iff_lt_mul hd).mpr h
  rcases roundQuotient_cases num den with ⟨he, -⟩ | ⟨he, -⟩ <;> omega

/-- Above an odd integer are the quotients that are at least half a unit larger. -/
theorem lt_roundQuotient_iff (hd : 0 < den) (hk : k % 2 = 1) :
    k < roundQuotient num den ↔ (2 * k + 1) * den ≤ 2 * num := by
  have parts := Nat.div_add_mod num den
  have rest := Nat.mod_lt num hd
  have half : (2 * k + 1) * den = 2 * (k * den) + den := by ring
  rcases Nat.lt_trichotomy (num / den) k with h | rfl | h
  · have below : (num / den + 1) * den ≤ k * den := Nat.mul_le_mul_right den h
    have whole : (num / den + 1) * den = den * (num / den) + den := by ring
    have up := roundQuotient_le hd (show num < k * den by omega)
    omega
  · have whole : num / den * den = den * (num / den) := Nat.mul_comm _ _
    have tie : ¬((2 * (num % den) == den && num / den % 2 == 0) = true) := by simp [hk]
    have rounded : roundQuotient num den =
        if 2 * (num % den) < den then num / den else num / den + 1 := by
      unfold roundQuotient
      simp [hk]
    rw [rounded]
    split <;> omega
  · have above : (k + 1) * den ≤ num / den * den := Nat.mul_le_mul_right den h
    have whole : num / den * den = den * (num / den) := Nat.mul_comm _ _
    have next : (k + 1) * den = k * den + den := by ring
    have down := le_roundQuotient hd (show (k + 1) * den ≤ num by omega)
    omega

/-- The scale of a quotient. -/
def scaleOf (num den : Nat) : Nat := (num * twoTo 1074 / den).log2 + 1 - 53

/-- The word that a quotient is rounded to if no word is too large. -/
def wordOf (num den : Nat) : Nat :=
  scaleOf num den * twoTo 52 + roundQuotient (num * twoTo 1074) (den * twoTo (scaleOf num den))

theorem ofQuotient_eq (negative : Bool) (num den : Nat) :
    ofQuotient negative num den = ofUnsigned negative (min (wordOf num den) infinityBits) := rfl

theorem wordOf_mul (hk : 0 < k) : wordOf (num * k) (den * k) = wordOf num den := by
  have scale : scaleOf (num * k) (den * k) = scaleOf num den := by
    rw [scaleOf, Nat.mul_right_comm, Nat.mul_div_mul_right _ _ hk, scaleOf]
  rw [wordOf, scale, Nat.mul_right_comm num, Nat.mul_right_comm den, roundQuotient_mul hk, wordOf]

/-- Equal quotients are rounded to the same number. -/
theorem ofQuotient_congr {num' den' : Nat} (negative : Bool) (hd : 0 < den) (hd' : 0 < den')
    (h : num * den' = num' * den) :
    ofQuotient negative num den = ofQuotient negative num' den' := by
  have word : wordOf num den = wordOf num' den' := calc
    wordOf num den = wordOf (num * den') (den * den') := (wordOf_mul hd').symm
    _ = wordOf (num' * den) (den' * den) := by rw [h, Nat.mul_comm den]
    _ = wordOf num' den' := wordOf_mul hd
  rw [ofQuotient_eq, word, ofQuotient_eq]

/-- At its scale a quotient has at most 53 bits. -/
theorem lt_scaleOf (num : Nat) (hd : 0 < den) :
    num * twoTo 1074 < twoTo 53 * (den * twoTo (scaleOf num den)) := by
  have bits : num * twoTo 1074 / den < twoTo (53 + scaleOf num den) := by
    apply Nat.lt_of_lt_of_le Nat.lt_log2_self
    apply twoTo_le
    unfold scaleOf
    omega
  have bound := (Nat.div_lt_iff_lt_mul hd).mp bits
  rw [twoTo_add] at bound
  linarith

/-- It has 53 bits indeed, unless the scale is the smallest one. -/
theorem scaleOf_le (hs : scaleOf num den ≠ 0) :
    twoTo 52 * (den * twoTo (scaleOf num den)) ≤ num * twoTo 1074 := by
  have some : num * twoTo 1074 / den ≠ 0 := by
    intro zero
    unfold scaleOf at hs
    rw [zero] at hs
    exact hs rfl
  have hd : 0 < den := by
    apply Nat.pos_of_ne_zero
    rintro rfl
    exact some (Nat.div_zero _)
  have bits : twoTo (52 + scaleOf num den) ≤ num * twoTo 1074 / den := by
    apply Nat.le_trans _ (Nat.log2_self_le some)
    apply twoTo_le
    unfold scaleOf at hs ⊢
    omega
  have bound := (Nat.le_div_iff_mul_le hd).mp bits
  rw [twoTo_add] at bound
  linarith

theorem wordOf_eq_zero (h : 2 * (num * twoTo 1074) < den) : wordOf num den = 0 := by
  have small : num * twoTo 1074 / den = 0 := Nat.div_eq_of_lt (by omega)
  have scale : scaleOf num den = 0 := by
    unfold scaleOf
    rw [small]
    rfl
  have rounded := roundQuotient_cases (num * twoTo 1074) den
  rw [small, Nat.mod_eq_of_lt (by omega)] at rounded
  have unit : den * twoTo 0 = den := Nat.mul_one den
  rw [wordOf, scale, unit]
  omega

/-- The least value that is rounded past the largest finite number. It lies in the middle between
that number and the next power of two. -/
def threshold : Nat := twoTo 1024 - twoTo 970

theorem threshold_eq : threshold = (2 * (twoTo 53 - 1) + 1) * twoTo 970 := by
  have upper : twoTo 1024 = twoTo 54 * twoTo 970 := twoTo_add 54 970
  have odd : 2 * (twoTo 53 - 1) + 1 = twoTo 54 - 1 := rfl
  rw [threshold, upper, odd, Nat.sub_mul, Nat.one_mul]

/-- Below the largest scale everything is finite. -/
theorem lt_threshold_of_scaleOf_lt (hd : 0 < den) (hs : scaleOf num den < 2045) :
    wordOf num den < infinityBits ∧ num < threshold * den := by
  have units : twoTo 53 = 2 * twoTo 52 := rfl
  have infinity : infinityBits = 2047 * twoTo 52 := rfl
  have below := lt_scaleOf num hd
  have word : wordOf num den < infinityBits := by
    have most := roundQuotient_le (Nat.mul_pos hd (twoTo_pos _)) below
    have finite : scaleOf num den * twoTo 52 ≤ 2044 * twoTo 52 :=
      Nat.mul_le_mul_right _ (by omega)
    have unit := twoTo_pos 52
    unfold wordOf
    omega
  have scale : den * twoTo (scaleOf num den) ≤ den * twoTo 2044 :=
    Nat.mul_le_mul_left den (twoTo_le (by omega))
  have bound : twoTo 53 * (den * twoTo 2044) ≤ threshold * den * twoTo 1074 := by
    have split : twoTo 2044 = twoTo 970 * twoTo 1074 := twoTo_add 970 1074
    have digits : twoTo 53 ≤ 2 * (twoTo 53 - 1) + 1 := by
      have unit := twoTo_pos 52
      omega
    have product := Nat.mul_le_mul_right (twoTo 970 * den * twoTo 1074) digits
    rw [threshold_eq, split]
    linarith
  have value := Nat.mul_le_mul_left (twoTo 53) scale
  exact ⟨word, Nat.lt_of_mul_lt_mul_right (below.trans_le (value.trans bound))⟩

/-- At the largest scale the significand has to round up to 54 bits. -/
theorem infinityBits_le_wordOf_iff_of_scaleOf_eq (hd : 0 < den) (hs : scaleOf num den = 2045) :
    infinityBits ≤ wordOf num den ↔ threshold * den ≤ num := by
  have unit : twoTo 52 = 4503599627370496 := rfl
  have units : twoTo 53 = 2 * twoTo 52 := rfl
  have infinity : infinityBits = 2047 * twoTo 52 := rfl
  have cancel : threshold * den * twoTo 1074 ≤ num * twoTo 1074 ↔ threshold * den ≤ num :=
    Nat.mul_le_mul_right_iff (twoTo_pos 1074)
  have carry : infinityBits ≤ 2045 * twoTo 52 +
      roundQuotient (num * twoTo 1074) (den * twoTo 2045) ↔
        twoTo 53 - 1 < roundQuotient (num * twoTo 1074) (den * twoTo 2045) := by
    omega
  have split : twoTo 2045 = 2 * twoTo 970 * twoTo 1074 := by
    have two : twoTo 1 = 2 := rfl
    rw [← two, ← twoTo_add, ← twoTo_add]
  have product : (2 * (twoTo 53 - 1) + 1) * (den * twoTo 2045) =
      2 * ((2 * (twoTo 53 - 1) + 1) * twoTo 970 * den * twoTo 1074) := by
    rw [split]
    ring
  rw [wordOf, hs, carry, lt_roundQuotient_iff (Nat.mul_pos hd (twoTo_pos _)) rfl, ← cancel,
    threshold_eq, product]
  omega

/-- Above it nothing is finite. -/
theorem threshold_le_of_lt_scaleOf (hd : 0 < den) (hs : 2045 < scaleOf num den) :
    infinityBits ≤ wordOf num den ∧ threshold * den ≤ num := by
  have infinity : infinityBits = 2047 * twoTo 52 := rfl
  have above : twoTo 52 * (den * twoTo (scaleOf num den)) ≤ num * twoTo 1074 :=
    scaleOf_le (by omega)
  have word : infinityBits ≤ wordOf num den := by
    have least := le_roundQuotient (Nat.mul_pos hd (twoTo_pos _)) above
    have infinite : 2046 * twoTo 52 ≤ scaleOf num den * twoTo 52 :=
      Nat.mul_le_mul_right _ (by omega)
    unfold wordOf
    omega
  have scale : den * twoTo 2046 ≤ den * twoTo (scaleOf num den) :=
    Nat.mul_le_mul_left den (twoTo_le (by omega))
  have split : twoTo 52 * twoTo 2046 = twoTo 1024 * twoTo 1074 := by
    rw [← twoTo_add, ← twoTo_add]
  have value : threshold * den * twoTo 1074 ≤ num * twoTo 1074 := calc
    threshold * den * twoTo 1074 = threshold * (den * twoTo 1074) := Nat.mul_assoc _ _ _
    _ ≤ twoTo 1024 * (den * twoTo 1074) := Nat.mul_le_mul_right _ (Nat.sub_le _ _)
    _ = den * (twoTo 1024 * twoTo 1074) := by ring
    _ = twoTo 52 * (den * twoTo 2046) := by rw [← split]; ring
    _ ≤ twoTo 52 * (den * twoTo (scaleOf num den)) := Nat.mul_le_mul_left _ scale
    _ ≤ num * twoTo 1074 := above
  exact ⟨word, Nat.le_of_mul_le_mul_right value (twoTo_pos 1074)⟩

/-- A quotient is rounded past the largest finite number from the threshold on. -/
theorem infinityBits_le_wordOf_iff (hd : 0 < den) :
    infinityBits ≤ wordOf num den ↔ threshold * den ≤ num := by
  rcases Nat.lt_trichotomy (scaleOf num den) 2045 with hs | hs | hs
  · obtain ⟨word, value⟩ := lt_threshold_of_scaleOf_lt hd hs
    exact iff_of_false (Nat.not_le.mpr word) (Nat.not_le.mpr value)
  · exact infinityBits_le_wordOf_iff_of_scaleOf_eq hd hs
  · obtain ⟨word, value⟩ := threshold_le_of_lt_scaleOf hd hs
    exact iff_of_true word value

end Quotients

theorem infinityBits_lt : infinityBits < signBits := by decide

/-- The word of a number that is put together from a sign and an unsigned word. -/
theorem toNat_ofUnsigned (negative : Bool) {word : Nat} (h : word ≤ infinityBits) :
    (ofUnsigned negative word).bits.toNat = (if negative then signBits + word else word) := by
  have small : word < signBits := Nat.lt_of_le_of_lt h infinityBits_lt
  have size : 2 ^ 64 = 2 * signBits := rfl
  unfold ofUnsigned
  rw [UInt64.toNat_ofNat', size]
  apply Nat.mod_eq_of_lt
  split <;> omega

theorem unsignedBits_ofUnsigned {negative : Bool} {word : Nat} (h : word ≤ infinityBits) :
    (ofUnsigned negative word).unsignedBits = word := by
  have small : word < signBits := Nat.lt_of_le_of_lt h infinityBits_lt
  unfold unsignedBits
  rw [toNat_ofUnsigned negative h]
  split
  · rw [Nat.add_mod_left, Nat.mod_eq_of_lt small]
  · exact Nat.mod_eq_of_lt small

/-- A number is made of its sign and its unsigned word. -/
theorem ofUnsigned_unsignedBits (x : Double) : ofUnsigned x.isNegative x.unsignedBits = x := by
  have size : x.bits.toNat < 2 * signBits := x.bits.toNat_lt
  have word : (if x.isNegative = true then signBits + x.unsignedBits else x.unsignedBits) =
      x.bits.toNat := by
    unfold isNegative unsignedBits
    split
    · rename_i high
      have := of_decide_eq_true high
      rw [Nat.mod_eq_sub_mod this, Nat.mod_eq_of_lt (by omega)]
      omega
    · rename_i low
      have : x.bits.toNat < signBits := by simpa using low
      exact Nat.mod_eq_of_lt this
  unfold ofUnsigned
  rw [word, UInt64.ofNat_toNat]

section Finite
variable {x : Double}

theorem isFinite_iff : x.isFinite = true ↔ x.unsignedBits < infinityBits := decide_eq_true_iff

theorem unsignedBits_eq (x : Double) : x.unsignedBits = x.scale * twoTo 52 + x.significand := by
  have unit : twoTo 52 = 4503599627370496 := rfl
  unfold significand scale
  rw [unit]
  omega

theorem significand_lt (x : Double) : x.significand < twoTo 53 := by
  have unit : twoTo 52 = 4503599627370496 := rfl
  have units : twoTo 53 = 2 * 4503599627370496 := rfl
  unfold significand scale
  rw [unit, units]
  omega

/-- The significand has its leading bit, unless the scale is the smallest one. -/
theorem le_significand (h : x.scale ≠ 0) : twoTo 52 ≤ x.significand := by
  have unit : twoTo 52 = 4503599627370496 := rfl
  unfold significand scale at *
  rw [unit] at h ⊢
  omega

/-- The scale of the value of a number is its own. -/
theorem log2_value (x : Double) : (x.significand * twoTo x.scale).log2 + 1 - 53 = x.scale := by
  have upper : x.significand * twoTo x.scale < twoTo (53 + x.scale) := by
    rw [twoTo_add]
    exact Nat.mul_lt_mul_of_pos_right x.significand_lt (twoTo_pos _)
  by_cases hs : x.scale = 0
  · rw [hs] at upper ⊢
    by_cases zero : x.significand * twoTo 0 = 0
    · rw [zero]
      rfl
    · have := (Nat.log2_lt zero).mpr upper
      omega
  · have lower : twoTo (52 + x.scale) ≤ x.significand * twoTo x.scale := by
      rw [twoTo_add]
      exact Nat.mul_le_mul_right _ (le_significand hs)
    have positive : x.significand * twoTo x.scale ≠ 0 :=
      (Nat.lt_of_lt_of_le (twoTo_pos _) lower).ne'
    have least := (Nat.le_log2 positive).mpr lower
    have most := (Nat.log2_lt positive).mpr upper
    omega

/-- The value of a finite number is rounded to the number itself. -/
theorem ofQuotient_exact (hx : x.isFinite = true) {num den : Nat} (hd : 0 < den)
    (value : num * twoTo 1074 = x.significand * twoTo x.scale * den) :
    ofQuotient x.isNegative num den = x := by
  have scale : scaleOf num den = x.scale := by
    rw [scaleOf, value, Nat.mul_div_cancel _ hd, log2_value]
  have word : wordOf num den = x.unsignedBits := by
    have grid : 0 < den * twoTo x.scale := Nat.mul_pos hd (twoTo_pos _)
    have multiple : x.significand * twoTo x.scale * den =
        x.significand * (den * twoTo x.scale) := by
      ring
    rw [wordOf, scale, value, multiple, roundQuotient_exact _ grid, unsignedBits_eq]
  have finite := isFinite_iff.mp hx
  rw [ofQuotient_eq, word, Nat.min_eq_left finite.le, ofUnsigned_unsignedBits]

end Finite

theorem isFinite_ofQuotient {negative : Bool} {num den : Nat} (hd : 0 < den) :
    (ofQuotient negative num den).isFinite = true ↔ num < threshold * den := by
  have least : infinityBits ≤ wordOf num den ↔ threshold * den ≤ num :=
    infinityBits_le_wordOf_iff hd
  rw [isFinite_iff, ofQuotient_eq, unsignedBits_ofUnsigned (Nat.min_le_right _ _)]
  omega

section Decimals
variable {negative : Bool} {coefficient : Nat} {exponent : Int}

theorem ofDecimal_zero (negative : Bool) (exponent : Int) :
    ofDecimal negative 0 exponent = ofUnsigned negative 0 := by
  simp [ofDecimal]

theorem twoTo_le_tenTo : 2 * twoTo 1074 ≤ tenTo 330 := by decide +kernel

theorem threshold_le_tenTo : threshold ≤ tenTo 310 := by decide +kernel

theorem lt_tenTo_length (n : Nat) : n < tenTo (Text.ofNat n).length :=
  (Nat.length_toDigits_le_iff (by decide) (List.length_pos_iff.mpr Nat.toDigits_ne_nil)).mp le_rfl

theorem tenTo_length_le {n : Nat} (hn : n ≠ 0) : tenTo ((Text.ofNat n).length - 1) ≤ n := by
  by_cases one : (Text.ofNat n).length - 1 = 0
  · rw [one]
    exact Nat.pos_of_ne_zero hn
  · apply Nat.not_lt.mp
    intro small
    have short : (Text.ofNat n).length ≤ (Text.ofNat n).length - 1 :=
      (Nat.length_toDigits_le_iff (by decide) (Nat.pos_of_ne_zero one)).mpr small
    omega

/-- Far behind the point a decimal is rounded to zero. -/
theorem wordOf_eq_zero_of_exponent
    (h : (Text.ofNat coefficient).length + exponent.toNat + 330 ≤ (-exponent).toNat) :
    wordOf (coefficient * tenTo exponent.toNat) (tenTo (-exponent).toNat) = 0 := by
  have double : 0 < 2 * twoTo 1074 := Nat.mul_pos Nat.two_pos (twoTo_pos 1074)
  apply wordOf_eq_zero
  calc 2 * (coefficient * tenTo exponent.toNat * twoTo 1074)
      = coefficient * tenTo exponent.toNat * (2 * twoTo 1074) := by ring
    _ < tenTo (Text.ofNat coefficient).length * tenTo exponent.toNat * (2 * twoTo 1074) := by
        apply Nat.mul_lt_mul_of_pos_right _ double
        exact Nat.mul_lt_mul_of_pos_right (lt_tenTo_length coefficient) (tenTo_pos _)
    _ ≤ tenTo (Text.ofNat coefficient).length * tenTo exponent.toNat * tenTo 330 :=
        Nat.mul_le_mul_left _ twoTo_le_tenTo
    _ ≤ tenTo (-exponent).toNat := by
        rw [← tenTo_add, ← tenTo_add]
        exact tenTo_le h

/-- Far in front of the point it is rounded past the largest finite number. -/
theorem threshold_le_of_exponent (hc : coefficient ≠ 0)
    (h : 310 + (-exponent).toNat ≤ (Text.ofNat coefficient).length - 1 + exponent.toNat) :
    threshold * tenTo (-exponent).toNat ≤ coefficient * tenTo exponent.toNat := calc
  threshold * tenTo (-exponent).toNat ≤ tenTo 310 * tenTo (-exponent).toNat :=
    Nat.mul_le_mul_right _ threshold_le_tenTo
  _ ≤ tenTo ((Text.ofNat coefficient).length - 1) * tenTo exponent.toNat := by
    rw [← tenTo_add, ← tenTo_add]
    exact tenTo_le h
  _ ≤ coefficient * tenTo exponent.toNat := Nat.mul_le_mul_right _ (tenTo_length_le hc)

/-- A decimal is rounded as the quotient that it is; that a large or a small one is decided by its
exponent alone makes no difference. -/
theorem ofDecimal_eq (negative : Bool) (coefficient : Nat) (exponent : Int) :
    ofDecimal negative coefficient exponent =
      ofQuotient negative (coefficient * tenTo exponent.toNat) (tenTo (-exponent).toNat) := by
  have den := tenTo_pos (-exponent).toNat
  unfold ofDecimal
  dsimp only
  split
  · rename_i small
    have zero : wordOf (coefficient * tenTo exponent.toNat) (tenTo (-exponent).toNat) = 0 := by
      rcases small with rfl | small
      · exact wordOf_eq_zero (by simpa using den)
      · exact wordOf_eq_zero_of_exponent (by omega)
    rw [ofQuotient_eq, zero, Nat.zero_min]
  · rename_i large
    split
    · rename_i huge
      have positive : coefficient ≠ 0 := fun h => large (.inl h)
      have bound : threshold * tenTo (-exponent).toNat ≤ coefficient * tenTo exponent.toNat :=
        threshold_le_of_exponent positive (by omega)
      rw [ofQuotient_eq, Nat.min_eq_right ((infinityBits_le_wordOf_iff den).mpr bound)]
    · split
      · rename_i whole
        have none : (-exponent).toNat = 0 := by omega
        rw [none]
        rfl
      · rename_i part
        have none : exponent.toNat = 0 := by omega
        have unit : tenTo 0 = 1 := rfl
        rw [none, unit, Nat.mul_one]

/-- Zeros behind a decimal count as much as its exponent. -/
theorem ofDecimal_mul_tenTo (negative : Bool) (coefficient k : Nat) (exponent : Int) :
    ofDecimal negative (coefficient * tenTo k) exponent =
      ofDecimal negative coefficient (exponent + k) := by
  have exponents : k + exponent.toNat + (-(exponent + k)).toNat =
      (exponent + k).toNat + (-exponent).toNat := by
    omega
  have value : coefficient * tenTo k * tenTo exponent.toNat * tenTo (-(exponent + k)).toNat =
      coefficient * tenTo (exponent + k).toNat * tenTo (-exponent).toNat := calc
    _ = coefficient * tenTo (k + exponent.toNat + (-(exponent + k)).toNat) := by
        rw [tenTo_add, tenTo_add]
        ring
    _ = coefficient * tenTo (exponent + k).toNat * tenTo (-exponent).toNat := by
        rw [exponents, tenTo_add]
        ring
  rw [ofDecimal_eq, ofDecimal_eq, ofQuotient_congr negative (tenTo_pos _) (tenTo_pos _) value]

/-- The exact decimal of a finite number reads back as that number. -/
theorem ofDecimal_exactDecimal {x : Double} (hx : x.isFinite = true) :
    ofDecimal x.isNegative x.exactDecimal.1 x.exactDecimal.2 = x := by
  rw [ofDecimal_eq]
  apply ofQuotient_exact hx (tenTo_pos _)
  unfold exactDecimal
  split
  · rename_i whole
    have scale : twoTo x.scale = twoTo (x.scale - 1074) * twoTo 1074 := by
      rw [← twoTo_add, Nat.sub_add_cancel whole]
    change x.significand * twoTo (x.scale - 1074) * 1 * twoTo 1074 =
      x.significand * twoTo x.scale * 1
    rw [scale]
    ring
  · rename_i part
    have exponent : (x.scale - (1074 : Int)).toNat = 0 := by omega
    have places : (-(x.scale - (1074 : Int))).toNat = 1074 - x.scale := by omega
    have unit : tenTo 0 = 1 := rfl
    have half : tenTo (1074 - x.scale) = Nat.pow 5 (1074 - x.scale) * twoTo (1074 - x.scale) :=
      Nat.mul_pow 5 2 _
    have scale : twoTo 1074 = twoTo x.scale * twoTo (1074 - x.scale) := by
      rw [← twoTo_add]
      congr 1
      omega
    dsimp only
    rw [exponent, places, unit, half, scale]
    ring

theorem cast_threshold : (threshold : ℚ) = 2 ^ 1024 - 2 ^ 970 := by
  have two (n : Nat) : ((twoTo n : Nat) : ℚ) = 2 ^ n := Nat.cast_pow 2 n
  have below : twoTo 970 ≤ twoTo 1024 := twoTo_le (by omega)
  rw [threshold, Nat.cast_sub below, two, two]

/-- A decimal is rounded to a finite number if its value is below the threshold. -/
theorem isFinite_ofDecimal : (ofDecimal negative coefficient exponent).isFinite = true ↔
    (coefficient : ℚ) * 10 ^ exponent < 2 ^ 1024 - 2 ^ 970 := by
  have den : (0 : ℚ) < 10 ^ (-exponent).toNat := by positivity
  have power : (10 : ℚ) ^ exponent = 10 ^ exponent.toNat / 10 ^ (-exponent).toNat := by
    rw [← zpow_natCast, ← zpow_natCast, ← zpow_sub₀ (by norm_num)]
    congr 1
    omega
  have ten (n : Nat) : ((tenTo n : Nat) : ℚ) = 10 ^ n := Nat.cast_pow 10 n
  rw [ofDecimal_eq, isFinite_ofQuotient (tenTo_pos _), ← cast_threshold, power, mul_div_assoc',
    div_lt_iff₀ den]
  rw [← ten, ← ten, ← Nat.cast_mul, ← Nat.cast_mul, Nat.cast_lt]

end Decimals

end SqlStatement.Double
