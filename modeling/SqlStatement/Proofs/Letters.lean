import Mathlib.Tactic.Common
import SqlStatement.Clause.Step

/-!
# Letters in upper case

Writing a text in upper case changes its ASCII letters into other ASCII letters
and nothing else. So every test that tells no two letters apart, such as whether
a character is blank, gives the same before and after.
-/
namespace SqlStatement.Text

theorem toUpper_of_isLower {c : Char} (h : c.isLower = false) : c.toUpper = c := by
  apply dif_neg
  rintro ⟨above, below⟩
  have small : c.isLower = true :=
    Bool.and_eq_true_iff.mpr ⟨decide_eq_true above, decide_eq_true below⟩
  rw [h] at small
  cases small

theorem toUpper_of_isAlpha {c : Char} (h : c.isAlpha = false) : c.toUpper = c :=
  toUpper_of_isLower (Bool.or_eq_false_iff.mp h).2

theorem isAlpha_toUpper (c : Char) : c.toUpper.isAlpha = c.isAlpha := by
  rw [Bool.eq_iff_iff]
  delta Char.isAlpha Char.isUpper Char.isLower Char.toUpper
  split <;> grind [UInt32.toNat_add, Char.toNat_val]

theorem isLower_toUpper (c : Char) : c.toUpper.isLower = false := by
  delta Char.isLower Char.toUpper
  split <;> grind [UInt32.toNat_add, Char.toNat_val]

theorem toUpper_toUpper (c : Char) : c.toUpper.toUpper = c.toUpper :=
  toUpper_of_isLower (isLower_toUpper c)

/-- What is the same for all letters does not depend on their case. -/
theorem apply_toUpper {α : Type} {f : Char → α}
    (h : ∀ c c' : Char, c.isAlpha = true → c'.isAlpha = true → f c = f c') (c : Char) :
    f c.toUpper = f c := by
  cases hc : c.isAlpha with
  | true => exact h _ _ ((isAlpha_toUpper c).trans hc) hc
  | false => rw [toUpper_of_isAlpha hc]

/-- A test that no letter passes does not depend on the case of letters. -/
theorem test_toUpper {p : Char → Bool} (h : ∀ c : Char, c.isAlpha = true → p c = false) (c : Char) :
    p c.toUpper = p c :=
  apply_toUpper (fun c c' hc hc' => (h c hc).trans (h c' hc').symm) c

theorem toUpper_eq_iff {x : Char} (hx : x.isAlpha = false) {c : Char} :
    c.toUpper = x ↔ c = x := by
  have other := test_toUpper (p := (· == x)) (fun c hc => by
    rw [beq_eq_false_iff_ne]
    rintro rfl
    rw [hx] at hc
    cases hc) c
  rw [← beq_iff_eq, other, beq_iff_eq]

theorem eq_iff_of_toUpper {c c' x : Char} (h : c'.toUpper = c.toUpper) (hx : x.isAlpha = false) :
    c' = x ↔ c = x := by
  rw [← toUpper_eq_iff hx, h, toUpper_eq_iff hx]

theorem toNat_of_isAlpha {c : Char} (h : c.isAlpha = true) : 65 ≤ c.toNat ∧ c.toNat ≤ 122 := by
  delta Char.isAlpha Char.isUpper Char.isLower at h
  simp only [Bool.or_eq_true, Bool.and_eq_true, decide_eq_true_eq, UInt32.le_iff_toNat_le,
    ge_iff_le] at h
  change (65 ≤ c.toNat ∧ c.toNat ≤ 90) ∨ (97 ≤ c.toNat ∧ c.toNat ≤ 122) at h
  omega

theorem toNat_of_isDigit {c : Char} (h : c.isDigit = true) : 48 ≤ c.toNat ∧ c.toNat ≤ 57 := by
  simp only [Char.isDigit, Bool.and_eq_true, decide_eq_true_eq, UInt32.le_iff_toNat_le,
    ge_iff_le] at h
  exact h

theorem toNat_of_isWordChar {c : Char} (h : isWordChar c = true) :
    48 ≤ c.toNat ∧ c.toNat ≤ 122 := by
  simp only [isWordChar, Char.isAlphanum, Bool.or_eq_true, beq_iff_eq] at h
  rcases h with (letter | digit) | rfl
  · have := toNat_of_isAlpha letter
    omega
  · have := toNat_of_isDigit digit
    omega
  · decide

theorem isAlpha_of_isDigit {c : Char} (h : c.isDigit = true) : c.isAlpha = false := by
  by_contra alpha
  have bounds := toNat_of_isAlpha (Bool.not_eq_false _ ▸ alpha)
  have below := toNat_of_isDigit h
  omega

theorem isDigit_toUpper (c : Char) : c.toUpper.isDigit = c.isDigit := by
  refine test_toUpper (fun c hc => ?_) c
  by_contra digit
  rw [isAlpha_of_isDigit (Bool.not_eq_false _ ▸ digit)] at hc
  cases hc

theorem isWhite_toUpper (c : Char) : isWhite c.toUpper = isWhite c := by
  refine test_toUpper (fun c hc => ?_) c
  obtain ⟨above, below⟩ := toNat_of_isAlpha hc
  simp only [isWhite, Bool.or_eq_false_iff, Bool.and_eq_false_iff, decide_eq_false_iff_not,
    beq_eq_false_iff_ne]
  omega

theorem isBlank_toUpper (c : Char) : isBlank c.toUpper = isBlank c := by
  refine test_toUpper (fun c hc => ?_) c
  by_contra blank
  have white := isWhite_of_isBlank (Bool.not_eq_false _ ▸ blank)
  obtain ⟨above, below⟩ := toNat_of_isAlpha hc
  simp only [isWhite, Bool.or_eq_true, Bool.and_eq_true, decide_eq_true_eq, beq_iff_eq] at white
  omega

theorem isWordChar_toUpper (c : Char) : isWordChar c.toUpper = isWordChar c :=
  apply_toUpper (fun c c' hc hc' => by simp [isWordChar, Char.isAlphanum, hc, hc']) c

@[simp] theorem upper_nil : upper [] = [] := rfl

@[simp] theorem upper_cons (c : Char) (t : Text) : upper (c :: t) = c.toUpper :: upper t := rfl

@[simp] theorem upper_append (t u : Text) : upper (t ++ u) = upper t ++ upper u := List.map_append

@[simp] theorem length_upper (t : Text) : (upper t).length = t.length := List.length_map _

@[simp] theorem upper_upper (t : Text) : upper (upper t) = upper t := by
  rw [upper, upper, List.map_map]
  exact List.map_congr_left fun c _ => toUpper_toUpper c

theorem length_eq_of_upper {t u : Text} (h : upper t = upper u) : t.length = u.length := by
  rw [← length_upper t, h, length_upper]

theorem takeWhile_upper {p : Char → Bool} (hp : ∀ c, p c.toUpper = p c) (t : Text) :
    (upper t).takeWhile p = upper (t.takeWhile p) := by
  rw [upper, List.takeWhile_map, upper]
  exact congrArg (fun p => (t.takeWhile p).map Char.toUpper) (funext hp)

theorem dropWhile_upper {p : Char → Bool} (hp : ∀ c, p c.toUpper = p c) (t : Text) :
    (upper t).dropWhile p = upper (t.dropWhile p) := by
  rw [upper, List.dropWhile_map, upper]
  exact congrArg (fun p => (t.dropWhile p).map Char.toUpper) (funext hp)

theorem trim_upper (t : Text) : trim (upper t) = upper (trim t) := by
  have reversed (u : Text) : (upper u).reverse = upper u.reverse := List.map_reverse.symm
  rw [trim, trimWhere, dropEndWhile, dropWhile_upper isWhite_toUpper, reversed,
    dropWhile_upper isWhite_toUpper, reversed]
  rfl

theorem isKeyword_congr (k : String) {w v : Text} (h : upper v = upper w) :
    isKeyword k v = isKeyword k w := by
  rw [isKeyword, h, isKeyword]

end SqlStatement.Text
