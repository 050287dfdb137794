import Mathlib.Data.List.Basic
import SqlStatement.Merge
import SqlStatement.Value.Literal

/-!
# How values are written

The literal of a value is a word or a number, a string in quotes, or a list of
literals in parentheses with commas between them. Whatever holds of these three
holds of the literals of all values, lists of lists included.
-/
namespace SqlStatement

namespace Text

/-- A character of words and numbers: a word character, the minus sign or the point. -/
def isAtomChar (c : Char) : Bool := isWordChar c || c == '-' || c == '.'

theorem isAtomChar_cases {c : Char} (h : isAtomChar c = true) :
    isWordChar c = true ∨ c = '-' ∨ c = '.' := by
  simpa [isAtomChar, or_assoc] using h

theorem isAtomChar_of_isWordChar {c : Char} (h : isWordChar c = true) : isAtomChar c = true := by
  rw [isAtomChar, h]
  rfl

theorem isWordChar_of_mem_ofNat {n : Nat} {c : Char} (h : c ∈ ofNat n) : isWordChar c = true := by
  have digit := Nat.isDigit_of_mem_toDigits (by decide) (by decide) h
  simp [isWordChar, Char.isAlphanum, digit]

theorem isAtomChar_of_mem_ofInt {n : Int} : ∀ c ∈ ofInt n, isAtomChar c = true := by
  have digits (n : Nat) : ∀ c ∈ ofNat n, isAtomChar c = true := fun _ hc =>
    isAtomChar_of_isWordChar (isWordChar_of_mem_ofNat hc)
  cases n with
  | ofNat n => exact digits n
  | negSucc n => exact List.forall_mem_cons.mpr ⟨rfl, digits (n + 1)⟩

theorem ofInt_ne_nil (n : Int) : ofInt n ≠ [] := by
  cases n with
  | ofNat n => exact Nat.toDigits_ne_nil
  | negSucc n => exact List.cons_ne_nil _ _

end Text

namespace NumberLayout
open Text (isAtomChar)
variable {layout : NumberLayout} {x : ShortDecimal}

theorem isAtomChar_plain (h : ∀ c ∈ x.digits, isAtomChar c = true) :
    ∀ c ∈ layout.plain x, isAtomChar c = true := by
  have zeros (n : Nat) : ∀ c ∈ List.replicate n '0', isAtomChar c = true := fun c hc =>
    List.eq_of_mem_replicate hc ▸ rfl
  simp only [plain]
  split
  · exact List.forall_mem_cons.mpr ⟨rfl, List.forall_mem_cons.mpr
      ⟨rfl, List.forall_mem_append.mpr ⟨zeros _, h⟩⟩⟩
  · split
    · refine List.forall_mem_append.mpr ⟨List.forall_mem_append.mpr ⟨h, zeros _⟩, ?_⟩
      split <;> exact List.all_eq_true.mp rfl
    · exact List.forall_mem_append.mpr ⟨fun c hc => h c (List.mem_of_mem_take hc),
        List.forall_mem_cons.mpr ⟨rfl, fun c hc => h c (List.mem_of_mem_drop hc)⟩⟩

theorem isAtomChar_scientific (h : ∀ c ∈ x.digits, isAtomChar c = true) :
    ∀ c ∈ scientific x, isAtomChar c = true := by
  have rest : ∀ c ∈ x.digits.drop 1, isAtomChar c = true :=
    fun c hc => h c (List.mem_of_mem_drop hc)
  simp only [scientific]
  refine List.forall_mem_append.mpr ⟨List.forall_mem_append.mpr
    ⟨fun c hc => h c (List.mem_of_mem_take hc), ?_⟩,
    List.forall_mem_cons.mpr ⟨by decide, Text.isAtomChar_of_mem_ofInt⟩⟩
  split
  · simp
  · exact List.forall_mem_cons.mpr ⟨rfl, rest⟩

/-- A number is written with digits, a sign, a point and an exponent, or as a word. -/
theorem isAtomChar_render (layout : NumberLayout) (x : Double) :
    ∀ c ∈ layout.render x, isAtomChar c = true := by
  have sign : ∀ c ∈ (if x.isNegative then ['-'] else [] : Text), isAtomChar c = true := by
    split <;> exact List.all_eq_true.mp rfl
  have shortest : ∀ c ∈ x.shortest.digits, isAtomChar c = true := by
    intro c hc
    rw [Double.shortest, ShortDecimal.ofScientific, Text.dropEndWhile, List.mem_reverse] at hc
    exact Text.isAtomChar_of_isWordChar (Text.isWordChar_of_mem_ofNat
      (List.mem_reverse.mp ((List.dropWhile_sublist _).mem hc)))
  have digits : ∀ c ∈ layout.digits x.shortest, isAtomChar c = true := by
    rw [NumberLayout.digits]
    split
    · exact isAtomChar_plain shortest
    · split
      · exact isAtomChar_plain shortest
      · exact isAtomChar_scientific shortest
  simp only [render]
  split
  · exact List.all_eq_true.mp rfl
  · split
    · exact List.forall_mem_append.mpr ⟨sign, List.all_eq_true.mp rfl⟩
    · split
      · refine List.forall_mem_append.mpr ⟨sign, ?_⟩
        split <;> exact List.all_eq_true.mp rfl
      · exact List.forall_mem_append.mpr ⟨sign, digits⟩

theorem render_ne_nil (h : layout.integerPoint = true) (x : Double) : layout.render x ≠ [] := by
  have plain (d : ShortDecimal) : layout.plain d ≠ [] := by
    simp only [NumberLayout.plain, h]
    split
    · exact List.cons_ne_nil _ _
    · split
      · simp
      · simp
  have digits (d : ShortDecimal) : layout.digits d ≠ [] := by
    rw [NumberLayout.digits]
    split
    · exact plain d
    · split
      · exact plain d
      · simp [scientific]
  simp only [render, h]
  split
  · decide
  · split
    · exact List.append_ne_nil_of_right_ne_nil _ (by decide)
    · split
      · exact List.append_ne_nil_of_right_ne_nil _ (by decide)
      · exact List.append_ne_nil_of_right_ne_nil _ (digits _)

end NumberLayout

namespace Dialect
variable {d : Dialect} {empty : Text}

/-- A word or a number, a string in quotes, or a list of such texts. -/
inductive IsLiteral (d : Dialect) : Text → Prop
  | atom {t : Text} (written : t ≠ []) (plain : ∀ c ∈ t, Text.isAtomChar c = true) : IsLiteral d t
  | string (t : Text) : IsLiteral d (d.quoteString t)
  | list {ts : List Text} (items : ∀ t ∈ ts, IsLiteral d t) :
      IsLiteral d (Addition.parenthesize (Text.joinWith [',', ' '] ts))

theorem IsLiteral.ne_nil {t : Text} (h : d.IsLiteral t) : t ≠ [] := by
  cases h with
  | atom written => exact written
  | string | list => exact List.cons_ne_nil _ _

theorem isLiteral_nullWord (he : empty ∈ ["NULL".toList, "DEFAULT".toList]) :
    d.IsLiteral empty := by
  rcases List.mem_pair.mp he with rfl | rfl
  · exact .atom (List.cons_ne_nil _ _) (List.all_eq_true.mp rfl)
  · exact .atom (List.cons_ne_nil _ _) (List.all_eq_true.mp rfl)

mutual

/-- Every value is written as a literal. -/
theorem isLiteral_quoteValue (he : empty ∈ ["NULL".toList, "DEFAULT".toList]) :
    (v : Value) → d.IsLiteral (d.quoteValue empty v)
  | .null => isLiteral_nullWord he
  | .bool b => by
      rw [quoteValue]
      split
      · exact .atom (List.cons_ne_nil _ _) (List.all_eq_true.mp rfl)
      · exact .atom (List.cons_ne_nil _ _) (List.all_eq_true.mp rfl)
  | .int n => .atom (Text.ofInt_ne_nil n.toInt) Text.isAtomChar_of_mem_ofInt
  | .float x => by
      rw [quoteValue]
      split
      · exact .atom (NumberLayout.render_ne_nil rfl x) (literalLayout.isAtomChar_render x)
      · exact isLiteral_nullWord he
  | .text t => .string t
  | .dateTime t => .string t.text
  | .list items => .list (isLiteral_quoteValues he items)

theorem isLiteral_quoteValues (he : empty ∈ ["NULL".toList, "DEFAULT".toList]) :
    (vs : List Value) → ∀ t ∈ d.quoteValues empty vs, d.IsLiteral t
  | [] => by simp [quoteValues]
  | v :: vs => by
      rw [quoteValues]
      exact List.forall_mem_cons.mpr ⟨isLiteral_quoteValue he v, isLiteral_quoteValues he vs⟩

end

end Dialect
end SqlStatement
