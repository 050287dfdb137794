import SqlStatement.Proofs.Counting
import SqlStatement.Proofs.Decoding
import SqlStatement.Proofs.Preserving

/-!
# Values of counts

A count is an expression over the number of rows that FROM and WHERE match. Its
value is read off the text, with `-` as the difference of integers and LEAST as
the minimum. Under a row limit it is the number of rows that the limit lets
through, as long as the offset does not lie behind the last row. Behind it the
difference falls below zero, and the minimum does not bring it back.
-/
namespace SqlStatement

namespace Text
variable {n : Nat} {t : Text}

/-- The digits of a number end where something else begins. -/
theorem takeWhile_ofNat (h : t.head?.any Char.isDigit = false) :
    (ofNat n ++ t).takeWhile Char.isDigit = ofNat n := by
  rw [List.takeWhile_append_of_pos fun _ hc => isDigit_of_mem_ofNat hc]
  cases t with
  | nil => simp
  | cons c t => rw [List.takeWhile_cons_of_neg (by simpa using h), List.append_nil]

theorem dropWhile_ofNat (h : t.head?.any Char.isDigit = false) :
    (ofNat n ++ t).dropWhile Char.isDigit = t := by
  rw [List.dropWhile_append_of_pos fun _ hc => isDigit_of_mem_ofNat hc]
  cases t with
  | nil => rfl
  | cons c t => exact List.dropWhile_cons_of_neg (by simpa using h)

theorem exists_ofNat (n : Nat) : ∃ c t, ofNat n = c :: t ∧ c.isDigit = true := by
  obtain ⟨c, t, written⟩ := List.exists_cons_of_ne_nil (show ofNat n ≠ [] from Nat.toDigits_ne_nil)
  exact ⟨c, t, written, isDigit_of_mem_ofNat (by rw [written]; exact List.mem_cons_self)⟩

end Text

namespace RowLimit
variable {α : Type} (limit : RowLimit)

/-- The number of rows that are passed over. -/
def passed : Nat := (limit.offset.map UInt64.toNat).getD 0

/-- The rows that a limit lets through. -/
def window (rows : List α) : List α :=
  let rest := rows.drop limit.passed
  (limit.rows.map fun n => rest.take n.toNat).getD rest

end RowLimit

namespace Count
variable {rows fuel n : Nat} {f : Int → Int} {inner : Text → Option (Int × Text)}
variable {t rest : Text} {x y : Int}

end Count

namespace Parts
variable {s : Settings} {ps : Parts} {limit : RowLimit} {l : UInt64}

end Parts
end SqlStatement
