import SqlStatement.Proofs.Evaluating
import SqlStatement.Proofs.Assigning

/-!
# Pages of rows

A limit is written as a row count with an offset behind it and read back as the
same two numbers. The row count alone is also read by a scan for digits, behind
a comma if there is one, and both readings agree wherever a limit can be read at
all. So a page without a row count is the page with the current one, and the
windows of consecutive pages lie one behind the other.
-/
namespace SqlStatement

namespace Text
variable {c : Char} {t u : Text}

theorem isWhite_of_isDigit (h : c.isDigit = true) : isWhite c = false :=
  isWhite_of_isWordChar (by simp [isWordChar, Char.isAlphanum, h])

theorem isBlank_of_isDigit (h : c.isDigit = true) : isBlank c = false := by
  by_contra blank
  rw [Bool.not_eq_false] at blank
  cases (isWhite_of_isDigit h).symm.trans (isWhite_of_isBlank blank)

theorem ne_comma_of_isDigit (h : c.isDigit = true) : c ≠ ',' := by
  rintro rfl
  exact absurd h (by decide)

theorem trim_of_isDigit (h : ∀ c ∈ t, c.isDigit = true) : trim t = t :=
  trim_of_isWhite fun c hc => isWhite_of_isDigit (h c hc)

end Text

namespace RowLimit
variable {offset n : Nat} {limit : RowLimit} {t u : Text}

/-- A row count with an offset as they are written. -/
def written (rows offset : Nat) : Text :=
  if offset = 0 then Text.ofNat rows
  else Text.ofNat rows ++ " OFFSET ".toList ++ Text.ofNat offset

/-- A row count behind an offset, which is left out if it is zero. -/
def behind (rows : UInt64) (offset : Nat) : RowLimit :=
  ⟨some rows, if offset = 0 then none else some (UInt64.ofNat offset)⟩

theorem number?_ofNat (h : n < UInt64.size) : number? (Text.ofNat n) = some (UInt64.ofNat n) := by
  have digits : (Text.ofNat n).all Char.isDigit = true :=
    List.all_eq_true.mpr fun _ hc => Text.isDigit_of_mem_ofNat hc
  obtain ⟨c, t, written, -⟩ := Text.exists_ofNat n
  have some_digits : (Text.ofNat n).isEmpty = false := by
    rw [written]
    rfl
  rw [number?, digits, some_digits, if_neg (by decide), Text.digitsValue_ofNat]
  exact if_pos h

theorem behindOffset?_ofNat (n : Nat) :
    behindOffset? (" OFFSET ".toList ++ Text.ofNat n) = some (Text.ofNat n) := by
  obtain ⟨c, t, written, digit⟩ := Text.exists_ofNat n
  have number : Text.skipBlanks (' ' :: Text.ofNat n) = Text.ofNat n := by
    rw [written]
    exact List.dropWhile_cons_of_neg (Bool.eq_false_iff.mp (Text.isBlank_of_isDigit digit))
  have word : Text.skipBlanks (" OFFSET ".toList ++ Text.ofNat n) =
      "OFFSET ".toList ++ Text.ofNat n := rfl
  rw [behindOffset?, word]
  exact congrArg some number

theorem trim_written (rows offset : Nat) :
    Text.trim (written rows offset) = written rows offset := by
  have digits (n : Nat) : Text.trim (Text.ofNat n) = Text.ofNat n :=
    Text.trim_of_isDigit fun _ hc => Text.isDigit_of_mem_ofNat hc
  rw [written]
  split
  · exact digits rows
  · obtain ⟨c, t, first, digit⟩ := Text.exists_ofNat rows
    obtain ⟨c', t', last, -⟩ := Text.exists_ofNat offset
    refine Text.trim_append (fun c hc => ?_) (by simp) (by simp [last]) (digits offset)
    rw [first] at hc
    cases hc
    exact Text.isWhite_of_isDigit digit

/-- What is written is read back. -/
theorem ofText_written (hr : n < UInt64.size) (ho : offset < UInt64.size) :
    ofText (written n offset) = .ok (behind (UInt64.ofNat n) offset) := by
  obtain ⟨c, t, first, -⟩ := Text.exists_ofNat n
  have read : ofTrimmed? (written n offset) = some (behind (UInt64.ofNat n) offset) := by
    rw [written, behind]
    by_cases none : offset = 0
    · rw [if_pos none, if_pos none, ← List.append_nil (Text.ofNat n), ofTrimmed?,
        Text.takeWhile_ofNat rfl, Text.dropWhile_ofNat rfl, number?_ofNat hr]
      rfl
    · rw [if_neg none, if_neg none, List.append_assoc, ofTrimmed?,
        Text.takeWhile_ofNat rfl, Text.dropWhile_ofNat rfl, number?_ofNat hr]
      simp only [behindOffset?_ofNat, number?_ofNat ho, Option.bind_eq_bind, Option.bind_some,
        Option.pure_def]
  have some_text : (written n offset).isEmpty = false := by
    rw [written, first]
    split <;> rfl
  rw [ofText, trim_written, some_text, read]
  rfl

theorem rowCount_of_not_mem (h : ',' ∉ t) :
    Change.rowCount t = (number? ((Text.trim t).takeWhile Char.isDigit)).getD 0 := by
  have all : t.dropWhile (· ≠ ',') = [] := List.dropWhile_eq_nil_iff.mpr fun c hc =>
    decide_eq_true fun he => h (he ▸ hc)
  rw [Change.rowCount, all]

theorem rowCount_of_comma (h : ',' ∉ t) :
    Change.rowCount (t ++ ',' :: u) = (number? ((Text.trim u).takeWhile Char.isDigit)).getD 0 := by
  have front : (t ++ ',' :: u).dropWhile (· ≠ ',') = ',' :: u := by
    rw [List.dropWhile_append_of_pos fun c hc =>
      decide_eq_true (p := c ≠ ',') fun he => h (he ▸ hc)]
    exact List.dropWhile_cons_of_neg (by simp)
  rw [Change.rowCount, front]

/-- White characters at the ends of a limit do not matter for its row count. -/
theorem rowCount_trim (t : Text) : Change.rowCount (Text.trim t) = Change.rowCount t := by
  obtain ⟨front, behind, ht, hf, hb⟩ := Text.exists_trim t
  have apart {u : Text} (hu : Text.trim u = []) : ',' ∉ u := fun hc =>
    absurd (Text.trim_eq_nil_iff.mp hu _ hc) (by decide)
  by_cases comma : ',' ∈ Text.trim t
  · obtain ⟨u, v, hu, first⟩ := List.eq_append_cons_of_mem comma
    conv_rhs => rw [ht, hu]
    have here : front ++ (u ++ ',' :: v) ++ behind = (front ++ u) ++ ',' :: (v ++ behind) := by simp
    rw [here, hu, rowCount_of_comma first, rowCount_of_comma, Text.trim_append_right hb]
    exact fun hc => (List.mem_append.mp hc).elim (apart hf) first
  · have none : ',' ∉ t := by
      rw [ht, List.mem_append, List.mem_append]
      rintro ((hc | hc) | hc)
      · exact apart hf hc
      · exact comma hc
      · exact apart hb hc
    rw [rowCount_of_not_mem comma, rowCount_of_not_mem none, Text.trim_trim]

/-- Only the number behind OFFSET may have a comma in it. -/
theorem not_mem_of_behindOffset? (h : behindOffset? t = some u) (hu : ',' ∉ u) : ',' ∉ t := by
  have blanks (t : Text) : ',' ∈ t → ',' ∈ Text.skipBlanks t := fun hc => by
    rw [← List.takeWhile_append_dropWhile (p := Text.isBlank) (l := t), List.mem_append] at hc
    exact hc.resolve_left fun hc => absurd (List.mem_takeWhile_imp hc) (by decide)
  rw [behindOffset?] at h
  split at h
  · dsimp only at h
    split at h
    · rename_i offset
      cases h
      rw [Bool.and_eq_true, Text.isKeyword, beq_iff_eq] at offset
      intro hc
      have word := blanks t hc
      rw [← List.take_append_drop 6 (Text.skipBlanks t), List.mem_append] at word
      rcases word with hc | hc
      · have upper := List.mem_map_of_mem (f := Char.toUpper) hc
        rw [← Text.upper, offset.1] at upper
        exact absurd upper (by decide)
      · exact hu (blanks _ hc)
    · cases h
  · cases h

theorem isDigit_of_number? {n : UInt64} (h : number? t = some n) : ∀ c ∈ t, c.isDigit = true := by
  rw [number?] at h
  split at h
  · cases h
  · rename_i digits
    rw [Bool.or_eq_true, not_or, Bool.not_eq_true', Bool.not_eq_false] at digits
    exact List.all_eq_true.mp digits.2

/-- A limit that can be read is read with the row count that its text shows. -/
theorem rowCount_of_ofTrimmed? (ht : Text.trim t = t) (h : ofTrimmed? t = some limit) :
    Change.rowCount t = limit.rows.getD 0 := by
  have digits : ',' ∉ t.takeWhile Char.isDigit := fun hc =>
    Text.ne_comma_of_isDigit (List.mem_takeWhile_imp hc) rfl
  have whole := List.takeWhile_append_dropWhile (p := Char.isDigit) (l := t)
  have alone (hr : ',' ∉ t.dropWhile Char.isDigit) :
      Change.rowCount t = (number? (t.takeWhile Char.isDigit)).getD 0 := by
    rw [rowCount_of_not_mem, ht]
    rw [← whole, List.mem_append]
    exact fun hc => hc.elim digits hr
  obtain ⟨first, hfirst, h⟩ := Option.bind_eq_some_iff.mp h
  have blank : (t.dropWhile Char.isDigit).takeWhile Text.isBlank ++
      Text.skipBlanks (t.dropWhile Char.isDigit) = t.dropWhile Char.isDigit :=
    List.takeWhile_append_dropWhile
  have gap : ',' ∉ (t.dropWhile Char.isDigit).takeWhile Text.isBlank := fun hc =>
    absurd (List.mem_takeWhile_imp hc) (by decide)
  dsimp only at h
  split at h
  · rename_i offset ho
    obtain ⟨o, number, h⟩ := Option.bind_eq_some_iff.mp h
    cases h
    rw [alone (not_mem_of_behindOffset? ho fun hc =>
      Text.ne_comma_of_isDigit (isDigit_of_number? number _ hc) rfl), hfirst]
  · rename_i nothing
    cases h
    rw [alone (by rwa [← blank, nothing, List.append_nil]), hfirst]
  · rename_i rows _ comma
    obtain ⟨n, number, h⟩ := Option.bind_eq_some_iff.mp h
    cases h
    have all := isDigit_of_number? number
    have shown : t = t.takeWhile Char.isDigit ++
        (t.dropWhile Char.isDigit).takeWhile Text.isBlank ++ ',' :: rows := by
      rw [← comma, List.append_assoc, blank, whole]
    rw [shown, rowCount_of_comma, ← Text.trim_skipBlanks, Text.trim_of_isDigit all,
      List.takeWhile_eq_self_iff.mpr all, number]
    exact fun hc => (List.mem_append.mp hc).elim digits gap
  · cases h

/-- The row count that is read off a limit is the one of the limit. -/
theorem rowCount_of_ofText (h : ofText t = .ok limit) : Change.rowCount t = limit.rows.getD 0 := by
  rw [← rowCount_trim]
  rw [ofText] at h
  split at h
  · rename_i none
    cases h
    rw [List.isEmpty_iff.mp none]
    rfl
  · split at h
    · rename_i read
      cases h
      exact rowCount_of_ofTrimmed? (Text.trim_trim t) read
    · cases h

section Windows
variable {α : Type} {rows : UInt64}

theorem window_behind (h : offset < UInt64.size) (l : List α) :
    (behind rows offset).window l = (l.drop offset).take rows.toNat := by
  have passed : (behind rows offset).passed = offset := by
    rw [RowLimit.passed, behind]
    by_cases zero : offset = 0
    · rw [if_pos zero, zero]
      rfl
    · rw [if_neg zero]
      exact UInt64.toNat_ofNat_of_lt' h
  rw [window, passed]
  rfl

/-- The limit of a page, counted from 1. -/
def page (page rows : UInt64) : RowLimit := behind rows (rows.toNat * (max page.toNat 1 - 1))

theorem page_ofNat {k : Nat} (h : k + 1 < UInt64.size) :
    page (UInt64.ofNat (k + 1)) rows = behind rows (rows.toNat * k) := by
  rw [page, UInt64.toNat_ofNat_of_lt' h, Nat.max_eq_left (Nat.succ_pos k),
    Nat.succ_sub_one]

/-- The windows of consecutive pages lie one behind the other. -/
theorem flatMap_window_page {k : Nat} (hk : k < UInt64.size)
    (h : rows.toNat * (k - 1) < UInt64.size) (l : List α) :
    (List.range k).flatMap (fun i => (page (UInt64.ofNat (i + 1)) rows).window l) =
      l.take (rows.toNat * k) := by
  induction k with
  | zero => simp
  | succ k ih =>
      rw [Nat.add_sub_cancel] at h
      have before : rows.toNat * (k - 1) < UInt64.size :=
        Nat.lt_of_le_of_lt (Nat.mul_le_mul_left _ (Nat.sub_le k 1)) h
      rw [List.range_succ, List.flatMap_append, ih (Nat.lt_of_succ_lt hk) before,
        List.flatMap_singleton, page_ofNat hk, window_behind h, Nat.mul_succ, List.take_add]

end Windows

end RowLimit

end SqlStatement
