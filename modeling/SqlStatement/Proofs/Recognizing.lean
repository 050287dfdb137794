import SqlStatement.Proofs.Bounding
import SqlStatement.Proofs.Letters
import SqlStatement.Proofs.Paging

/-!
# The texts that write a row limit

The grammar of row limits is stated apart from the reader: digits alone, an
offset and a row count around a comma, or a row count and an offset around the
word OFFSET. The reader accepts the texts of the grammar, with white characters
of any kind around them, and reads the limit that they write. Inside of a limit
only blanks may stand.
-/
namespace SqlStatement

namespace RowLimit

/-- Digits that write a number below 2^64. -/
structure IsNumber (t : Text) (n : UInt64) : Prop where
  ne_nil : t ≠ []
  digits : ∀ c ∈ t, c.isDigit = true
  value : Text.digitsValue t = n.toNat

/-- A run of blanks, which may be empty. -/
def IsGap (t : Text) : Prop := ∀ c ∈ t, Text.isBlank c = true

/-- The texts that write a row limit, without white characters around it. -/
inductive Writes : Text → RowLimit → Prop
  | nothing : Writes [] {}
  | rows {count : Text} {n : UInt64} (hn : IsNumber count n) : Writes count { rows := some n }
  | comma {first count before behind : Text} {o n : UInt64} (ho : IsNumber first o)
      (hb : IsGap before) (hb' : IsGap behind) (hn : IsNumber count n) :
      Writes (first ++ (before ++ ',' :: (behind ++ count))) { rows := some n, offset := some o }
  | offset {count first before word behind : Text} {n o : UInt64} (hn : IsNumber count n)
      (hb : IsGap before) (hne : before ≠ []) (hw : Text.isKeyword "OFFSET" word = true)
      (hb' : IsGap behind) (hne' : behind ≠ []) (ho : IsNumber first o) :
      Writes (count ++ (before ++ (word ++ (behind ++ first))))
        { rows := some n, offset := some o }

variable {t u digits count first before behind word : Text} {c : Char} {n o : UInt64}
  {limit : RowLimit}

theorem number?_eq_some_iff : number? t = some n ↔ IsNumber t n := by
  constructor
  · intro h
    have digits := isDigit_of_number? h
    rw [number?] at h
    split at h
    · cases h
    · rename_i shown
      dsimp only at h
      split at h
      · rename_i small
        cases h
        refine ⟨fun he => shown (by simp [he]), digits, ?_⟩
        exact (UInt64.toNat_ofNat_of_lt small).symm
      · cases h
  · rintro ⟨hne, digits, value⟩
    have all : t.all Char.isDigit = true := List.all_eq_true.mpr digits
    rw [number?, if_neg (by simp [hne, all])]
    dsimp only
    rw [value, if_pos n.toNat_lt, UInt64.ofNat_toNat]

namespace IsGap

theorem head? (h : IsGap before) (hne : before ≠ []) (t : Text) :
    (before ++ t).head?.any Text.isBlank = true := by
  obtain ⟨b, bs, rfl⟩ := List.exists_cons_of_ne_nil hne
  exact h b List.mem_cons_self

theorem skipBlanks_append (h : IsGap before) (hc : Text.isBlank c = false) (t : Text) :
    Text.skipBlanks (before ++ c :: t) = c :: t :=
  (Text.takeWhile_dropWhile_append h (by rintro _ ⟨⟩; exact hc)).2

end IsGap

theorem exists_gap (t : Text) : ∃ gap, IsGap gap ∧ t = gap ++ Text.skipBlanks t :=
  ⟨t.takeWhile Text.isBlank, fun _ => List.mem_takeWhile_imp,
    List.takeWhile_append_dropWhile.symm⟩

/-- The gap at the start of a text that begins with a blank is not empty. -/
theorem exists_gap_of_head? (h : t.head?.any Text.isBlank = true) :
    ∃ gap, IsGap gap ∧ gap ≠ [] ∧ t = gap ++ Text.skipBlanks t := by
  obtain ⟨gap, hg, ht⟩ := exists_gap t
  refine ⟨gap, hg, ?_, ht⟩
  rintro rfl
  obtain ⟨c, hc, blank⟩ := (Option.any_eq_true _ _).mp h
  rw [List.nil_append] at ht
  have other := Text.isBlank_head?_skipBlanks t c (by rwa [← ht])
  rw [blank] at other
  cases other

namespace IsNumber

/-- A number begins with a digit. -/
theorem exists_cons (h : IsNumber t n) : ∃ c t', t = c :: t' ∧ Text.isBlank c = false := by
  obtain ⟨c, t', rfl⟩ := List.exists_cons_of_ne_nil h.ne_nil
  exact ⟨c, t', rfl, Text.isBlank_of_isDigit (h.digits c List.mem_cons_self)⟩

/-- A number in front of a gap and something else ends there. -/
theorem cut (h : IsNumber digits n) (hg : IsGap before) (hc : c.isDigit = false) (t : Text) :
    (digits ++ (before ++ c :: t)).takeWhile Char.isDigit = digits ∧
      (digits ++ (before ++ c :: t)).dropWhile Char.isDigit = before ++ c :: t := by
  refine Text.takeWhile_dropWhile_append h.digits fun b hb => ?_
  cases before with
  | nil =>
      cases hb
      exact hc
  | cons b' bs =>
      cases hb
      by_contra digit
      have other := Text.isBlank_of_isDigit (Bool.not_eq_false _ ▸ digit)
      rw [hg b List.mem_cons_self] at other
      cases other

end IsNumber

/-- The word OFFSET has six letters, and the first is neither blank nor a digit. -/
theorem exists_offset (hw : Text.isKeyword "OFFSET" word = true) :
    word.length = 6 ∧ ∃ c w, word = c :: w ∧ Text.isBlank c = false ∧ c.isDigit = false := by
  rw [Text.isKeyword, beq_iff_eq] at hw
  have six : word.length = 6 := by
    rw [← Text.length_upper, hw]
    rfl
  obtain ⟨c, w, rfl⟩ := List.exists_cons_of_length_pos (l := word) (by omega)
  have first : c.toUpper = 'O' := (List.cons.inj hw).1
  refine ⟨six, c, w, rfl, ?_, ?_⟩
  · rw [← Text.isBlank_toUpper, first]
    rfl
  · rw [← Text.isDigit_toUpper, first]
    rfl

/-- OFFSET is found with blanks on both sides. -/
theorem behindOffset?_append (hb : IsGap before) (hne : before ≠ [])
    (hw : Text.isKeyword "OFFSET" word = true) (hb' : IsGap behind) (hne' : behind ≠ [])
    (hc : Text.isBlank c = false) (t : Text) :
    behindOffset? (before ++ (word ++ (behind ++ c :: t))) = some (c :: t) := by
  obtain ⟨six, w, ws, hword, start, -⟩ := exists_offset hw
  have skipped : Text.skipBlanks (before ++ (word ++ (behind ++ c :: t))) =
      word ++ (behind ++ c :: t) := by
    rw [hword]
    exact hb.skipBlanks_append start _
  rw [behindOffset?, if_pos (hb.head? hne _), skipped]
  dsimp only
  rw [← six, List.take_left, List.drop_left, hw, hb'.head? hne', hb'.skipBlanks_append hc]
  rfl

theorem exists_of_behindOffset? (h : behindOffset? t = some u) :
    ∃ before word behind, IsGap before ∧ before ≠ [] ∧ Text.isKeyword "OFFSET" word = true ∧
      IsGap behind ∧ behind ≠ [] ∧ t = before ++ (word ++ (behind ++ u)) := by
  rw [behindOffset?] at h
  split at h
  · rename_i blank
    obtain ⟨before, hb, hne, ht⟩ := exists_gap_of_head? blank
    dsimp only at h
    split at h
    · rename_i offset
      cases h
      rw [Bool.and_eq_true] at offset
      obtain ⟨behind, hb', hne', hr⟩ := exists_gap_of_head? offset.2
      refine ⟨before, _, behind, hb, hne, offset.1, hb', hne', ?_⟩
      rw [← hr, List.take_append_drop, ← ht]
    · cases h
  · cases h

theorem behindOffset?_comma (hb : IsGap before) (t : Text) :
    behindOffset? (before ++ ',' :: t) = none := by
  have other : Text.isKeyword "OFFSET" ((',' :: t).take 6) = false := rfl
  rw [behindOffset?, hb.skipBlanks_append rfl]
  dsimp only
  rw [other]
  exact ite_self _

theorem ofTrimmed?_rows (hn : IsNumber t n) : ofTrimmed? t = some { rows := some n } := by
  have cut := Text.takeWhile_dropWhile_append (u := []) hn.digits (by simp)
  rw [List.append_nil] at cut
  rw [ofTrimmed?, cut.1, cut.2, number?_eq_some_iff.mpr hn]
  rfl

theorem ofTrimmed?_comma (ho : IsNumber first o) (hb : IsGap before) (hb' : IsGap behind)
    (hn : IsNumber count n) :
    ofTrimmed? (first ++ (before ++ ',' :: (behind ++ count))) =
      some { rows := some n, offset := some o } := by
  have cut := ho.cut hb (c := ',') rfl (behind ++ count)
  obtain ⟨c, t, hcount, start⟩ := hn.exists_cons
  have second : Text.skipBlanks (behind ++ count) = count := by
    rw [hcount]
    exact hb'.skipBlanks_append start t
  rw [ofTrimmed?, cut.1, cut.2, number?_eq_some_iff.mpr ho, Option.bind_eq_bind, Option.bind_some]
  dsimp only
  rw [behindOffset?_comma hb, hb.skipBlanks_append rfl]
  change (number? (Text.skipBlanks (behind ++ count))).bind _ = _
  rw [second, number?_eq_some_iff.mpr hn]
  rfl

theorem ofTrimmed?_offset (hn : IsNumber count n) (hb : IsGap before) (hne : before ≠ [])
    (hw : Text.isKeyword "OFFSET" word = true) (hb' : IsGap behind) (hne' : behind ≠ [])
    (ho : IsNumber first o) :
    ofTrimmed? (count ++ (before ++ (word ++ (behind ++ first)))) =
      some { rows := some n, offset := some o } := by
  obtain ⟨-, w, ws, rfl, -, letter⟩ := exists_offset hw
  obtain ⟨c, t, rfl, start⟩ := ho.exists_cons
  have cut := hn.cut hb letter (ws ++ (behind ++ c :: t))
  have found := behindOffset?_append hb hne hw hb' hne' start t
  rw [List.cons_append] at found ⊢
  rw [ofTrimmed?, cut.1, cut.2, number?_eq_some_iff.mpr hn, Option.bind_eq_bind, Option.bind_some]
  dsimp only
  rw [found]
  dsimp only
  rw [number?_eq_some_iff.mpr ho]
  rfl

theorem writes_of_ofTrimmed? (ht : Text.trim t = t) (h : ofTrimmed? t = some limit) :
    Writes t limit := by
  have whole := List.takeWhile_append_dropWhile (p := Char.isDigit) (l := t)
  obtain ⟨first, hfirst, h⟩ := Option.bind_eq_some_iff.mp h
  obtain ⟨gap, hg, hrest⟩ := exists_gap (t.dropWhile Char.isDigit)
  have number := number?_eq_some_iff.mp hfirst
  dsimp only at h
  split at h
  · rename_i behind ho
    obtain ⟨o, hsecond, h⟩ := Option.bind_eq_some_iff.mp h
    cases h
    obtain ⟨b, w, b', hb, hne, hw, hb', hne', hr⟩ := exists_of_behindOffset? ho
    rw [← whole, hr]
    exact .offset number hb hne hw hb' hne' (number?_eq_some_iff.mp hsecond)
  · rename_i nothing
    cases h
    rw [nothing, List.append_nil] at hrest
    have white : Text.trim gap = [] := Text.trim_eq_nil_iff.mpr fun c hc =>
      Text.isWhite_of_isBlank (hg c hc)
    rw [← ht, ← whole, hrest, Text.trim_append_right white, Text.trim_of_isDigit number.digits]
    exact .rows number
  · rename_i count _ comma
    obtain ⟨n, hsecond, h⟩ := Option.bind_eq_some_iff.mp h
    cases h
    obtain ⟨gap', hg', hcount⟩ := exists_gap count
    rw [← whole, hrest, comma, hcount]
    exact .comma number hg hg' (number?_eq_some_iff.mp hsecond)
  · cases h

theorem Writes.ofTrimmed?_eq (h : Writes t limit) (some : t ≠ []) :
    ofTrimmed? t = .some limit := by
  cases h with
  | nothing => exact absurd rfl some
  | rows hn => exact ofTrimmed?_rows hn
  | comma ho hb hb' hn => exact ofTrimmed?_comma ho hb hb' hn
  | offset hn hb hne hw hb' hne' ho => exact ofTrimmed?_offset hn hb hne hw hb' hne' ho

theorem Writes.eq_of_nil (h : Writes [] limit) : limit = {} := by
  generalize he : ([] : Text) = t at h
  cases h with
  | nothing => rfl
  | rows hn => exact absurd he.symm hn.ne_nil
  | comma ho => exact absurd (List.append_eq_nil_iff.mp he.symm).1 ho.ne_nil
  | offset hn => exact absurd (List.append_eq_nil_iff.mp he.symm).1 hn.ne_nil

/-- A text is read as a limit exactly if it writes that limit with white characters around it, and
an error carries what stands between these. -/
theorem ofText_iff (t : Text) :
    (∀ limit, ofText t = .ok limit ↔ Writes (Text.trim t) limit) ∧
      ∀ e, ofText t = .error e ↔
        e = .invalidLimit (Text.trim t) ∧ ∀ limit, ¬Writes (Text.trim t) limit := by
  by_cases empty : Text.trim t = []
  · have read : ofText t = .ok {} := by
      rw [ofText, empty]
      rfl
    rw [read, empty]
    refine ⟨fun limit => ⟨?_, fun h => congrArg _ h.eq_of_nil.symm⟩, fun e => ⟨?_, ?_⟩⟩
    · rintro ⟨⟩
      exact .nothing
    · rintro ⟨⟩
    · exact fun h => absurd .nothing (h.2 {})
  · have shown : (Text.trim t).isEmpty = false := by simpa using empty
    have reads (limit : RowLimit) :
        ofTrimmed? (Text.trim t) = some limit ↔ Writes (Text.trim t) limit :=
      ⟨writes_of_ofTrimmed? (Text.trim_trim t), fun h => h.ofTrimmed?_eq empty⟩
    rw [ofText, shown]
    simp only [← reads]
    cases ofTrimmed? (Text.trim t) with
    | none => simp [eq_comm]
    | some found => simp [eq_comm]

end RowLimit
end SqlStatement
