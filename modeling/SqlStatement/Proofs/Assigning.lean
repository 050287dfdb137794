import SqlStatement.Proofs.Decoding
import SqlStatement.Proofs.Gathering

/-!
# Assignments that are read back

A column is written in identifier quotes. The name ends at the quote that closes
it, so that commas, parentheses, blanks and string quotes are free to stand in
it, and the sign behind it is the one that assigns. On the other side stands a
literal. So an assignment is one item, whatever its name and its value are, and
is cut where it was put together. Assignments with commas between them are read
one by one, and different columns do not get into each other's way.
-/
namespace SqlStatement

namespace OrderedMap
variable {κ α : Type} [DecidableEq κ]

/-- A new key goes last. -/
theorem write_of_notMem {key : κ} {l : List (κ × α)} (value : α) (h : key ∉ l.map (·.1)) :
    write key value l = l ++ [(key, value)] := by
  induction l with
  | nil => rfl
  | cons p l ih =>
      rw [List.map_cons, List.mem_cons, not_or] at h
      rw [write, if_neg (Ne.symm h.1), ih h.2]
      rfl

/-- Pairs with different keys are all kept, in their order. -/
theorem ofList_eq {pairs : List (κ × α)} (h : (pairs.map (·.1)).Nodup) :
    ofList pairs = ⟨pairs⟩ := by
  suffices ∀ known : List (κ × α), ((known ++ pairs).map (·.1)).Nodup →
      pairs.foldl (fun (m : OrderedMap κ α) p => m.insert p.1 p.2) ⟨known⟩ = ⟨known ++ pairs⟩ from
    this [] h
  clear h
  induction pairs with
  | nil => simp
  | cons p pairs ih =>
      intro known h
      have unknown : p.1 ∉ known.map (·.1) := by
        rw [List.map_append, List.map_cons] at h
        exact fun hm => (List.nodup_append.mp h).2.2 _ hm _ (by simp) rfl
      rw [List.foldl_cons, insert, write_of_notMem p.2 unknown, ih _ (by simpa using h)]
      simp

end OrderedMap

namespace Text
variable {t u : Text}

theorem isBlank_of_not_isWhite {c : Char} (h : isWhite c = false) : isBlank c = false := by
  by_contra blank
  rw [isWhite_of_isBlank (by simpa using blank)] at h
  cases h

theorem isBlank_head?_skipBlanks (t : Text) : ∀ c ∈ (skipBlanks t).head?, isBlank c = false := by
  intro c hc
  have first := List.head?_dropWhile_not isBlank t
  rw [show (t.dropWhile isBlank).head? = some c from hc] at first
  exact first

theorem trim_skipBlanks (t : Text) : trim (skipBlanks t) = trim t := by
  have blank : trim (t.takeWhile isBlank) = [] := trim_eq_nil_iff.mpr fun c hc =>
    isWhite_of_isBlank (List.mem_takeWhile_imp hc)
  conv_rhs => rw [← List.takeWhile_append_dropWhile (p := isBlank) (l := t)]
  rw [trim_append_left blank]
  rfl

/-- A text with nothing to trim at its end, and nothing white in front. -/
theorem trim_append (hf : ∀ c ∈ t.head?, isWhite c = false) (ht : t ≠ []) (hu : u ≠ [])
    (hl : trim u = u) : trim (t ++ u) = t ++ u := by
  apply trimWhere_of_ends
  · rwa [List.head?_append_of_ne_nil _ ht]
  · rw [List.getLast?_append_of_ne_nil _ hu]
    exact hl ▸ isWhite_getLast?_trim u

/-- What stands between two marks is left when they are taken off, if no such marks are next to
them. -/
theorem trimWhere_enclosed {p : Char → Bool} {first last : Char} (hf : p first = true)
    (hl : p last = true) (front : ∀ c ∈ t.head?, p c = false)
    (behind : ∀ c ∈ t.getLast?, p c = false) : trimWhere p (first :: (t ++ [last])) = t := by
  rw [trimWhere, List.dropWhile_cons_of_pos hf]
  cases t with
  | nil => simp [dropEndWhile, hl]
  | cons c t =>
      rw [List.cons_append, List.dropWhile_cons_of_neg (by simp [front c rfl]), ← List.cons_append]
      change List.rdropWhile p ((c :: t) ++ [last]) = c :: t
      rw [List.rdropWhile_concat_pos _ _ _ hl, List.rdropWhile_eq_self_iff]
      intro some
      simp [behind _ (List.getLast?_eq_some_getLast some)]

end Text

namespace PathState
variable {q : Char} {w : Text}

/-- A name without dots and quotes is read as it stands. -/
theorem quote?_bare_append (hq : q ∉ w) (hd : '.' ∉ w) (t : Text) :
    quote? q bare (w ++ t) = (quote? q bare t).map (w ++ ·) := by
  induction w with
  | nil => simp
  | cons c w ih =>
      rw [List.mem_cons, not_or] at hq hd
      rw [List.cons_append, quote?, if_neg (Ne.symm hq.1), if_neg (Ne.symm hd.1), ih hq.2 hd.2,
        Option.map_map]
      rfl

/-- A name without dots and quotes is one segment. -/
theorem quote?_bare (hq : q ∉ w) (hd : '.' ∉ w) : quote? q bare w = some (w ++ [q]) := by
  have whole := quote?_bare_append hq hd []
  rwa [List.append_nil] at whole

end PathState

namespace Dialect
variable {d : Dialect} {w : Text}

/-- The name of a column that is one segment of a path, with no sign in it that assigns. -/
structure IsColumn (d : Dialect) (w : Text) : Prop where
  nonempty : w ≠ []
  trimmed : Text.trim w = w
  undotted : '.' ∉ w
  unquoted : d.identifierQuote ∉ w
  unassigned : '=' ∉ w

instance (d : Dialect) (w : Text) : Decidable (d.IsColumn w) :=
  decidable_of_iff
    (w ≠ [] ∧ Text.trim w = w ∧ '.' ∉ w ∧ d.identifierQuote ∉ w ∧ '=' ∉ w)
    ⟨fun ⟨hn, ht, hd, hq, ha⟩ => ⟨hn, ht, hd, hq, ha⟩,
      fun h => ⟨h.nonempty, h.trimmed, h.undotted, h.unquoted, h.unassigned⟩⟩

theorem IsColumn.ne_identifierQuote (h : d.IsColumn w) : ∀ c ∈ w, c ≠ d.identifierQuote := by
  intro c hc he
  exact h.unquoted (he ▸ hc)

theorem isWhite_identifierQuote (d : Dialect) : Text.isWhite d.identifierQuote = false := by
  cases d <;> decide

theorem IsColumn.quotePath_eq (h : d.IsColumn w) : d.quotePath w = .ok (d.quoteName w) := by
  have quoted : PathState.quote? d.identifierQuote .start w = some (d.quoteName w) := by
    cases w with
    | nil => exact absurd rfl h.nonempty
    | cons c w =>
        have unquoted := h.unquoted
        have undotted := h.undotted
        rw [List.mem_cons, not_or] at unquoted undotted
        rw [PathState.quote?, if_neg (Ne.symm unquoted.1), if_neg (Ne.symm undotted.1),
          PathState.quote?_bare unquoted.2 undotted.2]
        rfl
  rw [quotePath, h.trimmed]
  simp only [quoted]

/-- A name is read up to the quote that closes it. -/
theorem identifierLiteral?_quoteName (h : ∀ c ∈ w, c ≠ d.identifierQuote) (rest : Text) :
    d.identifierLiteral? (d.quoteName w ++ rest) = some (d.quoteName w, rest) := by
  rw [quoteName, List.cons_append, List.append_assoc, identifierLiteral?, if_pos rfl,
    Escape.close?_append_of_passes (Escape.passes_never h)]
  cases rest with
  | nil => simp [Escape.close?]
  | cons c rest => simp [Escape.close?]

/-- The quotes around a name are taken off. -/
theorem columnName_quoteName (front : ∀ c ∈ w.head?, c ≠ d.identifierQuote)
    (behind : ∀ c ∈ w.getLast?, c ≠ d.identifierQuote) :
    Assignment.columnName d (d.quoteName w) = w := by
  have quote := d.isWhite_identifierQuote
  rw [Assignment.columnName, quoteName, Text.trim_enclosed quote quote]
  exact Text.trimWhere_enclosed (beq_self_eq_true _) (beq_self_eq_true _)
    (fun c hc => beq_eq_false_iff_ne.mpr (front c hc))
    fun c hc => beq_eq_false_iff_ne.mpr (behind c hc)

theorem IsColumn.columnName_quoteName (h : d.IsColumn w) :
    Assignment.columnName d (d.quoteName w) = w :=
  Dialect.columnName_quoteName (fun c hc => h.ne_identifierQuote c (List.mem_of_mem_head? hc))
    fun c hc => h.ne_identifierQuote c (List.mem_of_mem_getLast? hc)

end Dialect

namespace Assignment
variable {d : Dialect} {empty : Text} {p : Text × Value}

/-- An assignment of a value, as it is written. -/
def written (d : Dialect) (empty : Text) (p : Text × Value) : Text :=
  d.quoteName p.1 ++ " = ".toList ++ d.quoteValue empty p.2

/-- A column gets the expression behind the sign. -/
theorem split_identifier {column t : Text} (start : ∀ c ∈ column.head?, Text.isBlank c = false)
    (some : column ≠ [])
    (whole : d.identifier? (column ++ " = ".toList ++ t) = .some (column, " = ".toList ++ t)) :
    split d (column ++ " = ".toList ++ t) = (column, Text.skipBlanks (' ' :: t)) := by
  have front : Text.skipBlanks (column ++ " = ".toList ++ t) = column ++ " = ".toList ++ t := by
    obtain ⟨c, column, rfl⟩ := List.exists_cons_of_ne_nil some
    exact List.dropWhile_cons_of_neg (by simp [start c rfl])
  rw [split, front, target?, whole]
  rfl

theorem split_quoteName {w : Text} (h : ∀ c ∈ w, c ≠ d.identifierQuote) (t : Text) :
    split d (d.quoteName w ++ " = ".toList ++ t) = (d.quoteName w, Text.skipBlanks (' ' :: t)) := by
  apply split_identifier
  · rintro c ⟨⟩
    exact Text.isBlank_of_not_isWhite d.isWhite_identifierQuote
  · exact List.cons_ne_nil _ _
  · rw [List.append_assoc, Dialect.identifier?, Dialect.segment?,
      Dialect.identifierLiteral?_quoteName h]
    simp [Dialect.furtherSegments]

theorem isAssignment_written (he : empty ∈ ["NULL".toList, "DEFAULT".toList])
    (hc : d.IsColumn p.1) : d.IsAssignment (written d empty p) :=
  .of_sides (Dialect.isItem_quoteName hc.ne_identifierQuote)
    (Dialect.isLiteral_quoteValue he p.2).isItem

theorem trim_written (he : empty ∈ ["NULL".toList, "DEFAULT".toList]) :
    Text.trim (written d empty p) = written d empty p := by
  apply Text.trim_append
  · intro c hc
    cases hc
    exact d.isWhite_identifierQuote
  · exact List.cons_ne_nil _ _
  · exact (Dialect.isLiteral_quoteValue he p.2).ne_nil
  · exact (Dialect.isLiteral_quoteValue he p.2).trim_eq

/-- An assignment is read as its column and the literal of its value. -/
theorem split_written (he : empty ∈ ["NULL".toList, "DEFAULT".toList]) (hc : d.IsColumn p.1) :
    (columnName d (split d (written d empty p)).1, Text.trim (split d (written d empty p)).2) =
      (p.1, d.quoteValue empty p.2) := by
  rw [written, split_quoteName hc.ne_identifierQuote]
  change (columnName d (d.quoteName p.1), Text.trim (Text.skipBlanks _)) = _
  rw [hc.columnName_quoteName, Text.trim_skipBlanks, ← List.singleton_append,
    Text.trim_append_left (by decide), (Dialect.isLiteral_quoteValue he p.2).trim_eq]

/-- Assignments to different columns are read as their columns and values. -/
theorem splitAssignmentValues_written {pairs : List (Text × Value)} {ps : Parts} {w : Text}
    (he : empty ∈ ["NULL".toList, "DEFAULT".toList])
    (columns : ∀ p ∈ pairs, d.IsColumn p.1 ∧ p.2.IsPlain) (distinct : (pairs.map (·.1)).Nodup)
    (hw : ps.get? "set" = some w) (cut : d.splitTopLevel w = pairs.map (written d empty)) :
    splitAssignmentValues d ps = .ok ⟨pairs⟩ := by
  have listed : splitAssignments d ps =
      .ok ⟨pairs.map fun p => (p.1, d.quoteValue empty p.2)⟩ := by
    have read : (pairs.map (written d empty)).map (fun segment =>
        (columnName d (split d segment).1, Text.trim (split d segment).2)) =
          pairs.map fun p => (p.1, d.quoteValue empty p.2) := by
      rw [List.map_map]
      apply List.map_congr_left
      intro p hp
      exact split_written he (columns p hp).1
    rw [splitAssignments, Parts.require, hw]
    change Except.ok (OrderedMap.ofList ((d.splitTopLevel w).map _)) = _
    rw [cut, read, OrderedMap.ofList_eq]
    rwa [List.map_map]
  have values : (pairs.map fun p => (p.1, d.quoteValue empty p.2)).mapM
      (fun a => do return (a.1, ← d.unquoteValue a.2)) = (.ok pairs : Except Error _) := by
    have each : ∀ p ∈ pairs, (do return (p.1, ← d.unquoteValue (d.quoteValue empty p.2)) :
        Except Error (Text × Value)) = .ok p := by
      intro p hp
      rw [Dialect.unquoteValue_quoted he (columns p hp).2]
      rfl
    rw [mapM_map_eq_ok each, List.map_id']
  simp only [splitAssignmentValues, listed]
  change ((pairs.map fun p => (p.1, d.quoteValue empty p.2)).mapM _ >>= _ : Except Error _) = _
  rw [values]
  rfl

end Assignment

namespace Mutation
variable {s : Settings} {t : Text} {base : Parts} {pairs : List (Text × Value)}

/-- Assigns values to columns. -/
def assignAll (pairs : List (Text × Value)) : Mutation :=
  assign (pairs.map fun p => (p.1, .value p.2)) {}

/-- The word that is written for null. -/
def nullWord (s : Settings) (t : Text) : Text :=
  if (Query.ofStatement s t).isInsertLike then "DEFAULT".toList else "NULL".toList

theorem nullWord_mem (s : Settings) (t : Text) :
    nullWord s t ∈ ["NULL".toList, "DEFAULT".toList] := by
  rw [nullWord]
  split
  · simp
  · simp

/-- What one call writes. -/
def assignments (s : Settings) (t : Text) (pairs : List (Text × Value)) : List Text :=
  pairs.map (Assignment.written s.dialect (nullWord s t))

/-- Assignments of one call are recorded as one fragment. -/
theorem entries_assignAll (hs : split s t = .ok base) (hb : base.contains "set" = true)
    (columns : ∀ p ∈ pairs, s.dialect.IsColumn p.1) :
    (assignAll pairs).entries s t =
      .ok [("set", .append, Text.joinWith [',', ' '] (assignments s t pairs))] := by
  have each : ∀ p ∈ pairs, Change.assignment (Query.ofStatement s t) .smart (p.1, .value p.2) =
      .ok (Assignment.written s.dialect (nullWord s t) p) := by
    intro p hp
    have unassigned : p.1.contains '=' = false := by simpa using (columns p hp).unassigned
    have quoted : quoteIdentifier s .strict p.1 = .ok (s.dialect.quoteName p.1) :=
      (columns p hp).quotePath_eq
    simp only [Change.assignment, unassigned]
    change (quoteIdentifier s .strict p.1 >>= _ : Except Error Text) = _
    rw [quoted]
    rfl
  have change : (assignAll pairs).change?.answer (Query.ofStatement s t) = .ok (some
      ⟨"set", [(.append, Text.joinWith [',', ' '] (assignments s t pairs))]⟩) := by
    refine (answer_of_worked_out rfl _).trans ?_
    change (((pairs.map fun p => (p.1, Assigned.value p.2)).mapM
      (Change.assignment (Query.ofStatement s t) .smart)) >>= _).map some = _
    rw [mapM_map_eq_ok each]
    rfl
  rw [entries_of_change change hs hb]
  rfl

end Mutation

namespace Query
open Mutation (assignAll assignments)
variable {s : Settings} {t : Text} {base : Parts} {calls : List (List (Text × Value))}

/-- An UPDATE, INSERT or REPLACE has a part for assignments. -/
theorem contains_set (hs : split s t = .ok base)
    (assigns : StatementType.detect s.dialect t ∈ [some .update, some .insert, some .replace]) :
    base.contains "set" = true := by
  obtain ⟨type, p, hd, hp, keys⟩ := exists_keys_split hs
  rw [hd] at assigns
  apply OrderedMap.contains_iff.mpr
  rw [keys]
  cases type with
  | update | insert | replace =>
      cases hp
      cases s.dialect <;> decide
  | _ => simp at assigns

/-- The assignments of several calls are cut into those of each call. -/
theorem splitTopLevel_assignments
    (columns : ∀ p ∈ calls.flatten, s.dialect.IsColumn p.1 ∧ p.2.IsPlain) :
    s.dialect.splitTopLevel (Text.trim (Text.joinWith [',', ' ']
        (calls.map fun pairs => Text.joinWith [',', ' '] (assignments s t pairs)))) =
      assignments s t calls.flatten := by
  have null := Mutation.nullWord_mem s t
  have valid {pairs : List (Text × Value)} (hp : pairs ∈ calls) :
      ∀ u ∈ assignments s t pairs, s.dialect.IsAssignment u ∧ Text.trim u = u := by
    intro u hu
    obtain ⟨p, hm, rfl⟩ := List.mem_map.mp hu
    obtain ⟨column, -⟩ := columns p (List.mem_flatten.mpr ⟨pairs, hp, hm⟩)
    exact ⟨Assignment.isAssignment_written null column, Assignment.trim_written null⟩
  have balanced : ∀ u ∈ calls.map fun pairs => Text.joinWith [',', ' '] (assignments s t pairs),
      s.dialect.isBalanced u = true := by
    refine List.forall_mem_map.mpr fun pairs hp => ?_
    exact Dialect.isBalanced_joinWith Dialect.isBalanced_comma fun u hu =>
      (valid hp u hu).1.1.isBalanced
  have closed := Dialect.closed_of_isBalanced
    (Dialect.isBalanced_joinWith Dialect.isBalanced_comma balanced)
  rw [Dialect.splitTopLevel_trim closed, Dialect.splitTopLevel_joinWith_comma balanced,
    List.flatMap_map, assignments, List.map_flatten, ← List.flatMap_def]
  refine List.flatMap_congr fun pairs hp => ?_
  rw [Dialect.IsAssignment.splitTopLevel_joinWith fun u hu => (valid hp u hu).1,
    List.map_congr_left fun u hu => (valid hp u hu).2, List.map_id', assignments]

/-- What several calls record. -/
def assigned (s : Settings) (t : Text) (calls : List (List (Text × Value))) : List Entry :=
  calls.map fun pairs => ("set", .append, Text.joinWith [',', ' '] (assignments s t pairs))

theorem of_mem_assigned {e : Entry} (he : e ∈ assigned s t calls) :
    e.1 = "set" ∧ e.2.1 ≠ .replace := by
  obtain ⟨pairs, -, rfl⟩ := List.mem_map.mp he
  exact ⟨rfl, by simp⟩

/-- Assignments leave the columns and the part for a duplicate key alone. -/
theorem ne_of_mem_assigned {e : Entry} (he : e ∈ assigned s t calls) :
    e.1 ≠ "columns" ∧ e.1 ≠ duplicateKey := by
  rw [(of_mem_assigned he).1]
  decide

/-- All calls succeed, and each leaves one fragment. -/
theorem exists_assigned (hs : split s t = .ok base) (present : base.contains "set" = true)
    (columns : ∀ p ∈ calls.flatten, s.dialect.IsColumn p.1) :
    ∃ q ps, (forM (calls.map assignAll) Edit.mutate).run (ofStatement s t) = .ok () q ∧
      Recorded s t (assigned s t calls) ps q := by
  have entries : ∀ pairs ∈ calls, (assignAll pairs).entries s t =
      .ok [("set", .append, Text.joinWith [',', ' '] (assignments s t pairs))] :=
    fun pairs hp => Mutation.entries_assignAll hs present fun p hm =>
      columns p (List.mem_flatten.mpr ⟨pairs, hp, hm⟩)
  obtain ⟨q, run, recorded⟩ := exists_recorded (g := assignAll) (fun _ _ => trivial) entries
  rw [← List.map_eq_flatMap] at recorded
  exact ⟨q, _, run, recorded⟩

/-- The part for assignments has those of all calls, if it had none. -/
theorem Recorded.exists_assignments {ps : Parameters} {q : Query} {composed : Parts}
    (h : Recorded s t (assigned s t calls) ps q) (present : base.contains "set" = true)
    (blank : Text.trim (Parts.text base "set") = [])
    (columns : ∀ p ∈ calls.flatten, s.dialect.IsColumn p.1 ∧ p.2.IsPlain)
    (hc : q.composeFrom base = .ok composed) :
    ∃ w, composed.get? "set" = some w ∧
      s.dialect.splitTopLevel w = assignments s t calls.flatten := by
  obtain ⟨none, rfl⟩ | ⟨-, text⟩ :=
    h.get?_composed (by decide) (by decide) (fun e => of_mem_assigned) hc
  · obtain ⟨w, hw⟩ := Option.isSome_iff_exists.mp present
    rw [Parts.text, hw, Option.getD_some] at blank
    refine ⟨w, hw, ?_⟩
    rw [Dialect.splitTopLevel_eq, Dialect.fields_of_trim blank, List.map_eq_nil_iff.mp none]
    rfl
  · have placed : addition "set" (assigned s t calls) =
        ⟨[], calls.map fun pairs => Text.joinWith [',', ' '] (assignments s t pairs)⟩ := by
      simp [addition, Entry.side, assigned, List.filterMap_map]
    rw [placed, blank] at text
    exact ⟨_, text, splitTopLevel_assignments columns⟩

/-- Assignments to different columns of an UPDATE, INSERT or REPLACE without assignments are read
back in the order of the calls, and nothing else is read. Nothing can be read after a call if the
statement has the marker for a duplicate key and a column without a name for it. -/
theorem assignments_read_back (hs : split s t = .ok base)
    (assigns : StatementType.detect s.dialect t ∈ [some .update, some .insert, some .replace])
    (blank : Text.trim (Parts.text base "set") = [])
    (columns : ∀ p ∈ calls.flatten, s.dialect.IsColumn p.1 ∧ p.2.IsPlain)
    (distinct : (calls.flatten.map (·.1)).Nodup) :
    ∃ q, (forM (calls.map assignAll) Edit.mutate).run (ofStatement s t) = .ok () q ∧
      (∀ read, Edit.assignmentValues.answer q = .ok read → read = ⟨calls.flatten⟩) ∧
      (Edit.assignmentValues.answer q = .ok ⟨calls.flatten⟩ ↔ calls = [] ∨ Expands s base) := by
  have present := contains_set hs assigns
  obtain ⟨q, ps, run, recorded⟩ := exists_assigned hs present fun p hp => (columns p hp).1
  have answer : Edit.assignmentValues.answer q =
      q.composeFrom base >>= splitAssignmentValues s.dialect := by
    rw [(Edit.reads_assignmentValues q).answer_self recorded.sound, recorded.compose_eq hs,
      recorded.statement_eq.1]
  have reads {composed : Parts} (hc : q.composeFrom base = .ok composed) :
      splitAssignmentValues s.dialect composed = .ok ⟨calls.flatten⟩ := by
    obtain ⟨w, hw, cut⟩ := recorded.exists_assignments present blank columns hc
    exact Assignment.splitAssignmentValues_written (Mutation.nullWord_mem s t) columns distinct hw
      cut
  refine ⟨q, run, ?_⟩
  rw [answer]
  refine ⟨?_, ?_, ?_⟩
  · intro read h
    obtain ⟨composed, hc, h⟩ := bind_eq_ok_iff.mp h
    exact Except.ok.inj (h.symm.trans (reads hc))
  · intro h
    obtain ⟨composed, hc, -⟩ := bind_eq_ok_iff.mp h
    by_cases none : calls = []
    · exact .inl none
    · apply Or.inr
      apply recorded.expands hs (fun e => ne_of_mem_assigned) _ hc
      simpa [assigned] using none
  · intro h
    have composes : ∃ composed, q.composeFrom base = .ok composed := by
      rcases h with rfl | expands
      · exact ⟨base, recorded.composeFrom_nil⟩
      · exact recorded.exists_composed hs expands fun e => ne_of_mem_assigned
    obtain ⟨composed, hc⟩ := composes
    rw [hc]
    exact reads hc

/-- Commas, parentheses and string quotes in names and values do not part them. -/
theorem assignments_read_back_insert :
    ∃ q, (forM ([[("a,(b".toList, .text "),'".toList)],
          [("c d".toList, .null), ("'".toList, .int (-5))]].map assignAll) Edit.mutate).run
        (ofStatement {} "INSERT INTO t (a) VALUES (1) ON DUPLICATE KEY UPDATE 1".toList) =
          .ok () q ∧
      Edit.assignmentValues.answer q = .ok ⟨[("a,(b".toList, .text "),'".toList),
        ("c d".toList, .null), ("'".toList, .int (-5))]⟩ := by
  have parts : split {} "INSERT INTO t (a) VALUES (1) ON DUPLICATE KEY UPDATE 1".toList = .ok
      ⟨[("insert", []), ("into", ['t']), ("columns", ['a']), ("set", []), ("values", "(1)".toList),
        ("query", []), (duplicateKey, ['1'])]⟩ := by
    decide +kernel
  have expands : Expands {} ⟨[("insert", []), ("into", ['t']), ("columns", ['a']), ("set", []),
      ("values", "(1)".toList), ("query", []), (duplicateKey, ['1'])]⟩ :=
    fun _ => ⟨["`a` = VALUES(`a`)".toList], by decide +kernel⟩
  obtain ⟨q, run, -, read⟩ := @assignments_read_back _ _ _
    [[("a,(b".toList, .text "),'".toList)],
      [("c d".toList, .null), ("'".toList, .int (-5))]]
    parts (by decide +kernel) (by decide +kernel) (by decide +kernel) (by decide +kernel)
  exact ⟨q, run, read.mpr (.inr expands)⟩

/-- Where the marker for a duplicate key cannot be expanded no assignment is read back. -/
theorem not_assignments_read_back :
    ¬∀ (s : Settings) (t : Text) (base : Parts) (calls : List (List (Text × Value))) (q : Query),
      split s t = .ok base →
      StatementType.detect s.dialect t ∈ [some .update, some .insert, some .replace] →
      Text.trim (Parts.text base "set") = [] →
      (∀ p ∈ calls.flatten, s.dialect.IsColumn p.1 ∧ p.2.IsPlain) →
      (calls.flatten.map (·.1)).Nodup →
      (forM (calls.map assignAll) Edit.mutate).run (ofStatement s t) = .ok () q →
      Edit.assignmentValues.answer q = .ok ⟨calls.flatten⟩ := by
  intro h
  obtain ⟨t, ht⟩ : ∃ t, t =
    "INSERT INTO t (a..b) VALUES (1) ON DUPLICATE KEY UPDATE 1".toList := ⟨_, rfl⟩
  have parts : split {} t = .ok ⟨[("insert", []), ("into", ['t']), ("columns", "a..b".toList),
      ("set", []), ("values", "(1)".toList), ("query", []), (duplicateKey, ['1'])]⟩ := by
    rw [ht]
    decide +kernel
  have insert : StatementType.detect .mysql t = some .insert := by
    rw [ht]
    decide +kernel
  have done : (forM [assignAll [(['c'], .int 1)]] Edit.mutate : Edit Unit).answer
      (ofStatement {} t) = .ok () := by
    rw [ht]
    decide +kernel
  have read := h {} t _ [[(['c'], .int 1)]] _ parts (by simp [insert]) (by decide) (by decide)
    (by decide) (Edit.run_of_answer_ok done)
  have failed : ((forM [assignAll [(['c'], .int 1)]] Edit.mutate >>= fun _ =>
      Edit.assignmentValues : Edit _).answer (ofStatement {} t)).isOk = false := by
    rw [ht]
    decide +kernel
  rw [Edit.answer, Edit.run_bind, Edit.run_of_answer_ok done] at failed
  change (Edit.assignmentValues.answer _).isOk = false at failed
  rw [List.map_singleton] at read
  rw [read] at failed
  cases failed

end Query
end SqlStatement
