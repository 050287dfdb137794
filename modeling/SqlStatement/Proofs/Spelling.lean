import SqlStatement.Proofs.Dotting
import SqlStatement.Proofs.Naming

/-!
# Columns with their path in quotes

The column of an assignment is a path of names, each of them bare or in
identifier quotes. Both spellings are read up to the sign that assigns, and the
expression behind it does not depend on them. But the quotes are only taken off
at the ends of the path, those next to the dots stay in the name of the column.
So a path has one name in both spellings only if it is a single segment.
-/
namespace SqlStatement

namespace Text
variable {ts : List Text}

/-- What is joined is the first text and the others, each behind a separator. -/
theorem joinWith_cons_flatMap (separator t : Text) (ts : List Text) :
    joinWith separator (t :: ts) = t ++ ts.flatMap (separator ++ ·) := by
  induction ts generalizing t with
  | nil => simp
  | cons u ts ih =>
      rw [joinWith_cons_cons, ih, List.flatMap_cons, List.append_assoc, List.append_assoc]

/-- Joined texts begin and end as some of them do. -/
theorem ends_joinWith (separator : Text) (h : ∀ t ∈ ts, t ≠ []) :
    (∀ c ∈ (joinWith separator ts).head?, ∃ t ∈ ts, c ∈ t) ∧
      ∀ c ∈ (joinWith separator ts).getLast?, ∃ t ∈ ts, c ∈ t := by
  induction ts with
  | nil => exact ⟨by rintro c ⟨⟩, by rintro c ⟨⟩⟩
  | cons t ts ih =>
      obtain ⟨some, others⟩ := List.forall_mem_cons.mp h
      by_cases last : ts = []
      · subst last
        rw [joinWith_singleton]
        exact ⟨fun c hc => ⟨t, List.mem_cons_self, List.mem_of_mem_head? hc⟩,
          fun c hc => ⟨t, List.mem_cons_self, List.mem_of_mem_getLast? hc⟩⟩
      · rw [joinWith_cons last, List.append_assoc, List.head?_append_of_ne_nil _ some]
        have rest : joinWith separator ts ≠ [] := by
          obtain ⟨u, us, rfl⟩ := List.exists_cons_of_ne_nil last
          rw [joinWith_cons_flatMap]
          exact List.append_ne_nil_of_left_ne_nil (others u List.mem_cons_self) _
        rw [← List.append_assoc, List.getLast?_append_of_ne_nil _ rest]
        refine ⟨fun c hc => ⟨t, List.mem_cons_self, List.mem_of_mem_head? hc⟩, fun c hc => ?_⟩
        obtain ⟨u, hu, mem⟩ := (ih others).2 c hc
        exact ⟨u, List.mem_cons_of_mem t hu, mem⟩

/-- A word that begins with a letter or an underscore. -/
structure IsBareName (w : Text) : Prop where
  isWord : w.IsWord
  start : ∀ c ∈ w.head?, isNameStart c = true

instance (w : Text) : Decidable w.IsBareName :=
  decidable_of_iff (w.IsWord ∧ w.head?.all isNameStart = true)
    ⟨fun h => ⟨h.1, (Option.all_eq_true _ _).mp h.2⟩,
      fun h => ⟨h.isWord, (Option.all_eq_true _ _).mpr h.start⟩⟩

end Text

namespace Assignment
variable {d : Dialect} {column x : Text}

section Single
variable (some : column ≠ []) (start : ∀ c ∈ column.head?, Text.isWhite c = false)
include some start

/-- Trimming an assignment trims nothing but the end of its expression. -/
theorem exists_trim_equals (hn : Text.trim x ≠ []) :
    ∃ y, Text.trim (column ++ " = ".toList ++ x) = column ++ " = ".toList ++ y ∧
      Text.trim y = Text.trim x := by
  obtain ⟨front, behind, cut, white, trailing⟩ := Text.exists_trim x
  refine ⟨front ++ Text.trim x, ?_, by rw [Text.trim_append_left white, Text.trim_trim]⟩
  conv_lhs => rw [cut]
  rw [← List.append_assoc, Text.trim_append_right trailing, ← List.append_assoc]
  refine Text.trim_append ?_ ?_ hn (Text.trim_trim x)
  · rw [List.append_assoc, List.head?_append_of_ne_nil _ some]
    exact start
  · exact List.append_ne_nil_of_left_ne_nil (List.append_ne_nil_of_left_ne_nil some _) _

/-- A single assignment is read as its column and its expression. -/
theorem splitAssignments_identifier {ps : Parts} (item : d.IsItem column) (hx : d.IsItem x)
    (hn : Text.trim x ≠ [])
    (whole : ∀ y, d.identifier? (column ++ " = ".toList ++ y) = .some (column, " = ".toList ++ y))
    (hs : ps.get? "set" = .some (column ++ " = ".toList ++ x)) :
    splitAssignments d ps = .ok ⟨[(columnName d column, Text.trim x)]⟩ := by
  have assignment : d.IsAssignment (column ++ " = ".toList ++ x) := .of_sides item hx
  obtain ⟨y, trimmed, same⟩ := exists_trim_equals some start hn
  have blank : ∀ c ∈ column.head?, Text.isBlank c = false := fun c hc =>
    Text.isBlank_of_not_isWhite (start c hc)
  have expression : Text.trim (Text.skipBlanks (' ' :: y)) = Text.trim x := by
    rw [Text.trim_skipBlanks, ← List.singleton_append, Text.trim_append_left (by decide), same]
  rw [splitAssignments, Parts.require, hs]
  change Except.ok (OrderedMap.ofList ((d.splitTopLevel _).map _)) = _
  rw [assignment.1.splitTopLevel assignment.trim_ne_nil, trimmed, List.map_singleton,
    split_identifier blank some (whole y), ← expression]
  rfl

end Single

end Assignment

namespace Dialect
variable {d : Dialect} {g w u : Text} {gs ws : List Text}

/-- A name as it is spelled in a path: one item that is read as a segment, whatever follows it but
further characters of a word. -/
structure IsSpelling (d : Dialect) (g : Text) : Prop where
  isItem : d.IsItem g
  nonempty : g ≠ []
  start : ∀ c ∈ g.head?, Text.isWhite c = false
  segment : ∀ u, (∀ c ∈ u.head?, Text.isWordChar c = false) → d.segment? (g ++ u) = some (g, u)

theorem isSpelling_bareName (hw : w.IsBareName) : d.IsSpelling w := by
  refine ⟨isItem_of_isInert fun c hc => isInert_of_isWordChar (hw.isWord.2 c hc), hw.isWord.1,
    fun c hc => Text.isWhite_of_isWordChar (hw.isWord.2 c (List.mem_of_mem_head? hc)), ?_⟩
  intro u hu
  obtain ⟨front, behind⟩ := Text.takeWhile_dropWhile_append hw.isWord.2 hu
  obtain ⟨c, v, rfl⟩ := List.exists_cons_of_ne_nil hw.isWord.1
  have start := hw.start c rfl
  have name : d.isName (c :: v) = true := by cases d <;> simp [isName, start]
  rw [segment?, identifierLiteral?_word hw.isWord]
  simp only [front, behind, name, if_true]

theorem isSpelling_quoteName (hw : w.IsWord) : d.IsSpelling (d.quoteName w) := by
  have name := ne_identifierQuote_of_isWord (d := d) hw
  refine ⟨isItem_quoteName name, List.cons_ne_nil _ _, ?_, fun u _ => ?_⟩
  · rintro c ⟨⟩
    exact d.isWhite_identifierQuote
  · rw [segment?, identifierLiteral?_quoteName name]

section Paths
variable (hg : ∀ g ∈ gs, d.IsSpelling g)
include hg

/-- Segments behind dots are read up to anything that continues no path. -/
theorem furtherSegments_append {more : Nat} (few : gs.length ≤ more)
    (hu : ∀ c ∈ u.head?, Text.isWordChar c = false ∧ c ≠ '.') :
    d.furtherSegments more (gs.flatMap (['.'] ++ ·) ++ u) = (gs.flatMap (['.'] ++ ·), u) := by
  induction gs generalizing more with
  | nil =>
      rw [List.flatMap_nil, List.nil_append, furtherSegments.eq_def]
      split
      · exact absurd rfl (hu '.' rfl).2
      · rfl
  | cons g gs ih =>
      obtain ⟨first, others⟩ := List.forall_mem_cons.mp hg
      obtain ⟨more, rfl⟩ := Nat.exists_eq_add_one_of_ne_zero (Nat.ne_of_gt (Nat.lt_of_lt_of_le
        (Nat.succ_pos _) few))
      have rest := ih others (Nat.le_of_succ_le_succ few)
      rw [List.flatMap_cons, List.append_assoc, List.append_assoc, List.singleton_append,
        furtherSegments, first.segment]
      · simp only [rest]
        rfl
      · cases gs with
        | nil => exact fun c hc => (hu c hc).1
        | cons g gs => rintro c ⟨⟩; rfl

/-- A path of one to three segments is read as a whole. -/
theorem identifier?_append (some : gs ≠ []) (few : gs.length ≤ 3)
    (hu : ∀ c ∈ u.head?, Text.isWordChar c = false ∧ c ≠ '.') :
    d.identifier? (Text.joinWith ['.'] gs ++ u) = .some (Text.joinWith ['.'] gs, u) := by
  obtain ⟨g, gs, rfl⟩ := List.exists_cons_of_ne_nil some
  obtain ⟨first, others⟩ := List.forall_mem_cons.mp hg
  rw [Text.joinWith_cons_flatMap, List.append_assoc, identifier?, first.segment, Option.map_some,
    furtherSegments_append others (Nat.le_of_succ_le_succ few) hu]
  cases gs with
  | nil => exact fun c hc => (hu c hc).1
  | cons g gs => rintro c ⟨⟩; rfl

theorem isItem_joinWith_dot (some : gs ≠ []) : d.IsItem (Text.joinWith ['.'] gs) := by
  induction gs with
  | nil => exact absurd rfl some
  | cons g gs ih =>
      obtain ⟨first, others⟩ := List.forall_mem_cons.mp hg
      by_cases last : gs = []
      · subst last
        exact first.isItem
      · rw [Text.joinWith_cons last, List.append_assoc]
        exact first.isItem.append (PathState.isItem_dot (ih others last))

theorem ends_joinWith_dot (some : gs ≠ []) : Text.joinWith ['.'] gs ≠ [] ∧
    ∀ c ∈ (Text.joinWith ['.'] gs).head?, Text.isWhite c = false := by
  obtain ⟨g, gs, rfl⟩ := List.exists_cons_of_ne_nil some
  have first := hg g List.mem_cons_self
  rw [Text.joinWith_cons_flatMap, List.head?_append_of_ne_nil _ first.nonempty]
  exact ⟨List.append_ne_nil_of_left_ne_nil first.nonempty _, first.start⟩

/-- An assignment to a path is read as the name of the path and the expression. -/
theorem splitAssignments_joinWith (some : gs ≠ []) (few : gs.length ≤ 3) {ps : Parts} {x : Text}
    (hx : d.IsItem x) (hn : Text.trim x ≠ [])
    (hs : ps.get? "set" = .some (Text.joinWith ['.'] gs ++ " = ".toList ++ x)) :
    splitAssignments d ps =
      .ok ⟨[(Assignment.columnName d (Text.joinWith ['.'] gs), Text.trim x)]⟩ := by
  obtain ⟨path, start⟩ := ends_joinWith_dot hg some
  refine Assignment.splitAssignments_identifier path start (isItem_joinWith_dot hg some) hx hn
    (fun y => ?_) hs
  rw [List.append_assoc]
  exact identifier?_append hg some few (by rintro c ⟨⟩; decide)

end Paths

/-- The path of some words with each of them in quotes is quoted as a whole, with quotes next to its
dots. -/
theorem joinWith_map_quoteName (some : ws ≠ []) :
    Text.joinWith ['.'] (ws.map d.quoteName) =
      d.quoteName (Text.joinWith [d.identifierQuote, '.', d.identifierQuote] ws) := by
  induction ws with
  | nil => exact absurd rfl some
  | cons w ws ih =>
      by_cases last : ws = []
      · subst last
        rfl
      · rw [List.map_cons, Text.joinWith_cons (by simpa using last), ih last,
          Text.joinWith_cons last]
        simp [quoteName]

section Names
variable (names : ∀ w ∈ ws, w.IsBareName)
include names

/-- A bare path has characters of words and dots only. -/
theorem mem_joinWith_dot : ∀ c ∈ Text.joinWith ['.'] ws, Text.isWordChar c = true ∨ c = '.' := by
  induction ws with
  | nil => rintro c ⟨⟩
  | cons w ws ih =>
      obtain ⟨first, others⟩ := List.forall_mem_cons.mp names
      have word : ∀ c ∈ w, Text.isWordChar c = true ∨ c = '.' := fun c hc =>
        .inl (first.isWord.2 c hc)
      by_cases last : ws = []
      · subst last
        exact word
      · rw [Text.joinWith_cons last]
        exact List.forall_mem_append.mpr
          ⟨List.forall_mem_append.mpr ⟨word, List.forall_mem_singleton.mpr (.inr rfl)⟩, ih others⟩

theorem columnName_bare :
    Assignment.columnName d (Text.joinWith ['.'] ws) = Text.joinWith ['.'] ws := by
  have plain : ∀ c ∈ Text.joinWith ['.'] ws,
      Text.isWhite c = false ∧ (c == d.identifierQuote) = false := by
    intro c hc
    rcases mem_joinWith_dot names c hc with word | rfl
    · refine ⟨Text.isWhite_of_isWordChar word, beq_eq_false_iff_ne.mpr ?_⟩
      rintro rfl
      rw [isWordChar_identifierQuote] at word
      cases word
    · exact ⟨by decide, by cases d <;> decide⟩
  rw [Assignment.columnName, Text.trim_of_isWhite fun c hc => (plain c hc).1]
  exact Text.trimWhere_of_ends (fun c hc => (plain c (List.mem_of_mem_head? hc)).2)
    fun c hc => (plain c (List.mem_of_mem_getLast? hc)).2

theorem columnName_quoted (some : ws ≠ []) :
    Assignment.columnName d (Text.joinWith ['.'] (ws.map d.quoteName)) =
      Text.joinWith [d.identifierQuote, '.', d.identifierQuote] ws := by
  obtain ⟨front, behind⟩ := Text.ends_joinWith [d.identifierQuote, '.', d.identifierQuote]
    fun w hw => (names w hw).isWord.1
  have letter {c : Char} (h : ∃ w ∈ ws, c ∈ w) : c ≠ d.identifierQuote := by
    obtain ⟨w, hw, hc⟩ := h
    exact ne_identifierQuote_of_isWord (names w hw).isWord c hc
  rw [joinWith_map_quoteName some]
  exact columnName_quoteName (fun c hc => letter (front c hc)) fun c hc => letter (behind c hc)

/-- The names of a path in both spellings are the same if it has one segment, and only then. -/
theorem joinWith_quotes_eq_iff (some : ws ≠ []) :
    Text.joinWith [d.identifierQuote, '.', d.identifierQuote] ws = Text.joinWith ['.'] ws ↔
      ws.length = 1 := by
  refine ⟨fun same => ?_, fun single => ?_⟩
  · by_contra several
    obtain ⟨w, ws, rfl⟩ := List.exists_cons_of_ne_nil some
    have others : ws ≠ [] := by
      rintro rfl
      exact several rfl
    -- With a second segment there is a quote in front of the dot, and a bare path has none.
    have quote : d.identifierQuote ∈ Text.joinWith ['.'] (w :: ws) := by
      rw [← same, Text.joinWith_cons others]
      simp
    rcases mem_joinWith_dot names _ quote with word | dot
    · rw [isWordChar_identifierQuote] at word
      cases word
    · revert dot
      cases d <;> decide
  · obtain ⟨w, rfl⟩ := List.length_eq_one_iff.mp single
    rfl

end Names

/-- An assignment to a path of up to three names has the same expression in both spellings of the
path. Its column has the same name if the path is a single name, and only then: the quotes next to
dots are kept. -/
theorem splitAssignments_quoted {ps qs : Parts} {x : Text} (names : ∀ w ∈ ws, w.IsBareName)
    (some : ws ≠ []) (few : ws.length ≤ 3) (hx : d.IsItem x) (hn : Text.trim x ≠ [])
    (bare : ps.get? "set" = .some (Text.joinWith ['.'] ws ++ " = ".toList ++ x))
    (quoted : qs.get? "set" =
      .some (Text.joinWith ['.'] (ws.map d.quoteName) ++ " = ".toList ++ x)) :
    splitAssignments d ps = .ok ⟨[(Text.joinWith ['.'] ws, Text.trim x)]⟩ ∧
      splitAssignments d qs =
        .ok ⟨[(Text.joinWith [d.identifierQuote, '.', d.identifierQuote] ws, Text.trim x)]⟩ ∧
      (splitAssignments d qs = splitAssignments d ps ↔ ws.length = 1) := by
  have bare := splitAssignments_joinWith (fun w hw => isSpelling_bareName (names w hw)) some few hx
    hn bare
  have quoted := splitAssignments_joinWith (List.forall_mem_map.mpr fun w hw =>
    isSpelling_quoteName (d := d) (names w hw).isWord) (by simpa using some) (by simpa using few) hx
    hn quoted
  rw [columnName_bare names] at bare
  rw [columnName_quoted names some] at quoted
  refine ⟨bare, quoted, ?_⟩
  rw [bare, quoted, ← joinWith_quotes_eq_iff (d := d) names some]
  simp

theorem splitAssignments_quoted_two :
    splitAssignments .mysql ⟨[("set", "t.a = f(b, 1)".toList)]⟩ =
        .ok ⟨[("t.a".toList, "f(b, 1)".toList)]⟩ ∧
      splitAssignments .mysql ⟨[("set", "`t`.`a` = f(b, 1)".toList)]⟩ =
        .ok ⟨[("t`.`a".toList, "f(b, 1)".toList)]⟩ := by
  have bare : OrderedMap.get? ⟨[("set", "t.a = f(b, 1)".toList)]⟩ "set" =
      some (Text.joinWith ['.'] [['t'], ['a']] ++ " = ".toList ++ "f(b, 1)".toList) := rfl
  have quoted : OrderedMap.get? ⟨[("set", "`t`.`a` = f(b, 1)".toList)]⟩ "set" =
      some (Text.joinWith ['.'] ([['t'], ['a']].map mysql.quoteName) ++ " = ".toList ++
        "f(b, 1)".toList) := rfl
  have names : ∀ w ∈ [['t'], ['a']], Text.IsBareName w :=
    List.forall_mem_cons.mpr ⟨by decide, List.forall_mem_singleton.mpr (by decide)⟩
  have read := splitAssignments_quoted names (by decide) (by decide) (by decide +kernel) (by decide)
    bare quoted
  exact ⟨read.1, read.2.1⟩

/-- A path of two names has other quotes in the name of its column. -/
theorem not_splitAssignments_quoted :
    ¬∀ (d : Dialect) (ws : List Text) (x : Text), (∀ w ∈ ws, w.IsBareName) → ws ≠ [] →
      ws.length ≤ 3 → d.IsItem x → Text.trim x ≠ [] →
      splitAssignments d
          ⟨[("set", Text.joinWith ['.'] (ws.map d.quoteName) ++ " = ".toList ++ x)]⟩ =
        splitAssignments d ⟨[("set", Text.joinWith ['.'] ws ++ " = ".toList ++ x)]⟩ := by
  intro h
  have same := h .mysql [['a'], ['b']] ['1']
    (List.forall_mem_cons.mpr ⟨by decide, List.forall_mem_singleton.mpr (by decide)⟩)
    (by decide) (by decide) (by decide +kernel) (by decide)
  have quoted : splitAssignments .mysql ⟨[("set", "`a`.`b` = 1".toList)]⟩ =
      .ok ⟨[("a`.`b".toList, ['1'])]⟩ := by
    decide +kernel
  have bare : splitAssignments .mysql ⟨[("set", "a.b = 1".toList)]⟩ =
      .ok ⟨[("a.b".toList, ['1'])]⟩ := by
    decide +kernel
  change splitAssignments .mysql ⟨[("set", "`a`.`b` = 1".toList)]⟩ =
    splitAssignments .mysql ⟨[("set", "a.b = 1".toList)]⟩ at same
  rw [quoted, bare] at same
  exact absurd same (by decide)

end Dialect

end SqlStatement
