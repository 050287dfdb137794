import SqlStatement.Proofs.Joining
import SqlStatement.Proofs.Naming

/-!
# Chains of joined tables

A table and the tables that are joined to it are read one after the other. A
name ends at a blank; behind it stands the join syntax of the next table, or ON
and a condition, which is read to its end, or nothing. None of these is an alias
or a table of its own, so every table is read under its name, and no more tables
than there are.
-/
namespace SqlStatement
variable {d : Dialect}

/-- Join syntax has a word of its own in front of JOIN. -/
theorem JoinKind.exists_words (kind : JoinKind) (d : Dialect) :
    ∃ w, kind.words = w ++ ' ' :: "JOIN".toList ∧ w.IsWord ∧
      Text.isAnyKeyword d.joinWords w = true ∧ Text.isKeyword "ON" w = false := by
  cases kind with
  | inner => exact ⟨"INNER".toList, rfl, by decide, by cases d <;> decide, by decide⟩
  | left => exact ⟨"LEFT".toList, rfl, by decide, by cases d <;> decide, by decide⟩
  | right => exact ⟨"RIGHT".toList, rfl, by decide, by cases d <;> decide, by decide⟩

namespace TableRef
variable {w t : Text}

/-- One of the words is passed with the blank behind it. -/
theorem passWord_of_isAnyKeyword {words : List String} (hw : w.IsWord)
    (h : Text.isAnyKeyword words w = true) (before : Option Char)
    (ht : ∀ c ∈ t.head?, Text.isBlank c = false) :
    passWord words ⟨before, w ++ ' ' :: t⟩ = ⟨some ' ', t⟩ := by
  have behind : Place.skipWhile ⟨before, w ++ ' ' :: t⟩ Text.isWordChar =
      ⟨w.getLast?.or before, ' ' :: t⟩ := Place.skipWhile_append before hw.2 (by simp; decide)
  rw [passWord]
  simp only [Place.word_append hw, h, behind, Bool.true_and]
  rw [if_pos (by rfl), Place.skipBlanks_space _ ht]

theorem passWord_append_of_not {words : List String} (hw : w.IsWord)
    (h : Text.isAnyKeyword words w = false) (before : Option Char) (t : Text) :
    passWord words ⟨before, w ++ ' ' :: t⟩ = ⟨before, w ++ ' ' :: t⟩ :=
  passWord_of_not (by rw [Place.word_append hw]; exact h)

theorem isWord_join : Text.IsWord "JOIN".toList := by decide

/-- What stands in front of JOIN is passed. -/
theorem passWords_words (kind : JoinKind) (before : Option Char) (t : Text) :
    passWord ["INNER", "CROSS", "OUTER"] (passWord ["LEFT", "RIGHT"]
      (passWord ["NATURAL"] ⟨before, kind.words ++ ' ' :: t⟩)) =
        ⟨some ' ', "JOIN".toList ++ ' ' :: t⟩ := by
  have letter : ∀ c ∈ ("JOIN".toList ++ ' ' :: t).head?, Text.isBlank c = false := by
    rintro c ⟨⟩
    decide
  cases kind with
  | inner =>
      have word : Text.IsWord "INNER".toList := by decide
      change passWord _ (passWord _ (passWord _
        ⟨before, "INNER".toList ++ ' ' :: ("JOIN".toList ++ ' ' :: t)⟩)) = _
      rw [passWord_append_of_not word (by decide), passWord_append_of_not word (by decide),
        passWord_of_isAnyKeyword word (by decide) _ letter]
  | left =>
      have word : Text.IsWord "LEFT".toList := by decide
      change passWord _ (passWord _ (passWord _
        ⟨before, "LEFT".toList ++ ' ' :: ("JOIN".toList ++ ' ' :: t)⟩)) = _
      rw [passWord_append_of_not word (by decide),
        passWord_of_isAnyKeyword word (by decide) _ letter,
        passWord_append_of_not isWord_join (by decide)]
  | right =>
      have word : Text.IsWord "RIGHT".toList := by decide
      change passWord _ (passWord _ (passWord _
        ⟨before, "RIGHT".toList ++ ' ' :: ("JOIN".toList ++ ' ' :: t)⟩)) = _
      rw [passWord_append_of_not word (by decide),
        passWord_of_isAnyKeyword word (by decide) _ letter,
        passWord_append_of_not isWord_join (by decide)]

/-- Join syntax is passed up to the blank behind it. -/
theorem behindJoin?_words (kind : JoinKind) (before : Option Char) (t : Text) :
    behindJoin? d ⟨before, kind.words ++ ' ' :: t⟩ = some ⟨some 'N', ' ' :: t⟩ := by
  have head : Text.isAnyKeyword d.joinHeads "JOIN".toList = true := by cases d <;> decide
  rw [behindJoin?]
  simp only [passWords_words, Place.word_append isWord_join, head, if_true]
  rw [Place.skipWhile_append _ isWord_join.2 (by simp; decide)]
  rfl

theorem passSeparator_words (kind : JoinKind) (t : Text) :
    passSeparator d ⟨some ' ', kind.words ++ ' ' :: t⟩ = Place.skipBlanks ⟨some 'N', ' ' :: t⟩ := by
  rw [passSeparator]
  split
  · rename_i rest h
    cases kind <;> cases h
  · rw [if_pos (by rfl), behindJoin?_words]

/-- What can stand behind a table: nothing, or the join syntax of the next one. -/
def Ends (t : Text) : Prop :=
  t = [] ∨ ∃ (kind : JoinKind) (u : Text), t = ' ' :: (kind.words ++ ' ' :: u)

theorem Ends.isParted (h : Ends t) : t.IsParted := by
  rcases h with rfl | ⟨kind, u, rfl⟩
  · rintro c ⟨⟩
  · rintro c ⟨⟩
    rfl

/-- A word of join syntax is no alias, and neither is ON. -/
theorem aliasName?_eq_none (hw : w.IsWord) (h : Text.isAnyKeyword ("ON" :: d.joinWords) w = true)
    (before : Option Char) (t : Text) : aliasName? d ⟨before, w ++ ' ' :: t⟩ = none := by
  have as : Text.isKeyword "AS" ((w ++ ' ' :: t).take 2) = false := by
    by_contra two
    obtain ⟨k, hm, hk⟩ := List.any_eq_true.mp h
    have first : ∀ k ∈ "ON" :: d.joinWords, k.toList.head? ≠ some 'A' := by
      cases d <;> decide
    rw [Bool.not_eq_false, Text.isKeyword, beq_iff_eq] at two
    rw [Text.isKeyword, beq_iff_eq] at hk
    refine first k hm ?_
    obtain ⟨c, w, rfl⟩ := List.exists_cons_of_ne_nil hw.1
    have letter := congrArg List.head? two
    rw [← hk, Text.upper, List.head?_map]
    simpa [Text.upper] using letter
  have quoted : Place.quoted? ⟨before, w ++ ' ' :: t⟩ d = none := by
    simp [Place.quoted?, Dialect.identifierLiteral?_word hw]
  have word : bareAlias? d ⟨before, w ++ ' ' :: t⟩ = none := by
    simp only [bareAlias?, quoted, Place.word?, Place.word_append hw]
    split <;> simp [h]
  simp [aliasName?, aliasBehindAs?, as, word]

theorem aliasName?_nil (before : Option Char) : aliasName? d ⟨before, []⟩ = none := by
  have as : Text.isKeyword "AS" [] = false := by decide
  simp [aliasName?, aliasBehindAs?, as, bareAlias?, Place.quoted?, Dialect.identifierLiteral?,
    Place.word?, Place.word]

theorem passCondition_of_not {p : Place} (h : Text.isKeyword "ON" p.word = false) :
    passCondition d p = p := by
  simp [passCondition, h]

/-- Behind a table that ends there is neither an alias nor a condition. -/
theorem read?_of_ends {p : Place} {table : TableRef} {before : Option Char} (ht : Ends t)
    (h : table? d (passSeparator d p) = some (table, ⟨before, t⟩)) :
    read? d p = some (table, Place.skipBlanks ⟨before, t⟩) := by
  have behind : aliasName? d (Place.skipBlanks ⟨before, t⟩) = none ∧
      passCondition d (Place.skipBlanks ⟨before, t⟩) = Place.skipBlanks ⟨before, t⟩ := by
    rcases ht with rfl | ⟨kind, u, rfl⟩
    · exact ⟨aliasName?_nil before, passCondition_of_not rfl⟩
    · obtain ⟨w, hw, word, keyword, other⟩ := kind.exists_words d
      rw [hw, List.append_assoc, List.cons_append,
        Place.skipBlanks_space _ (word.isBlank_head?_append _)]
      have listed := Text.isAnyKeyword_mono keyword (List.subset_cons_self "ON" _)
      exact ⟨aliasName?_eq_none word listed _ _,
        passCondition_of_not (by rwa [Place.word_append word])⟩
  rw [read?]
  simp only [h, behind]

/-- A condition is not read on behind a table that ends. -/
theorem isBlank_conditionText (ht : Ends t) : ∀ c ∈ conditionText d t, Text.isBlank c = true := by
  rcases ht with rfl | ⟨kind, u, rfl⟩
  · simp [conditionText_nil]
  · obtain ⟨w, hw, word, keyword, -⟩ := kind.exists_words d
    have quote : d.isQuote ' ' = false := Dialect.isQuote_of_isWhite (by decide)
    rw [conditionText_char _ quote (by decide) (by decide) (by decide), hw, List.append_assoc,
      List.cons_append, conditionText_word_append word.1 word.2 (by simp; decide), if_pos keyword]
    exact List.forall_mem_singleton.mpr (by decide)

/-- A condition is read up to the blanks at its end. -/
theorem condition_append {on : Text} (h : d.IsJoinCondition on) (ht : Ends t) :
    condition d (on ++ t) = Text.dropEndWhile Text.isBlank on := by
  have edge : ∀ c ∈ t.head?, Text.isWordChar c = false ∧ d.isQuote c = false := by
    intro c hc
    have blank := ht.isParted c hc
    exact ⟨Text.isWordChar_of_isBlank blank,
      Dialect.isQuote_of_isWhite (Text.isWhite_of_isBlank blank)⟩
  rw [condition, h.conditionText_append edge,
    Text.dropEndWhile_append_of_pos _ (isBlank_conditionText ht)]

/-- ON and its condition are passed up to the blanks behind the condition. -/
theorem exists_passCondition {on : Text} (h : d.IsJoinCondition on) (ht : Ends t) :
    ∃ before blanks, (∀ c ∈ blanks, Text.isBlank c = true) ∧
      passCondition d ⟨some ' ', "ON".toList ++ ' ' :: (on ++ t)⟩ = ⟨before, blanks ++ t⟩ := by
  have word : Text.IsWord "ON".toList := by decide
  -- blanks in front of the condition are skipped before it is read
  have trimmed := h.dropWhile fun c hc => Text.isWhite_of_isBlank hc
  obtain ⟨before, start⟩ : ∃ before,
      (Place.skipWhile ⟨some ' ', "ON".toList ++ ' ' :: (on ++ t)⟩ Text.isWordChar).skipBlanks =
        ⟨before, on.dropWhile Text.isBlank ++ t⟩ := by
    have front : ' ' :: (on ++ t) =
        ' ' :: on.takeWhile Text.isBlank ++ (on.dropWhile Text.isBlank ++ t) := by
      rw [List.cons_append, ← List.append_assoc, List.takeWhile_append_dropWhile]
    have blanks : ∀ c ∈ ' ' :: on.takeWhile Text.isBlank, Text.isBlank c = true :=
      List.forall_mem_cons.mpr ⟨by decide, fun c hc => List.mem_takeWhile_imp hc⟩
    rw [Place.skipWhile_append _ word.2 (by simp; decide), front, Place.skipBlanks,
      Place.skipWhile_append _ blanks]
    · exact ⟨_, rfl⟩
    · rw [List.head?_append_of_ne_nil _ trimmed.ne_nil]
      exact Text.isBlank_head?_skipBlanks on
  have filled := (trimmed.dropEndWhile (p := Text.isBlank)
    fun c hc => .inl (Text.isWhite_of_isBlank hc)).ne_nil
  obtain ⟨blanks, hb, split⟩ := Text.exists_dropEndWhile Text.isBlank (on.dropWhile Text.isBlank)
  have read := condition_append trimmed ht
  generalize Text.dropEndWhile Text.isBlank (on.dropWhile Text.isBlank) = found at filled split read
  refine ⟨found.getLast?.or before, blanks, hb, ?_⟩
  rw [passCondition, if_pos (by rw [Place.word_append word]; rfl)]
  simp only [start, read, List.isEmpty_iff, filled, if_false]
  rw [split, List.append_assoc, List.drop_left]
  rfl

theorem exists_read?_condition {p : Place} {table : TableRef} {before : Option Char} {on : Text}
    (hon : d.IsJoinCondition on) (ht : Ends t)
    (h : table? d (passSeparator d p) =
      some (table, ⟨before, ' ' :: ("ON".toList ++ ' ' :: (on ++ t))⟩)) :
    ∃ before' blanks, (∀ c ∈ blanks, Text.isBlank c = true) ∧
      read? d p = some (table, ⟨before', blanks ++ t⟩) := by
  have word : Text.IsWord "ON".toList := by decide
  obtain ⟨before', blanks, hb, passed⟩ := exists_passCondition hon ht
  refine ⟨before', blanks, hb, ?_⟩
  rw [read?]
  simp only [h, Place.skipBlanks_space before (word.isBlank_head?_append _),
    aliasName?_eq_none word (d := d) (by cases d <;> decide), passed]

end TableRef

namespace TableList
variable {inside : Text → Except Error (List (Text × Text))} {t : Text}

theorem entries_nil (before : Option Char) : entries d inside ⟨before, []⟩ = .ok [] := by
  rw [entries]

/-- No table begins with a blank. -/
theorem read?_eq_none {c : Char} (hc : Text.isBlank c = true) (before : Option Char) (t : Text) :
    TableRef.read? d ⟨before, c :: t⟩ = none := by
  have white := Text.isWhite_of_isBlank hc
  have word : Place.word ⟨before, c :: t⟩ = [] :=
    List.takeWhile_cons_of_neg (by simp [Text.isWordChar_of_isBlank hc])
  have other {b : Char} (hb : Text.isWhite b = false) : c ≠ b := by
    rintro rfl
    rw [hb] at white
    cases white
  have stay : TableRef.passSeparator d ⟨before, c :: t⟩ = ⟨before, c :: t⟩ := by
    refine TableRef.passSeparator_of_not ?_ ?_
    · simpa using other (b := ',') (by decide)
    · rw [word]
      cases d <;> decide
  have name : TableRef.name? d ⟨before, c :: t⟩ = none := by
    simp [TableRef.name?, Place.quoted?, Dialect.identifierLiteral?, Place.word?, word,
      other (Dialect.isWhite_identifierQuote d)]
  have table : TableRef.table? d ⟨before, c :: t⟩ = none := by
    rw [TableRef.table?]
    split
    · rename_i rest h
      cases h
      cases hc
    · simp [TableRef.named?, name]
  rw [TableRef.read?]
  simp only [stay, table]

/-- Where no table is read, the first character is passed over. -/
theorem entries_of_none {p : Place} {c : Char} {rest : Text} (hp : p.rest = c :: rest)
    (hr : TableRef.read? d p = none) : entries d inside p = entries d inside (p.past [c] rest) := by
  rw [entries]
  split
  · rename_i h
    cases hp.symm.trans h
  · rename_i h
    cases hp.symm.trans h
    split
    · rfl
    · rename_i h
      cases hr.symm.trans h

theorem entries_cons {c : Char} (hc : Text.isBlank c = true) (before : Option Char) (t : Text) :
    entries d inside ⟨before, c :: t⟩ = entries d inside ⟨some c, t⟩ :=
  entries_of_none rfl (read?_eq_none hc before t)

theorem entries_append {blanks : Text} (hb : ∀ c ∈ blanks, Text.isBlank c = true)
    (before : Option Char) (t : Text) : entries d inside ⟨before, blanks ++ t⟩ =
      entries d inside ⟨blanks.getLast?.or before, t⟩ := by
  induction blanks generalizing before with
  | nil => rfl
  | cons c blanks ih =>
      obtain ⟨hc, hb⟩ := List.forall_mem_cons.mp hb
      have last : (c :: blanks).getLast?.or before = blanks.getLast?.or (some c) := by
        rw [List.getLast?_cons]
        cases blanks.getLast? <;> rfl
      rw [List.cons_append, entries_cons hc, ih hb, last]

theorem entries_skipBlanks (p : Place) : entries d inside p.skipBlanks = entries d inside p := by
  have skipped : entries d inside _ = _ :=
    entries_append (fun c (hc : c ∈ p.rest.takeWhile Text.isBlank) => List.mem_takeWhile_imp hc)
      p.before (p.rest.dropWhile Text.isBlank)
  rw [List.takeWhile_append_dropWhile] at skipped
  exact skipped.symm

/-- A table that is read stands in front of the others. -/
theorem entries_of_read? {p q : Place} {table : TableRef}
    (h : TableRef.read? d p = some (table, q)) : entries d inside p = (do
      let here ← match table.group, table.isList with
        | some inner, true => inside inner
        | _, _ => .ok [(table.key d, table.reference)]
      return here ++ (← entries d inside q)) := by
  rw [entries]
  split
  · rename_i none
    have shorter := TableRef.length_read?_lt h
    rw [none] at shorter
    cases shorter
  · split
    · rename_i h'
      cases h.symm.trans h'
    · rename_i h'
      cases h.symm.trans h'
      rfl

/-- What is no group is one table. -/
theorem entries_of_ungrouped {p q : Place} {table : TableRef}
    (h : TableRef.read? d p = some (table, q)) (alone : table.group = none) :
    entries d inside p = (entries d inside q).map ((table.key d, table.reference) :: ·) := by
  rw [entries_of_read? h, alone]
  cases entries d inside q <;> rfl

end TableList

/-- A table that is joined, as it is written. Without a condition there is no ON. -/
structure Link where
  kind : JoinKind
  table : Text
  on : Text
  deriving DecidableEq, Repr

namespace Link

/-- What stands behind the name of the table. -/
def behind (l : Link) : Text := if l.on = [] then [] else ' ' :: ("ON".toList ++ ' ' :: l.on)

/-- The text of a link. -/
def text (d : Dialect) (l : Link) : Text :=
  l.kind.words ++ ' ' :: (d.quoteWords l.table ++ l.behind)

/-- A link whose table is a word and whose condition is read to its end. -/
structure IsReadable (d : Dialect) (l : Link) : Prop where
  table : l.table.IsWord
  on : l.on = [] ∨ d.IsJoinCondition l.on

/-- The text of links, each behind a blank. -/
def chain (d : Dialect) (ls : List Link) : Text := ls.flatMap fun l => ' ' :: l.text d

theorem chain_cons (l : Link) (ls : List Link) :
    chain d (l :: ls) = ' ' :: (l.text d ++ chain d ls) := by
  simp [chain]

theorem ends_chain (ls : List Link) : TableRef.Ends (chain d ls) := by
  cases ls with
  | nil => exact .inl rfl
  | cons l ls =>
      rw [chain_cons, text, List.append_assoc]
      exact .inr ⟨l.kind, _, rfl⟩

/-- A link is one table. -/
theorem IsReadable.entries_append {l : Link} (h : l.IsReadable d) {t : Text} (ht : TableRef.Ends t)
    (inside : Text → Except Error (List (Text × Text))) (before : Option Char) :
    ∃ before', TableList.entries d inside ⟨before, ' ' :: (l.text d ++ t)⟩ =
      (TableList.entries d inside ⟨before', t⟩).map ((l.table, d.quoteWords l.table) :: ·) := by
  obtain ⟨some, plain⟩ := Dialect.mem_quoteWords (d := d) h.table
  have found (parted : (l.behind ++ t).IsParted) :
      TableRef.table? d (TableRef.passSeparator d ⟨.some ' ', l.text d ++ t⟩) =
        .some (.named (d.quoteWords l.table),
          ⟨(d.quoteWords l.table).getLast?, l.behind ++ t⟩) := by
    rw [text, List.append_assoc, List.cons_append, List.append_assoc,
      TableRef.passSeparator_words, Place.skipBlanks_space _
        (Text.isBlank_head?_append some (fun c hc => (plain c hc).1) _),
      TableRef.table?_quoteWords h.table rfl parted]
  obtain ⟨q, before', read, same⟩ : ∃ q before', TableRef.read? d ⟨.some ' ', l.text d ++ t⟩ =
      .some (.named (d.quoteWords l.table), q) ∧
        TableList.entries d inside q = TableList.entries d inside ⟨before', t⟩ := by
    rw [behind] at found
    split at found
    · exact ⟨_, _, TableRef.read?_of_ends ht (found ht.isParted), TableList.entries_skipBlanks _⟩
    · rename_i filled
      have table := found (by rintro c ⟨⟩; rfl)
      rw [List.cons_append, List.append_assoc, List.cons_append] at table
      obtain ⟨before', blanks, hb, read⟩ :=
        TableRef.exists_read?_condition (h.on.resolve_left filled) ht table
      exact ⟨_, _, read, TableList.entries_append hb _ _⟩
  refine ⟨before', ?_⟩
  rw [TableList.entries_cons (by decide), TableList.entries_of_ungrouped read rfl, same,
    TableRef.key_quoteWords h.table]
  rfl

/-- A chain of links is read link by link. -/
theorem entries_chain {ls : List Link} (h : ∀ l ∈ ls, l.IsReadable d)
    (inside : Text → Except Error (List (Text × Text))) (before : Option Char) :
    TableList.entries d inside ⟨before, chain d ls⟩ =
      .ok (ls.map fun l => (l.table, d.quoteWords l.table)) := by
  induction ls generalizing before with
  | nil => exact TableList.entries_nil before
  | cons l ls ih =>
      obtain ⟨hl, hls⟩ := List.forall_mem_cons.mp h
      obtain ⟨before', read⟩ := hl.entries_append (ends_chain ls) inside before
      rw [chain_cons, read, ih hls]
      rfl

variable {s : Settings} {w : Text} {ls : List Link}

/-- A table and the tables joined to it. -/
theorem tables_chain (hw : w.IsWord) (h : ∀ l ∈ ls, l.IsReadable s.dialect) (room : Nat) :
    TableList.tables s (room + 1) (s.dialect.quoteWords w ++ chain s.dialect ls) =
      .ok ((w, s.dialect.quoteWords w) ::
        ls.map fun l => (l.table, s.dialect.quoteWords l.table)) := by
  have ends := ends_chain (d := s.dialect) ls
  have start : Text.startsWord none = true := rfl
  have table := TableRef.table?_quoteWords (d := s.dialect) hw start ends.isParted
  rw [← TableRef.passSeparator_quoteWords hw none ends.isParted] at table
  rw [TableList.tables, TableList.entries_of_ungrouped (TableRef.read?_of_ends ends table) rfl,
    TableList.entries_skipBlanks, entries_chain h, TableRef.key_quoteWords hw]
  rfl

/-- A word in parentheses is a table too if it begins no subquery. -/
theorem tables_group (hw : w.IsWord) (plain : s.dialect.quoteWords w = w)
    (select : Text.isKeyword "SELECT" w = false) (h : ∀ l ∈ ls, l.IsReadable s.dialect)
    (room : Nat) :
    TableList.tables s (room + 2) (Addition.parenthesize w ++ chain s.dialect ls) =
      .ok ((w, s.dialect.quoteWords w) ::
        ls.map fun l => (l.table, s.dialect.quoteWords l.table)) := by
  have ends := ends_chain (d := s.dialect) ls
  have balanced : s.dialect.isBalanced w = true :=
    (Dialect.isItem_of_isInert fun c hc => Dialect.isInert_of_isWordChar (hw.2 c hc)).isBalanced
  have table := TableRef.table?_parenthesize balanced none (chain s.dialect ls)
  have list : (TableRef.grouped w).isList = true := by
    have first : Text.skipBlanks w = w := by
      obtain ⟨c, w, rfl⟩ := List.exists_cons_of_ne_nil hw.1
      exact List.dropWhile_cons_of_neg (by simp [hw.isBlank_head?_append [] c rfl])
    have word : w.takeWhile Text.isWordChar = w := List.takeWhile_eq_self_iff.mpr hw.2
    simp [TableRef.isList, TableRef.grouped, Text.startsWithKeyword, first, word, select]
  have alone : ∀ l ∈ ([] : List Link), l.IsReadable s.dialect := by simp
  have inner := tables_chain hw alone room
  rw [chain, List.flatMap_nil, List.append_nil, plain] at inner
  have behind : TableList.entries s.dialect (TableList.tables s (room + 1)) _ = _ :=
    TableList.entries_skipBlanks ⟨some ')', chain s.dialect ls⟩
  rw [entries_chain h] at behind
  rw [TableList.tables, TableList.entries_of_read? (TableRef.read?_of_ends ends table), list, plain,
    behind]
  change (TableList.tables s (room + 1) w >>= _ : Except Error _) = _
  rw [inner]
  rfl

section Trimming
variable {p : Char → Bool} (hp : ∀ c, p c = true → Text.isWhite c = true ∨ c = ',')
include hp

theorem not_trimmed {c : Char} (hc : Text.isWhite c = false ∧ c ≠ ',') : p c = false := by
  by_contra drop
  rcases hp c (by simpa using drop) with white | comma
  · rw [hc.1] at white
    cases white
  · exact hc.2 comma

/-- What a chain loses at its end belongs to the condition of the last link. -/
theorem exists_dropEndWhile {front : Text}
    (hf : ∀ c ∈ front, Text.isWhite c = false ∧ c ≠ ',') (h : ∀ l ∈ ls, l.IsReadable d) :
    ∃ ls', (∀ l ∈ ls', l.IsReadable d) ∧ ls'.map table = ls.map table ∧
      Text.dropEndWhile p (front ++ chain d ls) = front ++ chain d ls' := by
  have kept {t : Text} (free : ∀ c ∈ t, Text.isWhite c = false ∧ c ≠ ',') :
      Text.dropEndWhile p t = t :=
    List.rdropWhile_eq_self_iff.mpr fun hn => by
      simp [not_trimmed hp (free _ (List.getLast_mem hn))]
  rcases List.eq_nil_or_concat ls with rfl | ⟨ls, l, rfl⟩
  · exact ⟨[], h, rfl, by simpa [chain] using kept hf⟩
  · rw [List.concat_eq_append, List.forall_mem_append, List.forall_mem_singleton] at h
    obtain ⟨hls, hl⟩ := h
    rw [List.concat_eq_append]
    by_cases on : l.on = []
    · obtain ⟨some, plain⟩ := Dialect.mem_quoteWords (d := d) hl.table
      have same := kept fun c hc => ⟨(plain c hc).1, (plain c hc).2.1⟩
      have split : front ++ chain d (ls ++ [l]) =
          (front ++ chain d ls ++ ' ' :: (l.kind.words ++ [' '])) ++ d.quoteWords l.table := by
        simp [chain, text, behind, on]
      refine ⟨ls ++ [l],
        List.forall_mem_append.mpr ⟨hls, List.forall_mem_singleton.mpr hl⟩, rfl, ?_⟩
      rw [split, Text.dropEndWhile_append _ (by rwa [same]), same]
    · have dropped := (hl.on.resolve_left on).dropEndWhile hp
      have split (on : Text) (hn : on ≠ []) : front ++ chain d (ls ++ [{ l with on }]) =
          (front ++ chain d ls ++
            ' ' :: (l.kind.words ++ ' ' :: (d.quoteWords l.table ++ " ON ".toList))) ++ on := by
        simp [chain, text, behind, hn]
      refine ⟨ls ++ [{ l with on := Text.dropEndWhile p l.on }], List.forall_mem_append.mpr
        ⟨hls, List.forall_mem_singleton.mpr ⟨hl.table, .inr dropped⟩⟩, by simp, ?_⟩
      rw [split _ dropped.ne_nil, ← Text.dropEndWhile_append _ dropped.ne_nil, ← split _ on]

/-- A chain that is trimmed is a chain of the same tables. -/
theorem exists_trimWhere {front : Text} (some : front ≠ [])
    (hf : ∀ c ∈ front, Text.isWhite c = false ∧ c ≠ ',') (h : ∀ l ∈ ls, l.IsReadable d) :
    ∃ ls', (∀ l ∈ ls', l.IsReadable d) ∧ ls'.map table = ls.map table ∧
      Text.trimWhere p (front ++ chain d ls) = front ++ chain d ls' := by
  have stay : (front ++ chain d ls).dropWhile p = front ++ chain d ls := by
    obtain ⟨c, front, rfl⟩ := List.exists_cons_of_ne_nil some
    exact List.dropWhile_cons_of_neg (by simp [not_trimmed hp (hf c (by simp))])
  rw [Text.trimWhere, stay]
  exact exists_dropEndWhile hp hf h

end Trimming

end Link
end SqlStatement
