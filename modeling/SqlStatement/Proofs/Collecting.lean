import SqlStatement.Proofs.Chaining
import SqlStatement.Proofs.Limiting

/-!
# Tables that are joined by calls

A call that sets the table replaces what was there, and every join is written
behind it as one link of a chain. So the tables that are read are the ones of the
calls, in their order and under their names, as long as every condition is read
to its end. A condition that calls a function named like join syntax is not, and
then the function is taken for a table.
-/
namespace SqlStatement
variable {d : Dialect}

/-- A word that is quoted is what is written for it. -/
theorem quoteIdentifier_word (s : Settings) {w : Text} (hw : w.IsWord) :
    quoteIdentifier s .words w = .ok (s.dialect.quoteWords w) :=
  if_pos (Dialect.isItem_of_isInert fun c hc =>
    Dialect.isInert_of_isWordChar (hw.2 c hc)).isBalanced

theorem Change.ofTable_word (q : Query) {w : Text} (hw : w.IsWord) :
    ofTable q [] w [] {} =
      .ok ⟨q.tablePart, [(.replace, q.settings.dialect.quoteWords w)]⟩ := by
  simp [ofTable, quoteIdentifier_word _ hw]

namespace Join
variable {j : Join} {q : Query} {s : Settings}

/-- The call that joins a table to the ones that are there. -/
def appended (j : Join) : Mutation := .table j.kind.words j.table j.on { quote := j.quote }

/-- A join of a word under a condition, if there is one, that is read to its end once it is
quoted. -/
structure IsReadable (s : Settings) (j : Join) : Prop where
  quote : j.quote = none
  table : j.table.IsWord
  on : j.on = [] ∨ ∃ on, quoteIdentifier s .smart j.on = .ok on ∧ s.dialect.IsJoinCondition on

/-- A join is written as a link. -/
theorem IsReadable.exists_link (h : j.IsReadable q.settings) :
    ∃ l : Link, l.IsReadable q.settings.dialect ∧ l.table = j.table ∧
      Change.ofTable q j.kind.words j.table j.on { quote := j.quote } =
        .ok ⟨q.tablePart, [(.append, l.text q.settings.dialect)]⟩ := by
  have words : j.kind.words.isEmpty = false := by cases j.kind <;> rfl
  by_cases none : j.on = []
  · refine ⟨⟨j.kind, j.table, []⟩, ⟨h.table, .inl rfl⟩, rfl, ?_⟩
    simp [Change.ofTable, h.quote, words, none, quoteIdentifier_word _ h.table, Link.text,
      Link.behind]
  · obtain ⟨on, quoted, condition⟩ := h.on.resolve_left none
    refine ⟨⟨j.kind, j.table, on⟩, ⟨h.table, .inr condition⟩, rfl, ?_⟩
    simp [Change.ofTable, h.quote, words, none, quoteIdentifier_word _ h.table, quoted, Link.text,
      Link.behind, condition.ne_nil]
    rfl

end Join

theorem Mutation.reads_table (join table on : Text) (o : PartOptions) (q : Query) :
    (Mutation.table join table on o).change?.Reads q
      ((Change.ofTable q join table on o).map some) :=
  .get fun _ => (Edit.reads_ofExcept (Change.ofTable q join table on o)).bind fun c =>
    Edit.reads_ofExcept (.ok (some c))

namespace Join
variable {q : Query} {base : Parts} {log : List Entry}

/-- A change to the tables that is known is made. -/
theorem exists_run_table (sound : q.Sound) (holds : q.Holds log) (hb : q.baseParts = .ok base)
    (inside : base.contains q.tablePart = true) {join table on : Text} {o : PartOptions}
    {fragment : Placement × Text}
    (hc : Change.ofTable q join table on o = .ok ⟨q.tablePart, [fragment]⟩) :
    ∃ q', (Edit.mutate (.table join table on o)).run q = .ok () q' ∧ q'.Sound ∧
      q'.base = q.base ∧ q'.attached = q.attached ∧
      q'.Holds (log ++ [(q.tablePart, fragment)]) := by
  have reads := Mutation.reads_table join table on o q
  rw [hc] at reads
  obtain ⟨memo, sound', run⟩ := Edit.run_mutate_of_reads sound reads hb fun c hc => by
    cases hc
    exact inside
  obtain ⟨unchanged, attached, -⟩ :=
    Change.unchanged_applied ⟨q.tablePart, [fragment]⟩ (q.withMemo memo)
  exact ⟨_, run, Change.sound_applied _ sound', unchanged, attached,
    (holds.withMemo memo).applied _⟩

/-- Joins are written as links, one behind the other. -/
theorem exists_run_forM {joins : List Join} (sound : q.Sound) (holds : q.Holds log)
    (hb : q.baseParts = .ok base) (inside : base.contains q.tablePart = true)
    (h : ∀ j ∈ joins, j.IsReadable q.settings) :
    ∃ (q' : Query) (ls : List Link),
      (forM joins fun j => Edit.mutate j.appended).run q = .ok () q' ∧ q'.Sound ∧
      q'.base = q.base ∧ q'.attached = q.attached ∧
      (∀ l ∈ ls, l.IsReadable q.settings.dialect) ∧ ls.map Link.table = joins.map table ∧
      q'.Holds (log ++ ls.map fun l => (q.tablePart, .append, l.text q.settings.dialect)) := by
  induction joins generalizing q log with
  | nil => exact ⟨q, [], rfl, sound, rfl, rfl, by simp, rfl, by simpa using holds⟩
  | cons j joins ih =>
      obtain ⟨hj, hjs⟩ := List.forall_mem_cons.mp h
      obtain ⟨l, readable, table, change⟩ := hj.exists_link
      obtain ⟨q₁, run₁, sound₁, base₁, attached₁, holds₁⟩ :=
        exists_run_table sound holds hb inside change
      obtain ⟨settings, -, part⟩ := Query.eq_of_base_eq base₁
      have hb₁ := (Query.baseParts_congr base₁ attached₁).trans hb
      rw [← part] at inside
      rw [← settings] at hjs
      obtain ⟨q', ls, run, sound', base', attached', readable', tables, holds'⟩ :=
        ih sound₁ holds₁ hb₁ inside hjs
      refine ⟨q', l :: ls, ?_, sound', base'.trans base₁, attached'.trans attached₁, ?_, ?_, ?_⟩
      · rw [List.forM_cons, Edit.run_bind]
        rw [show (Edit.mutate j.appended).run q = .ok () q₁ from run₁]
        exact run
      · rw [settings] at readable'
        exact List.forall_mem_cons.mpr ⟨readable, readable'⟩
      · rw [List.map_cons, List.map_cons, table, tables]
      · rw [settings, part, List.append_assoc] at holds'
        exact holds'

end Join

theorem Link.joinWith_text (front : Text) (ls : List Link) :
    Text.joinWith [' '] (front :: ls.map (text d)) = front ++ chain d ls := by
  induction ls generalizing front with
  | nil => simp [chain]
  | cons l ls ih =>
      rw [List.map_cons, Text.joinWith_cons_cons, ih, chain_cons]
      simp

/-- The entries of a table that replaces the others and of links behind it. -/
theorem Link.side_entries (part : String) (first : Text) (ls : List Link) :
    Entry.side part .replace ((part, .replace, first) :: ls.map fun l =>
        (part, .append, l.text d)) = [first] ∧
      Entry.side part .prepend ((part, .replace, first) :: ls.map fun l =>
        (part, .append, l.text d)) = [] ∧
      Entry.side part .append ((part, .replace, first) :: ls.map fun l =>
        (part, .append, l.text d)) = ls.map (text d) := by
  simp [Entry.side, List.filterMap_map]

theorem Edit.reads_tables (q : Query) :
    Edit.tables.Reads q (q.compose >>= splitTables q.settings) :=
  .get fun _ => reads_readParts (splitTables q.settings) q

/-- The tables of a chain are read under their names. -/
theorem splitTables_chain {s : Settings} {ps : Parts} {first front : Text} {ls : List Link}
    (unlisted : ps.get? "table" = none)
    (text : ps.get? "from" = some (front ++ Link.chain s.dialect ls))
    (hfront : front = s.dialect.quoteWords first ∨
      front = Addition.parenthesize (s.dialect.quoteWords first) ∧
        s.dialect.isIdentifier (s.dialect.quoteWords first) = false)
    (word : first.IsWord) (named : s.dialect.isName first = true ∨ s.maxNesting ≠ 0)
    (readable : ∀ l ∈ ls, l.IsReadable s.dialect) (distinct : (first :: ls.map Link.table).Nodup) :
    splitTables s ps =
      .ok ⟨(first :: ls.map Link.table).map fun t => (t, s.dialect.quoteWords t)⟩ := by
  have tables : TableList.tables s (s.maxNesting + 1) (front ++ Link.chain s.dialect ls) =
      .ok ((first :: ls.map Link.table).map fun t => (t, s.dialect.quoteWords t)) := by
    rw [List.map_cons, List.map_map]
    rcases hfront with rfl | ⟨rfl, other⟩
    · exact Link.tables_chain word readable s.maxNesting
    · obtain ⟨plain, unnamed⟩ :=
        (Dialect.isIdentifier_quoteWords (d := s.dialect) word).resolve_left (by simp [other])
      obtain ⟨room, hr⟩ := Nat.exists_eq_succ_of_ne_zero (named.resolve_left (by simp [unnamed]))
      have select : Text.isKeyword "SELECT" first = false := by
        by_contra keyword
        have listed : Text.isAnyKeyword ["SELECT"] first = true := by
          simpa [Text.isAnyKeyword] using keyword
        have name := (Dialect.isName_of_isAnyKeyword (d := s.dialect) listed (by decide)).1
        rw [unnamed] at name
        cases name
      have read := Link.tables_group word plain select readable room
      rw [plain] at read ⊢
      rw [hr]
      exact read
  have part : tablePart ps = .ok (front ++ Link.chain s.dialect ls) := by
    rw [tablePart, unlisted, text]
    rfl
  rw [splitTables, part]
  change (TableList.tables s (s.maxNesting + 1) _ >>= _ : Except Error _) = _
  rw [tables]
  exact congrArg Except.ok (OrderedMap.ofList_eq (by simpa [Function.comp_def] using distinct))

namespace Query
variable {q q' : Query} {base composed : Parts} {log : List Entry} {ls : List Link} {first : Text}

/-- What a table that replaces the others and the links behind it are composed to. -/
theorem Holds.exists_chain {key : String} (holds : q.Holds log)
    (unadded : q.additions.get? key = none) (hk : key ∈ ["from", "into", "table"])
    (holds' : q'.Holds (log ++ (key, .replace, q'.settings.dialect.quoteWords first) ::
      ls.map fun l => (key, .append, l.text q'.settings.dialect)))
    (after : q'.composeFrom base = .ok composed) (word : first.IsWord)
    (readable : ∀ l ∈ ls, l.IsReadable q'.settings.dialect) :
    ∃ front ls', (front = q'.settings.dialect.quoteWords first ∨
        front = Addition.parenthesize (q'.settings.dialect.quoteWords first) ∧
          q'.settings.dialect.isIdentifier (q'.settings.dialect.quoteWords first) = false) ∧
      (∀ l ∈ ls', l.IsReadable q'.settings.dialect) ∧ ls'.map Link.table = ls.map Link.table ∧
      composed.get? key = some (front ++ Link.chain q'.settings.dialect ls') := by
  generalize hd : q'.settings.dialect = d at *
  have apart : "columns" ≠ key ∧ duplicateKey ≠ key := by
    constructor <;> rintro rfl <;> exact absurd hk (by decide)
  obtain ⟨some, plain⟩ := Dialect.mem_quoteWords (d := d) word
  have trimmed : Text.trim (d.quoteWords first) = d.quoteWords first :=
    Text.trimWhere_of_ends (fun c hc => (plain c (List.mem_of_mem_head? hc)).1)
      fun c hc => (plain c (List.mem_of_mem_getLast? hc)).1
  have nothing := Addition.of?_eq_none ((holds.additions key).symm.trans unadded)
  obtain ⟨replaced, prepended, appended⟩ := Link.side_entries (d := d) key (d.quoteWords first) ls
  have sides (side : Placement) (more : List Entry) : Entry.side key side (log ++ more) =
      Entry.side key side log ++ Entry.side key side more := List.filterMap_append
  have replacement : q'.replacements.get? key = .some (d.quoteWords first) := by
    rw [holds'.replacements, sides, replaced, List.getLast?_concat]
  have added : q'.additions.get? key = Addition.of? [] (ls.map (Link.text d)) := by
    rw [holds'.additions, sides, sides, nothing.1, nothing.2, prepended, appended]
    rfl
  have mutated : q'.isMutated = true := holds'.isMutated_of_ne_nil (by simp)
  rw [get?_composeFrom holds'.nodup after mutated apart.1 apart.2, rewritten, added, replacement]
  by_cases none : ls = []
  · subst none
    exact ⟨_, [], .inl rfl, readable, rfl, by simp [Addition.of?, trimmed, Link.chain]⟩
  · obtain ⟨front, hfront, existing, filled, free⟩ : ∃ front, (front = d.quoteWords first ∨
        front = Addition.parenthesize (d.quoteWords first) ∧
          d.isIdentifier (d.quoteWords first) = false) ∧
        (if (d.quoteWords first).isEmpty || d.isIdentifier (d.quoteWords first) then
          d.quoteWords first else Addition.parenthesize (d.quoteWords first)) = front ∧
        front ≠ [] ∧ ∀ c ∈ front, Text.isWhite c = false ∧ c ≠ ',' := by
      have name : ∀ c ∈ d.quoteWords first, Text.isWhite c = false ∧ c ≠ ',' :=
        fun c hc => ⟨(plain c hc).1, (plain c hc).2.1⟩
      cases identifier : d.isIdentifier (d.quoteWords first) with
      | true => exact ⟨_, .inl rfl, by simp, some, name⟩
      | false =>
          refine ⟨_, .inr ⟨rfl, rfl⟩, by simp [some], by simp [Addition.parenthesize], ?_⟩
          refine List.forall_mem_cons.mpr ⟨by decide, List.forall_mem_append.mpr ⟨name, ?_⟩⟩
          exact List.forall_mem_singleton.mpr (by decide)
    have merged : (⟨[], ls.map (Link.text d)⟩ : Addition).merge? d key (d.quoteWords first) =
        .some (Text.trimWhere (fun c => c == ' ' || c == ',') (front ++ Link.chain d ls)) := by
      rw [Addition.merge?_tables hk, Addition.tables, existing, Addition.spaced_eq,
        ← Link.joinWith_text]
      rfl
    have padding : ∀ c, (c == ' ' || c == ',') = true → Text.isWhite c = true ∨ c = ',' := by
      intro c hc
      rw [Bool.or_eq_true, beq_iff_eq, beq_iff_eq] at hc
      rcases hc with rfl | rfl
      · exact .inl (by decide)
      · exact .inr rfl
    obtain ⟨ls₁, readable₁, tables₁, text₁⟩ := Link.exists_trimWhere padding filled free readable
    obtain ⟨ls₂, readable₂, tables₂, text₂⟩ :=
      Link.exists_trimWhere (p := Text.isWhite) (fun c hc => .inl hc) filled free readable₁
    refine ⟨front, ls₂, hfront, readable₂, tables₂.trans tables₁, ?_⟩
    have texts : Addition.of? [] (ls.map (Link.text d)) = .some ⟨[], ls.map (Link.text d)⟩ := by
      simp [Addition.of?, none]
    rw [texts, Option.bind_some, Option.some_or, Option.getD_some, trimmed, hd, merged, text₁]
    exact congrArg Option.some text₂

/-- Tables that are set and joined are read back, in the order of the calls, and no others are.
Join conditions may hold anything that leaves them balanced and has neither a comma nor join syntax
outside of literals and groups. -/
theorem Reachable.tables_joined (h : q.Reachable) (hd : q.type? = some .select)
    (hb : q.baseParts = .ok base) (unadded : q.additions.get? "from" = none) (word : first.IsWord)
    (named : q.settings.dialect.isName first = true ∨ q.settings.maxNesting ≠ 0)
    {joins : List Join} (readable : ∀ j ∈ joins, j.IsReadable q.settings)
    (distinct : (first :: joins.map Join.table).Nodup) :
    ∃ q', (do
        Edit.mutate (.table [] first [] {})
        forM joins fun j => Edit.mutate j.appended : Edit Unit).run q = .ok () q' ∧
      Edit.tables.answer q' = .ok ⟨(first :: joins.map Join.table).map fun t =>
        (t, q.settings.dialect.quoteWords t)⟩ := by
  obtain ⟨p, hp⟩ : ∃ p, Pattern.ofType? q.settings.dialect .select = some p := ⟨_, rfl⟩
  have known : "limit" ∈ p.steps.filterMap Step.key? ∧ "from" ∈ p.steps.filterMap Step.key? ∧
      "table" ∉ p.steps.filterMap Step.key? := by
    cases hp
    cases q.settings.dialect <;> decide
  obtain ⟨hl, hf, ht⟩ := known
  have part : q.tablePart = "from" := by rw [Query.tablePart, hd]
  have pageable := h.pageable hd hp hl
  have keys := pageable.keys_baseParts hd hp hl hb
  have inside : base.contains q.tablePart = true :=
    OrderedMap.contains_iff.mpr (part ▸ keys ▸ hf)
  obtain ⟨log, holds, rest⟩ := pageable.entries
  obtain ⟨q₁, run₁, sound₁, base₁, attached₁, holds₁⟩ :=
    Join.exists_run_table h.sound holds hb inside (Change.ofTable_word q word)
  obtain ⟨settings₁, statement₁, part₁⟩ := eq_of_base_eq base₁
  have hb₁ := (baseParts_congr base₁ attached₁).trans hb
  obtain ⟨q', ls, run, sound', base', attached', readable', tables, holds'⟩ :=
    Join.exists_run_forM sound₁ holds₁ hb₁ (part₁ ▸ inside) (settings₁ ▸ readable)
  obtain ⟨settings', statement', -⟩ := eq_of_base_eq base'
  have settings := settings'.trans settings₁
  have statement := statement'.trans statement₁
  rw [part₁, part, settings₁, ← settings, List.append_assoc, List.singleton_append] at holds'
  rw [settings₁, ← settings] at readable'
  have hd' : q'.type? = some .select := by rw [type?, settings, statement, ← type?, hd]
  have hb' := (baseParts_congr base' attached').trans hb₁
  have pageable' : q'.Pageable (p.steps.filterMap Step.key?) := by
    refine ⟨attached' ▸ attached₁ ▸ pageable.positive, _, holds',
      List.forall_mem_append.mpr ⟨rest, List.forall_mem_cons.mpr ⟨⟨hf, by simp⟩, ?_⟩⟩⟩
    exact List.forall_mem_map.mpr fun l _ => ⟨hf, by simp⟩
  obtain ⟨composed, hc, hparts⟩ := pageable'.exists_compose hd' (settings ▸ hp) hl hb'
  obtain ⟨front, ls', hfront, readable'', tables', text⟩ :=
    holds.exists_chain unadded (by decide) holds' hparts word readable'
  have unlisted : composed.get? "table" = none := by
    have untouched : ∀ e ∈ log ++ ("from", .replace, q'.settings.dialect.quoteWords first) ::
        ls.map (fun l => ("from", .append, l.text q'.settings.dialect)), e.1 ≠ "table" := by
      refine List.forall_mem_append.mpr ⟨fun e he at_key => ht (at_key ▸ (rest e he).1),
        List.forall_mem_cons.mpr ⟨by simp, List.forall_mem_map.mpr fun l _ => by simp⟩⟩
    have absent : base.get? "table" = none := OrderedMap.find?_eq_none_iff.mpr fun hm =>
      ht ((congrArg ("table" ∈ ·) keys).mp hm)
    rw [get?_composeFrom holds'.nodup hparts (holds'.isMutated_of_ne_nil (by simp)) (by decide)
      (by decide), holds'.rewritten_eq untouched, absent]
    rfl
  refine ⟨q', ?_, ?_⟩
  · rw [Edit.run_bind, run₁]
    exact run
  · rw [(Edit.reads_tables q').answer_self sound', hc, ← settings, ← tables, ← tables']
    refine splitTables_chain unlisted text hfront word (settings ▸ named) readable'' ?_
    rwa [tables', tables]

/-- Commas and join syntax in groups, literals and names do not end a condition. -/
theorem tables_joined_four :
    let q := ofStatement {} "SELECT * FROM x WHERE a.k > 0".toList
    let joins : List Join :=
      [⟨.inner, ['b'], "a.x = IF(b.y IN (1, 2), 'LEFT,', 0) ".toList, none⟩,
        ⟨.left, "null".toList, [], none⟩,
        ⟨.right, "d_2".toList, " CASE d_2.k WHEN 1 THEN a.k END = LOWER(b.left)".toList, none⟩]
    ∃ q', (do
        Edit.mutate (.table [] ['a'] [] {})
        forM joins fun j => Edit.mutate j.appended : Edit Unit).run q = .ok () q' ∧
      Edit.tables.answer q' = .ok ⟨[(['a'], "\x60a\x60".toList), (['b'], "\x60b\x60".toList),
        ("null".toList, "null".toList), ("d_2".toList, "\x60d_2\x60".toList)]⟩ := by
  intro q joins
  have reachable : q.Reachable := .start _ _
  have condition {t : Text} (on : Text) (quoted : quoteIdentifier {} .smart t = .ok on)
      (ends : Dialect.mysql.IsJoinCondition on) :
      t = [] ∨ ∃ on, quoteIdentifier {} .smart t = .ok on ∧ Dialect.mysql.IsJoinCondition on :=
    .inr ⟨on, quoted, ends⟩
  have readable : ∀ j ∈ joins, j.IsReadable q.settings := by
    refine List.forall_mem_cons.mpr ⟨⟨rfl, by decide, ?_⟩, List.forall_mem_cons.mpr
      ⟨⟨rfl, by decide, .inl rfl⟩, List.forall_mem_singleton.mpr ⟨rfl, by decide, ?_⟩⟩⟩
    · exact condition
        "\x60a\x60.\x60x\x60 = IF(\x60b\x60.\x60y\x60 IN (1, 2), 'LEFT,', 0) ".toList
        (by decide +kernel) (by decide +kernel)
    · have quoted : quoteIdentifier {} .smart
          " CASE d_2.k WHEN 1 THEN a.k END = LOWER(b.left)".toList =
          .ok (" CASE \x60d_2\x60.\x60k\x60 WHEN 1 THEN \x60a\x60.\x60k\x60 END".toList ++
            " = LOWER(\x60b\x60.\x60left\x60)".toList) := by
        decide +kernel
      exact condition _ quoted (by decide +kernel)
  have base : q.baseParts = .ok ⟨[("select", []), ("columns", ['*']), ("from", ['x']),
      ("where", "a.k > 0".toList), ("group by", []), ("having", []), ("order by", []),
      ("limit", []), ("options", [])]⟩ := by
    decide +kernel
  have word : Text.IsWord ['a'] := by decide
  obtain ⟨q', run, answer⟩ := reachable.tables_joined (by decide +kernel) base rfl word
    (.inl (by decide)) readable (by decide)
  exact ⟨q', run, answer.trans (by decide +kernel)⟩

/-- Under a condition that calls a function with the name of join syntax, there are tables that
nobody has joined. -/
theorem not_tables_joined :
    ¬∀ (q q' : Query) (base : Parts) (first : Text) (joins : List Join), q.Reachable →
      q.settings.dialect = .mysql → q.type? = some .select → q.baseParts = .ok base →
      q.additions.get? "from" = none → first.IsWord → q.settings.dialect.isName first = true →
      (∀ j ∈ joins, j.quote = none ∧ j.table.IsWord ∧ q.settings.dialect.isName j.table = true ∧
        (j.on = [] ∨ ∃ on, quoteIdentifier q.settings .smart j.on = .ok on ∧
          q.settings.dialect.isBalanced on = true ∧
          ',' ∉ (Nesting.ofText q.settings.dialect on).outside)) →
      (first :: joins.map Join.table).Nodup →
      (do
        Edit.mutate (.table [] first [] {})
        forM joins fun j => Edit.mutate j.appended : Edit Unit).run q = .ok () q' →
      Edit.tables.answer q' = .ok ⟨(first :: joins.map Join.table).map fun t =>
        (t, q.settings.dialect.quoteWords t)⟩ := by
  intro h
  have extra := h (ofStatement {} "SELECT * FROM x".toList) _
    ⟨[("select", []), ("columns", ['*']), ("from", ['x']), ("where", []), ("group by", []),
      ("having", []), ("order by", []), ("limit", []), ("options", [])]⟩ ['a']
    [⟨.inner, ['b'], "a.x = RIGHT(b.y, 2)".toList, none⟩] (.start _ _) rfl (by decide +kernel)
    (by decide +kernel) rfl (by decide) (by decide)
    (List.forall_mem_singleton.mpr ⟨rfl, by decide, by decide, .inr
      ⟨"\x60a\x60.\x60x\x60 = RIGHT(\x60b\x60.\x60y\x60, 2)".toList, by decide +kernel,
        by decide +kernel, by decide +kernel⟩⟩)
    (by decide) (Edit.run_of_answer_ok (by decide +kernel))
  exact absurd extra (by decide +kernel)

end Query
end SqlStatement
