import SqlStatement.Proofs.Binding
import SqlStatement.Proofs.Calling
import SqlStatement.Proofs.Items
import SqlStatement.Proofs.Recording

/-!
# Counts of queries with values

A count is built of the parts of a query before values are put in place of
placeholders, and the values are not taken along. So counting a query and
counting the statement that the query is written as are the same only where no
value concerns a part that the count reads.
-/
namespace SqlStatement

/-- Pairs that agree on the keys with a property are the same under these keys. -/
theorem OrderedMap.filter_congr {κ α : Type} [DecidableEq κ] {f : κ → Bool} {l l' : List (κ × α)}
    (keys : l'.map (·.1) = l.map (·.1)) (nodup : (l.map (·.1)).Nodup)
    (same : ∀ key ∈ l.map (·.1), f key = true → find? key l' = find? key l) :
    l'.filter (f ·.1) = l.filter (f ·.1) := by
  induction l generalizing l' with
  | nil => rw [List.map_eq_nil_iff.mp keys]
  | cons p l ih =>
      cases l' with
      | nil => cases keys
      | cons p' l' =>
          obtain ⟨key, value⟩ := p
          obtain ⟨key', value'⟩ := p'
          simp only [List.map_cons, List.cons.injEq] at keys
          obtain ⟨rfl, keys⟩ := keys
          rw [List.map_cons, List.nodup_cons] at nodup
          have rest := ih keys nodup.2 fun key inside wanted => by
            have other : key' ≠ key := fun he => nodup.1 (he ▸ inside)
            have value := same key (List.mem_cons_of_mem _ inside) wanted
            rwa [find?, find?, if_neg other, if_neg other] at value
          by_cases wanted : f key' = true
          · have value := same key' List.mem_cons_self wanted
            rw [find?, find?, if_pos rfl, if_pos rfl, Option.some.injEq] at value
            simp [wanted, rest, value]
          · simp [wanted, rest]

/-- Parts with the same keys that agree on the texts of some of them. -/
structure Parts.AgreeOn (keys : List String) (ps ps' : Parts) : Prop where
  keys_eq : ps'.keys = ps.keys
  get?_eq : ∀ key ∈ keys, ps'.get? key = ps.get? key

namespace Parts
variable {keys : List String} {ps ps' : Parts} {key : String}

namespace AgreeOn

theorem type?_eq (h : AgreeOn keys ps ps') : type? ps' = type? ps := by
  rw [type?, type?, h.keys_eq]

theorem text_eq (h : AgreeOn keys ps ps') (hk : key ∈ keys) : text ps' key = text ps key := by
  rw [text, text, h.get?_eq key hk]

theorem hasText_eq (h : AgreeOn keys ps ps') (hk : key ∈ keys) :
    hasText ps' key = hasText ps key := by
  rw [hasText, hasText, h.text_eq hk]

theorem splitLimit_eq (h : AgreeOn keys ps ps') (hk : "limit" ∈ keys) :
    splitLimit ps' = splitLimit ps := by
  rw [splitLimit, splitLimit, require, require, h.get?_eq _ hk, h.type?_eq]

theorem tables_eq (h : AgreeOn keys ps ps') (hk : ∀ key ∈ ["from", "into", "table"], key ∈ keys) :
    Count.tables ps' = Count.tables ps := by
  rw [Count.tables, Count.tables, h.type?_eq, h.get?_eq "from" (hk _ (by simp)),
    h.get?_eq "into" (hk _ (by simp)), h.get?_eq "table" (hk _ (by simp))]

theorem mono {keys' : List String} (h : AgreeOn keys ps ps') (hk : keys' ⊆ keys) :
    AgreeOn keys' ps ps' := ⟨h.keys_eq, fun key hm => h.get?_eq key (hk hm)⟩

/-- Agreement on all keys with a property that are there is agreement on all keys with it. -/
theorem of_filter {f : String → Bool} (h : AgreeOn (ps.keys.filter f) ps ps')
    (hk : ∀ key ∈ keys, f key = true) : AgreeOn keys ps ps' := by
  refine ⟨h.keys_eq, fun key hm => ?_⟩
  by_cases inside : key ∈ ps.keys
  · exact h.get?_eq key (List.mem_filter.mpr ⟨inside, hk key hm⟩)
  · rw [OrderedMap.get?, OrderedMap.get?, OrderedMap.find?_eq_none_iff.mpr inside,
      OrderedMap.find?_eq_none_iff.mpr fun hm => inside ((congrArg (key ∈ ·) h.keys_eq).mp hm)]

end AgreeOn

end Parts

namespace Count
variable {s : Settings} {ps ps' : Parts} {allRows : Bool}

/-- The parts that the counted column depends on. -/
def columnKeys (ps : Parts) : List String :=
  if Parts.type? ps ≠ some .select then []
  else if (Text.words (Parts.text ps "select")).any (Text.isKeyword "DISTINCT") then
    ["select", "columns"]
  else ["select", "group by"]

/-- The parts that a count of rows depends on. A SELECT with HAVING is counted as a whole. -/
def reads (ps : Parts) (allRows : Bool) : List String :=
  if Parts.type? ps = some .select ∧ Parts.hasText ps "having" = true then
    ps.keys.filter fun key => !(allRows && decide (key = "limit"))
  else
    ["query", "from", "into", "table", "where", "having"] ++
      ((if allRows then [] else ["limit"]) ++ columnKeys ps)

theorem column_agree (h : Parts.AgreeOn (columnKeys ps) ps ps') : column ps' = column ps := by
  rw [column, column, h.type?_eq]
  rw [columnKeys] at h
  by_cases select : Parts.type? ps ≠ some .select
  · rw [if_pos select, if_pos select]
  · rw [if_neg select] at h
    rw [if_neg select, if_neg select]
    by_cases distinct : (Text.words (Parts.text ps "select")).any (Text.isKeyword "DISTINCT") = true
    · rw [if_pos distinct] at h
      rw [h.text_eq (by simp), h.text_eq (by simp)]
      simp only [distinct, if_true]
    · rw [if_neg distinct] at h
      rw [h.text_eq (by simp : "select" ∈ _), h.text_eq (by simp : "group by" ∈ _),
        h.hasText_eq (by simp)]
      simp only [distinct, if_false, Bool.false_eq_true]

/-- The count of parts that name their tables themselves. -/
def ofNamed (ps : Parts) (allRows : Bool) : Except Error Text := do
  let tables ← Count.tables ps
  if Parts.type? ps = some .select ∧ Parts.hasText ps "having" then
    return Parts.join (Count.derived ps allRows)
  else
    let limit ← if !allRows && ps.contains "limit" then splitLimit ps else pure {}
    let column := Count.limited (Count.column ps) limit
    return Parts.join ⟨[("select", []), ("columns", column), ("from", tables),
      ("where", Parts.text ps "where")]⟩

theorem countStatement_eq : countStatement s ps allRows = source s ps >>= (ofNamed · allRows) :=
  rfl

/-- The tables, the condition, the limit and the column make up a count without HAVING. -/
theorem ofNamed_agree_of_not (h : Parts.AgreeOn (reads ps allRows) ps ps')
    (having : ¬(Parts.type? ps = some .select ∧ Parts.hasText ps "having" = true)) :
    ofNamed ps' allRows = ofNamed ps allRows := by
  rw [reads, if_neg having] at h
  have column := column_agree (h.mono fun key hk => by simp [hk])
  have tables := h.tables_eq (by simp)
  rw [ofNamed, ofNamed, tables, h.type?_eq, h.hasText_eq (by simp),
    h.text_eq (by simp : "where" ∈ _), column]
  simp only [if_neg having]
  cases allRows with
  | true => rfl
  | false =>
      rw [h.splitLimit_eq (by simp), OrderedMap.contains, h.get?_eq "limit" (by simp),
        ← OrderedMap.contains]

/-- A SELECT with HAVING is counted as a derived table, with or without its limit. -/
theorem ofNamed_agree_of_having (h : Parts.AgreeOn (reads ps allRows) ps ps')
    (nodup : ps.keys.Nodup)
    (having : Parts.type? ps = some .select ∧ Parts.hasText ps "having" = true) :
    ofNamed ps' allRows = ofNamed ps allRows := by
  rw [reads, if_pos having] at h
  have named : Parts.AgreeOn ["from", "into", "table", "having"] ps ps' := h.of_filter (by simp)
  have inner : (if allRows then ps'.erase "limit" else ps') =
      if allRows then ps.erase "limit" else ps := by
    have same := OrderedMap.filter_congr (f := fun key => !(allRows && decide (key = "limit")))
      h.keys_eq nodup fun key inside wanted => h.get?_eq key (List.mem_filter.mpr ⟨inside, wanted⟩)
    cases allRows with
    | true => simpa [OrderedMap.erase, bne] using same
    | false =>
        obtain ⟨l⟩ := ps
        obtain ⟨l'⟩ := ps'
        simpa using same
  rw [ofNamed, ofNamed, named.tables_eq (by simp), h.type?_eq, named.hasText_eq (by simp)]
  simp only [if_pos having, Count.derived, inner]

theorem source_of_not (h : ((Parts.type? ps).any StatementType.isInsertLike &&
    Parts.hasText ps "query") = false) : source s ps = .ok ps := by
  rw [source, if_neg (by simp [h])]

/-- Parts that agree on what a count reads have the same count. -/
theorem countStatement_agree (h : Parts.AgreeOn (reads ps allRows) ps ps')
    (nodup : ps.keys.Nodup) :
    countStatement s ps' allRows = countStatement s ps allRows := by
  have type := h.type?_eq
  rw [countStatement_eq, countStatement_eq]
  by_cases having : Parts.type? ps = some .select ∧ Parts.hasText ps "having" = true
  · have plain : ((Parts.type? ps).any StatementType.isInsertLike) = false := by
      rw [having.1]
      rfl
    have own : source s ps = .ok ps := source_of_not (by rw [plain]; rfl)
    have own' : source s ps' = .ok ps' := source_of_not (by rw [type, plain]; rfl)
    rw [own, own']
    exact ofNamed_agree_of_having h nodup having
  · have query : Parts.text ps' "query" = Parts.text ps "query" := by
      rw [reads, if_neg having] at h
      exact h.text_eq (by simp)
    have same := ofNamed_agree_of_not h having
    by_cases nested : ((Parts.type? ps).any StatementType.isInsertLike &&
        Parts.hasText ps "query") = true
    · rw [source, source, type, Parts.hasText, query, ← Parts.hasText]
      simp only [nested, if_true]
    · have own : source s ps = .ok ps := source_of_not (by simpa using nested)
      have own' : source s ps' = .ok ps' := by
        apply source_of_not
        rw [type, Parts.hasText, query, ← Parts.hasText]
        simpa using nested
      rw [own, own']
      exact same

end Count

namespace Parameters

/-- How many values the placeholders without names take. -/
def taken (template : List TemplatePart) : Nat :=
  template.countP fun part =>
    match part with
    | .hole p => p.name.isNone
    | .text _ => false

/-- Values put into one text after the other. What a text does not take is left to the next. -/
def bindAll (d : Dialect) (named : OrderedMap Text Value) :
    List Value → List (String × Text) → List (String × Text)
  | _, [] => []
  | vs, (key, t) :: rest =>
      let template := TemplatePart.ofStatement d t
      (key, fill d named vs template) :: bindAll d named (vs.drop (taken template)) rest

theorem keys_bindAll (d : Dialect) (named : OrderedMap Text Value) (vs : List Value)
    (l : List (String × Text)) : (bindAll d named vs l).map (·.1) = l.map (·.1) := by
  induction l generalizing vs with
  | nil => rfl
  | cons p l ih => rw [bindAll, List.map_cons, List.map_cons, ih]

end Parameters

namespace Query
variable {q : Query} {ps : Parts} {t : Text}

/-- The parts of a query with its values in place of placeholders. -/
def boundParts (q : Query) (ps : Parts) : Parts :=
  ⟨Parameters.bindAll q.settings.dialect q.parameters.named q.parameters.positional ps.toList⟩

theorem keys_boundParts (q : Query) (ps : Parts) : (q.boundParts ps).keys = ps.keys :=
  Parameters.keys_bindAll ..

/-- A query without changes and values is written as its statement. -/
theorem answer_toSql_ofStatement (s : Settings) (t : Text) :
    Edit.toSql.answer (ofStatement s t) = .ok t := by
  have sound : (ofStatement s t).Sound := sound_empty (ofStatement s t)
  rw [(Edit.reads_toSql _).answer_self sound,
    render_of_not_isMutated (by simp [isMutated, ofStatement, OrderedMap.isEmpty])]
  exact congrArg Except.ok (s.dialect.bind_empty t)

end Query

/-- A count is read off the parts with all changes. -/
theorem Edit.reads_count (q : Query) (allRows : Bool) :
    (Edit.count allRows).Reads q (q.compose >>= (countStatement q.settings · allRows) >>=
      fun t => .ok (.ofStatement q.settings t)) :=
  .get fun _ => ((reads_parts q).bind fun ps =>
    reads_ofExcept (countStatement q.settings ps allRows)).bind fun t =>
      reads_ofExcept (.ok (Query.ofStatement q.settings t))

namespace Query
variable {q : Query} {ps : Parts} {t : Text}

/-- The count of a query is the count of its parts as they are before values are put in place of
placeholders. It is the count of the statement that the query is written as if no value concerns a
part that is read. -/
theorem Reachable.count_toSql (h : q.Reachable) (parts : Edit.parts.answer q = .ok ps)
    (own : (Edit.toSql.answer q >>= split q.settings) = .ok (q.boundParts ps)) (allRows : Bool) :
    ((Edit.count allRows).answer q >>= Edit.toSql.answer) =
        countStatement q.settings ps allRows ∧
      ((∀ key ∈ Count.reads ps allRows, (q.boundParts ps).get? key = ps.get? key) →
        ((Edit.count allRows).answer q >>= Edit.toSql.answer) =
          (Edit.toSql.answer q >>= split q.settings) >>=
            (countStatement q.settings · allRows)) := by
  have counted : ((Edit.count allRows).answer q >>= Edit.toSql.answer) =
      countStatement q.settings ps allRows := by
    rw [(Edit.reads_parts q).answer_self h.sound] at parts
    rw [(Edit.reads_count q allRows).answer_self h.sound, parts]
    change countStatement q.settings ps allRows >>= (fun t => .ok (ofStatement q.settings t)) >>=
      Edit.toSql.answer = _
    cases countStatement q.settings ps allRows with
    | error e => rfl
    | ok t => exact answer_toSql_ofStatement q.settings t
  refine ⟨counted, fun alike => ?_⟩
  obtain ⟨t, -, stated⟩ := bind_eq_ok_iff.mp own
  have nodup : ps.keys.Nodup := q.keys_boundParts ps ▸ nodup_keys_split stated
  rw [counted, own]
  exact (Count.countStatement_agree ⟨q.keys_boundParts ps, alike⟩ nodup).symm

/-- A value among the columns does not concern the count. -/
theorem count_toSql_column :
    let q := Edit.left (Edit.mutate (.bind [.int 7]))
      (ofStatement {} "SELECT ? FROM t WHERE a = 1 LIMIT 5".toList)
    ((Edit.count false).answer q >>= Edit.toSql.answer) =
        (Edit.toSql.answer q >>= split q.settings) >>= (countStatement q.settings · false) ∧
      ((Edit.count false).answer q >>= Edit.toSql.answer) =
        .ok "SELECT LEAST(COUNT(*), 5) FROM t WHERE a = 1".toList := by
  intro q
  have reachable : q.Reachable := .call (.mutate (.bind [.int 7])) (.start _ _)
  obtain ⟨ps, hp⟩ : ∃ ps : Parts, ps = ⟨[("select", []), ("columns", ['?']), ("from", ['t']),
      ("where", "a = 1".toList), ("group by", []), ("having", []), ("order by", []),
      ("limit", ['5']), ("options", [])]⟩ := ⟨_, rfl⟩
  have parts : Edit.parts.answer q = .ok ps := by
    rw [hp]
    decide +kernel
  have own : (Edit.toSql.answer q >>= split q.settings) = .ok (q.boundParts ps) := by
    rw [hp]
    decide +kernel
  obtain ⟨counted, alike⟩ := reachable.count_toSql parts own false
  refine ⟨alike ?_, counted.trans ?_⟩
  · rw [hp]
    decide +kernel
  · rw [hp]
    decide +kernel

/-- A value in the condition is lost in the count. -/
theorem not_count_toSql :
    ¬∀ (q : Query) (ps : Parts), q.Reachable → Edit.parts.answer q = .ok ps →
      (Edit.toSql.answer q >>= split q.settings) = .ok (q.boundParts ps) → ∀ allRows,
        ((Edit.count allRows).answer q >>= Edit.toSql.answer) =
          (Edit.toSql.answer q >>= split q.settings) >>= (countStatement q.settings · allRows) := by
  intro h
  obtain ⟨ps, hp⟩ : ∃ ps : Parts, ps = ⟨[("select", []), ("columns", ['*']),
      ("from", "foo".toList), ("where", "id = ?".toList), ("group by", []), ("having", []),
      ("order by", []), ("limit", []), ("options", [])]⟩ := ⟨_, rfl⟩
  have lost := h (Edit.left (Edit.mutate (.bind [.int 5]))
    (ofStatement {} "SELECT * FROM foo WHERE id = ?".toList)) ps
    (.call (.mutate (.bind [.int 5])) (.start _ _)) (by rw [hp]; decide +kernel)
    (by rw [hp]; decide +kernel) false
  exact absurd lost (by decide +kernel)

end Query
end SqlStatement
