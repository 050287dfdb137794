import SqlStatement.Proofs.Conditioning

/-!
# Conditions side by side

All conditions of a part stand side by side, each in parentheses of its own, as
soon as there are two of them. Balanced texts close what they open, so the
parenthesis behind a condition is the one that closes the group in front of it,
whatever quotes and parentheses it has and whatever stands around it.
-/
namespace SqlStatement

namespace Text

/-- Joined texts, seen from one of them. -/
theorem joinWith_map_append_cons {separator : Text} (f : Text → Text) (before after : List Text)
    (t : Text) :
    joinWith separator ((before ++ t :: after).map f) =
      (before.flatMap fun b => f b ++ separator) ++
        (f t ++ after.flatMap fun a => separator ++ f a) := by
  have behind (t : Text) (after : List Text) : joinWith separator ((t :: after).map f) =
      f t ++ after.flatMap fun a => separator ++ f a := by
    induction after generalizing t with
    | nil => exact (List.append_nil _).symm
    | cons a after ih =>
        rw [List.map_cons, List.map_cons, joinWith_cons_cons, ← List.map_cons, ih,
          List.flatMap_cons, List.append_assoc, List.append_assoc]
  induction before with
  | nil => exact behind t after
  | cons b before ih =>
      obtain ⟨u, us, hu⟩ : ∃ u us, (before ++ t :: after).map f = u :: us :=
        List.exists_cons_of_ne_nil (by simp)
      rw [List.cons_append, List.map_cons, hu, joinWith_cons_cons, ← hu, ih, List.flatMap_cons,
        List.append_assoc, List.append_assoc, List.append_assoc]

end Text

namespace Addition

theorem trim_parenthesize (t : Text) : Text.trim (parenthesize t) = parenthesize t :=
  Text.trim_enclosed (by decide) (by decide) t

/-- Parentheses around each of several texts. -/
theorem parenthesize_joinWith {ts : List Text} (h : ts ≠ []) :
    parenthesize (Text.joinWith ") AND (".toList ts) =
      Text.joinWith " AND ".toList (ts.map parenthesize) := by
  induction ts with
  | nil => exact absurd rfl h
  | cons t ts ih =>
      cases ts with
      | nil => rfl
      | cons u ts =>
          rw [Text.joinWith_cons_cons, List.map_cons, List.map_cons, Text.joinWith_cons_cons,
            ← List.map_cons, ← ih (by simp)]
          simp [parenthesize]

theorem merge?_conditions {part : String} (hp : part ∈ ["where", "having"]) (d : Dialect)
    (a : Addition) (t : Text) : a.merge? d part t = a.conditions? t := by
  simp only [List.mem_cons, List.not_mem_nil, or_false] at hp
  rcases hp with rfl | rfl <;> simp [merge?]

/-- White characters around a text do not matter for the conditions around it. -/
theorem trim_getD_conditions? (prepend append : List Text) (w : Text) :
    Text.trim (((of? prepend append).bind fun a => a.conditions? (Text.trim w)).getD w) =
      Text.trim ((({ prepend, append } : Addition).conditions? (Text.trim w)).getD []) := by
  have blank (h : (Text.trim w).isEmpty = true) : Text.trim w = Text.trim [] :=
    (List.isEmpty_iff.mp h).trans rfl
  cases prepend with
  | nil =>
      cases append with
      | nil =>
          by_cases h : (Text.trim w).isEmpty = true
          · simpa [of?, conditions?, chain, h] using blank h
          · simp [of?, conditions?, chain, h]
      | cons t append =>
          by_cases h : (Text.trim w).isEmpty = true
          · cases append <;> simp [of?, conditions?, chain, h]
          · simp [of?, conditions?, chain, h]
  | cons t prepend =>
      change Text.trim ((conditions? { prepend := t :: prepend, append } (Text.trim w)).getD w) = _
      obtain ⟨u, hu⟩ :
          ∃ u, conditions? { prepend := t :: prepend, append } (Text.trim w) = some u := by
        rw [conditions?, chain, List.cons_append, List.cons_append]
        split
        · rename_i h
          cases h
        · exact ⟨_, rfl⟩
        · exact ⟨_, rfl⟩
      rw [hu]
      rfl

end Addition

/-- The group of a balanced text in parentheses closes behind it. -/
theorem Dialect.group?_parenthesize {d : Dialect} {t : Text} (h : d.isBalanced t = true)
    (rest : Text) : d.group? (Addition.parenthesize t ++ rest) = some (t, rest) := by
  have closed := group?_pieces (Nesting.closed_ofText h) (Nesting.lexed_group h rest)
  rw [Nesting.text_ofText, Piece.textOf_ofText] at closed
  refine Eq.trans (congrArg d.group? ?_) closed
  simp [Addition.parenthesize, Piece.text, Nesting.ofText]

theorem Dialect.isBalanced_flatMap_parenthesize {d : Dialect} {ts : List Text}
    (h : ∀ t ∈ ts, d.isBalanced t = true) :
    d.isBalanced (ts.flatMap fun t => Addition.parenthesize t ++ " AND ".toList) = true := by
  induction ts with
  | nil => exact isBalanced_nil
  | cons t ts ih =>
      rw [List.forall_mem_cons] at h
      have separator : d.isBalanced " AND ".toList = true := by cases d <;> decide +kernel
      exact isBalanced_append
        (isBalanced_append (isItem_parenthesize h.1).isBalanced separator) (ih h.2)

namespace Query
variable {part : String} {log : List (Placement × Text)} {q : Query}

/-- The texts that conditions put on one side. -/
def textsAt (side : Placement) (log : List (Placement × Text)) : List Text :=
  (log.filter (·.1 = side)).map (·.2)

/-- The conditions of a part: those put in front, its own text if there is one, and those put
behind. -/
def conjuncts (log : List (Placement × Text)) (w : Text) : List Text :=
  textsAt .prepend log ++ [Text.trim w].filter (! ·.isEmpty) ++ textsAt .append log

theorem chain_eq_conjuncts (log : List (Placement × Text)) (w : Text) :
    ({ prepend := textsAt .prepend log, append := textsAt .append log } : Addition).chain
      (Text.trim w) = conjuncts log w := by
  rw [Addition.chain, conjuncts]
  by_cases h : (Text.trim w).isEmpty = true
  · simp [h]
  · simp [h]

theorem isBalanced_of_mem_conjuncts {d : Dialect} {w : Text} (hw : d.isBalanced w = true)
    (hl : ∀ e ∈ log, d.isBalanced e.2 = true) :
    ∀ c ∈ conjuncts log w, d.isBalanced c = true := by
  have placed {side : Placement} : ∀ c ∈ textsAt side log, d.isBalanced c = true := by
    intro c hc
    obtain ⟨e, he, rfl⟩ := List.mem_map.mp hc
    exact hl e (List.mem_of_mem_filter he)
  intro c hc
  rw [conjuncts, List.mem_append, List.mem_append] at hc
  rcases hc with (hc | hc) | hc
  · exact placed c hc
  · rw [List.mem_singleton.mp (List.mem_of_mem_filter hc)]
    exact Dialect.isBalanced_trim hw
  · exact placed c hc

theorem side_eq_textsAt (side : Placement) (entries : List Entry) :
    Entry.side part side entries = textsAt side (Entry.on part entries) := by
  induction entries with
  | nil => rfl
  | cons e entries ih =>
      rw [Entry.side, Entry.on, textsAt, List.filterMap_cons, List.filterMap_cons, ← Entry.side,
        ← Entry.on, ih]
      by_cases hk : e.1 = part
      · by_cases hs : e.2.1 = side
        · simp [hk, hs, textsAt]
        · simp [hk, hs, textsAt]
      · simp [hk, textsAt]

/-- The parts with all changes, where no changes are left to be worked out. -/
theorem composeFrom_of_isMutated {base : Parts} (hm : q.isMutated = true)
    (hb : base.keys.Nodup) (hn : q.replacements.keys.Nodup ∧ q.additions.keys.Nodup)
    (hk : (∀ key ∈ q.replacements.keys, key ∈ base.keys) ∧
      ∀ key ∈ q.additions.keys, key ∈ base.keys) (hd : duplicateKey ∉ base.keys) :
    ∃ composed, q.composeFrom base = .ok composed ∧
      ∀ key, key ≠ "columns" → q.replacements.get? key = none →
        composed.get? key = (base.get? key).map fun t => Text.trim
          (((q.additions.get? key).bind fun a =>
            a.merge? q.settings.dialect key (Text.trim t)).getD t) := by
  have keys := keys_merged hn hb hk
  have silent : (fillColumns (q.merged base)).get? duplicateKey = none := by
    rw [get?_fillColumns _ (by decide), OrderedMap.get?, OrderedMap.find?_eq_none_iff]
    exact fun h => hd (keys ▸ h)
  refine ⟨(fillColumns (q.merged base)).mapValues Text.trim, ?_, fun key hc hr => ?_⟩
  · rw [composeFrom, if_pos hm]
    dsimp only
    rw [← merged, expandMarker, silent]
    rfl
  · rw [get?_mapValues_trim, get?_fillColumns _ hc.symm, get?_merged hn, rewritten, hr,
      Option.none_or]
    cases ht : base.get? key with
    | none =>
        have unadded : q.additions.get? key = none := by
          rw [OrderedMap.get?, OrderedMap.find?_eq_none_iff]
          exact fun h => OrderedMap.find?_eq_none_iff.mp ht (hk.2 key h)
        rw [unadded]
        rfl
    | some t =>
        rw [Option.getD_some, Option.map_some]
        generalize ((q.additions.get? key).bind fun a => _ : Option Text) = written
        cases written <;> rfl

theorem duplicateKey_not_mem_keys {s : Settings} {t : Text} {type : StatementType} {stated : Parts}
    (ht : type ∈ [.select, .update, .delete]) (hd : StatementType.detect s.dialect t = some type)
    (hs : split s t = .ok stated) : duplicateKey ∉ stated.keys := by
  obtain ⟨type', p, hd', hp, keys⟩ := exists_keys_split hs
  cases hd.symm.trans hd'
  rw [keys]
  simp only [List.mem_cons, List.not_mem_nil, or_false] at ht
  rcases ht with rfl | rfl | rfl
  · cases hp
    cases s.dialect <;> decide
  · cases hp
    cases s.dialect <;> decide
  · cases hp
    cases s.dialect <;> decide

/-- What is written for a part of conditions is what its conditions are merged to. -/
theorem Conditioned.exists_parts (h : Conditioned part log q) (hp : part ∈ ["where", "having"])
    (only : ∀ e ∈ log, e.1 ≠ .replace) {stated base : Parts}
    (hs : split q.settings q.statement = .ok stated) (has : stated.contains part = true)
    (hb : q.baseParts = .ok base) {t : Text}
    (ht : (({ prepend := textsAt .prepend log, append := textsAt .append log } :
      Addition).conditions? (Text.trim (Parts.text base part))).getD [] = t) :
    ∃ composed, Edit.parts.answer q = .ok composed ∧
      Text.trim (Parts.text composed part) = Text.trim t ∧
      (log ≠ [] → Parts.text composed part = Text.trim t) := by
  obtain ⟨type, conditional, hd⟩ := type_mem_of_contains hp hs has
  have tracks := h.tracks hp hs has
  obtain ⟨entries, holds, inside, tracked⟩ := tracks.entries
  have keys := keys_baseParts tracks.positive conditional hd hs hb
  obtain ⟨w, hw⟩ : ∃ w, base.get? part = some w := by
    rw [← Option.isSome_iff_exists]
    exact OrderedMap.contains_iff.mpr (keys ▸ OrderedMap.contains_iff.mp has)
  have text : Parts.text base part = w := by rw [Parts.text, hw, Option.getD_some]
  have sides (side : Placement) : Entry.side part side entries = textsAt side log := by
    rw [side_eq_textsAt, tracked]
  have added := holds.additions part
  rw [sides, sides] at added
  have merged := Addition.trim_getD_conditions? (textsAt .prepend log) (textsAt .append log) w
  rw [← text, ht, ← added, text] at merged
  rw [(Edit.reads_parts q).answer_self h.reachable.sound, compose, hb]
  change ∃ composed, q.composeFrom base = .ok composed ∧ _
  by_cases mutated : q.isMutated = true
  · obtain ⟨composed, made, values⟩ := composeFrom_of_isMutated mutated (keys ▸ nodup_keys_split hs)
      holds.nodup (keys.symm ▸ holds.keys_inside inside)
      (keys ▸ duplicateKey_not_mem_keys conditional hd hs)
    have kept : q.replacements.get? part = none := by
      rw [holds.replacements, sides, textsAt, List.filter_eq_nil_iff.mpr (by simpa using only)]
      rfl
    have value : Parts.text composed part = Text.trim t := by
      rw [Parts.text, values part (by rintro rfl; simp at hp) kept, hw]
      simpa [Addition.merge?_conditions hp] using merged
    exact ⟨composed, made, by rw [value, Text.trim_trim], fun _ => value⟩
  · have unchanged : q.additions.get? part = none := by
      rw [isMutated, Bool.or_eq_true, not_or] at mutated
      exact OrderedMap.isEmpty_iff.mp (by simpa using mutated.2) part
    rw [unchanged] at added merged
    refine ⟨base, by rw [composeFrom, if_neg mutated], text ▸ merged, fun some => absurd ?_ some⟩
    have empty : textsAt .prepend log = [] ∧ textsAt .append log = [] := by
      simpa [Addition.of?] using added.symm
    refine List.eq_nil_iff_forall_not_mem.mpr fun e he => ?_
    have placed : e.2 ∈ textsAt e.1 log :=
      List.mem_map_of_mem (List.mem_filter.mpr ⟨he, by simp⟩)
    cases side : e.1 with
    | prepend => simp [side, empty] at placed
    | append => simp [side, empty] at placed
    | replace => exact only e he side

/-- A single condition of a part stands alone. Several stand in the order of the calls around the
part of the statement, each in parentheses of its own, which close right behind it. -/
theorem Conditioned.parts_conjuncts (h : Conditioned part log q)
    (hp : part ∈ ["where", "having"]) (only : ∀ e ∈ log, e.1 ≠ .replace) {stated base : Parts}
    (hs : split q.settings q.statement = .ok stated) (has : stated.contains part = true)
    (hb : q.baseParts = .ok base)
    (balanced : q.settings.dialect.isBalanced (Parts.text base part) = true)
    (conditions : ∀ e ∈ log, q.settings.dialect.isBalanced e.2 = true) :
    ∃ composed, Edit.parts.answer q = .ok composed ∧
      (∀ c, conjuncts log (Parts.text base part) = [c] →
        Text.trim (Parts.text composed part) = Text.trim c ∧
          (log ≠ [] → Parts.text composed part = Text.trim c)) ∧
      (2 ≤ (conjuncts log (Parts.text base part)).length →
        Parts.text composed part = Text.joinWith " AND ".toList
            ((conjuncts log (Parts.text base part)).map Addition.parenthesize) ∧
          ∀ before c after, conjuncts log (Parts.text base part) = before ++ c :: after →
            let front := before.flatMap fun b => Addition.parenthesize b ++ " AND ".toList
            let behind := after.flatMap fun a => " AND ".toList ++ Addition.parenthesize a
            Parts.text composed part = front ++ (Addition.parenthesize c ++ behind) ∧
              q.settings.dialect.isBalanced front = true ∧
              q.settings.dialect.group? (Addition.parenthesize c ++ behind) =
                some (c, behind)) := by
  have texts := isBalanced_of_mem_conjuncts balanced conditions
  obtain ⟨composed, answer, trimmed, written⟩ := h.exists_parts hp only hs has hb rfl
  rw [Addition.conditions?, chain_eq_conjuncts] at trimmed written
  refine ⟨composed, answer, fun c hc => ?_, fun several => ?_⟩
  · rw [hc] at trimmed written
    exact ⟨trimmed, written⟩
  · have stands : Parts.text composed part = Text.joinWith " AND ".toList
        ((conjuncts log (Parts.text base part)).map Addition.parenthesize) := by
      obtain ⟨a, b, more, hc⟩ : ∃ a b more,
          conjuncts log (Parts.text base part) = a :: b :: more := by
        cases hc : conjuncts log (Parts.text base part) with
        | nil => simp [hc] at several
        | cons a more =>
            cases more with
            | nil => simp [hc] at several
            | cons b more => exact ⟨a, b, more, rfl⟩
      have added : log ≠ [] := by
        rintro rfl
        have single := List.length_filter_le (! ·.isEmpty) [Text.trim (Parts.text base part)]
        simp only [conjuncts, textsAt, List.filter_nil, List.map_nil, List.nil_append,
          List.append_nil] at several
        exact absurd (several.trans single) (by simp)
      rw [hc] at written ⊢
      rw [written added, Option.getD_some, Addition.trim_parenthesize,
        Addition.parenthesize_joinWith (by simp)]
    refine ⟨stands, fun before c after hc => ⟨?_, ?_, ?_⟩⟩
    · rw [stands, hc, Text.joinWith_map_append_cons]
    · rw [hc] at texts
      exact Dialect.isBalanced_flatMap_parenthesize fun b hb => texts b (by simp [hb])
    · rw [hc] at texts
      exact Dialect.group?_parenthesize (texts c (by simp)) _

/-- A parenthesis in a literal does not close the group of a condition, and the OR of the statement
stays apart from the conditions around it. -/
theorem parts_conjuncts_select :
    ∃ q composed, Conditioned "where"
        [(.prepend, "`d` = '('".toList), (.append, "f(`e`) > 1".toList)] q ∧
      Edit.parts.answer q = .ok composed ∧
      Parts.text composed "where" =
        "(`d` = '(') AND (b = 'x)' OR c) AND (f(`e`) > 1)".toList ∧
      q.settings.dialect.group? "(b = 'x)' OR c) AND (f(`e`) > 1)".toList =
        some ("b = 'x)' OR c".toList, " AND (f(`e`) > 1)".toList) := by
  obtain ⟨q, hq⟩ : ∃ q, q = ofStatement {} "SELECT a FROM t WHERE b = 'x)' OR c".toList := ⟨_, rfl⟩
  obtain ⟨front, hf⟩ : ∃ front, front = Call.mutate (.filter ⟨"d".toList,
      some (.text "(".toList)⟩ { placement := some .prepend }) := ⟨_, rfl⟩
  obtain ⟨behind, hb⟩ : ∃ behind, behind = Call.mutate (.filter ⟨"f(e) > 1".toList, none⟩ {}) :=
    ⟨_, rfl⟩
  obtain ⟨q', hq'⟩ : ∃ q', q' = Edit.left behind.run (Edit.left front.run q) := ⟨_, rfl⟩
  have logged : front.conditions "where" q = [(.prepend, "`d` = '('".toList)] ∧
      behind.conditions "where" (Edit.left front.run q) =
        [(.append, "f(`e`) > 1".toList)] := by
    rw [hq, hf, hb]
    decide +kernel
  have called : Conditioned "where"
      [(.prepend, "`d` = '('".toList), (.append, "f(`e`) > 1".toList)] q' := by
    have first : Conditioned "where" ([] ++ front.conditions "where" q) (Edit.left front.run q) :=
      .call front (hq ▸ .start _ _)
    rw [logged.1] at first
    have both := first.call behind
    rw [logged.2, ← hq'] at both
    exact both
  have stated : split q'.settings q'.statement = .ok ⟨[("select", []), ("columns", ['a']),
      ("from", ['t']), ("where", "b = 'x)' OR c".toList), ("group by", []), ("having", []),
      ("order by", []), ("limit", []), ("options", [])]⟩ := by
    rw [hq', hb, hf, hq]
    decide +kernel
  have based : q'.baseParts = split q'.settings q'.statement := by
    rw [hq', hb, hf, hq]
    decide +kernel
  have dialect : q'.settings.dialect = .mysql := by
    rw [hq', hb, hf, hq]
    decide +kernel
  obtain ⟨composed, answer, -, several⟩ := called.parts_conjuncts (by decide)
    (by decide) stated (by decide) (based.trans stated) (by rw [dialect]; decide +kernel)
    (by rw [dialect]; decide +kernel)
  obtain ⟨text, closes⟩ := several (by decide)
  refine ⟨q', composed, called, answer, text.trans (by decide), ?_⟩
  exact (closes ["`d` = '('".toList] "b = 'x)' OR c".toList ["f(`e`) > 1".toList] (by decide)).2.2

end Query
end SqlStatement
