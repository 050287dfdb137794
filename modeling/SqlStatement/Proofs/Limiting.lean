import SqlStatement.Proofs.Conditioning
import SqlStatement.Proofs.Paging

/-!
# Limits of queries

Whatever calls a query has seen, its limit is only ever replaced, so the last
limit is the one that counts. A page is a limit worked out of a row count; where
none is given it is read off the parts with all changes. A page that is out of
range fails and changes nothing, and so does one without any row count.
-/
namespace SqlStatement

theorem Edit.reads_rowLimit (q : Query) : Edit.rowLimit.Reads q (q.compose >>= splitLimit) :=
  reads_readParts splitLimit q

theorem Change.ofLimit_eq (rows offset : Nat) :
    ofLimit rows offset = ⟨"limit", [(.replace, RowLimit.written rows offset)]⟩ := rfl

/-- A limit is replaced and nothing is put beside it. -/
theorem Mutation.gives_limit (m : Mutation) :
    m.change?.Gives fun c => ∀ change ∈ c, change.part = "limit" →
      ∀ f ∈ change.fragments, f.1 = .replace := by
  have one {c : Change} (h : ∀ f ∈ c.fragments, f.1 = .replace) :
      (pure (some c) : Edit (Option Change)).Gives fun c => ∀ change ∈ c, change.part = "limit" →
        ∀ f ∈ change.fragments, f.1 = .replace := by
    refine Edit.gives_pure ?_
    rintro _ ⟨⟩ -
    exact h
  have limited (rows offset : Nat) :
      ∀ f ∈ (Change.ofLimit rows offset).fragments, f.1 = .replace := by
    simp [Change.ofLimit_eq]
  by_cases target : "limit" ∈ m.targets
  · cases m with
    | limit rows offset => exact .bind fun q => one (limited rows.toNat offset.toNat)
    | limitText t =>
        have replaced : ∀ f ∈ [(Placement.replace, Text.trim t)], f.1 = .replace := by simp
        exact .bind fun q => one (c := ⟨"limit", _⟩) replaced
    | page number count =>
        refine .bind fun q => (gives_pageChange number count).andThen ?_
        rintro _ ⟨rows, offset, rfl⟩
        exact one (limited rows offset)
    | _ => simp [targets, Query.duplicateKey] at target
  · exact (gives_targets m).imp fun c h change hc part => absurd (part ▸ h change hc) target

namespace Query
variable {q : Query} {type : StatementType} {base : Parts} {p : Pattern} {keys : List String}

/-- A query whose changes are made to parts with given keys and whose limit is only ever
replaced. -/
structure Pageable (keys : List String) (q : Query) : Prop where
  positive : 0 ∉ q.attached.map (·.1)
  entries : ∃ log, q.Holds log ∧ ∀ e ∈ log, e.1 ∈ keys ∧ (e.1 = "limit" → e.2.1 = .replace)

theorem Pageable.congr {q' : Query} (h : q.Pageable keys) (ha : q'.attached = q.attached)
    (hr : q'.replacements = q.replacements) (hd : q'.additions = q.additions) :
    q'.Pageable keys := by
  obtain ⟨log, holds, rest⟩ := h.entries
  refine ⟨ha ▸ h.positive, log, ⟨?_, ?_, ?_⟩, rest⟩
  · rw [hr, hd]
    exact holds.nodup
  · rw [hr]
    exact holds.replacements
  · rw [hd]
    exact holds.additions

theorem Pageable.applied (h : q.Pageable keys) {c : Change} (hc : c.part ∈ keys)
    (hl : c.part = "limit" → ∀ f ∈ c.fragments, f.1 = .replace) :
    (c.applied q).Pageable keys := by
  obtain ⟨log, holds, rest⟩ := h.entries
  obtain ⟨-, attached, -⟩ := c.unchanged_applied q
  refine ⟨attached ▸ h.positive, log ++ c.fragments.map (c.part, ·), holds.applied c,
    List.forall_mem_append.mpr ⟨rest, fun e he => ?_⟩⟩
  obtain ⟨f, hf, rfl⟩ := List.mem_map.mp he
  exact ⟨hc, fun part => hl part f hf⟩

/-- A type of statements with a limit hides subqueries and has nothing for duplicate keys. -/
theorem duplicateKey_not_mem_of_limit {d : Dialect} (hp : Pattern.ofType? d type = some p)
    (hl : "limit" ∈ p.steps.filterMap Step.key?) :
    type ∈ [.select, .update, .delete] ∧ duplicateKey ∉ p.steps.filterMap Step.key? := by
  cases type with
  | other phrase => simp [Pattern.ofType?] at hp
  | _ =>
      cases hp
      revert hl
      cases d <;> decide

/-- A mutation of a query with a limit replaces it or writes to another part. -/
theorem Pageable.mutate (h : q.Pageable (p.steps.filterMap Step.key?)) (sound : q.Sound)
    (hd : q.type? = some type) (hp : Pattern.ofType? q.settings.dialect type = some p)
    (hl : "limit" ∈ p.steps.filterMap Step.key?) (m : Mutation) :
    (Edit.left (Edit.mutate m) q).Pageable (p.steps.filterMap Step.key?) := by
  obtain ⟨ht, -⟩ := duplicateKey_not_mem_of_limit hp hl
  rw [Edit.left]
  cases run : (Edit.mutate m).run q with
  | error e q' =>
      obtain ⟨memo, -, run' | ⟨c, run'⟩ | ⟨e', run'⟩⟩ := Edit.run_mutate_cases m sound
      · cases run.symm.trans run'
      · cases run.symm.trans run'
      · cases run.symm.trans run'
        exact h.congr rfl rfl rfl
  | ok _ q' =>
      obtain ⟨c, memo, answer, -, ⟨rfl, rfl⟩ | ⟨change, base, rfl, hb, hc, rfl⟩⟩ :=
        Edit.run_mutate_ok sound run
      · exact h.congr rfl rfl rfl
      · obtain ⟨p', hp', keys⟩ := exists_keys_baseParts h.positive ht hd hb
        cases hp.symm.trans hp'
        rw [OrderedMap.contains_iff, keys] at hc
        have kept : (q.withMemo memo).Pageable (p.steps.filterMap Step.key?) :=
          h.congr rfl rfl rfl
        exact kept.applied hc (m.gives_limit q _ _ (Edit.run_of_answer_ok answer) change rfl)

theorem Reachable.pageable (h : q.Reachable) (hd : q.type? = some type)
    (hp : Pattern.ofType? q.settings.dialect type = some p)
    (hl : "limit" ∈ p.steps.filterMap Step.key?) : q.Pageable (p.steps.filterMap Step.key?) := by
  induction h with
  | start s t =>
      exact ⟨by simp [ofStatement], [], ⟨⟨List.nodup_nil, List.nodup_nil⟩, fun _ => rfl,
        fun _ => rfl⟩, by simp⟩
  | @call q c h ih =>
      have base := c.base_left h.sound
      simp only [Query.base, ofStatement, mk.injEq] at base
      rw [type?, base.1, base.2.1] at hd
      rw [base.2.1] at hp
      have before := ih hd hp
      cases c with
      | mutate m => exact before.mutate h.sound hd hp hl m
      | subquery number edit =>
          rw [Call.run, Edit.left, Edit.run_subquery]
          cases hsub : q.subquery number with
          | error e => exact before
          | ok sub =>
              obtain ⟨log, holds, rest⟩ := before.entries
              exact ⟨positive_of_subquery before.positive hsub, log,
                ⟨holds.nodup, holds.replacements, holds.additions⟩, rest⟩
  | read r h ih =>
      obtain ⟨memo, -, left⟩ := r.left_eq h.sound
      rw [left] at hd hp ⊢
      exact (ih hd hp).congr rfl rfl rfl

/-- The statement of a query with a limit has the parts of its type. -/
theorem Pageable.keys_baseParts (h : q.Pageable keys) (hd : q.type? = some type)
    (hp : Pattern.ofType? q.settings.dialect type = some p)
    (hl : "limit" ∈ p.steps.filterMap Step.key?) (hb : q.baseParts = .ok base) :
    base.keys = p.steps.filterMap Step.key? := by
  obtain ⟨p', hp', keys⟩ := exists_keys_baseParts h.positive (duplicateKey_not_mem_of_limit hp hl).1
    hd hb
  cases hp.symm.trans hp'
  exact keys

/-- A query with a limit says nothing of duplicate keys, so composing it cannot fail. -/
theorem Pageable.exists_compose (h : q.Pageable (p.steps.filterMap Step.key?))
    (hd : q.type? = some type) (hp : Pattern.ofType? q.settings.dialect type = some p)
    (hl : "limit" ∈ p.steps.filterMap Step.key?) (hb : q.baseParts = .ok base) :
    ∃ composed, q.compose = .ok composed ∧ q.composeFrom base = .ok composed := by
  obtain ⟨-, unnamed⟩ := duplicateKey_not_mem_of_limit hp hl
  obtain ⟨log, holds, rest⟩ := h.entries
  have unmarked : (fillColumns (q.merged base)).get? duplicateKey = none := by
    rw [get?_fillColumns _ (by decide), get?_merged holds.nodup,
      holds.rewritten_eq fun e he at_key => unnamed ((congrArg (· ∈ _) at_key).mp (rest e he).1)]
    exact OrderedMap.find?_eq_none_iff.mpr fun hm =>
      unnamed ((congrArg (duplicateKey ∈ ·) (h.keys_baseParts hd hp hl hb)).mp hm)
  obtain ⟨parts, hparts⟩ : ∃ parts, q.composeFrom base = .ok parts :=
    exists_composeFrom ⟨_, expandMarker_of_ne (by simp [unmarked])⟩
  refine ⟨parts, ?_, hparts⟩
  rw [compose, hb]
  exact hparts

/-- Where the limit is written, the last limit is the one that is there. -/
theorem Pageable.compose_applied (h : q.Pageable (p.steps.filterMap Step.key?))
    (hd : q.type? = some type) (hp : Pattern.ofType? q.settings.dialect type = some p)
    (hl : "limit" ∈ p.steps.filterMap Step.key?) (hb : q.baseParts = .ok base)
    (rows offset : Nat) :
    ∃ composed, ((Change.ofLimit rows offset).applied q).compose = .ok composed ∧
      composed.get? "limit" = some (RowLimit.written rows offset) := by
  rw [Change.ofLimit_eq]
  obtain ⟨log, holds, rest⟩ := h.entries
  have limited := h.applied (c := ⟨"limit", [(.replace, RowLimit.written rows offset)]⟩) hl
    fun _ => by simp
  obtain ⟨composed, hc, hparts⟩ := limited.exists_compose hd hp hl hb
  have applied := holds.applied ⟨"limit", [(.replace, RowLimit.written rows offset)]⟩
  rw [List.map_singleton] at applied
  have side {placement : Placement} (hs : placement ≠ .replace) :
      Entry.side "limit" placement (log ++ [("limit", .replace, RowLimit.written rows offset)]) =
        [] := by
    refine List.filterMap_eq_nil_iff.mpr fun e he => if_neg fun at_limit => hs ?_
    rcases List.mem_append.mp he with hm | hm
    · exact at_limit.2.symm.trans ((rest e hm).2 at_limit.1)
    · cases List.mem_singleton.mp hm
      exact at_limit.2.symm
  refine ⟨composed, hc, ?_⟩
  rw [get?_composeFrom applied.nodup hparts (applied.isMutated_of_ne_nil (by simp)) (by decide)
    (by decide), rewritten, applied.replacements, applied.additions, side (by simp),
    side (by simp)]
  simp [Entry.side, Addition.of?, RowLimit.trim_written]

/-- The limit that is written last is the one that is read. -/
theorem Pageable.rowLimit_applied (h : q.Pageable (p.steps.filterMap Step.key?))
    (sound : q.Sound) (hd : q.type? = some type)
    (hp : Pattern.ofType? q.settings.dialect type = some p)
    (hl : "limit" ∈ p.steps.filterMap Step.key?) (hb : q.baseParts = .ok base)
    (rows : UInt64) {offset : Nat} (ho : offset < UInt64.size) :
    Edit.rowLimit.answer ((Change.ofLimit rows.toNat offset).applied q) =
      .ok (.behind rows offset) := by
  obtain ⟨composed, hc, text⟩ := h.compose_applied hd hp hl hb rows.toNat offset
  have read : splitLimit composed = .ok (.behind rows offset) := by
    rw [splitLimit, Parts.require, text]
    have read := RowLimit.ofText_written rows.toNat_lt ho
    rwa [UInt64.ofNat_toNat] at read
  rw [(Edit.reads_rowLimit _).answer_self (Change.sound_applied _ sound), hc]
  exact read

end Query

/-- The change of a page whose row count is the one of the limit in given parts. -/
def Change.paged (page : UInt64) (ps : Parts) : Except Error Change :=
  let rows := Change.rowCount (Parts.text ps "limit")
  if rows = 0 then .error .unknownRowCount else ofPage page rows

namespace Mutation
variable {q : Query}

theorem reads_limit (rows offset : UInt64) (q : Query) :
    (limit rows offset).change?.Reads q
      ((Except.ok (Change.ofLimit rows.toNat offset.toNat)).map some) :=
  .get fun _ => Edit.reads_ofExcept (.ok (some (Change.ofLimit rows.toNat offset.toNat)))

theorem reads_page_some (number : UInt64) {rows : UInt64} (h : rows ≠ 0) (q : Query) :
    (page number (some rows)).change?.Reads q ((Change.ofPage number rows).map some) := by
  have given : (pageChange number (some rows)).Reads q (Change.ofPage number rows) := by
    rw [pageChange_some, if_neg h]
    exact Edit.reads_ofExcept _
  exact .get fun _ => given.bind fun c => Edit.reads_ofExcept (.ok (some c))

theorem reads_page_none (number : UInt64) (q : Query) :
    (page number none).change?.Reads q ((q.compose >>= Change.paged number).map some) := by
  have current : (pageChange number none).Reads q (q.compose >>= Change.paged number) := by
    refine (Edit.reads_parts q).bind fun ps => ?_
    rw [Change.paged]
    dsimp only
    split
    · exact Edit.reads_ofExcept (.error _)
    · exact Edit.reads_ofExcept _
  exact .get fun _ => current.bind fun c => Edit.reads_ofExcept (.ok (some c))

end Mutation

/-- A mutation whose change is known runs as the change does, if the part is there. -/
theorem Edit.run_mutate_of_reads {q : Query} {m : Mutation} {r : Except Error Change}
    {base : Parts} (sound : q.Sound) (hm : m.change?.Reads q (r.map some))
    (hb : q.baseParts = .ok base) (inside : ∀ c, r = .ok c → base.contains c.part = true) :
    ∃ memo, (q.withMemo memo).Sound ∧ (mutate m).run q =
      (ofExcept r >>= fun c => modify c.applied : Edit Unit).run (q.withMemo memo) := by
  obtain ⟨m₁, h₁, run₁⟩ := hm q.memo (q.withMemo_self.symm ▸ sound)
  rw [q.withMemo_self] at run₁
  rw [run_mutate, run₁]
  cases r with
  | error e => exact ⟨m₁, h₁, rfl⟩
  | ok c =>
      obtain ⟨m₂, h₂, run₂⟩ := reads_requirePart q c.part m₁ h₁
      refine ⟨m₂, h₂, ?_⟩
      change (commit c).run (q.withMemo m₁) = _
      rw [run_commit, run₂, hb]
      simp only [bind, Except.bind, inside c rfl]
      rfl

namespace Query
variable {q : Query} {type : StatementType} {base : Parts} {p : Pattern} {keys : List String}

/-- The statement of a query with a limit has a part for it. -/
theorem Pageable.contains_limit (h : q.Pageable keys) (hd : q.type? = some type)
    (hp : Pattern.ofType? q.settings.dialect type = some p)
    (hl : "limit" ∈ p.steps.filterMap Step.key?) (hb : q.baseParts = .ok base) :
    base.contains "limit" = true :=
  OrderedMap.contains_iff.mpr (h.keys_baseParts hd hp hl hb ▸ hl)

/-- A limit that is set is read back. -/
theorem Pageable.run_mutate (h : q.Pageable (p.steps.filterMap Step.key?)) (sound : q.Sound)
    (hd : q.type? = some type) (hp : Pattern.ofType? q.settings.dialect type = some p)
    (hl : "limit" ∈ p.steps.filterMap Step.key?) (hb : q.baseParts = .ok base) {m : Mutation}
    {rows : UInt64} {offset : Nat} (ho : offset < UInt64.size)
    (hm : m.change?.Reads q ((Except.ok (Change.ofLimit rows.toNat offset)).map some)) :
    ∃ q', (Edit.mutate m).run q = .ok () q' ∧
      Edit.rowLimit.answer q' = .ok (.behind rows offset) := by
  obtain ⟨memo, sound', run⟩ := Edit.run_mutate_of_reads sound hm hb fun c hc => by
    cases hc
    exact h.contains_limit hd hp hl hb
  have kept : (q.withMemo memo).Pageable (p.steps.filterMap Step.key?) := h.congr rfl rfl rfl
  exact ⟨_, run, kept.rowLimit_applied sound' hd hp hl hb rows ho⟩

/-- Where a limit can be read, a page without a row count takes the one that is read. -/
theorem reads_page_of_rowLimit {limit : RowLimit} (sound : q.Sound)
    (h : Edit.rowLimit.answer q = .ok limit) (page : UInt64) :
    (Mutation.page page none).change?.Reads q
      ((if limit.rows.getD 0 = 0 then .error .unknownRowCount
        else Change.ofPage page (limit.rows.getD 0)).map some) := by
  rw [(Edit.reads_rowLimit q).answer_self sound] at h
  obtain ⟨ps, hc, h⟩ := bind_eq_ok_iff.mp h
  obtain ⟨t, required, h⟩ := bind_eq_ok_iff.mp h
  have reads := Mutation.reads_page_none page q
  rw [hc] at reads
  change (Mutation.page page none).change?.Reads q ((Change.paged page ps).map some) at reads
  rwa [Change.paged, Parts.text, Parts.get?_of_require required, Option.getD_some,
    RowLimit.rowCount_of_ofText h] at reads

/-- A limit is read back as it was set, and so is a page, which succeeds exactly if its offset fits
into 64 bits; consecutive pages lie one behind the other. Wherever a limit can be read, a page
without a row count does what the page with the row count that is read does; without one, it fails
and changes nothing. -/
theorem Reachable.rowLimit_page (h : q.Reachable) (hd : q.type? = some type)
    (hp : Pattern.ofType? q.settings.dialect type = some p)
    (hl : "limit" ∈ p.steps.filterMap Step.key?) (hb : q.baseParts = .ok base) :
    (∀ rows offset, ∃ q', (Edit.mutate (.limit rows offset)).run q = .ok () q' ∧
      Edit.rowLimit.answer q' = .ok ⟨some rows, if offset = 0 then none else some offset⟩) ∧
    (∀ page rows, rows ≠ 0 →
      if rows.toNat * (max page.toNat 1 - 1) < UInt64.size then
        ∃ q', (Edit.mutate (.page page (some rows))).run q = .ok () q' ∧
          Edit.rowLimit.answer q' = .ok (.page page rows)
      else
        ∃ memo, (q.withMemo memo).Sound ∧ (Edit.mutate (.page page (some rows))).run q =
          .error (.pageOutOfRange page.toNat rows.toNat) (q.withMemo memo)) ∧
    (∀ (rows : UInt64) (k : Nat), k < UInt64.size → rows.toNat * (k - 1) < UInt64.size →
      ∀ {α : Type} (l : List α), (List.range k).flatMap (fun i =>
        (RowLimit.page (UInt64.ofNat (i + 1)) rows).window l) = l.take (rows.toNat * k)) ∧
    ∀ limit, Edit.rowLimit.answer q = .ok limit → ∀ page,
      if limit.rows.getD 0 = 0 then
        ∃ memo, (q.withMemo memo).Sound ∧ (Edit.mutate (.page page none)).run q =
          .error .unknownRowCount (q.withMemo memo)
      else
        (Edit.mutate (.page page none)).answer q =
            (Edit.mutate (.page page limit.rows)).answer q ∧
          (Edit.left (Edit.mutate (.page page none)) q).withMemo {} =
            (Edit.left (Edit.mutate (.page page limit.rows)) q).withMemo {} := by
  have pageable := h.pageable hd hp hl
  have sound := h.sound
  have inside {page rows : UInt64} {c : Change} (hc : Change.ofPage page rows = .ok c) :
      base.contains c.part = true := by
    obtain ⟨offset, rfl⟩ := Mutation.exists_of_ofPage hc
    exact pageable.contains_limit hd hp hl hb
  refine ⟨fun rows offset => ?_, fun page rows some_rows => ?_,
    fun rows k hk first α l => RowLimit.flatMap_window_page hk first l, fun limit read page => ?_⟩
  · obtain ⟨q', run, answer⟩ := pageable.run_mutate sound hd hp hl hb offset.toNat_lt
      (Mutation.reads_limit rows offset q)
    refine ⟨q', run, answer.trans ?_⟩
    simp [RowLimit.behind, ← UInt64.toNat_inj]
  · have offset : max page.toNat 1 - 1 = page.toNat - 1 := by omega
    have reads := Mutation.reads_page_some page some_rows q
    rw [Change.ofPage] at reads
    split
    · rename_i small
      rw [RowLimit.page]
      rw [offset] at small ⊢
      rw [if_pos small] at reads
      exact pageable.run_mutate sound hd hp hl hb small reads
    · rename_i large
      rw [offset] at large
      rw [if_neg large] at reads
      exact Edit.run_mutate_of_reads sound reads hb fun c hc => by cases hc
  · have reads := reads_page_of_rowLimit sound read page
    split
    · rename_i none
      rw [if_pos none] at reads
      exact Edit.run_mutate_of_reads sound reads hb fun c hc => by cases hc
    · rename_i some_rows
      obtain ⟨rows, hr⟩ : ∃ rows, limit.rows = some rows := by
        cases hr : limit.rows with
        | none => exact absurd (by rw [hr]; rfl) some_rows
        | some rows => exact ⟨rows, rfl⟩
      rw [if_neg some_rows, hr, Option.getD_some] at reads
      rw [hr, Option.getD_some] at some_rows
      rw [hr]
      obtain ⟨memo, -, run⟩ := Edit.run_mutate_of_reads sound reads hb fun c => inside
      obtain ⟨memo', -, run'⟩ := Edit.run_mutate_of_reads sound
        (Mutation.reads_page_some page some_rows q) hb fun c => inside
      rw [Edit.answer, Edit.answer, Edit.left, Edit.left, run, run']
      cases hc : Change.ofPage page rows with
      | error e => exact ⟨rfl, rfl⟩
      | ok c =>
          obtain ⟨offset, rfl⟩ := Mutation.exists_of_ofPage hc
          exact ⟨rfl, rfl⟩

/-- A limit with a comma is paged by the number behind it, and a page past the last offset is
refused. -/
theorem rowLimit_page_comma :
    let q := ofStatement {} "SELECT * FROM t LIMIT 20, 10".toList
    Edit.rowLimit.answer q = .ok ⟨some 10, some 20⟩ ∧
      (Edit.mutate (.page 4 none)).answer q = .ok () ∧
      Edit.toSql.answer (Edit.left (Edit.mutate (.page 4 none)) q) =
        .ok "SELECT * FROM t LIMIT 10 OFFSET 30".toList ∧
      (∃ q', (Edit.mutate (.page 4 (some 10))).run q = .ok () q' ∧
        Edit.rowLimit.answer q' = .ok (.page 4 10)) ∧
      (∃ memo, (Edit.mutate (.page 18446744073709551615 (some 10))).run q =
        .error (.pageOutOfRange 18446744073709551615 10) (q.withMemo memo)) := by
  intro q
  have reachable : q.Reachable := .start _ _
  have read : Edit.rowLimit.answer q = .ok ⟨some 10, some 20⟩ := by decide +kernel
  have select : q.type? = some .select := by decide +kernel
  have base : q.baseParts = .ok ⟨[("select", []), ("columns", ['*']), ("from", ['t']),
      ("where", []), ("group by", []), ("having", []), ("order by", []),
      ("limit", "20, 10".toList), ("options", [])]⟩ := by
    decide +kernel
  obtain ⟨-, paged, -, current⟩ := reachable.rowLimit_page select rfl (by decide +kernel) base
  have same := current _ read 4
  rw [if_neg (by decide)] at same
  have fits := paged 4 10 (by decide)
  have large := paged 18446744073709551615 10 (by decide)
  rw [if_pos (by decide)] at fits
  rw [if_neg (by decide)] at large
  obtain ⟨memo, -, refused⟩ := large
  refine ⟨read, same.1.trans ?_, by decide +kernel, fits, memo, refused⟩
  decide +kernel

end Query
end SqlStatement
