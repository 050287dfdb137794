import SqlStatement.Proofs.Calling
import SqlStatement.Proofs.Conditioning
import SqlStatement.Proofs.Rewriting

/-!
# Parts that no call writes to

Mutations write to parts that the statement has, or fail and write nothing. So
a query without subqueries of its own keeps the parts of its statement in their
order. A part that nothing is written to keeps its text, but once something is
written to another part all parts are trimmed, a SELECT without columns selects
all, and the marker for a duplicate key stands for its assignments.
-/
namespace SqlStatement

theorem trim_of_mem_capturesOf {steps : List Step} {cs : List Choice} {p : String × Text}
    (h : p ∈ capturesOf steps cs) : Text.trim p.2 = p.2 := by
  obtain ⟨step, c, -, -, captured⟩ := mem_capturesOf h
  rw [captured]
  exact Text.trim_trim _

theorem Parts.get?_of_require {ps : Parts} {key : String} {wanted : Wanted} {w : Text}
    (h : require ps key wanted = .ok w) : ps.get? key = some w := by
  rw [require] at h
  split at h
  · rename_i text
    cases h
    exact text
  · cases h

/-- A statement without markers and semicolons is split into trimmed texts. -/
theorem trim_of_split {s : Settings} {t : Text} {stated : Parts} (hs : split s t = .ok stated)
    (unmarked : ¬Subquery.hashSub <:+: Piece.ofText s.dialect t) (semicolon : ';' ∉ t)
    {key : String} {w : Text} (hw : stated.get? key = some w) : Text.trim w = w := by
  obtain ⟨type, p, hd, hp⟩ := exists_pattern hs
  obtain ⟨-, cs, -, rfl⟩ := (split_eq_ok_iff hd hp unmarked semicolon).mp hs
  exact trim_of_mem_capturesOf (OrderedMap.mem_of_get? hw)

/-- The entries that a mutation leaves with a query, none if it fails. -/
def Mutation.made (q : Query) (m : Mutation) : List Entry :=
  match (Edit.mutate m).answer q, m.change?.answer q with
  | .ok _, .ok (some c) => c.fragments.map fun f => (c.part, f)
  | _, _ => []

namespace Query
variable {s : Settings} {t : Text} {log : List Entry} {q : Query} {stated composed : Parts}
  {key : String} {w : Text}

/-- The queries that mutations and questions make of a statement, whether they fail or not, with
what the mutations have written. -/
inductive Mutated (s : Settings) (t : Text) : List Entry → Query → Prop
  | start : Mutated s t [] (ofStatement s t)
  | mutate {log : List Entry} {q : Query} (m : Mutation) (h : Mutated s t log q) :
      Mutated s t (log ++ m.made q) (Edit.left (Edit.mutate m) q)
  | read {log : List Entry} {q : Query} {α : Type} (r : Reader α) (h : Mutated s t log q) :
      Mutated s t log (Edit.left r.run q)

/-- One mutation adds the entries that it makes. -/
theorem Recorded.left_mutate {ps : Parameters} (h : Recorded s t log ps q) (m : Mutation) :
    ∃ ps', Recorded s t (log ++ m.made q) ps' (Edit.left (Edit.mutate m) q) := by
  rw [Mutation.made, Edit.left, Edit.answer]
  cases run : (Edit.mutate m).run q with
  | error e q' =>
      obtain ⟨memo, sound, run' | ⟨c, run'⟩ | ⟨e', run'⟩⟩ := Edit.run_mutate_cases m h.sound
      · cases run.symm.trans run'
      · cases run.symm.trans run'
      · cases run.symm.trans run'
        refine ⟨ps, ?_⟩
        rw [List.append_nil]
        exact h.withMemo sound
  | ok _ q' =>
      obtain ⟨c, memo, answer, sound, ⟨rfl, rfl⟩ | ⟨change, base, rfl, hb, hc, rfl⟩⟩ :=
        Edit.run_mutate_ok h.sound run
      · have kept := h.withMemo sound
        rw [answer, List.append_nil]
        refine ⟨m.parameters ps, kept.base, kept.attached, congrArg m.parameters h.parameters,
          ⟨sound.base, sound.composed, sound.written⟩,
          ⟨kept.holds.nodup, kept.holds.replacements, kept.holds.additions⟩, kept.inside⟩
      · rw [answer]
        exact ⟨ps, (h.withMemo sound).applied ⟨base, h.baseParts_eq ▸ hb, hc⟩⟩

theorem Mutated.recorded (h : Mutated s t log q) : ∃ ps, Recorded s t log ps q := by
  induction h with
  | start => exact ⟨{}, recorded_ofStatement s t⟩
  | mutate m _ ih =>
      obtain ⟨ps, recorded⟩ := ih
      exact recorded.left_mutate m
  | read r _ ih =>
      obtain ⟨ps, recorded⟩ := ih
      obtain ⟨memo, sound, left⟩ := r.left_eq recorded.sound
      rw [left]
      exact ⟨ps, recorded.withMemo sound⟩

/-- What the composition makes of the text `w` that a part has once all changes are in place. -/
def Settles (s : Settings) (composed : Parts) (key : String) (w u : Text) : Prop :=
  if composed.keys.head? = some "select" ∧ key = "columns" ∧ Text.trim w = [] then u = ['*']
  else if key = duplicateKey ∧ Text.trim w = updateMarker then
    ∃ columns assignments, composed.get? "columns" = some (Text.trim columns) ∧
      (s.dialect.splitTopLevel columns).mapM (insertedAssignment s) = .ok assignments ∧
      u = Text.trim (Text.joinWith [',', ' '] assignments)
  else u = Text.trim w

theorem Holds.rewritten_eq {base : Parts} (h : q.Holds log) (untouched : ∀ e ∈ log, e.1 ≠ key) :
    q.rewritten base key = base.get? key := by
  have nothing (side : Placement) : Entry.side key side log = [] :=
    List.filterMap_eq_nil_iff.mpr fun e he => if_neg fun hk => untouched e he hk.1
  rw [rewritten, h.replacements, h.additions, nothing, nothing, nothing]
  rfl

/-- Whatever replacements and fragments make of a part settles in the composition. -/
theorem settles_composeFrom {base : Parts} (hs : split q.settings t = .ok base)
    (hn : q.replacements.keys.Nodup ∧ q.additions.keys.Nodup)
    (inside : (∀ key ∈ q.replacements.keys, key ∈ base.keys) ∧
      ∀ key ∈ q.additions.keys, key ∈ base.keys)
    (h : q.composeFrom base = .ok composed) (mutated : q.isMutated = true)
    (hw : q.rewritten base key = some w) :
    ∃ u, composed.get? key = some u ∧ Settles q.settings composed key w u := by
  have keys : (q.merged base).keys = composed.keys :=
    (keys_merged hn (nodup_keys_split hs) inside).trans (keys_composeFrom hs hn inside h).symm
  have merged := (get?_merged hn base key).trans hw
  by_cases duplicate : duplicateKey = key
  · subst duplicate
    rw [← get?_fillColumns _ (by decide)] at merged
    obtain ⟨expanded, expand, rfl⟩ := composeFrom_eq_ok h mutated
    rw [get?_mapValues_trim]
    obtain ⟨unmarked, rfl⟩ | ⟨w', columns, assignments, hw', marked, cut, assigned, rfl⟩ :=
      expandMarker_eq_ok expand
    · refine ⟨Text.trim w, by rw [merged]; rfl, ?_⟩
      rw [Settles, if_neg (by simp [duplicateKey]), if_neg fun h => unmarked w merged h.2]
    · cases merged.symm.trans hw'
      obtain ⟨text, required, cut⟩ := bind_eq_ok_iff.mp cut
      cases cut
      refine ⟨_, by rw [OrderedMap.get?_insert_self]; rfl, ?_⟩
      rw [Settles, if_neg (by simp [duplicateKey]), if_pos ⟨rfl, marked⟩]
      refine ⟨text, assignments, ?_, assigned, rfl⟩
      rw [get?_mapValues_trim, OrderedMap.get?_insert_of_ne _ (by decide),
        Parts.get?_of_require required]
      rfl
  · have settles (u : Text) : Settles q.settings composed key w u ↔
        if (q.merged base).keys.head? = some "select" ∧ key = "columns" ∧ Text.trim w = [] then
          u = ['*'] else u = Text.trim w := by
      have other : ¬(key = duplicateKey ∧ Text.trim w = updateMarker) :=
        fun h => duplicate h.1.symm
      rw [Settles, if_neg other, keys]
    simp only [get?_composeFrom_of_ne h mutated duplicate, settles]
    by_cases columns : "columns" = key
    · subst columns
      have text : Parts.text (q.merged base) "columns" = w := by rw [Parts.text, merged]; rfl
      rw [get?_fillColumns_columns, merged, text]
      by_cases blank : (q.merged base).keys.head? = some "select" ∧ Text.trim w = []
      · exact ⟨['*'], by rw [if_pos blank]; rfl, by rw [if_pos ⟨blank.1, rfl, blank.2⟩]⟩
      · refine ⟨Text.trim w, by rw [if_neg blank]; rfl, ?_⟩
        rw [if_neg fun h => blank ⟨h.1, h.2.2⟩]
    · refine ⟨Text.trim w, by rw [get?_fillColumns _ columns, merged]; rfl, ?_⟩
      rw [if_neg fun h => columns h.2.1.symm]

/-- A query without subqueries of its own has the parts of its statement in their order. A part
that nothing was written to has the text of the statement; once something was written elsewhere,
it is trimmed, the star if a SELECT names no columns, or expanded if it is the marker for a
duplicate key. Trimming concerns statements with markers or semicolons alone. -/
theorem Mutated.parts_preserved (h : Mutated s t log q) (hs : split s t = .ok stated)
    (answer : Edit.parts.answer q = .ok composed) :
    composed.keys = stated.keys ∧
      ∀ key w, stated.get? key = some w → (∀ e ∈ log, e.1 ≠ key) →
        ∃ u, composed.get? key = some u ∧ (log = [] → u = w) ∧
          (log ≠ [] → Settles s composed key w u) ∧
          (¬Subquery.hashSub <:+: Piece.ofText s.dialect t → ';' ∉ t → Text.trim w = w) := by
  obtain ⟨ps, recorded⟩ := h.recorded
  rw [(Edit.reads_parts q).answer_self recorded.sound, compose, recorded.baseParts_eq, hs] at answer
  change q.composeFrom stated = .ok composed at answer
  have settings := recorded.statement_eq.1
  have inside := recorded.keys_inside hs
  have nodup := recorded.holds.nodup
  refine ⟨keys_composeFrom hs nodup inside answer, fun key w hw untouched => ?_⟩
  have trimmed := fun unmarked semicolon => trim_of_split hs unmarked semicolon hw
  by_cases written : log = []
  · subst written
    rw [composeFrom, if_neg recorded.holds.not_isMutated] at answer
    cases answer
    exact ⟨w, hw, fun _ => rfl, fun h => absurd rfl h, trimmed⟩
  · have mutated := recorded.holds.isMutated_of_ne_nil written
    have kept : q.rewritten stated key = some w :=
      (recorded.holds.rewritten_eq untouched).trans hw
    obtain ⟨u, text, settles⟩ :=
      settles_composeFrom (settings.symm ▸ hs) nodup inside answer mutated kept
    exact ⟨u, text, fun h => absurd h written, fun _ => settings ▸ settles, trimmed⟩

/-- A row is added to an INSERT that updates all columns, after a limit is refused. -/
theorem parts_preserved_insert :
    let q := Edit.left (Edit.mutate (.rowText "3,4".toList {})) (Edit.left
      (Edit.mutate (.limit 5 0))
      (ofStatement {} "INSERT INTO t (a) VALUES (1) ON DUPLICATE KEY UPDATE 1".toList))
    ∃ composed, Edit.parts.answer q = .ok composed ∧
      composed.keys = ["insert", "into", "columns", "set", "values", "query", duplicateKey] ∧
      composed.get? "columns" = some ['a'] ∧
      ∃ u, composed.get? duplicateKey = some u ∧ Settles {} composed duplicateKey ['1'] u := by
  intro q
  obtain ⟨t, ht⟩ : ∃ t, t = "INSERT INTO t (a) VALUES (1) ON DUPLICATE KEY UPDATE 1".toList :=
    ⟨_, rfl⟩
  have parts : split {} t = .ok ⟨[("insert", []), ("into", ['t']), ("columns", ['a']),
      ("set", []), ("values", "(1)".toList), ("query", []), (duplicateKey, ['1'])]⟩ := by
    rw [ht]
    decide +kernel
  have answer : Edit.parts.answer q = .ok ⟨[("insert", []), ("into", ['t']), ("columns", ['a']),
      ("set", []), ("values", "(1), (3,4)".toList), ("query", []),
      (duplicateKey, "`a` = VALUES(`a`)".toList)]⟩ := by
    decide +kernel
  have log : (Mutation.limit 5 0).made (ofStatement {} t) ++
      (Mutation.rowText "3,4".toList {}).made
        (Edit.left (Edit.mutate (.limit 5 0)) (ofStatement {} t)) =
      [("values", .append, "3,4".toList)] := by
    rw [ht]
    decide +kernel
  have calls : Mutated {} t [("values", .append, "3,4".toList)] q := by
    have made := (Mutated.start (s := {}) (t := t)).mutate (.limit 5 0) |>.mutate
      (.rowText "3,4".toList {})
    rw [List.nil_append, log, ht] at made
    rwa [ht]
  obtain ⟨keys, untouched⟩ := calls.parts_preserved parts answer
  obtain ⟨u, text, -, settles, -⟩ := untouched duplicateKey ['1'] rfl (by decide)
  exact ⟨_, answer, keys, rfl, u, text, settles (by simp)⟩

/-- The text of a subquery keeps its last blank in a part, until something is written to another
part. -/
theorem not_parts_preserved :
    ¬∀ (s : Settings) (t : Text) (log : List Entry) (q : Query) (stated composed : Parts),
      Mutated s t log q → split s t = .ok stated → Edit.parts.answer q = .ok composed →
      ∀ key w, stated.get? key = some w → (∀ e ∈ log, e.1 ≠ key) →
        ¬(composed.keys.head? = some "select" ∧ key = "columns" ∧ Text.trim w = []) →
        ¬(key = duplicateKey ∧ Text.trim w = updateMarker) → composed.get? key = some w := by
  intro h
  obtain ⟨t, ht⟩ : ∃ t, t = "SELECT #sub1 FROM (SELECT x ) t".toList := ⟨_, rfl⟩
  have parts : split {} t = .ok ⟨[("select", []), ("columns", "SELECT x ".toList),
      ("from", "(SELECT x ) t".toList), ("where", []), ("group by", []), ("having", []),
      ("order by", []), ("limit", []), ("options", [])]⟩ := by
    rw [ht]
    decide +kernel
  have answer : Edit.parts.answer (Edit.left (Edit.mutate (.limit 5 0)) (ofStatement {} t)) =
      .ok ⟨[("select", []), ("columns", "SELECT x".toList),
        ("from", "(SELECT x ) t".toList), ("where", []), ("group by", []), ("having", []),
        ("order by", []), ("limit", ['5']), ("options", [])]⟩ := by
    rw [ht]
    decide +kernel
  have log : (Mutation.limit 5 0).made (ofStatement {} t) = [("limit", .replace, ['5'])] := by
    rw [ht]
    decide +kernel
  have call := (Mutated.start (s := {}) (t := t)).mutate (.limit 5 0)
  rw [List.nil_append, log] at call
  have kept := h {} t _ _ _ _ call parts answer "columns" "SELECT x ".toList rfl (by decide)
    (by decide +kernel) (by decide)
  exact absurd kept (by decide +kernel)

end Query
end SqlStatement
