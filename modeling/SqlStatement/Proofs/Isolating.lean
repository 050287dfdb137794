import SqlStatement.Proofs.Preserving
import SqlStatement.Proofs.Reserving
import SqlStatement.Proofs.Substituting

/-!
# Calls that leave the other parts alone

What is written to the expressions of a SELECT may have any contents, as long as
each fragment keeps to itself where it goes. Then the statement that a query is
written as is split into the parts that the calls made, one by one: no fragment
ends its part early, opens another one, or reaches into the next. So the parts
that no call wrote to are those of the statement that the query began with.
-/
namespace SqlStatement
open Token

/-- The parts of a SELECT that expressions are written to. -/
def Parts.expressionKeys : List String :=
  ["columns", "from", "where", "group by", "having", "order by"]

theorem Parts.text_mapValues {f : Text → Text} (hf : f [] = []) (ps : Parts) (key : String) :
    text (ps.mapValues f) key = f (text ps key) := by
  have found : (ps.mapValues f).get? key = (ps.get? key).map f :=
    OrderedMap.find?_map (fun _ => f) key ps.toList
  rw [text, text, found]
  cases ps.get? key with
  | none => exact hf.symm
  | some w => rfl

namespace Pattern
variable {d : Dialect} {p : Pattern}

/-- The phrases that may stand behind a part. -/
def phrasesBehind (p : Pattern) (key : String) : List Phrase :=
  phrasesOf ((p.steps.dropWhile fun step => step.key? ≠ some key).drop 1)

/-- A key names one step, so what stands behind it is known. -/
theorem phrasesBehind_eq {key : String} {step : Step} {rest : List Step}
    (hn : (p.steps.filterMap Step.key?).Nodup) (hs : step :: rest <:+ p.steps)
    (hk : step.key? = some key) : p.phrasesBehind key = phrasesOf rest := by
  obtain ⟨front, he⟩ := hs
  rw [← he, List.filterMap_append, List.filterMap_cons_some hk] at hn
  have other : ∀ step ∈ front, decide (step.key? ≠ some key) = true := by
    intro step' hm
    rw [decide_eq_true_eq]
    intro same
    exact (List.nodup_append.mp hn).2.2 key (List.mem_filterMap.mpr ⟨step', hm, same⟩) key
      (List.mem_cons_self ..) rfl
  rw [phrasesBehind, ← he, List.dropWhile_append_of_pos other,
    List.dropWhile_cons_of_neg (by simp [hk])]
  rfl

theorem regular_select (hp : ofType? d .select = some p) :
    p.Regular "SELECT" "select" "columns" d.selectModifiers none (p.steps.drop 3) := by
  obtain ⟨k, hk, type, regular⟩ := exists_regular hp rfl
  cases StatementType.ofPhrase_injective "SELECT" (by decide) k hk type
  obtain ⟨key, value, phrases, most, regular⟩ := regular.resolve_right fun h => by simp at h
  have steps := regular.steps_eq
  cases hp
  cases steps
  exact regular

/-- The columns are a value, the other expressions are clauses behind it. -/
theorem exists_clause_select (hp : ofType? d .select = some p) :
    ∀ key ∈ Parts.expressionKeys, key ≠ "columns" →
      ∃ keyword rest, .clause key keyword :: rest <:+ p.steps.drop 3 := by
  cases hp
  intro key hk other
  simp only [Parts.expressionKeys, List.mem_cons, List.not_mem_nil, or_false, other,
    false_or] at hk
  rcases hk with rfl | rfl | rfl | rfl | rfl
  · exact ⟨_, _, [], rfl⟩
  · exact ⟨_, _, [_], rfl⟩
  · exact ⟨_, _, [_, _], rfl⟩
  · exact ⟨_, _, [_, _, _], rfl⟩
  · exact ⟨_, _, [_, _, _, _], rfl⟩

/-- Options are no expressions. -/
theorem not_mem_of_options_select (hp : ofType? d .select = some p) {key : String}
    {keywords : List Phrase} (hs : .options key keywords ∈ p.steps) :
    key ∉ Parts.expressionKeys := by
  cases hp
  simp only [List.mem_cons, reduceCtorEq, Step.options.injEq, List.not_mem_nil, or_false,
    false_or] at hs
  rw [hs.1]
  decide

/-- No phrase of a SELECT begins with the word between conditions. -/
theorem head?_phrasesBehind_select (hp : ofType? d .select = some p) :
    ∀ key ∈ Parts.expressionKeys, ∀ q ∈ p.phrasesBehind key, q.head? ≠ some "AND" := by
  cases hp
  cases d <;> decide

end Pattern

theorem Unled.of_nil (ts : List Token) : Unled [] ts := by
  rw [Unled]
  cases (ts.dropWhile Token.isSlack).head? <;> rfl

theorem Contained.unbarred {d : Dialect} {limit : Nat} {phrases words : List Phrase} {t : Text}
    (h : Contained d limit phrases words t) : Contained d limit phrases [] t :=
  ⟨h.isSealed, h.closed, h.quiet, .of_nil _, h.semicolon⟩

/-- The star is no word. -/
theorem Contained.star {d : Dialect} {limit : Nat} {phrases words : List Phrase} :
    Contained d limit phrases words ['*'] := by
  have veil : d.veil ['*'] = [.symbol '*'] := by cases d <;> decide +kernel
  have bare : Sealed d limit (d.veil ['*']) := by
    refine .of_veil (by rw [veil]; decide) (by cases d <;> decide +kernel) ?_
    have depth : (Nesting.ofText d ['*']).depth = 0 := by cases d <;> decide +kernel
    omega
  refine ⟨bare, ?_, ?_, ?_, ?_⟩ <;> rw [veil]
  · decide
  · exact Quiet.nil.append_cons (m := .symbol '*') .nil rfl fun hs => by cases hs
  · exact Unled.nil.append_cons (m := .symbol '*') rfl fun _ => .nil
  · decide

theorem Confined.trimWhere {d : Dialect} {limit : Nat} {phrases : List Phrase} {key : String}
    {t : Text} {p : Char → Bool} (hp : ∀ c, p c = true → Text.isSlack c = true)
    (h : Confined d limit phrases key t) :
    Confined d limit phrases key (Text.trimWhere p t) :=
  have ⟨contained, finished⟩ := h.contained.trimWhere hp
  ⟨contained, fun hk => finished (h.finished hk)⟩

/-- A SELECT that can be written to: it has the same parts when they are joined, no markers, no
semicolon, and no open parenthesis in front of SELECT; none of its expressions begins with a word
that would get another meaning, and its tables do not stop in the middle of a phrase. -/
structure Receptive (s : Settings) (p : Pattern) (t : Text) (stated : Parts) : Prop where
  isSelect : StatementType.detect s.dialect t = some .select
  pattern : Pattern.ofType? s.dialect .select = some p
  accepted : split s t = .ok stated
  again : split s (Parts.join stated) = .ok stated
  unmarked : ¬Subquery.hashSub <:+: Piece.ofText s.dialect t
  semicolon : ';' ∉ t
  shut : Shut (s.dialect.veil t)
  unled : ∀ key ∈ Parts.expressionKeys,
    Unled (s.dialect.barred key) (s.dialect.veil (Parts.text stated key))
  finished : Finished (p.phrasesBehind "from") (s.dialect.veil (Parts.text stated "from"))

namespace Receptive
variable {s : Settings} {p : Pattern} {t : Text} {stated parts : Parts} {key : String}
  (h : Receptive s p t stated)
include h

theorem hides : p.hidesSubqueries = true := by
  have pattern := h.pattern
  cases pattern
  rfl

theorem nodup : (p.steps.filterMap Step.key?).Nodup := Pattern.nodup_keys h.pattern

theorem keys_eq : stated.keys = p.steps.filterMap Step.key? := by
  obtain ⟨type, p', hd, hp, keys⟩ := exists_keys_split h.accepted
  cases h.isSelect.symm.trans hd
  cases h.pattern.symm.trans hp
  exact keys

theorem head?_keys : stated.keys.head? = some "select" := by
  rw [h.keys_eq, (Pattern.regular_select h.pattern).steps_eq]
  rfl

theorem columns_mem : "columns" ∈ stated.keys :=
  Query.columns_mem_keys_split h.accepted h.head?_keys

theorem duplicateKey_not_mem : Query.duplicateKey ∉ stated.keys := by
  have pattern := h.pattern
  rw [h.keys_eq]
  cases pattern
  cases s.dialect <;> decide

theorem phrasesBehind_columns : p.phrasesBehind "columns" = phrasesOf (p.steps.drop 3) :=
  Pattern.phrasesBehind_eq h.nodup ⟨[_, _], (Pattern.regular_select h.pattern).steps_eq.symm⟩
    (rfl : Step.key? (.value "columns") = _)

theorem phrasesBehind_clause {keyword : Phrase} {rest : List Step}
    (hs : .clause key keyword :: rest <:+ p.steps.drop 3) : p.phrasesBehind key = phrasesOf rest :=
  Pattern.phrasesBehind_eq h.nodup (hs.trans (List.drop_suffix 3 _)) rfl

/-- The expressions of the statement may be written to their parts. -/
theorem confined (hk : key ∈ Parts.expressionKeys) :
    Confined s.dialect s.maxNesting (p.phrasesBehind key) key (Parts.text stated key) := by
  obtain ⟨-, columns, fits⟩ := (Pattern.regular_select h.pattern).exists_parts h.isSelect
    h.pattern h.hides h.accepted h.unmarked h.semicolon h.shut
  have contained : Contained s.dialect s.maxNesting (p.phrasesBehind key) []
      (Parts.text stated key) := by
    by_cases value : key = "columns"
    · subst value
      rwa [h.phrasesBehind_columns]
    · obtain ⟨keyword, rest, hs⟩ := Pattern.exists_clause_select h.pattern key hk value
      rw [h.phrasesBehind_clause hs]
      exact fits _ _ hs
  refine ⟨{ contained with unled := h.unled key hk }, ?_⟩
  rintro rfl
  exact h.finished

/-- The statement that is written with other expressions, each of which keeps to itself, has these
expressions. -/
theorem split_of_contained (keys : parts.keys = stated.keys)
    (kept : ∀ key ∉ Parts.expressionKeys, Parts.text parts key = Parts.text stated key)
    (contained : ∀ key ∈ Parts.expressionKeys, Contained s.dialect s.maxNesting
      (p.phrasesBehind key) (s.dialect.barred key) (Parts.text parts key)) :
    split s (Parts.join parts) =
      .ok (parts.mapValues fun w => Text.trim (Text.trimWhere Parts.isPadding w)) := by
  have regular := Pattern.regular_select h.pattern
  obtain ⟨⟨run, rest, longest, legible, modifiers⟩, -, fits⟩ :=
    regular.exists_parts h.isSelect h.pattern h.hides h.accepted h.unmarked h.semicolon h.shut
  have fits' : Fits s.dialect s.maxNesting (p.steps.drop 3) (Parts.text parts) := by
    intro step rest hs
    have known := fits step rest hs
    cases step with
    | clause key keyword =>
        by_cases expression : key ∈ Parts.expressionKeys
        · have := contained key expression
          rw [h.phrasesBehind_clause hs] at this
          exact this.unbarred
        · rwa [Step.Fits, kept key expression]
    | options key keywords =>
        have other := Pattern.not_mem_of_options_select h.pattern
          (List.mem_of_mem_drop (hs.subset (List.mem_cons_self ..)))
        rwa [Step.Fits, kept key other]
    | lead | modifiers | value | columnList | rows | query | finish => trivial
  have written := regular.split_substituted h.pattern (by decide) h.hides longest legible
    ((kept "select" (by decide)).trans modifiers)
    (h.phrasesBehind_columns ▸ contained "columns" (by decide)) fits'
  have stepwise := keys.trans h.keys_eq
  rw [Parts.eq_partsOf (stepwise ▸ h.nodup) stepwise]
  exact written

/-- The parts of the statement have nothing to trim. -/
theorem trim_text (key : String) :
    Text.trim (Text.trimWhere Parts.isPadding (Parts.text stated key)) = Parts.text stated key := by
  have again := h.split_of_contained rfl (fun _ _ => rfl) fun key hk => (h.confined hk).contained
  have same := Except.ok.inj (again.symm.trans h.again)
  conv_rhs => rw [← same]
  exact (Parts.text_mapValues (f := fun w => Text.trim (Text.trimWhere Parts.isPadding w)) rfl
    stated key).symm

end Receptive

theorem Parameters.isEmpty_iff {ps : Parameters} : ps.isEmpty = true ↔ ps = { } := by
  obtain ⟨positional, ⟨named⟩⟩ := ps
  simp [isEmpty, OrderedMap.isEmpty]

namespace Query
variable {s : Settings} {p : Pattern} {t : Text} {log : List Entry} {q : Query}
  {stated composed : Parts} {key : String} {w : Text}

/-- What the calls make of an expression keeps to itself if all that they have written does. -/
theorem Holds.contained_rewritten (hq : q.Holds log) (hs : q.settings = s)
    (h : Receptive s p t stated) (hk : key ∈ Parts.expressionKeys)
    (confined : ∀ e ∈ log, Confined s.dialect s.maxNesting (p.phrasesBehind e.1) e.1 e.2.2)
    (hw : q.rewritten stated key = some w) :
    Contained s.dialect s.maxNesting (p.phrasesBehind key) (s.dialect.barred key) w := by
  have written {side : Placement} : ∀ u ∈ Entry.side key side log,
      Confined s.dialect s.maxNesting (p.phrasesBehind key) key u := by
    intro u hu
    obtain ⟨e, he, hu⟩ := List.mem_filterMap.mp hu
    split at hu
    · rename_i place
      cases hu
      exact place.1 ▸ confined e he
    · cases hu
  rw [rewritten] at hw
  generalize hc : (q.replacements.get? key).or (stated.get? key) = current at hw
  have current_confined : Confined s.dialect s.maxNesting (p.phrasesBehind key) key
      (current.getD []) := by
    rw [← hc, hq.replacements]
    cases hr : (Entry.side key .replace log).getLast? with
    | some u => exact written u (List.mem_of_getLast? hr)
    | none => exact h.confined hk
  rcases Option.or_eq_some_iff.mp hw with merged | ⟨-, rfl⟩
  · obtain ⟨a, ha, merged⟩ := Option.bind_eq_some_iff.mp merged
    rw [hs] at merged
    refine Addition.contained_merge? hk (Pattern.head?_phrasesBehind_select h.pattern key hk)
      (current_confined.trimWhere fun c hc => Text.isSlack_of_isWhite hc) (fun u hu => ?_) merged
    rw [hq.additions, Addition.of?] at ha
    split at ha
    · cases ha
    · cases ha
      exact (List.mem_append.mp hu).elim (written u) (written u)
  · exact current_confined.contained

/-- A SELECT has no part for a duplicate key, so its composition cannot fail. -/
theorem Recorded.exists_composeFrom {ps : Parameters} (hq : Recorded s t log ps q)
    (h : Receptive s p t stated) : ∃ composed, q.composeFrom stated = .ok composed := by
  have keys := keys_merged hq.holds.nodup (nodup_keys_split h.accepted)
    (hq.keys_inside h.accepted)
  have absent : duplicateKey ∉ (q.merged stated).keys := by
    rw [keys]
    exact h.duplicateKey_not_mem
  refine Query.exists_composeFrom ⟨_, expandMarker_of_ne fun w hw => ?_⟩
  have none : (q.merged stated).get? duplicateKey = none := OrderedMap.find?_eq_none_iff.mpr absent
  rw [get?_fillColumns _ (by decide), none] at hw
  cases hw

/-- All expressions of the composed parts keep to themselves. -/
theorem Recorded.contained_composed {ps : Parameters} (hq : Recorded s t log ps q)
    (h : Receptive s p t stated) (hk : key ∈ Parts.expressionKeys)
    (confined : ∀ e ∈ log, Confined s.dialect s.maxNesting (p.phrasesBehind e.1) e.1 e.2.2)
    (answer : q.composeFrom stated = .ok composed) (mutated : q.isMutated = true) :
    Contained s.dialect s.maxNesting (p.phrasesBehind key) (s.dialect.barred key)
      (Parts.text composed key) := by
  have nodup := hq.holds.nodup
  have merged : Contained s.dialect s.maxNesting (p.phrasesBehind key) (s.dialect.barred key)
      (((fillColumns (q.merged stated)).get? key).getD []) := by
    have rewritten : Contained s.dialect s.maxNesting (p.phrasesBehind key) (s.dialect.barred key)
        (((q.merged stated).get? key).getD []) := by
      rw [get?_merged nodup]
      cases hw : q.rewritten stated key with
      | none => exact .nil
      | some w => exact hq.holds.contained_rewritten hq.statement_eq.1 h hk confined hw
    by_cases columns : key = "columns"
    · subst columns
      rw [get?_fillColumns_columns]
      split
      · exact .star
      · exact rewritten
    · rwa [get?_fillColumns _ (Ne.symm columns)]
  have text : Parts.text composed key =
      Text.trim (((fillColumns (q.merged stated)).get? key).getD []) := by
    have duplicate : duplicateKey ≠ key := by
      rintro rfl
      revert hk
      decide
    rw [Parts.text, get?_composeFrom_of_ne answer mutated duplicate]
    cases (fillColumns (q.merged stated)).get? key <;> rfl
  rw [text]
  exact (merged.trimWhere fun c hc => Text.isSlack_of_isWhite hc).1

/-- A query without values is its statement, or the parts with its changes written one behind the
other. -/
theorem Recorded.toSql_eq {ps : Parameters} (hq : Recorded s t log ps q)
    (hs : split s t = .ok stated) (unbound : q.parameters = {})
    (answer : q.composeFrom stated = .ok composed) :
    Edit.toSql.answer q = .ok (if log = [] then t else Parts.join composed) := by
  have plain (u : Text) : q.bound u = u := by rw [bound, unbound, Dialect.bind_empty]
  rw [(Edit.reads_toSql q).answer_self hq.sound]
  by_cases written : log = []
  · subst written
    have base : q.baseText = .ok t := by
      rw [baseText, hq.attached, anyChanged, assemble, if_neg (by decide), hq.statement_eq.2]
    rw [render_of_not_isMutated hq.holds.not_isMutated, base, if_pos rfl]
    exact congrArg Except.ok (plain t)
  · rw [render_of_isMutated (hq.holds.isMutated_of_ne_nil written), hq.compose_eq hs, answer,
      if_neg written]
    exact congrArg Except.ok (plain (Parts.join composed))

/-- A part that no call wrote to is composed as it was, or the star if columns are missing. -/
theorem Recorded.text_composed {ps : Parameters} (hq : Recorded s t log ps q)
    (h : Receptive s p t stated) (answer : q.composeFrom stated = .ok composed)
    (mutated : q.isMutated = true) (untouched : ∀ e ∈ log, e.1 ≠ key) :
    Parts.text composed key =
      if key = "columns" ∧ Parts.text stated key = [] then ['*'] else Parts.text stated key := by
  have settings := hq.statement_eq.1
  have inside := hq.keys_inside h.accepted
  have nodup := hq.holds.nodup
  have keys := keys_composeFrom h.accepted nodup inside answer
  cases hw : stated.get? key with
  | none =>
      have absent : key ∉ stated.keys := OrderedMap.find?_eq_none_iff.mp hw
      have other : key ≠ "columns" := by
        rintro rfl
        exact absent h.columns_mem
      rw [← keys] at absent
      have still : composed.get? key = none := OrderedMap.find?_eq_none_iff.mpr absent
      rw [if_neg fun star => other star.1, Parts.text, Parts.text, hw, still]
  | some w =>
      have present : key ∈ stated.keys := OrderedMap.contains_iff.mp (by
        rw [OrderedMap.contains, hw]
        rfl)
      have other : key ≠ duplicateKey := by
        rintro rfl
        exact h.duplicateKey_not_mem present
      have trimmed := trim_of_split h.accepted h.unmarked h.semicolon hw
      obtain ⟨u, hu, settles⟩ := settles_composeFrom (settings.symm ▸ h.accepted) nodup inside
        answer mutated ((hq.holds.rewritten_eq untouched).trans hw)
      rw [Settles, trimmed, keys, h.head?_keys] at settles
      simp only [other, true_and, false_and, if_false] at settles
      rw [Parts.text, Parts.text, hu, hw]
      change u = if key = "columns" ∧ w = [] then ['*'] else w
      split <;> rename_i star
      · rwa [if_pos star] at settles
      · rwa [if_neg star] at settles

/-- The parts that no call wrote to are in the written statement as they were, if all that was
written to the others keeps to itself. -/
theorem Recorded.exists_written {ps : Parameters} (hq : Recorded s t log ps q)
    (h : Receptive s p t stated) (unbound : q.parameters = {})
    (confined : ∀ e ∈ log, e.1 ∈ Parts.expressionKeys ∧
      Confined s.dialect s.maxNesting (p.phrasesBehind e.1) e.1 e.2.2) :
    ∃ text parts, Edit.toSql.answer q = .ok text ∧ split s text = .ok parts ∧
      parts.keys = stated.keys ∧ ∀ key, (∀ e ∈ log, e.1 ≠ key) →
        Parts.text parts key =
          if log ≠ [] ∧ key = "columns" ∧ Parts.text stated key = [] then ['*']
          else Parts.text stated key := by
  obtain ⟨composed, answer⟩ := hq.exists_composeFrom h
  have toSql := hq.toSql_eq h.accepted unbound answer
  by_cases written : log = []
  · refine ⟨_, stated, toSql, ?_, rfl, fun key _ => ?_⟩
    · rw [if_pos written]
      exact h.accepted
    · rw [if_neg fun star => star.1 written]
  rw [if_neg written] at toSql
  have mutated := hq.holds.isMutated_of_ne_nil written
  have keys := keys_composeFrom h.accepted hq.holds.nodup (hq.keys_inside h.accepted) answer
  have again := h.split_of_contained keys (fun key hk => ?_) fun key hk =>
    hq.contained_composed h hk (fun e he => (confined e he).2) answer mutated
  · refine ⟨_, _, toSql, again, ?_, fun key untouched => ?_⟩
    · rw [← keys]
      simp [OrderedMap.keys, OrderedMap.mapValues, Function.comp_def]
    · rw [Parts.text_mapValues (f := fun w => Text.trim (Text.trimWhere Parts.isPadding w)) rfl,
        hq.text_composed h answer mutated untouched]
      simp only [written, ne_eq, not_false_eq_true, true_and]
      split
      · decide
      · exact h.trim_text key
  · have untouched : ∀ e ∈ log, e.1 ≠ key := fun e he same => hk (same ▸ (confined e he).1)
    rw [hq.text_composed h answer mutated untouched, if_neg]
    rintro ⟨rfl, -⟩
    exact hk (by decide)

/-- Whatever calls and questions there are, and whether they fail or not: if all that is written
to the expressions of a SELECT keeps to itself, the statement that is written has the parts of the
SELECT, and those that no call wrote to have the texts that they had. Where columns are missing
they are all selected. -/
theorem Mutated.parts_isolated (hq : Mutated s t log q) (h : Receptive s p t stated)
    (unbound : q.parameters = {})
    (confined : ∀ e ∈ log, e.1 ∈ Parts.expressionKeys ∧
      Confined s.dialect s.maxNesting (p.phrasesBehind e.1) e.1 e.2.2) :
    ∃ text parts, Edit.toSql.answer q = .ok text ∧ split s text = .ok parts ∧
      parts.keys = stated.keys ∧ ∀ key, (∀ e ∈ log, e.1 ≠ key) →
        Parts.text parts key =
          if log ≠ [] ∧ key = "columns" ∧ Parts.text stated key = [] then ['*']
          else Parts.text stated key := by
  obtain ⟨ps, recorded⟩ := hq.recorded
  exact recorded.exists_written h unbound confined

/-- A call with a clause in a literal, for a SELECT without columns. -/
theorem parts_isolated_group :
    let t := "SELECT FROM t LIMIT 2".toList
    let q := Edit.left (Edit.mutate (.groupBy ["f(b, ' WHERE ')".toList] { }))
      (ofStatement { } t)
    ∃ text parts, Edit.toSql.answer q = .ok text ∧ split { } text = .ok parts ∧
      Parts.text parts "columns" = ['*'] ∧ Parts.text parts "where" = [] ∧
        Parts.text parts "limit" = ['2'] := by
  intro t q
  obtain ⟨p, hp⟩ : ∃ p, Pattern.ofType? .mysql .select = some p := ⟨_, rfl⟩
  have receptive : Receptive { } p t ⟨[("select", []), ("columns", []), ("from", ['t']),
      ("where", []), ("group by", []), ("having", []), ("order by", []), ("limit", ['2']),
      ("options", [])]⟩ := by
    cases hp
    refine ⟨?_, rfl, ?_, ?_, ?_, ?_, ?_, ?_, ?_⟩ <;> decide +kernel
  have log : (Mutation.groupBy ["f(b, ' WHERE ')".toList] { }).made (ofStatement { } t) =
      [("group by", .append, "f(`b`, ' WHERE ')".toList)] := by
    decide +kernel
  have call := (Mutated.start (s := { }) (t := t)).mutate
    (.groupBy ["f(b, ' WHERE ')".toList] { })
  rw [List.nil_append, log] at call
  have unbound : q.parameters.isEmpty = true := by decide +kernel
  obtain ⟨text, parts, written, accepted, -, kept⟩ :=
    call.parts_isolated receptive (Parameters.isEmpty_iff.mp unbound) <| by
      cases hp
      exact List.forall_mem_singleton.mpr ⟨by decide, .of_unreserved (by decide +kernel)⟩
  exact ⟨text, parts, written, accepted, kept "columns" (by decide), kept "where" (by decide),
    kept "limit" (by decide)⟩

/-- The clean-up of a CAST takes the quotes off a name of the caller, so a clause in the name is
one of the statement. -/
theorem not_parts_isolated :
    ¬∀ (s : Settings) (t : Text) (stated : Parts) (cs : List Text) (q : Query),
      StatementType.detect s.dialect t = some .select → ';' ∉ t → split s t = .ok stated →
      split s (Parts.join stated) = .ok stated →
      (Edit.mutate (.columns cs { })).run (ofStatement s t) = .ok () q →
      ∃ text parts, Edit.toSql.answer q = .ok text ∧ split s text = .ok parts ∧
        ∀ key, key ≠ "columns" → Parts.text parts key = Parts.text stated key := by
  intro h
  obtain ⟨t, ht⟩ : ∃ t, t = "SELECT a FROM t WHERE x = 1".toList := ⟨_, rfl⟩
  have accepted : split { } t = .ok ⟨[("select", []), ("columns", ['a']), ("from", ['t']),
      ("where", "x = 1".toList), ("group by", []), ("having", []), ("order by", []),
      ("limit", []), ("options", [])]⟩ := by
    rw [ht]
    decide +kernel
  let c := Mutation.columns ["CAST(b AS `c) FROM (u`)".toList] { }
  have answer : Edit.toSql.answer (Edit.left (Edit.mutate c) (ofStatement { } t)) =
      .ok "SELECT a, CAST(`b` AS c) FROM (u) FROM t WHERE x = 1".toList := by
    rw [ht]
    decide +kernel
  have again : split { } "SELECT a, CAST(`b` AS c) FROM (u) FROM t WHERE x = 1".toList =
      .ok ⟨[("select", []), ("columns", "a, CAST(`b` AS c)".toList), ("from", "(u) FROM t".toList),
        ("where", "x = 1".toList), ("group by", []), ("having", []), ("order by", []),
        ("limit", []), ("options", [])]⟩ := by
    decide +kernel
  have run : (Edit.mutate c).answer (ofStatement { } t) = .ok () := by
    rw [ht]
    decide +kernel
  obtain ⟨text, parts, written, read, kept⟩ := h { } t _ _ _ (by rw [ht]; decide +kernel)
    (by rw [ht]; decide) accepted (by decide +kernel) (Edit.run_of_answer_ok run)
  cases answer.symm.trans written
  cases again.symm.trans read
  exact absurd (kept "from" (by decide)) (by decide)

end Query

namespace Mutation
variable {s : Settings} {p : Pattern} {t : Text} {stated : Parts} {m : Mutation}

/-- A call that writes strictly quoted names alone: columns, also to group or to order by, or a
table, also one that is joined without a condition. -/
def WritesNames : Mutation → Prop
  | columns _ o | groupBy _ o | orderBy _ _ o => o.quote = some .strict
  | table join _ on o => o.quote = some .strict ∧ on = [] ∧
      (join = [] ∨ ∃ kind : JoinKind, join = kind.words)
  | _ => False

theorem WritesNames.isSteady (h : m.WritesNames) : m.IsSteady := by
  cases m with
  | columns | groupBy | orderBy | table => trivial
  | _ => exact h.elim

theorem WritesNames.parameters_eq (h : m.WritesNames) (ps : Parameters) :
    m.parameters ps = ps := by
  cases m with
  | columns | groupBy | orderBy | table => rfl
  | _ => exact h.elim

/-- What is logged of a mutation are the fragments of its change. -/
theorem exists_change_of_mem_log {e : Entry} (h : e ∈ m.log s t) :
    ∃ c f, m.change?.answer (Query.ofStatement s t) = .ok (some c) ∧ f ∈ c.fragments ∧
      e = (c.part, f) := by
  rw [log] at h
  cases made : m.entries s t with
  | error e =>
      rw [made] at h
      cases h
  | ok es =>
      rw [made] at h
      obtain ⟨change, hc, made⟩ := bind_eq_ok_iff.mp made
      cases change with
      | none =>
          cases made
          cases h
      | some c =>
          obtain ⟨base, -, made⟩ := bind_eq_ok_iff.mp made
          split at made
          · cases made
            obtain ⟨f, hf, rfl⟩ := List.mem_map.mp h
            exact ⟨c, f, hc, hf, rfl⟩
          · cases made

/-- Words that stand behind names to order by, or around joined tables, are not reserved. -/
theorem unreserved_select (hp : Pattern.ofType? s.dialect .select = some p) :
    (∀ order : SortOrder, Unreserved s.dialect
        (s.dialect.reserved (p.phrasesBehind "order by") "order by") order.suffix) ∧
      ∀ join, (join = [','] ∨ ∃ kind : JoinKind, join = kind.words) → ∀ front ∈ [[], [' ']],
        Unreserved s.dialect (s.dialect.reserved (p.phrasesBehind "from") "from")
          (front ++ join) := by
  cases hp
  refine ⟨fun order => ?_, ?_⟩
  · cases s.dialect <;> cases order <;> decide +kernel
  · rintro join (rfl | ⟨kind, rfl⟩)
    · cases s.dialect <;> decide +kernel
    · cases s.dialect <;> cases kind <;> decide +kernel

/-- Names in strict quotes keep to themselves in every part but the tables. -/
theorem confined_of_listed {part : String} {o : PartOptions} {usual : Placement} {c : Change}
    {suffix : Text} {names : List Text} {f : Placement × Text} {limit : Nat}
    (ho : o.quote = some .strict) (hk : part ∈ Parts.expressionKeys ∧ part ≠ "from")
    (hs : Unreserved s.dialect (s.dialect.reserved (p.phrasesBehind part) part) suffix)
    (h : (Change.listed s o suffix names >>= fun w => .ok (.single part o usual w)).map some =
      .ok (some c)) (hf : f ∈ c.fragments) :
    c.part ∈ Parts.expressionKeys ∧
      Confined s.dialect limit (p.phrasesBehind c.part) c.part f.2 := by
  cases hl : Change.listed s o suffix names with
  | error e =>
      rw [hl] at h
      cases h
  | ok w =>
      rw [hl] at h
      cases h
      cases List.mem_singleton.mp hf
      exact ⟨hk.1, .listed ho hk.2 hs hl⟩

/-- Without a condition a table is written alone or with its join beside it. -/
theorem exists_table_of_mem_fragments {q : Query} {join name : Text} {o : PartOptions} {c : Change}
    {f : Placement × Text} (h : Change.ofTable q join name [] o = .ok c) (hf : f ∈ c.fragments) :
    c.part = q.tablePart ∧
      ∃ table, quoteIdentifier q.settings (o.quote.getD .words) name = .ok table ∧
        (f.2 = table ∨ ∃ join', (join' = [','] ∨ join' = join ∧ join ≠ []) ∧
          (f.2 = table ++ ' ' :: join' ∨ f.2 = join' ++ ' ' :: table)) := by
  rw [Change.ofTable] at h
  generalize o.placement.getD (if join.isEmpty then .replace else .append) = placement at h
  dsimp only at h
  split at h
  · cases h
  obtain ⟨table, ht, h⟩ := bind_eq_ok_iff.mp h
  simp only [List.isEmpty_nil, Bool.or_true, if_true] at h
  generalize hj : (if (join.isEmpty && placement != .replace) = true then [','] else join) = join'
    at h
  have known (side : placement ≠ .replace) : join' = [','] ∨ join' = join ∧ join ≠ [] := by
    rw [← hj]
    split
    · exact .inl rfl
    · rename_i kept
      exact .inr ⟨rfl, by simpa [side] using kept⟩
  cases h
  refine ⟨rfl, table, ht, ?_⟩
  cases placement with
  | replace => exact .inl (congrArg Prod.snd (List.mem_singleton.mp hf))
  | prepend =>
      refine .inr ⟨join', known (by simp), .inl (congrArg Prod.snd (List.mem_singleton.mp hf))⟩
  | append =>
      refine .inr ⟨join', known (by simp), .inr ?_⟩
      simpa using congrArg Prod.snd (List.mem_singleton.mp hf)

/-- Names keep to themselves wherever they are written. -/
theorem WritesNames.confined (hm : m.WritesNames) (h : Receptive s p t stated) {e : Entry}
    (he : e ∈ m.log s t) : e.1 ∈ Parts.expressionKeys ∧
      Confined s.dialect s.maxNesting (p.phrasesBehind e.1) e.1 e.2.2 := by
  obtain ⟨suffix, joins⟩ := unreserved_select h.pattern
  obtain ⟨c, f, hc, hf, rfl⟩ := exists_change_of_mem_log he
  cases m with
  | columns cs o | groupBy cs o =>
      exact confined_of_listed hm (by decide) (by simp [Unreserved])
        ((answer_of_worked_out rfl _).symm.trans hc) hf
  | orderBy cs order o =>
      exact confined_of_listed hm (by decide) (suffix order)
        ((answer_of_worked_out rfl _).symm.trans hc) hf
  | table join name on o =>
      obtain ⟨strict, rfl, kind⟩ := hm
      have change := (answer_of_worked_out rfl _).symm.trans hc
      cases made : Change.ofTable (Query.ofStatement s t) join name [] o with
      | error e =>
          rw [made] at change
          cases change
      | ok c' =>
          rw [made] at change
          cases change
          obtain ⟨part, table, quoted, text⟩ := exists_table_of_mem_fragments made hf
          have tables : (Query.ofStatement s t).tablePart = "from" := by
            have type : (Query.ofStatement s t).type? = some .select := h.isSelect
            rw [Query.tablePart, type]
          rw [strict] at quoted
          rw [part, tables]
          refine ⟨(by decide : "from" ∈ Parts.expressionKeys), ?_⟩
          have alone : Confined s.dialect s.maxNesting (p.phrasesBehind "from") "from" table := by
            have bare : Unreserved s.dialect (s.dialect.reserved (p.phrasesBehind "from") "from")
                (table ++ []) := unreserved_quotePath quoted (by simp [Unreserved])
            rw [List.append_nil] at bare
            exact .of_unreserved bare
          rcases text with text | ⟨join', known, text⟩
          · rwa [text]
          have worded : join' = [','] ∨ ∃ kind : JoinKind, join' = kind.words := by
            rcases known with comma | known
            · exact .inl comma
            · exact .inr (known.1 ▸ kind.resolve_left known.2)
          have plain := joins join' worded
          rcases text with text | text <;> rw [text]
          · exact .of_unreserved (unreserved_quotePath quoted (plain [' '] (by simp)))
          · exact (Confined.of_unreserved (plain [] (by simp))).append_space alone
  | _ => exact hm.elim

end Mutation

/-- Strictly quoted names cannot bring a clause into a statement: calls that write nothing else
leave all parts but those that they write to as they were, whatever the names are. -/
theorem Query.names_isolated {s : Settings} {p : Pattern} {t : Text} {stated : Parts} {q : Query}
    {ms : List Mutation} (names : ∀ m ∈ ms, m.WritesNames) (h : Receptive s p t stated)
    (run : (forM ms Edit.mutate).run (ofStatement s t) = .ok () q) :
    ∃ text parts, Edit.toSql.answer q = .ok text ∧ split s text = .ok parts ∧
      parts.keys = stated.keys ∧ ∀ key, (∀ m ∈ ms, ∀ e ∈ m.log s t, e.1 ≠ key) →
        Parts.text parts key = Parts.text stated key ∨
          key = "columns" ∧ Parts.text stated key = [] ∧ Parts.text parts key = ['*'] := by
  have recorded := (recorded_ofStatement s t).of_forM (fun m hm => (names m hm).isSteady) run
  have unbound : q.parameters = { } := by
    rw [recorded.parameters]
    clear run recorded
    induction ms with
    | nil => rfl
    | cons m ms ih =>
        obtain ⟨first, rest⟩ := List.forall_mem_cons.mp names
        rw [List.foldl_cons, first.parameters_eq]
        exact ih rest
  rw [List.nil_append] at recorded
  obtain ⟨text, parts, written, accepted, keys, kept⟩ := recorded.exists_written h unbound <| by
    intro e he
    obtain ⟨m, hm, he⟩ := List.mem_flatMap.mp he
    exact (names m hm).confined h he
  refine ⟨text, parts, written, accepted, keys, fun key untouched => ?_⟩
  rw [kept key fun e he => ?_]
  · split
    · rename_i star
      exact .inr ⟨star.2.1, star.2.2, rfl⟩
    · exact .inl rfl
  · obtain ⟨m, hm, he⟩ := List.mem_flatMap.mp he
    exact untouched m hm e he

end SqlStatement
