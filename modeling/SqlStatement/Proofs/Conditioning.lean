import SqlStatement.Proofs.Retaining
import SqlStatement.Proofs.Rewriting

/-!
# Conditions that all have to hold

Conditions are added to a part in front of the text that is there or behind it,
by calls between which anything else may happen to the query. What is recorded
for the part is the sequence of these conditions and nothing else. The part is
then written with each condition in parentheses of its own, and since balanced
texts close what they open, the parenthesis behind a condition is the one that
closes the group in front of it.
-/
namespace SqlStatement

namespace Mutation

/-- A condition with its side; an empty text is none, and neither is one that could not be built. -/
def placed (o : PartOptions) : Except Error Text → List (Placement × Text)
  | .ok (c :: t) => [(o.placement.getD .append, c :: t)]
  | _ => []

/-- The conditions that a mutation means to add to a part. -/
def conditions (s : Settings) (part : String) : Mutation → List (Placement × Text)
  | filter c o =>
      if part = "where" then placed o (buildCondition s (o.quote.getD .smart) c) else []
  | filterAll cs => if part = "where" then placed {} (buildConditions s .smart cs) else []
  | having c o =>
      if part = "having" then placed o (buildCondition s (o.quote.getD .smart) c) else []
  | _ => []

end Mutation

/-- The conditions that a call adds to a part, none if it fails. -/
def Call.conditions (part : String) (q : Query) : Call → List (Placement × Text)
  | mutate m =>
      match (Edit.mutate m).answer q with
      | .ok _ => m.conditions q.settings part
      | .error _ => []
  | subquery _ _ => []

/-- The queries that calls and questions lead to, with the conditions that were added to a part in
the order of the calls. -/
inductive Query.Conditioned (part : String) : List (Placement × Text) → Query → Prop
  | start (s : Settings) (t : Text) : Conditioned part [] (ofStatement s t)
  | call {log : List (Placement × Text)} {q : Query} (c : Call) (h : Conditioned part log q) :
      Conditioned part (log ++ c.conditions part q) (Edit.left c.run q)
  | read {log : List (Placement × Text)} {q : Query} {α : Type} (r : Reader α)
      (h : Conditioned part log q) : Conditioned part log (Edit.left r.run q)

theorem Query.tablePart_mem (q : Query) : q.tablePart ∈ ["from", "into", "table"] := by
  rw [tablePart]
  split <;> decide

namespace Edit
variable {α β : Type}

/-- Every answer of an edit has a property. -/
def Gives (x : Edit α) (p : α → Prop) : Prop := ∀ q a q', x.run q = .ok a q' → p a

theorem Gives.imp {x : Edit α} {p r : α → Prop} (h : x.Gives p) (hr : ∀ a, p a → r a) :
    x.Gives r := fun q a q' run => hr a (h q a q' run)

theorem Gives.andThen {x : Edit α} {y : α → Edit β} {p : α → Prop} {r : β → Prop}
    (hx : x.Gives p) (hy : ∀ a, p a → (y a).Gives r) : (x >>= y).Gives r := by
  intro q b q' run
  rw [run_bind] at run
  cases ha : x.run q with
  | error e q₁ =>
      rw [ha] at run
      cases run
  | ok a q₁ =>
      rw [ha] at run
      exact hy a (hx _ _ _ ha) _ _ _ run

theorem Gives.bind {x : Edit α} {y : α → Edit β} {p : β → Prop} (h : ∀ a, (y a).Gives p) :
    (x >>= y).Gives p :=
  Gives.andThen (p := fun _ => True) (fun _ _ _ _ => trivial) fun a _ => h a

theorem gives_pure {p : α → Prop} {a : α} (h : p a) : (pure a : Edit α).Gives p := by
  rintro q b q' ⟨⟩
  exact h

theorem gives_ofExcept {p : β → Prop} {r : Except Error α} {f : α → β}
    (h : ∀ a, r = .ok a → p (f a)) : (ofExcept r >>= fun a => pure (f a)).Gives p := by
  cases r with
  | error e =>
      rintro q b q' ⟨⟩
  | ok a => exact gives_pure (h a rfl)

end Edit

namespace Mutation

/-- Whether a mutation adds conditions. -/
def isCondition : Mutation → Bool
  | filter _ _ | filterAll _ | having _ _ => true
  | _ => false

/-- The parts that a mutation may write to. -/
def targets : Mutation → List String
  | table _ _ _ _ => ["from", "into", "table"]
  | columns _ _ | columnAs _ _ => ["columns"]
  | assign _ _ => ["set"]
  | assignText _ _ => ["query", "set"]
  | rows _ _ | rowText _ _ => ["values"]
  | filter _ _ | filterAll _ => ["where"]
  | having _ _ => ["having"]
  | groupBy _ _ => ["group by"]
  | orderBy _ _ _ => ["order by"]
  | limit _ _ | limitText _ | page _ _ => ["limit"]
  | updateInserted | updateInsertedColumns _ | updateAssign _ _ => [Query.duplicateKey]
  | options _ _ => ["options"]
  | bind _ | bindNamed _ => []

theorem part_ofTable {q : Query} {join table on : Text} {o : PartOptions} {c : Change}
    (h : Change.ofTable q join table on o = .ok c) : c.part = q.tablePart := by
  rw [Change.ofTable] at h
  extract_lets before at h
  generalize o.placement.getD _ = placement at h
  split at h
  · obtain ⟨_, thrown, -⟩ := bind_eq_ok_iff.mp h
    cases thrown
  · obtain ⟨name, -, h⟩ := bind_eq_ok_iff.mp h
    dsimp only at h
    split at h
    · cases h
      rfl
    · obtain ⟨quoted, -, h⟩ := bind_eq_ok_iff.mp h
      cases h
      rfl

/-- A page is a row limit. -/
theorem exists_of_ofPage {page rows : UInt64} {c : Change} (h : Change.ofPage page rows = .ok c) :
    ∃ offset, c = Change.ofLimit rows.toNat offset := by
  rw [Change.ofPage] at h
  split at h
  · cases h
    exact ⟨_, rfl⟩
  · cases h

theorem part_ofRows (rows : List Text) (o : PartOptions) :
    (Change.ofRows rows o).part = "values" := by
  rw [Change.ofRows]
  split <;> rfl

theorem gives_pageChange (page : UInt64) (count : Option UInt64) :
    (pageChange page count).Gives fun c => ∃ rows offset, c = Change.ofLimit rows offset := by
  have paged (rows : UInt64) : (Edit.ofExcept (Change.ofPage page rows)).Gives
      fun c => ∃ rows offset, c = Change.ofLimit rows offset := by
    cases hc : Change.ofPage page rows with
    | error e => rintro q c q' ⟨⟩
    | ok c => exact Edit.gives_pure ⟨_, exists_of_ofPage hc⟩
  cases count with
  | some count =>
      rw [pageChange_some]
      split
      · exact Edit.gives_pure ⟨0, 0, rfl⟩
      · exact paged count
  | none =>
      refine .bind fun ps => ?_
      dsimp only
      split
      · exact .bind fun _ => paged _
      · exact paged _

theorem gives_updateInsertedChange :
    updateInsertedChange.Gives fun c => ∀ change ∈ c, change.part = Query.duplicateKey := by
  refine .bind fun _ => .bind fun q => ?_
  dsimp only
  split
  · exact Edit.gives_pure (by simp)
  · refine .bind fun ps => ?_
    split
    · exact Edit.gives_pure (by simp)
    · exact Edit.gives_pure (by simp)

/-- A mutation writes to its own parts alone. -/
theorem gives_targets (m : Mutation) :
    m.change?.Gives fun c => ∀ change ∈ c, change.part ∈ m.targets := by
  have one {c : Change} {keys : List String} (h : c.part ∈ keys) :
      (pure (some c) : Edit (Option Change)).Gives fun c => ∀ change ∈ c, change.part ∈ keys := by
    refine Edit.gives_pure ?_
    rintro _ ⟨⟩
    exact h
  have made {r : Except Error Change} {keys : List String}
      (h : ∀ c, r = .ok c → c.part ∈ keys) :
      (Edit.ofExcept r >>= fun c => pure (some c) : Edit (Option Change)).Gives
        fun c => ∀ change ∈ c, change.part ∈ keys := by
    refine Edit.gives_ofExcept fun c hc => ?_
    rintro _ ⟨⟩
    exact h c hc
  have single (key : String) {keys : List String} (hk : key ∈ keys) {o : PartOptions}
      {usual : Placement} {α : Type} {x : Except Error α} {f : α → Text} :
      ∀ c, (x >>= fun a => pure (Change.single key o usual (f a))) = .ok c → c.part ∈ keys := by
    intro c h
    obtain ⟨t, -, h⟩ := bind_eq_ok_iff.mp h
    cases h
    exact hk
  have condition (key : String) {o : PartOptions} {x : Except Error Text} :
      (Edit.ofExcept x >>= fun t => pure (Change.ofCondition key o t)).Gives
        fun c => ∀ change ∈ c, change.part ∈ [key] := by
    refine Edit.gives_ofExcept fun t _ change hc => ?_
    rw [Change.ofCondition] at hc
    split at hc
    · cases hc
    · cases hc
      exact List.mem_singleton_self key
  cases m with
  | table join name on o =>
      exact .bind fun q => made fun c hc => part_ofTable hc ▸ q.tablePart_mem
  | columns cs o => exact .bind fun q => made (single "columns" List.mem_cons_self)
  | columnAs column newName =>
      refine .bind fun q => made fun c hc => ?_
      obtain ⟨t, -, h⟩ := bind_eq_ok_iff.mp hc
      obtain ⟨u, -, h⟩ := bind_eq_ok_iff.mp h
      cases h
      exact List.mem_cons_self
  | assign assignments o => exact .bind fun q => made (single "set" List.mem_cons_self)
  | assignText t o =>
      refine .bind fun q => made fun c hc => ?_
      rw [Change.ofAssignText] at hc
      split at hc
      · cases hc
        exact List.mem_cons_self
      · exact single "set" (List.mem_cons_of_mem _ List.mem_cons_self) c hc
  | rows values o => exact .bind fun q => one (List.mem_singleton.mpr (part_ofRows _ o))
  | rowText row o => exact .bind fun q => one (List.mem_singleton.mpr (part_ofRows _ o))
  | filter c o => exact .bind fun q => condition "where"
  | filterAll cs => exact .bind fun q => condition "where"
  | having c o => exact .bind fun q => condition "having"
  | groupBy cs o => exact .bind fun q => made (single "group by" List.mem_cons_self)
  | orderBy cs order o => exact .bind fun q => made (single "order by" List.mem_cons_self)
  | limit count offset => exact .bind fun q => one List.mem_cons_self
  | limitText t => exact .bind fun q => one List.mem_cons_self
  | page number count =>
      refine .bind fun q => (gives_pageChange number count).andThen ?_
      rintro _ ⟨rows, offset, rfl⟩
      exact one List.mem_cons_self
  | updateInserted =>
      exact .bind fun q => gives_updateInsertedChange.imp fun c hc change hm =>
        List.mem_singleton.mpr (hc change hm)
  | updateInsertedColumns cs =>
      exact .bind fun q => made (single Query.duplicateKey List.mem_cons_self)
  | updateAssign assignments o =>
      exact .bind fun q => made (single Query.duplicateKey List.mem_cons_self)
  | options t o => exact .bind fun q => one List.mem_cons_self
  | bind values => exact .bind fun q => Edit.gives_pure (by simp)
  | bindNamed values => exact .bind fun q => Edit.gives_pure (by simp)

/-- No other mutation writes a part of conditions. -/
theorem not_mem_targets {m : Mutation} (hm : m.isCondition = false) :
    ∀ part ∈ ["where", "having"], part ∉ m.targets := by
  cases m with
  | filter | filterAll | having => cases hm
  | _ => simp [targets, Query.duplicateKey]

/-- What a mutation does to a part of conditions is to add its conditions. -/
theorem fragments_of_change? {m : Mutation} {q : Query} {c : Option Change} {part : String}
    (hp : part ∈ ["where", "having"]) (h : m.change?.answer q = .ok c) :
    (c.toList.filter (·.part = part)).flatMap Change.fragments = m.conditions q.settings part := by
  have built {key : String} {o : PartOptions} {x : Except Error Text}
      (hx : x.map (Change.ofCondition key o) = .ok c) :
      (c.toList.filter (·.part = part)).flatMap Change.fragments =
        if part = key then placed o x else [] := by
    cases x with
    | error e => cases hx
    | ok t =>
        cases hx
        cases t with
        | nil => simp [Change.ofCondition, placed]
        | cons a t =>
            by_cases hk : part = key
            · simp [Change.ofCondition, Change.single, placed, hk]
            · simp [Change.ofCondition, Change.single, hk, Ne.symm hk]
  by_cases hm : m.isCondition = false
  · have none : m.conditions q.settings part = [] := by
      cases m with
      | filter | filterAll | having => cases hm
      | _ => rfl
    have others := gives_targets m q c _ (Edit.run_of_answer_ok h)
    rw [none]
    cases c with
    | none => rfl
    | some c =>
        have apart : c.part ≠ part := fun he => not_mem_targets hm part hp (he ▸ others c rfl)
        simp [apart]
  · cases m with
    | filter criterion o => exact built ((answer_of_worked_out rfl q).symm.trans h)
    | filterAll cs => exact built ((answer_of_worked_out rfl q).symm.trans h)
    | having criterion o => exact built ((answer_of_worked_out rfl q).symm.trans h)
    | _ => exact absurd rfl hm

end Mutation

/-- A mutation that succeeds sets values, or applies a change to a part that is there. -/
theorem Edit.run_mutate_ok {m : Mutation} {q q' : Query} (hq : q.Sound)
    (h : (mutate m).run q = .ok () q') :
    ∃ c memo, m.change?.answer q = .ok c ∧ (q.withMemo memo).Sound ∧
      ((c = none ∧ q' = { q.withMemo memo with parameters := m.parameters q.parameters }) ∨
        ∃ change base, c = some change ∧ q.baseParts = .ok base ∧
          base.contains change.part = true ∧ q' = change.applied (q.withMemo memo)) := by
  rw [run_mutate] at h
  obtain ⟨m₁, h₁, ⟨c, run₁⟩ | ⟨e, run₁⟩⟩ := (Mutation.isReading_change? m q).run_cases hq
  · have answer : m.change?.answer q = .ok c := by rw [Edit.answer, run₁]
    rw [run₁] at h
    cases c with
    | none =>
        cases h
        exact ⟨none, m₁, answer, h₁, .inl ⟨rfl, rfl⟩⟩
    | some c =>
        dsimp only at h
        obtain ⟨m₂, h₂, run₂⟩ := reads_requirePart q c.part m₁ h₁
        rw [run_commit, run₂] at h
        cases hb : q.baseParts with
        | error e =>
            rw [hb] at h
            cases h
        | ok base =>
            rw [hb] at h
            by_cases hc : base.contains c.part = true
            · simp only [bind, Except.bind, hc] at h
              cases h
              exact ⟨some c, m₂, answer, h₂, .inr ⟨c, base, rfl, rfl, hc, rfl⟩⟩
            · simp only [bind, Except.bind, hc] at h
              cases h
  · rw [run₁] at h
    cases h

/-- The entries for a part, without its name. -/
def Entry.on (part : String) (log : List Entry) : List (Placement × Text) :=
  log.filterMap fun e => if e.1 = part then some e.2 else none

namespace Query
variable {part : String} {log : List (Placement × Text)} {q : Query}

theorem Conditioned.reachable (h : Conditioned part log q) : q.Reachable := by
  induction h with
  | start s t => exact .start s t
  | call c _ ih => exact .call c ih
  | read r _ ih => exact .read r ih

/-- A query whose changes have the given conditions for a part and are made to given parts. -/
structure Tracks (part : String) (keys : List String) (log : List (Placement × Text)) (q : Query) :
    Prop where
  positive : 0 ∉ q.attached.map (·.1)
  entries : ∃ entries, q.Holds entries ∧ (∀ e ∈ entries, e.1 ∈ keys) ∧ Entry.on part entries = log

theorem Tracks.congr {keys : List String} {q' : Query} (h : Tracks part keys log q)
    (ha : q'.attached = q.attached) (hr : q'.replacements = q.replacements)
    (hd : q'.additions = q.additions) : Tracks part keys log q' := by
  obtain ⟨entries, holds, rest⟩ := h.entries
  refine ⟨ha ▸ h.positive, entries, ⟨?_, ?_, ?_⟩, rest⟩
  · rw [hr, hd]
    exact holds.nodup
  · rw [hr]
    exact holds.replacements
  · rw [hd]
    exact holds.additions

theorem subquery_zero (h : 0 ∉ q.attached.map (·.1)) : ∃ e, q.subquery 0 = .error e := by
  rw [subquery, lookup_eq_none h]
  dsimp only
  rw [detach]
  cases Subquery.extract q.settings q.statement with
  | error e => exact ⟨e, rfl⟩
  | ok e => exact ⟨_, rfl⟩

/-- No subquery that is taken out has the number zero. -/
theorem positive_of_subquery (h : 0 ∉ q.attached.map (·.1)) {number : Nat} {sub edited : Query}
    (hs : q.subquery number = .ok sub) :
    0 ∉ (q.attached.filter (fun p => p.1 ≠ number) ++ [(number, edited)]).map (·.1) := by
  rw [List.map_append, List.mem_append, not_or]
  refine ⟨fun hm => ?_, fun hm => ?_⟩
  · obtain ⟨p, hp, zero⟩ := List.mem_map.mp hm
    exact h (zero ▸ List.mem_map_of_mem (List.mem_of_mem_filter hp))
  · obtain rfl : 0 = number := by simpa using hm
    obtain ⟨e, he⟩ := subquery_zero h
    rw [hs] at he
    cases he

theorem Tracks.applied {keys : List String} (h : Tracks part keys log q) {c : Change}
    (hc : c.part ∈ keys) :
    Tracks part keys (log ++ if c.part = part then c.fragments else []) (c.applied q) := by
  obtain ⟨entries, holds, inside, tracked⟩ := h.entries
  obtain ⟨-, attached, -⟩ := c.unchanged_applied q
  refine ⟨attached ▸ h.positive, entries ++ c.fragments.map (c.part, ·), holds.applied c,
    List.forall_mem_append.mpr ⟨inside, fun e he => ?_⟩, ?_⟩
  · obtain ⟨f, -, rfl⟩ := List.mem_map.mp he
    exact hc
  · rw [Entry.on, List.filterMap_append, ← Entry.on, tracked, List.filterMap_map]
    by_cases hk : c.part = part
    · simp [hk]
    · simp [hk]

/-- Only the three types of statements that hide subqueries have conditions. -/
theorem type_mem_of_contains {s : Settings} {t : Text} {stated : Parts}
    (hp : part ∈ ["where", "having"]) (hs : split s t = .ok stated)
    (has : stated.contains part = true) :
    ∃ type ∈ [.select, .update, .delete], StatementType.detect s.dialect t = some type := by
  obtain ⟨type, p, hd, hpattern, keys⟩ := exists_keys_split hs
  rw [OrderedMap.contains_iff, keys] at has
  refine ⟨type, ?_, hd⟩
  have known : part ∈ p.steps.filterMap Step.key? → type ∈ [.select, .update, .delete] := by
    simp only [List.mem_cons, List.not_mem_nil, or_false] at hp
    cases type with
    | other phrase => simp [Pattern.ofType?] at hpattern
    | select | update | delete => simp
    | insert | replace | truncate | set =>
        cases hpattern
        rcases hp with rfl | rfl <;> cases s.dialect <;> decide
  exact known has

/-- A call adds its conditions, whatever else it does. -/
theorem Tracks.call {stated : Parts} (h : Tracks part stated.keys log q) (sound : q.Sound)
    (hp : part ∈ ["where", "having"]) (hs : split q.settings q.statement = .ok stated)
    (has : stated.contains part = true) (c : Call) :
    Tracks part stated.keys (log ++ c.conditions part q) (Edit.left c.run q) := by
  cases c with
  | mutate m =>
      rw [Call.run, Edit.left, Call.conditions, Edit.answer]
      cases run : (Edit.mutate m).run q with
      | error e q' =>
          obtain ⟨memo, -, run' | ⟨c, run'⟩ | ⟨e', run'⟩⟩ := Edit.run_mutate_cases m sound
          · cases run.symm.trans run'
          · cases run.symm.trans run'
          · cases run.symm.trans run'
            rw [List.append_nil]
            exact h.congr rfl rfl rfl
      | ok _ q' =>
          obtain ⟨c, memo, answer, -, ⟨rfl, rfl⟩ | ⟨change, base, rfl, hb, hc, rfl⟩⟩ :=
            Edit.run_mutate_ok sound run
          · rw [← Mutation.fragments_of_change? hp answer]
            change Tracks part stated.keys (log ++ []) _
            rw [List.append_nil]
            exact h.congr rfl rfl rfl
          · obtain ⟨type, ht, hd⟩ := type_mem_of_contains hp hs has
            have inside : change.part ∈ stated.keys := by
              rw [← keys_baseParts h.positive ht hd hs hb]
              exact OrderedMap.contains_iff.mp hc
            have kept : Tracks part stated.keys log (q.withMemo memo) := h.congr rfl rfl rfl
            have applied := kept.applied inside
            rw [← Mutation.fragments_of_change? hp answer]
            by_cases hk : change.part = part
            · simpa [hk] using applied
            · simpa [hk] using applied
  | subquery number edit =>
      rw [Call.run, Edit.left, Edit.run_subquery, Call.conditions, List.append_nil]
      cases hsub : q.subquery number with
      | error e => exact h
      | ok sub =>
          obtain ⟨entries, holds, rest⟩ := h.entries
          exact ⟨positive_of_subquery h.positive hsub, entries,
            ⟨holds.nodup, holds.replacements, holds.additions⟩, rest⟩

/-- The conditions of all calls are recorded, and all changes are made to parts of the
statement. -/
theorem Conditioned.tracks (h : Conditioned part log q) (hp : part ∈ ["where", "having"])
    {stated : Parts} (hs : split q.settings q.statement = .ok stated)
    (has : stated.contains part = true) : Tracks part stated.keys log q := by
  induction h with
  | start s t =>
      exact ⟨by simp [ofStatement], [], ⟨⟨List.nodup_nil, List.nodup_nil⟩, fun _ => rfl,
        fun _ => rfl⟩, by simp, rfl⟩
  | @call log q c h ih =>
      have base := c.base_left h.reachable.sound
      simp only [Query.base, ofStatement, mk.injEq] at base
      rw [base.1, base.2.1] at hs
      exact (ih hs).call h.reachable.sound hp hs has c
  | read r h ih =>
      obtain ⟨memo, -, left⟩ := r.left_eq h.reachable.sound
      rw [left] at hs ⊢
      exact (ih hs).congr rfl rfl rfl

end Query
end SqlStatement
