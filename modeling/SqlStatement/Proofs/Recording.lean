import SqlStatement.Proofs.Leveling
import SqlStatement.Proofs.Remembering

/-!
# What a query records

A query made of a statement by mutations is described by a log: the fragments
in the order in which they came, each with its part and its side. The maps of
the query hold, for every part, the last replacement and the fragments of both
sides. So the parts with all changes depend on the sides of the log alone, and
not on how the sides of different parts alternate. A steady mutation adds the
same entries to the log of every query with its statement.
-/
namespace SqlStatement

namespace OrderedMap
variable {κ α β : Type} [DecidableEq κ]

theorem keys_write (key : κ) (value : α) (l : List (κ × α)) :
    (write key value l).map (·.1) =
      if key ∈ l.map (·.1) then l.map (·.1) else l.map (·.1) ++ [key] := by
  induction l with
  | nil => rfl
  | cons p l ih =>
      obtain ⟨k, v⟩ := p
      by_cases hk : k = key
      · simp [write, hk]
      · simp only [write, if_neg hk, List.map_cons, ih, List.mem_cons, Ne.symm hk, false_or]
        split <;> simp

theorem nodup_keys_insert {m : OrderedMap κ α} (h : m.keys.Nodup) (key : κ) (value : α) :
    (m.insert key value).keys.Nodup := by
  rw [keys, insert, keys_write]
  split
  · exact h
  · rename_i hk
    refine List.nodup_append.mpr ⟨h, by simp, fun a ha b hb => ?_⟩
    rw [List.mem_singleton.mp hb]
    rintro rfl
    exact hk ha

theorem find?_eq_none_iff {key : κ} {l : List (κ × α)} :
    find? key l = none ↔ key ∉ l.map (·.1) := by
  induction l with
  | nil => simp [find?]
  | cons p l ih =>
      obtain ⟨k, v⟩ := p
      by_cases hk : k = key
      · simp [find?, hk]
      · simp [find?, hk, ih, Ne.symm hk]

theorem contains_iff {m : OrderedMap κ α} {key : κ} : m.contains key = true ↔ key ∈ m.keys := by
  rw [contains, Option.isSome_iff_ne_none, ne_eq, get?, find?_eq_none_iff, not_not, keys]

theorem isEmpty_iff {m : OrderedMap κ α} : m.isEmpty = true ↔ ∀ key, m.get? key = none := by
  simp only [isEmpty, List.isEmpty_iff, get?, find?_eq_none_iff]
  constructor
  · intro h
    simp [h]
  · intro h
    exact List.map_eq_nil_iff.mp (List.eq_nil_iff_forall_not_mem.mpr h)

/-- Writing a present key of a list without repeated keys changes the value of that key alone. -/
theorem write_eq_map {key : κ} {l : List (κ × α)} (value : α) (hl : (l.map (·.1)).Nodup)
    (hk : key ∈ l.map (·.1)) :
    write key value l = l.map fun p => (p.1, if p.1 = key then value else p.2) := by
  induction l with
  | nil => simp at hk
  | cons p l ih =>
      obtain ⟨k, v⟩ := p
      rw [List.map_cons, List.nodup_cons] at hl
      by_cases h : k = key
      · subst h
        have other : ∀ p ∈ l, p.1 ≠ k := fun p hp he => hl.1 (List.mem_map.mpr ⟨p, hp, he⟩)
        simp only [write, if_true, List.map_cons, List.cons.injEq, true_and]
        conv_lhs => rw [← List.map_id l]
        refine List.map_congr_left fun p hp => ?_
        rw [if_neg (other p hp)]
        rfl
      · have hk : key ∈ l.map (·.1) := by simpa [Ne.symm h] using hk
        simp [write, h, ih hl.2 hk]

/-- Writing values worked out of several changes, where all keys are present, changes every key by
its own change. -/
theorem foldl_insert (g : κ → β → Option α) (changes : List (κ × β)) (m : OrderedMap κ α)
    (hm : m.keys.Nodup) (hc : (changes.map (·.1)).Nodup) (hk : ∀ p ∈ changes, p.1 ∈ m.keys) :
    changes.foldl (fun (m : OrderedMap κ α) p =>
        (g p.1 p.2).elim m (m.insert p.1)) m =
      ⟨m.toList.map fun p => (p.1, ((find? p.1 changes).bind (g p.1)).getD p.2)⟩ := by
  induction changes generalizing m with
  | nil => simp [find?]
  | cons c changes ih =>
      obtain ⟨key, b⟩ := c
      rw [List.map_cons, List.nodup_cons] at hc
      have present : key ∈ m.keys := hk (key, b) (by simp)
      have absent := find?_eq_none_iff.mpr hc.1
      rw [List.foldl_cons]
      cases hg : g key b with
      | none =>
          change changes.foldl _ m = _
          rw [ih m hm hc.2 fun p hp => hk p (by simp [hp])]
          congr 1
          refine List.map_congr_left fun p _ => ?_
          by_cases h : key = p.1
          · subst h
            simp [find?, absent, hg]
          · simp [find?, h]
      | some v =>
          change changes.foldl _ (m.insert key v) = _
          have kept : (m.insert key v).keys = m.keys :=
            keys_insert_of_contains m key v (contains_iff.mpr present)
          rw [ih _ (kept ▸ hm) hc.2 fun p hp => kept ▸ hk p (by simp [hp])]
          congr 1
          change (write key v m.toList).map _ = _
          rw [write_eq_map v hm present, List.map_map]
          refine List.map_congr_left fun p _ => ?_
          by_cases h : p.1 = key
          · subst h
            simp [find?, absent, hg]
          · simp [find?, h, Ne.symm h]

end OrderedMap

namespace Query

/-- The parts with all replacements, each worked out of the key alone. -/
theorem foldl_replacements {m : OrderedMap String Text} {base : Parts} (hb : base.keys.Nodup)
    (hm : m.keys.Nodup) (hk : ∀ key ∈ m.keys, key ∈ base.keys) :
    m.toList.foldl (fun (ps : Parts) p => ps.insert p.1 p.2) base =
      ⟨base.toList.map fun p => (p.1, (m.get? p.1).getD p.2)⟩ := by
  have := OrderedMap.foldl_insert (fun _ t => some t) m.toList base hb hm
    fun p hp => hk p.1 (List.mem_map_of_mem hp)
  simpa [OrderedMap.get?] using this

/-- The parts with all fragments, each worked out of the key and of the text under it. -/
theorem addParts_eq {d : Dialect} {m : OrderedMap String Addition} {ps : Parts}
    (hb : ps.keys.Nodup) (hm : m.keys.Nodup) (hk : ∀ key ∈ m.keys, key ∈ ps.keys) :
    addParts d ps m =
      ⟨ps.toList.map fun p => (p.1, ((m.get? p.1).bind fun a =>
        a.merge? d p.1 (Text.trim (Parts.text ps p.1))).getD p.2)⟩ := by
  have merged := OrderedMap.foldl_insert
    (fun key (a : Addition) => a.merge? d key (Text.trim (Parts.text ps key)))
    m.toList ps hb hm fun p hp => hk p.1 (List.mem_map_of_mem hp)
  rw [addParts]
  refine Eq.trans ?_ merged
  congr 1
  funext ps' p
  cases p.2.merge? d p.1 (Text.trim (Parts.text ps p.1)) <;> rfl

theorem isMutated_congr {p q : Query}
    (hr : ∀ key, p.replacements.get? key = q.replacements.get? key)
    (ha : ∀ key, p.additions.get? key = q.additions.get? key) : p.isMutated = q.isMutated := by
  have replaced : p.replacements.isEmpty = q.replacements.isEmpty := by
    rw [Bool.eq_iff_iff, OrderedMap.isEmpty_iff, OrderedMap.isEmpty_iff]
    simp [hr]
  have added : p.additions.isEmpty = q.additions.isEmpty := by
    rw [Bool.eq_iff_iff, OrderedMap.isEmpty_iff, OrderedMap.isEmpty_iff]
    simp [ha]
  rw [isMutated, isMutated, replaced, added]

/-- Queries with the same replacements and fragments under every key have the same parts, in
whatever order the keys were written first. -/
theorem composeFrom_congr {p q : Query} {base : Parts} (hs : p.settings = q.settings)
    (hr : ∀ key, p.replacements.get? key = q.replacements.get? key)
    (ha : ∀ key, p.additions.get? key = q.additions.get? key) (hb : base.keys.Nodup)
    (hp : p.replacements.keys.Nodup ∧ p.additions.keys.Nodup)
    (hq : q.replacements.keys.Nodup ∧ q.additions.keys.Nodup)
    (hk : (∀ key ∈ p.replacements.keys, key ∈ base.keys) ∧
      ∀ key ∈ p.additions.keys, key ∈ base.keys) :
    p.composeFrom base = q.composeFrom base := by
  have same {α : Type} {m m' : OrderedMap String α} (h : ∀ key, m.get? key = m'.get? key) :
      ∀ key, key ∈ m.keys ↔ key ∈ m'.keys := fun key => by
    rw [← OrderedMap.contains_iff, ← OrderedMap.contains_iff, OrderedMap.contains, h key,
      OrderedMap.contains]
  rw [composeFrom, composeFrom, isMutated_congr hr ha]
  have replaced : p.replacements.toList.foldl (fun (ps : Parts) p => ps.insert p.1 p.2) base =
      q.replacements.toList.foldl (fun (ps : Parts) p => ps.insert p.1 p.2) base := by
    rw [foldl_replacements hb hp.1 hk.1,
      foldl_replacements hb hq.1 fun key h => hk.1 key ((same hr key).mpr h)]
    simp only [hr]
  have keys : (q.replacements.toList.foldl (fun (ps : Parts) p => ps.insert p.1 p.2) base).keys =
      base.keys := by
    rw [← replaced, foldl_replacements hb hp.1 hk.1]
    simp [OrderedMap.keys, Function.comp_def]
  have added : addParts p.settings.dialect
        (q.replacements.toList.foldl (fun (ps : Parts) p => ps.insert p.1 p.2) base) p.additions =
      addParts q.settings.dialect
        (q.replacements.toList.foldl (fun (ps : Parts) p => ps.insert p.1 p.2) base)
        q.additions := by
    rw [addParts_eq (keys ▸ hb) hp.2 fun key h => keys ▸ hk.2 key h,
      addParts_eq (keys ▸ hb) hq.2 fun key h => keys ▸ hk.2 key ((same ha key).mpr h), hs]
    simp only [ha]
  rw [hs] at added
  simp only [replaced, hs, added]

end Query

/-- A fragment as it is recorded: its part, its side and its text. -/
abbrev Entry := String × Placement × Text

/-- The texts that entries put on one side of a part. -/
def Entry.side (part : String) (placement : Placement) (log : List Entry) : List Text :=
  log.filterMap fun e => if e.1 = part ∧ e.2.1 = placement then some e.2.2 else none

/-- Of entries for one part, some from each of several sources, a side has the texts of the sources
that place theirs there. -/
theorem Entry.side_flatMap {ι : Type} (part : String) (place : ι → Placement)
    (texts : ι → List Text) (side : Placement) (l : List ι) :
    Entry.side part side (l.flatMap fun a => (texts a).map fun t => (part, place a, t)) =
      (l.filter fun a => place a = side).flatMap texts := by
  induction l with
  | nil => rfl
  | cons a l ih =>
      rw [List.flatMap_cons, Entry.side, List.filterMap_append, ← Entry.side, ← Entry.side, ih,
        List.filter_cons]
      by_cases h : place a = side
      · simp [Entry.side, h, List.filterMap_map]
      · simp [Entry.side, h]

/-- Options that do not ask for a replacement put fragments on a side. -/
theorem PartOptions.getD_placement_ne {o : PartOptions} (h : o.placement ≠ some .replace) :
    o.placement.getD .append ≠ .replace := by
  cases hp : o.placement with
  | none => simp
  | some placement => simpa [hp] using h

/-- The fragments in front of a part and behind it, if there are any. -/
def Addition.of? (prepend append : List Text) : Option Addition :=
  if prepend.isEmpty && append.isEmpty then none else some { prepend, append }

theorem Addition.getD_of? (prepend append : List Text) :
    (of? prepend append).getD {} = { prepend, append } := by
  cases prepend <;> cases append <;> rfl

namespace Query
variable {q : Query}

/-- A query that holds the given entries and nothing else. -/
structure Holds (q : Query) (log : List Entry) : Prop where
  nodup : q.replacements.keys.Nodup ∧ q.additions.keys.Nodup
  replacements : ∀ part, q.replacements.get? part = (Entry.side part .replace log).getLast?
  additions : ∀ part, q.additions.get? part =
    Addition.of? (Entry.side part .prepend log) (Entry.side part .append log)

/-- Only parts with entries have changes. -/
theorem Holds.keys_inside {log : List Entry} {keys : List String} (h : q.Holds log)
    (inside : ∀ e ∈ log, e.1 ∈ keys) :
    (∀ key ∈ q.replacements.keys, key ∈ keys) ∧ ∀ key ∈ q.additions.keys, key ∈ keys := by
  have written (placement : Placement) {key : String}
      (hn : Entry.side key placement log ≠ []) : key ∈ keys := by
    obtain ⟨text, ht⟩ := List.exists_mem_of_ne_nil _ hn
    obtain ⟨e, he, hk⟩ := List.mem_filterMap.mp ht
    split at hk
    · rename_i hp
      exact hp.1 ▸ inside e he
    · cases hk
  refine ⟨fun key hk => ?_, fun key hk => ?_⟩
  · rw [← OrderedMap.contains_iff, OrderedMap.contains, h.replacements] at hk
    exact written .replace fun hn => by simp [hn] at hk
  · rw [← OrderedMap.contains_iff, OrderedMap.contains, h.additions] at hk
    by_cases hp : Entry.side key .prepend log = []
    · exact written .append fun hn => by simp [hn, hp, Addition.of?] at hk
    · exact written .prepend hp

theorem Holds.record {log : List Entry} (h : q.Holds log) (part : String)
    (f : Placement × Text) : (record part q f).Holds (log ++ [(part, f)]) := by
  obtain ⟨placement, t⟩ := f
  have known := h.additions part
  have other {key : String} (hk : part ≠ key) (side : Placement) :
      Entry.side key side (log ++ [(part, placement, t)]) = Entry.side key side log := by
    simp [Entry.side, hk]
  have across {side : Placement} (hs : placement ≠ side) :
      Entry.side part side (log ++ [(part, placement, t)]) = Entry.side part side log := by
    simp [Entry.side, hs]
  have behind : Entry.side part placement (log ++ [(part, placement, t)]) =
      Entry.side part placement log ++ [t] := by
    simp [Entry.side]
  cases placement with
  | replace =>
      refine ⟨⟨OrderedMap.nodup_keys_insert h.nodup.1 _ _, h.nodup.2⟩, fun key => ?_, fun key => ?_⟩
      · change (q.replacements.insert part t).get? key = _
        by_cases hk : part = key
        · subst hk
          simp [behind]
        · rw [OrderedMap.get?_insert_of_ne _ hk, h.replacements, other hk]
      · change q.additions.get? key = _
        by_cases hk : part = key
        · subst hk
          rw [known, across (by simp), across (by simp)]
        · rw [h.additions, other hk, other hk]
  | prepend =>
      refine ⟨⟨h.nodup.1, OrderedMap.nodup_keys_insert h.nodup.2 _ _⟩, fun key => ?_, fun key => ?_⟩
      · change q.replacements.get? key = _
        by_cases hk : part = key
        · subst hk
          rw [h.replacements, across (by simp)]
        · rw [h.replacements, other hk]
      · dsimp only [Query.record]
        by_cases hk : part = key
        · subst hk
          rw [OrderedMap.get?_insert_self, behind, across (by simp), known, Addition.getD_of?]
          simp [Addition.of?]
        · rw [OrderedMap.get?_insert_of_ne _ hk, h.additions, other hk, other hk]
  | append =>
      refine ⟨⟨h.nodup.1, OrderedMap.nodup_keys_insert h.nodup.2 _ _⟩, fun key => ?_, fun key => ?_⟩
      · change q.replacements.get? key = _
        by_cases hk : part = key
        · subst hk
          rw [h.replacements, across (by simp)]
        · rw [h.replacements, other hk]
      · dsimp only [Query.record]
        by_cases hk : part = key
        · subst hk
          rw [OrderedMap.get?_insert_self, behind, across (by simp), known, Addition.getD_of?]
          simp [Addition.of?]
        · rw [OrderedMap.get?_insert_of_ne _ hk, h.additions, other hk, other hk]

end Query

theorem keys_capturesOf {steps : List Step} {ts : List Token} {cs : List Choice}
    (h : route steps ts = some cs) :
    (capturesOf steps cs).map (·.1) = steps.filterMap Step.key? := by
  induction steps generalizing ts cs with
  | nil => simp [capturesOf]
  | cons step steps ih =>
      obtain ⟨c, cs', rfl, -, hr⟩ := route_cons_eq_some h
      rw [capturesOf, List.map_append, ih hr, List.filterMap_cons, Step.captures]
      cases step.key? <;> rfl

theorem Pattern.nodup_keys {d : Dialect} {type : StatementType} {p : Pattern}
    (hp : ofType? d type = some p) : (p.steps.filterMap Step.key?).Nodup := by
  cases type with
  | other phrase => simp [ofType?] at hp
  | _ =>
      cases hp
      cases d <;> decide

/-- A statement is split into the parts of its pattern. -/
theorem exists_keys_split {s : Settings} {t : Text} {ps : Parts} (h : split s t = .ok ps) :
    ∃ type p, StatementType.detect s.dialect t = some type ∧
      Pattern.ofType? s.dialect type = some p ∧ ps.keys = p.steps.filterMap Step.key? := by
  obtain ⟨type, p, hd, hp⟩ := exists_pattern h
  obtain ⟨matched, hm⟩ := Pattern.exists_matched h hd hp
  obtain ⟨cs, sets, hr, rfl, -⟩ := exists_captures h hd hp hm
  have keys : (Subquery.injectParts s.dialect sets ⟨capturesOf p.steps cs⟩).keys =
      (capturesOf p.steps cs).map (·.1) := by
    rw [Subquery.injectParts]
    split
    · rfl
    · simp [OrderedMap.mapValues, OrderedMap.keys, Function.comp_def]
  exact ⟨type, p, hd, hp, keys.trans (keys_capturesOf hr)⟩

/-- A statement is split into parts with different keys. -/
theorem nodup_keys_split {s : Settings} {t : Text} {ps : Parts} (h : split s t = .ok ps) :
    ps.keys.Nodup := by
  obtain ⟨type, p, -, hp, keys⟩ := exists_keys_split h
  rw [keys]
  exact Pattern.nodup_keys hp

namespace Mutation
variable {s : Settings} {t : Text}

/-- The entries that a steady mutation adds to any changes of a statement. -/
def entries (s : Settings) (t : Text) (m : Mutation) : Except Error (List Entry) := do
  match ← m.change?.answer (Query.ofStatement s t) with
  | none => return []
  | some c =>
      let base ← split s t
      unless base.contains c.part do
        throw (.missingPart (StatementType.shown (Query.ofStatement s t).type?) (.part c.part))
      return c.fragments.map fun f => (c.part, f)

/-- The entries of a mutation, none if it fails. -/
def log (s : Settings) (t : Text) (m : Mutation) : List Entry := (m.entries s t).toOption.getD []

/-- A change to a part that the statement has leaves its fragments. -/
theorem entries_of_change {m : Mutation} {c : Change} {base : Parts}
    (hc : m.change?.answer (Query.ofStatement s t) = .ok (some c)) (hs : split s t = .ok base)
    (hb : base.contains c.part = true) :
    m.entries s t = .ok (c.fragments.map fun f => (c.part, f)) := by
  simp only [entries, hc, hs, Bind.bind, Except.bind, hb]
  rfl

/-- A mutation with fragments leaves the values for placeholders. -/
theorem parameters_of_change {m : Mutation} {q : Query} {c : Change}
    (h : m.change?.answer q = .ok (some c)) (ps : Parameters) : m.parameters ps = ps := by
  cases m with
  | bind values => cases h
  | bindNamed values => cases h
  | _ => rfl

end Mutation

namespace Query
variable {s : Settings} {t : Text} {log : List Entry} {ps : Parameters} {q : Query}

/-- A query that is a statement with the given entries and values, all of whose parts are in the
statement. -/
structure Recorded (s : Settings) (t : Text) (log : List Entry) (ps : Parameters) (q : Query) :
    Prop where
  base : q.base = ofStatement s t
  attached : q.attached = []
  parameters : q.parameters = ps
  sound : q.Sound
  holds : q.Holds log
  inside : ∀ e ∈ log, ∃ base, split s t = .ok base ∧ base.contains e.1 = true

theorem recorded_ofStatement (s : Settings) (t : Text) :
    Recorded s t [] {} (ofStatement s t) where
  base := rfl
  attached := rfl
  parameters := rfl
  sound := sound_empty (ofStatement s t)
  holds := ⟨⟨List.nodup_nil, List.nodup_nil⟩, fun _ => rfl, fun _ => rfl⟩
  inside := by simp

theorem Recorded.statement_eq (h : Recorded s t log ps q) : q.settings = s ∧ q.statement = t := by
  have base := h.base
  simp only [Query.base, ofStatement, mk.injEq] at base
  exact ⟨base.2.1, base.1⟩

theorem Recorded.baseParts_eq (h : Recorded s t log ps q) : q.baseParts = split s t := by
  rw [baseParts, baseText, h.attached, anyChanged, assemble, if_neg (by decide), h.statement_eq.1,
    h.statement_eq.2]
  rfl

theorem Recorded.compose_eq (h : Recorded s t log ps q) {base : Parts} (hs : split s t = .ok base) :
    q.compose = q.composeFrom base := by
  rw [compose, h.baseParts_eq, hs]
  rfl

theorem Holds.foldl_record (h : q.Holds log) (part : String) (fragments : List (Placement × Text)) :
    (fragments.foldl (Query.record part) q).Holds (log ++ fragments.map fun f => (part, f)) := by
  induction fragments generalizing q log with
  | nil => simpa using h
  | cons f fragments ih => simpa using ih (h.record part f)

/-- A query with further entries and nothing else changed but the memo. -/
theorem Recorded.append {q' : Query} (h : Recorded s t log ps q) {more : List Entry}
    (hq : q'.base = q.base ∧ q'.attached = q.attached ∧ q'.parameters = q.parameters)
    (sound : q'.Sound) (holds : q'.Holds (log ++ more))
    (inside : ∀ e ∈ more, ∃ base, split s t = .ok base ∧ base.contains e.1 = true) :
    Recorded s t (log ++ more) ps q' where
  base := hq.1.trans h.base
  attached := hq.2.1.trans h.attached
  parameters := hq.2.2.trans h.parameters
  sound := sound
  holds := holds
  inside := List.forall_mem_append.mpr ⟨h.inside, inside⟩

theorem Recorded.applied (h : Recorded s t log ps q) {c : Change}
    (hc : ∃ base, split s t = .ok base ∧ base.contains c.part = true) :
    Recorded s t (log ++ c.fragments.map fun f => (c.part, f)) ps (c.applied q) := by
  refine h.append (c.unchanged_applied q) (c.sound_applied h.sound) ?_ fun e he => ?_
  · have holds := h.holds.foldl_record c.part c.fragments
    rw [Change.applied]
    split
    · rename_i hf
      simpa [List.isEmpty_iff.mp hf] using holds
    · exact ⟨holds.nodup, holds.replacements, holds.additions⟩
  · obtain ⟨f, -, rfl⟩ := List.mem_map.mp he
    exact hc

theorem Recorded.withMemo (h : Recorded s t log ps q) {m : Memo} (hm : (q.withMemo m).Sound) :
    Recorded s t log ps (q.withMemo m) where
  base := h.base
  attached := h.attached
  parameters := h.parameters
  sound := hm
  holds := ⟨h.holds.nodup, h.holds.replacements, h.holds.additions⟩
  inside := h.inside

/-- A steady mutation adds its entries, or fails on all queries of the statement alike. -/
theorem Recorded.mutate (h : Recorded s t log ps q) {m : Mutation} (hm : m.IsSteady) :
    match m.entries s t with
    | .ok more => ∃ q', (Edit.mutate m).run q = .ok () q' ∧
        Recorded s t (log ++ more) (m.parameters ps) q'
    | .error e => ∃ q', (Edit.mutate m).run q = .error e q' := by
  have change := Mutation.run_change?_of_base hm (p := q) (q := ofStatement s t) h.base
  rw [Edit.run_mutate, change, Mutation.entries]
  cases hc : m.change?.answer (ofStatement s t) with
  | error e => exact ⟨q, rfl⟩
  | ok c =>
      cases c with
      | none =>
          refine ⟨_, rfl, h.base, h.attached, congrArg m.parameters h.parameters, ?_, ?_, ?_⟩
          · exact ⟨h.sound.base, h.sound.composed, h.sound.written⟩
          · rw [List.append_nil]
            exact ⟨h.holds.nodup, h.holds.replacements, h.holds.additions⟩
          · simpa using h.inside
      | some c =>
          have type : q.type? = (ofStatement s t).type? := by
            rw [type?, type?, h.statement_eq.1, h.statement_eq.2]
            rfl
          obtain ⟨memo, sound, run⟩ :=
            Edit.reads_requirePart q c.part q.memo (q.withMemo_self.symm ▸ h.sound)
          rw [q.withMemo_self, h.baseParts_eq, type] at run
          change match (split s t >>= fun base => _ : Except Error (List Entry)) with
            | .ok more => ∃ q', (Edit.commit c).run q = _ ∧ _
            | .error e => ∃ q', (Edit.commit c).run q = _
          rw [Edit.run_commit, run, Mutation.parameters_of_change hc]
          cases hs : split s t with
          | error e => exact ⟨_, rfl⟩
          | ok base =>
              by_cases hb : base.contains c.part = true
              · simp only [bind, Except.bind, hb]
                exact ⟨_, rfl, (h.withMemo sound).applied ⟨base, hs, hb⟩⟩
              · simp only [bind, Except.bind, hb]
                exact ⟨_, rfl⟩

/-- Steady mutations of which none fails leave their entries one after the other. -/
theorem Recorded.exists_forM (h : Recorded s t log ps q) {ms : List Mutation}
    (hm : ∀ m ∈ ms, m.IsSteady) (ha : ∀ m ∈ ms, ∃ more, m.entries s t = .ok more) :
    ∃ q', (forM ms Edit.mutate).run q = .ok () q' ∧
      Recorded s t (log ++ ms.flatMap (Mutation.log s t)) (ms.foldl Mutation.parameters ps) q' := by
  induction ms generalizing q log ps with
  | nil => exact ⟨q, rfl, by simpa using h⟩
  | cons m ms ih =>
      rw [List.forall_mem_cons] at hm ha
      obtain ⟨more, entries⟩ := ha.1
      have step := h.mutate hm.1
      rw [entries] at step
      obtain ⟨q₁, run₁, h₁⟩ := step
      obtain ⟨q', run, h'⟩ := ih h₁ hm.2 ha.2
      refine ⟨q', ?_, ?_⟩
      · rw [List.forM_cons, Edit.run_bind, run₁]
        exact run
      · rw [List.flatMap_cons, ← List.append_assoc, Mutation.log, entries]
        exact h'

/-- Steady mutations of a statement whose entries are known are all accepted. -/
theorem exists_recorded {ι : Type} {l : List ι} {g : ι → Mutation} {f : ι → List Entry}
    (hm : ∀ a ∈ l, (g a).IsSteady) (he : ∀ a ∈ l, (g a).entries s t = .ok (f a)) :
    ∃ q, (forM (l.map g) Edit.mutate).run (ofStatement s t) = .ok () q ∧
      Recorded s t (l.flatMap f) ((l.map g).foldl Mutation.parameters {}) q := by
  obtain ⟨q, run, recorded⟩ := (recorded_ofStatement s t).exists_forM
    (List.forall_mem_map.mpr hm) (List.forall_mem_map.mpr fun a ha => ⟨_, he a ha⟩)
  have logged : (l.map g).flatMap (Mutation.log s t) = l.flatMap f := by
    rw [List.flatMap_map]
    refine List.flatMap_congr fun a ha => ?_
    rw [Mutation.log, he a ha]
    rfl
  rw [List.nil_append, logged] at recorded
  exact ⟨q, run, recorded⟩

theorem Recorded.entries_of_forM (h : Recorded s t log ps q) {ms : List Mutation} {q' : Query}
    (hm : ∀ m ∈ ms, m.IsSteady) (run : (forM ms Edit.mutate).run q = .ok () q') :
    ∀ m ∈ ms, ∃ more, m.entries s t = .ok more := by
  induction ms generalizing q log ps with
  | nil => simp
  | cons m ms ih =>
      rw [List.forall_mem_cons] at hm ⊢
      rw [List.forM_cons, Edit.run_bind] at run
      have step := h.mutate hm.1
      cases entries : m.entries s t with
      | error e =>
          rw [entries] at step
          obtain ⟨q₁, run₁⟩ := step
          rw [run₁] at run
          cases run
      | ok more =>
          rw [entries] at step
          obtain ⟨q₁, run₁, h₁⟩ := step
          rw [run₁] at run
          exact ⟨⟨more, rfl⟩, ih h₁ hm.2 run⟩

/-- Steady mutations that have all succeeded have left their entries one after the other. -/
theorem Recorded.of_forM (h : Recorded s t log ps q) {ms : List Mutation} {q' : Query}
    (hm : ∀ m ∈ ms, m.IsSteady) (run : (forM ms Edit.mutate).run q = .ok () q') :
    Recorded s t (log ++ ms.flatMap (Mutation.log s t)) (ms.foldl Mutation.parameters ps) q' := by
  obtain ⟨p, run', recorded⟩ := h.exists_forM hm (h.entries_of_forM hm run)
  rw [run] at run'
  cases run'
  exact recorded

/-- Every key of a recorded query is a part of the statement. -/
theorem Recorded.keys_inside (h : Recorded s t log ps q) {base : Parts}
    (hs : split s t = .ok base) :
    (∀ key ∈ q.replacements.keys, key ∈ base.keys) ∧
      ∀ key ∈ q.additions.keys, key ∈ base.keys := by
  refine h.holds.keys_inside fun e he => ?_
  obtain ⟨base', hs', hc⟩ := h.inside e he
  rw [hs] at hs'
  cases hs'
  exact OrderedMap.contains_iff.mp hc

end Query
end SqlStatement
