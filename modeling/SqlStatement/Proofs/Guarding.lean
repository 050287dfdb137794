import SqlStatement.Expression.Mode
import SqlStatement.Proofs.Chaining
import SqlStatement.Proofs.Opening
import SqlStatement.Split

/-!
# The nesting limit

How deep a text nests is a number of its own. Whatever descends into groups or
subqueries gives the same for every limit from this depth on, and the report
that the limit was hit for every limit below it. Since a text nests no deeper
than it has opening parentheses, a limit above their number never matters.
-/
namespace SqlStatement

variable {α β : Type}

/-- What it means that a nesting limit is only a guard for a function of it: a result stays the same
under a higher limit, an error does so too unless it says that the limit was hit, and with more
levels than there are opening parentheses the limit is never hit. -/
structure OnlyGuards (f : Nat → Except Error α) (opens : Nat) : Prop where
  ok : ∀ m m' r, m ≤ m' → f m = .ok r → f m' = .ok r
  error : ∀ m m' e, m ≤ m' → f m = .error e → e = .nestingTooDeep m ∨ f m' = .error e
  enough : ∀ m n, opens < m → f m ≠ .error (.nestingTooDeep n)

/-- Whether a result is anything but the report that the nesting limit was hit. -/
def Unlimited (v : Except Error α) : Prop := ∀ n, v ≠ .error (.nestingTooDeep n)

theorem unlimited_ok (r : α) : Unlimited (.ok r) := by rintro n ⟨⟩

/-- A function of the nesting limit that takes a depth and reports any limit below. -/
def TakesDepth (f : Nat → Except Error α) (depth : Nat) : Prop :=
  ∃ v, Unlimited v ∧ ∀ m, f m = if depth ≤ m then v else .error (.nestingTooDeep m)

theorem Unlimited.error {e : Error} (h : Unlimited (.error e : Except Error α)) :
    Unlimited (.error e : Except Error β) :=
  fun n same => h n (congrArg Except.error (Except.error.inj same))

theorem Unlimited.bind {v : Except Error α} (h : Unlimited v) {g : α → Except Error β}
    (hg : ∀ r, Unlimited (g r)) : Unlimited (v >>= g) := by
  cases v with
  | ok r => exact hg r
  | error e => exact h.error

theorem takesDepth_of_unlimited {v : Except Error α} (h : Unlimited v) :
    TakesDepth (fun _ => v) 0 :=
  ⟨v, h, fun m => (if_pos m.zero_le).symm⟩

/-- What is done with a result takes no further depth. -/
theorem TakesDepth.bind {f : Nat → Except Error α} {depth : Nat} (h : TakesDepth f depth)
    {g : α → Except Error β} (hg : ∀ r, Unlimited (g r)) :
    TakesDepth (fun m => f m >>= g) depth := by
  obtain ⟨v, unlimited, given⟩ := h
  refine ⟨v >>= g, unlimited.bind hg, fun m => ?_⟩
  dsimp only
  rw [given]
  split <;> rfl

theorem TakesDepth.onlyGuards {f : Nat → Except Error α} {depth opens : Nat}
    (h : TakesDepth f depth) (hd : depth ≤ opens + 1) : OnlyGuards f opens := by
  obtain ⟨v, unlimited, given⟩ := h
  refine ⟨fun m m' r hm hf => ?_, fun m m' e hm hf => ?_, fun m n hm => ?_⟩
  · rw [given] at hf ⊢
    split at hf
    · rw [if_pos (by omega), hf]
    · cases hf
  · rw [given] at hf
    split at hf
    · exact .inr (by rw [given, if_pos (by omega), hf])
    · cases hf
      exact .inl rfl
  · rw [given, if_pos (by omega)]
    exact unlimited n

namespace Subquery
variable {d : Dialect}

theorem unlimited_parts (p : Pattern) (d : Dialect) (statement text : Text) :
    Unlimited (p.parts d statement text) := by
  rw [Pattern.parts]
  split
  · exact unlimited_ok _
  · rintro n ⟨⟩

theorem unlimited_insertedQuery? (s : Settings) (t : Text) : Unlimited (insertedQuery? s t) := by
  rw [insertedQuery?]
  split
  · exact unlimited_ok _
  · split
    · exact unlimited_ok _
    · rename_i pattern _
      refine (unlimited_parts pattern s.dialect t t).bind fun parts => ?_
      split <;> exact unlimited_ok _

/-- The query of an INSERT has the opening parentheses of the statement at most, and with a marker
in its place the statement is written with one more at most. -/
theorem count_insertedQuery?_le {s : Settings} {t query : Text} {parts : Parts}
    (h : insertedQuery? s t = .ok (some (parts, query))) :
    query.count '(' ≤ t.count '(' ∧
      (Parts.join (parts.insert "query" (marker 1))).count '(' ≤ t.count '(' + 1 := by
  rw [insertedQuery?] at h
  split at h
  · cases h
  · split at h
    · cases h
    · rename_i pattern known
      cases hp : pattern.parts s.dialect t t with
      | error e =>
          rw [hp] at h
          cases h
      | ok ps =>
          rw [hp] at h
          simp only [bind, Except.bind] at h
          split at h
          · cases h
            refine ⟨?_, Pattern.count_join_insert_le known hp (by decide) (by decide)⟩
            refine Nat.le_trans ?_ (Pattern.opens_parts_le hp)
            rw [Parts.text, OrderedMap.get?]
            cases found : OrderedMap.find? "query" parts.toList with
            | none => simp
            | some query => exact Parts.count_le_opens found
          · cases h

/-- The query of an INSERT takes one level more than its own text, and what is written around its
marker is read anew. -/
theorem extract_inserted {m : Nat} {t query : Text} {parts : Parts}
    (mentions : mentionsSelect headBytes t = true)
    (found : insertedQuery? ⟨d, m⟩ t = .ok (some (parts, query))) :
    let inside := Nesting.ofText d query
    let outside := Nesting.ofText d (Parts.join (parts.insert "query" (marker 1)))
    extract ⟨d, m⟩ t =
      if max (inside.depth + 1) outside.depth ≤ m then
        .ok {
          outer := outerText (2 + inside.queries.length) outside
          subqueries := outerText 2 inside :: (outerTexts 2 inside.queries ++
            outerTexts (2 + inside.queries.length) outside.queries) }
      else .error (.nestingTooDeep m) := by
  intro inside outside
  rw [extract, if_pos mentions, found]
  cases m with
  | zero =>
      rw [if_neg (by omega)]
      rfl
  | succ below =>
      change (takeOut (below + 1) inside below 2 >>= fun q =>
        takeOut (below + 1) outside (below + 1) (2 + q.subqueries.length) >>= fun r =>
          .ok (Extraction.mk r.outer (q.outer :: (q.subqueries ++ r.subqueries)))) = _
      simp only [takeOut_eq]
      rw [bind_both]
      simp only [length_outerTexts]
      exact if_congr (by omega) rfl rfl

/-- An extraction takes no more depth than the statement has opening parentheses, or one level more
for the query of an INSERT. -/
theorem takesDepth_extract (d : Dialect) (t : Text) :
    ∃ depth ≤ t.count '(' + 1, TakesDepth (fun m => extract ⟨d, m⟩ t) depth := by
  by_cases mentions : mentionsSelect headBytes t = true
  · -- Whether a query is inserted, and which, does not depend on the limit.
    have same (m : Nat) : insertedQuery? ⟨d, m⟩ t = insertedQuery? ⟨d, 0⟩ t := rfl
    have unlimited := unlimited_insertedQuery? ⟨d, 0⟩ t
    match found : insertedQuery? ⟨d, 0⟩ t with
    | .error e =>
        rw [found] at unlimited
        exact ⟨0, Nat.zero_le _, _, unlimited.error, fun m => by
          dsimp only
          rw [extract, if_pos mentions, same, found, if_pos m.zero_le]
          rfl⟩
    | .ok none =>
        exact ⟨_, Nat.le_succ_of_le (Nesting.depth_ofText_le d t), _, unlimited_ok _, fun m => by
          dsimp only
          rw [extract, if_pos mentions, same, found, ← takeOut_eq]
          rfl⟩
    | .ok (some (parts, query)) =>
        obtain ⟨inside, outside⟩ := count_insertedQuery?_le found
        have deepInside := Nesting.depth_ofText_le d query
        have deepOutside :=
          Nesting.depth_ofText_le d (Parts.join (parts.insert "query" (marker 1)))
        exact ⟨_, by omega, _, unlimited_ok _, fun m => extract_inserted mentions (same m ▸ found)⟩
  · exact ⟨0, Nat.zero_le _, _, unlimited_ok { outer := t }, fun m => by
      dsimp only
      rw [extract, if_neg mentions, if_pos m.zero_le]
      rfl⟩

end Subquery

/-- Splitting takes the depth of the extraction that hides subqueries, if there are any to hide. -/
theorem takesDepth_split (d : Dialect) (t : Text) :
    ∃ depth ≤ t.count '(' + 1, TakesDepth (fun m => split ⟨d, m⟩ t) depth := by
  simp only [split]
  split
  · exact ⟨0, Nat.zero_le _, takesDepth_of_unlimited (by rintro n ⟨⟩)⟩
  split
  · exact ⟨0, Nat.zero_le _, takesDepth_of_unlimited (by rintro n ⟨⟩)⟩
  rename_i p _
  have plain := takesDepth_of_unlimited (Subquery.unlimited_parts p d t t)
  split
  · simp only [Pattern.partsAround]
    split
    · obtain ⟨depth, bound, extracted⟩ := Subquery.takesDepth_extract d t
      exact ⟨depth, bound, extracted.bind fun e =>
        (Subquery.unlimited_parts p d t e.outer).bind fun _ => unlimited_ok _⟩
    · exact ⟨0, Nat.zero_le _, plain⟩
  · exact ⟨0, Nat.zero_le _, plain⟩

namespace TableList
variable {d : Dialect}

/-- Whether a table list gives the same for all numbers of levels that may be entered from some
depth on. -/
def Takes (d : Dialect) (p : Place) (depth : Nat) (found : List (Text × Text)) : Prop :=
  ∀ m room, entries d (tables ⟨d, m⟩ room) p =
    if depth ≤ room then .ok found else .error (.nestingTooDeep m)

/-- A list that is entered takes one level more. -/
theorem Takes.tables_eq {t : Text} {depth : Nat} {found : List (Text × Text)}
    (h : Takes d { rest := t } depth found) (m room : Nat) :
    tables ⟨d, m⟩ room t =
      if depth + 1 ≤ room then .ok found else .error (.nestingTooDeep m) := by
  cases room with
  | zero => rfl
  | succ room =>
      rw [tables, h]
      simp only [Nat.add_le_add_iff_right]

/-- What stands in a group is read with one level less than the tables behind it. -/
theorem exists_takes (d : Dialect) (p : Place) :
    ∃ depth ≤ p.rest.count '(', ∃ found, Takes d p depth found := by
  match hp : p.rest, hr : TableRef.read? d p with
  | [], _ =>
      refine ⟨0, Nat.zero_le _, [], fun m room => ?_⟩
      obtain ⟨before, rest⟩ := p
      cases hp
      rw [entries_nil, if_pos room.zero_le]
  | c :: rest, none =>
      have shorter : (p.past [c] rest).rest.length < p.rest.length := by
        rw [hp]
        exact Nat.lt_succ_self _
      obtain ⟨depth, bound, found, takes⟩ := exists_takes d (p.past [c] rest)
      refine ⟨depth, Nat.le_trans bound List.count_le_count_cons, found, fun m room => ?_⟩
      rw [entries_of_none hp hr, takes]
  | c :: rest, some (table, q) =>
      have shorter := TableRef.length_read?_lt hr
      obtain ⟨behind, group⟩ := TableRef.read?_suffix hr
      obtain ⟨depth, bound, found, takes⟩ := exists_takes d q
      have bound := Nat.le_trans bound (behind.sublist.count_le '(')
      rw [← hp]
      by_cases list : ∃ inner, table.group = some inner ∧ table.isList = true
      · obtain ⟨inner, grouped, list⟩ := list
        have within := (group inner grouped).sublist
        have shorter : inner.length < p.rest.length := within.length_le
        obtain ⟨deep, fewer, inside, takesInside⟩ := exists_takes d { rest := inner }
        have opened := within.count_le '('
        rw [List.count_cons_self] at opened
        change deep ≤ inner.count '(' at fewer
        refine ⟨max (deep + 1) depth, by omega, inside ++ found, fun m room => ?_⟩
        rw [entries_of_read? hr, grouped, list]
        dsimp only
        rw [takesInside.tables_eq, takes]
        exact (bind_both _ inside (fun _ => found) (· ++ ·)).trans
          (if_congr Nat.max_le.symm rfl rfl)
      · refine ⟨depth, bound, (table.key d, table.reference) :: found, fun m room => ?_⟩
        rw [entries_of_read? hr, takes]
        cases grouped : table.group with
        | none => split <;> rfl
        | some inner =>
            cases isList : table.isList with
            | true => exact absurd ⟨inner, grouped, isList⟩ list
            | false => split <;> rfl
termination_by p.rest.length

end TableList
theorem count_tablePart_le {ps : Parts} {t : Text} (h : tablePart ps = .ok t) :
    t.count '(' ≤ Parts.opens ps.toList := by
  rw [tablePart] at h
  split at h
  · rename_i part found
    cases h
    simp only [Option.or_eq_some_iff] at found
    rcases found with (found | ⟨-, found⟩) | ⟨-, found⟩ <;> exact Parts.count_le_opens found
  · cases h

theorem takesDepth_splitTables (d : Dialect) (ps : Parts) :
    ∃ depth ≤ Parts.opens ps.toList, TakesDepth (fun m => splitTables ⟨d, m⟩ ps) depth := by
  simp only [splitTables]
  cases part : tablePart ps with
  | error e =>
      have unlimited : Unlimited (.error e : Except Error Text) := by
        rw [← part, tablePart]
        split <;> rintro n ⟨⟩
      exact ⟨0, Nat.zero_le _, takesDepth_of_unlimited unlimited.error⟩
  | ok t =>
      obtain ⟨depth, bound, found, takes⟩ := TableList.exists_takes d { rest := t }
      have read : TakesDepth (fun m => TableList.tables ⟨d, m⟩ (m + 1) t) depth :=
        ⟨_, unlimited_ok found, fun m => by
          dsimp only
          rw [takes.tables_eq]
          simp only [Nat.add_le_add_iff_right]⟩
      exact ⟨depth, Nat.le_trans bound (count_tablePart_le part),
        read.bind fun es => unlimited_ok (OrderedMap.ofList es)⟩

/-- Cleaning the types of CAST calls takes as many levels as there are groups in one another. -/
theorem CastTarget.exists_clean_eq (q : Char) (n : Nesting) (seen : Text) :
    ∃ out, ∀ limit room, clean limit q n room seen =
      if n.height ≤ room then .ok out else .error (.nestingTooDeep limit) := by
  induction n generalizing seen with
  | done => exact ⟨[], fun limit room => (if_pos room.zero_le).symm⟩
  | piece p rest ih =>
      obtain ⟨out, cleaned⟩ := ih (p.text.reverse ++ seen)
      refine ⟨p.text ++ out, fun limit room => ?_⟩
      rw [clean, cleaned, Nesting.height]
      split <;> rfl
  | group inner rest ih₁ ih₂ =>
      obtain ⟨inside, cleanedInside⟩ := ih₁ []
      obtain ⟨behind, cleanedBehind⟩ := ih₂ []
      refine ⟨'(' :: ((if endsWithCast seen then strip q inside else inside) ++ ')' :: behind),
        fun limit room => ?_⟩
      rw [Nesting.height]
      cases room with
      | zero => rw [clean, if_neg (by omega)]
      | succ below =>
          rw [clean, cleanedInside, cleanedBehind]
          exact (bind_both _ inside (fun _ => behind) _).trans (if_congr (by omega) rfl rfl)

theorem takesDepth_quoteSmart (d : Dialect) (t : Text) :
    ∃ depth ≤ t.count '(', TakesDepth (fun m => quoteSmart ⟨d, m⟩ t) depth := by
  by_cases mentioned : CastTarget.isMentioned none (d.quoteNames t) = true
  · obtain ⟨out, cleaned⟩ :=
      CastTarget.exists_clean_eq d.identifierQuote (Nesting.ofText d (d.quoteNames t)) []
    have bound := Nesting.height_ofText_le d (d.quoteNames t)
    rw [Dialect.count_quoteNames] at bound
    refine ⟨_, bound, _, unlimited_ok out, fun m => ?_⟩
    rw [← cleaned m m]
    exact if_pos mentioned
  · have read : (fun m => quoteSmart ⟨d, m⟩ t) = fun _ => .ok (d.quoteNames t) :=
      funext fun _ => if_neg mentioned
    rw [read]
    exact ⟨0, Nat.zero_le _, takesDepth_of_unlimited (unlimited_ok _)⟩

theorem takesDepth_quoteIdentifier (d : Dialect) (t : Text) :
    ∃ depth ≤ t.count '(', TakesDepth (fun m => quoteIdentifier ⟨d, m⟩ .smart t) depth := by
  by_cases balanced : d.isBalanced t = true
  · have read : (fun m => quoteIdentifier ⟨d, m⟩ .smart t) = fun m => quoteSmart ⟨d, m⟩ t :=
      funext fun _ => if_pos balanced
    rw [read]
    exact takesDepth_quoteSmart d t
  · have read : (fun m => quoteIdentifier ⟨d, m⟩ .smart t) =
        fun _ => .error (.unsafeIdentifier t) := funext fun _ => if_neg balanced
    rw [read]
    exact ⟨0, Nat.zero_le _, takesDepth_of_unlimited (by rintro n ⟨⟩)⟩

/-- The nesting limit is only a guard for everything that descends into a text. -/
theorem onlyGuards_maxNesting (d : Dialect) :
    (∀ t, OnlyGuards (fun m => Subquery.extract ⟨d, m⟩ t) (t.count '(')) ∧
      (∀ t, OnlyGuards (fun m => split ⟨d, m⟩ t) (t.count '(')) ∧
      (∀ ps, OnlyGuards (fun m => splitTables ⟨d, m⟩ ps) (Parts.opens ps.toList)) ∧
      ∀ t, OnlyGuards (fun m => quoteIdentifier ⟨d, m⟩ .smart t) (t.count '(') := by
  refine ⟨fun t => ?_, fun t => ?_, fun ps => ?_, fun t => ?_⟩
  · obtain ⟨depth, bound, takes⟩ := Subquery.takesDepth_extract d t
    exact takes.onlyGuards bound
  · obtain ⟨depth, bound, takes⟩ := takesDepth_split d t
    exact takes.onlyGuards bound
  · obtain ⟨depth, bound, takes⟩ := takesDepth_splitTables d ps
    exact takes.onlyGuards (Nat.le_succ_of_le bound)
  · obtain ⟨depth, bound, takes⟩ := takesDepth_quoteIdentifier d t
    exact takes.onlyGuards (Nat.le_succ_of_le bound)

end SqlStatement
