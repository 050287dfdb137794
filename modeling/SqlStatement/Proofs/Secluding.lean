import SqlStatement.Proofs.Curtailing
import SqlStatement.Proofs.Exposing
import SqlStatement.Proofs.Relabeling
import SqlStatement.Proofs.Retaining

/-!
# Subqueries do not count

A statement is split along a route through its veil, and a subquery is one
literal of the veil. So the route is the same whatever the subquery has in it:
one part takes the literal, or the statement has ended before it. Two statements
that differ in the content of one subquery are split into the same parts but for
that content, or are both refused.
-/
namespace SqlStatement
open Token
variable {d : Dialect}

/-- A SELECT, an UPDATE or a DELETE whose subqueries can be hidden: its literals are closed, it has
no marker, and it does not nest too deeply. -/
structure Subquery.Hidable (s : Settings) (t : Text) : Prop where
  type : ∃ type ∈ [.select, .update, .delete], StatementType.detect s.dialect t = some type
  closed : s.dialect.Closed t
  unmarked : ¬"#sub".toList <:+: t
  nesting : extract s t ≠ .error (.nestingTooDeep s.maxNesting)

namespace Subquery.Hidable
variable {s : Settings} {t : Text}

theorem depth_le (h : Hidable s t) : (Nesting.ofText s.dialect t).depth ≤ s.maxNesting := by
  obtain ⟨type, ht, hd⟩ := h.type
  by_contra deep
  refine h.nesting ?_
  rw [extract_eq_of_detect ht hd, if_neg deep]

/-- A statement with subqueries is split along the route through its veil. -/
theorem split_eq (h : Hidable s t) {type : StatementType} {p : Pattern}
    (hd : StatementType.detect s.dialect t = some type)
    (hp : Pattern.ofType? s.dialect type = some p) :
    split s t = (route p.steps (s.dialect.veil t)).elim (.error (.invalidSyntax p.family t))
      fun cs => .ok ⟨restoredOf p.steps cs⟩ := by
  obtain ⟨type', ht, hd'⟩ := h.type
  cases hd.symm.trans hd'
  obtain ⟨p', hp', hides, -⟩ := StatementType.exists_pattern_of_mem s.dialect ht
  cases hp.symm.trans hp'
  rw [split_eq_route h.unmarked hd hp, if_pos fun _ => h.depth_le, Pattern.tokens, if_pos hides]

end Subquery.Hidable

theorem append_cons_cases {α : Type} {u w ts us : List α} {z : α}
    (h : u ++ z :: w = ts ++ us) :
    (∃ r, ts = u ++ z :: r ∧ w = r ++ us) ∨ ∃ u', u = ts ++ u' ∧ us = u' ++ z :: w := by
  rcases List.append_eq_append_iff.mp h with ⟨more, rfl, hm⟩ | ⟨more, rfl, rfl⟩
  · rcases List.cons_eq_append_iff.mp hm with ⟨rfl, rfl⟩ | ⟨r, rfl, rfl⟩
    · exact .inr ⟨[], by simp, rfl⟩
    · exact .inl ⟨r, rfl, rfl⟩
  · exact .inr ⟨more, rfl, rfl⟩

namespace Step
variable {step : Step} {before taken after : List Token}

/-- No literal stands around a part. -/
theorem Frames.quoted_not_mem (h : step.Frames before taken after) (z : Text) :
    .quoted z ∉ before ∧ .quoted z ∉ after := by
  have blanks {gap : List Token} (hg : Blanks gap) : .quoted z ∉ gap := fun hm => by
    cases hg _ hm
  have spells {p : Phrase} {t : List Token} (ht : p.Spells t) : .quoted z ∉ t := fun hm => by
    rcases ht.mem hm with space | ⟨k, -, w, he, -⟩
    · cases space
    · cases he
  cases h with
  | lead hg hp ht => simp [blanks hg, spells ht]
  | modifiers key most hr hg => simp [blanks hg]
  | clause key taken ht hg | rows key taken ht hg => simp [blanks hg, spells ht]
  | columnList key taken hg | query key taken hg => simp [blanks hg]
  | value | options | skip => simp

theorem Frames.exists_key (h : step.Frames before taken after) (ht : taken ≠ []) :
    ∃ key, step.key? = some key := by
  cases h with
  | lead | skip => exact absurd rfl ht
  | _ => exact ⟨_, rfl⟩

/-- A choice comes past a literal: it takes the literal, or the literal stands where the next step
goes on. -/
theorem Takes.past {c : Choice} {u w : List Token} {z : Text}
    (h : step.Takes (u ++ .quoted z :: w) c) :
    (∃ u' l r w', c.taken = l ++ .quoted z :: r ∧ u = u' ++ l ∧ w = r ++ w' ∧ c.next <:+ w' ∧
      ∃ key, step.key? = some key) ∨
    ∃ u' u'', u = u' ++ u'' ∧ c.taken <:+: u' ∧ c.next = u'' ++ .quoted z :: w := by
  obtain ⟨before, after, cuts, frames, -⟩ := h
  obtain ⟨first, last⟩ := frames.quoted_not_mem z
  rcases append_cons_cases cuts.eq_append with ⟨r, rfl, -⟩ | ⟨u, rfl, rest⟩
  · simp at first
  rcases append_cons_cases rest.symm with ⟨r, taken, behind⟩ | ⟨u', split, rest⟩
  · refine .inl ⟨before, u, r, _, taken, rfl, behind, List.suffix_append _ _, ?_⟩
    exact frames.exists_key (by simp [taken])
  rcases append_cons_cases rest.symm with ⟨r, rfl, -⟩ | ⟨u'', rfl, next⟩
  · simp at last
  refine .inr ⟨before ++ (c.taken ++ after), u'', ?_, List.infix_append' _ _ _, next⟩
  rw [split]
  simp

/-- Options that are there are the last thing a statement has. -/
theorem next_eq_nil_of_options {key : String} {keywords : List Phrase} {ts : List Token}
    {c : Choice} (h : c ∈ (options key keywords).choices ts) (ht : c.taken ≠ []) : c.next = [] := by
  rw [choices] at h
  split at h
  · rw [List.mem_singleton.mp h]
  · rw [List.mem_singleton.mp h, Choice.taken_skip] at ht
    exact absurd rfl ht

theorem atEnd_of_finish {ts : List Token} {c : Choice} (h : c ∈ finish.choices ts) :
    AtEnd c.next := by
  cases ts with
  | nil =>
      rw [List.mem_singleton.mp h]
      exact atEnd_nil
  | cons t ts =>
      by_cases ht : t = .symbol ';'
      · subst ht
        rw [List.mem_singleton.mp h]
        simp [AtEnd, Choice.skip]
      · rw [choices] at h
        · simp at h
        · simp
        · rintro us ⟨⟩
          exact ht rfl

end Step

namespace Token
variable {z g : Text} {ts : List Token}

theorem exists_fresh (ts : List Token) : ∃ z, .quoted z ∉ ts := by
  refine ⟨'x' :: textOf ts, fun hm => ?_⟩
  obtain ⟨us, vs, split⟩ := List.append_of_mem hm
  have length := congrArg List.length (congrArg textOf split)
  simp only [textOf_append, textOf_cons, text, List.length_append, List.length_cons] at length
  omega

/-- One literal in place of another. -/
def exchange (z g : Text) (t : Token) : Token := if t = .quoted z then .quoted g else t

theorem recases_exchange (z g : Text) : Recases (exchange z g) := by
  intro t
  rw [exchange]
  split
  · subst t
    exact .quoted z g
  · exact .refl t

theorem map_exchange (g : Text) (h : .quoted z ∉ ts) : ts.map (exchange z g) = ts := by
  refine (List.map_congr_left fun t ht => ?_).trans (List.map_id ts)
  have other : t ≠ .quoted z := fun he => h (he ▸ ht)
  rw [exchange, if_neg other, id_eq]

theorem map_exchange_append (g : Text) {u w : List Token} (hu : .quoted z ∉ u)
    (hw : .quoted z ∉ w) :
    (u ++ .quoted z :: w).map (exchange z g) = u ++ .quoted g :: w := by
  rw [List.map_append, List.map_cons, map_exchange g hu, map_exchange g hw, exchange, if_pos rfl]

end Token

/-- How parts depend on the content of a subquery between two texts: one part holds it, or they
are taken from what stands in front of a semicolon before it. -/
inductive Places (a b : Text) : (Text → Captures) → Prop
  | holds (before : Captures) (key : String) {u v : Text} (after : Captures) (hu : u <:+ a)
      (hv : v <+: b) : Places a b fun x => before ++ (key, u ++ '(' :: (x ++ ')' :: v)) :: after
  | ends (before after : Text) {parts : Captures} (h : a = before ++ ';' :: after)
      (hp : ∀ q ∈ parts, q.2 <:+: before) : Places a b fun _ => parts

/-- Parts from the text in front come in addition. -/
theorem Places.append_left {a b t : Text} {f : Text → Captures} {first : Captures}
    (h : Places a b f) (hf : ∀ q ∈ first, q.2 <:+: t) :
    Places (t ++ a) b fun x => first ++ f x := by
  cases h with
  | holds before key after hu hv =>
      have whole := Places.holds (first ++ before) key after (hu.trans (List.suffix_append t a)) hv
      simpa only [List.append_assoc] using whole
  | ends before after ha hp =>
      refine .ends (t ++ before) after (by rw [ha, List.append_assoc]) ?_
      refine List.forall_mem_append.mpr ⟨fun q hq => ?_, fun q hq => ?_⟩
      · exact (hf q hq).trans (List.prefix_append _ _).isInfix
      · exact (hp q hq).trans (List.suffix_append _ _).isInfix

/-- What a route fills when a group with a content stands in place of a literal. -/
def restoredWith (z x : Text) (steps : List Step) (cs : List Choice) : Captures :=
  restoredOf steps (cs.map (Choice.map (exchange z ('(' :: (x ++ [')'])))))

section
variable {steps : List Step} {cs : List Choice} {u w : List Token} {z : Text}

theorem restoredWith_cons (x : Text) (step : Step) (c : Choice) :
    restoredWith z x (step :: steps) (c :: cs) =
      step.key?.toList.map (·, step.restored (c.map (exchange z ('(' :: (x ++ [')']))))) ++
        restoredWith z x steps cs := rfl

theorem restored_map_exchange (step : Step) (g : Text) {c : Choice} (h : .quoted z ∉ c.taken) :
    step.restored (c.map (exchange z g)) = step.restored c :=
  step.restored_congr (by rw [Choice.taken_map, map_exchange g h])

theorem restoredWith_of_not_mem (x : Text) (h : ∀ c ∈ cs, .quoted z ∉ c.taken) :
    restoredWith z x steps cs = restoredOf steps cs := by
  refine restoredOf_congr ?_
  rw [List.map_map]
  refine List.map_congr_left fun c hc => ?_
  rw [Function.comp_apply, Choice.taken_map, map_exchange _ (h c hc)]

/-- A step that takes the literal fills the last part, or one that ends before the literal. -/
theorem places_of_taken {step : Step} {c : Choice} {u l r w : List Token} {key : String}
    (hl : .quoted z ∉ l) (hr : .quoted z ∉ r) (hw : ∀ c' ∈ cs, .quoted z ∉ c'.taken)
    (taken : c.taken = l ++ .quoted z :: r) (hk : step.key? = some key)
    (last : (∃ key keywords, step = .options key keywords) → ∀ c' ∈ cs, c'.taken = []) :
    Places (textOf (u ++ l)) (textOf (r ++ w)) fun x =>
      restoredWith z x (step :: steps) (c :: cs) := by
  have placed (x : Text) : (c.map (exchange z ('(' :: (x ++ [')'])))).taken =
      l ++ .quoted ('(' :: (x ++ [')'])) :: r := by
    rw [Choice.taken_map, taken, map_exchange_append _ hl hr]
  simp only [restoredWith_cons, restoredWith_of_not_mem _ hw, hk, textOf_append]
  rcases step.exists_restored l r with ⟨p, v, hp, hv, all⟩ | ⟨options, before, after, text, cut⟩
  · simp only [all _ _ (placed _)]
    exact .holds [] key _ (hp.trans (List.suffix_append _ _)) (hv.trans (List.prefix_append _ _))
  · simp only [cut _ _ (placed _)]
    refine .ends (textOf u ++ before) after (by rw [text, List.append_assoc]) ?_
    refine List.forall_mem_append.mpr ⟨fun q hq => ?_, fun q hq => ?_⟩
    · obtain ⟨key, -, rfl⟩ := List.mem_map.mp hq
      exact (Text.trim_infix _).trans (List.suffix_append _ _).isInfix
    · obtain ⟨c', hc', inside⟩ := exists_of_mem_restoredOf hq
      rw [last options c' hc', textOf_nil] at inside
      exact inside.trans List.nil_infix

/-- Either one part holds the group, whatever its content, or the statement ends before it. -/
theorem places_restoredWith (last : steps.getLast? = some .finish) (hu : .quoted z ∉ u)
    (hw : .quoted z ∉ w) (h : route steps (u ++ .quoted z :: w) = some cs) :
    Places (textOf u) (textOf w) fun x => restoredWith z x steps cs := by
  -- The literal stays where it is, and the steps use up what stands in front of it.
  induction steps generalizing u cs with
  | nil => simp at last
  | cons step steps ih =>
      obtain ⟨c, hc, onward⟩ := List.exists_of_findSome?_eq_some h
      obtain ⟨cs, hr, rfl⟩ := Option.map_eq_some_iff.mp onward
      rcases (Step.takes_of_mem_choices hc).past with
        ⟨u', l, r, w', taken, rfl, rfl, next, key, hk⟩ | ⟨u', u'', rfl, taken, next⟩
      · rw [List.mem_append, not_or] at hu hw
        refine places_of_taken hu.2 hw.1 ?_ taken hk ?_
        · exact fun c' hc' hm => hw.2 (next.subset (taken_subset_of_route hr hc' hm))
        · rintro ⟨key, keywords, rfl⟩ c' hc'
          have inside := taken_infix_of_route hr hc'
          rw [Step.next_eq_nil_of_options hc (by simp [taken])] at inside
          exact List.infix_nil.mp inside
      · rw [List.mem_append, not_or] at hu
        have same (x : Text) : step.restored (c.map (exchange z ('(' :: (x ++ [')'])))) =
            step.restored c := restored_map_exchange _ _ fun hm => hu.1 (taken.subset hm)
        simp only [restoredWith_cons, same, textOf_append]
        have first : ∀ q ∈ step.key?.toList.map (·, step.restored c), q.2 <:+: textOf u' := by
          intro q hq
          obtain ⟨key, -, rfl⟩ := List.mem_map.mp hq
          exact (step.restored_infix c).trans (taken.flatMap _)
        refine Places.append_left ?_ first
        cases steps with
        | nil =>
            -- Only a semicolon ends a statement in front of the literal.
            obtain rfl : step = .finish := by simpa using last
            cases hr
            have ended := Step.atEnd_of_finish hc
            rw [next] at ended
            cases u'' with
            | nil => cases ended _ rfl
            | cons t u'' =>
                obtain rfl := ended t rfl
                exact .ends [] (textOf u'') rfl (by simp)
        | cons next' steps =>
            rw [next] at hr
            exact ih (by simpa using last) hu.2 hr

end

/-- A statement with a subquery in view is split along the route that a literal in its place
takes. -/
theorem Subquery.Hidable.split_around {s : Settings} {t x z : Text} {us vs : List Token}
    (h : Hidable s t) (veil : s.dialect.veil t = us ++ .quoted ('(' :: (x ++ [')'])) :: vs)
    (hu : .quoted z ∉ us) (hv : .quoted z ∉ vs) {type : StatementType} {p : Pattern}
    (hd : StatementType.detect s.dialect t = some type)
    (hp : Pattern.ofType? s.dialect type = some p) :
    split s t = (route p.steps (us ++ .quoted z :: vs)).elim
      (.error (.invalidSyntax p.family t)) fun cs => .ok ⟨restoredWith z x p.steps cs⟩ := by
  rw [h.split_eq hd hp, veil, ← map_exchange_append _ hu hv,
    (recases_exchange _ _).route_map]
  cases route p.steps (us ++ .quoted z :: vs) <;> rfl

/-- Two statements that differ in the content of a subquery in view are both refused, or they are
split into the same parts but for that content in one part, or all their parts come from in front
of a semicolon before it. -/
theorem split_exposed_subquery {s : Settings} {a b x y : Text} (ha : s.dialect.Closed a)
    (he : s.dialect.Exposed a ('(' :: (x ++ ')' :: b)))
    (hx : s.dialect.isBalanced x = true) (sx : Text.startsWithKeyword "SELECT" x = true)
    (hy : s.dialect.isBalanced y = true) (sy : Text.startsWithKeyword "SELECT" y = true)
    (h₁ : Subquery.Hidable s (a ++ '(' :: (x ++ ')' :: b)))
    (h₂ : Subquery.Hidable s (a ++ '(' :: (y ++ ')' :: b))) :
    (∃ family,
      split s (a ++ '(' :: (x ++ ')' :: b)) =
        .error (.invalidSyntax family (a ++ '(' :: (x ++ ')' :: b))) ∧
      split s (a ++ '(' :: (y ++ ')' :: b)) =
        .error (.invalidSyntax family (a ++ '(' :: (y ++ ')' :: b)))) ∨
    (∃ before key u v after, u <:+ a ∧ v <+: b ∧
      split s (a ++ '(' :: (x ++ ')' :: b)) =
        .ok ⟨before ++ (key, u ++ '(' :: (x ++ ')' :: v)) :: after⟩ ∧
      split s (a ++ '(' :: (y ++ ')' :: b)) =
        .ok ⟨before ++ (key, u ++ '(' :: (y ++ ')' :: v)) :: after⟩) ∨
    ∃ parts front behind, a = front ++ ';' :: behind ∧
      split s (a ++ '(' :: (x ++ ')' :: b)) = .ok parts ∧
      split s (a ++ '(' :: (y ++ ')' :: b)) = .ok parts ∧
      ∀ q ∈ parts.toList, q.2 <:+: front := by
  obtain ⟨us, vs, rfl, rfl, veil₁, veil₂⟩ := Dialect.exists_veil ha he hx sx hy sy
  obtain ⟨z, hz⟩ := exists_fresh (us ++ vs)
  rw [List.mem_append, not_or] at hz
  obtain ⟨type, ht, hd₁⟩ := h₁.type
  obtain ⟨type', ht', hd₂⟩ := h₂.type
  obtain ⟨p, hp, -, last⟩ := StatementType.exists_pattern_of_mem s.dialect ht'
  obtain rfl : type' = type := by
    refine StatementType.eq_of_prefix ht hd₁ (fun h _ paren head => ?_) hd₂ hp
    rcases Text.prefix_append_cases head with short | ⟨rest, rfl, hr⟩
    · exact short.trans (List.prefix_append _ _)
    · cases rest with
      | nil => simp
      | cons c rest =>
          rw [(List.cons_prefix_cons.mp hr).1] at paren
          simp at paren
  have split₁ := h₁.split_around veil₁ hz.1 hz.2 hd₁ hp
  have split₂ := h₂.split_around veil₂ hz.1 hz.2 hd₂ hp
  cases hr : route p.steps (us ++ .quoted z :: vs) with
  | none =>
      rw [hr] at split₁ split₂
      exact .inl ⟨p.family, split₁, split₂⟩
  | some cs =>
      rw [hr, Option.elim_some] at split₁ split₂
      have places := places_restoredWith last hz.1 hz.2 hr
      generalize hf : (fun x => restoredWith z x p.steps cs) = f at places
      rw [show restoredWith z x p.steps cs = f x from congrFun hf x] at split₁
      rw [show restoredWith z y p.steps cs = f y from congrFun hf y] at split₂
      refine .inr ?_
      cases places with
      | holds before key after hu hv =>
          exact .inl ⟨before, key, _, _, after, hu, hv, split₁, split₂⟩
      | ends front behind hb inside =>
          exact .inr ⟨_, front, behind, hb, split₁, split₂, inside⟩

/-- The condition keeps its place around a query with a clause, and around one with a semicolon and
a parenthesis in a literal and a subquery of its own. -/
theorem split_exposed_subquery_delete :
    ∃ before key u v after,
      split {} "DELETE FROM t WHERE (SELECT '(') = (SELECT b LIMIT 1) LIMIT 2".toList =
        .ok ⟨before ++ (key, u ++ '(' :: ("SELECT b LIMIT 1".toList ++ ')' :: v)) :: after⟩ ∧
      split {} "DELETE FROM t WHERE (SELECT '(') = (SELECT ';)' FROM (SELECT c)) LIMIT 2".toList =
        .ok ⟨before ++ (key, u ++ '(' :: ("SELECT ';)' FROM (SELECT c)".toList ++ ')' :: v)) ::
          after⟩ := by
  obtain ⟨a, ha⟩ : ∃ a, a = "DELETE FROM t WHERE (SELECT '(') = ".toList := ⟨_, rfl⟩
  obtain ⟨b, hb⟩ : ∃ b, b = " LIMIT 2".toList := ⟨_, rfl⟩
  obtain ⟨x, hx⟩ : ∃ x, x = "SELECT b LIMIT 1".toList := ⟨_, rfl⟩
  obtain ⟨y, hy⟩ : ∃ y, y = "SELECT ';)' FROM (SELECT c)".toList := ⟨_, rfl⟩
  have first : "DELETE FROM t WHERE (SELECT '(') = (SELECT b LIMIT 1) LIMIT 2".toList =
      a ++ '(' :: (x ++ ')' :: b) := by
    rw [ha, hb, hx]
    decide
  have second : "DELETE FROM t WHERE (SELECT '(') = (SELECT ';)' FROM (SELECT c)) LIMIT 2".toList =
      a ++ '(' :: (y ++ ')' :: b) := by
    rw [ha, hb, hy]
    decide
  have accepted : (split {} (a ++ '(' :: (x ++ ')' :: b))).toBool = true := by
    rw [← first]
    decide +kernel
  have hidable₁ : Subquery.Hidable {} (a ++ '(' :: (x ++ ')' :: b)) := by
    rw [← first]
    exact ⟨⟨.delete, by decide, by decide +kernel⟩, by decide +kernel, by decide +kernel,
      by decide +kernel⟩
  have hidable₂ : Subquery.Hidable {} (a ++ '(' :: (y ++ ')' :: b)) := by
    rw [← second]
    exact ⟨⟨.delete, by decide, by decide +kernel⟩, by decide +kernel, by decide +kernel,
      by decide +kernel⟩
  rw [first, second, ← hx, ← hy]
  rcases split_exposed_subquery (by rw [ha]; decide +kernel) (by rw [ha, hb, hx]; decide +kernel)
    (by rw [hx]; decide +kernel) (by rw [hx]; decide) (by rw [hy]; decide +kernel)
    (by rw [hy]; decide) hidable₁ hidable₂ with
    ⟨family, refused, -⟩ | ⟨before, key, u, v, after, -, -, split₁, split₂⟩ |
    ⟨parts, front, behind, ends, -⟩
  · rw [refused] at accepted
    cases accepted
  · exact ⟨before, key, u, v, after, split₁, split₂⟩
  · have silent : ';' ∉ a := by
      rw [ha]
      decide
    exact absurd (by rw [ends]; simp) silent

end SqlStatement
