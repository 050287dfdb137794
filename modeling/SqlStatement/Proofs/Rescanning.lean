import SqlStatement.Proofs.Layout

/-!
# Scanning a layout again

A value ends at the first place where something behind it can begin, so no
phrase that begins a clause or the options stands inside it. It does not with
other tokens behind it either, provided that they begin with such a phrase and
that no inner word of a phrase begins another. So the steps behind the first
value of a pattern read the same parts in the layout of their parts.
-/
namespace SqlStatement
open Token

/-- No word inside one of the phrases begins one of them. -/
def InnerFree (phrases : List Phrase) : Prop :=
  ∀ p ∈ phrases, ∀ k ∈ p.tail, ∀ q ∈ phrases, q.head? ≠ some k

instance (phrases : List Phrase) : Decidable (InnerFree phrases) :=
  inferInstanceAs (Decidable (∀ p ∈ phrases, ∀ k ∈ p.tail, ∀ q ∈ phrases, q.head? ≠ some k))

theorem InnerFree.of_subset {phrases phrases' : List Phrase} (h : InnerFree phrases')
    (hs : phrases ⊆ phrases') : InnerFree phrases :=
  fun p hp k hk q hq => h p (hs hp) k hk q (hs hq)

/-- Nothing, or tokens that begin with one of the phrases. -/
def Begins (phrases : List Phrase) (ts : List Token) : Prop :=
  ts = [] ∨ Phrase.startsAny phrases ts = true

theorem Begins.mono {phrases phrases' : List Phrase} {ts : List Token} (h : Begins phrases ts)
    (hs : phrases ⊆ phrases') : Begins phrases' ts := by
  refine h.imp_right fun ha => ?_
  obtain ⟨p, hp, t, ht, hpre⟩ := Phrase.startsAny_iff.mp ha
  exact Phrase.startsAny_iff.mpr ⟨p, hs hp, t, ht, hpre⟩

/-- What begins with one of the phrases does not begin with a phrase of another first word. -/
theorem Begins.after?_eq_none {phrases : List Phrase} {ts : List Token} {p : Phrase}
    (h : Begins phrases ts) (hf : ∀ q ∈ phrases, q.head? ≠ p.head?) : p.after? ts = none := by
  cases hp : p.after? ts with
  | none => rfl
  | some us =>
      rcases h with rfl | h
      · rw [after?_of_atEnd p atEnd_nil] at hp
        simp at hp
      · rw [Phrase.startsAny_eq_false_of_head hf hp] at h
        simp at h

namespace Token

/-- Tokens with a space in front, if there are any. -/
def trail (ts : List Token) : List Token := if ts = [] then [] else space [' '] :: ts

theorem exists_trail (ts : List Token) :
    ∃ gap, Blanks gap ∧ trail ts = gap ++ ts ∧ skipSpace (trail ts) = ts := by
  rw [trail]
  split
  · rename_i h
    exact ⟨[], blanks_nil, by simp [h], by simp [h, skipSpace]⟩
  · exact ⟨[space [' ']], by simp [Blanks, isSpace], rfl, rfl⟩

theorem spaced_eq_nil_iff {fs : List (List Token)} (h : ∀ f ∈ fs, f ≠ []) :
    spaced fs = [] ↔ fs = [] := by
  fun_cases spaced fs <;> simp_all

theorem spaced_cons (f : List Token) {fs : List (List Token)} (h : ∀ f ∈ fs, f ≠ []) :
    spaced (f :: fs) = f ++ trail (spaced fs) := by
  cases fs with
  | nil => simp [spaced, trail]
  | cons g fs =>
      rw [trail, if_neg (by rw [spaced_eq_nil_iff h]; simp)]
      rfl

theorem strip_append_blanks {ts gap : List Token} (hf : ∀ t ∈ ts.head?, t.isSpace = false)
    (hl : ∀ t ∈ ts.getLast?, t.isSpace = false) (hg : Blanks gap) (hne : ts ≠ []) :
    strip (ts ++ gap) = ts := by
  obtain ⟨t, us, rfl⟩ := List.exists_cons_of_ne_nil hne
  have front : (t :: us ++ gap).dropWhile isSpace = t :: us ++ gap := by
    rw [List.cons_append, List.dropWhile_cons_of_neg (by simp [hf t rfl])]
  rw [strip, front, List.rdropWhile, List.reverse_append,
    List.dropWhile_append_of_pos fun t ht => hg t (List.mem_reverse.mp ht), ← List.rdropWhile,
    List.rdropWhile_eq_self_iff]
  intro hne
  simp [hl _ (List.getLast?_eq_getLast_of_ne_nil hne)]

end Token

theorem fragmentsOf_ne_nil {steps : List Step} {parts : List (List Token)} {f : List Token}
    (h : f ∈ fragmentsOf steps parts) : f ≠ [] := by
  induction steps generalizing parts with
  | nil => simp [fragmentsOf] at h
  | cons step steps ih =>
      cases parts with
      | nil => simp [fragmentsOf] at h
      | cons part parts =>
          rw [fragmentsOf] at h
          split at h
          · exact ih h
          · rename_i hp
            rcases List.mem_cons.mp h with rfl | h
            · simp [hp]
            · exact ih h

section Layout
variable {part : List Token} (key : String) (steps : List Step) (parts : List (List Token))

theorem fragmentsOf_absent (step : Step) :
    fragmentsOf (step :: steps) ([] :: parts) = fragmentsOf steps parts := if_pos rfl

theorem layout_clause (keyword : Phrase) (hp : part ≠ []) :
    spaced (fragmentsOf (.clause key keyword :: steps) (part :: parts)) =
      keyword.tokens ++ .space [' '] :: (part ++ trail (spaced (fragmentsOf steps parts))) := by
  rw [fragmentsOf, if_neg hp, spaced_cons _ fun f hf => fragmentsOf_ne_nil hf]
  simp [Step.opening, Step.closing]

theorem layout_value (hp : part ≠ []) :
    spaced (fragmentsOf (.value key :: steps) (part :: parts)) =
      part ++ trail (spaced (fragmentsOf steps parts)) := by
  rw [fragmentsOf, if_neg hp, spaced_cons _ fun f hf => fragmentsOf_ne_nil hf]
  simp [Step.opening, Step.closing]

theorem layout_options (keywords : List Phrase) (hp : part ≠ []) :
    spaced (fragmentsOf [.options key keywords, .finish] [part, []]) = part := by
  rw [fragmentsOf, if_neg hp, fragmentsOf_absent]
  simp [Step.opening, Step.closing, fragmentsOf, spaced]

end Layout

namespace Phrase

/-- What stands behind a blank in a spelling is an inner word of the phrase. -/
theorem Spells.behind_space {p : Phrase} {ts us : List Token} {b : Text}
    (h : p.Spells (ts ++ .space b :: us)) :
    ∃ k ∈ p.tail, ∃ w vs, us = .word w :: vs ∧ Text.isKeyword k w = true := by
  generalize he : ts ++ .space b :: us = all at h
  fun_induction Spells p all generalizing ts with
  | case1 k w =>
      have := congrArg List.length he
      cases ts with
      | nil => simp at he
      | cons t ts => simp at he
  | case2 k k' ks w b' vs ih =>
      cases ts with
      | nil => simp at he
      | cons t ts =>
          cases ts with
          | nil =>
              simp only [List.cons_append, List.nil_append, List.cons.injEq] at he
              obtain ⟨-, -, rfl⟩ := he
              obtain ⟨k'', ks', w', ws, hk, rfl, hw⟩ := h.2.head
              cases hk
              exact ⟨k', by simp, w', ws, rfl, hw⟩
          | cons t' ts =>
              simp only [List.cons_append, List.cons.injEq] at he
              obtain ⟨k'', hk, hw⟩ := ih he.2.2 h.2
              exact ⟨k'', by simp at hk ⊢; exact .inr hk, hw⟩
  | case3 => exact h.elim

end Phrase

/-- Tokens among which none of the phrases is spelled. -/
def Quiet (phrases : List Phrase) (ts : List Token) : Prop :=
  ∀ p ∈ phrases, ∀ u t v, p.Spells t → ts ≠ u ++ (t ++ v)

theorem Quiet.strip {phrases : List Phrase} {ts : List Token} (h : Quiet phrases ts) :
    Quiet phrases (strip ts) := by
  intro p hp u t v ht he
  obtain ⟨before, after, -, -, hs⟩ := exists_strip ts
  refine h p hp (before ++ u) t (v ++ after) ht ?_
  rw [hs, he]
  simp

theorem Quiet.startsAny_suffix {phrases : List Phrase} {ts v : List Token} (h : Quiet phrases ts)
    (hv : v <:+ ts) : Phrase.startsAny phrases v = false := by
  by_contra hs
  rw [Bool.not_eq_false, Phrase.startsAny_iff] at hs
  obtain ⟨p, hp, t, ht, r, rfl⟩ := hs
  obtain ⟨u, rfl⟩ := hv
  exact h p hp u t r ht rfl

/-- No phrase begins inside quiet tokens, if blanks and a phrase follow them. -/
theorem Quiet.startsAny_spaced {phrases : List Phrase} {ts v ws : List Token} (b : Text)
    (h : Quiet phrases ts) (hi : InnerFree phrases) (hb : Phrase.startsAny phrases ws = true)
    (hv : v <:+ ts) (hne : v ≠ []) : Phrase.startsAny phrases (v ++ .space b :: ws) = false := by
  by_contra hs
  rw [Bool.not_eq_false, Phrase.startsAny_iff] at hs
  obtain ⟨p, hp, t, ht, hpre⟩ := hs
  obtain ⟨u, rfl⟩ := hv
  rcases List.prefix_or_prefix_of_prefix hpre (List.prefix_append v _) with ⟨r, rfl⟩ | ⟨t', rfl⟩
  · exact h p hp u t r ht rfl
  · rw [List.prefix_append_right_inj] at hpre
    cases t' with
    | nil => exact h p hp u v [] (by simpa using ht) (by simp)
    | cons s t' =>
        obtain ⟨rfl, rest⟩ := List.cons_prefix_cons.mp hpre
        obtain ⟨k, hk, w, vs, rfl, hw⟩ := ht.behind_space
        obtain ⟨q, hq, t₂, ht₂, ws', rfl⟩ := Phrase.startsAny_iff.mp hb
        obtain ⟨k', ks, w', us, rfl, rfl, hw'⟩ := ht₂.head
        rw [List.cons_append, List.cons_prefix_cons] at rest
        cases rest.1
        exact hi p hp k hk _ hq (by rw [List.head?_cons, Phrase.keyword_unique hw' hw])

namespace Trailing
variable {steps : List Step}

theorem route_of_isSpace (h : Trailing steps) {t : Token} (ts : List Token)
    (ht : t.isSpace = true) : route steps (t :: ts) = none := by
  cases t with
  | space b => exact h.route_eq_none (startsAny_of_not_word ts rfl) (by simp [AtEnd])
  | _ => simp [isSpace] at ht

/-- A value that ends as early as it can is quiet. -/
theorem quiet (h : Trailing steps) {taken stop : List Token} {cs : List Choice}
    (hr : route steps stop = some cs) (hc : ∀ t ∈ taken, t.isClosed = true)
    (hf : ∀ u v, taken = u ++ v → v ≠ [] → route steps (v ++ stop) = none) :
    Quiet (phrasesOf steps) taken := by
  intro p hp u t v ht he
  have closed : ∀ t ∈ v, t.isClosed = true := fun t hm => hc t (by rw [he]; simp [hm])
  obtain ⟨cs', hcs⟩ := h.route_of_spells hp ht ((h.reaches hr).append closed)
  have failed := hf u (t ++ v) he (by simp [ht.ne_nil])
  rw [List.append_assoc, hcs] at failed
  simp at failed

/-- A quiet value is taken up to what the steps behind it read, with the blanks in between. -/
theorem value_apart (h : Trailing steps) (hi : InnerFree (phrasesOf steps))
    {part gap ws : List Token} {cs : List Choice} (hq : Quiet (phrasesOf steps) part)
    (hs : .symbol ';' ∉ part) (hc : ∀ t ∈ part, t.isClosed = true)
    (hg : gap = [] ∧ (part = [] ∨ ws = []) ∨ ws ≠ [] ∧ ∃ b, gap = [.space b])
    (hb : Begins (phrasesOf steps) ws) (hr : route steps ws = some cs) (start : List Token)
    (width : Nat) :
    (Step.valueChoices start width (part ++ (gap ++ ws))).findSome? (onward steps) =
      some (⟨start, ws, ws, width + (part ++ gap).length⟩ :: cs) := by
  have blanks : Blanks gap := by
    rcases hg with ⟨rfl, -⟩ | ⟨-, b, rfl⟩
    · exact blanks_nil
    · simp [Blanks, isSpace]
  have outside {v : List Token} (hv : v ≠ []) (hb : Blanks v) : route steps (v ++ ws) = none := by
    obtain ⟨t, v, rfl⟩ := List.exists_cons_of_ne_nil hv
    exact h.route_of_isSpace _ (hb t (by simp))
  rw [← List.append_assoc]
  refine findSome?_valueChoices start (part ++ gap) width
    (fun t hm => (List.mem_append.mp hm).elim (hc t) (blanks.isClosed t)) hr fun u v he hv => ?_
  rcases List.append_eq_append_iff.mp he with ⟨r, -, rfl⟩ | ⟨r, rfl, rfl⟩
  · exact outside hv fun t hm => blanks t (by simp [hm])
  · cases r with
    | nil => exact outside hv blanks
    | cons t r =>
        have suffix : t :: r <:+ u ++ t :: r := List.suffix_append ..
        rw [List.append_assoc]
        refine h.route_eq_none ?_ fun ha => hs ?_
        · rcases hg with ⟨rfl, he | rfl⟩ | ⟨full, b, rfl⟩
          · simp at he
          · rw [List.nil_append, List.append_nil]
            exact hq.startsAny_suffix suffix
          · exact hq.startsAny_spaced b hi (hb.resolve_left full) suffix (by simp)
        · rw [← ha t rfl]
          simp

/-- A quiet value is taken again in front of what the steps behind it read. -/
theorem value_again (h : Trailing steps) (hi : InnerFree (phrasesOf steps))
    {part ws : List Token} {cs : List Choice} (hq : Quiet (phrasesOf steps) part)
    (hs : .symbol ';' ∉ part) (hc : ∀ t ∈ part, t.isClosed = true) (hp : Firm part)
    (hb : Begins (phrasesOf steps) ws) (hr : route steps ws = some cs) (width : Nat) :
    ∃ c : Choice, c.part = part ∧
      (Step.valueChoices (part ++ trail ws) width (part ++ trail ws)).findSome? (onward steps) =
        some (c :: cs) := by
  obtain ⟨gap, hg, apart, ht⟩ : ∃ gap, Blanks gap ∧
      (gap = [] ∧ (part = [] ∨ ws = []) ∨ ws ≠ [] ∧ ∃ b, gap = [.space b]) ∧
        trail ws = gap ++ ws := by
    rw [trail]
    split
    · rename_i empty
      exact ⟨[], blanks_nil, .inl ⟨rfl, .inr empty⟩, by rw [empty]; rfl⟩
    · rename_i full
      exact ⟨[.space [' ']], by simp [Blanks, isSpace], .inr ⟨full, _, rfl⟩, rfl⟩
  rw [ht]
  refine ⟨_, ?_, h.value_apart hi hq hs hc apart hb hr _ width⟩
  rw [← List.append_assoc, Choice.part, Choice.taken_eq,
    strip_append_blanks hp.head hp.last hg hp.ne_nil]

/-- A value is quiet, and what stands behind it leads on. -/
theorem exists_quiet (h : Trailing steps) {start : List Token} {width : Nat} {cs : List Choice}
    (hr : (Step.valueChoices start width start).findSome? (onward steps) = some cs) :
    ∃ stop c cs', cs = c :: cs' ∧ start = c.taken ++ stop ∧
      (∀ t ∈ c.taken, t.isClosed = true) ∧ Quiet (phrasesOf steps) c.taken ∧
      route steps stop = some cs' := by
  obtain ⟨taken, stop, cs', rfl, hc, hn, rfl, hf⟩ := exists_stop hr
  refine ⟨stop, _, cs', rfl, ?_⟩
  rw [Choice.taken_eq]
  exact ⟨rfl, hc, h.quiet hn hc hf, hn⟩

/-- A clause is left out, or its keyword stands in front of a quiet value. -/
theorem clause_cases {key : String} {keyword : Phrase}
    (h : Trailing (.clause key keyword :: steps)) {ts : List Token} {cs : List Choice}
    (hr : route (.clause key keyword :: steps) ts = some cs) :
    (∃ cs', cs = .skip ts :: cs' ∧ route steps ts = some cs') ∨
      ∃ t gap stop c cs', keyword.Spells t ∧ Blanks gap ∧ cs = c :: cs' ∧
        ts = t ++ (gap ++ (c.taken ++ stop)) ∧ (∀ t ∈ c.taken, t.isClosed = true) ∧
        Quiet (phrasesOf steps) c.taken ∧ route steps stop = some cs' := by
  cases hk : keyword.after? ts with
  | none =>
      left
      rw [route_of_skip _ (choices_clause_of_none hk)] at hr
      obtain ⟨cs', hcs, rfl⟩ := Option.map_eq_some_iff.mp hr
      exact ⟨cs', rfl, hcs⟩
  | some after =>
      right
      obtain ⟨t, ht, rfl⟩ := Phrase.after?_eq_some hk
      rw [h.route_clause_of_spells ht] at hr
      obtain ⟨gap, hg, he⟩ := skipSpace_eq after
      cases h with
      | clause key hf h =>
          obtain ⟨stop, c, cs', rfl, hs, closed, quiet, hr⟩ := h.exists_quiet hr
          exact ⟨t, gap, stop, c, cs', ht, hg, rfl, by rw [← hs, ← he], closed, quiet, hr⟩

/-- The parts that are read in the layout of the parts of steps. -/
def ReadsAgain (steps : List Step) (parts : List (List Token)) : Prop :=
  ∃ cs, route steps (spaced (fragmentsOf steps parts)) = some cs ∧ cs.map Choice.part = parts

theorem part_skip (ts : List Token) : (Choice.skip ts).part = [] := by
  rw [Choice.part, Choice.taken_skip]
  rfl

theorem readsAgain_skip {step : Step} {parts : List (List Token)} (h : ReadsAgain steps parts)
    (hs : step.choices (spaced (fragmentsOf steps parts)) =
      [.skip (spaced (fragmentsOf steps parts))]) : ReadsAgain (step :: steps) ([] :: parts) := by
  obtain ⟨cs, hr, rfl⟩ := h
  rw [ReadsAgain, fragmentsOf, if_pos rfl, route_of_skip _ hs, hr]
  exact ⟨_, rfl, by rw [List.map_cons, part_skip]⟩

theorem readsAgain_nil (h : Trailing steps) : ReadsAgain steps (steps.map fun _ => []) := by
  have bare : fragmentsOf steps (steps.map fun _ => []) = [] := by
    clear h
    induction steps with
    | nil => rfl
    | cons step steps ih => rw [List.map_cons, fragmentsOf, if_pos rfl, ih]
  refine ⟨_, by rw [bare]; exact h.route_of_atEnd atEnd_nil, ?_⟩
  rw [List.map_map]
  exact List.map_congr_left fun _ _ => part_skip []

/-- Options without the blanks behind them are options. -/
theorem startsAny_strip {phrases : List Phrase} {ts : List Token}
    (h : Phrase.startsAny phrases ts = true) : Phrase.startsAny phrases (strip ts) = true := by
  obtain ⟨p, hp, t, ht, hpre⟩ := Phrase.startsAny_iff.mp h
  refine Phrase.startsAny_iff.mpr ⟨p, hp, t, ht, ?_⟩
  obtain ⟨k, ks, w, us, rfl, rfl, -⟩ := ht.head
  obtain ⟨before, after, hb, ha, he⟩ := exists_strip ts
  have front : before = [] := by
    cases before with
    | nil => rfl
    | cons t before =>
        rw [he, List.cons_append, List.cons_prefix_cons] at hpre
        have := hb t (by simp)
        rw [← hpre.1] at this
        simp [isSpace] at this
  rw [he, front, List.nil_append] at hpre
  rcases List.prefix_or_prefix_of_prefix hpre (List.prefix_append _ _) with hin | ⟨r, hr⟩
  · exact hin
  · cases r with
    | nil =>
        rw [List.append_nil] at hr
        exact hr ▸ List.prefix_rfl
    | cons x r =>
        rw [← hr] at hpre ht
        rw [List.prefix_append_right_inj] at hpre
        have space := ha x (hpre.subset (by simp))
        cases x with
        | space b =>
            obtain ⟨_, -, w', vs, rfl, -⟩ := ht.behind_space
            have := ha (.word w') (hpre.subset (by simp))
            simp [isSpace] at this
        | _ => simp [isSpace] at space

/-- The layout of the parts of steps begins with a phrase of the steps, and is read as these
parts. -/
theorem readsAgain {insertLike : Bool} (h : Trailing steps)
    (hn : ∀ step ∈ steps, step.Named insertLike) (hi : InnerFree (phrasesOf steps))
    {ts : List Token} {cs : List Choice} (hr : route steps ts = some cs)
    (hs : .symbol ';' ∉ ts) :
    Begins (phrasesOf steps) (spaced (fragmentsOf steps (cs.map Choice.part))) ∧
      ReadsAgain steps (cs.map Choice.part) := by
  induction h generalizing ts cs with
  | finish =>
      by_cases he : AtEnd ts
      · rw [route_finish_of_atEnd he] at hr
        cases hr
        rw [List.map_singleton, part_skip]
        exact ⟨.inl rfl, readsAgain_nil .finish⟩
      · rw [route_finish_of_not he] at hr
        simp at hr
  | options key keywords =>
      cases ho : Phrase.startsAny keywords ts with
      | true =>
          rw [route_options ho] at hr
          cases hr
          have starts := startsAny_strip ho
          have full : strip ts ≠ [] := by
            intro he
            rw [he] at starts
            rw [startsAny_of_atEnd keywords atEnd_nil] at starts
            simp at starts
          have part : (Choice.mk ts [] [] ts.length).part = strip ts := by
            simp [Choice.part, Choice.taken]
          rw [List.map_cons, List.map_singleton, part, part_skip, ReadsAgain,
            layout_options key keywords full, phrasesOf_options]
          refine ⟨.inr starts, _, route_options starts, ?_⟩
          rw [List.map_cons, List.map_singleton, part_skip, Choice.part, Choice.taken]
          simp [strip_eq_self (isSpace_head?_strip ts) (isSpace_getLast?_strip ts)]
      | false =>
          rw [route_of_skip _ (choices_options_of_not ho)] at hr
          obtain ⟨cs', hr', rfl⟩ := Option.map_eq_some_iff.mp hr
          by_cases he : AtEnd ts
          · rw [route_finish_of_atEnd he] at hr'
            cases hr'
            rw [List.map_cons, List.map_singleton, part_skip]
            exact ⟨.inl rfl, readsAgain_nil (.options key keywords)⟩
          · rw [route_finish_of_not he] at hr'
            simp at hr'
  | @clause key keyword steps hf h ih =>
      have plain := (hn _ (List.mem_cons_self ..)).2.2
      have named : ∀ step ∈ steps, step.Named insertLike := fun step hm => hn step (by simp [hm])
      have sub : phrasesOf steps ⊆ phrasesOf (.clause key keyword :: steps) := by
        rw [phrasesOf_clause]
        exact List.subset_cons_self _ _
      have left_out {ts : List Token} {cs : List Choice} (hr : route steps ts = some cs)
          (hs : .symbol ';' ∉ ts) :
          Begins (phrasesOf (.clause key keyword :: steps)) (spaced (fragmentsOf
              (.clause key keyword :: steps) ([] :: cs.map Choice.part))) ∧
            ReadsAgain (.clause key keyword :: steps) ([] :: cs.map Choice.part) := by
        obtain ⟨begins, again⟩ := ih named (hi.of_subset sub) hr hs
        rw [fragmentsOf, if_pos rfl]
        exact ⟨begins.mono sub,
          readsAgain_skip again (choices_clause_of_none (begins.after?_eq_none hf))⟩
      rcases (Trailing.clause key hf h).clause_cases hr with
        ⟨cs', rfl, hr'⟩ | ⟨t, gap, stop, c, cs', ht, hg, rfl, rfl, closed, quiet, hr'⟩
      · rw [List.map_cons, part_skip]
        exact left_out hr' hs
      · have rest : .symbol ';' ∉ stop := fun hm => hs (by simp [hm])
        rw [List.map_cons]
        by_cases hp : c.part = []
        · rw [hp]
          exact left_out hr' rest
        · obtain ⟨begins, cs'', hr'', parts⟩ := ih named (hi.of_subset sub) hr' rest
          have tidy : .symbol ';' ∉ c.part := fun hm => hs (by simp [strip_subset _ hm])
          have still : Quiet (phrasesOf steps) c.part := quiet.strip
          obtain ⟨c', hc', found⟩ := h.value_again (hi.of_subset sub) still tidy
            (fun t hm => closed t (strip_subset _ hm)) (firm_strip hp) begins hr'' _
          rw [ReadsAgain, layout_clause key steps _ keyword hp]
          refine ⟨.inr ?_, c' :: cs'', ?_, by rw [List.map_cons, hc', parts]⟩
          · exact Phrase.startsAny_iff.mpr ⟨keyword, by simp [phrasesOf_clause], _,
              plain.spells_tokens, List.prefix_append _ _⟩
          · rw [(Trailing.clause key hf h).route_clause_of_spells plain.spells_tokens]
            exact found

/-- The first value of a pattern is read again in the layout. -/
theorem readsAgain_value {insertLike : Bool} {key : String} (h : Trailing steps)
    (hn : ∀ step ∈ steps, step.Named insertLike) (hi : InnerFree (phrasesOf steps))
    {ts : List Token} {cs : List Choice} (hr : route (.value key :: steps) ts = some cs)
    (hs : .symbol ';' ∉ ts) : ReadsAgain (.value key :: steps) (cs.map Choice.part) := by
  rw [route_cons, Step.choices] at hr
  obtain ⟨stop, c, cs', rfl, rfl, closed, quiet, hr'⟩ := h.exists_quiet hr
  obtain ⟨begins, cs'', hr'', parts⟩ := h.readsAgain hn hi hr' fun hm => hs (by simp [hm])
  rw [List.map_cons]
  by_cases hp : c.part = []
  · rw [hp, ReadsAgain, fragmentsOf, if_pos rfl]
    have found := findSome?_valueChoices (spaced (fragmentsOf steps (cs'.map Choice.part))) [] 0
      (by simp) hr'' (by simp)
    refine ⟨_, found, ?_⟩
    rw [List.map_cons, parts]
    simp [Choice.part, Choice.taken, strip]
  · have tidy : .symbol ';' ∉ c.part := fun hm => hs (by simp [strip_subset _ hm])
    have still : Quiet (phrasesOf steps) c.part := quiet.strip
    obtain ⟨c', hc', found⟩ := h.value_again hi still tidy
      (fun t hm => closed t (strip_subset _ hm)) (firm_strip hp) begins hr'' 0
    rw [ReadsAgain, layout_value key steps _ hp]
    exact ⟨c' :: cs'', found, by rw [List.map_cons, hc', parts]⟩

end Trailing
end SqlStatement
