import SqlStatement.Proofs.Carrying
import SqlStatement.Proofs.Resplitting

/-!
# The depths of cuts

A pattern cuts tokens at keywords. Which keywords these are can be read off the
tokens from left to right: a cut is made where something begins that the pattern
has behind the clauses begun already. What the steps take is level, which means
that it opens and closes the same groups, exactly if every cut is made outside
all groups.
-/
namespace SqlStatement
open Token

namespace Token
variable {ts us : List Token}

/-- Tokens that open and close the same groups. -/
def Level (ts : List Token) : Prop := ts.foldlM depthBehind? 0 = some 0

theorem level_nil : Level [] := rfl

/-- Words and blanks open and close nothing. -/
theorem foldlM_of_bare (h : Bare ts) (depth : Nat) : ts.foldlM depthBehind? depth = some depth := by
  induction ts with
  | nil => rfl
  | cons t ts ih =>
      obtain ⟨first, rest⟩ := List.forall_mem_cons.mp h
      have still : t.depthBehind? depth = some depth := by
        cases t with
        | word | space => rfl
        | quoted | symbol | unterminated => simp [isWord, isSpace] at first
      rw [List.foldlM_cons, still]
      exact ih rest

theorem foldlM_bare_append (h : Bare ts) (us : List Token) (depth : Nat) :
    (ts ++ us).foldlM depthBehind? depth = us.foldlM depthBehind? depth := by
  rw [List.foldlM_append, foldlM_of_bare h, Option.bind_eq_bind, Option.bind_some]

theorem foldlM_row {inner gap : List Token} (level : ∀ k, inner.foldlM depthBehind? k = some k)
    (hg : Blanks gap) (ts : List Token) :
    ((symbol '(' :: (inner ++ symbol ')' :: gap)) ++ ts).foldlM depthBehind? 0 =
      ts.foldlM depthBehind? 0 := by
  have opened : (symbol '(').depthBehind? 0 = some 1 := rfl
  have closed : (symbol ')').depthBehind? 1 = some 0 := rfl
  rw [List.foldlM_append, List.foldlM_cons, opened, Option.bind_eq_bind, Option.bind_some,
    List.foldlM_append, level, Option.bind_eq_bind, Option.bind_some, List.foldlM_cons, closed,
    Option.bind_eq_bind, Option.bind_some, foldlM_of_bare hg.bare]
  rfl

/-- Rows open and close the same groups. -/
theorem level_of_rows {rows : List Token} (h : Step.Rows rows) : Level rows := by
  induction h with
  | @last inner gap level hg =>
      have row := foldlM_row level hg []
      rwa [List.append_nil] at row
  | @cons inner gap gap' rows level hg hg' _ ih =>
      have comma : (symbol ',').depthBehind? 0 = some 0 := rfl
      rw [Level, foldlM_row level hg, List.foldlM_cons, comma]
      exact (foldlM_bare_append hg'.bare rows 0).trans ih

/-- A token opens and closes the groups that its pieces do. -/
theorem Proper.foldlM_pieces {t : Token} (h : t.Proper) (depth : Nat) :
    t.pieces.foldlM Piece.depthBehind? depth = t.depthBehind? depth := by
  cases t with
  | word w => exact Piece.foldlM_of_isOrdinary (h.isOrdinary_of_mem_pieces (.inl rfl)) depth
  | space b => exact Piece.foldlM_of_isOrdinary (h.isOrdinary_of_mem_pieces (.inr rfl)) depth
  | quoted x => rfl
  | unterminated q => rfl
  | symbol c => exact List.foldlM_cons.trans (bind_pure _)

/-- Tokens open and close the groups that their pieces do. -/
theorem foldlM_piecesOf (h : ∀ t ∈ ts, t.Proper) (depth : Nat) :
    (piecesOf ts).foldlM Piece.depthBehind? depth = ts.foldlM depthBehind? depth := by
  induction ts generalizing depth with
  | nil => rfl
  | cons t ts ih =>
      obtain ⟨first, rest⟩ := List.forall_mem_cons.mp h
      rw [piecesOf_cons, List.foldlM_append, first.foldlM_pieces, List.foldlM_cons,
        funext (ih rest)]

/-- The tokens of a text are level exactly if it is balanced. -/
theorem level_ofText_iff {d : Dialect} {t : Text} : Level (ofText d t) ↔ d.isBalanced t = true := by
  rw [Level, ← foldlM_piecesOf (tidy_ofText d t).proper, piecesOf_ofText, Dialect.isBalanced,
    beq_iff_eq]

end Token

/-- The numbers of open groups at the keywords at which tokens are cut. A cut is made where one of
the steps begins that stand behind the steps begun already. -/
def cutDepths : List Step → Nat → List Token → List Nat
  | _, _, [] => []
  | steps, depth, t :: ts =>
      let behind := (t.depthBehind? depth).getD 0
      match steps.dropWhile fun step => !Phrase.startsAny step.phrases (t :: ts) with
      | [] => cutDepths steps behind ts
      | _ :: later => depth :: cutDepths later behind ts

section CutDepths
variable {steps : List Step} {pre ts : List Token}

theorem startsAny_phrasesOf (steps : List Step) (ts : List Token) :
    Phrase.startsAny (phrasesOf steps) ts =
      steps.any fun step => Phrase.startsAny step.phrases ts := by
  rw [Bool.eq_iff_iff, List.any_eq_true]
  simp only [Phrase.startsAny_iff, phrasesOf, List.mem_flatMap]
  constructor
  · rintro ⟨p, ⟨step, hs, hp⟩, t, ht⟩
    exact ⟨step, hs, p, hp, t, ht⟩
  · rintro ⟨step, hs, p, hp, t, ht⟩
    exact ⟨p, ⟨step, hs, hp⟩, t, ht⟩

/-- No cut is made where none of the steps begins. -/
theorem cutDepths_cons {t : Token} (h : Phrase.startsAny (phrasesOf steps) (t :: ts) = false)
    (depth : Nat) :
    cutDepths steps depth (t :: ts) = cutDepths steps ((t.depthBehind? depth).getD 0) ts := by
  have none : steps.dropWhile (fun step => !Phrase.startsAny step.phrases (t :: ts)) = [] := by
    rw [startsAny_phrasesOf, List.any_eq_false] at h
    exact List.dropWhile_eq_nil_iff.mpr fun step hs => by simpa using h step hs
  rw [cutDepths, none]

/-- Tokens in which none of the steps begins are passed over. -/
theorem cutDepths_append {depth depth' : Nat} (hd : pre.foldlM depthBehind? depth = some depth')
    (h : ∀ u v, pre = u ++ v → v ≠ [] → Phrase.startsAny (phrasesOf steps) (v ++ ts) = false) :
    cutDepths steps depth (pre ++ ts) = cutDepths steps depth' ts := by
  induction pre generalizing depth with
  | nil =>
      cases hd
      rfl
  | cons t pre ih =>
      rw [List.foldlM_cons, Option.bind_eq_bind, Option.bind_eq_some_iff] at hd
      obtain ⟨between, ht, hd⟩ := hd
      have quiet := h [] (t :: pre) rfl (by simp)
      rw [List.cons_append] at quiet ⊢
      rw [cutDepths_cons quiet, ht]
      exact ih hd fun u v he hv => h (t :: u) v (by rw [he]; rfl) hv

theorem cutDepths_append_of_forall {depth depth' : Nat}
    (hd : pre.foldlM depthBehind? depth = some depth')
    (h : ∀ t ∈ pre, ∀ us, Phrase.startsAny (phrasesOf steps) (t :: us) = false) :
    cutDepths steps depth (pre ++ ts) = cutDepths steps depth' ts := by
  refine cutDepths_append hd fun u v he hv => ?_
  obtain ⟨t, v, rfl⟩ := List.exists_cons_of_ne_nil hv
  exact h t (by rw [he]; simp) _

theorem cutDepths_of_phrasesOf_eq_nil (h : phrasesOf steps = []) (depth : Nat) :
    cutDepths steps depth ts = [] := by
  induction ts generalizing depth with
  | nil => rfl
  | cons t ts ih =>
      rw [cutDepths_cons (by rw [h]; rfl)]
      exact ih _

/-- Steps without keywords make no cuts. -/
theorem cutDepths_of_phrases_eq_nil {step : Step} (h : step.phrases = []) (depth : Nat) :
    cutDepths (step :: steps) depth ts = cutDepths steps depth ts := by
  induction ts generalizing steps depth with
  | nil => rfl
  | cons t ts ih =>
      rw [cutDepths, cutDepths, List.dropWhile_cons_of_pos (by rw [h]; rfl)]
      split
      · exact ih _
      · rfl

/-- A step is left out where one of the steps behind it begins. -/
theorem cutDepths_skip {step : Step} (h : Phrase.startsAny step.phrases ts = false)
    (hb : Begins (phrasesOf steps) ts) (depth : Nat) :
    cutDepths (step :: steps) depth ts = cutDepths steps depth ts := by
  cases ts with
  | nil => rfl
  | cons t ts =>
      have some : steps.dropWhile (fun step => !Phrase.startsAny step.phrases (t :: ts)) ≠ [] := by
        intro hn
        have begins := hb.resolve_left (by simp)
        rw [startsAny_phrasesOf, List.any_eq_true] at begins
        obtain ⟨step, hs, begins⟩ := begins
        simpa [begins] using List.dropWhile_eq_nil_iff.mp hn step hs
      rw [cutDepths, cutDepths, List.dropWhile_cons_of_pos (by rw [h]; rfl)]
      split
      · rename_i hn
        exact absurd hn some
      · rfl

/-- A cut is made where the first of the steps begins. -/
theorem cutDepths_begin {step : Step} {t : Token}
    (h : Phrase.startsAny step.phrases (t :: ts) = true) (depth : Nat) :
    cutDepths (step :: steps) depth (t :: ts) =
      depth :: cutDepths steps ((t.depthBehind? depth).getD 0) ts := by
  rw [cutDepths, List.dropWhile_cons_of_neg (by simp [h])]

end CutDepths

namespace Phrase

/-- A word begins none of the phrases if it is the keyword of no first word. -/
theorem startsAny_of_isKeyword {phrases : List Phrase} {k : String} {w : Text}
    (hw : Text.isKeyword k w = true) (h : ∀ q ∈ phrases, q.head? ≠ some k) (us : List Token) :
    startsAny phrases (.word w :: us) = false := by
  by_contra hs
  rw [Bool.not_eq_false, startsAny_iff] at hs
  obtain ⟨q, hq, t, ht, hpre⟩ := hs
  obtain ⟨k', ks, w', vs, rfl, rfl, hw'⟩ := ht.head
  cases (List.cons_prefix_cons.mp hpre).1
  exact h _ hq (by rw [List.head?_cons, keyword_unique hw' hw])

/-- Behind the first word of a spelling stand blanks and inner words. -/
theorem Spells.mem_tail {p : Phrase} {t u : Token} {ts : List Token} (h : p.Spells (t :: ts))
    (hu : u ∈ ts) :
    u.isSpace = true ∨ ∃ k ∈ p.tail, ∃ w, u = .word w ∧ Text.isKeyword k w = true := by
  match p, t, ts, h with
  | [_], .word _, [], _ => simp at hu
  | _ :: _ :: _, .word _, .space _ :: _, h =>
      rcases List.mem_cons.mp hu with rfl | hu
      · exact .inl rfl
      · exact h.2.mem hu

end Phrase

theorem startsAny_of_isSpace (phrases : List Phrase) {t : Token} (h : t.isSpace = true)
    (us : List Token) : Phrase.startsAny phrases (t :: us) = false := by
  refine startsAny_of_not_word us ?_
  cases t with
  | space b => rfl
  | _ => simp [isSpace] at h

theorem startsAny_of_isModifier {phrases phrases' : List Phrase}
    (hd : ∀ m ∈ phrases', ∀ q ∈ phrases, q.head? ≠ m.head?) {t : Token}
    (h : isModifier phrases' t = true) (us : List Token) :
    Phrase.startsAny phrases (t :: us) = false := by
  obtain ⟨k, w, hk, rfl, hw⟩ := isModifier_iff.mp h
  exact Phrase.startsAny_of_isKeyword hw (fun q hq => hd _ hk q hq) us

theorem Longest.mem {phrases : List Phrase} {most : Option Nat} {run rest : List Token}
    (h : Longest phrases most run rest) :
    ∀ t ∈ run, t.isSpace = true ∨ isModifier phrases t = true := by
  induction h with
  | stop => simp
  | next b hm ht _ ih =>
      intro u hu
      simp only [List.mem_cons] at hu
      rcases hu with rfl | rfl | hu
      · exact .inl rfl
      · exact .inr ht
      · exact ih u hu

namespace Trailing
variable {steps : List Step} {ts : List Token} {cs : List Choice}

/-- A route without semicolons goes on from a place where something begins. -/
theorem begins (h : Trailing steps) (hr : route steps ts = some cs) (hs : .symbol ';' ∉ ts) :
    Begins (phrasesOf steps) ts := by
  rw [Begins, or_iff_not_imp_left]
  intro hne
  by_contra hb
  refine Option.some_ne_none cs (hr.symm.trans (h.route_eq_none (by simpa using hb) fun he => ?_))
  obtain ⟨t, ts, rfl⟩ := List.exists_cons_of_ne_nil hne
  exact hs (by rw [he t rfl]; simp)

/-- A value is cut at the first place where something begins. -/
theorem exists_cut (h : Trailing steps) {start : List Token} {width : Nat}
    (hc : ∀ t ∈ start, t.isClosed = true)
    (hr : (Step.valueChoices start width start).findSome? (onward steps) = some cs) :
    ∃ stop c cs', cs = c :: cs' ∧ start = c.taken ++ stop ∧ route steps stop = some cs' ∧
      ∀ u v, c.taken = u ++ v → v ≠ [] →
        Phrase.startsAny (phrasesOf steps) (v ++ stop) = false := by
  obtain ⟨taken, stop, cs', rfl, -, hn, rfl, hf⟩ := exists_stop hr
  refine ⟨stop, _, cs', rfl, ?_⟩
  rw [Choice.taken_eq]
  refine ⟨rfl, hn, fun u v he hv => ?_⟩
  by_contra hb
  rw [Bool.not_eq_false, Phrase.startsAny_iff] at hb
  obtain ⟨p, hp, t, ht, rest, hrest⟩ := hb
  have closed : ∀ t ∈ rest, t.isClosed = true := fun t hm => hc t (by
    rw [he, List.append_assoc, ← hrest]
    simp [hm])
  obtain ⟨cs'', found⟩ :=
    h.route_of_spells hp ht ⟨rest, [], (List.append_nil rest).symm, closed, .inl atEnd_nil⟩
  rw [hrest, hf u v he hv] at found
  simp at found

/-- A clause makes a cut at its keyword and none behind it up to its value. -/
theorem cutDepths_of_spells {key : String} {keyword : Phrase}
    (hi : InnerFree (phrasesOf (.clause key keyword :: steps))) {t gap : List Token}
    (ht : keyword.Spells t) (hg : Blanks gap) (us : List Token) (depth : Nat) :
    cutDepths (.clause key keyword :: steps) depth (t ++ (gap ++ us)) =
      depth :: cutDepths steps depth us := by
  obtain ⟨k, ks, w, inner, rfl, rfl, -⟩ := ht.head
  have begins : Phrase.startsAny (Step.clause key (k :: ks)).phrases
      (.word w :: (inner ++ (gap ++ us))) = true :=
    Phrase.startsAny_iff.mpr ⟨_, List.mem_singleton_self _, _, ht, List.prefix_append _ _⟩
  have quiet : ∀ u ∈ inner ++ gap, ∀ us,
      Phrase.startsAny (phrasesOf steps) (u :: us) = false := by
    intro u hu us
    rcases List.mem_append.mp hu with hu | hu
    · rcases ht.mem_tail hu with space | ⟨k', hk, w', rfl, hw⟩
      · exact startsAny_of_isSpace _ space us
      · refine Phrase.startsAny_of_isKeyword hw (fun q hq => ?_) us
        exact hi _ (by simp [phrasesOf_clause]) k' hk q (by simp [phrasesOf_clause, hq])
    · exact startsAny_of_isSpace _ (hg u hu) us
  have bare : Bare (inner ++ gap) := fun u hu =>
    (List.mem_append.mp hu).elim (fun hu => ht.bare u (by simp [hu])) (hg.bare u)
  rw [List.cons_append, cutDepths_begin begins, ← List.append_assoc,
    cutDepths_append_of_forall (foldlM_of_bare bare _) quiet]
  rfl

/-- The parts behind the first cut are level exactly if all cuts are made outside groups. -/
theorem cutDepths_iff (h : Trailing steps) (hi : InnerFree (phrasesOf steps))
    (hr : route steps ts = some cs) (hs : .symbol ';' ∉ ts) {depth : Nat}
    (hd : ts.foldlM depthBehind? depth = some 0) :
    (∀ n ∈ cutDepths steps depth ts, n = 0) ↔ depth = 0 ∧ ∀ c ∈ cs, Level c.taken := by
  have level_skip (ts : List Token) : Level (Choice.skip ts).taken := by
    rw [Choice.taken_skip]
    exact level_nil
  induction h generalizing ts cs depth with
  | finish =>
      obtain rfl := (Trailing.finish.begins hr hs).resolve_right (by simp [phrasesOf,
        Step.phrases, Phrase.startsAny, Phrase.afterAny?])
      rw [route_finish_of_atEnd atEnd_nil] at hr
      cases hr
      cases hd
      simp [cutDepths, level_skip]
  | options key keywords =>
      rcases (Trailing.options key keywords).begins hr hs with rfl | starts
      · rw [(Trailing.options key keywords).route_of_atEnd atEnd_nil] at hr
        cases hr
        cases hd
        simp [cutDepths, level_skip]
      · rw [phrasesOf_options] at starts
        rw [route_options starts] at hr
        cases hr
        cases ts with
        | nil => simp [startsAny_of_atEnd keywords atEnd_nil] at starts
        | cons t ts =>
            have begins : Phrase.startsAny (Step.options key keywords).phrases (t :: ts) = true :=
              starts
            rw [cutDepths_begin begins, cutDepths_of_phrasesOf_eq_nil rfl,
              List.forall_mem_singleton, List.forall_mem_cons, List.forall_mem_singleton]
            refine ⟨fun hz => ⟨hz, ?_, level_skip []⟩, And.left⟩
            subst hz
            rwa [Choice.taken, List.length_nil, Nat.sub_zero, List.take_length]
  | @clause key keyword steps hf h ih =>
      have sub : phrasesOf steps ⊆ phrasesOf (.clause key keyword :: steps) := by
        rw [phrasesOf_clause]
        exact List.subset_cons_self _ _
      cases hk : keyword.after? ts with
      | none =>
          rw [route_of_skip _ (choices_clause_of_none hk)] at hr
          obtain ⟨cs', hr', rfl⟩ := Option.map_eq_some_iff.mp hr
          have absent : Phrase.startsAny (Step.clause key keyword).phrases ts = false := by
            rw [Step.phrases, Phrase.startsAny_cons, hk]
            rfl
          rw [cutDepths_skip absent (h.begins hr' hs), List.forall_mem_cons,
            and_iff_right (level_skip ts)]
          exact ih (hi.of_subset sub) hr' hs hd
      | some after =>
          obtain ⟨t, ht, rfl⟩ := Phrase.after?_eq_some hk
          obtain ⟨gap, hg, he⟩ := skipSpace_eq after
          have closed : ∀ t ∈ skipSpace after, t.isClosed = true := fun u hu =>
            isClosed_of_foldlM hd u (by rw [he]; simp [hu])
          rw [(Trailing.clause key hf h).route_clause_of_spells ht] at hr
          obtain ⟨stop, c, cs', rfl, hc, hr', cut⟩ := h.exists_cut closed hr
          rw [hc] at he
          subst he
          rw [foldlM_bare_append ht.bare, foldlM_bare_append hg.bare, List.foldlM_append,
            Option.bind_eq_bind, Option.bind_eq_some_iff] at hd
          obtain ⟨between, taken, rest⟩ := hd
          rw [cutDepths_of_spells hi ht hg, cutDepths_append taken cut, List.forall_mem_cons,
            List.forall_mem_cons]
          refine and_congr_right fun hz => ?_
          have level : between = 0 ↔ Level c.taken := by
            rw [Level, ← hz, taken, Option.some_inj, hz]
          rw [← level]
          exact ih (hi.of_subset sub) hr' (fun hm => hs (by simp [hm])) rest

end Trailing

namespace Pattern

/-- The parts that a regular pattern reads are level exactly if all cuts are made outside groups. -/
theorem Regular.cutDepths_iff {p : Pattern} {k key value : String} {phrases : List Phrase}
    {most : Option Nat} {steps : List Step} {ts : List Token} {cs : List Choice}
    (h : p.Regular k key value phrases most steps)
    (hk : ∀ q ∈ phrasesOf steps, q.head? ≠ some k) (hr : route p.steps ts = some cs)
    (hs : .symbol ';' ∉ ts) (hl : Level ts) :
    (∀ n ∈ cutDepths p.steps 0 ts, n = 0) ↔ ∀ c ∈ cs, Level c.taken := by
  obtain ⟨gap, w, c₀, c₁, rest, cs, rfl, part₀, hg, hw, rfl, longest, hr⟩ := h.exists_reading hr
  obtain ⟨behind, hb, he⟩ := skipSpace_eq rest
  have closed : ∀ t ∈ skipSpace rest, t.isClosed = true := fun t ht =>
    isClosed_of_foldlM hl t (by
      rw [he]
      simp [ht])
  rw [route_cons, Step.choices] at hr
  obtain ⟨stop, c, cs', rfl, hc, hr', cut⟩ := h.trailing.exists_cut closed hr
  have quiet : ∀ t ∈ gap ++ .word w :: (c₁.taken ++ behind), ∀ us,
      Phrase.startsAny (phrasesOf steps) (t :: us) = false := by
    intro t ht us
    simp only [List.mem_append, List.mem_cons] at ht
    rcases ht with ht | rfl | ht | ht
    · exact startsAny_of_isSpace _ (hg t ht) us
    · exact Phrase.startsAny_of_isKeyword hw hk us
    · rcases longest.mem t ht with space | modifier
      · exact startsAny_of_isSpace _ space us
      · exact startsAny_of_isModifier h.disjoint modifier us
    · exact startsAny_of_isSpace _ (hb t ht) us
  have bare : Bare (gap ++ .word w :: (c₁.taken ++ behind)) := by
    intro t ht
    simp only [List.mem_append, List.mem_cons] at ht
    rcases ht with ht | rfl | ht | ht
    · exact hg.bare t ht
    · exact .inl rfl
    · exact longest.bare t ht
    · exact hb.bare t ht
  have shape : gap ++ .word w :: (c₁.taken ++ rest) =
      (gap ++ .word w :: (c₁.taken ++ behind)) ++ (c.taken ++ stop) := by
    rw [← hc]
    conv_lhs => rw [he]
    simp
  have level₀ : Level c₀.taken := by
    obtain ⟨before, after, hb, ha, he⟩ := exists_strip c₀.taken
    rw [← Choice.part, part₀] at he
    rw [he]
    exact foldlM_of_bare (fun t ht => (List.mem_append.mp ht).elim (hb.bare t) (ha.bare t)) 0
  have level₁ : Level c₁.taken := foldlM_of_bare longest.bare 0
  rw [Level, shape, foldlM_bare_append bare, List.foldlM_append, Option.bind_eq_bind,
    Option.bind_eq_some_iff] at hl
  obtain ⟨between, taken, behind⟩ := hl
  have first : between = 0 ↔ Level c.taken := by rw [Level, taken, Option.some_inj]
  rw [h.steps_eq, cutDepths_of_phrases_eq_nil rfl, cutDepths_of_phrases_eq_nil rfl,
    cutDepths_of_phrases_eq_nil rfl, shape,
    cutDepths_append_of_forall (foldlM_of_bare bare 0) quiet, cutDepths_append taken cut,
    List.forall_mem_cons, List.forall_mem_cons, List.forall_mem_cons, and_iff_right level₀,
    and_iff_right level₁, ← first]
  exact h.trailing.cutDepths_iff h.innerFree hr' (fun hm => hs (by rw [shape]; simp [hm])) behind

end Pattern

section Marks
variable {its : List Item} {ms vs : List Token}

/-- A marker opens and closes the group it stands in. -/
theorem Marks.foldlM (h : Marks its ms vs) (depth : Nat) :
    ms.foldlM depthBehind? depth = vs.foldlM depthBehind? depth := by
  induction h generalizing depth with
  | nil => rfl
  | token t _ ih => rw [List.foldlM_cons, List.foldlM_cons, funext ih]
  | query number content _ ih => exact ih depth

/-- Cuts are made at the same depths behind markers and behind veils. -/
theorem Marks.cutDepths {steps : List Step} (h : Marks its ms vs)
    (hu : Unmarked (phrasesOf steps)) (depth : Nat) :
    cutDepths steps depth ms = cutDepths steps depth vs := by
  induction h generalizing steps depth with
  | nil => rfl
  | @token its ms vs t h ih =>
      have same : (fun step : Step => !Phrase.startsAny step.phrases (t :: ms)) =
          fun step => !Phrase.startsAny step.phrases (t :: vs) :=
        funext fun step => by rw [marks_startsAny step.phrases (.token t h)]
      rw [SqlStatement.cutDepths, SqlStatement.cutDepths, same]
      split
      · exact ih hu _
      · rename_i later hl
        have suffix : _ :: later <:+ steps := hl ▸ List.dropWhile_suffix _
        have sub : phrasesOf later ⊆ phrasesOf steps := by
          intro q hq
          obtain ⟨step, hs, hq⟩ := List.mem_flatMap.mp hq
          exact List.mem_flatMap.mpr ⟨step, suffix.subset (List.mem_cons_of_mem _ hs), hq⟩
        rw [ih fun q hq => hu q (sub hq)]
  | @query its ms vs number content h ih =>
      have marker : ∀ t ∈ [.symbol '(', .symbol '#', .word ('s' :: 'u' :: 'b' :: Text.ofNat number),
          .symbol ')'], ∀ us, Phrase.startsAny (phrasesOf steps) (t :: us) = false := by
        intro t ht us
        simp only [List.mem_cons, List.not_mem_nil, or_false] at ht
        rcases ht with rfl | rfl | rfl | rfl
        · exact startsAny_of_not_word us rfl
        · exact startsAny_of_not_word us rfl
        · exact startsAny_marker hu number us
        · exact startsAny_of_not_word us rfl
      have passed := @cutDepths_append_of_forall _ _ ms depth _ rfl marker
      rw [cutDepths_cons (startsAny_of_not_word vs rfl)]
      exact passed.trans (ih hu depth)

end Marks

end SqlStatement
