import SqlStatement.Clause.Step
import SqlStatement.Proofs.Phrases

/-!
# What a choice takes

Every choice of a step cuts the tokens in front of it into those that are read
before the part, the part, those that are read behind it, and the place where
the next step goes on. What stands before and behind a part is little: the
keyword of the clause, the parentheses of a column list, and blanks.
-/
namespace SqlStatement

namespace Token

/-- Only runs of blanks. -/
def Blanks (ts : List Token) : Prop := ∀ t ∈ ts, t.isSpace = true

theorem blanks_nil : Blanks [] := by simp [Blanks]

theorem skipSpace_eq (ts : List Token) : ∃ gap, Blanks gap ∧ ts = gap ++ skipSpace ts := by
  match ts with
  | space b :: ts => exact ⟨[space b], by simp [Blanks, isSpace], rfl⟩
  | [] | word _ :: _ | quoted _ :: _ | symbol _ :: _ | unterminated _ :: _ =>
      exact ⟨[], blanks_nil, rfl⟩

theorem closeGroup?_append {depth : Nat} {ts inner behind : List Token}
    (h : closeGroup? depth ts = some (inner, behind)) : ts = inner ++ symbol ')' :: behind := by
  fun_induction closeGroup? depth ts generalizing inner with
  | case1 => simp at h
  | case2 _ t ts depth _ ih =>
      obtain ⟨r, hr, he⟩ := Option.map_eq_some_iff.mp h
      cases he
      rw [List.cons_append, ← ih hr]
  | case3 =>
      cases h
      rfl
  | case4 => simp at h

theorem group?_append {ts inner behind : List Token} (h : group? ts = some (inner, behind)) :
    ts = symbol '(' :: (inner ++ symbol ')' :: behind) := by
  unfold group? at h
  split at h
  · rw [closeGroup?_append h]
  · simp at h

/-- Whether a token is no unclosed quote. -/
def isClosed : Token → Bool
  | unterminated _ => false
  | _ => true

theorem isClosed_of_isSpace {t : Token} (h : t.isSpace = true) : t.isClosed = true := by
  cases t <;> simp_all [isSpace, isClosed]

theorem Blanks.isClosed {ts : List Token} (h : Blanks ts) : ∀ t ∈ ts, t.isClosed = true :=
  fun t ht => isClosed_of_isSpace (h t ht)

/-- Tokens with a depth behind them have no unclosed quote. -/
theorem isClosed_of_foldlM {ts : List Token} {depth depth' : Nat}
    (h : ts.foldlM depthBehind? depth = some depth') : ∀ t ∈ ts, t.isClosed = true := by
  induction ts generalizing depth with
  | nil => simp
  | cons t ts ih =>
      rw [List.foldlM_cons, Option.bind_eq_bind, Option.bind_eq_some_iff] at h
      obtain ⟨between, ht, h⟩ := h
      refine List.forall_mem_cons.mpr ⟨?_, ih h⟩
      cases t with
      | unterminated q => simp [depthBehind?] at ht
      | _ => rfl

/-- Groups that are open around a token stay open. -/
theorem depthBehind?_add {t : Token} {depth depth' : Nat} (around : Nat)
    (h : t.depthBehind? depth = some depth') :
    t.depthBehind? (depth + around) = some (depth' + around) := by
  cases t with
  | unterminated q => simp [depthBehind?] at h
  | symbol c => exact Piece.groupsBehind?_add around h
  | word | space | quoted =>
      cases h
      rfl

/-- What is read up to the end of a group closes the groups that are open in it, and leaves those
around it. -/
theorem foldlM_of_closeGroup? {depth : Nat} {ts inner behind : List Token}
    (h : closeGroup? depth ts = some (inner, behind)) (around : Nat) :
    inner.foldlM depthBehind? (depth + around) = some around := by
  fun_induction closeGroup? depth ts generalizing inner with
  | case1 => simp at h
  | case2 depth t ts depth' hd ih =>
      obtain ⟨r, hr, he⟩ := Option.map_eq_some_iff.mp h
      cases he
      rw [List.foldlM_cons, depthBehind?_add around hd]
      exact ih hr
  | case3 depth ts hd =>
      cases h
      cases depth with
      | zero => exact congrArg some (Nat.zero_add around)
      | succ depth => simp [depthBehind?, Piece.groupsBehind?] at hd
  | case4 => simp at h

/-- What a group holds opens and closes the same groups. -/
theorem foldlM_of_group? {ts inner behind : List Token} (h : group? ts = some (inner, behind))
    (depth : Nat) : inner.foldlM depthBehind? depth = some depth := by
  unfold group? at h
  split at h
  · rw [← foldlM_of_closeGroup? h depth, Nat.zero_add]
  · simp at h

end Token

theorem Phrase.Spells.isClosed {p : Phrase} {ts : List Token} (h : p.Spells ts) :
    ∀ t ∈ ts, t.isClosed = true := by
  intro t ht
  rcases h.mem ht with hs | ⟨k, -, w, rfl, -⟩
  · exact Token.isClosed_of_isSpace hs
  · rfl

namespace Choice

/-- A choice reads the tokens before its part, the part and the tokens behind it, and goes on with
the rest. -/
structure Cuts (c : Choice) (ts before after : List Token) : Prop where
  start : ts = before ++ c.start
  taken : c.start = c.taken ++ c.stop
  stop : c.stop = after ++ c.next
  width : c.width + c.next.length = ts.length

theorem taken_eq (taken stop next : List Token) (width : Nat) :
    (Choice.mk (taken ++ stop) stop next width).taken = taken := by
  simp [Choice.taken]

theorem cuts_mk (before taken after next : List Token) :
    let ts := before ++ (taken ++ (after ++ next))
    (Choice.mk (taken ++ (after ++ next)) (after ++ next) next
      (ts.length - next.length)).Cuts ts before after := by
  refine ⟨rfl, ?_, rfl, ?_⟩
  · rw [taken_eq]
  · simp only [List.length_append]
    omega

theorem cuts_skip (ts : List Token) : (skip ts).Cuts ts [] [] :=
  ⟨rfl, by simp [skip, taken], rfl, by simp [skip]⟩

theorem taken_skip (ts : List Token) : (skip ts).taken = [] := by
  simp [skip, taken]

namespace Cuts
variable {c : Choice} {ts before after : List Token}

theorem eq_append (h : c.Cuts ts before after) : ts = before ++ (c.taken ++ (after ++ c.next)) := by
  rw [← h.stop, ← h.taken]
  exact h.start

theorem next_suffix (h : c.Cuts ts before after) : c.next <:+ ts :=
  ⟨before ++ (c.taken ++ after), by rw [h.eq_append]; simp⟩

end Cuts
end Choice

namespace Step
open Token

theorem mem_valueChoices {start rest : List Token} {width : Nat} {c : Choice} :
    c ∈ valueChoices start width rest ↔
      ∃ taken stop, rest = taken ++ stop ∧ (∀ t ∈ taken, t.isClosed = true) ∧
        c = ⟨start, stop, stop, width + taken.length⟩ := by
  fun_induction valueChoices start width rest with
  | case1 width =>
      constructor
      · intro h
        exact ⟨[], [], rfl, by simp, by simpa using h⟩
      · rintro ⟨taken, stop, he, -, rfl⟩
        obtain ⟨rfl, rfl⟩ := List.nil_eq_append_iff.mp he
        simp
  | case2 width q ts =>
      constructor
      · intro h
        exact ⟨[], _, rfl, by simp, by simpa using h⟩
      · rintro ⟨taken, stop, he, hc, rfl⟩
        cases taken with
        | nil =>
            subst he
            simp
        | cons t taken =>
            cases he
            simp [isClosed] at hc
  | case3 width t ts hne ih =>
      have closed : t.isClosed = true := by
        cases t with
        | unterminated q => exact absurd rfl (hne q)
        | _ => rfl
      rw [List.mem_cons, ih]
      constructor
      · rintro (rfl | ⟨taken, stop, rfl, hc, rfl⟩)
        · exact ⟨[], t :: ts, rfl, by simp, rfl⟩
        · refine ⟨t :: taken, stop, rfl, ?_, ?_⟩
          · simpa [closed] using hc
          · simp only [List.length_cons]
            congr 1
            omega
      · rintro ⟨taken, stop, he, hc, rfl⟩
        cases taken with
        | nil =>
            subst he
            exact .inl rfl
        | cons t' taken =>
            cases he
            refine .inr ⟨taken, stop, rfl, fun t ht => hc t (by simp [ht]), ?_⟩
            simp only [List.length_cons]
            congr 1
            omega

/-- Modifiers one behind the other, each behind blanks. -/
inductive Run (phrases : List Phrase) : List Token → Prop
  | nil : Run phrases []
  | cons {b : Text} {p : Phrase} {t ts : List Token} (hp : p ∈ phrases) (ht : p.Spells t)
      (h : Run phrases ts) : Run phrases (.space b :: (t ++ ts))

theorem Run.isClosed {phrases : List Phrase} {r : List Token} (h : Run phrases r) :
    ∀ t ∈ r, t.isClosed = true := by
  induction h with
  | nil => simp
  | cons _ ht _ ih =>
      intro u hu
      rw [List.mem_cons, List.mem_append] at hu
      rcases hu with rfl | hu | hu
      · rfl
      · exact ht.isClosed u hu
      · exact ih u hu

theorem run_of_mem_modifierEnds {phrases : List Phrase} {most : Option Nat} {ts stop : List Token}
    (h : stop ∈ modifierEnds phrases most ts) : ∃ r, Run phrases r ∧ ts = r ++ stop := by
  rw [modifierEnds] at h
  generalize ts.length = fuel at h
  fun_induction modifierEnds.ends phrases fuel most ts with
  | case1 => simp at h
  | case2 => simp at h
  | case3 most fuel b ts hm after ha ih =>
      obtain ⟨p, hp, t, ht, rfl⟩ := Phrase.afterAny?_eq_some ha
      rcases List.mem_cons.mp h with rfl | h
      · exact ⟨.space b :: (t ++ []), .cons hp ht .nil, by simp⟩
      · obtain ⟨r, hr, rfl⟩ := ih h
        exact ⟨.space b :: (t ++ r), .cons hp ht hr, by simp⟩
  | case4 => simp at h
  | case5 => simp at h

/-- Rows: groups with commas and blanks between them, and blanks behind. -/
inductive Rows : List Token → Prop
  | last {inner gap : List Token} (level : ∀ k, inner.foldlM depthBehind? k = some k)
      (hg : Blanks gap) : Rows (.symbol '(' :: (inner ++ .symbol ')' :: gap))
  | cons {inner gap gap' rows : List Token} (level : ∀ k, inner.foldlM depthBehind? k = some k)
      (hg : Blanks gap) (hg' : Blanks gap') (hr : Rows rows) :
      Rows ((.symbol '(' :: (inner ++ .symbol ')' :: gap)) ++ .symbol ',' :: (gap' ++ rows))

theorem isClosed_of_row {inner gap : List Token} (level : ∀ k, inner.foldlM depthBehind? k = some k)
    (hg : Blanks gap) : ∀ t ∈ Token.symbol '(' :: (inner ++ .symbol ')' :: gap),
      t.isClosed = true := by
  intro t ht
  simp only [List.mem_cons, List.mem_append] at ht
  rcases ht with rfl | ht | rfl | ht
  · rfl
  · exact isClosed_of_foldlM (level 0) t ht
  · rfl
  · exact hg.isClosed t ht

theorem Rows.isClosed {rows : List Token} (h : Rows rows) : ∀ t ∈ rows, t.isClosed = true := by
  induction h with
  | last level hg => exact isClosed_of_row level hg
  | cons level hg hg' _ ih =>
      refine List.forall_mem_append.mpr ⟨isClosed_of_row level hg, List.forall_mem_cons.mpr
        ⟨rfl, List.forall_mem_append.mpr ⟨hg'.isClosed, ih⟩⟩⟩

theorem rows_of_mem_rowEnds {ts stop : List Token} (h : stop ∈ rowEnds ts) :
    ∃ rows, Rows rows ∧ ts = rows ++ stop := by
  unfold rowEnds at h
  generalize ts.length = fuel at h
  induction fuel generalizing ts with
  | zero => simp [rowEnds.ends] at h
  | succ fuel ih =>
      rw [rowEnds.ends] at h
      split at h
      · simp at h
      · rename_i inner behind hg
        have level := foldlM_of_group? hg
        obtain ⟨gap, hgap, hb⟩ := skipSpace_eq behind
        have first : ts = (.symbol '(' :: (inner ++ .symbol ')' :: gap)) ++ skipSpace behind := by
          rw [group?_append hg, List.cons_append, List.append_assoc, List.cons_append, ← hb]
        dsimp only at h
        split at h
        · rename_i more hp
          rcases List.mem_cons.mp h with rfl | h
          · exact ⟨_, .last level hgap, first⟩
          · obtain ⟨gap', hgap', hm⟩ := skipSpace_eq more
            obtain ⟨rows, hr, he⟩ := ih h
            rw [hp, hm, he] at first
            exact ⟨_, .cons level hgap hgap' hr, by rw [first]; simp⟩
        · rw [List.mem_singleton] at h
          exact ⟨_, .last level hgap, h ▸ first⟩

theorem append_of_afterMarker? {ts behind : List Token} (h : afterMarker? ts = some behind) :
    ∃ marker, ts = marker ++ behind ∧ ∀ t ∈ marker, t.isClosed = true := by
  unfold afterMarker? at h
  split at h
  · rename_i w us
    split at h
    · cases h
      exact ⟨[.symbol '#', .word w], rfl, by simp [isClosed]⟩
    · simp at h
  · simp at h

/-- Whether a statement may lack what the step reads. -/
def isOptional : Step → Bool
  | lead _ | modifiers _ _ _ | value _ => false
  | _ => true

/-- What a step reads before its part, as its part, and behind its part. -/
inductive Frames : Step → List Token → List Token → List Token → Prop
  | lead {keywords : List Phrase} {p : Phrase} {gap t : List Token} (hg : Blanks gap)
      (hp : p ∈ keywords) (ht : p.Spells t) : Frames (lead keywords) (gap ++ t) [] []
  | modifiers (key : String) {phrases : List Phrase} (most : Option Nat) {run gap : List Token}
      (hr : Run phrases run) (hg : Blanks gap) : Frames (modifiers key phrases most) [] run gap
  | value (key : String) (taken : List Token) : Frames (value key) [] taken []
  | clause (key : String) {keyword : Phrase} {t gap : List Token} (taken : List Token)
      (ht : keyword.Spells t) (hg : Blanks gap) : Frames (clause key keyword) (t ++ gap) taken []
  | columnList (key : String) (taken : List Token) {gap : List Token} (hg : Blanks gap) :
      Frames (columnList key) [.symbol '('] taken (.symbol ')' :: gap)
  | rows (key : String) {keyword : Phrase} {t gap : List Token} (taken : List Token)
      (ht : keyword.Spells t) (hg : Blanks gap) : Frames (rows key keyword) (t ++ gap) taken []
  | query (key : String) (taken : List Token) {gap : List Token} (hg : Blanks gap) :
      Frames (query key) [] taken gap
  | options (key : String) (keywords : List Phrase) (taken : List Token) :
      Frames (options key keywords) [] taken []
  | skip {step : Step} (ho : step.isOptional = true) : Frames step [] [] []

/-- A choice that cuts its tokens as its step may. Only options may have an unclosed quote; they
run to the end. -/
def Takes (step : Step) (ts : List Token) (c : Choice) : Prop :=
  ∃ before after, c.Cuts ts before after ∧ step.Frames before c.taken after ∧
    ((∀ t ∈ c.taken, t.isClosed = true) ∨
      c.stop = [] ∧ ∃ key keywords, step = options key keywords)

theorem takes_mk {step : Step} {before taken after : List Token} (next : List Token)
    (h : step.Frames before taken after) (hc : ∀ t ∈ taken, t.isClosed = true) :
    let ts := before ++ (taken ++ (after ++ next))
    step.Takes ts (Choice.mk (taken ++ (after ++ next)) (after ++ next) next
      (ts.length - next.length)) := by
  refine ⟨before, after, Choice.cuts_mk before taken after next, ?_⟩
  rw [Choice.taken_eq]
  exact ⟨h, .inl hc⟩

theorem takes_skip {step : Step} (ts : List Token) (ho : step.isOptional = true) :
    step.Takes ts (.skip ts) :=
  ⟨[], [], Choice.cuts_skip ts, by rw [Choice.taken_skip]; exact ⟨.skip ho, .inl (by simp)⟩⟩

theorem takes_value {step : Step} {before : List Token} {c : Choice} {start : List Token}
    (hc : c ∈ valueChoices start before.length start)
    (h : ∀ taken, step.Frames before taken []) :
    step.Takes (before ++ start) c := by
  obtain ⟨taken, stop, rfl, closed, rfl⟩ := mem_valueChoices.mp hc
  have := takes_mk stop (h taken) closed
  simp only [List.nil_append] at this
  convert this using 2
  simp only [List.length_append]
  omega

/-- Every choice of a step cuts the tokens as the step may. -/
theorem takes_of_mem_choices {step : Step} {ts : List Token} {c : Choice}
    (h : c ∈ step.choices ts) : step.Takes ts c := by
  cases step with
  | lead keywords =>
      simp only [choices] at h
      split at h
      · rename_i after ha
        rw [List.mem_singleton] at h
        obtain ⟨gap, hg, hs⟩ := skipSpace_eq ts
        obtain ⟨p, hp, t, ht, he⟩ := Phrase.afterAny?_eq_some ha
        rw [he, ← List.append_assoc] at hs
        subst h
        rw [hs]
        exact takes_mk after (.lead hg hp ht) (by simp)
      · simp at h
  | modifiers key phrases most =>
      simp only [choices, List.mem_map, List.mem_reverse, List.mem_cons] at h
      obtain ⟨stop, hs, rfl⟩ := h
      obtain ⟨gap, hg, he⟩ := skipSpace_eq stop
      have run : ∃ r, Run phrases r ∧ ts = r ++ stop := by
        rcases hs with rfl | hs
        · exact ⟨[], .nil, rfl⟩
        · exact run_of_mem_modifierEnds hs
      obtain ⟨r, hr, rfl⟩ := run
      have := takes_mk (skipSpace stop) (Frames.modifiers key most hr hg) hr.isClosed
      rw [← he] at this
      exact this
  | value key =>
      exact (takes_value h fun taken => .value key taken : Takes _ ([] ++ ts) c)
  | clause key keyword =>
      simp only [choices] at h
      split at h
      · rename_i after ha
        obtain ⟨gap, hg, hs⟩ := skipSpace_eq after
        obtain ⟨t, ht, rfl⟩ := Phrase.after?_eq_some ha
        rw [List.mem_append, List.mem_singleton] at h
        rcases h with h | rfl
        · have he : t ++ after = (t ++ gap) ++ skipSpace after := by
            rw [List.append_assoc, ← hs]
          rw [he] at h ⊢
          rw [List.length_append, Nat.add_sub_cancel] at h
          exact takes_value h fun taken => .clause key taken ht hg
        · exact takes_skip _ rfl
      · rw [List.mem_singleton] at h
        exact h ▸ takes_skip _ rfl
  | columnList key =>
      simp only [choices] at h
      split at h
      · rename_i inner behind hgroup
        rw [List.mem_cons, List.mem_singleton] at h
        rcases h with rfl | rfl
        · obtain ⟨gap, hg, hs⟩ := skipSpace_eq behind
          have he := group?_append hgroup
          rw [hs] at he
          have := takes_mk (skipSpace behind) (Frames.columnList key inner hg)
            (isClosed_of_foldlM (foldlM_of_group? hgroup 0))
          simp only [List.cons_append, List.nil_append] at this
          rw [← he] at this
          convert this using 2
          · rw [he]
            rfl
          · rw [he]
            simp [Nat.add_comm 1]
        · exact takes_skip _ rfl
      · rw [List.mem_singleton] at h
        exact h ▸ takes_skip _ rfl
  | rows key keyword =>
      simp only [choices] at h
      split at h
      · rename_i after ha
        obtain ⟨gap, hg, hs⟩ := skipSpace_eq after
        obtain ⟨t, ht, rfl⟩ := Phrase.after?_eq_some ha
        rw [List.mem_append, List.mem_singleton, List.mem_map] at h
        rcases h with ⟨stop, hstop, rfl⟩ | rfl
        · obtain ⟨rows, run, hr⟩ := rows_of_mem_rowEnds (List.mem_reverse.mp hstop)
          have := takes_mk stop (Frames.rows key rows ht hg) run.isClosed
          simp only [List.nil_append] at this
          rw [← hr, List.append_assoc, ← hs] at this
          exact this
        · exact takes_skip _ rfl
      · rw [List.mem_singleton] at h
        exact h ▸ takes_skip _ rfl
  | query key =>
      simp only [choices] at h
      split at h
      · rename_i w rest
        split at h
        · rw [List.mem_append, List.mem_singleton] at h
          rcases h with h | rfl
          · obtain ⟨taken, stop, rfl, closed, rfl⟩ := mem_valueChoices.mp h
            have := takes_mk stop (Frames.query key (.word w :: taken) blanks_nil)
              (by simpa [isClosed] using closed)
            simp only [List.nil_append, List.cons_append] at this
            convert this using 2
            simp only [List.length_cons, List.length_append]
            omega
          · exact takes_skip _ rfl
        · exact List.mem_singleton.mp h ▸ takes_skip _ rfl
      · split at h
        · rename_i behind hm
          rw [List.mem_cons, List.mem_singleton] at h
          rcases h with rfl | rfl
          · obtain ⟨gap, hg, hs⟩ := skipSpace_eq behind
            obtain ⟨marker, rfl, closed⟩ := append_of_afterMarker? hm
            have := takes_mk (skipSpace behind) (Frames.query key marker hg) closed
            simp only [List.nil_append] at this
            rw [← hs] at this
            exact this
          · exact takes_skip _ rfl
        · exact List.mem_singleton.mp h ▸ takes_skip _ rfl
  | options key keywords =>
      simp only [choices] at h
      split at h
      · rw [List.mem_singleton] at h
        subst h
        refine ⟨[], [], ⟨rfl, ?_, rfl, by simp⟩, .options key keywords _,
          .inr ⟨rfl, key, keywords, rfl⟩⟩
        simp [Choice.taken]
      · rw [List.mem_singleton] at h
        exact h ▸ takes_skip _ rfl
  | finish =>
      simp only [choices] at h
      split at h
      · exact List.mem_singleton.mp h ▸ takes_skip _ rfl
      · exact List.mem_singleton.mp h ▸ takes_skip _ rfl
      · simp at h

end Step
end SqlStatement
