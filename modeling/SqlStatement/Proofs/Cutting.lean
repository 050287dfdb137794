import Mathlib.Data.List.Infix
import SqlStatement.Proofs.Carrying
import SqlStatement.Proofs.Splitting

/-!
# Where a statement is cut

A part is a stretch of tokens, and tokens never end inside a literal, so the
parts of a closed statement are closed. What follows the last part is left
unread from a semicolon on. The options are the exception: they run to the
first semicolon of the text, and this may be one inside a literal.
-/
namespace SqlStatement
open Token

namespace Dialect
variable {d : Dialect}

/-- The pieces of tokens without unclosed quotes are cut from their own texts. -/
theorem whole_of_stretch {t : Text} {ts : List Token} (hi : ts <:+: ofText d t)
    (hc : ∀ u ∈ ts, u.isClosed = true) : ∀ p ∈ piecesOf ts, p.Whole d := by
  intro p hp
  obtain ⟨u, hu, hp⟩ := List.mem_flatMap.mp hp
  refine (Piece.lexed_ofText d t).whole (mem_ofText_of_mem_pieces (hi.subset hu) hp) ?_
  cases u with
  | unterminated q => exact absurd (hc _ hu) (by simp [Token.isClosed])
  | word w | space w =>
      obtain ⟨c, -, rfl⟩ := List.mem_map.mp hp
      rfl
  | quoted | symbol => exact List.mem_singleton.mp hp ▸ rfl

theorem Closed.isClosed_of_stretch {t : Text} (h : d.Closed t) {ts : List Token}
    (hi : ts <:+: ofText d t) : ∀ u ∈ ts, u.isClosed = true := by
  intro u hu
  cases u with
  | unterminated q =>
      have inside : Piece.stray q ∈ Piece.ofText d t :=
        mem_ofText_of_mem_pieces (hi.subset hu) (List.mem_singleton_self _)
      exact absurd (h _ inside) (by simp [Piece.isClosed])
  | _ => rfl

theorem Closed.of_stretch {t : Text} (h : d.Closed t) {ts : List Token} (hi : ts <:+: ofText d t) :
    d.Closed (textOf ts) := by
  rw [← textOf_piecesOf]
  exact closed_textOf (whole_of_stretch hi (h.isClosed_of_stretch hi))

end Dialect

/-- Whether tokens have no semicolon but those that stand outside literals. -/
def Token.SemicolonsApart (ts : List Token) : Prop := ∀ t ∈ ts, ';' ∈ t.text → t = .symbol ';'

/-- The text in front of the first semicolon and the text from it on are cut between tokens. -/
theorem Token.SemicolonsApart.takeWhile_textOf {ts : List Token} (h : SemicolonsApart ts) :
    (textOf ts).takeWhile (· ≠ ';') = textOf (ts.takeWhile (· ≠ .symbol ';')) ∧
      (textOf ts).dropWhile (· ≠ ';') = textOf (ts.dropWhile (· ≠ .symbol ';')) := by
  induction ts with
  | nil => exact ⟨rfl, rfl⟩
  | cons t ts ih =>
      by_cases ht : t = .symbol ';'
      · subst ht
        exact ⟨rfl, rfl⟩
      · obtain ⟨first, rest⟩ := List.forall_mem_cons.mp h
        obtain ⟨before, behind⟩ := ih rest
        have free : ∀ c ∈ t.text, decide (c ≠ ';') = true := by
          intro c hc
          rw [decide_eq_true_eq]
          rintro rfl
          exact ht (first hc)
        rw [textOf_cons, List.takeWhile_append_of_pos free, List.dropWhile_append_of_pos free,
          List.takeWhile_cons_of_pos (by simp [ht]), List.dropWhile_cons_of_pos (by simp [ht]),
          textOf_cons, before, behind]
        exact ⟨rfl, rfl⟩

/-- The text that a pattern is matched with: the statement, with markers in place of its subqueries
if the pattern hides them. -/
def Pattern.matched (p : Pattern) (s : Settings) (t : Text) : Except Error Text :=
  if p.hidesSubqueries && (Nesting.ofText s.dialect t).hasSubquery then
    (Subquery.extract s t).map Subquery.Extraction.outer
  else .ok t

/-- What a step leaves unread for good: the options from their first semicolon on, and all that
stands behind the end. -/
def Step.unread (step : Step) (c : Choice) : Text :=
  match step with
  | options _ _ => (textOf c.taken).dropWhile (· ≠ ';')
  | finish => textOf c.next
  | _ => []

/-- What choices for steps leave unread. -/
def unreadOf (steps : List Step) (cs : List Choice) : Text :=
  (steps.zip cs).flatMap fun x => x.1.unread x.2

/-- The text that is discarded where a text is matched with a pattern. -/
def Pattern.discarded (p : Pattern) (d : Dialect) (matched : Text) : Text :=
  match route p.steps (ofText d matched) with
  | some cs => unreadOf p.steps cs
  | none => []

theorem exists_choices_of_route {steps : List Step} {ts : List Token} {cs : List Choice}
    (h : route steps ts = some cs) {step : Step} {c : Choice} (hm : (step, c) ∈ steps.zip cs) :
    ∃ us, us <:+ ts ∧ c ∈ step.choices us := by
  induction steps generalizing ts cs with
  | nil => simp at hm
  | cons step' steps ih =>
      rw [route_cons] at h
      obtain ⟨c', hc, onward⟩ := List.exists_of_findSome?_eq_some h
      obtain ⟨cs', hr, rfl⟩ := Option.map_eq_some_iff.mp onward
      rw [List.zip_cons_cons, List.mem_cons] at hm
      rcases hm with he | hm
      · cases he
        exact ⟨ts, List.suffix_rfl, hc⟩
      · obtain ⟨_, _, cuts, -⟩ := Step.takes_of_mem_choices hc
        obtain ⟨us, hs, hc⟩ := ih hr hm
        exact ⟨us, hs.trans cuts.next_suffix, hc⟩

theorem choices_options_cases {key : String} {keywords : List Phrase} {ts : List Token}
    {c : Choice} (h : c ∈ (Step.options key keywords).choices ts) :
    c = .skip ts ∨ (Phrase.startsAny keywords ts = true ∧ c.taken = ts ∧ c.next = []) := by
  simp only [Step.choices] at h
  split at h
  · rename_i hs
    obtain rfl := List.mem_singleton.mp h
    exact .inr ⟨hs, by simp [Choice.taken], rfl⟩
  · exact .inl (List.mem_singleton.mp h)

/-- Whether no literal behind a keyword with which options may begin has a semicolon. -/
def OptionsApart (steps : List Step) (ts : List Token) : Prop :=
  ∀ key keywords, .options key keywords ∈ steps → ∀ us, us <:+ ts →
    Phrase.startsAny keywords us = true → SemicolonsApart us

theorem OptionsApart.of_cons {step : Step} {steps : List Step} {ts us : List Token}
    (h : OptionsApart (step :: steps) ts) (hs : us <:+ ts) : OptionsApart steps us :=
  fun key keywords hm _ hv => h key keywords (List.mem_cons_of_mem _ hm) _ (hv.trans hs)

/-- At the end nothing is left to be unread. -/
theorem unreadOf_of_route_nil {steps : List Step} {cs : List Choice}
    (h : route steps [] = some cs) : unreadOf steps cs = [] := by
  rw [unreadOf, List.flatMap_eq_nil_iff]
  rintro ⟨step, c⟩ hm
  obtain ⟨us, hs, hc⟩ := exists_choices_of_route h hm
  obtain rfl := List.suffix_nil.mp hs
  obtain ⟨_, _, cuts, -⟩ := Step.takes_of_mem_choices hc
  have none := cuts.eq_append
  simp only [List.nil_eq, List.append_eq_nil_iff] at none
  cases step with
  | options => simp [Step.unread, none]
  | finish => simp [Step.unread, none]
  | _ => rfl

theorem choices_finish_cases {ts : List Token} {c : Choice} (h : c ∈ Step.finish.choices ts) :
    AtEnd ts ∧ c = .skip ts := by
  cases ts with
  | nil => exact ⟨atEnd_nil, List.mem_singleton.mp h⟩
  | cons t ts =>
      by_cases ht : t = .symbol ';'
      · subst ht
        exact ⟨by simp [AtEnd], List.mem_singleton.mp h⟩
      · rw [Step.choices] at h
        · simp at h
        · simp
        · rintro us ⟨⟩
          exact ht rfl

/-- What is left unread stands at the end of the tokens, from a semicolon on. -/
theorem exists_unread {steps : List Step} {ts : List Token} {cs : List Choice}
    (hr : route steps ts = some cs) (hf : .finish ∉ steps.dropLast) (ho : OptionsApart steps ts) :
    ∃ kept rest, ts = kept ++ rest ∧ AtEnd rest ∧ unreadOf steps cs = textOf rest := by
  induction steps generalizing ts cs with
  | nil =>
      cases hr
      exact ⟨ts, [], (List.append_nil ts).symm, atEnd_nil, rfl⟩
  | cons step steps ih =>
      rw [route_cons] at hr
      obtain ⟨c, hc, onward⟩ := List.exists_of_findSome?_eq_some hr
      obtain ⟨cs', hr', rfl⟩ := Option.map_eq_some_iff.mp onward
      obtain ⟨before, after, cuts, -⟩ := Step.takes_of_mem_choices hc
      have last : .finish ∉ steps.dropLast := by
        cases steps with
        | nil => simp
        | cons step' steps => exact fun hm => hf (List.mem_cons_of_mem _ hm)
      have goOn (h : step.unread c = []) :
          ∃ kept rest, ts = kept ++ rest ∧ AtEnd rest ∧
            unreadOf (step :: steps) (c :: cs') = textOf rest := by
        obtain ⟨kept, rest, he, hend, hu⟩ := ih hr' last (ho.of_cons cuts.next_suffix)
        refine ⟨before ++ (c.taken ++ (after ++ kept)), rest, ?_, hend, ?_⟩
        · conv_lhs => rw [cuts.eq_append, he]
          simp
        · rw [← hu, unreadOf, List.zip_cons_cons, List.flatMap_cons, h, List.nil_append, ← unreadOf]
      cases step with
      | finish =>
          obtain rfl : steps = [] := by
            by_contra hs
            exact hf (by rw [List.dropLast_cons_of_ne_nil hs]; exact List.mem_cons_self)
          cases hr'
          obtain ⟨hend, rfl⟩ := choices_finish_cases hc
          exact ⟨[], ts, rfl, hend, List.append_nil _⟩
      | options key keywords =>
          rcases choices_options_cases hc with rfl | ⟨hs, taken, next⟩
          · exact goOn (by simp [Step.unread, Choice.taken_skip])
          · rw [next] at hr'
            have apart := ho key keywords List.mem_cons_self ts List.suffix_rfl hs
            refine ⟨ts.takeWhile (· ≠ .symbol ';'), ts.dropWhile (· ≠ .symbol ';'),
              List.takeWhile_append_dropWhile.symm, ?_, ?_⟩
            · intro t ht
              have := List.head?_dropWhile_not (· ≠ .symbol ';') ts
              rw [ht] at this
              simpa using this
            · rw [unreadOf, List.zip_cons_cons, List.flatMap_cons, ← unreadOf,
                unreadOf_of_route_nil hr', List.append_nil, Step.unread, taken,
                apart.takeWhile_textOf.2]
      | _ => exact goOn rfl

/-- What a step captures of a closed text is closed. -/
theorem closed_captured {d : Dialect} {t : Text} (ht : d.Closed t) {steps : List Step}
    {cs : List Choice} (hr : route steps (ofText d t) = some cs)
    (ho : OptionsApart steps (ofText d t)) {step : Step} {c : Choice}
    (hm : (step, c) ∈ steps.zip cs) : d.Closed (step.captured c) := by
  have stretch := ht.of_stretch (taken_infix_of_route hr (List.of_mem_zip hm).2)
  cases step with
  | options key keywords =>
      refine Dialect.LevelWith.left (Dialect.Closed.levelWith_trim ?_)
      obtain ⟨us, hs, hc⟩ := exists_choices_of_route hr hm
      rcases choices_options_cases hc with rfl | ⟨starts, taken, -⟩
      · rw [Step.optionsText, Choice.taken_skip]
        exact Dialect.closed_of_forall (by simp)
      · have apart := ho key keywords (List.of_mem_zip hm).1 us hs starts
        rw [taken, Step.optionsText, apart.takeWhile_textOf.1]
        exact ht.of_stretch ((List.takeWhile_prefix _).isInfix.trans hs.isInfix)
  | _ => exact stretch.levelWith_trim.left

theorem mem_capturesOf {steps : List Step} {cs : List Choice} {e : String × Text}
    (h : e ∈ capturesOf steps cs) :
    ∃ step c, (step, c) ∈ steps.zip cs ∧ step.key? = some e.1 ∧ e.2 = step.captured c := by
  induction steps generalizing cs with
  | nil => simp [capturesOf] at h
  | cons step steps ih =>
      cases cs with
      | nil => simp [capturesOf] at h
      | cons c cs =>
          rw [capturesOf, List.mem_append] at h
          rcases h with h | h
          · refine ⟨step, c, List.mem_cons_self, ?_⟩
            unfold Step.captures at h
            split at h
            · rename_i key hk
              rw [List.mem_singleton.mp h]
              exact ⟨hk, rfl⟩
            · simp at h
          · obtain ⟨step', c', hm, he⟩ := ih h
            exact ⟨step', c', List.mem_cons_of_mem _ hm, he⟩

namespace Pattern
variable {p : Pattern} {d : Dialect} {type : StatementType}

theorem finish_not_mem_dropLast (h : ofType? d type = some p) : .finish ∉ p.steps.dropLast := by
  cases type with
  | other phrase => simp [ofType?] at h
  | _ =>
      cases h
      cases d <;> decide

end Pattern

/-- What the parts of a statement are made of: the captures of its pattern in the text it is matched
with, and the subqueries that are put back into them. -/
theorem exists_captures {s : Settings} {t matched : Text} {type : StatementType} {p : Pattern}
    {parts : Parts} (h : split s t = .ok parts)
    (hd : StatementType.detect s.dialect t = some type)
    (hp : Pattern.ofType? s.dialect type = some p) (hm : p.matched s t = .ok matched) :
    ∃ cs sets, route p.steps (ofText s.dialect matched) = some cs ∧
      parts = Subquery.injectParts s.dialect sets ⟨capturesOf p.steps cs⟩ ∧
      (s.dialect.Closed t → s.dialect.Closed matched ∧
        ∀ set ∈ sets.tail, s.dialect.isBalanced set = true) := by
  have plain {u : Text} {parts : Parts} (h : p.parts s.dialect t u = .ok parts) :
      ∃ cs, route p.steps (ofText s.dialect u) = some cs ∧ parts = ⟨capturesOf p.steps cs⟩ := by
    rw [Pattern.parts, matchSteps_eq] at h
    cases hr : route p.steps (ofText s.dialect u) with
    | none => simp [hr] at h
    | some cs =>
        rw [hr] at h
        cases h
        exact ⟨cs, rfl, rfl⟩
  have whole (h : p.parts s.dialect t t = .ok parts)
      (hm : (.ok t : Except Error Text) = .ok matched) :
      ∃ cs sets, route p.steps (ofText s.dialect matched) = some cs ∧
        parts = Subquery.injectParts s.dialect sets ⟨capturesOf p.steps cs⟩ ∧
        (s.dialect.Closed t → s.dialect.Closed matched ∧
          ∀ set ∈ sets.tail, s.dialect.isBalanced set = true) := by
    cases hm
    obtain ⟨cs, hr, rfl⟩ := plain h
    exact ⟨cs, [], hr, rfl, fun ht => ⟨ht, by simp⟩⟩
  rw [split, hd] at h
  dsimp only at h
  rw [hp] at h
  dsimp only at h
  rw [Pattern.matched] at hm
  by_cases hh : p.hidesSubqueries = true
  · rw [if_pos hh, Pattern.partsAround] at h
    by_cases hq : (Nesting.ofText s.dialect t).hasSubquery = true
    · rw [if_pos hq] at h
      rw [if_pos (by rw [hh, hq]; rfl)] at hm
      cases he : Subquery.extract s t with
      | error e =>
          rw [he] at h
          cases h
      | ok e =>
          rw [he] at h hm
          cases hm
          cases hc : p.parts s.dialect t e.outer with
          | error e =>
              change (p.parts s.dialect t _ >>= _ : Except Error Parts) = _ at h
              rw [hc] at h
              cases h
          | ok captured =>
              change (p.parts s.dialect t _ >>= _ : Except Error Parts) = _ at h
              rw [hc] at h
              cases h
              obtain ⟨cs, hr, rfl⟩ := plain hc
              refine ⟨cs, e.sets, hr, rfl, fun ht => ?_⟩
              have insert : ¬(StatementType.detect s.dialect t).any StatementType.isInsertLike := by
                rw [hd, Option.any_some, Pattern.isInsertLike_of_hides hp hh]
                simp
              rcases Subquery.extract_cases insert he with rfl | taken
              · exact ⟨ht, by simp [Subquery.Extraction.sets]⟩
              · exact Subquery.closed_takeOut ht taken
    · rw [if_neg hq] at h
      rw [if_neg (by simp [hq])] at hm
      exact whole h hm
  · rw [if_neg hh] at h
    rw [if_neg (by simp [hh])] at hm
    exact whole h hm

theorem mem_injectParts {d : Dialect} {sets : List Text} {parts : Parts} {e : String × Text}
    (h : e ∈ (Subquery.injectParts d sets parts).toList) :
    ∃ e' ∈ parts.toList, e.2 = e'.2 ∨ e.2 = Subquery.injectInto d sets e'.2 := by
  rw [Subquery.injectParts] at h
  split at h
  · exact ⟨e, h, .inl rfl⟩
  · obtain ⟨e', hm, rfl⟩ := List.mem_map.mp h
    exact ⟨e', hm, .inr rfl⟩

/-- The parts of a closed statement are closed, and what is discarded starts with a semicolon
outside literals, as long as no literal behind a keyword of its options has a semicolon. -/
theorem closed_split {s : Settings} {t matched : Text} {type : StatementType} {p : Pattern}
    {parts : Parts} (h : split s t = .ok parts) (ht : s.dialect.Closed t)
    (hd : StatementType.detect s.dialect t = some type)
    (hp : Pattern.ofType? s.dialect type = some p) (hm : p.matched s t = .ok matched)
    (ho : OptionsApart p.steps (ofText s.dialect matched)) :
    (∀ e ∈ parts.toList, s.dialect.Closed e.2) ∧
      ∃ kept rest, Piece.ofText s.dialect matched = kept ++ rest ∧
        Piece.textOf rest = p.discarded s.dialect matched ∧
        (rest = [] ∨ rest.head? = some (.char ';')) := by
  obtain ⟨cs, sets, hr, rfl, closed⟩ := exists_captures h hd hp hm
  obtain ⟨outer, level⟩ := closed ht
  refine ⟨fun e he => ?_, ?_⟩
  · obtain ⟨e', hm, he⟩ := mem_injectParts he
    obtain ⟨step, c, hc, -, captured⟩ := mem_capturesOf hm
    have part := closed_captured outer hr ho hc
    rw [← captured] at part
    rcases he with he | he
    · exact he ▸ part
    · exact he ▸ (Subquery.levelWith_injectInto level part).left
  · obtain ⟨kept, rest, he, hend, hu⟩ := exists_unread hr (Pattern.finish_not_mem_dropLast hp) ho
    refine ⟨piecesOf kept, piecesOf rest, ?_, ?_, ?_⟩
    · rw [← piecesOf_append, ← he, ofText, piecesOf_ofPieces]
    · rw [Pattern.discarded, hr, textOf_piecesOf]
      exact hu.symm
    · cases rest with
      | nil => exact .inl rfl
      | cons t rest => exact .inr (by rw [hend t rfl]; rfl)

theorem closed_split_options :
    (∀ e ∈ [("select", []), ("columns", "';'".toList), ("from", "t".toList), ("where", []),
        ("group by", []), ("having", []), ("order by", []), ("limit", []),
        ("options", "FOR UPDATE".toList)], Dialect.mysql.Closed e.2) ∧
      ∃ kept rest, Piece.ofText .mysql "SELECT ';' FROM t FOR UPDATE; 'x'".toList = kept ++ rest ∧
        Piece.textOf rest = "; 'x'".toList ∧ (rest = [] ∨ rest.head? = some (.char ';')) := by
  let t : Text := "SELECT ';' FROM t FOR UPDATE; 'x'".toList
  let p : Pattern := (Pattern.ofType? .mysql .select).get rfl
  have accepted : split {} t = .ok ⟨[("select", []), ("columns", "';'".toList),
      ("from", "t".toList), ("where", []), ("group by", []), ("having", []), ("order by", []),
      ("limit", []), ("options", "FOR UPDATE".toList)]⟩ := by decide +kernel
  have select : StatementType.detect .mysql t = some .select := by decide +kernel
  have matched : p.matched {} t = .ok t := by decide +kernel
  have discarded : p.discarded .mysql t = "; 'x'".toList := by decide +kernel
  have apart : OptionsApart p.steps (ofText .mysql t) := by
    intro key keywords hm us hs starts
    have options : key = "options" ∧ keywords = Pattern.optionKeywords := by
      simpa [p, Pattern.ofType?] using hm
    rw [← List.mem_tails] at hs
    rw [options.2] at starts
    revert us
    simp only [SemicolonsApart]
    decide +kernel
  obtain ⟨closed, kept, rest, whole, unread, starts⟩ :=
    closed_split accepted (by decide +kernel) select rfl matched apart
  exact ⟨closed, kept, rest, whole, unread.trans discarded, starts⟩

/-- The options of a statement may end inside a literal. -/
theorem not_closed_split_options :
    ¬∀ (s : Settings) (t : Text) (parts : Parts), split s t = .ok parts → s.dialect.Closed t →
      ∀ e ∈ parts.toList, s.dialect.Closed e.2 := by
  intro h
  have closed := h {} "SELECT a FROM t INTO OUTFILE 'a;b'".toList
    ⟨[("select", []), ("columns", "a".toList), ("from", "t".toList), ("where", []),
      ("group by", []), ("having", []), ("order by", []), ("limit", []),
      ("options", "INTO OUTFILE 'a".toList)]⟩ (by decide +kernel) (by decide +kernel)
    ("options", "INTO OUTFILE 'a".toList) (by decide)
  exact absurd closed (by decide +kernel)

end SqlStatement
