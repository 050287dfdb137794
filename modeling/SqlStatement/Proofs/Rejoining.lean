import SqlStatement.Proofs.Layout

/-!
# What splitting and joining keeps

A statement that is split is a row of clauses: each is the tokens of its part
and the few tokens that frame it, the keyword or the parentheses. Joining the
parts writes the same tokens in the same order, with the keywords in upper case;
it leaves out only what frames an empty part.
-/
namespace SqlStatement
open Token
variable {d : Dialect}

/-- A word in upper case; other tokens stay as they are. -/
def Token.upper : Token → Token
  | word w => word (Text.upper w)
  | t => t

/-- A clause of a statement: the key and the text of its part, and the tokens that frame it. -/
structure Clause where
  key : String
  before : List Token
  text : Text
  after : List Token

namespace Clause

/-- The part of a clause under its key. -/
def entry (c : Clause) : String × Text := (c.key, c.text)

/-- The tokens of a clause in its statement. -/
def read (d : Dialect) (c : Clause) : List Token := c.before ++ (d.visible c.text ++ c.after)

/-- The tokens of a clause with its keyword in upper case. -/
def written (d : Dialect) (c : Clause) : List Token :=
  c.before.map upper ++ (d.visible c.text ++ c.after)

/-- The words of the keyword that a key stands for, or the parenthesis that opens a column list. -/
def opening (insertLike : Bool) (key : String) : List Token :=
  if key ∈ Parts.unprefixed then (if insertLike && key == "columns" then [.symbol '('] else [])
  else (Text.words (Text.upper key.toList)).map word

/-- The parenthesis that closes a column list. -/
def closing (insertLike : Bool) (key : String) : List Token :=
  if insertLike && key == "columns" then [.symbol ')'] else []

/-- A clause that is framed as its key demands, whatever the case of the keyword. -/
def IsFramed (insertLike : Bool) (c : Clause) : Prop :=
  c.before.map upper = opening insertLike c.key ∧ c.after = closing insertLike c.key

/-- A clause that the statement does not have. -/
def IsAbsent (c : Clause) : Prop := c.before = [] ∧ c.text = [] ∧ c.after = []

end Clause

/-- Keys whose words are those of the keyword with which the step begins. -/
def Step.Spelled : Step → Prop
  | clause key keyword | rows key keyword =>
      Text.words (Text.upper key.toList) = keyword.map String.toList
  | _ => True

instance (step : Step) : Decidable step.Spelled :=
  match step with
  | .clause _ _ | .rows _ _ => inferInstanceAs (Decidable (_ = _))
  | .lead _ | .modifiers _ _ _ | .value _ | .columnList _ | .query _ | .options _ _ | .finish =>
      inferInstanceAs (Decidable True)

theorem Pattern.spelled_of_mem_steps {p : Pattern} {type : StatementType}
    (h : ofType? d type = some p) : ∀ step ∈ p.steps, step.Spelled := by
  cases type with
  | other phrase => simp [ofType?] at h
  | select | insert | replace | update | delete =>
      cases h
      cases d <;> decide
  | truncate | set =>
      cases h
      decide

namespace Phrase

theorem Spells.upper_revealed {p : Phrase} {ts : List Token} (h : p.Spells ts) :
    (ts.flatMap (revealed d)).map upper = p.map fun k => word k.toList := by
  fun_induction Spells p ts with
  | case1 k w =>
      have : Text.upper w = k.toList := by simpa [Text.isKeyword] using h
      simp [revealed, upper, this]
  | case2 k k' ks w b ts ih =>
      have : Text.upper w = k.toList := by simpa [Text.isKeyword] using h.1
      simp only [List.flatMap_cons, List.map_append, ih h.2, List.map_cons]
      simp [revealed, upper, this]
  | case3 => exact h.elim

theorem revealed_tokens (p : Phrase) :
    p.tokens.flatMap (revealed d) = p.map fun k => word k.toList := by
  fun_induction tokens p with
  | case1 => rfl
  | case2 k => rfl
  | case3 k k' ks ih =>
      rw [List.flatMap_cons, List.flatMap_cons, ih]
      rfl

end Phrase

theorem revealed_spaced (fs : List (List Token)) :
    (spaced fs).flatMap (revealed d) = fs.flatMap fun f => f.flatMap (revealed d) := by
  fun_induction spaced fs with
  | case1 => rfl
  | case2 ts => simp
  | case3 ts us rest ih =>
      rw [List.flatMap_append, List.flatMap_cons, ih]
      rfl

namespace Step
variable {insertLike : Bool} {step : Step} {key : String}

/-- What is written around a part is what its key demands. -/
theorem Named.revealed_frame (h : step.Named insertLike) (hs : step.Spelled)
    (hk : step.key? = some key) :
    step.opening.flatMap (revealed d) = Clause.opening insertLike key ∧
      step.closing.flatMap (revealed d) = Clause.closing insertLike key := by
  have keyword {key : String} {p : Phrase} (hk : key ∉ Parts.unprefixed)
      (hs : Text.words (Text.upper key.toList) = p.map String.toList) :
      (p.tokens ++ [Token.space [' ']]).flatMap (revealed d) = Clause.opening insertLike key ∧
        ([] : List Token) = Clause.closing insertLike key := by
    have other : key ≠ "columns" := by
      rintro rfl
      exact hk (by decide)
    rw [Clause.opening, if_neg hk, hs, List.flatMap_append, Phrase.revealed_tokens, List.map_map]
    refine ⟨List.append_nil _, ?_⟩
    simp [Clause.closing, other]
  have bare {key : String} (hk : key ∈ Parts.unprefixed ∧
      (insertLike && key == "columns") = false) :
      ([] : List Token) = Clause.opening insertLike key ∧
        ([] : List Token) = Clause.closing insertLike key := by
    simp [Clause.opening, Clause.closing, hk.1, hk.2]
  cases step with
  | clause key' p | rows key' p =>
      cases hk
      exact keyword h.1 hs
  | columnList key' =>
      cases hk
      obtain ⟨rfl, rfl⟩ := h
      exact ⟨rfl, rfl⟩
  | value key' | query key' | options key' _ =>
      cases hk
      exact bare h
  | finish => simp [key?] at hk
  | lead | modifiers => exact h.elim

/-- What a step reads around its part is what its key demands, or the clause is not there. -/
theorem Frames.framed {before taken after : List Token} (h : step.Frames before taken after)
    (hn : step.Named insertLike) (hs : step.Spelled) (hk : step.key? = some key) :
    (before.flatMap (revealed d)).map upper = Clause.opening insertLike key ∧
        after.flatMap (revealed d) = Clause.closing insertLike key ∨
      before = [] ∧ taken = [] ∧ after = [] := by
  have frame := hn.revealed_frame (d := d) hs hk
  cases h with
  | lead | modifiers => exact hn.elim
  | value key' =>
      left
      exact ⟨frame.1, frame.2⟩
  | clause key' _ ht hg | rows key' _ ht hg =>
      left
      rw [← frame.1, ← frame.2, List.flatMap_append, flatMap_revealed_of_blanks hg,
        List.append_nil, ht.upper_revealed, opening, List.flatMap_append, Phrase.revealed_tokens]
      exact ⟨(List.append_nil _).symm, rfl⟩
  | columnList key' _ hg =>
      left
      refine ⟨frame.1, ?_⟩
      rw [← frame.2, List.flatMap_cons, flatMap_revealed_of_blanks hg]
      rfl
  | query key' _ hg =>
      left
      rw [← frame.1, ← frame.2, flatMap_revealed_of_blanks hg]
      exact ⟨rfl, rfl⟩
  | options key' =>
      left
      exact ⟨frame.1, frame.2⟩
  | skip => exact .inr ⟨rfl, rfl, rfl⟩

/-- A choice with a part makes a clause of the tokens it reads. -/
theorem Takes.exists_clause {ts : List Token} {c : Choice} (h : step.Takes ts c)
    (hk : step.key? = some key) (hn : step.Named insertLike) (hs : step.Spelled)
    (hr : step.Reads d c) :
    ∃ clause : Clause, step.captures c = [clause.entry] ∧ clause.text = textOf c.part ∧
      (clause.IsFramed insertLike ∨ clause.IsAbsent) ∧
      ts.flatMap (revealed d) = clause.read d ++ c.next.flatMap (revealed d) ∧
      (c.part ≠ [] → (step.opening ++ (c.part ++ step.closing)).flatMap (revealed d) =
        clause.written d) := by
  obtain ⟨before, after, cuts, frames, -⟩ := h
  have shown : d.visible (textOf c.part) = c.part.flatMap (revealed d) :=
    hr.legible.visible_textOf
  have framed := frames.framed (d := d) hn hs hk
  have frame := hn.revealed_frame (d := d) hs hk
  refine ⟨⟨key, before.flatMap (revealed d), textOf c.part, after.flatMap (revealed d)⟩, ?_, rfl,
    ?_, ?_, fun hp => ?_⟩
  · rw [captures, hk, hr.captured]
    rfl
  · refine framed.imp_right fun absent => ?_
    obtain ⟨hb, ht, ha⟩ := absent
    rw [hb, ha, Choice.part, ht]
    exact ⟨rfl, rfl, rfl⟩
  · rw [cuts.eq_append, Clause.read, shown, Choice.part, flatMap_revealed_strip]
    simp only [List.flatMap_append, List.append_assoc]
  · rcases framed with ⟨hb, ha⟩ | ⟨-, ht, -⟩
    · rw [Clause.written, shown, hb, ha, ← frame.1, ← frame.2, List.flatMap_append,
        List.flatMap_append]
    · rw [Choice.part, ht] at hp
      exact absurd rfl hp

end Step

/-- The tokens in front of a route are those of its clauses, and the stretches that are written
are those of the clauses with text. -/
theorem exists_clauses {insertLike : Bool} {steps : List Step} {ts : List Token}
    {cs : List Choice} (h : route (steps ++ [.finish]) ts = some cs)
    (hn : ∀ step ∈ steps, step.Named insertLike) (hs : ∀ step ∈ steps, step.Spelled)
    (hl : Legible d ts) (ht : Tame (textOf ts)) :
    ∃ clauses : List Clause,
      capturesOf (steps ++ [.finish]) cs = clauses.map Clause.entry ∧
        (∀ c ∈ clauses, c.IsFramed insertLike ∨ c.IsAbsent) ∧
        ts.flatMap (revealed d) = clauses.flatMap (Clause.read d) ∧
        (fragmentsOf (steps ++ [.finish]) (cs.map Choice.part)).flatMap
            (fun f => f.flatMap (revealed d)) =
          (clauses.filter (! ·.text.isEmpty)).flatMap (Clause.written d) := by
  induction steps generalizing ts cs with
  | nil =>
      have ended : ts = [] := by
        by_contra hne
        obtain ⟨t, ts, rfl⟩ := List.exists_cons_of_ne_nil hne
        by_cases he : AtEnd (t :: ts)
        · refine ht.semicolon ?_
          rw [he t rfl, textOf_cons]
          simp [text]
        · rw [List.nil_append, route_finish_of_not he] at h
          simp at h
      subst ended
      rw [List.nil_append, route_finish_of_atEnd atEnd_nil] at h
      cases h
      exact ⟨[], rfl, by simp, rfl, rfl⟩
  | cons step steps ih =>
      have reads := reads_of_route h hl ht
      obtain ⟨c, cs', rfl, takes, hr⟩ := route_cons_eq_some h
      cases reads with
      | cons reads _ =>
          obtain ⟨before, after, cuts, frames, -⟩ := id takes
          obtain ⟨front, hf⟩ := cuts.next_suffix
          have legible : Legible d c.next := by
            rw [← hf] at hl
            exact hl.right
          obtain ⟨clauses, captures, framed, read, written⟩ := ih hr
            (fun step hm => hn step (by simp [hm])) (fun step hm => hs step (by simp [hm]))
            legible (ht.of_subset cuts.next_suffix.subset)
          cases hk : step.key? with
          | none =>
              have same : ts = c.next := by
                have eq := cuts.eq_append
                generalize c.taken = taken at frames eq
                cases frames with
                | skip => exact eq
                | lead => exact (hn _ (List.mem_cons_self ..)).elim
                | modifiers | value | clause | columnList | rows | query | options =>
                    simp [Step.key?] at hk
              refine ⟨clauses, ?_, framed, by rw [same, read], ?_⟩
              · rw [List.cons_append, capturesOf, Step.captures, hk, captures]
                rfl
              · rw [List.cons_append, List.map_cons, fragmentsOf, if_pos (reads.keyless hk),
                  written]
          | some key =>
              obtain ⟨clause, capture, text, frame, first, fragment⟩ := takes.exists_clause hk
                (hn step (by simp)) (hs step (by simp)) reads
              refine ⟨clause :: clauses, ?_, ?_, ?_, ?_⟩
              · rw [List.cons_append, capturesOf, capture, captures]
                rfl
              · intro c hc
                rcases List.mem_cons.mp hc with rfl | hc
                · exact frame
                · exact framed c hc
              · rw [first, read, List.flatMap_cons]
              · rw [List.cons_append, List.map_cons, fragmentsOf]
                by_cases hp : c.part = []
                · rw [if_pos hp, written, List.filter_cons_of_neg]
                  rw [text, hp]
                  simp
                · have full := reads.legible.textOf_ne_nil hp
                  rw [if_neg hp, List.flatMap_cons, written, fragment hp,
                    List.filter_cons_of_pos, List.flatMap_cons]
                  rw [text]
                  simpa using full

/-- The first token that a statement shows is its keyword. -/
theorem eq_keyword_of_spells {p : Pattern} {t : Text} {k : String} {q : Phrase}
    {gap lead rest : List Token} (hk : k ∈ StatementType.keywords)
    (hd : StatementType.detect d t = some (.ofPhrase k.toList)) (hg : Blanks gap)
    (hq : q.length = 1) (hl : q.Spells lead) (he : p.tokens d t = gap ++ (lead ++ rest)) :
    q = [k] := by
  obtain ⟨gap', w, rest', hg', hw, he'⟩ := StatementType.exists_lead hk hd
  obtain ⟨k', rfl⟩ := List.length_eq_one_iff.mp hq
  obtain ⟨_, _, w', us, hks, rfl, hw'⟩ := hl.head
  cases hks
  have shown := (p.legible_tokens d t).visible_textOf
  rw [p.textOf_tokens, he, Dialect.visible, he', visible_append, visible_of_blanks hg',
    List.nil_append, visible_cons_of_not _ rfl, List.flatMap_append,
    flatMap_revealed_of_blanks hg, List.nil_append, List.cons_append, List.flatMap_cons] at shown
  change _ = word w' :: _ at shown
  cases (List.cons.inj shown).1
  rw [Phrase.keyword_unique hw' hw]

theorem words_keyword : ∀ k ∈ StatementType.keywords, Text.words k.toList = [k.toList] := by
  decide

/-- The keyword of a statement and the part with its name are a clause. -/
theorem Pattern.Opens.exists_first {p : Pattern} {t : Text} {k key : String}
    {keywords : List Phrase} {first : Step} {steps : List Step} {c₀ c₁ : Choice}
    (h : p.Opens k key keywords first steps) (hk : k ∈ StatementType.keywords)
    (hd : StatementType.detect d t = some (.ofPhrase k.toList))
    (h₀ : (Step.lead keywords).Takes (p.tokens d t) c₀) (h₁ : first.Takes c₀.next c₁)
    (hr : first.Reads d c₁) (insertLike : Bool) :
    ∃ clause : Clause, first.captures c₁ = [clause.entry] ∧ clause.IsFramed insertLike ∧
      (p.tokens d t).flatMap (revealed d) = clause.read d ++ c₁.next.flatMap (revealed d) ∧
      (headline k c₁.part).flatMap (revealed d) = clause.written d := by
  obtain ⟨before, after, cuts, frames, -⟩ := h₀
  obtain ⟨before₁, after₁, cuts₁, frames₁, -⟩ := h₁
  obtain ⟨word_before, no_taken, no_after⟩ :
      (before.flatMap (revealed d)).map upper = [word k.toList] ∧ c₀.taken = [] ∧ after = [] := by
    have eq := cuts.eq_append
    generalize c₀.taken = taken at frames eq
    cases frames with
    | lead hg hq hl =>
        rw [List.append_assoc] at eq
        have keyword := eq_keyword_of_spells hk hd hg (h.single _ hq) hl eq
        subst keyword
        rw [List.flatMap_append, flatMap_revealed_of_blanks hg, List.nil_append,
          hl.upper_revealed]
        exact ⟨rfl, rfl, rfl⟩
    | skip ho => simp [Step.isOptional] at ho
  obtain ⟨bare, blanks⟩ : before₁ = [] ∧ Blanks after₁ := by
    generalize c₁.taken = taken at frames₁
    rcases h.first_eq with rfl | ⟨phrases, most, rfl⟩
    · cases frames₁ with
      | value => exact ⟨rfl, blanks_nil⟩
      | skip ho => exact ⟨rfl, blanks_nil⟩
    · cases frames₁ with
      | modifiers _ _ _ hg => exact ⟨rfl, hg⟩
      | skip ho => exact ⟨rfl, blanks_nil⟩
  have shown : d.visible (textOf c₁.part) = c₁.part.flatMap (revealed d) :=
    hr.legible.visible_textOf
  have other : key ≠ "columns" := by
    rintro rfl
    exact h.unprefixed (by decide)
  refine ⟨⟨key, before.flatMap (revealed d), textOf c₁.part, []⟩, ?_, ⟨?_, ?_⟩, ?_, ?_⟩
  · rw [Step.captures, h.key_eq, hr.captured]
    rfl
  · rw [word_before, Clause.opening, if_neg h.unprefixed, h.upper_key, words_keyword k hk]
    rfl
  · simp [Clause.closing, other]
  · rw [cuts.eq_append, no_taken, no_after, cuts₁.eq_append, bare, Clause.read, shown,
      Choice.part, flatMap_revealed_strip]
    simp only [List.flatMap_append, flatMap_revealed_of_blanks blanks, List.nil_append,
      List.append_nil, List.append_assoc]
  · rw [Clause.written, word_before, shown, headline, List.flatMap_cons]
    split
    · rename_i hp
      rw [hp]
      rfl
    · simp [revealed]

/-- Splitting and joining keeps every token of a statement in its place. The keywords are put in
upper case, and what frames an empty part is left out. -/
theorem visible_join {s : Settings} {t : Text} {parts : Parts} (h : split s t = .ok parts)
    (hs : ';' ∉ t) (hm : ¬Subquery.hashSub <:+: Piece.ofText s.dialect t)
    (hw : ∀ c ∈ t, Text.isWhite c = true → Text.isBlank c = true)
    (hc : ∀ p ∈ parts.toList, Unbordered p.2) :
    ∃ (type : StatementType) (first : Clause) (clauses : List Clause),
      StatementType.detect s.dialect t = some type ∧
        parts.toList = (first :: clauses).map Clause.entry ∧
        first.IsFramed type.isInsertLike ∧
        (∀ c ∈ clauses, c.IsFramed type.isInsertLike ∨ c.IsAbsent) ∧
        s.dialect.visible t = (first :: clauses).flatMap (Clause.read s.dialect) ∧
        s.dialect.visible (Parts.join parts) = first.written s.dialect ++
          (clauses.filter (! ·.text.isEmpty)).flatMap (Clause.written s.dialect) := by
  obtain ⟨type, p, hd, hp⟩ := exists_pattern h
  obtain ⟨-, cs, hr, rfl⟩ := (split_eq_ok_iff hd hp hm hs).mp h
  obtain ⟨k, hk, rfl, key, keywords, step, steps, opens⟩ := p.exists_opens hp
  have spelled := Pattern.spelled_of_mem_steps hp
  have legible := p.legible_tokens s.dialect t
  have tame : Tame (textOf (p.tokens s.dialect t)) := by
    rw [p.textOf_tokens]
    exact ⟨hw, hs⟩
  have shown := legible.visible_textOf
  rw [p.textOf_tokens] at shown
  rw [opens.steps_eq] at hr hc spelled ⊢
  have reads := reads_of_route hr legible tame
  have whole := hr
  obtain ⟨c₀, _, rfl, takes₀, hr⟩ := route_cons_eq_some hr
  obtain ⟨c₁, cs, rfl, takes₁, hr⟩ := route_cons_eq_some hr
  have joined := join_capturesOf opens.unprefixed opens.upper_key opens.key_eq opens.named_finish
    reads hc
  have layout := legible_layout opens.plain opens.first_ne_options opens.named_finish whole
    legible tame
  have suffix : c₁.next <:+ p.tokens s.dialect t := by
    obtain ⟨_, _, cuts₀, -⟩ := takes₀
    obtain ⟨_, _, cuts₁, -⟩ := takes₁
    exact cuts₁.next_suffix.trans cuts₀.next_suffix
  have rest : Legible s.dialect c₁.next := by
    obtain ⟨front, hf⟩ := suffix
    rw [← hf] at legible
    exact legible.right
  cases reads with
  | cons _ reads =>
      cases reads with
      | cons reads₁ _ =>
          obtain ⟨first, capture, framed, read, written⟩ :=
            opens.exists_first hk hd takes₀ takes₁ reads₁
              (StatementType.ofPhrase k.toList).isInsertLike
          obtain ⟨clauses, captures, all_framed, all_read, all_written⟩ :=
            exists_clauses hr opens.named (fun step hm => spelled step (by simp [hm])) rest
              (tame.of_subset suffix.subset)
          refine ⟨_, first, clauses, hd, ?_, framed, all_framed, ?_, ?_⟩
          · simp only [capturesOf, capture, captures]
            rfl
          · rw [shown, read, all_read, List.flatMap_cons]
          · rw [joined, layout.visible_textOf, revealed_spaced, List.flatMap_cons, written,
              all_written]

theorem visible_join_select :
    ∃ (first : Clause) (clauses : List Clause),
      Dialect.mysql.visible "select  distinct a, (select 1)from t where".toList =
          (first :: clauses).flatMap (Clause.read .mysql) ∧
        Dialect.mysql.visible "SELECT distinct a, (select 1) FROM t".toList =
          first.written .mysql ++
            (clauses.filter (! ·.text.isEmpty)).flatMap (Clause.written .mysql) := by
  let parts : Parts := ⟨[("select", "distinct".toList), ("columns", "a, (select 1)".toList),
    ("from", "t".toList), ("where", []), ("group by", []), ("having", []), ("order by", []),
    ("limit", []), ("options", [])]⟩
  have joined : Parts.join parts = "SELECT distinct a, (select 1) FROM t".toList := by
    decide +kernel
  have accepted : split {} "select  distinct a, (select 1)from t where".toList = .ok parts := by
    decide +kernel
  have white : ∀ c ∈ "select  distinct a, (select 1)from t where".toList,
      Text.isWhite c = true → Text.isBlank c = true := by
    simp [Text.isWhite, Text.isBlank]
  obtain ⟨_, first, clauses, -, -, -, -, read, written⟩ :=
    visible_join accepted (by decide +kernel) (by decide +kernel) white (by decide +kernel)
  rw [joined] at written
  exact ⟨first, clauses, read, written⟩

end SqlStatement
