import SqlStatement.Proofs.Legible
import SqlStatement.Proofs.Restoring
import SqlStatement.Split

/-!
# Splitting behind veils

A statement whose subqueries are hidden is split along the route that its
pattern takes through the veil of the statement, and fails otherwise. The parts
are the texts of the veiled tokens on that route.
-/
namespace SqlStatement
open Token

/-- The tokens of a text behind veils. -/
def Dialect.veil (d : Dialect) (t : Text) : List Token := ofPieces (Nesting.ofText d t).veiled

namespace Nesting

/-- Without subqueries a veil hides nothing. -/
theorem veiled_of_not_hasSubquery {n : Nesting} (h : n.hasSubquery = false) :
    n.veiled = n.pieces ∧ n.depth = 0 := by
  induction n with
  | done => exact ⟨rfl, rfl⟩
  | piece p rest ih =>
      have := ih h
      exact ⟨by rw [veiled, pieces, this.1], this.2⟩
  | group inner rest ih₁ ih₂ =>
      simp only [hasSubquery, Bool.or_eq_false_iff] at h
      have i := ih₁ h.1.2
      have r := ih₂ h.2
      refine ⟨?_, ?_⟩
      · rw [veiled, h.1.1, pieces, i.1, r.1]
        rfl
      · rw [depth, h.1.1, i.2, r.2]
        rfl

theorem queries_ne_nil {n : Nesting} (h : n.hasSubquery = true) : n.queries ≠ [] := by
  induction n with
  | done => simp [hasSubquery] at h
  | piece p rest ih => exact ih h
  | group inner rest ih₁ ih₂ =>
      simp only [hasSubquery, Bool.or_eq_true] at h
      rw [queries]
      split
      · simp
      · rename_i hq
        rcases h with (h | h) | h
        · exact absurd h hq
        · simp [ih₁ h]
        · simp [ih₂ h]

/-- Where a text has a subquery, a parenthesis stands in front of the word SELECT. -/
theorem exists_select {n : Nesting} (h : n.hasSubquery = true) :
    ∃ before gap w after, n.text = before ++ '(' :: (gap ++ (w ++ after)) ∧
      Text.isKeyword "SELECT" w = true := by
  have content {inner : Nesting} (h : inner.startsQuery = true) :
      ∃ gap w after, inner.text = gap ++ (w ++ after) ∧ Text.isKeyword "SELECT" w = true := by
    have lead (m : Nesting) : ∃ r, m.text = m.leading ++ r := by
      induction m with
      | done => exact ⟨[], rfl⟩
      | group => exact ⟨_, rfl⟩
      | piece p rest ih =>
          cases p with
          | char c =>
              obtain ⟨r, hr⟩ := ih
              exact ⟨r, congrArg (c :: ·) hr⟩
          | literal | stray => exact ⟨_, rfl⟩
    obtain ⟨r, hr⟩ := lead inner
    refine ⟨inner.leading.takeWhile Text.isBlank, _,
      (inner.leading.dropWhile Text.isBlank).dropWhile Text.isWordChar ++ r, ?_, h⟩
    have word := List.takeWhile_append_dropWhile (p := Text.isWordChar)
      (l := inner.leading.dropWhile Text.isBlank)
    have blanks := List.takeWhile_append_dropWhile (p := Text.isBlank) (l := inner.leading)
    rw [hr, Text.skipBlanks, ← List.append_assoc (List.takeWhile _ _) _ r, word,
      ← List.append_assoc, blanks]
  induction n with
  | done => simp [hasSubquery] at h
  | piece p rest ih =>
      obtain ⟨before, gap, w, after, ht, hw⟩ := ih h
      exact ⟨p.text ++ before, gap, w, after,
        by rw [text, pieces, Piece.textOf_cons, ← text, ht, List.append_assoc], hw⟩
  | group inner rest ih₁ ih₂ =>
      have shape : (group inner rest).text = '(' :: (inner.text ++ ')' :: rest.text) := by
        simp [text, pieces, Piece.text]
      rw [shape]
      simp only [hasSubquery, Bool.or_eq_true] at h
      rcases h with (h | h) | h
      · obtain ⟨gap, w, after, ht, hw⟩ := content h
        exact ⟨[], gap, w, after ++ ')' :: rest.text, by rw [ht]; simp, hw⟩
      · obtain ⟨before, gap, w, after, ht, hw⟩ := ih₁ h
        exact ⟨'(' :: before, gap, w, after ++ ')' :: rest.text, by rw [ht]; simp, hw⟩
      · obtain ⟨before, gap, w, after, ht, hw⟩ := ih₂ h
        exact ⟨'(' :: (inner.text ++ ')' :: before), gap, w, after, by rw [ht]; simp, hw⟩

end Nesting

theorem Subquery.mentionsSelect_of_word {bytes : Nat} {before w : Text} (after : Text)
    (hb : bytes ≤ before.length) (hw : Text.isKeyword "SELECT" w = true) :
    mentionsSelect bytes (before ++ (w ++ after)) = true := by
  induction before generalizing bytes with
  | nil =>
      have length : w.length = 6 := by
        rw [Text.isKeyword, beq_iff_eq] at hw
        have := congrArg List.length hw
        rwa [Text.upper, List.length_map] at this
      obtain ⟨c, w, rfl⟩ :=
        List.exists_cons_of_length_pos (Nat.lt_of_lt_of_eq (by decide) length.symm)
      have zero : bytes = 0 := Nat.le_zero.mp hb
      have taken : (c :: (w ++ after)).take 6 = c :: w := by
        rw [← List.cons_append, List.take_append_of_le_length (Nat.le_of_eq length.symm),
          List.take_of_length_le (Nat.le_of_eq length)]
      rw [List.nil_append, List.cons_append, mentionsSelect, taken, zero, hw]
      rfl
  | cons c before ih =>
      rw [List.cons_append, mentionsSelect, Bool.or_eq_true]
      right
      refine ih ?_
      have := Char.utf8Size_pos c
      simp only [List.length_cons] at hb
      omega

/-- The keywords of the statements that can be split. -/
def StatementType.keywords : List String :=
  ["SELECT", "INSERT", "REPLACE", "UPDATE", "DELETE", "TRUNCATE", "SET"]

namespace StatementType
variable {d : Dialect} {t : Text} {type : StatementType}

theorem eq_of_ofPhrase_eq (d : Dialect) :
    ∀ p ∈ d.statementPhrases, ∀ k ∈ keywords, ofPhrase p.text = ofPhrase k.toList → p = [k] := by
  cases d <;> decide +kernel

theorem exists_keyword {p : Pattern} (h : Pattern.ofType? d type = some p) :
    ∃ k ∈ keywords, type = ofPhrase k.toList ∧
      (p.hidesSubqueries = true → k.length = 6) := by
  cases type with
  | other phrase => simp [Pattern.ofType?] at h
  | select => exact ⟨"SELECT", by decide, by decide, fun _ => rfl⟩
  | insert => exact ⟨"INSERT", by decide, by decide, fun _ => rfl⟩
  | replace =>
      refine ⟨"REPLACE", by decide, by decide, fun hh => ?_⟩
      cases h
      simp [Pattern.insertLike] at hh
  | update => exact ⟨"UPDATE", by decide, by decide, fun _ => rfl⟩
  | delete => exact ⟨"DELETE", by decide, by decide, fun _ => rfl⟩
  | truncate =>
      refine ⟨"TRUNCATE", by decide, by decide, fun hh => ?_⟩
      cases h
      simp at hh
  | set =>
      refine ⟨"SET", by decide, by decide, fun hh => ?_⟩
      cases h
      simp at hh

/-- The statements that hide their subqueries have a keyword of six characters, with which no other
keyword begins. -/
theorem exists_keyword_of_mem (h : type ∈ [.select, .update, .delete]) :
    ∃ k ∈ keywords, type = ofPhrase k.toList ∧ k.length = 6 ∧
      ∀ k' ∈ keywords, k.toList <+: k'.toList → k' = k := by
  simp only [List.mem_cons, List.not_mem_nil, or_false] at h
  rcases h with rfl | rfl | rfl
  · exact ⟨"SELECT", by decide, by decide, rfl, by decide⟩
  · exact ⟨"UPDATE", by decide, by decide, rfl, by decide⟩
  · exact ⟨"DELETE", by decide, by decide, rfl, by decide⟩

theorem isInsertLike_of_mem (h : type ∈ [.select, .update, .delete]) :
    type.isInsertLike = false := by
  simp only [List.mem_cons, List.not_mem_nil, or_false] at h
  rcases h with rfl | rfl | rfl <;> rfl

theorem exists_pattern_of_mem (d : Dialect) (h : type ∈ [.select, .update, .delete]) :
    ∃ p, Pattern.ofType? d type = some p ∧ p.hidesSubqueries = true ∧
      p.steps.getLast? = some .finish := by
  simp only [List.mem_cons, List.not_mem_nil, or_false] at h
  rcases h with rfl | rfl | rfl <;> exact ⟨_, rfl, rfl, rfl⟩

/-- A statement begins with the keyword of its type. -/
theorem exists_lead {k : String} (hk : k ∈ keywords) (h : detect d t = some (ofPhrase k.toList)) :
    ∃ gap w rest, Blanks gap ∧ Text.isKeyword k w = true ∧
      Token.ofText d t = gap ++ .word w :: rest := by
  rw [detect, Option.map_eq_some_iff] at h
  obtain ⟨p, hp, ht⟩ := h
  have found : (p.after? (skipSpace (Token.ofText d t))).isSome = true := by
    have := List.find?_some hp
    exact this
  obtain ⟨us, hu⟩ := Option.isSome_iff_exists.mp found
  have single := eq_of_ofPhrase_eq d p (List.mem_of_find?_eq_some hp) k hk ht
  subst single
  obtain ⟨lead, hl, he⟩ := Phrase.after?_eq_some hu
  obtain ⟨k', ks, w, us', hks, rfl, hw⟩ := hl.head
  cases hks
  obtain ⟨gap, hg, hs⟩ := skipSpace_eq (Token.ofText d t)
  exact ⟨gap, w, us' ++ us, hg, hw, by rw [hs, he, List.cons_append]⟩

end StatementType

theorem Token.not_mem_textOf_of_blanks {ts : List Token} (ht : Tidy ts) (hb : Blanks ts)
    {c : Char} (hc : Text.isBlank c = false) : c ∉ textOf ts := by
  intro hm
  obtain ⟨u, hu, hm⟩ := List.mem_flatMap.mp hm
  have space := hb u hu
  cases u with
  | space b => exact absurd ((ht.proper _ hu).2 c hm) (by simp [hc])
  | _ => simp [isSpace] at space

/-- The word SELECT of a subquery stands behind the head of a statement that can hide it. -/
theorem Subquery.mentionsSelect_of_hasSubquery {d : Dialect} {t : Text} {k : String}
    (hk : k ∈ StatementType.keywords) (hl : k.length = 6)
    (hd : StatementType.detect d t = some (.ofPhrase k.toList))
    (h : (Nesting.ofText d t).hasSubquery = true) : mentionsSelect headBytes t = true := by
  obtain ⟨gap, w, rest, hg, hw, he⟩ := StatementType.exists_lead hk hd
  obtain ⟨before, between, select, after, ht, hs⟩ := Nesting.exists_select h
  rw [Nesting.text_ofText] at ht
  have upper : Text.upper w = k.toList := by simpa [Text.isKeyword] using hw
  have length : w.length = 6 := by
    rw [← List.length_map (f := Char.toUpper), ← hl, ← String.length_toList, ← upper, Text.upper]
  have lead : textOf gap ++ w <+: before ++ '(' :: (between ++ (select ++ after)) := by
    rw [← ht, ← textOf_ofText d t, he, textOf_append, textOf_cons]
    exact ⟨textOf rest, List.append_assoc _ _ _⟩
  have open_free : '(' ∉ textOf gap ++ w := by
    intro hm
    rcases List.mem_append.mp hm with hm | hm
    · have tidy := tidy_ofText d t
      rw [he] at tidy
      exact not_mem_textOf_of_blanks tidy.left hg (by decide) hm
    · have : '(' ∈ k.toList := by
        rw [← upper]
        exact List.mem_map.mpr ⟨'(', hm, by decide⟩
      revert this
      exact (by decide : ∀ k ∈ StatementType.keywords, '(' ∉ k.toList) k hk
  have short : (textOf gap ++ w).length ≤ before.length := by
    by_contra hlt
    have inside : before ++ ['('] <+: textOf gap ++ w := by
      refine List.prefix_of_prefix_length_le ⟨between ++ (select ++ after), by simp⟩ lead ?_
      simp only [List.length_append, List.length_singleton] at hlt ⊢
      omega
    exact open_free (inside.mem (by simp))
  have split : t = (before ++ '(' :: between) ++ (select ++ after) := by rw [ht]; simp
  rw [split]
  refine mentionsSelect_of_word after ?_ hs
  simp only [List.length_append, List.length_cons] at short ⊢
  rw [headBytes]
  omega

theorem route_cons_eq_some {step : Step} {steps : List Step} {ts : List Token} {cs : List Choice}
    (h : route (step :: steps) ts = some cs) :
    ∃ c cs', cs = c :: cs' ∧ step.Takes ts c ∧ route steps c.next = some cs' := by
  rw [route_cons] at h
  obtain ⟨c, hc, onward⟩ := List.exists_of_findSome?_eq_some h
  obtain ⟨cs', hr, rfl⟩ := Option.map_eq_some_iff.mp onward
  exact ⟨c, cs', rfl, Step.takes_of_mem_choices hc, hr⟩

theorem taken_infix_of_route {steps : List Step} {ts : List Token} {cs : List Choice}
    (h : route steps ts = some cs) {c : Choice} (hc : c ∈ cs) : c.taken <:+: ts := by
  induction steps generalizing ts cs with
  | nil =>
      cases h
      simp at hc
  | cons step steps ih =>
      obtain ⟨c', cs', rfl, ⟨before, after, cuts, -⟩, hr⟩ := route_cons_eq_some h
      rcases List.mem_cons.mp hc with rfl | hc
      · rw [cuts.eq_append]
        exact List.infix_append' ..
      · exact (ih hr hc).trans cuts.next_suffix.isInfix

theorem taken_subset_of_route {steps : List Step} {ts : List Token} {cs : List Choice}
    (h : route steps ts = some cs) {c : Choice} (hc : c ∈ cs) : c.taken ⊆ ts :=
  (taken_infix_of_route h hc).subset

theorem optionsPlain_of_route {steps : List Step} {ts : List Token} {cs : List Choice}
    (h : route steps ts = some cs) (hs : ';' ∉ textOf ts) : OptionsPlain steps cs := by
  intro key keywords c hc hm
  have sub := taken_subset_of_route h (List.of_mem_zip hc).2
  obtain ⟨t, ht, hm⟩ := List.mem_flatMap.mp hm
  exact hs (List.mem_flatMap.mpr ⟨t, sub ht, hm⟩)

/-- A veil stands for the text it hides. -/
theorem unveil_veil (d : Dialect) (t : Text) :
    Piece.unveil d (piecesOf (d.veil t)) = Piece.ofText d t := by
  have lexed : Piece.Lexed d ((Nesting.ofPieces (Piece.ofText d t)).pieces ++ []) := by
    rw [List.append_nil, Nesting.pieces_ofPieces]
    exact Piece.lexed_ofText d t
  have back := Nesting.unveil_veiled_append (Nesting.sound_ofPieces (Piece.ofText d t)) lexed
  rw [Dialect.veil, piecesOf_ofPieces, Nesting.ofText, back, Nesting.pieces_ofPieces]

theorem veiled_veil (d : Dialect) (t : Text) : Veiled d (piecesOf (d.veil t)) := by
  rw [Dialect.veil, piecesOf_ofPieces]
  refine (Nesting.sound_ofPieces (Piece.ofText d t)).veiled ?_
  rw [Nesting.pieces_ofPieces]
  exact Piece.lexed_ofText d t

theorem legible_veil (d : Dialect) (t : Text) : Legible d (d.veil t) := by
  refine ⟨tidy_ofPieces _, ?_, fun x hx => ?_⟩
  · rw [unveil_veil]
    exact Piece.lexed_ofText d t
  · exact (veiled_veil d t).literal_of_mem (literal_mem_piecesOf.mpr hx)

theorem textOf_veil (d : Dialect) (t : Text) : textOf (d.veil t) = t := by
  rw [← textOf_piecesOf, ← Piece.textOf_unveil (d := d), unveil_veil, Piece.textOf_ofText]

namespace Pattern
variable {p : Pattern} {d : Dialect}

/-- The tokens of a statement as its pattern reads them. -/
def tokens (p : Pattern) (d : Dialect) (t : Text) : List Token :=
  if p.hidesSubqueries then d.veil t else Token.ofText d t

theorem legible_tokens (p : Pattern) (d : Dialect) (t : Text) : Legible d (p.tokens d t) := by
  rw [tokens]
  split
  · exact legible_veil d t
  · exact legible_ofText d t

theorem textOf_tokens (p : Pattern) (d : Dialect) (t : Text) : textOf (p.tokens d t) = t := by
  rw [tokens]
  split
  · exact textOf_veil d t
  · exact textOf_ofText d t

/-- Behind the first value of a statement, which is its third part, only clauses and options may
follow, unless the statement is INSERT, REPLACE or SET. -/
theorem trailing_steps {type : StatementType} (h : ofType? d type = some p)
    (hi : type.isInsertLike = false) (hs : type ≠ .set) : Trailing (p.steps.drop 3) := by
  cases type with
  | other phrase => simp [ofType?] at h
  | select =>
      cases h
      refine .clause _ ?_ (.clause _ ?_ (.clause _ ?_ (.clause _ ?_ (.clause _ ?_
        (.clause _ ?_ (.options _ _)))))) <;> decide
  | update =>
      cases h
      refine .clause _ ?_ (.clause _ ?_ (.clause _ ?_ .finish)) <;> decide
  | delete =>
      cases h
      refine .clause _ ?_ (.clause _ ?_ (.clause _ ?_ (.clause _ ?_ .finish))) <;> decide
  | truncate =>
      cases h
      exact .finish
  | insert | replace => simp [StatementType.isInsertLike] at hi
  | set => exact absurd rfl hs

theorem isInsertLike_of_hides {type : StatementType} (h : ofType? d type = some p)
    (hh : p.hidesSubqueries = true) : type.isInsertLike = false := by
  cases type <;> first | rfl | (cases h; simp [insertLike] at hh)

theorem blind_steps {type : StatementType} (h : ofType? d type = some p)
    (hh : p.hidesSubqueries = true) : Blind p.steps := by
  cases type with
  | other phrase => simp [ofType?] at h
  | select | update | delete =>
      have trailing := trailing_steps h rfl (by simp)
      cases h
      refine Blind.lead (Blind.modifiers (trailing.blind_value ?_ _) _ _ _) _
      unfold Unmarked
      cases d <;> decide
  | insert | replace =>
      cases h
      simp [insertLike] at hh
  | truncate | set =>
      cases h
      simp at hh

end Pattern

/-- A statement with subqueries is matched behind its veil, and injection works on what is captured
along the route. -/
theorem Pattern.partsAround_of_hasSubquery {p : Pattern} {s : Settings} {t : Text}
    (hb : Blind p.steps) (hm : ¬Subquery.hashSub <:+: Piece.ofText s.dialect t)
    (hi : ¬(StatementType.detect s.dialect t).any StatementType.isInsertLike)
    (hsub : (Nesting.ofText s.dialect t).hasSubquery = true)
    (hq : Subquery.mentionsSelect Subquery.headBytes t = true)
    {parts : List Choice → Captures}
    (injected : ∀ sets cs cs', Subquery.Restorable s.dialect sets
        ((Nesting.ofText s.dialect t).items 1) →
      List.Forall₂ (SameTaken ((Nesting.ofText s.dialect t).items 1)) cs cs' →
      route p.steps (s.dialect.veil t) = some cs' →
      (capturesOf p.steps cs).map (fun q => (q.1, Subquery.injectInto s.dialect sets q.2)) =
        parts cs') :
    p.partsAround s t =
      if (Nesting.ofText s.dialect t).depth ≤ s.maxNesting then
        match route p.steps (s.dialect.veil t) with
        | some cs => .ok ⟨parts cs⟩
        | none => .error (.invalidSyntax p.family t)
      else .error (.nestingTooDeep s.maxNesting) := by
  have plain : (StatementType.detect s.dialect t).filter StatementType.isInsertLike = none := by
    simpa [Option.filter_eq_none_iff, Option.any_eq_true] using hi
  have whole : (Nesting.ofText s.dialect t).pieces = Piece.ofText s.dialect t :=
    Nesting.pieces_ofPieces _
  rw [partsAround, if_pos hsub, Subquery.extract, if_pos hq, Subquery.insertedQuery?, plain]
  change ((Subquery.takeOut _ _ _ _ >>= _ : Except Error Parts)) = _
  rw [Subquery.takeOut_eq]
  by_cases hd : (Nesting.ofText s.dialect t).depth ≤ s.maxNesting
  · rw [if_pos hd, if_pos hd]
    have lexed := (whole ▸ Piece.lexed_ofText s.dialect t).masks
      ((Nesting.ofText s.dialect t).masks_shown 0 1)
    have marked : Token.ofText s.dialect (Subquery.outerText 1 (Nesting.ofText s.dialect t)) =
        ofPieces (((Nesting.ofText s.dialect t).items 1).flatMap (Item.pieces 0)) :=
      ofText_textOf_of_lexed lexed
    have marks := Marks.items ((Nesting.ofText s.dialect t).items 1)
    rw [Nesting.map_veiled_items, ← marked] at marks
    have agrees := hb _ _ _ marks
    change (Pattern.parts _ _ _ _ >>= _ : Except Error Parts) = _
    rw [Pattern.parts, matchSteps_eq]
    rw [← Dialect.veil] at agrees
    cases hr : route p.steps (s.dialect.veil t) with
    | none =>
        rw [hr] at agrees
        cases hr' : route p.steps
            (Token.ofText s.dialect (Subquery.outerText 1 (Nesting.ofText s.dialect t))) with
        | none => rfl
        | some cs =>
            rw [hr'] at agrees
            cases agrees
    | some cs =>
        rw [hr] at agrees
        cases hr' : route p.steps
            (Token.ofText s.dialect (Subquery.outerText 1 (Nesting.ofText s.dialect t))) with
        | none =>
            rw [hr'] at agrees
            cases agrees
        | some cs' =>
            rw [hr'] at agrees
            cases agrees with
            | some agrees =>
                have back := injected _ _ _ (Subquery.restorable_ofText hm) agrees hr
                have two : ¬(Subquery.outerText 1 (Nesting.ofText s.dialect t) ::
                    Subquery.outerTexts 1 (Nesting.ofText s.dialect t).queries).length < 2 := by
                  have := List.length_pos_iff.mpr (Nesting.queries_ne_nil hsub)
                  simp only [List.length_cons, Subquery.length_outerTexts]
                  omega
                change Except.ok (Subquery.injectParts _ _ _) = _
                rw [Subquery.injectParts, Subquery.Extraction.sets, if_neg two,
                  OrderedMap.mapValues, back]
  · rw [if_neg hd, if_neg hd]
    rfl

/-- A statement whose subqueries are hidden is matched behind its veil. -/
theorem Pattern.partsAround_eq {p : Pattern} {s : Settings} {t : Text} (hb : Blind p.steps)
    (hm : ¬Subquery.hashSub <:+: Piece.ofText s.dialect t)
    (ho : ∀ cs, route p.steps (s.dialect.veil t) = some cs → OptionsPlain p.steps cs)
    (hi : ¬(StatementType.detect s.dialect t).any StatementType.isInsertLike)
    (hq : (Nesting.ofText s.dialect t).hasSubquery = true →
      Subquery.mentionsSelect Subquery.headBytes t = true) :
    p.partsAround s t =
      if (Nesting.ofText s.dialect t).depth ≤ s.maxNesting then
        match route p.steps (s.dialect.veil t) with
        | some cs => .ok ⟨capturesOf p.steps cs⟩
        | none => .error (.invalidSyntax p.family t)
      else .error (.nestingTooDeep s.maxNesting) := by
  by_cases hsub : (Nesting.ofText s.dialect t).hasSubquery = true
  · exact partsAround_of_hasSubquery hb hm hi hsub (hq hsub) fun sets cs cs' restorable agrees hr =>
      restorable.inject_captures agrees (ho cs' hr)
  · obtain ⟨veiled, flat⟩ := Nesting.veiled_of_not_hasSubquery (by simpa using hsub)
    rw [partsAround, if_neg hsub, flat, if_pos (Nat.zero_le _), Pattern.parts, matchSteps_eq,
      Dialect.veil, veiled, Nesting.ofText, Nesting.pieces_ofPieces, ← Token.ofText]
    cases route p.steps (Token.ofText s.dialect t) <;> rfl

/-- A statement that is split has a type with a pattern. -/
theorem exists_pattern {s : Settings} {t : Text} {parts : Parts} (h : split s t = .ok parts) :
    ∃ type p, StatementType.detect s.dialect t = some type ∧
      Pattern.ofType? s.dialect type = some p := by
  rw [split] at h
  split at h
  · simp at h
  · rename_i type hd
    split at h
    · simp at h
    · rename_i p hp
      exact ⟨type, p, hd, hp⟩

/-- A statement is split exactly along the route of its pattern through its tokens, if its
subqueries nest as deeply as they may and its options have no semicolon. -/
theorem split_eq_ok_iff_of_optionsPlain {s : Settings} {t : Text} {type : StatementType}
    {p : Pattern} {parts : Parts} (hd : StatementType.detect s.dialect t = some type)
    (hp : Pattern.ofType? s.dialect type = some p)
    (hm : ¬Subquery.hashSub <:+: Piece.ofText s.dialect t)
    (ho : ∀ cs, route p.steps (p.tokens s.dialect t) = some cs → OptionsPlain p.steps cs) :
    split s t = .ok parts ↔
      (p.hidesSubqueries = true → (Nesting.ofText s.dialect t).depth ≤ s.maxNesting) ∧
        ∃ cs, route p.steps (p.tokens s.dialect t) = some cs ∧
          parts = ⟨capturesOf p.steps cs⟩ := by
  rw [split, hd]
  dsimp only
  rw [hp]
  dsimp only
  by_cases hh : p.hidesSubqueries = true
  · obtain ⟨k, hk, rfl, length⟩ := StatementType.exists_keyword hp
    have insert : ¬(StatementType.detect s.dialect t).any StatementType.isInsertLike := by
      rw [hd, Option.any_some, Pattern.isInsertLike_of_hides hp hh]
      exact Bool.false_ne_true
    rw [Pattern.tokens, if_pos hh] at ho ⊢
    rw [if_pos hh, Pattern.partsAround_eq (Pattern.blind_steps hp hh) hm ho insert fun hq =>
      Subquery.mentionsSelect_of_hasSubquery hk (length hh) hd hq]
    by_cases deep : (Nesting.ofText s.dialect t).depth ≤ s.maxNesting
    · rw [if_pos deep]
      cases route p.steps (s.dialect.veil t) with
      | none => simp
      | some cs =>
          constructor
          · rintro ⟨⟩
            exact ⟨fun _ => deep, cs, rfl, rfl⟩
          · rintro ⟨-, cs', ⟨⟩, rfl⟩
            rfl
    · rw [if_neg deep]
      simp [hh, deep]
  · rw [if_neg hh, Pattern.parts, matchSteps_eq, Pattern.tokens, if_neg hh]
    cases route p.steps (Token.ofText s.dialect t) with
    | none => simp
    | some cs =>
        constructor
        · rintro ⟨⟩
          exact ⟨fun h => absurd h hh, cs, rfl, rfl⟩
        · rintro ⟨-, cs', ⟨⟩, rfl⟩
          rfl

/-- So is every statement without semicolons. -/
theorem split_eq_ok_iff {s : Settings} {t : Text} {type : StatementType} {p : Pattern}
    {parts : Parts} (hd : StatementType.detect s.dialect t = some type)
    (hp : Pattern.ofType? s.dialect type = some p)
    (hm : ¬Subquery.hashSub <:+: Piece.ofText s.dialect t) (hs : ';' ∉ t) :
    split s t = .ok parts ↔
      (p.hidesSubqueries = true → (Nesting.ofText s.dialect t).depth ≤ s.maxNesting) ∧
        ∃ cs, route p.steps (p.tokens s.dialect t) = some cs ∧
          parts = ⟨capturesOf p.steps cs⟩ := by
  refine split_eq_ok_iff_of_optionsPlain hd hp hm fun cs hr => optionsPlain_of_route hr ?_
  rwa [p.textOf_tokens]

end SqlStatement
