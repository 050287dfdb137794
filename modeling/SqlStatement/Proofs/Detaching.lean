import SqlStatement.Proofs.Attaching
import SqlStatement.Proofs.Heading

/-!
# Subqueries of subqueries

The subqueries of a statement have numbers, and so have those of each of its
subqueries. A subquery is a SELECT whose groups are groups of the statement, so
the numbers inside it count on from its own: taking out the subquery `i` and then
its subquery `j` is taking out the subquery `i + j`. What is taken out is the
content of the group with that number among those that start with SELECT.
-/
namespace SqlStatement

namespace Nesting
variable {d : Dialect} {n content : Nesting}

theorem depth_lt_of_mem_queries (h : content ∈ n.queries) : content.depth < n.depth := by
  induction n with
  | done => simp [queries] at h
  | piece p rest ih => exact ih h
  | group inner rest ih₁ ih₂ =>
      rw [depth]
      rcases mem_queries_group.mp h with ⟨hq, rfl⟩ | h | h
      · rw [if_pos hq]
        omega
      · have := ih₁ h
        split <;> omega
      · have := ih₂ h
        split <;> omega

theorem startsQuery_of_mem_queries (h : content ∈ n.queries) : content.startsQuery = true := by
  induction n with
  | done => simp [queries] at h
  | piece p rest ih => exact ih h
  | group inner rest ih₁ ih₂ =>
      rcases mem_queries_group.mp h with ⟨hq, rfl⟩ | h | h
      · exact hq
      · exact ih₁ h
      · exact ih₂ h

theorem queries_of_not_hasSubquery (h : n.hasSubquery = false) : n.queries = [] := by
  induction n with
  | done => rfl
  | piece p rest ih => exact ih h
  | group inner rest ih₁ ih₂ =>
      simp only [hasSubquery, Bool.or_eq_false_iff] at h
      rw [queries, h.1.1, ih₁ h.1.2, ih₂ h.2]
      rfl

/-- A subquery nests as its text does. -/
theorem Closed.ofText_text (h : content.Closed) (hl : Piece.Lexed d content.pieces) :
    ofText d content.text = content := by
  rw [ofText, text, hl.ofText_textOf, h.ofPieces_pieces]

end Nesting

namespace Subquery
variable {s : Settings} {t : Text}

/-- A text without subqueries is its own outer text. -/
theorem outerText_of_not_hasSubquery {d : Dialect} (h : (Nesting.ofText d t).hasSubquery = false) :
    outerText 1 (Nesting.ofText d t) = t := by
  have flat := (Nesting.veiled_of_not_hasSubquery h).2
  rw [outerText, (Nesting.ofText d t).shown_of_depth_le 1 (Nat.le_of_eq flat), ← Nesting.text,
    Nesting.text_ofText]

/-- Statements whose subqueries are all taken out, if they do not nest too deeply. -/
theorem extract_eq_of_detect {type : StatementType} (ht : type ∈ [.select, .update, .delete])
    (hd : StatementType.detect s.dialect t = some type) :
    extract s t =
      if (Nesting.ofText s.dialect t).depth ≤ s.maxNesting then
        .ok { outer := outerText 1 (Nesting.ofText s.dialect t)
              subqueries := outerTexts 1 (Nesting.ofText s.dialect t).queries }
      else .error (.nestingTooDeep s.maxNesting) := by
  have plain : insertedQuery? s t = .ok none := by
    rw [insertedQuery?, hd, Option.filter_some, StatementType.isInsertLike_of_mem ht]
    rfl
  obtain ⟨k, hk, rfl, length, -⟩ := StatementType.exists_keyword_of_mem ht
  rw [extract]
  split
  · rw [plain]
    exact takeOut_eq _ _ _ _
  · rename_i silent
    have none : (Nesting.ofText s.dialect t).hasSubquery = false := by
      by_contra hq
      exact silent (mentionsSelect_of_hasSubquery hk length hd (by simpa using hq))
    have flat := (Nesting.veiled_of_not_hasSubquery none).2
    rw [if_pos (by omega), Nesting.queries_of_not_hasSubquery none,
      outerText_of_not_hasSubquery none]
    rfl

/-- Such a statement without subqueries is all there is to take out. -/
theorem extract_of_not_hasSubquery {type : StatementType} (ht : type ∈ [.select, .update, .delete])
    (hd : StatementType.detect s.dialect t = some type)
    (hq : (Nesting.ofText s.dialect t).hasSubquery = false) : extract s t = .ok { outer := t } := by
  have flat := (Nesting.veiled_of_not_hasSubquery hq).2
  rw [extract_eq_of_detect ht hd, if_pos (by omega), Nesting.queries_of_not_hasSubquery hq,
    outerText_of_not_hasSubquery hq]
  rfl

/-- A subquery is a statement of its own, a SELECT with the nesting that it has in the other. -/
theorem extract_query {n content : Nesting} (sound : n.Sound)
    (clean : Piece.Clean s.dialect n.pieces) (deep : n.depth ≤ s.maxNesting)
    (h : content ∈ n.queries) :
    Nesting.ofText s.dialect content.text = content ∧
      Piece.Clean s.dialect (Piece.ofText s.dialect content.text) ∧
      StatementType.detect s.dialect content.text = some .select ∧
      extract s content.text = .ok
        { outer := outerText 1 content, subqueries := outerTexts 1 content.queries } := by
  have inside := clean.of_isInfix (Nesting.infix_of_mem_queries h)
  have nested := (sound.closed_of_mem_queries h).ofText_text inside.lexed
  have starts := Nesting.startsQuery_of_mem_queries h
  have pieces : Piece.ofText s.dialect content.text = content.pieces := inside.lexed.ofText_textOf
  rw [← nested] at starts
  have detected := Nesting.detect_of_startsQuery starts
  have extracted := extract_eq_of_detect (by simp) detected
  have below := Nesting.depth_lt_of_mem_queries h
  rw [nested, if_pos (by omega)] at extracted
  exact ⟨nested, pieces ▸ inside, detected, extracted⟩

end Subquery

namespace Query
variable {s : Settings} {t : Text} {e : Subquery.Extraction} {n content : Nesting} {i : Nat}

theorem detach_eq_error (he : Subquery.extract s t = .ok e)
    (hi : i = 0 ∨ e.subqueries.length < i) :
    (ofStatement s t).detach i = .error (.subqueryOutOfRange i e.subqueries.length) := by
  simp only [detach, ofStatement, he, bind, Except.bind, throw, throwThe, MonadExceptOf.throw]
  by_cases h₀ : i = 0
  · rw [if_pos h₀]
  · rw [if_neg h₀, List.getElem?_eq_none (by omega)]

/-- The subquery with a number among those of the nesting is taken out with its text. -/
theorem detach_of_mem (hk : ¬(StatementType.detect s.dialect t).any StatementType.isInsertLike)
    (hc : Piece.Clean s.dialect (Piece.ofText s.dialect t))
    (he : Subquery.extract s t = .ok e)
    (hq : e.subqueries = Subquery.outerTexts 1 (Nesting.ofText s.dialect t).queries)
    (hm : (content, i) ∈ (Nesting.ofText s.dialect t).numbered 1) :
    (ofStatement s t).detach i = .ok (ofStatement s content.text) := by
  obtain ⟨pos, found⟩ := Nesting.mem_numbered.mp hm
  have stored : e.subqueries[i - 1]? = some (Subquery.outerText (1 + (i - 1) + 1) content) := by
    rw [hq, Subquery.getElem?_outerTexts, found, Option.map_some]
  obtain ⟨sub, hsub⟩ : ∃ sub, (ofStatement s t).detach i = .ok sub := by
    simp only [detach, ofStatement, he, bind, Except.bind]
    rw [if_neg (by omega), stored]
    exact ⟨_, rfl⟩
  obtain ⟨content', hm', rfl⟩ := statement_of_detach hk hc hsub
  have same := (Nesting.mem_numbered.mp hm').2
  rw [found] at same
  cases same
  exact hsub

/-- A subquery of a subquery is a subquery of the statement. -/
theorem exists_detach_add
    (hk : ¬(StatementType.detect s.dialect t).any StatementType.isInsertLike)
    (hc : Piece.Clean s.dialect (Piece.ofText s.dialect t))
    (he : Subquery.extract s t = .ok e)
    (hq : e.subqueries = Subquery.outerTexts 1 (Nesting.ofText s.dialect t).queries)
    (deep : (Nesting.ofText s.dialect t).depth ≤ s.maxNesting)
    (hm : (content, i) ∈ (Nesting.ofText s.dialect t).numbered 1) {inner : Nesting} {j : Nat}
    (hj : (inner, j) ∈ content.numbered 1) :
    ∃ sub, (ofStatement s content.text).detach j = .ok sub ∧
      (ofStatement s t).detach (i + j) = .ok sub := by
  have pieces : (Nesting.ofText s.dialect t).pieces = Piece.ofText s.dialect t :=
    Nesting.pieces_ofPieces _
  have clean : Piece.Clean s.dialect (Nesting.ofText s.dialect t).pieces := by rwa [pieces]
  obtain ⟨nested, inside, detected, extracted⟩ := Subquery.extract_query
    (Nesting.sound_ofPieces _) clean deep (List.mem_of_getElem? (Nesting.mem_numbered.mp hm).2)
  refine ⟨ofStatement s inner.text, ?_, ?_⟩
  · exact detach_of_mem (by rw [detected]; decide) inside extracted (by rw [nested])
      (by rwa [nested])
  · obtain ⟨pos, there⟩ := Nesting.mem_numbered.mp hj
    refine detach_of_mem hk hc he hq (Nesting.numbered_subset hm ?_)
    refine Nesting.mem_numbered.mpr ⟨by omega, ?_⟩
    rw [show i + j - (i + 1) = j - 1 by omega]
    exact there

theorem subquery_of_fresh {q : Query} (fresh : q.attached = []) (i : Nat) :
    q.subquery i = (ofStatement q.settings q.statement).detach i := by
  rw [subquery, fresh]
  rfl

/-- A subquery is the content of its group, and its subqueries are those of the statement with the
numbers behind its own. -/
theorem subquery_subquery {q : Query} (fresh : q.attached = []) {type : StatementType}
    (ht : type ∈ [.select, .update, .delete])
    (hd : StatementType.detect q.settings.dialect q.statement = some type)
    (closed : q.settings.dialect.Closed q.statement)
    (unmarked : ¬Subquery.hashSub <:+: Piece.ofText q.settings.dialect q.statement)
    (he : Subquery.extract q.settings q.statement = .ok e) :
    (q.settings.dialect.queryContents q.statement).length = e.subqueries.length ∧
      (∀ i, i = 0 ∨ e.subqueries.length < i →
        q.subquery i = .error (.subqueryOutOfRange i e.subqueries.length)) ∧
      ∀ i, 1 ≤ i → i ≤ e.subqueries.length → ∃ content e',
        (q.settings.dialect.queryContents q.statement)[i - 1]? = some content ∧
        q.subquery i = .ok (ofStatement q.settings content) ∧
        Subquery.extract q.settings content = .ok e' ∧
        ∀ j, 1 ≤ j → j ≤ e'.subqueries.length → ∃ sub,
          (ofStatement q.settings content).subquery j = .ok sub ∧
            q.subquery (i + j) = .ok sub := by
  simp only [subquery_of_fresh fresh, subquery_of_fresh (q := ofStatement _ _) rfl]
  generalize q.settings = s at hd closed unmarked he
  generalize q.statement = t at hd closed unmarked he
  have hk : ¬(StatementType.detect s.dialect t).any StatementType.isInsertLike := by
    simp [hd, StatementType.isInsertLike_of_mem ht]
  have clean : Piece.Clean s.dialect (Piece.ofText s.dialect t) :=
    ⟨Piece.lexed_ofText _ _, closed, unmarked⟩
  have taken := he
  rw [Subquery.extract_eq_of_detect ht hd] at taken
  split at taken
  · rename_i deep
    have subqueries :
        e.subqueries = Subquery.outerTexts 1 (Nesting.ofText s.dialect t).queries := by
      rw [← Except.ok.inj taken]
    have count : e.subqueries.length = (Nesting.ofText s.dialect t).queries.length := by
      rw [subqueries, Subquery.length_outerTexts]
    refine ⟨by rw [Dialect.queryContents_eq, List.length_map, count],
      fun i hi => detach_eq_error he hi, fun i pos hi => ?_⟩
    obtain ⟨content, found⟩ : ∃ content,
        (Nesting.ofText s.dialect t).queries[i - 1]? = some content :=
      ⟨_, List.getElem?_eq_getElem (by omega)⟩
    have numbered := Nesting.mem_numbered.mpr ⟨pos, found⟩
    have pieces : (Nesting.ofText s.dialect t).pieces = Piece.ofText s.dialect t :=
      Nesting.pieces_ofPieces _
    obtain ⟨-, -, -, extracted⟩ := Subquery.extract_query (Nesting.sound_ofPieces _)
      (pieces.symm ▸ clean : Piece.Clean s.dialect (Nesting.ofText s.dialect t).pieces) deep
      (List.mem_of_getElem? found)
    refine ⟨content.text, _, ?_, detach_of_mem hk clean he subqueries numbered, extracted,
      fun j posj hj => ?_⟩
    · rw [Dialect.queryContents_eq, List.getElem?_map, found, Option.map_some]
    · rw [Subquery.length_outerTexts] at hj
      exact exists_detach_add hk clean he subqueries deep numbered
        (Nesting.mem_numbered.mpr ⟨posj, List.getElem?_eq_getElem (by omega)⟩)
  · cases taken

theorem subquery_subquery_select :
    let t : Text := "SELECT a FROM (SELECT b FROM (SELECT ')' FROM c) u) v, (SELECT 1) w".toList
    let sub : Text := "SELECT b FROM (SELECT ')' FROM c) u".toList
    (Dialect.mysql.queryContents t).length = 3 ∧
      (ofStatement {} t).subquery 4 = .error (.subqueryOutOfRange 4 3) ∧
      (ofStatement {} t).subquery 1 = .ok (ofStatement {} sub) ∧
      ∃ inner, (ofStatement {} sub).subquery 1 = .ok inner ∧
        (ofStatement {} t).subquery (1 + 1) = .ok inner := by
  intro t sub
  obtain ⟨count, others, each⟩ := subquery_subquery (q := ofStatement {} t) rfl
    (e := { outer := "SELECT a FROM (#sub1) v, (#sub3) w".toList
            subqueries := ["SELECT b FROM (#sub2) u", "SELECT ')' FROM c", "SELECT 1"].map
              String.toList })
    (by decide : StatementType.select ∈ [.select, .update, .delete])
    (by decide +kernel) (by decide +kernel) (by decide +kernel) (by decide +kernel)
  obtain ⟨content, e', there, taken, extracted, inner⟩ := each 1 (by decide) (by decide)
  obtain rfl : content = sub :=
    Option.some.inj (there.symm.trans (by decide +kernel : _ = some sub))
  have one : e'.subqueries.length = 1 := by
    have : Subquery.extract {} sub = .ok
        { outer := "SELECT b FROM (#sub1) u".toList
          subqueries := ["SELECT ')' FROM c".toList] } := by
      decide +kernel
    rw [← Except.ok.inj (this.symm.trans extracted)]
    rfl
  exact ⟨count, others 4 (by decide), taken, inner 1 (by decide) (by omega)⟩

end Query
end SqlStatement
