import SqlStatement.Proofs.Detaching
import SqlStatement.Proofs.Items
import SqlStatement.Proofs.Recording

/-!
# What changed subqueries leave

Changed subqueries are written into the statement in place of markers, and
nothing in front of the first hash is touched by that. So a SELECT, an UPDATE or
a DELETE still starts with its keyword, whatever became of its subqueries: as
long as it can be split at all it has the parts that it had.
-/
namespace SqlStatement

theorem Text.prefix_append_cases {h t u : Text} (hp : h <+: t ++ u) :
    h <+: t ∨ ∃ rest, h = t ++ rest ∧ rest <+: u := by
  rcases List.prefix_or_prefix_of_prefix hp (List.prefix_append t u) with short | ⟨rest, rfl⟩
  · exact .inl short
  · exact .inr ⟨rest, rfl, (List.prefix_append_right_inj t).mp hp⟩

/-- A word behind blanks is where the first word of the text begins. -/
theorem Text.prefix_firstWord {gap w t : Text} (hg : ∀ c ∈ gap, isBlank c = true) (hw : w ≠ [])
    (hc : ∀ c ∈ w, isWordChar c = true) (h : gap ++ w <+: t) : w <+: firstWord t := by
  obtain ⟨rest, rfl⟩ := h
  obtain ⟨c, w, rfl⟩ := List.exists_cons_of_ne_nil hw
  have first : isBlank c = false := by
    by_contra hb
    have word := hc c (by simp)
    rw [isWordChar_of_isBlank (by simpa using hb)] at word
    cases word
  rw [firstWord, skipBlanks, List.append_assoc, List.dropWhile_append_of_pos hg, List.cons_append,
    List.dropWhile_cons_of_neg (by simp [first]), ← List.cons_append,
    List.takeWhile_append_of_pos hc]
  exact List.prefix_append _ _

namespace Subquery
variable {d : Dialect} {sets : List Text} {h : Text}

/-- What stands in front of the first hash is kept when markers are filled. -/
theorem prefix_fill (hash : '#' ∉ h) {ts : List Token} (hp : h <+: Token.textOf ts) :
    h <+: (fill sets ts).1 := by
  induction ts generalizing h with
  | nil => exact hp
  | cons t ts ih =>
      by_cases ht : t = .symbol '#'
      · subst ht
        cases h with
        | nil => exact List.nil_prefix
        | cons c h =>
            rw [(List.cons_prefix_cons.mp hp).1] at hash
            simp at hash
      · rw [fill_cons ts ht]
        rcases Text.prefix_append_cases hp with short | ⟨rest, rfl, hr⟩
        · exact short.trans (List.prefix_append _ _)
        · rw [List.mem_append, not_or] at hash
          exact (List.prefix_append_right_inj _).mpr (ih hash.2 hr)

theorem prefix_injectInto (hash : '#' ∉ h) {t : Text} (hp : h <+: t) :
    h <+: injectInto d sets t := by
  rw [injectInto, fillAll_eq_iterate]
  induction sets.length + 1 with
  | zero => exact hp
  | succ passes ih =>
      rw [Function.iterate_succ_apply', pass]
      exact prefix_fill hash (by rwa [Token.textOf_ofText])

theorem prefix_inject (hash : '#' ∉ h) {t : Text} (hp : h <+: t) (ts : List Text) :
    h <+: inject d (t :: ts) := by
  cases ts with
  | nil => exact hp
  | cons u ts => exact prefix_injectInto hash hp

/-- What stands in front of the first parenthesis is kept when subqueries are taken out. -/
theorem prefix_outerText (paren : '(' ∉ h) {n : Nesting} {next : Nat} (hp : h <+: n.text) :
    h <+: outerText next n := by
  induction n generalizing h with
  | done => exact hp
  | piece p rest ih =>
      rw [outerText, Nesting.shown_piece, Piece.textOf_cons, ← outerText]
      rcases Text.prefix_append_cases hp with short | ⟨rest, rfl, hr⟩
      · exact short.trans (List.prefix_append _ _)
      · rw [List.mem_append, not_or] at paren
        exact (List.prefix_append_right_inj _).mpr (ih paren.2 hr)
  | group inner rest =>
      cases h with
      | nil => exact List.nil_prefix
      | cons c h =>
          rw [(List.cons_prefix_cons.mp hp).1] at paren
          simp at paren

end Subquery

/-- A text that begins as a statement does has its type, if it has parts. -/
theorem StatementType.eq_of_prefix {d : Dialect} {t u : Text} {type type' : StatementType}
    {p : Pattern} (ht : type ∈ [.select, .update, .delete]) (hd : detect d t = some type)
    (kept : ∀ h, '#' ∉ h → '(' ∉ h → h <+: t → h <+: u) (hd' : detect d u = some type')
    (hp : Pattern.ofType? d type' = some p) : type' = type := by
  obtain ⟨k, hk, rfl, -, only⟩ := exists_keyword_of_mem ht
  obtain ⟨k', hk', rfl, -⟩ := exists_keyword hp
  obtain ⟨gap, w, rest, blanks, word, tokens⟩ := exists_lead hk hd
  have tidy := Token.tidy_ofText d t
  rw [tokens] at tidy
  have proper : (Token.word w).Proper := tidy.proper _ (by simp)
  have blank {c : Char} (hc : Text.isBlank c = false) : c ∉ Token.textOf gap :=
    Token.not_mem_textOf_of_blanks tidy.left blanks hc
  have head : Token.textOf gap ++ w <+: t := by
    rw [← Token.textOf_ofText d t, tokens, Token.textOf_append, Token.textOf_cons]
    exact (List.prefix_append_right_inj _).mpr (List.prefix_append _ _)
  have free {c : Char} (hw : Text.isWordChar c = false) (hb : Text.isBlank c = false) :
      c ∉ Token.textOf gap ++ w := by
    rw [List.mem_append, not_or]
    exact ⟨blank hb, fun hm => by rw [proper.2 c hm] at hw; cases hw⟩
  have first := Text.prefix_firstWord (fun c hc => by
    by_contra hb
    exact blank (by simpa using hb) hc) proper.1 proper.2
    (kept _ (free (by decide) (by decide)) (free (by decide) (by decide)) head)
  have keyword := isKeyword_firstWord hk' hd'
  rw [Text.isKeyword, beq_iff_eq] at keyword word
  rw [only k' hk' (by
    rw [← keyword, ← word]
    exact first.map _)]

namespace Query
variable {q : Query} {type : StatementType} {u : Text}

theorem exists_placeTexts_cons {t : Text} {sets : List Text} {texts : List (Nat × Text)}
    (h : 0 ∉ texts.map (·.1)) : ∃ others, placeTexts (t :: sets) texts = t :: others := by
  induction texts generalizing sets with
  | nil => exact ⟨sets, rfl⟩
  | cons p texts ih =>
      obtain ⟨k, u⟩ := p
      rw [List.map_cons, List.mem_cons, not_or] at h
      obtain ⟨k, rfl⟩ : ∃ k', k = k' + 1 := ⟨k - 1, by omega⟩
      exact ih h.2

theorem keys_changedTexts {attached : List (Nat × Query)} {texts : List (Nat × Text)}
    (h : changedTexts attached = .ok texts) : texts.map (·.1) ⊆ attached.map (·.1) := by
  induction attached generalizing texts with
  | nil =>
      cases h
      exact List.Subset.refl _
  | cons p attached ih =>
      obtain ⟨number, q⟩ := p
      rw [changedTexts] at h
      split at h
      · obtain ⟨t, -, h⟩ := bind_eq_ok_iff.mp h
        obtain ⟨more, hm, h⟩ := bind_eq_ok_iff.mp h
        cases h
        exact List.cons_subset_cons _ (ih hm)
      · exact List.Subset.trans (ih h) (List.subset_cons_self _ _)

/-- A head without hash and parenthesis stays in front of the changed subqueries. -/
theorem prefix_baseText (positive : 0 ∉ q.attached.map (·.1))
    (ht : type ∈ [.select, .update, .delete]) (hd : q.type? = some type) {h : Text}
    (hash : '#' ∉ h) (paren : '(' ∉ h) (hp : h <+: q.statement) (hu : q.baseText = .ok u) :
    h <+: u := by
  rw [baseText, assemble] at hu
  split at hu
  · obtain ⟨e, he, hu⟩ := bind_eq_ok_iff.mp hu
    obtain ⟨texts, changed, hu⟩ := bind_eq_ok_iff.mp hu
    cases hu
    rw [Subquery.extract_eq_of_detect ht hd] at he
    split at he
    · cases he
      have outside : 0 ∉ texts.map (·.1) := fun h => positive (keys_changedTexts changed h)
      obtain ⟨others, placed⟩ := exists_placeTexts_cons outside
      rw [Subquery.Extraction.sets, placed]
      exact Subquery.prefix_inject hash
        (Subquery.prefix_outerText paren (by rwa [Nesting.text_ofText])) _
    · cases he
  · cases hu
    exact hp

/-- With its changed subqueries a statement has the type that it had, if it has parts. -/
theorem detect_baseText (positive : 0 ∉ q.attached.map (·.1))
    (ht : type ∈ [.select, .update, .delete]) (hd : q.type? = some type)
    (hu : q.baseText = .ok u) {type' : StatementType} {p : Pattern}
    (hd' : StatementType.detect q.settings.dialect u = some type')
    (hp : Pattern.ofType? q.settings.dialect type' = some p) : type' = type :=
  StatementType.eq_of_prefix ht hd
    (fun _ hash paren head => prefix_baseText positive ht hd hash paren head hu) hd' hp

/-- What is split off a statement with changed subqueries has the keys of its type. -/
theorem exists_keys_baseParts (positive : 0 ∉ q.attached.map (·.1))
    (ht : type ∈ [.select, .update, .delete]) (hd : q.type? = some type) {base : Parts}
    (hb : q.baseParts = .ok base) :
    ∃ p, Pattern.ofType? q.settings.dialect type = some p ∧
      base.keys = p.steps.filterMap Step.key? := by
  obtain ⟨u, hu, hb⟩ := bind_eq_ok_iff.mp hb
  obtain ⟨type', p, hd', hp, keys⟩ := exists_keys_split hb
  cases detect_baseText positive ht hd hu hd' hp
  exact ⟨p, hp, keys⟩

/-- What is split off a statement with changed subqueries has the keys that the statement has. -/
theorem keys_baseParts (positive : 0 ∉ q.attached.map (·.1))
    (ht : type ∈ [.select, .update, .delete]) (hd : q.type? = some type) {stated base : Parts}
    (hs : split q.settings q.statement = .ok stated) (hb : q.baseParts = .ok base) :
    base.keys = stated.keys := by
  obtain ⟨p, hp, keys⟩ := exists_keys_baseParts positive ht hd hb
  obtain ⟨type', p', hd', hp', keys'⟩ := exists_keys_split hs
  cases hd.symm.trans hd'
  cases hp.symm.trans hp'
  rw [keys, keys']

end Query
end SqlStatement
