import SqlStatement.Proofs.Cutting
import SqlStatement.Proofs.Depths

/-!
# Cuts outside groups

A statement is cut at keywords wherever they stand; only parenthesised SELECTs
are hidden while it is matched. So the parts of a balanced statement are
balanced exactly if every cut is made outside the groups that are left.
-/
namespace SqlStatement
open Token

namespace Nesting

/-- A veil opens and closes the groups of the pieces it was made from. -/
theorem Sound.foldlM_veiled {n : Nesting} (h : n.Sound) (depth : Nat) :
    n.veiled.foldlM Piece.depthBehind? depth = n.pieces.foldlM Piece.depthBehind? depth := by
  induction n generalizing depth with
  | done => rfl
  | piece p rest ih =>
      rw [Nesting.veiled, pieces, List.foldlM_cons, List.foldlM_cons, funext (ih h.2)]
  | group inner rest ih₁ ih₂ =>
      have content (k : Nat) : inner.veiled.foldlM Piece.depthBehind? k = some k :=
        (ih₁ h.1.sound k).trans (h.1.foldlM_pieces k)
      rw [pieces, Piece.foldlM_group h.1.foldlM_pieces, ← ih₂ h.2, Nesting.veiled]
      split
      · rfl
      · exact Piece.foldlM_group content _ depth

end Nesting

namespace Dialect
variable {d : Dialect} {t : Text}

theorem level_veil (h : d.isBalanced t = true) : Level (d.veil t) := by
  rw [Level, veil, ← foldlM_piecesOf (tidy_ofPieces _).proper, piecesOf_ofPieces, Nesting.ofText,
    (Nesting.sound_ofPieces _).foldlM_veiled, Nesting.pieces_ofPieces]
  exact beq_iff_eq.mp h

/-- Tokens of a text without unclosed quotes are level exactly if their text is balanced. -/
theorem isBalanced_textOf {ts : List Token} (hi : ts <:+: ofText d t)
    (hc : ∀ u ∈ ts, u.isClosed = true) : d.isBalanced (textOf ts) = true ↔ Level ts := by
  have whole := whole_of_stretch hi hc
  have tidy := Tidy.of_infix (tidy_ofText d t) hi
  rw [isBalanced_iff, ← textOf_piecesOf, and_iff_right (closed_textOf whole),
    delimiters_textOf whole, ← Piece.foldlM_depthBehind? fun p hp => (whole p hp).isClosed,
    foldlM_piecesOf tidy.proper, Level]

end Dialect

/-- A step that fills no part takes nothing. -/
theorem taken_of_key?_eq_none {step : Step} {ts : List Token} {c : Choice}
    (h : c ∈ step.choices ts) (hk : step.key? = none) : c.taken = [] := by
  obtain ⟨before, after, -, frames, -⟩ := Step.takes_of_mem_choices h
  generalize c.taken = taken at frames
  cases frames with
  | lead | skip => rfl
  | _ => simp [Step.key?] at hk

theorem exists_mem_zip_of_route {steps : List Step} {ts : List Token} {cs : List Choice}
    (h : route steps ts = some cs) {c : Choice} (hc : c ∈ cs) :
    ∃ step, (step, c) ∈ steps.zip cs := by
  induction steps generalizing ts cs with
  | nil =>
      cases h
      simp at hc
  | cons step steps ih =>
      obtain ⟨c', cs', rfl, -, hr⟩ := route_cons_eq_some h
      rcases List.mem_cons.mp hc with rfl | hc
      · exact ⟨step, List.mem_cons_self⟩
      · obtain ⟨step', hm⟩ := ih hr hc
        exact ⟨step', List.mem_cons_of_mem _ hm⟩

theorem forall_mem_capturesOf {P : Text → Prop} {steps : List Step} {cs : List Choice} :
    (∀ e ∈ capturesOf steps cs, P e.2) ↔
      ∀ x ∈ steps.zip cs, x.1.key? ≠ none → P (x.1.captured x.2) := by
  induction steps generalizing cs with
  | nil => simp [capturesOf]
  | cons step steps ih =>
      cases cs with
      | nil => simp [capturesOf]
      | cons c cs =>
          rw [capturesOf, List.forall_mem_append, ih, List.zip_cons_cons, List.forall_mem_cons]
          refine and_congr_left fun _ => ?_
          unfold Step.captures
          split
          · rename_i hk
            simp [hk]
          · rename_i hk
            simp [hk]

namespace Dialect
variable {d : Dialect} {t : Text}

/-- What a step captures of a closed text without semicolons is what it takes, but for white
characters at the ends. -/
theorem Closed.levelWith_captured (h : d.Closed t) (hs : ';' ∉ t) {steps : List Step}
    {cs : List Choice} (hr : route steps (ofText d t) = some cs) {c : Choice} (hc : c ∈ cs)
    (step : Step) : d.LevelWith (step.captured c) (textOf c.taken) := by
  have inside := taken_infix_of_route hr hc
  have plain : ';' ∉ textOf c.taken := by
    intro hm
    obtain ⟨u, hu, hm⟩ := List.mem_flatMap.mp hm
    refine hs ?_
    rw [← textOf_ofText d t]
    exact List.mem_flatMap.mpr ⟨u, inside.subset hu, hm⟩
  rw [captured_of_not_options c fun _ _ _ => plain]
  exact (h.of_stretch inside).levelWith_trim

/-- The captures of a closed text without semicolons are balanced exactly if what is taken on the
route is level. -/
theorem Closed.isBalanced_captures (h : d.Closed t) (hs : ';' ∉ t) {steps : List Step}
    {cs : List Choice} (hr : route steps (ofText d t) = some cs) :
    (∀ e ∈ capturesOf steps cs, d.isBalanced e.2 = true) ↔ ∀ c ∈ cs, Level c.taken := by
  have captured {step : Step} {c : Choice} (hc : c ∈ cs) :
      d.isBalanced (step.captured c) = true ↔ Level c.taken := by
    rw [(h.levelWith_captured hs hr hc step).isBalanced,
      isBalanced_textOf (taken_infix_of_route hr hc)
        (h.isClosed_of_stretch (taken_infix_of_route hr hc))]
  rw [forall_mem_capturesOf (P := fun t => d.isBalanced t = true)]
  constructor
  · intro balanced c hc
    obtain ⟨step, hm⟩ := exists_mem_zip_of_route hr hc
    cases hk : step.key? with
    | some key => exact (captured hc).mp (balanced (step, c) hm (by simp [hk]))
    | none =>
        obtain ⟨us, -, hc⟩ := exists_choices_of_route hr hm
        rw [taken_of_key?_eq_none hc hk]
        exact level_nil
  · rintro level ⟨step, c⟩ hm -
    have hc := (List.of_mem_zip hm).2
    exact (captured hc).mpr (level c hc)

end Dialect

/-- Putting balanced subqueries back makes no closed part balanced that was not, nor the reverse. -/
theorem Subquery.isBalanced_injectParts {d : Dialect} {sets : List Text} {parts : Parts}
    (hs : ∀ set ∈ sets.tail, d.isBalanced set = true) (hc : ∀ e ∈ parts.toList, d.Closed e.2) :
    (∀ e ∈ (injectParts d sets parts).toList, d.isBalanced e.2 = true) ↔
      ∀ e ∈ parts.toList, d.isBalanced e.2 = true := by
  rw [injectParts]
  split
  · rfl
  · rw [OrderedMap.mapValues, List.forall_mem_map]
    refine forall₂_congr fun e he => ?_
    rw [(levelWith_injectInto hs (hc e he)).isBalanced]

namespace Pattern
variable {p : Pattern} {s : Settings} {t matched : Text} {type : StatementType}

theorem exists_matched {parts : Parts} (h : split s t = .ok parts)
    (hd : StatementType.detect s.dialect t = some type) (hp : ofType? s.dialect type = some p) :
    ∃ matched, p.matched s t = .ok matched := by
  rw [split, hd] at h
  dsimp only at h
  rw [hp] at h
  dsimp only at h
  rw [Pattern.matched]
  split
  · rename_i hq
    rw [Bool.and_eq_true] at hq
    rw [if_pos hq.1, partsAround, if_pos hq.2] at h
    cases he : Subquery.extract s t with
    | error e =>
        rw [he] at h
        cases h
    | ok e => exact ⟨e.outer, rfl⟩
  · exact ⟨t, rfl⟩

/-- The text a statement is matched with has markers where its veil has subqueries. -/
theorem marks_matched (hd : StatementType.detect s.dialect t = some type)
    (hp : ofType? s.dialect type = some p) (hh : p.hidesSubqueries = true)
    (hm : p.matched s t = .ok matched) :
    ∃ its, Marks its (ofText s.dialect matched) (s.dialect.veil t) := by
  rw [Pattern.matched, hh, Bool.true_and] at hm
  split at hm
  · rename_i hq
    have plain : (StatementType.detect s.dialect t).filter StatementType.isInsertLike = none := by
      simpa [hd, Option.filter] using isInsertLike_of_hides hp hh
    obtain ⟨k, hk, rfl, length⟩ := StatementType.exists_keyword hp
    have mentions := Subquery.mentionsSelect_of_hasSubquery hk (length hh) hd hq
    rw [Subquery.extract, if_pos mentions, Subquery.insertedQuery?, plain] at hm
    change (Subquery.takeOut _ _ _ _).map Subquery.Extraction.outer = _ at hm
    rw [Subquery.takeOut_eq] at hm
    split at hm
    · cases hm
      have whole : (Nesting.ofText s.dialect t).pieces = Piece.ofText s.dialect t :=
        Nesting.pieces_ofPieces _
      have lexed := (whole ▸ Piece.lexed_ofText s.dialect t).masks
        ((Nesting.ofText s.dialect t).masks_shown 0 1)
      have tokens : ofText s.dialect (Subquery.outerText 1 (Nesting.ofText s.dialect t)) =
          ofPieces (((Nesting.ofText s.dialect t).items 1).flatMap (Item.pieces 0)) :=
        ofText_textOf_of_lexed lexed
      have marks := Marks.items ((Nesting.ofText s.dialect t).items 1)
      rw [Nesting.map_veiled_items, ← tokens] at marks
      exact ⟨_, marks⟩
    · simp [Except.map] at hm
  · rename_i hq
    cases hm
    have veil : s.dialect.veil t = ofText s.dialect t := by
      rw [Dialect.veil, (Nesting.veiled_of_not_hasSubquery (by simpa using hq)).1, Nesting.ofText,
        Nesting.pieces_ofPieces, ofText]
    rw [veil]
    exact ⟨_, Marks.of_tokens _⟩

/-- The keyword of a statement begins none of its clauses, and none begins like a marker. -/
theorem phrases_apart {d : Dialect} (hp : ofType? d type = some p)
    (hh : p.hidesSubqueries = true) {k : String} (hk : k ∈ StatementType.keywords)
    (ht : type = .ofPhrase k.toList) :
    (∀ q ∈ phrasesOf (p.steps.drop 3), q.head? ≠ some k) ∧ Unmarked (phrasesOf p.steps) := by
  cases type with
  | other phrase => simp [ofType?] at hp
  | insert | replace =>
      cases hp
      simp [insertLike] at hh
  | truncate | set =>
      cases hp
      simp at hh
  | select | update | delete =>
      cases hp
      unfold Unmarked
      revert k
      cases d <;> decide

end Pattern

/-- SELECT, UPDATE and DELETE are cut at the first keyword of each clause, wherever it stands. The
parts of a balanced statement are balanced exactly if each stands outside the groups that are no
subqueries. -/
theorem isBalanced_split_iff {s : Settings} {t : Text} {type : StatementType} {p : Pattern}
    {parts : Parts} (h : split s t = .ok parts)
    (hd : StatementType.detect s.dialect t = some type)
    (ht : type = .select ∨ type = .update ∨ type = .delete)
    (hp : Pattern.ofType? s.dialect type = some p) (hs : ';' ∉ t)
    (hb : s.dialect.isBalanced t = true) :
    (∀ e ∈ parts.toList, s.dialect.isBalanced e.2 = true) ↔
      ∀ n ∈ cutDepths p.steps 0 (s.dialect.veil t), n = 0 := by
  have hides : p.hidesSubqueries = true := by
    rcases ht with rfl | rfl | rfl <;> cases hp <;> rfl
  obtain ⟨matched, hm⟩ := Pattern.exists_matched h hd hp
  obtain ⟨cs, sets, hr, rfl, closed⟩ := exists_captures h hd hp hm
  obtain ⟨whole, sets⟩ := closed (Dialect.isBalanced_iff.mp hb).1
  obtain ⟨its, marks⟩ := Pattern.marks_matched hd hp hides hm
  have plain : ';' ∉ matched := by
    intro hm
    rw [← textOf_ofText s.dialect matched, marks.textOf_marked] at hm
    refine hs ?_
    rw [← textOf_veil s.dialect t, marks.textOf_veiled]
    exact mem_textOf_marked hm rfl
  have clean : .symbol ';' ∉ ofText s.dialect matched := by
    intro hm
    refine plain ?_
    rw [← textOf_ofText s.dialect matched]
    exact List.mem_flatMap.mpr ⟨_, hm, by simp [text]⟩
  have level : Level (ofText s.dialect matched) :=
    (marks.foldlM 0).trans (Dialect.level_veil hb)
  obtain ⟨k, hk, hkt, cases⟩ := Pattern.exists_regular hp (Pattern.isInsertLike_of_hides hp hides)
  obtain ⟨key, value, phrases, most, regular⟩ := cases.resolve_right fun hset => by
    simp [hides] at hset
  obtain ⟨apart, unmarked⟩ := Pattern.phrases_apart hp hides hk hkt
  have captures : ∀ e ∈ capturesOf p.steps cs, s.dialect.Closed e.2 := by
    intro e he
    obtain ⟨step, c, hm, -, captured⟩ := mem_capturesOf he
    rw [captured]
    exact (whole.levelWith_captured plain hr (List.of_mem_zip hm).2 step).left
  rw [Subquery.isBalanced_injectParts sets captures, ← marks.cutDepths unmarked,
    regular.cutDepths_iff apart hr clean level]
  exact whole.isBalanced_captures plain hr

theorem isBalanced_split_delete :
    cutDepths ((Pattern.ofType? .mysql .delete).get rfl).steps 0 (Dialect.mysql.veil
        "DELETE FROM t WHERE EXTRACT(YEAR FROM d) = (SELECT 1 LIMIT 1) LIMIT 2".toList) =
      [0, 0, 0] ∧
    ∀ e ∈ [("delete", []), ("columns", []), ("from", "t".toList),
      ("where", "EXTRACT(YEAR FROM d) = (SELECT 1 LIMIT 1)".toList), ("order by", []),
      ("limit", "2".toList)], Dialect.mysql.isBalanced e.2 = true := by
  let t : Text := "DELETE FROM t WHERE EXTRACT(YEAR FROM d) = (SELECT 1 LIMIT 1) LIMIT 2".toList
  have accepted : split {} t = .ok ⟨[("delete", []), ("columns", []), ("from", "t".toList),
      ("where", "EXTRACT(YEAR FROM d) = (SELECT 1 LIMIT 1)".toList), ("order by", []),
      ("limit", "2".toList)]⟩ := by decide +kernel
  have delete : StatementType.detect .mysql t = some .delete := by decide +kernel
  let p : Pattern := (Pattern.ofType? .mysql .delete).get rfl
  have depths : cutDepths p.steps 0 (Dialect.mysql.veil t) = [0, 0, 0] := by decide +kernel
  have outside : ∀ n ∈ cutDepths p.steps 0 (Dialect.mysql.veil t), n = 0 := by
    rw [depths]
    simp
  exact ⟨depths, (isBalanced_split_iff accepted delete (.inr (.inr rfl)) rfl (by decide)
    (by decide +kernel)).mpr outside⟩

/-- A statement may be cut inside a group that is no subquery. -/
theorem not_isBalanced_split :
    ¬∀ (s : Settings) (t : Text) (type : StatementType) (parts : Parts), split s t = .ok parts →
      StatementType.detect s.dialect t = some type →
      (type = .select ∨ type = .update ∨ type = .delete) → ';' ∉ t →
      s.dialect.isBalanced t = true → ∀ e ∈ parts.toList, s.dialect.isBalanced e.2 = true := by
  intro h
  have balanced := h {} "SELECT EXTRACT(YEAR FROM d) FROM t".toList .select
    ⟨[("select", []), ("columns", "EXTRACT(YEAR".toList), ("from", "d) FROM t".toList),
      ("where", []), ("group by", []), ("having", []), ("order by", []), ("limit", []),
      ("options", [])]⟩ (by decide +kernel) (by decide +kernel) (.inl rfl) (by decide)
    (by decide +kernel) ("columns", "EXTRACT(YEAR".toList) (by decide)
  exact absurd balanced (by decide +kernel)

end SqlStatement
