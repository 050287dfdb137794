import SqlStatement.Proofs.Marking
import SqlStatement.Proofs.Trimming

/-!
# Subqueries put back into parts

A part is cut out of a statement with markers, and trimmed. It is a stretch of
the items of the statement all the same, so injection puts into it just the
subqueries that stand behind the veils of the part.
-/
namespace SqlStatement
open Token

namespace Item

/-- Whether an item is a white character. -/
def isWhite : Item → Bool
  | plain p => p.isWhite
  | query _ _ => false

/-- The items without the white characters at both ends. -/
def strip (its : List Item) : List Item := (its.dropWhile isWhite).rdropWhile isWhite

theorem pieces_query (level number : Nat) (content : Nesting) :
    ∃ inner, pieces level (query number content) = .char '(' :: (inner ++ [.char ')']) := by
  cases level with
  | zero => exact ⟨_, rfl⟩
  | succ level => exact ⟨_, rfl⟩

theorem dropWhile_pieces (its : List Item) (level : Nat) :
    (its.flatMap (pieces level)).dropWhile Piece.isWhite =
      (its.dropWhile isWhite).flatMap (pieces level) := by
  induction its with
  | nil => rfl
  | cons it its ih =>
      cases it with
      | plain p =>
          rw [List.flatMap_cons, pieces_plain, List.singleton_append]
          cases hp : p.isWhite with
          | true =>
              rw [List.dropWhile_cons_of_pos hp, ih, List.dropWhile_cons_of_pos (by exact hp)]
          | false =>
              rw [List.dropWhile_cons_of_neg (by simp [hp]),
                List.dropWhile_cons_of_neg (by simp [isWhite, hp]), List.flatMap_cons,
                pieces_plain, List.singleton_append]
      | query number content =>
          obtain ⟨inner, hi⟩ := pieces_query level number content
          rw [List.dropWhile_cons_of_neg (by simp [isWhite]), List.flatMap_cons, hi,
            List.cons_append, List.dropWhile_cons_of_neg (by decide)]

theorem rdropWhile_pieces (its : List Item) (level : Nat) :
    (its.flatMap (pieces level)).rdropWhile Piece.isWhite =
      (its.rdropWhile isWhite).flatMap (pieces level) := by
  induction its using List.reverseRecOn with
  | nil => rfl
  | append_singleton its it ih =>
      rw [List.flatMap_append, List.flatMap_singleton]
      cases it with
      | plain p =>
          rw [pieces_plain]
          cases hp : p.isWhite with
          | true =>
              rw [List.rdropWhile_concat_pos _ _ _ hp, ih,
                List.rdropWhile_concat_pos _ _ _ (by exact hp)]
          | false =>
              rw [List.rdropWhile_concat_neg _ _ _ (by simp [hp]),
                List.rdropWhile_concat_neg _ _ _ (by simp [isWhite, hp]), List.flatMap_append,
                List.flatMap_singleton, pieces_plain]
      | query number content =>
          obtain ⟨inner, hi⟩ := pieces_query level number content
          rw [List.rdropWhile_concat_neg _ _ _ (by simp [isWhite]), List.flatMap_append,
            List.flatMap_singleton, hi, ← List.cons_append, ← List.append_assoc,
            List.rdropWhile_concat_neg _ _ _ (by decide)]

theorem strip_pieces (its : List Item) (level : Nat) :
    Piece.strip (its.flatMap (pieces level)) = (strip its).flatMap (pieces level) := by
  rw [Piece.strip, dropWhile_pieces, rdropWhile_pieces, strip]

theorem isWhite_veiled (it : Item) : it.veiled.isWhite = it.isWhite := by
  cases it <;> rfl

theorem strip_veiled (its : List Item) :
    Piece.strip (its.map veiled) = (strip its).map veiled := by
  have same : Piece.isWhite ∘ veiled = isWhite := funext isWhite_veiled
  rw [Piece.strip, strip, List.dropWhile_map, same, List.rdropWhile, ← List.map_reverse,
    List.dropWhile_map, same, ← List.map_reverse, List.rdropWhile]

theorem exists_strip (its : List Item) :
    ∃ before after, its = before ++ (strip its ++ after) ∧
      ∀ it ∈ after, it.isWhite = true := by
  refine ⟨its.takeWhile isWhite, (its.dropWhile isWhite).rtakeWhile isWhite, ?_, ?_⟩
  · rw [strip, List.rdropWhile_append_rtakeWhile, List.takeWhile_append_dropWhile]
  · exact fun it hi => List.mem_rtakeWhile_imp hi

end Item
namespace Nesting
variable {n content : Nesting} {next number : Nat}

/-- The subqueries among the items are closed, and nest less deeply than the whole. -/
theorem of_mem_items (h : n.Sound) (hi : .query number content ∈ n.items next) :
    content.Closed ∧ content.depth < n.depth := by
  induction n generalizing next with
  | done => simp [items] at hi
  | piece p rest ih =>
      rw [items, List.mem_cons] at hi
      rcases hi with hi | hi
      · simp at hi
      · exact ih h.2 hi
  | group inner rest ih₁ ih₂ =>
      rw [items] at hi
      rw [depth]
      by_cases hq : inner.startsQuery = true
      · rw [if_pos hq, List.mem_cons] at hi
        rw [if_pos hq]
        rcases hi with hi | hi
        · cases hi
          exact ⟨h.1, by omega⟩
        · have := ih₂ h.2 hi
          exact ⟨this.1, by omega⟩
      · simp only [if_neg hq, List.mem_cons, List.mem_append, reduceCtorEq, false_or] at hi
        rw [if_neg hq]
        rcases hi with hi | hi
        · have := ih₁ h.1.sound hi
          exact ⟨this.1, by omega⟩
        · have := ih₂ h.2 hi
          exact ⟨this.1, by omega⟩

theorem isClosed_of_mem_shown {p : Piece} {level : Nat} (h : n.Closed)
    (hp : p ∈ n.shown level next) : p.isClosed = true := by
  rcases (n.masks_shown level next).mem hp with hp | ⟨c, rfl⟩
  · exact h.isClosed_of_mem hp
  · rfl

end Nesting

/-- What is closed behind veils is closed at every level. -/
theorem Item.isClosed_of_veiled {its : List Item}
    (hq : ∀ number content, .query number content ∈ its → content.Closed)
    (hc : ∀ it ∈ its, it.veiled.isClosed = true) {level : Nat} {p : Piece}
    (hp : p ∈ its.flatMap (Item.pieces level)) : p.isClosed = true := by
  obtain ⟨it, hm, hp⟩ := List.mem_flatMap.mp hp
  cases it with
  | plain p' =>
      rw [Item.pieces_plain, List.mem_singleton] at hp
      rw [hp]
      exact hc _ hm
  | query number content =>
      have content := hq number content hm
      cases level with
      | zero =>
          simp only [Item.pieces, List.mem_cons, List.mem_append, List.mem_map] at hp
          rcases hp with rfl | ⟨c, -, rfl⟩ | hp
          · rfl
          · rfl
          · simp only [List.not_mem_nil, or_false] at hp
            rw [hp]
            rfl
      | succ level =>
          simp only [Item.pieces, List.mem_cons, List.mem_append] at hp
          rcases hp with rfl | hp | hp
          · rfl
          · exact Nesting.isClosed_of_mem_shown content hp
          · simp only [List.not_mem_nil, or_false] at hp
            rw [hp]
            rfl

namespace Subquery
variable {d : Dialect} {n : Nesting} {sets : List Text}

theorem Fillable.right {its its' : List Item} (h : Fillable sets (its ++ its')) :
    Fillable sets its' := by
  induction its with
  | nil => exact h
  | cons it its ih =>
      rw [List.cons_append] at h
      cases h with
      | plain _ h | query _ _ _ h => exact ih h

theorem Fillable.left {its its' : List Item} (h : Fillable sets (its ++ its')) :
    Fillable sets its := by
  induction its with
  | nil => exact .nil
  | cons it its ih =>
      rw [List.cons_append] at h
      cases h with
      | plain hp h =>
          refine .plain (fun hash level hpre => hp hash level ?_) (ih h)
          rw [List.flatMap_append]
          exact hpre.trans (List.prefix_append _ _)
      | query hn hs hc h => exact .query hn hs hc (ih h)

/-- Deep enough a level shows what stands behind the veils. -/
theorem textOf_pieces_of_depth {its : List Item} {level : Nat}
    (h : ∀ number content, .query number content ∈ its → content.depth < level) :
    Piece.textOf (its.flatMap (Item.pieces level)) = Piece.textOf (its.map Item.veiled) := by
  induction its with
  | nil => rfl
  | cons it its ih =>
      rw [List.flatMap_cons, Piece.textOf_append, ih fun number content hm =>
        h number content (by simp [hm]), List.map_cons, Piece.textOf_cons]
      congr 1
      cases it with
      | plain p => rw [Item.pieces_plain]; exact List.append_nil _
      | query number content =>
          have deep := h number content (by simp)
          obtain ⟨below, rfl⟩ : ∃ below, level = below + 1 := ⟨level - 1, by omega⟩
          have full := Nesting.shown_of_depth_le (number + 1) (Nat.le_of_lt_succ deep)
          rw [Nesting.shown] at full
          rw [Item.pieces, full]
          simp [Item.veiled, Nesting.groupText, Nesting.text, Piece.text]

/-- Items that injection shows in full, whatever it starts with. -/
structure Restorable (d : Dialect) (sets : List Text) (its : List Item) : Prop where
  fillable : Fillable sets its
  lexed : ∀ level, Piece.Lexed d (its.flatMap (Item.pieces level))
  contents : ∀ number content, .query number content ∈ its →
    content.Closed ∧ content.depth ≤ sets.length

theorem restorable_ofText {t : Text} (hm : ¬hashSub <:+: Piece.ofText d t) :
    Restorable d (outerText 1 (Nesting.ofText d t) :: outerTexts 1 (Nesting.ofText d t).queries)
      ((Nesting.ofText d t).items 1) := by
  have pieces : (Nesting.ofText d t).pieces = Piece.ofText d t := Nesting.pieces_ofPieces _
  have lexed : Piece.Lexed d (Nesting.ofText d t).pieces := pieces ▸ Piece.lexed_ofText d t
  refine ⟨?_, fun level => lexed.masks ((Nesting.ofText d t).masks_shown level 1),
    fun number content hi => ?_⟩
  · have := Fillable.items Nat.one_pos (pieces ▸ hm)
      (holds_outerTexts [outerText 1 (Nesting.ofText d t)] (Nesting.ofText d t).queries)
      (by simp) .nil
    rwa [List.append_nil] at this
  · obtain ⟨closed, deep⟩ := Nesting.of_mem_items (Nesting.sound_ofPieces _) hi
    have := (Nesting.ofText d t).depth_le_length_queries
    refine ⟨closed, ?_⟩
    change content.depth < (Nesting.ofText d t).depth at deep
    simp only [List.length_cons, length_outerTexts]
    omega

namespace Restorable
variable {its before taken after : List Item}

/-- Injection puts back what stands behind the veils. -/
theorem inject (h : Restorable d sets its) :
    injectInto d sets (Piece.textOf (its.flatMap (Item.pieces 0))) =
      Piece.textOf (its.map Item.veiled) := by
  rw [injectInto, fillAll_eq_iterate, iterate_pass h.fillable h.lexed, textOf_pieces_of_depth]
  exact fun number content hm => Nat.lt_succ_of_le (h.contents number content hm).2

theorem append_right (h : Restorable d sets (before ++ taken)) : Restorable d sets taken := by
  refine ⟨h.fillable.right, fun level => ?_, fun number content hm =>
    h.contents number content (List.mem_append_right _ hm)⟩
  have whole := h.lexed level
  rw [List.flatMap_append] at whole
  exact whole.right

theorem append_left (h : Restorable d sets (taken ++ after))
    (hc : (∀ it ∈ taken, it.veiled.isClosed = true) ∨
      ∀ level c, (Piece.textOf (after.flatMap (Item.pieces level))).head? = some c →
        d.isQuote c = false) : Restorable d sets taken := by
  have contents : ∀ number content, .query number content ∈ taken →
      content.Closed ∧ content.depth ≤ sets.length :=
    fun number content hm => h.contents number content (List.mem_append_left _ hm)
  refine ⟨h.fillable.left, fun level => ?_, contents⟩
  have whole := h.lexed level
  rw [List.flatMap_append] at whole
  refine whole.left (hc.imp (fun hc p hp => ?_) fun hc => hc level)
  exact Item.isClosed_of_veiled (fun number content hm => (contents number content hm).1) hc hp

theorem firm_veiled (h : Restorable d sets its) {p : Piece} (hp : p ∈ its.map Item.veiled) :
    p.Firm := by
  obtain ⟨it, hm, rfl⟩ := List.mem_map.mp hp
  cases it with
  | plain p =>
      exact (h.lexed 0).firm (List.mem_flatMap.mpr ⟨_, hm, by simp [Item.veiled]⟩)
  | query number content =>
      exact Piece.firm_literal '(' ')' (by simp [Nesting.groupText]) (by decide)
        (by decide)

/-- Injection puts back what stands behind the veils of trimmed items. -/
theorem inject_trim (h : Restorable d sets its) :
    injectInto d sets (Text.trim (Piece.textOf (its.flatMap (Item.pieces 0)))) =
      Text.trim (Piece.textOf (its.map Item.veiled)) := by
  rw [Piece.trim_textOf fun p hp => (h.lexed 0).firm hp,
    Piece.trim_textOf fun p hp => h.firm_veiled hp, Item.strip_pieces, Item.strip_veiled]
  obtain ⟨front, back, ht, hw⟩ := Item.exists_strip its
  have whole : Restorable d sets (front ++ (Item.strip its ++ back)) := ht ▸ h
  refine (whole.append_right.append_left (.inr fun level c hh => ?_)).inject
  cases back with
  | nil => simp at hh
  | cons it back =>
      have white := hw it (by simp)
      cases it with
      | query => simp [Item.isWhite] at white
      | plain p =>
          obtain ⟨b, rfl, hb⟩ := Piece.text_of_isWhite white
          simp [Piece.text] at hh
          exact hh ▸ Dialect.isQuote_of_isWhite hb

end Restorable

end Subquery

open Subquery

theorem isClosed_veiled_of_marks {its : List Item} {ms vs : List Token} (h : Marks its ms vs)
    (hc : ∀ t ∈ vs, t.isClosed = true) {it : Item} (hi : it ∈ its) :
    it.veiled.isClosed = true := by
  induction h with
  | nil => simp at hi
  | token t _ ih =>
      rw [List.mem_append] at hi
      rcases hi with hi | hi
      · obtain ⟨p, hp, rfl⟩ := List.mem_map.mp hi
        have closed := hc t (by simp)
        cases t with
        | unterminated q => simp [isClosed] at closed
        | word w | space w =>
            obtain ⟨c, -, rfl⟩ := List.mem_map.mp hp
            rfl
        | quoted | symbol =>
            rw [pieces, List.mem_singleton] at hp
            subst hp
            rfl
      · exact ih (fun t ht => hc t (by simp [ht])) hi
  | query number content _ ih =>
      rcases List.mem_cons.mp hi with rfl | hi
      · rfl
      · exact ih (fun t ht => hc t (by simp [ht])) hi

/-- A marker in parentheses has no semicolon. -/
theorem Item.not_mem_query (number : Nat) (content : Nesting) :
    ';' ∉ Piece.textOf (Item.pieces 0 (.query number content)) := by
  intro h
  simp only [Item.pieces, Piece.textOf_cons, Piece.textOf_append, Piece.textOf_map_char,
    Piece.textOf_nil, Piece.text, List.mem_append, List.mem_singleton, List.not_mem_nil,
    or_false] at h
  rcases h with h | h | h
  · simp at h
  · simp only [marker, List.mem_cons, Char.reduceEq, false_or] at h
    have := Nat.isDigit_of_mem_toDigits (by decide) (by decide) h
    simp at this
  · simp at h

theorem mem_textOf_marked {its : List Item} {c : Char}
    (h : c ∈ Piece.textOf (its.flatMap (Item.pieces 0))) (hc : c = ';') :
    c ∈ Piece.textOf (its.map Item.veiled) := by
  subst hc
  induction its with
  | nil => exact h
  | cons it its ih =>
      rw [List.flatMap_cons, Piece.textOf_append, List.mem_append] at h
      rw [List.map_cons, Piece.textOf_cons, List.mem_append]
      refine h.imp (fun h => ?_) ih
      cases it with
      | plain p => simpa [Item.veiled] using h
      | query number content => exact absurd h (Item.not_mem_query number content)

theorem Subquery.Restorable.taken {d : Dialect} {before taken after : List Item} {sets : List Text}
    {ms vs : List Token} (h : Restorable d sets (before ++ taken ++ after)) (hm : Marks taken ms vs)
    (hc : after = [] ∨ ∀ t ∈ vs, t.isClosed = true) : Restorable d sets taken := by
  rw [List.append_assoc] at h
  rcases hc with rfl | hc
  · have behind := h.append_right
    rwa [List.append_nil] at behind
  · exact h.append_right.append_left (.inl fun it hi => isClosed_veiled_of_marks hm hc hi)

/-- The options on a route have no semicolon. -/
def OptionsPlain (steps : List Step) (cs : List Choice) : Prop :=
  ∀ key keywords c, (Step.options key keywords, c) ∈ steps.zip cs → ';' ∉ textOf c.taken

theorem captured_of_not_options {step : Step} (c : Choice)
    (h : ∀ key keywords, step = .options key keywords → ';' ∉ textOf c.taken) :
    step.captured c = Text.trim (textOf c.taken) := by
  cases step with
  | options key keywords =>
      rw [Step.captured, Step.optionsText]
      rw [List.takeWhile_eq_self_iff.mpr]
      intro a ha
      have := h key keywords rfl
      simp only [ne_eq, decide_not, Bool.not_eq_true', decide_eq_false_iff_not]
      rintro rfl
      exact this ha
  | _ => rfl

/-- A part as it is captured with markers is injected to the part behind veils. -/
theorem Subquery.Restorable.inject_captured {d : Dialect} {its : List Item} {sets : List Text}
    (h : Restorable d sets its) {step : Step} {c c' : Choice} (hc : SameTaken its c c')
    (ho : ∀ key keywords, step = .options key keywords → ';' ∉ textOf c'.taken) :
    injectInto d sets (step.captured c) = step.captured c' := by
  obtain ⟨before, taken, after, rfl, hm, hclosed⟩ := hc
  have marked := hm.textOf_marked
  have veiled := hm.textOf_veiled
  have plain : ∀ key keywords, step = .options key keywords → ';' ∉ textOf c.taken := by
    intro key keywords hs hmem
    rw [marked] at hmem
    exact ho key keywords hs (veiled ▸ mem_textOf_marked hmem rfl)
  rw [captured_of_not_options c plain, captured_of_not_options c' ho, marked, veiled]
  exact (h.taken hm hclosed).inject_trim

theorem Subquery.Restorable.inject_captures {d : Dialect} {its : List Item} {sets : List Text}
    (h : Restorable d sets its) {steps : List Step} {cs cs' : List Choice}
    (hc : List.Forall₂ (SameTaken its) cs cs') (ho : OptionsPlain steps cs') :
    (capturesOf steps cs).map (fun p => (p.1, injectInto d sets p.2)) = capturesOf steps cs' := by
  induction hc generalizing steps with
  | nil => cases steps <;> rfl
  | @cons c c' cs cs' hc _ ih =>
      cases steps with
      | nil => rfl
      | cons step steps =>
          have first : (step.captures c).map (fun p => (p.1, injectInto d sets p.2)) =
              step.captures c' := by
            have same : injectInto d sets (step.captured c) = step.captured c' :=
              h.inject_captured hc fun key keywords hs => ho key keywords c' (by simp [hs])
            unfold Step.captures
            split
            · rw [List.map_singleton, same]
            · rfl
          rw [capturesOf, capturesOf, List.map_append, first,
            ih fun key keywords c hm => ho key keywords c (by simp [hm])]

end SqlStatement
