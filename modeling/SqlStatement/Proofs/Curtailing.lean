import SqlStatement.Proofs.Splitting
import SqlStatement.Proofs.Welding

/-!
# Options cut at a semicolon

The options of a statement end at the first semicolon, even at one inside a
literal, and then an opened quote is the last thing they have. Subqueries are
hidden when the options are cut, so a semicolon in a subquery cuts nothing. What
injection makes of cut options are the options with the subqueries in front of
the cut, since no marker can begin behind the quote that was left open. A
statement without markers is so split along the route through what is left when
its subqueries are hidden.
-/
namespace SqlStatement
open Token
variable {d : Dialect}

namespace Text

theorem takeWhile_append_of_mem {t : Text} (u : Text) (h : ';' ∈ t) :
    (t ++ u).takeWhile (· ≠ ';') = t.takeWhile (· ≠ ';') := by
  induction t with
  | nil => simp at h
  | cons c t ih =>
      by_cases hc : c = ';'
      · simp [hc]
      · have inside : ';' ∈ t := by simpa [Ne.symm hc] using h
        simpa [hc] using ih inside

theorem takeWhile_append_of_not_mem {t : Text} (u : Text) (h : ';' ∉ t) :
    (t ++ u).takeWhile (· ≠ ';') = t ++ u.takeWhile (· ≠ ';') := by
  refine List.takeWhile_append_of_pos fun c hc => ?_
  simpa using fun he : c = ';' => h (he ▸ hc)

theorem exists_takeWhile {t : Text} (h : ';' ∈ t) :
    ∃ after, t = t.takeWhile (· ≠ ';') ++ ';' :: after := by
  induction t with
  | nil => simp at h
  | cons c t ih =>
      by_cases hc : c = ';'
      · exact ⟨t, by simp [hc]⟩
      · obtain ⟨after, cut⟩ := ih (by simpa [Ne.symm hc] using h)
        exact ⟨after, by simpa [hc] using cut⟩

theorem dropWhile_append_cons {p : Char → Bool} (t : Text) {c : Char} (u : Text)
    (hc : p c = false) : (t ++ c :: u).dropWhile p = t.dropWhile p ++ c :: u := by
  rw [List.dropWhile_append, List.dropWhile_cons_of_neg (by simp [hc])]
  split
  · rename_i none
    rw [List.isEmpty_iff.mp none]
    rfl
  · rfl

/-- What is trimmed keeps its groups. -/
theorem trim_around (t u v : Text) :
    trim (t ++ '(' :: (u ++ ')' :: v)) =
      t.dropWhile isWhite ++ '(' :: (u ++ ')' :: v.rdropWhile isWhite) := by
  have whole : t.dropWhile isWhite ++ '(' :: (u ++ ')' :: v) =
      (t.dropWhile isWhite ++ '(' :: u) ++ ')' :: v := by simp
  rw [trim, trimWhere, dropWhile_append_cons t _ (by decide), whole]
  change List.rdropWhile isWhite _ = _
  rw [List.rdropWhile, List.reverse_append, List.reverse_cons, List.append_assoc,
    List.singleton_append, dropWhile_append_cons _ _ (by decide), List.reverse_append,
    List.reverse_cons, List.reverse_reverse, ← List.rdropWhile]
  simp

theorem isInfix_trimWhere (p : Char → Bool) (t : Text) : trimWhere p t <:+: t :=
  (List.rdropWhile_prefix p _).isInfix.trans (List.dropWhile_suffix p).isInfix

theorem trim_infix (t : Text) : trim t <:+: t := isInfix_trimWhere isWhite t

end Text

namespace Piece

/-- The text of a veil up to the first semicolon outside of its subqueries. -/
def untilSemicolon : List Piece → Text
  | [] => []
  | .literal ('(' :: t) :: ps => '(' :: (t ++ untilSemicolon ps)
  | p :: ps =>
      if ';' ∈ p.text then p.text.takeWhile (· ≠ ';') else p.text ++ untilSemicolon ps

theorem untilSemicolon_cons {p : Piece} (ps : List Piece) (h : ∀ t, p ≠ .literal ('(' :: t)) :
    untilSemicolon (p :: ps) =
      if ';' ∈ p.text then p.text.takeWhile (· ≠ ';') else p.text ++ untilSemicolon ps := by
  rw [untilSemicolon]
  rintro t rfl
  exact h t rfl

/-- Either nothing of a veil is cut off, or it is cut whatever follows. -/
theorem untilSemicolon_append (ps : List Piece) :
    (∀ qs, untilSemicolon (ps ++ qs) = textOf ps ++ untilSemicolon qs) ∨
      ∃ before after, textOf ps = before ++ ';' :: after ∧
        ∀ qs, untilSemicolon (ps ++ qs) = before := by
  induction ps with
  | nil => exact .inl fun qs => rfl
  | cons p ps ih =>
      have onward (shown : ∀ qs, untilSemicolon (p :: qs) = p.text ++ untilSemicolon qs) :
          (∀ qs, untilSemicolon (p :: ps ++ qs) = textOf (p :: ps) ++ untilSemicolon qs) ∨
            ∃ before after, textOf (p :: ps) = before ++ ';' :: after ∧
              ∀ qs, untilSemicolon (p :: ps ++ qs) = before := by
        refine ih.imp (fun whole qs => ?_) ?_
        · rw [List.cons_append, shown, whole, textOf_cons, List.append_assoc]
        · rintro ⟨before, after, text, cut⟩
          refine ⟨p.text ++ before, after, ?_, fun qs => ?_⟩
          · rw [textOf_cons, text, List.append_assoc]
          · rw [List.cons_append, shown, cut]
      by_cases hp : ∃ t, p = .literal ('(' :: t)
      · obtain ⟨t, rfl⟩ := hp
        exact onward fun qs => rfl
      · have apart (qs : List Piece) := untilSemicolon_cons qs fun t ht => hp ⟨t, ht⟩
        by_cases hs : ';' ∈ p.text
        · obtain ⟨after, cut⟩ := Text.exists_takeWhile hs
          refine .inr ⟨p.text.takeWhile (· ≠ ';'), after ++ textOf ps, ?_, fun qs => ?_⟩
          · conv_lhs => rw [textOf_cons, cut]
            simp
          · rw [List.cons_append, apart, if_pos hs]
        · exact onward fun qs => by rw [apart, if_neg hs]

theorem untilSemicolon_prefix (ps : List Piece) : untilSemicolon ps <+: textOf ps := by
  rcases untilSemicolon_append ps with whole | ⟨before, after, text, cut⟩
  · have all := whole []
    rw [List.append_nil, untilSemicolon, List.append_nil] at all
    exact all ▸ List.prefix_rfl
  · have all := cut []
    rw [List.append_nil] at all
    exact ⟨';' :: after, by rw [all, text]⟩

theorem Lexed.isQuote_head? {ps : List Piece} (h : Lexed d ps) {t : Text}
    (ht : .literal t ∈ ps) : ∃ q body, t = q :: body ∧ d.isQuote q = true := by
  induction h with
  | nil => simp at ht
  | char _ _ ih | stray _ _ _ ih => exact ih (by simpa using ht)
  | literal hl _ ih =>
      rcases List.mem_cons.mp ht with ht | ht
      · cases ht
        exact Dialect.literal?_quote hl
      · exact ih ht

end Piece

/-- The options with markers and the options behind veils are cut at the same place, which may be
inside a literal. -/
theorem Item.exists_until {its : List Item}
    (hl : ∀ t, .plain (.literal t) ∈ its → t.head? ≠ some '(') :
    ∃ front back w, its = front ++ back ∧
      (Piece.textOf (its.flatMap (pieces 0))).takeWhile (· ≠ ';') =
        Piece.textOf (front.flatMap (pieces 0)) ++ w ∧
      Piece.untilSemicolon (its.map veiled) = Piece.textOf (front.map veiled) ++ w ∧
      (w = [] ∧ back = [] ∨ ∃ p back' rest, back = .plain p :: back' ∧
        p.text = w ++ ';' :: rest) := by
  induction its with
  | nil => exact ⟨[], [], [], rfl, rfl, rfl, .inl ⟨rfl, rfl⟩⟩
  | cons it its ih =>
      obtain ⟨front, back, w, rfl, marked, veiled, cut⟩ := ih fun t ht => hl t (by simp [ht])
      have grow (plain : ';' ∉ Piece.textOf (pieces 0 it))
          (shown : Piece.untilSemicolon (it.veiled :: (front ++ back).map Item.veiled) =
            it.veiled.text ++ Piece.untilSemicolon ((front ++ back).map Item.veiled)) :
          ∃ front' back' w', it :: (front ++ back) = front' ++ back' ∧
            (Piece.textOf ((it :: (front ++ back)).flatMap (pieces 0))).takeWhile (· ≠ ';') =
              Piece.textOf (front'.flatMap (pieces 0)) ++ w' ∧
            Piece.untilSemicolon ((it :: (front ++ back)).map Item.veiled) =
              Piece.textOf (front'.map Item.veiled) ++ w' ∧
            (w' = [] ∧ back' = [] ∨ ∃ p back'' rest, back' = .plain p :: back'' ∧
              p.text = w' ++ ';' :: rest) := by
        refine ⟨it :: front, back, w, rfl, ?_, ?_, cut⟩
        · rw [List.flatMap_cons, Piece.textOf_append, Text.takeWhile_append_of_not_mem _ plain,
            marked, List.flatMap_cons, Piece.textOf_append, List.append_assoc]
        · rw [List.map_cons, shown, veiled, List.map_cons, Piece.textOf_cons, List.append_assoc]
      cases it with
      | query number content =>
          refine grow (Item.not_mem_query number content) ?_
          rw [Item.veiled, Nesting.groupText, Piece.untilSemicolon]
          rfl
      | plain p =>
          have apart : ∀ t, p ≠ .literal ('(' :: t) := fun t ht => hl ('(' :: t) (by simp [ht]) rfl
          have shown := Piece.untilSemicolon_cons ((front ++ back).map Item.veiled) apart
          by_cases hs : ';' ∈ p.text
          · rw [if_pos hs] at shown
            refine ⟨[], .plain p :: (front ++ back), p.text.takeWhile (· ≠ ';'), rfl, ?_, shown, ?_⟩
            · rw [List.flatMap_cons, Piece.textOf_append, pieces_plain, Piece.textOf_cons,
                Piece.textOf_nil, List.append_nil, Text.takeWhile_append_of_mem _ hs]
              rfl
            · obtain ⟨rest, cut⟩ := Text.exists_takeWhile hs
              exact .inr ⟨p, _, rest, rfl, cut⟩
          · rw [if_neg hs] at shown
            exact grow (by simpa using hs) shown

namespace Subquery
variable {sets : List Text} {its front back : List Item} {ps : List Piece}

theorem fillable_plain (hm : ¬hashSub <:+: ps) : Fillable sets (ps.map .plain) := by
  induction ps with
  | nil => exact .nil
  | cons p ps ih =>
      refine .plain ?_ (ih fun hi => hm (hi.trans (List.suffix_cons p ps).isInfix))
      rintro rfl level hp
      rw [List.flatMap_map] at hp
      refine hm (List.IsPrefix.isInfix (List.cons_prefix_cons.mpr ⟨rfl, ?_⟩))
      simpa using hp

/-- No marker begins in front of pieces that start with no word. -/
theorem Fillable.append_plain (h : Fillable sets its) (hm : ¬hashSub <:+: ps)
    (hw : ∀ t, (ofPieces ps).head? = some t → t.isWord = false) :
    Fillable sets (its ++ ps.map .plain) := by
  induction h with
  | nil => exact fillable_plain hm
  | @plain p its hp _ ih =>
      refine .plain (fun hash level sub => hp hash level ?_) ih
      change _ <+: (its ++ ps.map Item.plain).flatMap (Item.pieces level) at sub
      rw [List.flatMap_append, List.flatMap_map] at sub
      exact prefix_of_prefix_append isWordChar_sub hw (by simpa using sub)
  | query hn hs hc _ _ ih => exact .query hn hs hc ih

theorem infix_textOf (h : hashSub <:+: ps) : "#sub".toList <:+: Piece.textOf ps := by
  obtain ⟨before, after, rfl⟩ := h
  rw [Piece.textOf_append, Piece.textOf_append]
  exact List.infix_append _ _ _

theorem isWord_head?_of_isQuote {w : Text} (hw : ∀ c ∈ w.head?, d.isQuote c = true) :
    ∀ t, (Token.ofText d w).head? = some t → t.isWord = false := by
  intro t ht
  have lexed := Piece.lexed_ofText d w
  have text := Piece.textOf_ofText d w
  rw [Token.ofText] at ht
  cases hp : Piece.ofText d w with
  | nil => simp [hp] at ht
  | cons p ps =>
      rw [hp] at ht lexed text
      subst text
      cases lexed with
      | char hc _ => exact absurd (hw _ rfl) (by simp [hc])
      | literal | stray =>
          cases ht
          rfl

/-- Items in front of a piece with a semicolon may have the piece up to there behind them. -/
theorem Restorable.cut {p : Piece} {w rest : Text}
    (h : Restorable d sets (front ++ .plain p :: back)) (hw : p.text = w ++ ';' :: rest)
    (hm : ¬"#sub".toList <:+: p.text) :
    Restorable d sets (front ++ (Piece.ofText d w).map .plain) := by
  have shown (level : Nat) :
      ((Piece.ofText d w).map .plain).flatMap (Item.pieces level) = Piece.ofText d w := by
    rw [List.flatMap_map]
    simp
  refine ⟨h.fillable.left.append_plain (fun hi => hm ?_) ?_, fun level => ?_,
    fun number content hq => h.contents number content ?_⟩
  · have inside := infix_textOf hi
    rw [Piece.textOf_ofText] at inside
    exact inside.trans ⟨[], ';' :: rest, hw.symm⟩
  · refine isWord_head?_of_isQuote fun c hh => ?_
    obtain ⟨w, rfl⟩ := List.head?_eq_some_iff.mp hh
    cases p with
    | literal lit =>
        obtain ⟨q, body, rfl, hq⟩ := (h.lexed 0).isQuote_head? (t := lit) (by simp)
        cases hw
        exact hq
    | stray | char => simp [Piece.text] at hw
  · rw [List.flatMap_append, shown]
    have whole := h.lexed level
    rw [List.flatMap_append, List.flatMap_cons, Item.pieces_plain] at whole
    refine whole.cut (c := ';') (by cases d <;> decide)
      (t := rest ++ Piece.textOf (back.flatMap (Item.pieces level))) ?_
    simp [hw]
  · exact List.mem_append_left _ (by simpa using hq)

/-- Injection puts the subqueries back in front of the cut. -/
theorem Restorable.inject_until (h : Restorable d sets its)
    (hm : ∀ p, .plain p ∈ its → ¬"#sub".toList <:+: p.text) :
    injectInto d sets
        (Text.trim ((Piece.textOf (its.flatMap (Item.pieces 0))).takeWhile (· ≠ ';'))) =
      Text.trim (Piece.untilSemicolon (its.map Item.veiled)) := by
  have quoted : ∀ t, .plain (.literal t) ∈ its → t.head? ≠ some '(' := by
    intro t ht
    have shown : .literal t ∈ its.flatMap (Item.pieces 0) :=
      List.mem_flatMap.mpr ⟨.plain (.literal t), ht, by simp⟩
    obtain ⟨q, body, rfl, hq⟩ := (h.lexed 0).isQuote_head? shown
    rintro ⟨⟩
    exact absurd hq (by cases d <;> decide)
  obtain ⟨front, back, w, rfl, marked, veiled, cut⟩ := Item.exists_until quoted
  rw [marked, veiled]
  rcases cut with ⟨rfl, rfl⟩ | ⟨p, back, rest, rfl, hw⟩
  · rw [List.append_nil, List.append_nil]
    rw [List.append_nil] at h
    exact h.inject_trim
  · have injected := (h.cut hw (hm p (by simp))).inject_trim
    simpa [List.flatMap_map, Item.veiled, Function.comp_def] using injected

end Subquery

theorem Marks.piecesOf_veiled {its : List Item} {ms vs : List Token} (h : Marks its ms vs) :
    its.map Item.veiled = piecesOf vs := by
  induction h with
  | nil => rfl
  | token t _ ih =>
      rw [List.map_append, ih, List.map_map, piecesOf_cons]
      simp [Function.comp_def, Item.veiled]
  | query number content _ ih =>
      rw [List.map_cons, ih, piecesOf_cons]
      rfl

/-- The text of the part that a step fills, as it is behind a veil. -/
def Step.restored (step : Step) (c : Choice) : Text :=
  Text.trim <|
    match step with
    | options _ _ => Piece.untilSemicolon (piecesOf c.taken)
    | _ => textOf c.taken

/-- A restored part is read off what it takes. -/
theorem Step.restored_congr (step : Step) {c c' : Choice} (h : c.taken = c'.taken) :
    step.restored c = step.restored c' := by
  cases step <;> simp only [restored, h]

theorem Step.restored_infix (step : Step) (c : Choice) : step.restored c <:+: textOf c.taken := by
  cases step with
  | options key keywords =>
      have cut := (Piece.untilSemicolon_prefix (piecesOf c.taken)).isInfix
      rw [textOf_piecesOf] at cut
      exact (Text.trim_infix _).trans cut
  | _ => exact Text.trim_infix _

/-- A part that takes a subquery holds it, whatever its content, unless options end before it. -/
theorem Step.exists_restored (step : Step) (l r : List Token) :
    (∃ u v, u <:+ textOf l ∧ v <+: textOf r ∧ ∀ x (c : Choice),
        c.taken = l ++ .quoted ('(' :: (x ++ [')'])) :: r →
          step.restored c = u ++ '(' :: (x ++ ')' :: v)) ∨
      (∃ key keywords, step = .options key keywords) ∧
        ∃ before after, textOf l = before ++ ';' :: after ∧ ∀ us (c : Choice),
          c.taken = l ++ us → step.restored c = Text.trim before := by
  have whole (v : Text) (hv : v <+: textOf r) :
      ∃ u v', u <:+ textOf l ∧ v' <+: textOf r ∧ ∀ x,
        Text.trim (textOf l ++ '(' :: (x ++ ')' :: v)) = u ++ '(' :: (x ++ ')' :: v') :=
    ⟨_, _, List.dropWhile_suffix Text.isWhite, (List.rdropWhile_prefix Text.isWhite _).trans hv,
      fun x => Text.trim_around _ _ _⟩
  cases step with
  | options key keywords =>
      rcases Piece.untilSemicolon_append (piecesOf l) with all | ⟨before, after, text, cut⟩
      · have prefix_r := Piece.untilSemicolon_prefix (piecesOf r)
        rw [textOf_piecesOf] at prefix_r
        obtain ⟨u, v, hu, hv, around⟩ := whole _ prefix_r
        refine .inl ⟨u, v, hu, hv, fun x c hc => ?_⟩
        rw [Step.restored, hc, piecesOf_append, all, textOf_piecesOf, ← around]
        simp [Piece.untilSemicolon, piecesOf_cons, pieces]
      · rw [textOf_piecesOf] at text
        refine .inr ⟨⟨key, keywords, rfl⟩, before, after, text, fun us c hc => ?_⟩
        rw [Step.restored, hc, piecesOf_append, cut]
  | _ =>
      obtain ⟨u, v, hu, hv, around⟩ := whole _ List.prefix_rfl
      refine .inl ⟨u, v, hu, hv, fun x c hc => ?_⟩
      change Text.trim (textOf c.taken) = _
      rw [hc, ← around]
      simp [Token.textOf_append, Token.textOf_cons, Token.text]

/-- The parts that are filled along a route through a veil. -/
def restoredOf : List Step → List Choice → Captures
  | step :: steps, c :: cs => (step.key?.toList.map (·, step.restored c)) ++ restoredOf steps cs
  | _, _ => []

theorem restoredOf_congr {steps : List Step} {cs cs' : List Choice}
    (h : cs.map Choice.taken = cs'.map Choice.taken) :
    restoredOf steps cs = restoredOf steps cs' := by
  induction steps generalizing cs cs' with
  | nil => rfl
  | cons step steps ih =>
      cases cs with
      | nil =>
          rw [List.map_nil, eq_comm, List.map_eq_nil_iff] at h
          rw [h]
      | cons c cs =>
          obtain ⟨c', cs', rfl, taken, rest⟩ := List.map_eq_cons_iff.mp h.symm
          rw [restoredOf, restoredOf, step.restored_congr taken.symm, ih rest.symm]

theorem exists_of_mem_restoredOf {steps : List Step} {cs : List Choice} {q : String × Text}
    (h : q ∈ restoredOf steps cs) : ∃ c ∈ cs, q.2 <:+: textOf c.taken := by
  induction steps generalizing cs with
  | nil => simp [restoredOf] at h
  | cons step steps ih =>
      cases cs with
      | nil => simp [restoredOf] at h
      | cons c cs =>
          rw [restoredOf, List.mem_append] at h
          rcases h with h | h
          · obtain ⟨key, -, rfl⟩ := List.mem_map.mp h
            exact ⟨c, by simp, step.restored_infix c⟩
          · obtain ⟨c', hm, inside⟩ := ih h
            exact ⟨c', by simp [hm], inside⟩

namespace Subquery.Restorable
variable {its : List Item} {sets : List Text}

theorem inject_restored (h : Restorable d sets its)
    (hm : ∀ p, .plain p ∈ its → ¬"#sub".toList <:+: p.text) (step : Step) {c c' : Choice}
    (hc : SameTaken its c c') : injectInto d sets (step.captured c) = step.restored c' := by
  obtain ⟨before, taken, after, rfl, marks, hclosed⟩ := hc
  have restorable := h.taken marks hclosed
  have marked := marks.textOf_marked
  cases step with
  | options key keywords =>
      rw [Step.captured, Step.optionsText, Step.restored, marked, ← marks.piecesOf_veiled]
      exact restorable.inject_until fun p hp => hm p (by simp [hp])
  | _ =>
      change injectInto d sets (Text.trim (textOf c.taken)) = Text.trim (textOf c'.taken)
      rw [marked, marks.textOf_veiled]
      exact restorable.inject_trim

theorem inject_restoredOf (h : Restorable d sets its)
    (hm : ∀ p, .plain p ∈ its → ¬"#sub".toList <:+: p.text) (steps : List Step)
    {cs cs' : List Choice} (hc : List.Forall₂ (SameTaken its) cs cs') :
    (capturesOf steps cs).map (fun p => (p.1, injectInto d sets p.2)) = restoredOf steps cs' := by
  induction hc generalizing steps with
  | nil => cases steps <;> rfl
  | @cons c c' cs cs' hc _ ih =>
      cases steps with
      | nil => rfl
      | cons step steps =>
          rw [capturesOf, restoredOf, List.map_append, ih, ← h.inject_restored hm step hc,
            Step.captures]
          cases step.key? <;> rfl

end Subquery.Restorable

/-- The pieces of a text are a veil with nothing hidden in it. -/
theorem Piece.untilSemicolon_eq {ps : List Piece} (h : ∀ t, .literal ('(' :: t) ∉ ps) :
    untilSemicolon ps = (textOf ps).takeWhile (· ≠ ';') := by
  induction ps with
  | nil => rfl
  | cons p ps ih =>
      rw [untilSemicolon_cons ps fun t ht => h t (by simp [ht]), textOf_cons,
        ih fun t ht => h t (by simp [ht])]
      split
      · rw [Text.takeWhile_append_of_mem _ ‹_›]
      · rw [Text.takeWhile_append_of_not_mem _ ‹_›]

theorem Step.restored_eq_captured (step : Step) {c : Choice}
    (h : ∀ t, .quoted ('(' :: t) ∉ c.taken) : step.restored c = step.captured c := by
  cases step with
  | options key keywords =>
      rw [restored, captured, optionsText, Piece.untilSemicolon_eq, textOf_piecesOf]
      exact fun t ht => h t (literal_mem_piecesOf.mp ht)
  | _ => rfl

theorem restoredOf_eq_capturesOf {steps : List Step} {cs : List Choice}
    (h : ∀ c ∈ cs, ∀ t, .quoted ('(' :: t) ∉ c.taken) :
    restoredOf steps cs = capturesOf steps cs := by
  induction steps generalizing cs with
  | nil => rfl
  | cons step steps ih =>
      cases cs with
      | nil => rfl
      | cons c cs =>
          obtain ⟨first, others⟩ := List.forall_mem_cons.mp h
          rw [restoredOf, capturesOf, ih others, step.restored_eq_captured first, Step.captures]
          cases step.key? <;> rfl

theorem Token.group_not_mem_ofText (d : Dialect) (t u : Text) :
    .quoted ('(' :: u) ∉ Token.ofText d t := by
  rw [← literal_mem_piecesOf, Token.piecesOf_ofText]
  intro hm
  obtain ⟨q, body, he, hq⟩ := (Piece.lexed_ofText d t).isQuote_head? hm
  cases he
  exact absurd hq (by cases d <;> decide)

theorem Nesting.plain_mem_items {n : Nesting} {next : Nat} {p : Piece}
    (h : .plain p ∈ n.items next) : p ∈ n.pieces := by
  induction n generalizing next with
  | done => simp [items] at h
  | piece q rest ih =>
      rw [items, List.mem_cons] at h
      rw [pieces, List.mem_cons]
      exact h.imp Item.plain.inj ih
  | group inner rest ih₁ ih₂ =>
      rw [items] at h
      simp only [pieces, List.mem_cons, List.mem_append]
      by_cases hq : inner.startsQuery = true
      · simp only [if_pos hq, List.mem_cons, reduceCtorEq, false_or] at h
        exact .inr (.inr (.inr (ih₂ h)))
      · simp only [if_neg hq, List.mem_cons, List.mem_append, Item.plain.injEq] at h
        rcases h with h | h | h | h
        · exact .inl h
        · exact .inr (.inl (ih₁ h))
        · exact .inr (.inr (.inl h))
        · exact .inr (.inr (.inr (ih₂ h)))

theorem Nesting.mem_ofText_of_items {t : Text} {next : Nat} {p : Piece}
    (h : .plain p ∈ (ofText d t).items next) : p ∈ Piece.ofText d t := by
  rw [← pieces_ofPieces (Piece.ofText d t)]
  exact plain_mem_items h

theorem Subquery.infix_of_mem_items {t : Text} {next : Nat} {p : Piece}
    (h : .plain p ∈ (Nesting.ofText d t).items next) : p.text <:+: t := by
  obtain ⟨front, back, split⟩ := List.append_of_mem (Nesting.mem_ofText_of_items h)
  refine ⟨Piece.textOf front, Piece.textOf back, ?_⟩
  rw [← Piece.textOf_ofText d t, split, Piece.textOf_append, Piece.textOf_cons, List.append_assoc]

/-- A statement without markers is split along the route through its veil, if its subqueries nest
as deeply as they may. -/
theorem split_eq_route {s : Settings} {t : Text} {type : StatementType} {p : Pattern}
    (hm : ¬"#sub".toList <:+: t) (hd : StatementType.detect s.dialect t = some type)
    (hp : Pattern.ofType? s.dialect type = some p) :
    split s t =
      if p.hidesSubqueries = true → (Nesting.ofText s.dialect t).depth ≤ s.maxNesting then
        (route p.steps (p.tokens s.dialect t)).elim (.error (.invalidSyntax p.family t))
          fun cs => .ok ⟨restoredOf p.steps cs⟩
      else .error (.nestingTooDeep s.maxNesting) := by
  have plain : p.parts s.dialect t t = (route p.steps (Token.ofText s.dialect t)).elim
      (.error (.invalidSyntax p.family t)) fun cs => .ok ⟨restoredOf p.steps cs⟩ := by
    rw [Pattern.parts, matchSteps_eq]
    cases hr : route p.steps (Token.ofText s.dialect t) with
    | none => rfl
    | some cs =>
        have same : restoredOf p.steps cs = capturesOf p.steps cs :=
          restoredOf_eq_capturesOf fun c hc u hu =>
            group_not_mem_ofText s.dialect t u (taken_subset_of_route hr hc hu)
        rw [Option.elim_some, same]
        rfl
  rw [split, hd]
  dsimp only
  rw [hp]
  dsimp only
  rw [Pattern.tokens]
  by_cases hides : p.hidesSubqueries = true
  · simp only [hides, if_true, true_imp_iff]
    by_cases nested : (Nesting.ofText s.dialect t).hasSubquery = true
    · obtain ⟨k, hk, rfl, length⟩ := StatementType.exists_keyword hp
      have rows : ¬(StatementType.detect s.dialect t).any StatementType.isInsertLike := by
        rw [hd, Option.any_some, Pattern.isInsertLike_of_hides hp hides]
        exact Bool.false_ne_true
      have hash : ¬Subquery.hashSub <:+: Piece.ofText s.dialect t := fun hi => hm (by
        have inside := Subquery.infix_textOf hi
        rwa [Piece.textOf_ofText] at inside)
      rw [Pattern.partsAround_of_hasSubquery (Pattern.blind_steps hp hides) hash rows nested
        (Subquery.mentionsSelect_of_hasSubquery hk (length hides) hd nested)
        fun sets cs cs' restorable agrees _ => restorable.inject_restoredOf
          (fun _ hi inside => hm (inside.trans (Subquery.infix_of_mem_items hi))) p.steps agrees]
      cases route p.steps (s.dialect.veil t) <;> rfl
    · obtain ⟨veiled, flat⟩ := Nesting.veiled_of_not_hasSubquery (by simpa using nested)
      rw [Pattern.partsAround, if_neg nested, flat, if_pos (Nat.zero_le _), plain, Dialect.veil,
        veiled, Nesting.ofText, Nesting.pieces_ofPieces, ← Token.ofText]
  · rw [if_neg hides, if_neg hides, if_pos fun h => absurd h hides, plain]

end SqlStatement
