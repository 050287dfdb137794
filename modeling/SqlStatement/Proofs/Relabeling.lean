import SqlStatement.Proofs.Letters
import SqlStatement.Proofs.Scanning

/-!
# What a pattern does not see

A pattern never looks into a literal, and it reads words without regard to the
case of their letters. When other literals are written in place of the literals
of a statement, and its words in another case, every step has the choices that
it had, with the other tokens in them, and the route of a pattern is the route
it was.
-/
namespace SqlStatement
open Token

/-- Tokens of one kind that are the same up to the case of letters, unless a pattern does not look
into them. -/
inductive Token.Recased : Token → Token → Prop
  | quoted (t u : Text) : Recased (.quoted t) (.quoted u)
  | word {t u : Text} (h : Text.upper u = Text.upper t) : Recased (.word t) (.word u)
  | space (t u : Text) : Recased (.space t) (.space u)
  | symbol {c c' : Char} (h : c'.toUpper = c.toUpper) : Recased (.symbol c) (.symbol c')
  | unterminated (q q' : Char) : Recased (.unterminated q) (.unterminated q')

/-- A change of tokens into recased tokens. -/
def Token.Recases (f : Token → Token) : Prop := ∀ t, Recased t (f t)

/-- A choice with other tokens at the same places. -/
def Choice.map (f : Token → Token) (c : Choice) : Choice :=
  ⟨c.start.map f, c.stop.map f, c.next.map f, c.width⟩

theorem Choice.taken_map (f : Token → Token) (c : Choice) : (c.map f).taken = c.taken.map f := by
  simp [taken, map, List.map_take]

theorem Token.Recased.refl (t : Token) : Recased t t := by
  cases t with
  | quoted t => exact .quoted t t
  | word => exact .word rfl
  | space t => exact .space t t
  | symbol => exact .symbol rfl
  | unterminated q => exact .unterminated q q

theorem Token.group?_cons {t : Token} (ts : List Token) :
    group? (t :: ts) = if t = .symbol '(' then closeGroup? 0 ts else none := by
  split
  · subst t
    rfl
  · rw [group?]
    rintro us ⟨⟩
    contradiction

/-- The marker of a query is one in any case of its letters. -/
theorem Step.isMarkerWord_congr {w v : Text} (h : Text.upper v = Text.upper w) :
    isMarkerWord v = isMarkerWord w := by
  have numbered (t : Text) :
      isMarkerWord t = (Text.isKeyword "SUB" (t.take 3) && 3 < t.length &&
        (Text.upper (t.drop 3)).all Char.isDigit) := by
    rw [isMarkerWord, Text.upper, List.all_map]
    exact congrArg (_ && (t.drop 3).all ·) (funext fun c => (Text.isDigit_toUpper c).symm)
  have first : Text.upper (v.take 3) = Text.upper (w.take 3) := by
    rw [Text.upper, List.map_take, ← Text.upper, h, Text.upper, ← List.map_take, ← Text.upper]
  have others : Text.upper (v.drop 3) = Text.upper (w.drop 3) := by
    rw [Text.upper, List.map_drop, ← Text.upper, h, Text.upper, ← List.map_drop, ← Text.upper]
  rw [numbered v, numbered w, Text.isKeyword_congr "SUB" first, Text.length_eq_of_upper h, others]

namespace Token.Recases
variable {f : Token → Token}

theorem exists_recased (hf : Recases f) (t : Token) : ∃ u, f t = u ∧ Recased t u := ⟨f t, rfl, hf t⟩

theorem skipSpace_map (hf : Recases f) (ts : List Token) :
    skipSpace (ts.map f) = (skipSpace ts).map f := by
  cases ts with
  | nil => rfl
  | cons t ts =>
      obtain ⟨u, ht, recased⟩ := hf.exists_recased t
      cases recased <;> simp [skipSpace, ht]

theorem after?_map (hf : Recases f) (p : Phrase) (ts : List Token) :
    p.after? (ts.map f) = (p.after? ts).map (List.map f) := by
  induction p generalizing ts with
  | nil => rfl
  | cons k ks ih =>
      cases ts with
      | nil => cases ks <;> rfl
      | cons t ts =>
          obtain ⟨u, ht, recased⟩ := hf.exists_recased t
          cases recased with
          | word same =>
              have keyword := Text.isKeyword_congr k same
              cases ks with
              | nil =>
                  simp only [List.map_cons, ht, Phrase.after?, keyword]
                  split <;> rfl
              | cons k' ks =>
                  cases ts with
                  | nil => simp [ht, Phrase.after?]
                  | cons t' ts =>
                      obtain ⟨u', ht', recased⟩ := hf.exists_recased t'
                      cases recased with
                      | space =>
                          simp only [List.map_cons, ht, ht', Phrase.after?, keyword, ih]
                          split <;> rfl
                      | _ => simp [ht, ht', Phrase.after?]
          | _ => cases ks <;> simp [ht, Phrase.after?]

theorem afterAny?_map (hf : Recases f) (phrases : List Phrase) (ts : List Token) :
    Phrase.afterAny? phrases (ts.map f) = (Phrase.afterAny? phrases ts).map (List.map f) := by
  simp only [Phrase.afterAny?, hf.after?_map, List.map_findSome?]
  rfl

theorem startsAny_map (hf : Recases f) (phrases : List Phrase) (ts : List Token) :
    Phrase.startsAny phrases (ts.map f) = Phrase.startsAny phrases ts := by
  rw [Phrase.startsAny, hf.afterAny?_map, Option.isSome_map, Phrase.startsAny]

theorem apply_eq_symbol_iff (hf : Recases f) {x : Char} (hx : x.isAlpha = false) {t : Token} :
    f t = .symbol x ↔ t = .symbol x := by
  obtain ⟨u, ht, recased⟩ := hf.exists_recased t
  rw [ht]
  cases recased with
  | symbol same => rw [Token.symbol.injEq, Token.symbol.injEq, Text.eq_iff_of_toUpper same hx]
  | _ => simp

theorem depthBehind?_apply (hf : Recases f) (depth : Nat) (t : Token) :
    (f t).depthBehind? depth = t.depthBehind? depth := by
  obtain ⟨u, ht, recased⟩ := hf.exists_recased t
  rw [ht]
  cases recased with
  | symbol same =>
      simp only [depthBehind?, Piece.groupsBehind?,
        Text.eq_iff_of_toUpper same (x := '(') (by decide),
        Text.eq_iff_of_toUpper same (x := ')') (by decide)]
  | _ => rfl

theorem closeGroup?_map (hf : Recases f) (depth : Nat) (ts : List Token) :
    closeGroup? depth (ts.map f) =
      (closeGroup? depth ts).map fun r => (r.1.map f, r.2.map f) := by
  induction ts generalizing depth with
  | nil => rfl
  | cons t ts ih =>
      rw [List.map_cons, closeGroup?, closeGroup?, hf.depthBehind?_apply]
      cases t.depthBehind? depth with
      | some depth => simp [ih, Function.comp_def]
      | none =>
          simp only [hf.apply_eq_symbol_iff (x := ')') (by decide)]
          split <;> rfl

theorem group?_map (hf : Recases f) (ts : List Token) :
    group? (ts.map f) = (group? ts).map fun r => (r.1.map f, r.2.map f) := by
  cases ts with
  | nil => rfl
  | cons t ts =>
      simp only [List.map_cons, group?_cons, hf.apply_eq_symbol_iff (x := '(') (by decide),
        hf.closeGroup?_map]
      split <;> rfl

theorem valueChoices_map (hf : Recases f) (start ts : List Token) (width : Nat) :
    Step.valueChoices (start.map f) width (ts.map f) =
      (Step.valueChoices start width ts).map (Choice.map f) := by
  induction ts generalizing width with
  | nil => rfl
  | cons t ts ih =>
      obtain ⟨u, ht, recased⟩ := hf.exists_recased t
      cases recased <;> simp [Step.valueChoices, Choice.map, ht, ih]

theorem ends_map (hf : Recases f) (phrases : List Phrase) (fuel : Nat) (most : Option Nat)
    (ts : List Token) :
    Step.modifierEnds.ends phrases fuel most (ts.map f) =
      (Step.modifierEnds.ends phrases fuel most ts).map (List.map f) := by
  induction fuel generalizing most ts with
  | zero => rfl
  | succ fuel ih =>
      by_cases hz : most = some 0
      · subst hz
        rfl
      · cases ts with
        | nil => rcases most with _ | _ | most <;> rfl
        | cons t ts =>
            obtain ⟨u, ht, recased⟩ := hf.exists_recased t
            cases recased with
            | space =>
                simp only [List.map_cons, ht, Step.modifierEnds.ends, hf.afterAny?_map]
                cases Phrase.afterAny? phrases ts with
                | none => rfl
                | some after => simp [ih]
            | _ => simp [Step.modifierEnds.ends, ht]

theorem modifierEnds_map (hf : Recases f) (phrases : List Phrase) (most : Option Nat)
    (ts : List Token) :
    Step.modifierEnds phrases most (ts.map f) =
      (Step.modifierEnds phrases most ts).map (List.map f) := by
  rw [Step.modifierEnds, Step.modifierEnds, List.length_map, hf.ends_map]

theorem rowEnds_map (hf : Recases f) (ts : List Token) :
    Step.rowEnds (ts.map f) = (Step.rowEnds ts).map (List.map f) := by
  rw [Step.rowEnds, Step.rowEnds, List.length_map]
  generalize ts.length = fuel
  induction fuel generalizing ts with
  | zero => rfl
  | succ fuel ih =>
      rw [Step.rowEnds.ends, Step.rowEnds.ends, hf.group?_map]
      cases group? ts with
      | none => rfl
      | some r =>
          obtain ⟨inner, behind⟩ := r
          simp only [Option.map_some, hf.skipSpace_map]
          cases skipSpace behind with
          | nil => rfl
          | cons t more =>
              obtain ⟨u, ht, recased⟩ := hf.exists_recased t
              cases recased with
              | @symbol c c' same =>
                  have comma := Text.eq_iff_of_toUpper same (x := ',') (by decide)
                  by_cases hc : c = ','
                  · obtain rfl := comma.mpr hc
                    simp [hc, hc ▸ ht, hf.skipSpace_map, ih]
                  · simp [ht, hc, mt comma.mp hc]
              | _ => simp [ht]

theorem afterMarker?_map (hf : Recases f) (ts : List Token) :
    Step.afterMarker? (ts.map f) = (Step.afterMarker? ts).map (List.map f) := by
  cases ts with
  | nil => rfl
  | cons t ts =>
      have hash := hf.apply_eq_symbol_iff (x := '#') (by decide) (t := t)
      by_cases ht : t = .symbol '#'
      · have marks := hash.mpr ht
        subst ht
        cases ts with
        | nil => simp [Step.afterMarker?, marks]
        | cons t' ts =>
            obtain ⟨u, ht', recased⟩ := hf.exists_recased t'
            cases recased with
            | word same =>
                simp only [List.map_cons, marks, ht', Step.afterMarker?,
                  Step.isMarkerWord_congr same]
                split <;> rfl
            | _ => simp [Step.afterMarker?, marks, ht']
      · have none {t : Token} {us : List Token} (h : t ≠ .symbol '#') :
            Step.afterMarker? (t :: us) = none := by
          rw [Step.afterMarker?]
          rintro w ts ⟨⟩
          contradiction
        rw [List.map_cons, none ht, none (mt hash.mp ht)]
        rfl

theorem exists_word (hf : Recases f) (w : Text) :
    ∃ v, f (.word w) = .word v ∧ Text.upper v = Text.upper w := by
  obtain ⟨u, ht, recased⟩ := hf.exists_recased (.word w)
  cases recased with
  | word same => exact ⟨_, ht, same⟩

theorem exists_word_of_apply (hf : Recases f) {t : Token} {w : Text} (h : f t = .word w) :
    ∃ v, t = .word v := by
  obtain ⟨u, ht, recased⟩ := hf.exists_recased t
  cases ht.symm.trans h
  cases recased with
  | word => exact ⟨_, rfl⟩

/-- A step reads other literals, and words in another case, as it reads these. -/
theorem choices_map (hf : Recases f) (step : Step) (ts : List Token) :
    step.choices (ts.map f) = (step.choices ts).map (Choice.map f) := by
  have skip : Choice.skip (ts.map f) = (Choice.skip ts).map f := rfl
  cases step with
  | lead keywords =>
      rw [Step.choices, Step.choices, hf.skipSpace_map, hf.afterAny?_map]
      cases Phrase.afterAny? keywords (skipSpace ts) <;> simp [Choice.map]
  | modifiers key phrases most =>
      rw [Step.choices, Step.choices, hf.modifierEnds_map]
      simp [Choice.map, hf.skipSpace_map]
  | value key => exact hf.valueChoices_map ts ts 0
  | clause key keyword =>
      rw [Step.choices, Step.choices, hf.after?_map]
      cases keyword.after? ts with
      | none => simp [skip]
      | some after => simp [hf.skipSpace_map, hf.valueChoices_map, skip]
  | columnList key =>
      rw [Step.choices, Step.choices, hf.group?_map]
      cases group? ts with
      | none => simp [skip]
      | some r => simp [Choice.map, hf.skipSpace_map, skip]
  | rows key keyword =>
      rw [Step.choices, Step.choices, hf.after?_map]
      cases keyword.after? ts with
      | none => simp [skip]
      | some after => simp [Choice.map, hf.skipSpace_map, hf.rowEnds_map, skip]
  | query key =>
      by_cases hw : ∃ w rest, ts = .word w :: rest
      · obtain ⟨w, rest, rfl⟩ := hw
        obtain ⟨v, hv, upper⟩ := hf.exists_word w
        have same := Text.isKeyword_congr "SELECT" upper
        have grow := hf.valueChoices_map (.word w :: rest) rest 1
        rw [List.map_cons, hv] at grow skip
        by_cases h : Text.isKeyword "SELECT" w = true
        · simp [Step.choices, hv, same, h, grow, skip]
        · simp [Step.choices, hv, same, h, skip]
      · have marked {us : List Token} (h : ¬∃ w rest, us = .word w :: rest) :
            (Step.query key).choices us = (Step.afterMarker? us).elim [.skip us] fun behind =>
              [⟨us, behind, skipSpace behind, us.length - (skipSpace behind).length⟩,
                .skip us] := by
          simp only [Step.choices]
          split
          · exact absurd ⟨_, _, rfl⟩ h
          · cases Step.afterMarker? us <;> rfl
        rw [marked hw, marked, hf.afterMarker?_map]
        · cases Step.afterMarker? ts with
          | none => simp [skip]
          | some behind => simp [Choice.map, hf.skipSpace_map, skip]
        · rintro ⟨w, rest, he⟩
          obtain ⟨t, us, rfl, ht, -⟩ := List.map_eq_cons_iff.mp he
          obtain ⟨v, rfl⟩ := hf.exists_word_of_apply ht
          exact hw ⟨v, us, rfl⟩
  | options key keywords =>
      rw [Step.choices, Step.choices, hf.startsAny_map]
      by_cases h : Phrase.startsAny keywords ts = true <;> simp [h, Choice.map, skip]
  | finish =>
      cases ts with
      | nil => rfl
      | cons t rest =>
          obtain ⟨u, ht, recased⟩ := hf.exists_recased t
          cases recased with
          | @symbol c c' same =>
              have ends := Text.eq_iff_of_toUpper same (x := ';') (by decide)
              by_cases hc : c = ';'
              · obtain rfl := ends.mpr hc
                simp [hc, hc ▸ ht, Step.choices, Choice.map, Choice.skip]
              · simp [ht, hc, mt ends.mp hc, Step.choices]
          | _ => simp [Step.choices, ht]

/-- The route of a pattern through the other tokens is the same. -/
theorem route_map (hf : Recases f) (steps : List Step) (ts : List Token) :
    route steps (ts.map f) = (route steps ts).map (List.map (Choice.map f)) := by
  induction steps generalizing ts with
  | nil => rfl
  | cons step steps ih =>
      rw [route_cons, route_cons, hf.choices_map, List.findSome?_map, List.map_findSome?]
      congr 1
      funext c
      simp [onward, Choice.map, ih, Function.comp_def]

end Token.Recases
end SqlStatement
