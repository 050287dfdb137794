import Mathlib.Data.List.Infix
import SqlStatement.Proofs.Curtailing
import SqlStatement.Proofs.Recasing

/-!
# Splitting in any case of letters

A statement is split along the route through its veil, and the veil of a
statement in other letters is the same but for these letters. So statements that
are equal up to the case of letters are both refused for the same reason, or
their parts stand at the same places in them. Markers are the exception: only
those in small letters are filled, so a statement must have none in any case.
-/
namespace SqlStatement
open Token

namespace Text
variable {t t' u u' v v' : Text}

/-- Texts that stand at one place in two texts. -/
def Aligned (t t' u u' : Text) : Prop :=
  ∃ start length, u = (t.drop start).take length ∧ u' = (t'.drop start).take length

theorem take_drop_upper (t : Text) (start length : Nat) :
    upper ((t.drop start).take length) = ((upper t).drop start).take length := by
  rw [upper, List.map_take, List.map_drop, upper]

/-- What stands at one place in texts that are equal up to case is equal up to case. -/
theorem Aligned.upper_eq (h : Aligned t t' u u') (same : upper t = upper t') :
    upper u = upper u' := by
  obtain ⟨start, length, rfl, rfl⟩ := h
  rw [take_drop_upper, same, take_drop_upper]

/-- The place of a trimmed stretch of a text. -/
theorem trim_eq_take (hu : u <:+ t) (hv : v <+: u) :
    trim v = (t.drop (t.length - u.length + (v.takeWhile isWhite).length)).take
      (trim v).length := by
  have inner : trim v <+: v.drop (v.takeWhile isWhite).length := by
    have cut : (v.takeWhile isWhite ++ v.dropWhile isWhite).drop (v.takeWhile isWhite).length =
        v.dropWhile isWhite := List.drop_left
    rw [List.takeWhile_append_dropWhile] at cut
    rw [cut]
    exact List.rdropWhile_prefix isWhite _
  have place : trim v <+: u.drop (v.takeWhile isWhite).length := by
    obtain ⟨rest, rfl⟩ := hv
    rw [List.drop_append]
    exact inner.trans (List.prefix_append _ _)
  rw [List.suffix_iff_eq_drop.mp hu, List.drop_drop] at place
  exact List.prefix_iff_eq_take.mp place

/-- Trimmed stretches that begin at one place and are equal up to case stand at one place. -/
theorem aligned_trim (same : upper t = upper t') (hu : u <:+ t) (hu' : u' <:+ t')
    (begins : u.length = u'.length) (hv : v <+: u) (hv' : v' <+: u')
    (equal : upper v = upper v') : Aligned t t' (trim v) (trim v') := by
  have white : (v.takeWhile isWhite).length = (v'.takeWhile isWhite).length := by
    refine length_eq_of_upper ?_
    rw [← takeWhile_upper isWhite_toUpper, equal, takeWhile_upper isWhite_toUpper]
  have kept : (trim v).length = (trim v').length := by
    refine length_eq_of_upper ?_
    rw [← trim_upper, equal, trim_upper]
  refine ⟨_, _, trim_eq_take hu hv, ?_⟩
  rw [length_eq_of_upper same, begins, white, kept]
  exact trim_eq_take hu' hv'

end Text

theorem Piece.untilSemicolon_upper (ps : List Piece) :
    untilSemicolon (ps.map upper) = Text.upper (untilSemicolon ps) := by
  have semicolon (c : Char) : decide (c.toUpper ≠ ';') = decide (c ≠ ';') := by
    simp only [ne_eq, Text.toUpper_eq_iff (x := ';') (by decide)]
  induction ps with
  | nil => rfl
  | cons p ps ih =>
      by_cases hp : ∃ t, p = .literal ('(' :: t)
      · obtain ⟨t, rfl⟩ := hp
        change '('.toUpper :: (Text.upper t ++ untilSemicolon (ps.map upper)) = _
        rw [ih, untilSemicolon, Text.upper_cons, Text.upper_append]
      · have apart : ∀ t, p.upper ≠ .literal ('(' :: t) := by
          intro t he
          cases p with
          | stray | char => cases he
          | literal u =>
              cases u with
              | nil => cases he
              | cons c u =>
                  have first : c.toUpper = '(' := (List.cons.inj (Piece.literal.inj he)).1
                  rw [Text.toUpper_eq_iff (by decide)] at first
                  exact hp ⟨u, by rw [first]⟩
        have ends : ';' ∈ p.upper.text ↔ ';' ∈ p.text := by
          rw [text_upper, Text.upper, List.mem_map]
          simp only [Text.toUpper_eq_iff (x := ';') (by decide), exists_eq_right]
        rw [List.map_cons, untilSemicolon_cons _ apart,
          untilSemicolon_cons _ fun t ht => hp ⟨t, ht⟩]
        simp only [ends, ih]
        rw [text_upper]
        split
        · exact Text.takeWhile_upper (p := fun c => decide (c ≠ ';')) semicolon _
        · rw [Text.upper_append]

namespace Step

/-- The text of the part that a step fills before it is trimmed. -/
def span (step : Step) (c : Choice) : Text :=
  match step with
  | options _ _ => Piece.untilSemicolon (piecesOf c.taken)
  | _ => textOf c.taken

theorem restored_eq_trim (step : Step) (c : Choice) :
    step.restored c = Text.trim (step.span c) := by
  cases step <;> rfl

theorem span_prefix (step : Step) (c : Choice) : step.span c <+: textOf c.start := by
  have taken : textOf c.taken <+: textOf c.start := (List.take_prefix _ _).flatMap _
  cases step with
  | options key keywords =>
      have cut := Piece.untilSemicolon_prefix (piecesOf c.taken)
      rw [textOf_piecesOf] at cut
      exact cut.trans taken
  | _ => exact taken

theorem span_upper (step : Step) (c : Choice) :
    step.span (c.map Token.uppercase) = Text.upper (step.span c) := by
  cases step with
  | options key keywords =>
      rw [span, Choice.taken_map, piecesOf_uppercase, Piece.untilSemicolon_upper]
      rfl
  | _ =>
      change textOf (c.map Token.uppercase).taken = Text.upper (textOf c.taken)
      rw [Choice.taken_map, textOf_uppercase]

/-- Parts that are taken by one choice but for the case of letters stand at one place. -/
theorem aligned_restored (step : Step) {t t' : Text} {c c' : Choice}
    (same : Text.upper t = Text.upper t') (hc : textOf c.start <:+ t) (hc' : textOf c'.start <:+ t')
    (equal : c.map Token.uppercase = c'.map Token.uppercase) :
    Text.Aligned t t' (step.restored c) (step.restored c') := by
  rw [restored_eq_trim, restored_eq_trim]
  refine Text.aligned_trim same hc hc' (Text.length_eq_of_upper ?_) (step.span_prefix c)
    (step.span_prefix c') ?_
  · rw [← textOf_uppercase, ← textOf_uppercase]
    exact congrArg (textOf ·.start) equal
  · rw [← span_upper, equal, span_upper]

end Step

theorem start_suffix_of_route {steps : List Step} {ts : List Token} {cs : List Choice}
    (h : route steps ts = some cs) {c : Choice} (hc : c ∈ cs) : c.start <:+ ts := by
  induction steps generalizing ts cs with
  | nil =>
      cases h
      simp at hc
  | cons step steps ih =>
      obtain ⟨c', cs', rfl, ⟨before, after, cuts, -⟩, hr⟩ := route_cons_eq_some h
      rcases List.mem_cons.mp hc with rfl | hc
      · exact ⟨before, cuts.start.symm⟩
      · exact (ih hr hc).trans cuts.next_suffix

theorem Pattern.textOf_start_suffix {p : Pattern} {d : Dialect} {t : Text} {cs : List Choice}
    (h : route p.steps (p.tokens d t) = some cs) : ∀ c ∈ cs, textOf c.start <:+ t := by
  intro c hc
  have suffix := (start_suffix_of_route h hc).flatMap Token.text
  rwa [← textOf, ← textOf, p.textOf_tokens] at suffix

/-- Parts of two statements with one key, which are equal up to the case of letters and stand at
one place. -/
structure Corresponds (t t' : Text) (p p' : String × Text) : Prop where
  key : p.1 = p'.1
  length : p.2.length = p'.2.length
  upper : Text.upper p.2 = Text.upper p'.2
  place : Text.Aligned t t' p.2 p'.2

/-- A route fills corresponding parts in two statements. -/
theorem corresponds_restoredOf (steps : List Step) {t t' : Text} {cs cs' : List Choice}
    (same : Text.upper t = Text.upper t') (hc : ∀ c ∈ cs, textOf c.start <:+ t)
    (hc' : ∀ c ∈ cs', textOf c.start <:+ t')
    (equal : cs.map (Choice.map Token.uppercase) = cs'.map (Choice.map Token.uppercase)) :
    List.Forall₂ (Corresponds t t') (restoredOf steps cs) (restoredOf steps cs') := by
  induction steps generalizing cs cs' with
  | nil => exact .nil
  | cons step steps ih =>
      cases cs with
      | nil =>
          rw [List.map_nil, eq_comm, List.map_eq_nil_iff] at equal
          rw [equal]
          exact .nil
      | cons c cs =>
          obtain ⟨c', cs', rfl, first, others⟩ := List.map_eq_cons_iff.mp equal.symm
          rw [List.forall_mem_cons] at hc hc'
          refine List.rel_append ?_ (ih hc.2 hc'.2 others.symm)
          cases step.key? with
          | none => exact .nil
          | some key =>
              have place := step.aligned_restored same hc.1 hc'.1 first.symm
              have upper := place.upper_eq same
              exact .cons ⟨rfl, Text.length_eq_of_upper upper, upper, place⟩ .nil

/-- An error with the statement that it shows in upper case. -/
def Error.upper : Error → Error
  | unrecognized statement => unrecognized (Text.upper statement)
  | invalidSyntax family statement => invalidSyntax family (Text.upper statement)
  | e => e

/-- Statements without markers that are equal up to the case of letters are both refused, with the
same error but for the letters of the statement, or have corresponding parts. -/
theorem split_caseless {s : Settings} {t t' : Text} (same : Text.upper t = Text.upper t')
    (unmarked : ¬"#SUB".toList <:+: Text.upper t) :
    (∃ e e', split s t = .error e ∧ split s t' = .error e' ∧ e.upper = e'.upper) ∨
      ∃ parts parts', split s t = .ok parts ∧ split s t' = .ok parts' ∧
        List.Forall₂ (Corresponds t t') parts.toList parts'.toList := by
  have small {u : Text} (hu : Text.upper u = Text.upper t) : ¬"#sub".toList <:+: u := by
    intro inside
    rw [← hu] at unmarked
    exact unmarked (inside.map Char.toUpper)
  have detected := StatementType.detect_congr (d := s.dialect) same.symm
  cases hd : StatementType.detect s.dialect t with
  | none =>
      refine .inl ⟨.unrecognized t, .unrecognized t', ?_, ?_, congrArg Error.unrecognized same⟩
      · rw [split, hd]
      · rw [split, detected, hd]
  | some type =>
      cases hp : Pattern.ofType? s.dialect type with
      | none =>
          refine .inl ⟨.unsplittable type.phrase, .unsplittable type.phrase, ?_, ?_, rfl⟩
          · simp only [split, hd, hp]
          · simp only [split, detected, hd, hp]
      | some p =>
          have routes := congrArg (route p.steps) (p.tokens_congr (d := s.dialect) same.symm)
          rw [recases_uppercase.route_map, recases_uppercase.route_map] at routes
          rw [split_eq_route (small rfl) hd hp,
            split_eq_route (small same.symm) (detected.trans hd) hp, Nesting.depth_congr same.symm]
          split
          · cases hr : route p.steps (p.tokens s.dialect t) with
            | none =>
                rw [hr, Option.map_none, Option.map_eq_none_iff] at routes
                rw [routes]
                exact .inl ⟨_, _, rfl, rfl, congrArg (Error.invalidSyntax p.family) same⟩
            | some cs =>
                rw [hr, Option.map_some, Option.map_eq_some_iff] at routes
                obtain ⟨cs', hr', equal⟩ := routes
                rw [hr']
                exact .inr ⟨_, _, rfl, rfl, corresponds_restoredOf p.steps same
                  (Pattern.textOf_start_suffix hr) (Pattern.textOf_start_suffix hr') equal.symm⟩
          · exact .inl ⟨_, _, rfl, rfl, rfl⟩

/-- Neither the keywords, nor those of a hidden query, nor a literal need the same letters. -/
theorem split_caseless_select :
    ∃ parts parts',
      split {} "Select a FROM (select B limit 1) x Where c = 'qF' For update".toList = .ok parts ∧
      split {} "sELECT A from (SELECT b LIMIT 1) X WHERE C = 'Qf' FOR UPDATE".toList = .ok parts' ∧
      List.Forall₂ (Corresponds "Select a FROM (select B limit 1) x Where c = 'qF' For update".toList
        "sELECT A from (SELECT b LIMIT 1) X WHERE C = 'Qf' FOR UPDATE".toList)
        parts.toList parts'.toList := by
  have accepted :
      (split {} "Select a FROM (select B limit 1) x Where c = 'qF' For update".toList).toBool =
        true := by decide +kernel
  have same : Text.upper "Select a FROM (select B limit 1) x Where c = 'qF' For update".toList =
      Text.upper "sELECT A from (SELECT b LIMIT 1) X WHERE C = 'Qf' FOR UPDATE".toList := by decide
  rcases split_caseless (s := {}) same (by decide +kernel) with ⟨e, e', refused, -⟩ | found
  · rw [refused] at accepted
    cases accepted
  · exact found

end SqlStatement
