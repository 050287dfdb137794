import SqlStatement.Proofs.Extraction
import SqlStatement.Proofs.Groups
import SqlStatement.Proofs.Lexing

/-!
# Subqueries behind veils

The veil of a text shows every outermost subquery, with its parentheses, as one
literal. Which subqueries a text has can be read off its pieces one by one: a
list of pieces is veiled if its literals are literals or subqueries and every
other parenthesis in front of SELECT is left open. Such a list is the veil of
the text it stands for, so a text that was put together from veiled stretches
has the subqueries of its stretches and no others.
-/
namespace SqlStatement

namespace Text

/-- The first word of a text, behind blanks. -/
def firstWord (t : Text) : Text := (skipBlanks t).takeWhile isWordChar

/-- A text that neither continues a word nor begins with a blank. -/
def Edge (t : Text) : Prop := ∀ c, t.head? = some c → isWordChar c = false ∧ isBlank c = false

theorem edge_cons {c : Char} (t : Text) (hw : isWordChar c = false) (hb : isBlank c = false) :
    Edge (c :: t) := by
  intro c' hc
  cases hc
  exact ⟨hw, hb⟩

theorem takeWhile_append_of_edge {t r : Text} (h : Edge r) :
    (t ++ r).takeWhile isWordChar = t.takeWhile isWordChar := by
  induction t with
  | nil =>
      cases r with
      | nil => rfl
      | cons c r => simp [(h c rfl).1]
  | cons c t ih =>
      rw [List.cons_append, List.takeWhile_cons, List.takeWhile_cons, ih]

theorem firstWord_append {t r : Text} (h : Edge r) : firstWord (t ++ r) = firstWord t := by
  induction t with
  | nil =>
      cases r with
      | nil => rfl
      | cons c r => simp [firstWord, skipBlanks, h c rfl]
  | cons c t ih =>
      by_cases hb : isBlank c = true
      · simpa [firstWord, skipBlanks, hb] using ih
      · rw [firstWord, skipBlanks, List.cons_append, List.dropWhile_cons_of_neg hb,
          ← List.cons_append, takeWhile_append_of_edge h, firstWord, skipBlanks,
          List.dropWhile_cons_of_neg hb]

end Text

namespace Piece

/-- The characters in front of the first literal or unclosed quote. -/
def chars : List Piece → Text
  | char c :: ps => c :: chars ps
  | _ => []

/-- Whether pieces start with the word SELECT, behind blanks. -/
def startsSelect (ps : List Piece) : Bool := Text.isKeyword "SELECT" (Text.firstWord (chars ps))

theorem startsSelect_of_chars {ps qs : List Piece} {r : Text} (h : chars ps = chars qs ++ r)
    (hr : Text.Edge r) : startsSelect ps = startsSelect qs := by
  rw [startsSelect, startsSelect, h, Text.firstWord_append hr]

end Piece

namespace Nesting

theorem chars_pieces_append (n : Nesting) {ps : List Piece} (hp : Text.Edge (Piece.chars ps)) :
    ∃ r, Piece.chars (n.pieces ++ ps) = n.leading ++ r ∧ Text.Edge r := by
  induction n with
  | done => exact ⟨Piece.chars ps, rfl, hp⟩
  | piece p rest ih =>
      cases p with
      | char c =>
          obtain ⟨r, hr, he⟩ := ih
          exact ⟨r, by rw [pieces, List.cons_append, Piece.chars, hr, leading]; rfl, he⟩
      | literal | stray => exact ⟨[], rfl, by simp [Text.Edge]⟩
  | group inner rest =>
      exact ⟨_, rfl, Text.edge_cons _ (by decide) (by decide)⟩

theorem startsSelect_pieces_append (n : Nesting) {ps : List Piece}
    (hp : Text.Edge (Piece.chars ps)) : Piece.startsSelect (n.pieces ++ ps) = n.startsQuery := by
  obtain ⟨r, hr, he⟩ := n.chars_pieces_append hp
  rw [Piece.startsSelect, hr, Text.firstWord_append he]
  rfl

/-- The text of a group. -/
def groupText (inner : Nesting) : Text := '(' :: (inner.text ++ [')'])

/-- The pieces of a nesting with literals in place of its outermost subqueries. -/
def veiled : Nesting → List Piece
  | done => []
  | piece p rest => p :: rest.veiled
  | group inner rest =>
      if inner.startsQuery then .literal inner.groupText :: rest.veiled
      else .char '(' :: (inner.veiled ++ .char ')' :: rest.veiled)

theorem veiled_append (n m : Nesting) : (n.append m).veiled = n.veiled ++ m.veiled := by
  induction n with
  | done => rfl
  | piece p rest ih => rw [append, veiled, ih, veiled, List.cons_append]
  | group inner rest _ ih =>
      rw [append, veiled, ih, veiled]
      split <;> simp

theorem depth_append (n m : Nesting) : (n.append m).depth = max n.depth m.depth := by
  induction n with
  | done => rw [append, depth, Nat.zero_max]
  | piece p rest ih => exact ih
  | group inner rest _ ih =>
      rw [append, depth, ih, depth]
      split <;> omega

theorem chars_veiled_append (n : Nesting) {ps : List Piece} (hp : Text.Edge (Piece.chars ps)) :
    ∃ r, Piece.chars (n.veiled ++ ps) = n.leading ++ r ∧ Text.Edge r := by
  induction n with
  | done => exact ⟨Piece.chars ps, rfl, hp⟩
  | piece p rest ih =>
      cases p with
      | char c =>
          obtain ⟨r, hr, he⟩ := ih
          exact ⟨r, by rw [veiled, List.cons_append, Piece.chars, hr, leading]; rfl, he⟩
      | literal | stray => exact ⟨[], rfl, by simp [Text.Edge]⟩
  | group inner rest =>
      rw [veiled]
      split
      · exact ⟨[], rfl, by simp [Text.Edge]⟩
      · exact ⟨_, rfl, Text.edge_cons _ (by decide) (by decide)⟩

theorem Sound.closes_veiled {n : Nesting} (h : n.Sound) (depth : Nat) (ps : List Piece) :
    Piece.closes depth (n.veiled ++ ps) = Piece.closes depth (n.pieces ++ ps) := by
  induction n generalizing depth ps with
  | done => rfl
  | piece p rest ih =>
      rw [veiled, pieces, List.cons_append, List.cons_append, Piece.closes, Piece.closes]
      split
      · exact ih h.2 _ ps
      · rfl
  | group inner rest ih₁ ih₂ =>
      rw [veiled, pieces, List.cons_append, List.append_assoc, List.cons_append,
        Piece.closes_open, h.1.closes_append, Piece.closes_close_succ]
      split
      · rw [List.cons_append, Piece.closes_cons_of_isOrdinary _ _ rfl, ih₂ h.2]
      · rw [List.cons_append, List.append_assoc, List.cons_append, Piece.closes_open,
          ih₁ h.1.sound, h.1.closes_append, Piece.closes_close_succ, ih₂ h.2]

theorem Sound.closed_of_mem_queries {n content : Nesting} (hn : n.Sound)
    (h : content ∈ n.queries) : content.Closed := by
  induction n with
  | done => simp [queries] at h
  | piece p rest ih => exact ih hn.2 h
  | group inner rest ih₁ ih₂ =>
      rcases mem_queries_group.mp h with ⟨-, rfl⟩ | h | h
      · exact hn.1
      · exact ih₁ hn.1.sound h
      · exact ih₂ hn.2 h

theorem infix_of_mem_queries {n content : Nesting} (h : content ∈ n.queries) :
    content.pieces <:+: n.pieces := by
  induction n with
  | done => simp [queries] at h
  | piece p rest ih => exact (ih h).trans (List.suffix_cons p _).isInfix
  | group inner rest ih₁ ih₂ =>
      have inside : inner.pieces <:+: (group inner rest).pieces :=
        ⟨[.char '('], .char ')' :: rest.pieces, by simp [pieces]⟩
      have behind : rest.pieces <:+: (group inner rest).pieces :=
        ⟨.char '(' :: (inner.pieces ++ [.char ')']), [], by simp [pieces]⟩
      rcases mem_queries_group.mp h with ⟨-, rfl⟩ | h | h
      · exact inside
      · exact (ih₁ h).trans inside
      · exact (ih₂ h).trans behind

end Nesting

variable {d : Dialect}

/-- A text that is one subquery in its parentheses. -/
def IsSubquery (d : Dialect) (t : Text) : Prop :=
  ∃ inner : Nesting, inner.Closed ∧ inner.startsQuery = true ∧
    Nesting.ofText d t = .group inner .done

/-- Pieces that are the veil of a text: literals stand for themselves or for subqueries, and a
parenthesis in front of SELECT is not closed. -/
inductive Veiled (d : Dialect) : List Piece → Prop
  | nil : Veiled d []
  | piece {p : Piece} {ps : List Piece} (hp : p ≠ .char '(')
      (hl : ∀ t, p = .literal t → Piece.ofText d t = [.literal t] ∨ IsSubquery d t)
      (h : Veiled d ps) : Veiled d (p :: ps)
  | paren {ps : List Piece}
      (hc : Piece.startsSelect ps = true → Piece.closes 0 ps = false) (h : Veiled d ps) :
      Veiled d (.char '(' :: ps)

namespace Piece

/-- The pieces that a veiled piece stands for. -/
def unveiled (d : Dialect) : Piece → List Piece
  | literal t => ofText d t
  | p => [p]

/-- The pieces that veiled pieces stand for. -/
def unveil (d : Dialect) (ps : List Piece) : List Piece := ps.flatMap (unveiled d)

@[simp] theorem unveil_nil : unveil d [] = [] := rfl

@[simp] theorem unveil_cons (p : Piece) (ps : List Piece) :
    unveil d (p :: ps) = unveiled d p ++ unveil d ps := rfl

@[simp] theorem unveil_append (ps qs : List Piece) :
    unveil d (ps ++ qs) = unveil d ps ++ unveil d qs := List.flatMap_append

theorem textOf_unveiled (p : Piece) : textOf (unveiled d p) = p.text := by
  cases p with
  | literal t => exact textOf_ofText d t
  | stray | char => exact List.append_nil _

@[simp] theorem textOf_unveil (ps : List Piece) : textOf (unveil d ps) = textOf ps := by
  induction ps with
  | nil => rfl
  | cons p ps ih => rw [unveil_cons, textOf_append, textOf_unveiled, ih, textOf_cons]

theorem ofText_literal_self {lit t : Text} (h : d.literal? (lit ++ t) = some (lit, t)) :
    ofText d lit = [literal lit] := by
  have alone := Dialect.literal?_swap [] h (by simp)
  have := ofText_literal alone
  rwa [List.append_nil, ofText_nil] at this

end Piece

namespace Nesting

theorem Closed.isClosed_of_mem {n : Nesting} (h : n.Closed) {p : Piece} (hp : p ∈ n.pieces) :
    p.isClosed = true := by
  induction n with
  | done => simp [pieces] at hp
  | piece p' rest ih =>
      rcases List.mem_cons.mp hp with rfl | hp
      · cases p with
        | stray q => exact absurd h.1 (by simp [Piece.isOrdinary])
        | literal | char => rfl
      · exact ih h.2 hp
  | group inner rest ih₁ ih₂ =>
      simp only [pieces, List.mem_cons, List.mem_append] at hp
      rcases hp with rfl | hp | rfl | hp
      · rfl
      · exact ih₁ h.1 hp
      · rfl
      · exact ih₂ h.2 hp

/-- A closed group in a text is the whole nesting of its own text. -/
theorem Closed.ofText_groupText {inner : Nesting} (h : inner.Closed) {ps : List Piece}
    (hl : Piece.Lexed d (.char '(' :: (inner.pieces ++ .char ')' :: ps))) :
    Piece.ofText d inner.groupText = (group inner done).pieces ∧
      Nesting.ofText d inner.groupText = group inner done := by
  have closed : (group inner done).Closed := ⟨h, trivial⟩
  have lexed : Piece.Lexed d (group inner done).pieces := by
    have whole : Piece.Lexed d ((group inner done).pieces ++ ps) := by simpa [pieces] using hl
    exact whole.left (.inl fun p hp => closed.isClosed_of_mem hp)
  have text : Piece.textOf (group inner done).pieces = inner.groupText := by
    simp [pieces, groupText, text, Piece.text]
  have pieces := lexed.ofText_textOf
  rw [text] at pieces
  exact ⟨pieces, by rw [Nesting.ofText, pieces, closed.ofPieces_pieces]⟩

/-- A veil stands for the pieces it was made from. -/
theorem unveil_veiled_append {n : Nesting} (h : n.Sound) {ps : List Piece}
    (hl : Piece.Lexed d (n.pieces ++ ps)) : Piece.unveil d n.veiled = n.pieces := by
  induction n generalizing ps with
  | done => rfl
  | piece p rest ih =>
      rw [pieces, List.cons_append] at hl
      rw [veiled, pieces, Piece.unveil_cons, ih h.2 hl.of_cons]
      cases hl with
      | char | stray => rfl
      | literal hl => rw [Piece.unveiled, Piece.ofText_literal_self hl]; rfl
  | group inner rest ih₁ ih₂ =>
      rw [pieces, List.cons_append, List.append_assoc, List.cons_append] at hl
      have rest := ih₂ h.2 hl.of_cons.right.of_cons
      rw [veiled]
      split
      · rw [Piece.unveil_cons, rest, Piece.unveiled, (h.1.ofText_groupText hl).1]
        simp [pieces]
      · rw [Piece.unveil_cons, Piece.unveil_append, Piece.unveil_cons, rest,
          ih₁ h.1.sound hl.of_cons]
        rfl

theorem veiled_literal {t : Text} {ps : List Piece} (hl : Piece.Lexed d (.literal t :: ps)) :
    Piece.ofText d t = [.literal t] ∨ IsSubquery d t := by
  cases hl with
  | literal hl => exact .inl (Piece.ofText_literal_self hl)

/-- Closed nestings are veiled whatever veiled pieces follow. -/
theorem Closed.veiled_append {n : Nesting} (h : n.Closed) {ps qs : List Piece}
    (hl : Piece.Lexed d (n.pieces ++ qs)) (hp : Veiled d ps) : Veiled d (n.veiled ++ ps) := by
  induction n generalizing ps qs with
  | done => exact hp
  | piece p rest ih =>
      rw [pieces, List.cons_append] at hl
      rw [veiled, List.cons_append]
      refine .piece ?_ ?_ (ih h.2 hl.of_cons hp)
      · rintro rfl
        exact absurd h.1 (by decide)
      · rintro t rfl
        exact veiled_literal hl
  | group inner outer ih₁ ih₂ =>
      rw [pieces, List.cons_append, List.append_assoc, List.cons_append] at hl
      have rest := ih₂ h.2 hl.of_cons.right.of_cons hp
      rw [veiled]
      split
      · rename_i hq
        refine .piece (by simp) ?_ rest
        intro t ht
        cases ht
        exact .inr ⟨inner, h.1, hq, (h.1.ofText_groupText hl).2⟩
      · rename_i hq
        rw [List.cons_append, List.append_assoc, List.cons_append]
        refine .paren ?_ (ih₁ h.1 hl.of_cons (.piece (by simp) (by simp) rest))
        intro hs
        have edge : Text.Edge (Piece.chars (.char ')' :: (outer.veiled ++ ps))) :=
          Text.edge_cons _ (by decide) (by decide)
        obtain ⟨r, hr, he⟩ := inner.chars_veiled_append edge
        rw [Piece.startsSelect, hr, Text.firstWord_append he] at hs
        exact absurd hs hq

/-- The veil of a text is veiled. -/
theorem Sound.veiled {n : Nesting} (h : n.Sound) (hl : Piece.Lexed d n.pieces) :
    Veiled d n.veiled := by
  induction n with
  | done => exact .nil
  | piece p rest ih =>
      have rest := ih h.2 hl.of_cons
      rw [Nesting.veiled]
      by_cases hp : p = .char '('
      · subst hp
        refine .paren (fun _ => ?_) rest
        have := h.2.closes_veiled 0 []
        rw [List.append_nil, List.append_nil] at this
        rw [this]
        exact h.1 rfl
      · refine .piece hp ?_ rest
        rintro t rfl
        exact veiled_literal hl
  | group inner rest _ ih₂ =>
      have rest := ih₂ h.2 hl.of_cons.right.of_cons
      have closed : (group inner done).Closed := ⟨h.1, trivial⟩
      have whole := closed.veiled_append (by simpa [pieces] using hl) rest
      rw [← Nesting.veiled_append] at whole
      exact whole

end Nesting

namespace Veiled
variable {ps : List Piece}

/-- How many levels of subqueries are behind veils. -/
def levels (d : Dialect) : List Piece → Nat
  | [] => 0
  | .literal t :: ps => max (Nesting.ofText d t).depth (levels d ps)
  | _ :: ps => levels d ps

theorem chars_unveil (h : Veiled d ps) :
    ∃ r, Piece.chars (Piece.unveil d ps) = Piece.chars ps ++ r ∧ Text.Edge r := by
  have word {c : Char} {ps : List Piece}
      (ih : ∃ r, Piece.chars (Piece.unveil d ps) = Piece.chars ps ++ r ∧ Text.Edge r) :
      ∃ r, Piece.chars (Piece.unveil d (.char c :: ps)) = Piece.chars (.char c :: ps) ++ r ∧
        Text.Edge r := by
    obtain ⟨r, hr, he⟩ := ih
    refine ⟨r, ?_, he⟩
    change Piece.chars (.char c :: Piece.unveil d ps) = _
    rw [Piece.chars, hr, Piece.chars, List.cons_append]
  induction h with
  | nil => exact ⟨[], rfl, by simp [Text.Edge]⟩
  | @piece p ps _ hl _ ih =>
      cases p with
      | char c => exact word ih
      | stray q => exact ⟨[], rfl, by simp [Text.Edge]⟩
      | literal t =>
          rcases hl t rfl with ht | ⟨inner, -, -, ht⟩
          · exact ⟨[], by rw [Piece.unveil_cons, Piece.unveiled, ht]; rfl, by simp [Text.Edge]⟩
          · have pieces : Piece.ofText d t = (Nesting.group inner .done).pieces := by
              rw [← ht, Nesting.ofText, Nesting.pieces_ofPieces]
            refine ⟨_, by rw [Piece.unveil_cons, Piece.unveiled, pieces]; rfl, ?_⟩
            exact Text.edge_cons _ (by decide) (by decide)
  | paren _ _ ih => exact word ih

theorem startsSelect_unveil (h : Veiled d ps) :
    Piece.startsSelect (Piece.unveil d ps) = Piece.startsSelect ps := by
  obtain ⟨r, hr, he⟩ := h.chars_unveil
  exact Piece.startsSelect_of_chars hr he

/-- A nesting together with what is read behind it shows the veiled pieces, and has a nesting
further out for every group that they close. -/
structure Shows (d : Dialect) (ps : List Piece) (state : Nesting × List Nesting) : Prop where
  pieces : (Nesting.flatten state.1 state.2).pieces = Piece.unveil d ps
  veiled : (Nesting.flatten state.1 state.2).veiled = ps
  depth : (Nesting.flatten state.1 state.2).depth = levels d ps
  closes : ∀ k, Piece.closes k ps = decide (k < state.2.length)

theorem flatten_piece (p : Piece) (current : Nesting) (outers : List Nesting) :
    Nesting.flatten (.piece p current) outers = .piece p (Nesting.flatten current outers) := by
  cases outers <;> rfl

theorem flatten_group (inner rest : Nesting) (outers : List Nesting) :
    Nesting.flatten (.group inner rest) outers = .group inner (Nesting.flatten rest outers) := by
  cases outers <;> rfl

/-- A piece that opens and closes nothing is shown as it is. -/
theorem Shows.piece {state : Nesting × List Nesting} {p : Piece} (h : Shows d ps state)
    (ho : p.isOrdinary = true) (hl : ∀ t, p = .literal t → Piece.ofText d t = [.literal t]) :
    Shows d (p :: ps) ((Piece.unveiled d p).foldr Nesting.push state) := by
  obtain ⟨current, outers⟩ := state
  have self : Piece.unveiled d p = [p] := by
    cases p with
    | literal t => exact hl t rfl
    | stray | char => rfl
  have same : levels d (p :: ps) = levels d ps := by
    cases p with
    | literal t =>
        rw [levels, Nesting.ofText, hl t rfl]
        exact Nat.zero_max _
    | stray | char => rfl
  rw [self, List.foldr_cons, List.foldr_nil, Nesting.push_of_isOrdinary ho]
  refine ⟨?_, ?_, ?_, ?_⟩
  · rw [flatten_piece, Nesting.pieces, h.pieces, Piece.unveil_cons, self]
    rfl
  · rw [flatten_piece, Nesting.veiled, h.veiled]
  · rw [flatten_piece, same, ← h.depth]
    rfl
  · intro k
    rw [Piece.closes_cons_of_isOrdinary _ _ ho]
    exact h.closes k

theorem Shows.stray {state : Nesting × List Nesting} (q : Char) (h : Shows d ps state) :
    Shows d (.stray q :: ps) (Nesting.push (.stray q) state) := by
  refine ⟨?_, ?_, ?_, ?_⟩
  · rw [Nesting.push, Nesting.flatten, Nesting.pieces, h.pieces]
    rfl
  · rw [Nesting.push, Nesting.flatten, Nesting.veiled, h.veiled]
  · exact h.depth
  · intro k
    rw [Piece.closes_stray]
    rfl

theorem Shows.close {state : Nesting × List Nesting} (h : Shows d ps state) :
    Shows d (.char ')' :: ps) (Nesting.push (.char ')') state) := by
  have shape : Nesting.push (.char ')') state = (.done, state.1 :: state.2) := rfl
  have flat : Nesting.flatten .done (state.1 :: state.2) =
      .piece (.char ')') (Nesting.flatten state.1 state.2) := rfl
  rw [shape]
  refine ⟨?_, ?_, ?_, ?_⟩
  · rw [flat, Nesting.pieces, h.pieces]
    rfl
  · rw [flat, Nesting.veiled, h.veiled]
  · exact h.depth
  · intro k
    cases k with
    | zero => rfl
    | succ k =>
        rw [Piece.closes_close_succ, h.closes k]
        simp

/-- A parenthesis is shown as it is unless the group it opens is a subquery. -/
theorem Shows.open {state : Nesting × List Nesting} (h : Shows d ps state) (hv : Veiled d ps)
    (hc : Piece.startsSelect ps = true → Piece.closes 0 ps = false) :
    Shows d (.char '(' :: ps) (Nesting.push (.char '(') state) := by
  obtain ⟨current, outers⟩ := state
  cases outers with
  | nil =>
      refine ⟨?_, ?_, ?_, ?_⟩
      · exact congrArg (.char '(' :: ·) h.pieces
      · exact congrArg (.char '(' :: ·) h.veiled
      · exact h.depth
      · intro k
        rw [Piece.closes_open, h.closes]
        simp [Nesting.push]
  | cons outer outers =>
      have shape : Nesting.push (.char '(') (current, outer :: outers) =
          (.group current outer, outers) := rfl
      have pieces := h.pieces
      have veiled := h.veiled
      have depth := h.depth
      simp only [Nesting.flatten] at pieces veiled depth
      rw [Nesting.pieces_append, Nesting.pieces] at pieces
      rw [Nesting.veiled_append, Nesting.veiled] at veiled
      rw [Nesting.depth_append, Nesting.depth] at depth
      have plain : ¬current.startsQuery = true := by
        intro hq
        have edge : Text.Edge (Piece.chars (.char ')' :: (Nesting.flatten outer outers).pieces)) :=
          Text.edge_cons _ (by decide) (by decide)
        have first := current.startsSelect_pieces_append edge
        rw [pieces, hv.startsSelect_unveil, hq] at first
        have := h.closes 0
        rw [hc first] at this
        simp at this
      rw [shape]
      refine ⟨?_, ?_, ?_, ?_⟩
      · rw [flatten_group, Nesting.pieces, pieces]
        rfl
      · rw [flatten_group, Nesting.veiled, if_neg plain, veiled]
      · rw [flatten_group, Nesting.depth, if_neg plain, depth]
        rfl
      · intro k
        rw [Piece.closes_open, h.closes]
        simp

theorem Shows.subquery {state : Nesting × List Nesting} {t : Text} (h : Shows d ps state)
    (ht : IsSubquery d t) :
    Shows d (.literal t :: ps) ((Piece.unveiled d (.literal t)).foldr Nesting.push state) := by
  obtain ⟨current, outers⟩ := state
  obtain ⟨inner, hi, hq, he⟩ := ht
  have closed : (Nesting.group inner .done).Closed := ⟨hi, trivial⟩
  have pieces : Piece.ofText d t = (Nesting.group inner .done).pieces := by
    rw [← he, Nesting.ofText, Nesting.pieces_ofPieces]
  have text : inner.groupText = t := by
    have := Nesting.text_ofText d t
    rw [he] at this
    rw [← this]
    simp [Nesting.groupText, Nesting.text, Nesting.pieces, Piece.text]
  rw [Piece.unveiled, pieces, closed.foldr_push]
  change Shows d _ (Nesting.group inner current, outers)
  refine ⟨?_, ?_, ?_, ?_⟩
  · rw [flatten_group, Nesting.pieces, h.pieces, Piece.unveil_cons, Piece.unveiled, pieces]
    simp [Nesting.pieces]
  · rw [flatten_group, Nesting.veiled, if_pos hq, h.veiled, text]
  · rw [flatten_group, Nesting.depth, if_pos hq, h.depth, levels, he, Nesting.depth, if_pos hq]
    simp [Nesting.depth]
  · intro k
    rw [Piece.closes_cons_of_isOrdinary _ _ rfl]
    exact h.closes k

theorem shows (h : Veiled d ps) :
    Shows d ps ((Piece.unveil d ps).foldr Nesting.push (.done, [])) := by
  induction h with
  | nil => exact ⟨rfl, rfl, rfl, fun k => rfl⟩
  | @piece p ps hp hl _ ih =>
      rw [Piece.unveil_cons, List.foldr_append]
      cases p with
      | literal t =>
          rcases hl t rfl with ht | ht
          · refine ih.piece rfl fun t' h' => ?_
            cases h'
            exact ht
          · exact ih.subquery ht
      | stray q => exact ih.stray q
      | char c =>
          by_cases hc : c = ')'
          · subst hc
            exact ih.close
          · refine ih.piece ?_ (by simp)
            have : c ≠ '(' := fun he => hp (by rw [he])
            simp [Piece.isOrdinary, hc, this]
  | paren hc hv ih => exact ih.open hv hc

/-- Veiled pieces are the veil of the text they stand for. -/
theorem veiled_ofPieces (h : Veiled d ps) :
    (Nesting.ofPieces (Piece.unveil d ps)).veiled = ps ∧
      (Nesting.ofPieces (Piece.unveil d ps)).depth = levels d ps :=
  ⟨h.shows.veiled, h.shows.depth⟩

end Veiled
end SqlStatement
