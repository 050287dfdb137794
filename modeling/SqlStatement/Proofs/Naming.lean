import SqlStatement.Proofs.Assigning
import SqlStatement.Proofs.Bounding
import SqlStatement.Proofs.Requoting

/-!
# Words as names of tables

A word that is quoted becomes a name in identifier quotes, or it is left as it
stands because it is a keyword of expressions or a number; join syntax is
neither. In front of a blank both are read back as they were written, and with
the quotes taken off they have the word as their key.
-/
namespace SqlStatement
variable {d : Dialect}

namespace Place
variable {cond : Char → Bool} {c : Char} {t w : Text}

/-- Characters are skipped up to the first that does not satisfy the condition. -/
theorem skipWhile_append (before : Option Char) (hw : ∀ c ∈ w, cond c = true)
    (ht : ∀ c ∈ t.head?, cond c = false) :
    skipWhile ⟨before, w ++ t⟩ cond = ⟨w.getLast?.or before, t⟩ := by
  obtain ⟨front, behind⟩ := Text.takeWhile_dropWhile_append hw ht
  simp [skipWhile, past, front, behind]

/-- One blank is skipped in front of anything else. -/
theorem skipBlanks_space (before : Option Char) (ht : ∀ c ∈ t.head?, Text.isBlank c = false) :
    skipBlanks ⟨before, ' ' :: t⟩ = ⟨some ' ', t⟩ :=
  skipWhile_append (w := [' ']) before (by simp; decide) ht

end Place

/-- A word: word characters and nothing else. -/
def Text.IsWord (w : Text) : Prop := w ≠ [] ∧ ∀ c ∈ w, isWordChar c = true

instance (w : Text) : Decidable w.IsWord :=
  decidable_of_iff (w ≠ [] ∧ w.all Text.isWordChar = true) (by rw [Text.IsWord, List.all_eq_true])

theorem Place.word_append {w : Text} (hw : w.IsWord) (before : Option Char) (t : Text) :
    Place.word ⟨before, w ++ ' ' :: t⟩ = w :=
  (Text.takeWhile_dropWhile_append hw.2 (by simp; decide)).1

theorem Text.isBlank_head?_append {t : Text} (some : t ≠ []) (ht : ∀ c ∈ t, isWhite c = false)
    (u : Text) : ∀ c ∈ (t ++ u).head?, isBlank c = false := by
  obtain ⟨c, t, rfl⟩ := List.exists_cons_of_ne_nil some
  rintro c ⟨⟩
  exact isBlank_of_not_isWhite (ht c List.mem_cons_self)

theorem Text.IsWord.isBlank_head?_append {w : Text} (hw : w.IsWord) (t : Text) :
    ∀ c ∈ (w ++ t).head?, isBlank c = false :=
  Text.isBlank_head?_append hw.1 (fun c hc => isWhite_of_isWordChar (hw.2 c hc)) t

/-- Nothing more, or a blank first. -/
def Text.IsParted (t : Text) : Prop := ∀ c ∈ t.head?, isBlank c = true

namespace Dialect
variable {w t : Text}

/-- A word is written as it stands if it is a keyword of expressions or no name. -/
theorem quoteWords_word (hw : w.IsWord) :
    d.quoteWords w =
      if Text.isAnyKeyword d.expressionKeywords w then w else d.quoteRun none w := by
  have run : d.IsRun w := ⟨hw.1, fun c hc => inRun_of_isWordChar (hw.2 c hc)⟩
  have lexed : Piece.Lexed d (w.map .char ++ []) :=
    .map_char (fun c hc => isQuote_of_isWordChar (hw.2 c hc)) .nil
  have pieces : Piece.ofText d w = w.map .char ++ [] := by
    rw [← lexed.ofText_textOf]
    simp
  have chunks : Chunk.ofText d w = [.run w] := by
    have alone : ∀ c ∈ (Chunk.ofPieces []).head?, c.isRun = false := by simp [Chunk.ofPieces]
    rw [Chunk.ofText, pieces]
    exact Chunk.ofPieces_run run alone
  simp [quoteWords, chunks, quoteChunks, Chunk.endsHere]

/-- A word with a letter in front, such as a keyword, is a name. -/
theorem isName_of_isAnyKeyword {ks : List String} (h : Text.isAnyKeyword ks w = true)
    (hk : ∀ k ∈ ks, k.toList.head?.any Char.isAlpha = true) :
    d.isName w = true ∧ d.hasName none w = true := by
  obtain ⟨k, hm, hw⟩ := List.any_eq_true.mp h
  have first := hk k hm
  rw [Text.isKeyword, beq_iff_eq] at hw
  rw [← hw, Text.upper, List.head?_map, Option.any_map] at first
  cases w with
  | nil => cases first
  | cons c w =>
      have alpha : c.isAlpha = true := by simpa [Text.isAlpha_toUpper] using first
      cases d <;> simp [isName, hasName, Text.isNameStart, alpha, Text.startsWord]

/-- A word that is written as it stands is neither ON nor join syntax. -/
theorem quoteWords_cases (hw : w.IsWord) :
    d.quoteWords w = d.quoteName w ∨
      d.quoteWords w = w ∧ Text.isAnyKeyword ("ON" :: d.joinWords) w = false := by
  rw [quoteWords_word hw, quoteRun]
  split
  · rename_i kept
    exact .inr ⟨rfl, Text.isAnyKeyword_of_disjoint kept (by cases d <;> decide)⟩
  · split
    · exact .inl rfl
    · rename_i unnamed
      refine .inr ⟨rfl, ?_⟩
      by_contra syntactic
      rw [Bool.not_eq_false] at syntactic
      exact unnamed (isName_of_isAnyKeyword syntactic (by cases d <;> decide)).2

theorem isWordChar_identifierQuote (d : Dialect) :
    Text.isWordChar d.identifierQuote = false := by
  cases d <;> decide

theorem ne_identifierQuote_of_isWord (hw : w.IsWord) : ∀ c ∈ w, c ≠ d.identifierQuote := by
  rintro c hc rfl
  exact absurd (hw.2 _ hc) (by simp [isWordChar_identifierQuote])

theorem identifierLiteral?_word (hw : w.IsWord) (t : Text) :
    d.identifierLiteral? (w ++ t) = none := by
  obtain ⟨c, w, rfl⟩ := List.exists_cons_of_ne_nil hw.1
  simp [identifierLiteral?, ne_identifierQuote_of_isWord (d := d) hw c (by simp)]

/-- What is written for a word has word characters and quotes only. -/
theorem mem_quoteWords (hw : w.IsWord) : d.quoteWords w ≠ [] ∧ ∀ c ∈ d.quoteWords w,
    Text.isWhite c = false ∧ c ≠ ',' ∧ c ≠ '(' := by
  have word {c : Char} (hc : Text.isWordChar c = true) :
      Text.isWhite c = false ∧ c ≠ ',' ∧ c ≠ '(' := by
    refine ⟨Text.isWhite_of_isWordChar hc, ?_, ?_⟩ <;> rintro rfl <;> exact absurd hc (by decide)
  have quote : Text.isWhite d.identifierQuote = false ∧ d.identifierQuote ≠ ',' ∧
      d.identifierQuote ≠ '(' := by
    cases d <;> decide
  rcases quoteWords_cases (d := d) hw with quoted | ⟨bare, -⟩
  · rw [quoted, quoteName]
    refine ⟨by simp, List.forall_mem_cons.mpr ⟨quote, List.forall_mem_append.mpr ⟨?_, ?_⟩⟩⟩
    · exact fun c hc => word (hw.2 c hc)
    · exact List.forall_mem_singleton.mpr quote
  · rw [bare]
    exact ⟨hw.1, fun c hc => word (hw.2 c hc)⟩

/-- A name is an identifier, in quotes or not; a word that is none is written as it stands. -/
theorem isIdentifier_quoteWords (hw : w.IsWord) :
    d.isIdentifier (d.quoteWords w) = true ∨ d.quoteWords w = w ∧ d.isName w = false := by
  obtain ⟨-, plain⟩ := mem_quoteWords (d := d) hw
  have trimmed : Text.trim (d.quoteWords w) = d.quoteWords w :=
    Text.trimWhere_of_ends (fun c hc => (plain c (List.mem_of_mem_head? hc)).1)
      fun c hc => (plain c (List.mem_of_mem_getLast? hc)).1
  have one {t : Text} (h : d.segment? t = some (t, [])) : d.identifier? t = some (t, []) := by
    simp [identifier?, h, furtherSegments]
  rcases quoteWords_cases (d := d) hw with quoted | ⟨bare, -⟩
  · have literal := identifierLiteral?_quoteName (ne_identifierQuote_of_isWord (d := d) hw) []
    rw [List.append_nil] at literal
    rw [isIdentifier, trimmed, quoted, one (by simp [segment?, literal])]
    exact .inl rfl
  · cases name : d.isName w with
    | false => exact .inr ⟨bare, rfl⟩
    | true =>
        obtain ⟨front, behind⟩ := Text.takeWhile_dropWhile_append (u := []) hw.2 (by simp)
        rw [List.append_nil] at front behind
        have literal := identifierLiteral?_word (d := d) hw []
        rw [List.append_nil] at literal
        rw [isIdentifier, trimmed, bare, one (by simp [segment?, literal, front, behind, name])]
        exact .inl rfl

/-- The word of a quoted name is empty. -/
theorem word_quoteName (before : Option Char) (t : Text) :
    Place.word ⟨before, d.quoteName w ++ t⟩ = [] :=
  List.takeWhile_cons_of_neg (by simp [isWordChar_identifierQuote])

end Dialect

theorem Text.IsParted.isWordChar {t : Text} (h : t.IsParted) :
    ∀ c ∈ t.head?, Text.isWordChar c = false :=
  fun c hc => isWordChar_of_isBlank (h c hc)

namespace TableRef
variable {w t : Text}

theorem passWord_of_not {words : List String} {p : Place}
    (h : Text.isAnyKeyword words p.word = false) : passWord words p = p := by
  simp [passWord, h]

/-- A word that is no join syntax begins no join. -/
theorem behindJoin?_eq_none {p : Place} (h : Text.isAnyKeyword d.joinWords p.word = false) :
    behindJoin? d p = none := by
  have other (words : List String) (hs : words ⊆ d.joinWords) :
      Text.isAnyKeyword words p.word = false := by
    by_contra keyword
    rw [Text.isAnyKeyword_mono (by simpa using keyword) hs] at h
    cases h
  simp [behindJoin?, passWord_of_not (other ["NATURAL"] (by cases d <;> decide)),
    passWord_of_not (other ["LEFT", "RIGHT"] (by cases d <;> decide)),
    passWord_of_not (other ["INNER", "CROSS", "OUTER"] (by cases d <;> decide)),
    other d.joinHeads (by cases d <;> decide)]

theorem passSeparator_of_not {p : Place} (comma : p.rest.head? ≠ some ',')
    (h : Text.isAnyKeyword d.joinWords p.word = false) : passSeparator d p = p := by
  rw [passSeparator]
  split
  · rename_i rest hr
    exact absurd (by rw [hr]; rfl) comma
  · simp [behindJoin?_eq_none h]

/-- A word is read back as it was written, with its quotes if it has got some. -/
theorem name?_quoteWords (hw : w.IsWord) {before : Option Char}
    (start : Text.startsWord before = true) (ht : t.IsParted) :
    name? d ⟨before, d.quoteWords w ++ t⟩ =
      some (d.quoteWords w, ⟨(d.quoteWords w).getLast?, t⟩) := by
  have place {u : Text} (hu : u ≠ []) : Place.past ⟨before, u ++ t⟩ u t = ⟨u.getLast?, t⟩ := by
    rw [Place.past, List.getLast?_eq_some_getLast hu, Option.some_or]
  rcases Dialect.quoteWords_cases (d := d) hw with quoted | ⟨bare, -⟩
  · have literal : Place.quoted? ⟨before, d.quoteName w ++ t⟩ d =
        some (d.quoteName w, ⟨(d.quoteName w).getLast?, t⟩) := by
      rw [Place.quoted?, Dialect.identifierLiteral?_quoteName
        (Dialect.ne_identifierQuote_of_isWord hw), Option.map_some,
        place (by simp [Dialect.quoteName])]
    have long : 2 < (d.quoteName w).length := by
      have := List.length_pos_iff.mpr hw.1
      simp only [Dialect.quoteName, List.length_cons, List.length_append, List.length_nil]
      omega
    simp only [name?, quoted, literal, if_pos long]
  · obtain ⟨front, behind⟩ := Text.takeWhile_dropWhile_append hw.2 ht.isWordChar
    have literal : Place.quoted? ⟨before, w ++ t⟩ d = none := by
      simp [Place.quoted?, Dialect.identifierLiteral?_word hw]
    have word : Place.word? ⟨before, w ++ t⟩ = some (w, ⟨w.getLast?, t⟩) := by
      simp [Place.word?, Place.atWordStart, start, Place.word, front, Place.skipWhile, behind, hw.1,
        place hw.1]
    simp only [name?, bare, literal, word]

/-- A table with its name and nothing else. -/
def named (t : Text) : TableRef := { reference := t, name := t }

theorem table?_quoteWords (hw : w.IsWord) {before : Option Char}
    (start : Text.startsWord before = true) (ht : t.IsParted) :
    table? d ⟨before, d.quoteWords w ++ t⟩ =
      some (named (d.quoteWords w), ⟨(d.quoteWords w).getLast?, t⟩) := by
  have name := name?_quoteWords (d := d) hw start ht
  have path : named? d ⟨before, d.quoteWords w ++ t⟩ =
      some (named (d.quoteWords w), ⟨(d.quoteWords w).getLast?, t⟩) := by
    rw [named?]
    simp only [name]
    split
    · cases ht '.' rfl
    · rfl
  obtain ⟨some, plain⟩ := Dialect.mem_quoteWords (d := d) hw
  rw [table?]
  split
  · rename_i rest h
    obtain ⟨c, u, hc⟩ := List.exists_cons_of_ne_nil some
    have first := (plain c (by simp [hc])).2.2
    rw [hc] at h
    cases h
    exact absurd rfl first
  · exact path

/-- The key of a word is the word. -/
theorem key_quoteWords (hw : w.IsWord) : key d (named (d.quoteWords w)) = w := by
  have free : ∀ c ∈ w, (c == ' ' || c == d.identifierQuote) = false := by
    intro c hc
    have blank : c ≠ ' ' := by
      rintro rfl
      exact absurd (hw.2 _ hc) (by decide)
    simp [blank, Dialect.ne_identifierQuote_of_isWord hw c hc]
  change Text.trimWhere _ (d.quoteWords w) = w
  rcases Dialect.quoteWords_cases (d := d) hw with quoted | ⟨bare, -⟩
  · rw [quoted, Dialect.quoteName]
    exact Text.trimWhere_enclosed (by simp) (by simp)
      (fun c hc => free c (List.mem_of_mem_head? hc))
      fun c hc => free c (List.mem_of_mem_getLast? hc)
  · rw [bare]
    exact Text.trimWhere_of_ends (fun c hc => free c (List.mem_of_mem_head? hc))
      fun c hc => free c (List.mem_of_mem_getLast? hc)

theorem passSeparator_quoteWords (hw : w.IsWord) (before : Option Char) (ht : t.IsParted) :
    passSeparator d ⟨before, d.quoteWords w ++ t⟩ = ⟨before, d.quoteWords w ++ t⟩ := by
  obtain ⟨some, plain⟩ := Dialect.mem_quoteWords (d := d) hw
  refine passSeparator_of_not ?_ ?_
  · obtain ⟨c, u, hc⟩ := List.exists_cons_of_ne_nil some
    have first := (plain c (by simp [hc])).2.1
    simpa [hc] using first
  · rcases Dialect.quoteWords_cases (d := d) hw with quoted | ⟨bare, other⟩
    · rw [quoted, Dialect.word_quoteName]
      cases d <;> decide
    · rw [bare, Place.word, (Text.takeWhile_dropWhile_append hw.2 ht.isWordChar).1]
      by_contra keyword
      rw [Text.isAnyKeyword_mono (by simpa using keyword) (List.subset_cons_self _ _)] at other
      cases other

/-- A group of tables, or a subquery. -/
def grouped (t : Text) : TableRef :=
  { reference := Addition.parenthesize t, name := Addition.parenthesize t, group := some t }

theorem table?_parenthesize (h : d.isBalanced t = true) (before : Option Char) (u : Text) :
    table? d (passSeparator d ⟨before, Addition.parenthesize t ++ u⟩) =
      some (grouped t, ⟨some ')', u⟩) := by
  have stay : passSeparator d ⟨before, Addition.parenthesize t ++ u⟩ =
      ⟨before, Addition.parenthesize t ++ u⟩ := by
    refine passSeparator_of_not (by simp [Addition.parenthesize]) ?_
    have word : Place.word ⟨before, Addition.parenthesize t ++ u⟩ = [] :=
      List.takeWhile_cons_of_neg (by decide)
    rw [word]
    cases d <;> decide
  have group := Dialect.group?_parenthesize h u
  have last : ('(' :: (t ++ [')'])).getLast? = some ')' := by
    rw [← List.cons_append, List.getLast?_concat]
  rw [stay, table?]
  split
  · simp only [group, Place.past, last, Option.some_or]
    rfl
  · rename_i other
    exact absurd rfl (other _)

end TableRef
end SqlStatement
