import SqlStatement.Literal
import SqlStatement.Piece

/-!
# Places in a text

A table list is read from left to right with a look at the character just read,
since a word may only start behind a character that is no part of a word.
-/
namespace SqlStatement

/-- A place in a text: the character in front of it, and the text behind it. -/
structure Place where
  before : Option Char := none
  rest : Text
  deriving DecidableEq, Repr

namespace Place

/-- The place behind some text that has been read; `rest` is what remains. -/
def past (p : Place) (read rest : Text) : Place := ⟨read.getLast?.or p.before, rest⟩

/-- The place behind the characters that satisfy a condition. -/
def skipWhile (p : Place) (cond : Char → Bool) : Place :=
  p.past (p.rest.takeWhile cond) (p.rest.dropWhile cond)

/-- The place behind the blanks here. -/
def skipBlanks (p : Place) : Place := p.skipWhile Text.isBlank

/-- The word characters here. -/
def word (p : Place) : Text := p.rest.takeWhile Text.isWordChar

/-- Whether a word may start here. -/
def atWordStart (p : Place) : Bool := Text.startsWord p.before

/-- The quoted identifier here, and the place behind it. -/
def quoted? (p : Place) (d : Dialect) : Option (Text × Place) :=
  (d.identifierLiteral? p.rest).map fun r => (r.1, p.past r.1 r.2)

/-- The word that starts here, and the place behind it. -/
def word? (p : Place) : Option (Text × Place) :=
  if p.atWordStart && !p.word.isEmpty then some (p.word, p.skipWhile Text.isWordChar) else none

theorem skipWhile_suffix (p : Place) (cond : Char → Bool) : (p.skipWhile cond).rest <:+ p.rest :=
  List.dropWhile_suffix cond

theorem skipBlanks_suffix (p : Place) : p.skipBlanks.rest <:+ p.rest := p.skipWhile_suffix _

theorem quoted?_suffix {p q : Place} {d : Dialect} {t : Text} (h : p.quoted? d = some (t, q)) :
    q.rest <:+ p.rest := by
  obtain ⟨⟨lit, rest⟩, found, made⟩ := Option.map_eq_some_iff.mp h
  cases made
  rw [← Dialect.identifierLiteral?_append found]
  exact List.suffix_append lit rest

theorem word?_suffix {p q : Place} {t : Text} (h : p.word? = some (t, q)) : q.rest <:+ p.rest := by
  rw [word?] at h
  split at h
  · cases h
    exact p.skipWhile_suffix _
  · cases h

theorem length_quoted?_lt {p q : Place} {d : Dialect} {t : Text} (h : p.quoted? d = some (t, q)) :
    q.rest.length < p.rest.length := by
  obtain ⟨⟨lit, rest⟩, hr, he⟩ := Option.map_eq_some_iff.mp h
  cases he
  change rest.length < p.rest.length
  have hs : d.stringLiteral? p.rest = none := by
    match hp : p.rest with
    | [] => rfl
    | c :: cs =>
        rw [hp] at hr
        simp only [Dialect.identifierLiteral?] at hr
        split at hr
        · rename_i hc
          subst hc
          cases d <;> rfl
        · simp at hr
  have hl : d.literal? p.rest = some (lit, rest) := by simp [Dialect.literal?, hs, hr]
  exact Dialect.literal?_length hl

theorem length_word?_lt {p q : Place} {t : Text} (h : p.word? = some (t, q)) :
    q.rest.length < p.rest.length := by
  simp only [word?] at h
  split at h
  · rename_i hc
    cases h
    simp only [skipWhile, past]
    have hw : p.word ≠ [] := by simpa using (Bool.and_eq_true_iff.mp hc).2
    have hl : (p.rest.takeWhile Text.isWordChar ++ p.rest.dropWhile Text.isWordChar).length =
        p.rest.length := by rw [List.takeWhile_append_dropWhile]
    rw [List.length_append] at hl
    have := List.length_pos_iff.mpr hw
    simp only [word] at this
    omega
  · simp at h

end Place
end SqlStatement
