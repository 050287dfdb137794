import SqlStatement.Proofs.Grouping
import SqlStatement.Proofs.Splitting

/-!
# The first word of a statement

The type of a statement is read off its tokens, and whether a group is a
subquery is read off its characters. Both look at the first word behind blanks,
and this is the same word: neither literals nor groups begin inside it.
-/
namespace SqlStatement

namespace Token

/-- The word that tokens start with, empty if they start with none. -/
def leadWord : List Token → Text
  | word w :: _ => w
  | _ => []

theorem exists_eq_word {ts : List Token} (h : leadWord ts ≠ []) :
    ∃ us, ts = word (leadWord ts) :: us := by
  match ts with
  | word w :: us => exact ⟨us, rfl⟩
  | [] | space _ :: _ | quoted _ :: _ | symbol _ :: _ | unterminated _ :: _ => exact absurd rfl h

theorem skipSpace_attach {c : Char} (ts : List Token) (hc : Text.isBlank c = true) :
    skipSpace (attach (.char c) ts) = skipSpace ts := by
  match ts with
  | [] =>
      rw [attach_space hc (by simp)]
      rfl
  | space b :: us =>
      rw [attach_space_space b us hc]
      rfl
  | word _ :: _ | quoted _ :: _ | symbol _ :: _ | unterminated _ :: _ =>
      rw [attach_space hc (by simp [isSpace])]
      rfl

theorem attach_eq_word {c : Char} (ts : List Token) (hc : Text.isWordChar c = true) :
    attach (.char c) ts = word (c :: leadWord ts) :: (attach (.char c) ts).tail := by
  match ts with
  | word w :: us =>
      rw [attach_word_word w us hc]
      rfl
  | [] | space _ :: _ | quoted _ :: _ | symbol _ :: _ | unterminated _ :: _ =>
      rw [attach_word hc (by simp [isWord])]
      rfl

/-- Word characters go on to the end of the first token. -/
theorem leadWord_ofPieces (ps : List Piece) :
    leadWord (ofPieces ps) = (Piece.chars ps).takeWhile Text.isWordChar := by
  induction ps with
  | nil => rfl
  | cons p ps ih =>
      rw [ofPieces_cons]
      cases p with
      | literal | stray => rfl
      | char c =>
          rw [Piece.chars]
          by_cases hw : Text.isWordChar c = true
          · rw [attach_eq_word _ hw, List.takeWhile_cons_of_pos hw, ← ih]
            rfl
          · rw [List.takeWhile_cons_of_neg hw]
            by_cases hb : Text.isBlank c = true
            · cases ofPieces ps with
              | nil =>
                  rw [attach_space hb (by simp)]
                  rfl
              | cons t us =>
                  cases t with
                  | space b =>
                      rw [attach_space_space b us hb]
                      rfl
                  | word | quoted | symbol | unterminated =>
                      rw [attach_space hb (by simp [isSpace])]
                      rfl
            · rw [attach_symbol _ (by simpa using hw) (by simpa using hb)]
              rfl

/-- The first word of a text is its first token behind blanks. -/
theorem leadWord_skipSpace (ps : List Piece) :
    leadWord (skipSpace (ofPieces ps)) = Text.firstWord (Piece.chars ps) := by
  induction ps with
  | nil => rfl
  | cons p ps ih =>
      cases p with
      | literal | stray => rfl
      | char c =>
          by_cases hb : Text.isBlank c = true
          · have same : Text.firstWord (Piece.chars (.char c :: ps)) =
                Text.firstWord (Piece.chars ps) := by
              simp [Piece.chars, Text.firstWord, Text.skipBlanks, hb]
            rw [same, ofPieces_cons, skipSpace_attach _ hb, ih]
          · have first : Text.firstWord (Piece.chars (.char c :: ps)) =
                (Piece.chars (.char c :: ps)).takeWhile Text.isWordChar := by
              rw [Piece.chars, Text.firstWord, Text.skipBlanks, List.dropWhile_cons_of_neg hb]
            have stays : skipSpace (ofPieces (.char c :: ps)) = ofPieces (.char c :: ps) := by
              rw [ofPieces_cons]
              by_cases hw : Text.isWordChar c = true
              · rw [attach_eq_word _ hw]
                rfl
              · rw [attach_symbol _ (by simpa using hw) (by simpa using hb)]
                rfl
            rw [first, stays, leadWord_ofPieces]

theorem leadWord_ofText (d : Dialect) (t : Text) :
    leadWord (skipSpace (ofText d t)) = Text.firstWord t := by
  obtain ⟨r, hr, he⟩ := (Piece.lexed_ofText d t).exists_chars
  rw [Piece.textOf_ofText] at hr
  rw [ofText, leadWord_skipSpace]
  conv_rhs => rw [hr, Text.firstWord_append he]

end Token

namespace StatementType
variable {d : Dialect} {t : Text}

/-- The first word of a statement is the keyword of its type. -/
theorem isKeyword_firstWord {k : String} (hk : k ∈ keywords)
    (h : detect d t = some (ofPhrase k.toList)) : Text.isKeyword k (Text.firstWord t) = true := by
  obtain ⟨p, hp, ht⟩ := Option.map_eq_some_iff.mp h
  have found : (p.after? (Token.skipSpace (Token.ofText d t))).isSome = true := by
    have := List.find?_some hp
    exact this
  obtain ⟨us, hu⟩ := Option.isSome_iff_exists.mp found
  obtain rfl := eq_of_ofPhrase_eq d p (List.mem_of_find?_eq_some hp) k hk ht
  obtain ⟨lead, hl, he⟩ := Phrase.after?_eq_some hu
  obtain ⟨k', ks, w, us', hks, rfl, hw⟩ := hl.head
  cases hks
  rw [← Token.leadWord_ofText d, he]
  exact hw

/-- A statement that starts with SELECT is a SELECT. -/
theorem detect_of_firstWord (h : Text.isKeyword "SELECT" (Text.firstWord t) = true) :
    detect d t = some .select := by
  have lead := Token.leadWord_ofText d t
  have leads : Token.leadWord (Token.skipSpace (Token.ofText d t)) ≠ [] := by
    rw [lead]
    rintro hn
    rw [hn] at h
    cases h
  obtain ⟨us, hu⟩ := Token.exists_eq_word leads
  rw [lead] at hu
  have first : (Phrase.after? ["SELECT"] (Token.skipSpace (Token.ofText d t))).isSome = true := by
    rw [hu, Phrase.after?, if_pos h]
    rfl
  obtain ⟨more, hm⟩ : ∃ more, d.statementPhrases = ["SELECT"] :: more := by
    cases d <;> exact ⟨_, rfl⟩
  have found : d.statementPhrases.find?
      (fun p => (p.after? (Token.skipSpace (Token.ofText d t))).isSome) = some ["SELECT"] := by
    rw [hm, List.find?_cons, first]
  rw [detect, found]
  rfl

end StatementType

theorem Nesting.detect_of_startsQuery {d : Dialect} {t : Text}
    (h : (ofText d t).startsQuery = true) : StatementType.detect d t = some .select := by
  have pieces : (ofText d t).pieces = Piece.ofText d t := pieces_ofPieces _
  have starts := startsWithKeyword_text (n := ofText d t) (pieces ▸ Piece.lexed_ofText d t)
  rw [h, text_ofText] at starts
  exact StatementType.detect_of_firstWord starts

end SqlStatement
