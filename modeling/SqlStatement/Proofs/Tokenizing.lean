import Mathlib.Data.List.Chain
import SqlStatement.Proofs.Lexing
import SqlStatement.Token

/-!
# Pieces and their tokens

Tokens of neighbouring stretches merge only where a word meets a word or a run
of blanks meets another. Everywhere else the tokens of a text can be read
stretch by stretch.
-/
namespace SqlStatement

theorem Text.isWordChar_of_isBlank {c : Char} (h : isBlank c = true) : isWordChar c = false := by
  simp only [isBlank, Bool.or_eq_true, beq_iff_eq] at h
  rcases h with ((((rfl | rfl) | rfl) | rfl) | rfl) | rfl <;> decide

namespace Token
variable {d : Dialect}

theorem ofPieces_cons (p : Piece) (ps : List Piece) :
    ofPieces (p :: ps) = attach p (ofPieces ps) := rfl

@[simp] theorem ofPieces_nil : ofPieces [] = [] := rfl

@[simp] theorem ofText_nil : ofText d [] = [] := by
  rw [ofText, Piece.ofText_nil]
  rfl

theorem ofText_textOf_of_lexed {ps : List Piece} (h : Piece.Lexed d ps) :
    ofText d (Piece.textOf ps) = ofPieces ps := by
  rw [ofText, h.ofText_textOf]

/-- The pieces of a token. -/
def pieces : Token → List Piece
  | word t | space t => t.map .char
  | quoted t => [.literal t]
  | symbol c => [.char c]
  | unterminated q => [.stray q]

/-- The pieces of a list of tokens. -/
def piecesOf (ts : List Token) : List Piece := ts.flatMap pieces

@[simp] theorem piecesOf_nil : piecesOf [] = [] := rfl

@[simp] theorem piecesOf_cons (t : Token) (ts : List Token) :
    piecesOf (t :: ts) = t.pieces ++ piecesOf ts := rfl

@[simp] theorem piecesOf_append (ts us : List Token) :
    piecesOf (ts ++ us) = piecesOf ts ++ piecesOf us := List.flatMap_append

theorem textOf_pieces (t : Token) : Piece.textOf t.pieces = t.text := by
  have chars (w : Text) : Piece.textOf (w.map .char) = w := by
    induction w with
    | nil => rfl
    | cons c w ih => rw [List.map_cons, Piece.textOf_cons, ih, Piece.text, List.singleton_append]
  cases t with
  | word w | space w => exact chars w
  | quoted | symbol | unterminated => simp [pieces, text, Piece.text]

@[simp] theorem textOf_piecesOf (ts : List Token) : Piece.textOf (piecesOf ts) = textOf ts := by
  induction ts with
  | nil => rfl
  | cons t ts ih => rw [piecesOf_cons, Piece.textOf_append, textOf_pieces, ih, textOf_cons]

/-- Whether a token is a word. -/
def isWord : Token → Bool
  | word _ => true
  | _ => false

theorem attach_word_word {c : Char} (w : Text) (ts : List Token)
    (h : Text.isWordChar c = true) :
    attach (.char c) (word w :: ts) = word (c :: w) :: ts := by
  simp only [attach, h, if_true]

theorem attach_word {c : Char} {ts : List Token} (h : Text.isWordChar c = true)
    (ht : ∀ t, ts.head? = some t → t.isWord = false) :
    attach (.char c) ts = word [c] :: ts := by
  cases ts with
  | nil => simp only [attach, h, if_true]
  | cons t ts =>
      cases t with
      | word w => exact absurd (ht _ rfl) (by simp [isWord])
      | space | quoted | symbol | unterminated => simp only [attach, h, if_true]

theorem attach_space_space {c : Char} (b : Text) (ts : List Token)
    (h : Text.isBlank c = true) :
    attach (.char c) (space b :: ts) = space (c :: b) :: ts := by
  simp [attach, Text.isWordChar_of_isBlank h, h]

theorem attach_space {c : Char} {ts : List Token} (h : Text.isBlank c = true)
    (ht : ∀ t, ts.head? = some t → t.isSpace = false) :
    attach (.char c) ts = space [c] :: ts := by
  have hw := Text.isWordChar_of_isBlank h
  cases ts with
  | nil => simp [attach, hw, h]
  | cons t ts =>
      cases t with
      | space b => exact absurd (ht _ rfl) (by simp [isSpace])
      | word | quoted | symbol | unterminated => simp [attach, hw, h]

theorem attach_symbol {c : Char} (ts : List Token) (hw : Text.isWordChar c = false)
    (hb : Text.isBlank c = false) : attach (.char c) ts = symbol c :: ts := by
  simp [attach, hw, hb]

theorem piecesOf_attach (p : Piece) (ts : List Token) :
    piecesOf (attach p ts) = p :: piecesOf ts := by
  cases p with
  | literal t | stray q => rfl
  | char c =>
      simp only [attach]
      split
      · split <;> simp [pieces]
      · split
        · split <;> simp [pieces]
        · rfl

@[simp] theorem piecesOf_ofPieces (ps : List Piece) : piecesOf (ofPieces ps) = ps := by
  induction ps with
  | nil => rfl
  | cons p ps ih => rw [ofPieces_cons, piecesOf_attach, ih]

/-- The tokens of a text have the pieces that it is read into. -/
theorem piecesOf_ofText (d : Dialect) (t : Text) : piecesOf (ofText d t) = Piece.ofText d t :=
  piecesOf_ofPieces _

theorem lexed_piecesOf_ofText (d : Dialect) (t : Text) :
    Piece.Lexed d (piecesOf (ofText d t)) := by
  rw [piecesOf_ofText]
  exact Piece.lexed_ofText d t

theorem mem_ofText_of_mem_pieces {t : Text} {u : Token} {p : Piece} (hu : u ∈ ofText d t)
    (hp : p ∈ u.pieces) : p ∈ Piece.ofText d t := by
  rw [← piecesOf_ofText]
  exact List.mem_flatMap.mpr ⟨u, hu, hp⟩

/-- Whether a piece becomes a token of its own in front of some tokens. -/
def standsApart (p : Piece) (ts : List Token) : Prop := attach p ts = attach p [] ++ ts

theorem standsApart_nil (p : Piece) : standsApart p [] := (List.append_nil _).symm

theorem attach_append (p : Piece) {ts : List Token} (us : List Token) (h : ts ≠ []) :
    attach p (ts ++ us) = attach p ts ++ us := by
  cases p with
  | literal t | stray q => rfl
  | char c =>
      cases ts with
      | nil => exact absurd rfl h
      | cons t ts => cases t <;> simp only [attach, List.cons_append] <;> grind

theorem ofPieces_ne_nil {ps : List Piece} (h : ps ≠ []) : ofPieces ps ≠ [] := by
  intro he
  have := congrArg piecesOf he
  rw [piecesOf_ofPieces] at this
  exact h this

/-- The tokens of two stretches stand behind each other if their neighbouring pieces do. -/
theorem ofPieces_append {ps qs : List Piece}
    (h : ∀ p, ps.getLast? = some p → standsApart p (ofPieces qs)) :
    ofPieces (ps ++ qs) = ofPieces ps ++ ofPieces qs := by
  induction ps with
  | nil => rfl
  | cons p ps ih =>
      rw [List.cons_append, ofPieces_cons, ofPieces_cons]
      cases ps with
      | nil => exact h p rfl
      | cons p' ps =>
          rw [ih fun p hp => h p (by simpa using hp)]
          exact attach_append p _ (ofPieces_ne_nil (by simp))

theorem standsApart_of_word {c : Char} {ts : List Token} (hc : Text.isWordChar c = true)
    (h : ∀ t, ts.head? = some t → t.isWord = false) : standsApart (.char c) ts := by
  rw [standsApart, attach_word hc h, attach_word hc (by simp)]
  rfl

theorem standsApart_of_space {c : Char} {ts : List Token} (hc : Text.isBlank c = true)
    (h : ∀ t, ts.head? = some t → t.isSpace = false) : standsApart (.char c) ts := by
  rw [standsApart, attach_space hc h, attach_space hc (by simp)]
  rfl

theorem standsApart_of_symbol {c : Char} (ts : List Token) (hw : Text.isWordChar c = false)
    (hb : Text.isBlank c = false) : standsApart (.char c) ts := by
  rw [standsApart, attach_symbol _ hw hb, attach_symbol _ hw hb]
  rfl

/-- Every piece stands apart in front of a token that is neither a word nor a run of blanks. -/
theorem standsApart_of_head (p : Piece) {ts : List Token}
    (h : ∀ t, ts.head? = some t → t.isWord = false ∧ t.isSpace = false) : standsApart p ts := by
  cases p with
  | literal t | stray q => rfl
  | char c =>
      by_cases hw : Text.isWordChar c = true
      · exact standsApart_of_word hw fun t ht => (h t ht).1
      · by_cases hb : Text.isBlank c = true
        · exact standsApart_of_space hb fun t ht => (h t ht).2
        · exact standsApart_of_symbol ts (by simpa using hw) (by simpa using hb)

theorem attach_nil (p : Piece) : ∃ t, attach p [] = [t] ∧ t.pieces = [p] := by
  cases p with
  | literal t => exact ⟨quoted t, rfl, rfl⟩
  | stray q => exact ⟨unterminated q, rfl, rfl⟩
  | char c =>
      by_cases hw : Text.isWordChar c = true
      · exact ⟨word [c], attach_word hw (by simp), rfl⟩
      · by_cases hb : Text.isBlank c = true
        · exact ⟨space [c], attach_space hb (by simp), rfl⟩
        · exact ⟨symbol c, attach_symbol _ (by simpa using hw) (by simpa using hb), rfl⟩

/-- A piece becomes a token of its own, or the first character of a word or of a run of blanks. -/
theorem attach_cases (p : Piece) (ts : List Token) :
    standsApart p ts ∨
      (∃ c w us, p = .char c ∧ ts = word w :: us ∧ attach p ts = word (c :: w) :: us) ∨
        ∃ c b us, p = .char c ∧ ts = space b :: us ∧ attach p ts = space (c :: b) :: us := by
  cases p with
  | literal t | stray q => exact .inl rfl
  | char c =>
      by_cases hw : Text.isWordChar c = true
      · match ts with
        | word w :: us => exact .inr (.inl ⟨c, w, us, rfl, rfl, attach_word_word w us hw⟩)
        | [] | space _ :: _ | quoted _ :: _ | symbol _ :: _ | unterminated _ :: _ =>
            exact .inl (standsApart_of_word hw (by simp [isWord]))
      · by_cases hb : Text.isBlank c = true
        · match ts with
          | space b :: us => exact .inr (.inr ⟨c, b, us, rfl, rfl, attach_space_space b us hb⟩)
          | [] | word _ :: _ | quoted _ :: _ | symbol _ :: _ | unterminated _ :: _ =>
              exact .inl (standsApart_of_space hb (by simp [isSpace]))
        · exact .inl (standsApart_of_symbol ts (by simpa using hw) (by simpa using hb))

/-- A word character makes the first token a word. -/
theorem exists_word_of_char {c : Char} (ps : List Piece) (hc : Text.isWordChar c = true) :
    ∃ w us, ofPieces (.char c :: ps) = word (c :: w) :: us := by
  rw [ofPieces_cons]
  rcases attach_cases (.char c) (ofPieces ps) with
    ha | ⟨_, w, us, hp, _, ha⟩ | ⟨_, b, us, hp, hs, _⟩
  · exact ⟨[], ofPieces ps, by rw [ha, attach_word hc (by simp)]; rfl⟩
  · cases hp
    exact ⟨w, us, ha⟩
  · cases hp
    exact ⟨[], ofPieces ps, attach_word hc (by simp [hs, isWord])⟩

/-- Word characters that do not reach into what follows. -/
theorem prefix_of_prefix_append {w : Text} {ps qs : List Piece}
    (hw : ∀ c ∈ w, Text.isWordChar c = true)
    (hq : ∀ t, (ofPieces qs).head? = some t → t.isWord = false)
    (h : w.map .char <+: ps ++ qs) : w.map .char <+: ps := by
  induction ps generalizing w with
  | nil =>
      cases w with
      | nil => exact List.nil_prefix
      | cons c w =>
          obtain ⟨us, rfl⟩ := h
          obtain ⟨w', us', he⟩ := exists_word_of_char (w.map .char ++ us) (hw c (by simp))
          have := hq (word (c :: w')) (by
            rw [List.map_cons, List.cons_append, he, List.head?_cons])
          simp [isWord] at this
  | cons p ps ih =>
      cases w with
      | nil => exact List.nil_prefix
      | cons c w =>
          rw [List.map_cons, List.cons_append, List.cons_prefix_cons] at h
          rw [List.map_cons, List.cons_prefix_cons]
          exact ⟨h.1, ih (fun c hc => hw c (by simp [hc])) h.2⟩

theorem ofPieces_symbol_cons {c : Char} (ps : List Piece) (hw : Text.isWordChar c = false)
    (hb : Text.isBlank c = false) :
    ofPieces (.char c :: ps) = symbol c :: ofPieces ps := by
  rw [ofPieces_cons, attach_symbol _ hw hb]

/-- A word is a single token in front of anything but another word. -/
theorem ofPieces_word {w : Text} {qs : List Piece} (hne : w ≠ [])
    (hw : ∀ c ∈ w, Text.isWordChar c = true)
    (hq : ∀ t, (ofPieces qs).head? = some t → t.isWord = false) :
    ofPieces (w.map .char ++ qs) = word w :: ofPieces qs := by
  induction w with
  | nil => exact absurd rfl hne
  | cons c w ih =>
      have hc := hw c (by simp)
      rw [List.map_cons, List.cons_append, ofPieces_cons]
      cases w with
      | nil =>
          rw [List.map_nil, List.nil_append, attach_word hc hq]
      | cons c' w => rw [ih (by simp) fun c hm => hw c (by simp [hm]), attach_word_word _ _ hc]

/-- A token as a text has it: a word of word characters, a run of blanks, or a symbol that is
neither. -/
def Proper : Token → Prop
  | word w => w ≠ [] ∧ ∀ c ∈ w, Text.isWordChar c = true
  | space b => b ≠ [] ∧ ∀ c ∈ b, Text.isBlank c = true
  | symbol c => Text.isWordChar c = false ∧ Text.isBlank c = false
  | quoted _ | unterminated _ => True

/-- Tokens that stay apart: not two words, and not two runs of blanks. -/
def Apart (t u : Token) : Prop :=
  (t.isWord = true → u.isWord = false) ∧ (t.isSpace = true → u.isSpace = false)

/-- Tokens as a text has them. -/
structure Tidy (ts : List Token) : Prop where
  proper : ∀ t ∈ ts, t.Proper
  apart : ts.IsChain Apart

theorem proper_space : (space [' ']).Proper := ⟨by simp, by simp [Text.isBlank]⟩

theorem tidy_nil : Tidy [] := ⟨by simp, .nil⟩

theorem tidy_singleton {t : Token} (h : t.Proper) : Tidy [t] := ⟨by simpa using h, .singleton t⟩

theorem tidy_append_iff {ts us : List Token} :
    Tidy (ts ++ us) ↔ Tidy ts ∧ Tidy us ∧
      ∀ t ∈ ts.getLast?, ∀ u ∈ us.head?, Apart t u := by
  constructor
  · rintro ⟨hp, hc⟩
    rw [List.isChain_append] at hc
    exact ⟨⟨fun t ht => hp t (by simp [ht]), hc.1⟩, ⟨fun t ht => hp t (by simp [ht]), hc.2.1⟩,
      hc.2.2⟩
  · rintro ⟨ht, hu, hb⟩
    refine ⟨fun t hm => (List.mem_append.mp hm).elim (ht.proper t) (hu.proper t), ?_⟩
    exact List.isChain_append.mpr ⟨ht.apart, hu.apart, hb⟩

theorem tidy_cons_iff {t : Token} {ts : List Token} :
    Tidy (t :: ts) ↔ t.Proper ∧ Tidy ts ∧ ∀ u ∈ ts.head?, Apart t u := by
  rw [← List.singleton_append, tidy_append_iff]
  constructor
  · rintro ⟨ht, hts, hb⟩
    exact ⟨ht.proper t (by simp), hts, hb t rfl⟩
  · rintro ⟨ht, hts, hb⟩
    refine ⟨tidy_singleton ht, hts, ?_⟩
    rintro _ ⟨⟩ u hu
    exact hb u hu

namespace Tidy
variable {ts us : List Token}

theorem left (h : Tidy (ts ++ us)) : Tidy ts := (tidy_append_iff.mp h).1

theorem right (h : Tidy (ts ++ us)) : Tidy us := (tidy_append_iff.mp h).2.1

theorem of_infix (h : Tidy us) (hi : ts <:+: us) : Tidy ts := by
  obtain ⟨s, t, rfl⟩ := hi
  exact h.left.right

theorem attach (h : Tidy ts) (p : Piece) : Tidy (Token.attach p ts) := by
  have alone {t : Token} (ht : t.Proper)
      (hb : ∀ u, ts.head? = some u → Apart t u) : Tidy (t :: ts) := tidy_cons_iff.mpr ⟨ht, h, hb⟩
  cases p with
  | literal t => exact alone trivial fun u _ => ⟨by simp [isWord], by simp [isSpace]⟩
  | stray q => exact alone trivial fun u _ => ⟨by simp [isWord], by simp [isSpace]⟩
  | char c =>
      by_cases hw : Text.isWordChar c = true
      · cases hh : ts.head?.any isWord with
        | true =>
            match ts with
            | word w :: ts =>
                rw [attach_word_word _ _ hw]
                obtain ⟨hp, hts, hb⟩ := tidy_cons_iff.mp h
                refine tidy_cons_iff.mpr ⟨⟨by simp, ?_⟩, hts, hb⟩
                simpa [hw] using hp.2
            | [] | space _ :: _ | quoted _ :: _ | symbol _ :: _ | unterminated _ :: _ =>
                simp [isWord] at hh
        | false =>
            have first : ∀ t, ts.head? = some t → t.isWord = false := by
              intro t ht
              simpa [ht] using hh
            rw [attach_word hw first]
            exact alone ⟨by simp, by simpa using hw⟩ fun u hu =>
              ⟨fun _ => first u hu, by simp [isSpace]⟩
      · by_cases hb : Text.isBlank c = true
        · cases hh : ts.head?.any isSpace with
          | true =>
              match ts with
              | space b :: ts =>
                  rw [attach_space_space _ _ hb]
                  obtain ⟨hp, hts, hn⟩ := tidy_cons_iff.mp h
                  refine tidy_cons_iff.mpr ⟨⟨by simp, ?_⟩, hts, hn⟩
                  simpa [hb] using hp.2
              | [] | word _ :: _ | quoted _ :: _ | symbol _ :: _ | unterminated _ :: _ =>
                  simp [isSpace] at hh
          | false =>
              have first : ∀ t, ts.head? = some t → t.isSpace = false := by
                intro t ht
                simpa [ht] using hh
              rw [attach_space hb first]
              exact alone ⟨by simp, by simpa using hb⟩ fun u hu =>
                ⟨by simp [isWord], fun _ => first u hu⟩
        · rw [attach_symbol _ (by simpa using hw) (by simpa using hb)]
          exact alone ⟨by simpa using hw, by simpa using hb⟩ fun u _ =>
            ⟨by simp [isWord], by simp [isSpace]⟩

end Tidy

theorem tidy_ofPieces (ps : List Piece) : Tidy (ofPieces ps) := by
  induction ps with
  | nil => exact tidy_nil
  | cons p ps ih => exact ih.attach p

theorem tidy_ofText (d : Dialect) (t : Text) : Tidy (ofText d t) := tidy_ofPieces _

theorem ofPieces_space {b : Text} {qs : List Piece} (hne : b ≠ [])
    (hb : ∀ c ∈ b, Text.isBlank c = true)
    (hq : ∀ t, (ofPieces qs).head? = some t → t.isSpace = false) :
    ofPieces (b.map .char ++ qs) = space b :: ofPieces qs := by
  induction b with
  | nil => exact absurd rfl hne
  | cons c b ih =>
      have hc := hb c (by simp)
      rw [List.map_cons, List.cons_append, ofPieces_cons]
      cases b with
      | nil => rw [List.map_nil, List.nil_append, attach_space hc hq]
      | cons c' b => rw [ih (by simp) fun c hm => hb c (by simp [hm]), attach_space_space _ _ hc]

/-- Tidy tokens are the tokens of their pieces. -/
theorem Tidy.ofPieces_piecesOf {ts : List Token} (h : Tidy ts) : ofPieces (piecesOf ts) = ts := by
  induction ts with
  | nil => rfl
  | cons t ts ih =>
      obtain ⟨hp, hts, hb⟩ := tidy_cons_iff.mp h
      have rest := ih hts
      rw [piecesOf_cons]
      cases t with
      | word w =>
          rw [pieces, ofPieces_word hp.1 hp.2, rest]
          rw [rest]
          exact fun u hu => (hb u hu).1 rfl
      | space b =>
          rw [pieces, ofPieces_space hp.1 hp.2, rest]
          rw [rest]
          exact fun u hu => (hb u hu).2 rfl
      | symbol c => rw [pieces, List.singleton_append, ofPieces_symbol_cons _ hp.1 hp.2, rest]
      | quoted | unterminated =>
          rw [pieces, List.singleton_append, ofPieces_cons, rest]
          rfl

end Token
end SqlStatement
