import SqlStatement.Proofs.Enclosing
import SqlStatement.Proofs.Letters
import SqlStatement.Proofs.Tokenizing

/-!
# Tokens in bytes

The tokens of a text can be read off its bytes. Words, blanks and quotes are
ASCII, a literal closes at the same byte as in the text, and a symbol takes the
bytes along that continue its character. So the tokens of the bytes are those of
the characters, and none of them ends inside a character.
-/
namespace SqlStatement

namespace Text

/-- Whether a byte continues a character of several bytes. -/
def isContinuation (b : UInt8) : Bool := b &&& 0xc0 == 0x80

theorem isContinuation_of_lt {b : UInt8} (h : b.toNat < 128) : isContinuation b = false := by
  by_contra hb
  have masked : b &&& 0xc0 = 0x80 := by simpa [isContinuation] using hb
  have high : (b &&& 0xc0).toNat = 128 := by rw [masked]; rfl
  rw [UInt8.toNat_and] at high
  have : b.toNat &&& (0xc0 : UInt8).toNat ≤ b.toNat := Nat.and_le_left
  omega

/-- Bits of a character below the two highest do not matter for what a byte is. -/
theorem isContinuation_or (b : UInt8) {m : UInt8} (hm : m &&& 0xc0 = 0) (k : UInt8) :
    isContinuation (b &&& m ||| k) = isContinuation k := by
  have distrib : (b &&& m ||| k) &&& 0xc0 = (b &&& m &&& 0xc0) ||| (k &&& 0xc0) := by
    apply UInt8.toBitVec_inj.mp
    simp only [UInt8.toBitVec_and, UInt8.toBitVec_or, BitVec.and_or_distrib_right]
  rw [isContinuation, distrib, UInt8.and_assoc, hm, UInt8.and_zero, UInt8.zero_or, isContinuation]

/-- The first byte of a character continues none, and all others do. -/
theorem exists_utf8EncodeChar (c : Char) :
    ∃ b bs, String.utf8EncodeChar c = b :: bs ∧ isContinuation b = false ∧
      ∀ x ∈ bs, isContinuation x = true := by
  obtain h | h | h | h := Char.utf8Size_eq c
  · obtain ⟨low, single⟩ | ⟨wide, -⟩ := utf8EncodeChar_cases c
    · refine ⟨_, _, single, isContinuation_of_lt ?_, List.forall_mem_nil _⟩
      rwa [toNat_toUInt8 low]
    · have := UInt32.le_iff_toNat_le.mp (Char.utf8Size_eq_one_iff.mp h)
      exact absurd (Nat.lt_succ_of_le this) (Nat.not_lt.mpr wide)
  · refine ⟨_, _, String.utf8EncodeChar_eq_cons_cons h, isContinuation_or _ (by decide) _, ?_⟩
    simp only [List.forall_mem_cons]
    exact ⟨isContinuation_or _ (by decide) _, List.forall_mem_nil _⟩
  · refine ⟨_, _, String.utf8EncodeChar_eq_cons_cons_cons h, isContinuation_or _ (by decide) _, ?_⟩
    simp only [List.forall_mem_cons]
    exact ⟨isContinuation_or _ (by decide) _, isContinuation_or _ (by decide) _,
      List.forall_mem_nil _⟩
  · refine ⟨_, _, String.utf8EncodeChar_eq_cons_cons_cons_cons h,
      isContinuation_or _ (by decide) _, ?_⟩
    simp only [List.forall_mem_cons]
    exact ⟨isContinuation_or _ (by decide) _, isContinuation_or _ (by decide) _,
      isContinuation_or _ (by decide) _, List.forall_mem_nil _⟩

theorem takeWhile_isContinuation_bytes (t : Text) : (bytes t).takeWhile isContinuation = [] := by
  cases t with
  | nil => rfl
  | cons c t =>
      obtain ⟨b, bs, encoded, first, -⟩ := exists_utf8EncodeChar c
      rw [bytes_cons, encoded, List.cons_append, List.takeWhile_cons_of_neg (by simp [first])]

/-- A class of characters that holds ASCII characters only. -/
def IsAscii (p : Char → Bool) : Prop := ∀ c, p c = true → c.toNat < 128

theorem isAscii_isWordChar : IsAscii isWordChar := by
  intro c hc
  have := toNat_of_isWordChar hc
  omega

theorem isAscii_isBlank : IsAscii isBlank := by
  intro c hc
  simp only [isBlank, Bool.or_eq_true, beq_iff_eq] at hc
  rcases hc with ((((rfl | rfl) | rfl) | rfl) | rfl) | rfl <;> decide

theorem toNat_ofUInt8 (b : UInt8) : (Char.ofUInt8 b).toNat = b.toNat := rfl

theorem ofUInt8_toUInt8 {c : Char} (hc : c.toNat < 128) : Char.ofUInt8 c.toUInt8 = c :=
  Char.toNat_inj.mp (toNat_toUInt8 hc)

/-- The first byte of a text is in the ASCII classes of its first character, and the bytes that
continue this character stand behind it. -/
theorem exists_bytes_cons (c : Char) (t : Text) :
    ∃ b bs, bytes (c :: t) = b :: bs ∧
      (∀ p, IsAscii p → p (Char.ofUInt8 b) = p c) ∧
      1 + (bs.takeWhile isContinuation).length = c.utf8Size := by
  obtain ⟨b, bs, encoded, -, rest⟩ := exists_utf8EncodeChar c
  refine ⟨b, bs ++ bytes t, by rw [bytes_cons, encoded, List.cons_append], ?_, ?_⟩
  · intro p hp
    obtain ⟨low, single⟩ | ⟨wide, b', bs', encoded', high⟩ := utf8EncodeChar_cases c
    · rw [single] at encoded
      cases encoded
      rw [ofUInt8_toUInt8 low]
    · have same : b' = b := by rw [encoded'] at encoded; exact (List.cons.inj encoded).1
      have out {a : Char} (ha : 128 ≤ a.toNat) : p a = false := by
        by_contra h
        exact absurd (hp a (by simpa using h)) (Nat.not_lt.mpr ha)
      rw [out wide, out]
      rw [toNat_ofUInt8, ← same]
      exact high b' List.mem_cons_self
  · rw [List.takeWhile_append_of_pos rest, takeWhile_isContinuation_bytes, List.append_nil,
      ← String.length_utf8EncodeChar, encoded, List.length_cons, Nat.add_comm]

/-- How many bytes of a class stand in front. -/
def runLength (p : Char → Bool) (bs : List UInt8) : Nat :=
  (bs.takeWhile fun b => p (Char.ofUInt8 b)).length

theorem runLength_cons {p : Char → Bool} {b : UInt8} (hb : p (Char.ofUInt8 b) = true)
    (bs : List UInt8) : runLength p (b :: bs) = runLength p bs + 1 := by
  rw [runLength, List.takeWhile_cons, if_pos hb, List.length_cons, runLength]

/-- A run of ASCII characters is the run of their bytes. -/
theorem runLength_bytes {p : Char → Bool} (hp : IsAscii p) (t : Text) :
    runLength p (bytes t) = (bytes (t.takeWhile p)).length := by
  induction t with
  | nil => rfl
  | cons c t ih =>
      by_cases hc : p c = true
      · have low := hp c hc
        have same : p (Char.ofUInt8 c.toUInt8) = true := by rw [ofUInt8_toUInt8 low, hc]
        rw [bytes_cons_of_lt low, runLength_cons same, List.takeWhile_cons_of_pos hc,
          bytes_cons_of_lt low, List.length_cons, ih]
      · obtain ⟨b, bs, encoded, class_eq, -⟩ := exists_bytes_cons c t
        have other : ¬p (Char.ofUInt8 b) = true := by rwa [class_eq p hp]
        rw [encoded, runLength, List.takeWhile_cons, if_neg other, List.takeWhile_cons_of_neg hc]
        rfl

end Text

namespace Token

/-- The kinds of token. -/
inductive Kind where
  | word
  | space
  | quoted
  | symbol
  | unterminated
  deriving DecidableEq, Repr

/-- The kind of a token. -/
def kind : Token → Kind
  | word _ => .word
  | space _ => .space
  | quoted _ => .quoted
  | symbol _ => .symbol
  | unterminated _ => .unterminated

/-- A token in the bytes of a text, from `start` up to `stop`. -/
structure Span where
  kind : Kind
  start : Nat
  stop : Nat
  deriving DecidableEq, Repr

/-- The bytes of tokens that stand behind each other. -/
def spans (start : Nat) : List Token → List Span
  | [] => []
  | t :: ts =>
      ⟨t.kind, start, start + (Text.bytes t.text).length⟩ ::
        spans (start + (Text.bytes t.text).length) ts

end Token

namespace Dialect
variable {d : Dialect}

/-- The length in bytes of the literal that some bytes start with. -/
def literalLength? (d : Dialect) : List UInt8 → Option Nat
  | [] => none
  | b :: bs => (d.escapeOf? (Char.ofUInt8 b)).bind fun e => (e.closeBytes? b bs).map (· + 1)

/-- The kind and the length of the token that some bytes start with. -/
def byteToken? (d : Dialect) : List UInt8 → Option (Token.Kind × Nat)
  | [] => none
  | b :: bs =>
      if Text.isWordChar (Char.ofUInt8 b) then
        some (.word, Text.runLength Text.isWordChar (b :: bs))
      else if Text.isBlank (Char.ofUInt8 b) then
        some (.space, Text.runLength Text.isBlank (b :: bs))
      else if d.isQuote (Char.ofUInt8 b) then
        match d.literalLength? (b :: bs) with
        | some n => some (.quoted, n)
        | none => some (.unterminated, 1)
      else some (.symbol, 1 + (bs.takeWhile Text.isContinuation).length)

theorem literalLength?_pos {bs : List UInt8} {n : Nat} (h : d.literalLength? bs = some n) :
    0 < n := by
  cases bs with
  | nil => cases h
  | cons b bs =>
      obtain ⟨e, -, closes⟩ := Option.bind_eq_some_iff.mp h
      obtain ⟨m, -, rfl⟩ := Option.map_eq_some_iff.mp closes
      exact Nat.succ_pos m

theorem byteToken?_pos {bs : List UInt8} {r : Token.Kind × Nat} (h : d.byteToken? bs = some r) :
    0 < r.2 ∧ bs ≠ [] := by
  cases bs with
  | nil => cases h
  | cons b bs =>
      refine ⟨?_, List.cons_ne_nil _ _⟩
      rw [byteToken?] at h
      split at h
      · rename_i hw
        cases h
        rw [Text.runLength_cons hw]
        exact Nat.succ_pos _
      split at h
      · rename_i hb
        cases h
        rw [Text.runLength_cons hb]
        exact Nat.succ_pos _
      split at h
      · split at h
        · rename_i literal
          cases h
          exact literalLength?_pos literal
        · cases h
          exact Nat.one_pos
      · cases h
        exact Nat.lt_of_lt_of_le Nat.one_pos (Nat.le_add_right _ _)

/-- The tokens of some bytes, which start at a position of a text. -/
def byteTokens (d : Dialect) (start : Nat) (bytes : List UInt8) : List Token.Span :=
  match _h : d.byteToken? bytes with
  | none => []
  | some r => ⟨r.1, start, start + r.2⟩ :: d.byteTokens (start + r.2) (bytes.drop r.2)
termination_by bytes.length
decreasing_by
  obtain ⟨pos, ne⟩ := byteToken?_pos _h
  have := List.length_pos_iff.mpr ne
  rw [List.length_drop]
  omega

theorem byteTokens_of_byteToken? {bytes : List UInt8} {kind : Token.Kind} {n : Nat}
    (h : d.byteToken? bytes = some (kind, n)) (start : Nat) :
    d.byteTokens start bytes =
      ⟨kind, start, start + n⟩ :: d.byteTokens (start + n) (bytes.drop n) := by
  rw [byteTokens]
  split
  · simp_all
  · rename_i r h'
    rw [h] at h'
    cases h'
    rfl

theorem isAscii_isQuote (d : Dialect) : Text.IsAscii d.isQuote := by
  intro c hc
  rcases isQuote_cases hc with rfl | rfl | rfl <;> decide

/-- The bytes of a text start with a literal as long as that of the text. -/
theorem literalLength?_bytes {q : Char} (hq : d.isQuote q = true) (t : Text) :
    d.literalLength? (Text.bytes (q :: t)) =
      (d.literal? (q :: t)).map fun r => (Text.bytes r.1).length := by
  have low := d.isAscii_isQuote q hq
  rw [Text.bytes_cons_of_lt low, literalLength?, Text.ofUInt8_toUInt8 low, literal?_cons,
    Option.map_bind]
  refine Option.bind_congr fun e _ => ?_
  rw [Escape.closeBytes?_bytes low (isQuote_ne_backslash hq), Option.map_map, Function.comp_apply,
    Option.map_map]
  refine Option.map_congr fun r _ => ?_
  rw [Function.comp_apply, Function.comp_apply, Text.bytes_cons_of_lt low, List.length_cons]

/-- The classes of the first byte are those of the first character. -/
theorem byteToken?_bytes (d : Dialect) (c : Char) (t : Text) :
    d.byteToken? (Text.bytes (c :: t)) =
      if Text.isWordChar c then
        some (.word, (Text.bytes ((c :: t).takeWhile Text.isWordChar)).length)
      else if Text.isBlank c then
        some (.space, (Text.bytes ((c :: t).takeWhile Text.isBlank)).length)
      else if d.isQuote c then
        match d.literal? (c :: t) with
        | some r => some (.quoted, (Text.bytes r.1).length)
        | none => some (.unterminated, 1)
      else some (.symbol, c.utf8Size) := by
  have literal (hq : d.isQuote c = true) := literalLength?_bytes hq t
  have word := Text.runLength_bytes Text.isAscii_isWordChar (c :: t)
  have blank := Text.runLength_bytes Text.isAscii_isBlank (c :: t)
  obtain ⟨b, bs, encoded, class_eq, size⟩ := Text.exists_bytes_cons c t
  rw [encoded] at literal word blank ⊢
  rw [byteToken?, class_eq _ Text.isAscii_isWordChar, class_eq _ Text.isAscii_isBlank,
    class_eq _ d.isAscii_isQuote, word, blank, size]
  refine if_congr Iff.rfl rfl (if_congr Iff.rfl rfl ?_)
  split
  · rename_i hq
    rw [literal hq]
    cases d.literal? (c :: t) <;> rfl
  · rfl

end Dialect

namespace Token
variable {d : Dialect} {c : Char} {u : Token} {ts us : List Token}

/-- The characters that tokens of a kind begin with. -/
def Kind.Begins (d : Dialect) : Kind → Char → Prop
  | word, c => Text.isWordChar c = true
  | space, c => Text.isBlank c = true
  | quoted, c | unterminated, c => d.isQuote c = true
  | symbol, c =>
      Text.isWordChar c = false ∧ Text.isBlank c = false ∧ d.isQuote c = false

theorem Kind.Begins.isWordChar {k : Kind} (h : k.Begins d c) (hk : k ≠ .word) :
    Text.isWordChar c = false := by
  cases k with
  | word => exact absurd rfl hk
  | space => exact Text.isWordChar_of_isBlank h
  | symbol => exact h.1
  | quoted | unterminated =>
      by_contra hw
      exact absurd h (by simp [Begins, Dialect.isQuote_of_isWordChar (by simpa using hw)])

theorem Kind.Begins.isBlank {k : Kind} (h : k.Begins d c) (hk : k ≠ .space) :
    Text.isBlank c = false := by
  by_contra hb
  have hb : Text.isBlank c = true := by simpa using hb
  cases k with
  | space => exact absurd rfl hk
  | word => exact absurd h (by simp [Begins, Text.isWordChar_of_isBlank hb])
  | symbol => exact absurd hb (by simp [h.2.1])
  | quoted | unterminated => exact absurd h (by simp [Begins, Dialect.isQuote_of_isBlank hb])

theorem kind_ne_word (h : u.isWord = false) : u.kind ≠ .word := by
  cases u with
  | word => cases h
  | space | quoted | symbol | unterminated => nofun

theorem kind_ne_space (h : u.isSpace = false) : u.kind ≠ .space := by
  cases u with
  | space => cases h
  | word | quoted | symbol | unterminated => nofun

/-- The tokens of a text begin with a character of their kind. -/
theorem exists_begins (tidy : Tidy (u :: us)) (lexed : Piece.Lexed d (piecesOf (u :: us))) :
    ∃ c w, u.text = c :: w ∧ u.kind.Begins d c := by
  have proper := tidy.proper u List.mem_cons_self
  rw [piecesOf_cons] at lexed
  cases u with
  | word w | space w =>
      obtain ⟨c, w, rfl⟩ := List.exists_cons_of_ne_nil proper.1
      exact ⟨c, w, rfl, proper.2 c List.mem_cons_self⟩
  | quoted lit =>
      cases lexed with
      | literal closed =>
          obtain ⟨q, body, rfl, quote⟩ := Dialect.literal?_quote closed
          exact ⟨q, body, rfl, quote⟩
  | symbol c =>
      cases lexed with
      | char plain => exact ⟨c, [], rfl, proper.1, proper.2, plain⟩
  | unterminated q =>
      cases lexed with
      | stray quote => exact ⟨q, [], rfl, quote⟩

/-- What is behind a token does not begin with a character that would belong to it. -/
theorem takeWhile_textOf {p : Char → Bool} (tidy : Tidy us) (lexed : Piece.Lexed d (piecesOf us))
    (other : ∀ u ∈ us.head?, ∀ c, u.kind.Begins d c → p c = false) :
    (textOf us).takeWhile p = [] := by
  cases us with
  | nil => rfl
  | cons u us =>
      obtain ⟨c, w, text, begins⟩ := exists_begins tidy lexed
      have hc := other u rfl c begins
      rw [textOf_cons, text, List.cons_append, List.takeWhile_cons_of_neg (by simp [hc])]

theorem takeWhile_text {p : Char → Bool} (tidy : Tidy us) (lexed : Piece.Lexed d (piecesOf us))
    (w : Text) (all : ∀ c ∈ w, p c = true)
    (other : ∀ u ∈ us.head?, ∀ c, u.kind.Begins d c → p c = false) :
    (w ++ textOf us).takeWhile p = w := by
  rw [List.takeWhile_append_of_pos all, takeWhile_textOf tidy lexed other, List.append_nil]

/-- The bytes of tokens start with the first of them. -/
theorem byteToken?_textOf (tidy : Tidy (u :: us)) (lexed : Piece.Lexed d (piecesOf (u :: us))) :
    d.byteToken? (Text.bytes (textOf (u :: us))) = some (u.kind, (Text.bytes u.text).length) := by
  obtain ⟨c, w, text, begins⟩ := exists_begins tidy lexed
  obtain ⟨proper, tidyBehind, apart⟩ := tidy_cons_iff.mp tidy
  rw [piecesOf_cons] at lexed
  have behind := lexed.right
  have whole : textOf (u :: us) = c :: (w ++ textOf us) := by
    rw [textOf_cons, text, List.cons_append]
  rw [whole, Dialect.byteToken?_bytes, ← List.cons_append, ← text]
  cases u with
  | word v =>
      rw [if_pos (show Text.isWordChar c = true from begins),
        takeWhile_text tidyBehind behind (word v).text proper.2]
      · rfl
      · exact fun u hu c begins => begins.isWordChar (kind_ne_word ((apart u hu).1 rfl))
  | space v =>
      have blank : Text.isBlank c = true := begins
      rw [if_neg (ne_true_of_eq_false (Text.isWordChar_of_isBlank blank)), if_pos blank,
        takeWhile_text tidyBehind behind (space v).text proper.2]
      · rfl
      · exact fun u hu c begins => begins.isBlank (kind_ne_space ((apart u hu).2 rfl))
  | symbol v =>
      cases text
      rw [if_neg (ne_true_of_eq_false begins.1), if_neg (ne_true_of_eq_false begins.2.1),
        if_neg (ne_true_of_eq_false begins.2.2), Token.text, Text.length_bytes_cons]
      rfl
  | quoted lit =>
      rw [pieces, List.singleton_append] at lexed
      cases lexed with
      | literal closed =>
          rw [textOf_piecesOf] at closed
          rw [if_neg (ne_true_of_eq_false (begins.isWordChar (kind_ne_word rfl))),
            if_neg (ne_true_of_eq_false (begins.isBlank (kind_ne_space rfl))),
            if_pos (show d.isQuote c = true from begins), Token.text, closed]
          rfl
  | unterminated q =>
      cases text
      rw [pieces, List.singleton_append] at lexed
      cases lexed with
      | stray quote unclosed =>
          have size := Text.utf8Size_of_lt (d.isAscii_isQuote c quote)
          rw [textOf_piecesOf] at unclosed
          rw [if_neg (ne_true_of_eq_false (begins.isWordChar (kind_ne_word rfl))),
            if_neg (ne_true_of_eq_false (begins.isBlank (kind_ne_space rfl))), if_pos quote,
            Token.text, List.singleton_append, unclosed, Text.length_bytes_cons, size]
          rfl

theorem byteTokens_textOf (tidy : Tidy ts) (lexed : Piece.Lexed d (piecesOf ts)) (start : Nat) :
    d.byteTokens start (Text.bytes (textOf ts)) = spans start ts := by
  induction ts generalizing start with
  | nil =>
      rw [Dialect.byteTokens]
      rfl
  | cons u us ih =>
      rw [Dialect.byteTokens_of_byteToken? (byteToken?_textOf tidy lexed), spans, textOf_cons,
        Text.bytes_append, List.drop_left]
      rw [piecesOf_cons] at lexed
      rw [ih (tidy_cons_iff.mp tidy).2.1 lexed.right]

/-- The tokens of the bytes of a text are the bytes of its tokens. -/
theorem byteTokens_bytes (d : Dialect) (t : Text) :
    d.byteTokens 0 (Text.bytes t) = spans 0 (ofText d t) := by
  have read := byteTokens_textOf (tidy_ofText d t) (lexed_piecesOf_ofText d t) 0
  rwa [textOf_ofText] at read

end Token
end SqlStatement
