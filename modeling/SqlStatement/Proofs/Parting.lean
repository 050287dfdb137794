import SqlStatement.Proofs.Naming
import SqlStatement.Proofs.Pairing
import SqlStatement.Proofs.Quoting

/-!
# Expressions that are quoted in parts

Quoting the names of an expression looks ahead for a call and for the second
word of a pair, and back for a call of TRIM. Where neither look reaches across,
what stands on both sides is quoted on its own. So it is in front of a comma, a
closing parenthesis or any other character that begins no call, and around
blanks in front of a word that is no second word of a pair.
-/
namespace SqlStatement
open Token (word space symbol)

namespace Piece
variable {d : Dialect} {ps qs : List Piece}

/-- Quotes are only added. -/
theorem Names.length_le (h : Names d ps qs) : (textOf ps).length ≤ (textOf qs).length := by
  induction h with
  | nil => exact Nat.le_refl _
  | keep p _ ih =>
      rw [textOf_cons, textOf_cons, List.length_append, List.length_append]
      omega
  | quote w _ _ ih =>
      rw [textOf_append, textOf_map_char, textOf_cons, List.length_append, List.length_append]
      have quoted : (text (literal (d.quoteName w))).length = w.length + 2 := by
        simp [text, Dialect.quoteName]
      omega

end Piece

namespace Token
variable {d : Dialect} {w u : Text}

/-- The first token of a text stands at its beginning. -/
theorem exists_of_head?_ofText {t : Token} (h : t ∈ (ofText d u).head?) :
    t.Proper ∧ ∃ v, u = t.text ++ v := by
  obtain ⟨ts, tokens⟩ := List.head?_eq_some_iff.mp h
  refine ⟨(tidy_ofText d u).proper t (List.mem_of_mem_head? h), textOf ts, ?_⟩
  rw [← textOf_cons, ← tokens, textOf_ofText]

/-- A text that begins with no word has no word for its first token. -/
theorem isWord_head?_ofText (hu : ∀ c ∈ u.head?, Text.isWordChar c = false) :
    ∀ t ∈ (ofText d u).head?, t.isWord = false := by
  intro t ht
  obtain ⟨proper, v, rfl⟩ := exists_of_head?_ofText ht
  cases t with
  | word w =>
      obtain ⟨c, w, rfl⟩ := List.exists_cons_of_ne_nil proper.1
      have edge := hu c rfl
      rw [proper.2 c List.mem_cons_self] at edge
      cases edge
  | space | quoted | symbol | unterminated => rfl

theorem isSpace_head?_ofText (hu : ∀ c ∈ u.head?, Text.isBlank c = false) :
    ∀ t ∈ (ofText d u).head?, t.isSpace = false := by
  intro t ht
  obtain ⟨proper, v, rfl⟩ := exists_of_head?_ofText ht
  cases t with
  | space b =>
      obtain ⟨c, b, rfl⟩ := List.exists_cons_of_ne_nil proper.1
      have edge := hu c rfl
      rw [proper.2 c List.mem_cons_self] at edge
      cases edge
  | word | quoted | symbol | unterminated => rfl

/-- A text that begins with no blank has none in front of its tokens. -/
theorem skipSpace_ofText (hu : ∀ c ∈ u.head?, Text.isBlank c = false) :
    skipSpace (ofText d u) = ofText d u := by
  have edge := isSpace_head?_ofText (d := d) hu
  cases tokens : ofText d u with
  | nil => rfl
  | cons t ts =>
      cases t with
      | space b =>
          rw [tokens] at edge
          cases edge (space b) rfl
      | word | quoted | symbol | unterminated => rfl

/-- An opening parenthesis in front of a text is its first token. -/
theorem head?_ofText_eq_open : (ofText d u).head? = some (symbol '(') ↔ u.head? = some '(' := by
  constructor
  · intro h
    obtain ⟨-, v, rfl⟩ := exists_of_head?_ofText h
    rfl
  · intro h
    obtain ⟨v, rfl⟩ := List.head?_eq_some_iff.mp h
    rw [ofText, Piece.ofText_char v (by cases d <;> rfl),
      ofPieces_symbol_cons _ (by decide) (by decide)]
    rfl

/-- A word is the first token of a text that goes on with anything but a word. -/
theorem ofText_word_append (hw : w.IsWord) (hu : ∀ c ∈ u.head?, Text.isWordChar c = false) :
    ofText d (w ++ u) = word w :: ofText d u := by
  have pieces : Piece.ofText d (w ++ u) = w.map .char ++ Piece.ofText d u := by
    have lexed := (Piece.lexed_ofText d u).map_char fun c hc =>
      Dialect.isQuote_of_isWordChar (hw.2 c hc)
    rw [← lexed.ofText_textOf, Piece.textOf_append, Piece.textOf_map_char, Piece.textOf_ofText]
  rw [ofText, pieces, ofPieces_word hw.1 hw.2 (isWord_head?_ofText hu), ofText]

end Token

theorem TrimCall.next_none (t : Token) : TrimCall.next .none t = .none := by
  cases t <;> simp [next]

namespace Dialect
variable {d : Dialect} {call : TrimCall} {ts us : List Token} {t u : Text}

theorem length_le_quoteNames (d : Dialect) (t : Text) : t.length ≤ (d.quoteNames t).length := by
  obtain ⟨qs, names, quoted⟩ := d.renders_quoteNames t
  have le := names.length_le
  rwa [quoted, Piece.textOf_ofText] at le

/-- Whether two words with blanks between them stay as they are, whatever the second one is. -/
def isKeptPair (d : Dialect) (a c : Text) : Bool :=
  d.isKeywordPair a c || Chunk.isCollationKeyword a

theorem quoteTokens_of_not_word {t : Token} (ht : t.isWord = false) (ts : List Token) :
    d.quoteTokens call (t :: ts) = t.text ++ d.quoteTokens (call.next t) ts := by
  cases t with
  | word w => cases ht
  | space | quoted | symbol | unterminated => simp [quoteTokens]

/-- A word that begins no pair is written on its own. -/
theorem quoteTokens_word {a : Text}
    (hp : ∀ b c us, ts = space b :: word c :: us → d.isKeptPair a c = false) :
    d.quoteTokens call (word a :: ts) =
      if (call == .opened && TrimCall.isSide a) || Text.isAnyKeyword d.expressionKeywords a then
        a ++ d.quoteTokens .none ts
      else d.quoteWord a ts ++ d.quoteTokens (.ofWord a) ts := by
  rw [quoteTokens.eq_def]
  split
  · rename_i h
    cases h
  · rename_i a' b c us h
    cases h
    have apart : (d.isKeywordPair a c || Chunk.isCollationKeyword a) = false := hp b c us rfl
    simp only [apart, Bool.or_eq_true, Bool.false_eq_true, if_false, ← ite_or]
  · rename_i h
    cases h
    simp only [Bool.or_eq_true, ← ite_or]
  · rename_i other h
    cases h
    exact (other _ rfl).elim

theorem opensCall_eq (ts : List Token) :
    opensCall ts = ((Token.skipSpace ts).head? == some (symbol '(')) := by
  unfold opensCall
  split
  · rename_i h
    rw [h]
    rfl
  · rename_i h
    symm
    rw [beq_eq_false_iff_ne]
    intro first
    obtain ⟨us, tokens⟩ := List.head?_eq_some_iff.mp first
    exact h us tokens

/-- Tokens that open no call open none behind others either. -/
theorem opensCall_append (opens : opensCall us = false) (ts : List Token) :
    opensCall (ts ++ us) = opensCall ts := by
  have head : us.head? ≠ some (symbol '(') := by
    intro first
    obtain ⟨vs, rfl⟩ := List.head?_eq_some_iff.mp first
    cases opens
  rw [opensCall_eq] at opens
  rw [opensCall_eq, opensCall_eq]
  cases ts with
  | nil => exact opens
  | cons t ts =>
      cases t with
      | space b =>
          cases ts with
          | nil => exact beq_eq_false_iff_ne.mpr head
          | cons t ts => rfl
      | word | quoted | symbol | unterminated => rfl

/-- No word at the end of some tokens makes up a pair with the first word of others. -/
def NoPair (d : Dialect) (ts us : List Token) : Prop :=
  ∀ a b c vs, ts.getLast? = some (word a) → us = space b :: word c :: vs →
    d.isKeptPair a c = false

theorem NoPair.of_cons {t : Token} (h : d.NoPair (t :: ts) us) : d.NoPair ts us :=
  fun a b c vs ha => h a b c vs (by rw [List.getLast?_cons, ha]; rfl)

/-- A word makes up no pair with what stands behind it, be it among the first tokens or the
others. -/
theorem NoPair.isKeptPair_eq_false {a : Text} (h : d.NoPair (word a :: ts) us)
    (first : ∀ t ∈ us.head?, t.isWord = false)
    (hn : ∀ b c vs, ts = space b :: word c :: vs → False) :
    ∀ b c vs, ts ++ us = space b :: word c :: vs → d.isKeptPair a c = false := by
  intro b c vs tokens
  cases ts with
  | nil => exact h a b c vs rfl tokens
  | cons t ts =>
      rw [List.cons_append] at tokens
      obtain ⟨rfl, more⟩ := List.cons.inj tokens
      cases ts with
      | nil =>
          have word := first (word c) (by rw [show us = _ from more]; rfl)
          cases word
      | cons t ts =>
          cases more
          exact (hn b c ts rfl).elim

/-- What stands behind some tokens is quoted on its own if it opens no call, reads no call and is no
second word of a pair. -/
theorem quoteTokens_append (first : ∀ t ∈ us.head?, t.isWord = false) (opens : opensCall us = false)
    (calls : ∀ call, d.quoteTokens call us = d.quoteTokens .none us) (pair : d.NoPair ts us) :
    d.quoteTokens call (ts ++ us) = d.quoteTokens call ts ++ d.quoteTokens .none us := by
  fun_induction quoteTokens d call ts with
  | case1 => exact calls _
  | case2 call a b c ts hs ih =>
      simp only [List.cons_append] at ih ⊢
      rw [quoteTokens, if_pos hs, ih pair.of_cons]
      simp
  | case3 call a b c ts hs hk ih =>
      simp only [List.cons_append] at ih ⊢
      rw [quoteTokens, if_neg hs, if_pos hk, ih pair.of_cons]
      simp
  | case4 call a b c ts hs hk hp ih =>
      simp only [List.cons_append] at ih ⊢
      rw [quoteTokens, if_neg hs, if_neg hk, if_pos hp, ih pair.of_cons.of_cons.of_cons]
      simp
  | case5 call a b c ts hs hk hp ih =>
      simp only [List.cons_append] at ih ⊢
      rw [quoteTokens, if_neg hs, if_neg hk, if_neg hp, ih pair.of_cons]
      rw [List.append_assoc, quoteWord, quoteWord]
      rfl
  | case6 call a ts hn hs ih =>
      rw [List.cons_append, quoteTokens_word (pair.isKeptPair_eq_false first hn),
        if_pos (by simp [hs]), ih pair.of_cons]
      simp
  | case7 call a ts hn hs hk ih =>
      rw [List.cons_append, quoteTokens_word (pair.isKeptPair_eq_false first hn),
        if_pos (by simp [hk]), ih pair.of_cons]
      simp
  | case8 call a ts hn hs hk ih =>
      rw [List.cons_append, quoteTokens_word (pair.isKeptPair_eq_false first hn),
        if_neg (by simp [hs, hk]), ih pair.of_cons, List.append_assoc, quoteWord, quoteWord,
        opensCall_append opens]
  | case9 call t ts hn hw ih =>
      have plain : t.isWord = false := by
        cases t with
        | word w => exact (hw w rfl).elim
        | space | quoted | symbol | unterminated => rfl
      rw [List.cons_append, quoteTokens_of_not_word plain, ih pair.of_cons, List.append_assoc]

theorem quoteTokens_symbol (c : Char) (ts : List Token) :
    d.quoteTokens .none (symbol c :: ts) = c :: d.quoteTokens .none ts := by
  rw [quoteTokens_of_not_word rfl, TrimCall.next_none]
  rfl

/-- A character of no word is written as it stands, in front of blanks too. -/
theorem quoteTokens_attach {c : Char} (hw : Text.isWordChar c = false) (ts : List Token) :
    d.quoteTokens .none (Token.attach (.char c) ts) = c :: d.quoteTokens .none ts := by
  have written (b : Text) (ts : List Token) :
      d.quoteTokens .none (space b :: ts) = b ++ d.quoteTokens .none ts :=
    quoteTokens_of_not_word rfl ts
  by_cases hb : Text.isBlank c = true
  · by_cases hs : ∃ b us, ts = space b :: us
    · obtain ⟨b, us, rfl⟩ := hs
      rw [Token.attach_space_space b us hb, written, written]
      rfl
    · have apart : ∀ t, ts.head? = some t → t.isSpace = false := by
        rintro t first
        obtain ⟨us, rfl⟩ := List.head?_eq_some_iff.mp first
        cases t with
        | space b => exact (hs ⟨b, us, rfl⟩).elim
        | word | quoted | symbol | unterminated => rfl
      rw [Token.attach_space hb apart, written]
      rfl
  · rw [Token.attach_symbol ts hw (Bool.eq_false_iff.mpr hb), quoteTokens_symbol]

/-- A word on its own is quoted if it is a name and no keyword of expressions. -/
theorem quoteNames_word {w : Text} (hw : w.IsWord) :
    d.quoteNames w =
      if Text.isAnyKeyword d.expressionKeywords w then w
      else if d.isName w then d.quoteName w else w := by
  have tokens : Token.ofText d w = [word w] := by
    have alone := Token.ofText_word_append (d := d) (u := []) hw (by simp)
    rwa [List.append_nil, Token.ofText_nil] at alone
  rw [quoteNames, tokens, quoteTokens_word (by simp)]
  simp [quoteTokens, quoteWord, opensCall, Token.skipSpace]

section Characters
variable {c : Char} (hq : d.isQuote c = false) (hw : Text.isWordChar c = false)
include hq hw

theorem quoteNames_cons (t : Text) : d.quoteNames (c :: t) = c :: d.quoteNames t := by
  rw [quoteNames, Token.ofText, Piece.ofText_char t hq, Token.ofPieces_cons, quoteTokens_attach hw]
  rfl

/-- In front of a character that is no blank and opens no group an expression is quoted on its
own. -/
theorem quoteNames_append_cons (ht : d.Closed t) (hb : Text.isBlank c = false) (ho : c ≠ '(')
    (u : Text) : d.quoteNames (t ++ c :: u) = d.quoteNames t ++ c :: d.quoteNames u := by
  have tokens : Token.ofText d (t ++ c :: u) =
      Token.ofText d t ++ symbol c :: Token.ofText d u := by
    have behind : Token.ofPieces (.char c :: Piece.ofText d u) = symbol c :: Token.ofText d u :=
      Token.ofPieces_symbol_cons _ hw hb
    rw [Token.ofText, ofText_append_separator ht hq, Token.ofPieces_append, behind]
    · rfl
    · intro p _
      rw [behind]
      exact Token.standsApart_of_head p (by rintro t ⟨⟩; exact ⟨rfl, rfl⟩)
  rw [quoteNames, tokens, quoteTokens_append, quoteTokens_symbol]
  · rfl
  · rintro t ⟨⟩
    rfl
  · rw [opensCall_eq]
    exact beq_eq_false_iff_ne.mpr fun h => ho (Token.symbol.inj (Option.some.inj h))
  · intro call
    rw [quoteTokens_of_not_word rfl, quoteTokens_symbol]
    cases call <;> simp [TrimCall.next, ho, Token.text]
  · rintro a b c' vs - tokens
    cases tokens

end Characters

section Blanks
variable {b : Text}

/-- Blanks between two texts are one token if there are no others next to them. -/
theorem ofText_append_blanks (ht : d.Closed t) (last : ∀ c ∈ t.getLast?, Text.isBlank c = false)
    (some : b ≠ []) (hb : ∀ c ∈ b, Text.isBlank c = true)
    (hu : ∀ c ∈ u.head?, Text.isBlank c = false) :
    Token.ofText d (t ++ (b ++ u)) = Token.ofText d t ++ space b :: Token.ofText d u := by
  have quote : ∀ c ∈ b, d.isQuote c = false := fun c hc => isQuote_of_isBlank (hb c hc)
  have pieces : Piece.ofText d (b ++ u) = b.map .char ++ Piece.ofText d u := by
    have lexed := (Piece.lexed_ofText d u).map_char quote
    rw [← lexed.ofText_textOf, Piece.textOf_append, Piece.textOf_map_char, Piece.textOf_ofText]
  have behind : Token.ofPieces (Piece.ofText d (b ++ u)) = space b :: Token.ofText d u := by
    rw [pieces, Token.ofPieces_space some hb (Token.isSpace_head?_ofText hu), Token.ofText]
  have all : Piece.ofText d (t ++ (b ++ u)) = Piece.ofText d t ++ Piece.ofText d (b ++ u) := by
    obtain ⟨c, b, rfl⟩ := List.exists_cons_of_ne_nil some
    have first := quote c List.mem_cons_self
    rw [List.cons_append, ofText_append_separator ht first, Piece.ofText_char _ first]
  have apart : ∀ p, (Piece.ofText d t).getLast? = .some p →
      Token.standsApart p (Token.ofPieces (Piece.ofText d (b ++ u))) := by
    intro p hp
    rw [behind]
    cases p with
    | literal | stray => rfl
    | char c =>
        have edge : t.getLast? = .some c := by
          rw [← Piece.textOf_ofText d t]
          obtain ⟨ps, tokens⟩ := List.getLast?_eq_some_iff.mp hp
          rw [tokens, Piece.textOf_append]
          simp [Piece.text]
        by_cases hw : Text.isWordChar c = true
        · exact Token.standsApart_of_word hw (by rintro t ⟨⟩; rfl)
        · exact Token.standsApart_of_symbol _ (Bool.eq_false_iff.mpr hw) (last c edge)
  rw [Token.ofText, all, Token.ofPieces_append apart, behind]
  rfl

/-- Behind blanks an expression is quoted on its own if it begins no call, reads no call and is no
second word of a pair. -/
theorem quoteNames_append_blanks (ht : d.Closed t)
    (last : ∀ c ∈ t.getLast?, Text.isBlank c = false) (some : b ≠ [])
    (hb : ∀ c ∈ b, Text.isBlank c = true) (hu : ∀ c ∈ u.head?, Text.isBlank c = false)
    (opens : u.head? ≠ .some '(')
    (calls : ∀ call, d.quoteTokens call (Token.ofText d u) = d.quoteNames u)
    (pair : ∀ a c, word a ∈ Token.ofText d t → word c ∈ (Token.ofText d u).head? →
      d.isKeptPair a c = false) :
    d.quoteNames (t ++ (b ++ u)) = d.quoteNames t ++ (b ++ d.quoteNames u) := by
  have blanks (call : TrimCall) :
      d.quoteTokens call (space b :: Token.ofText d u) = b ++ d.quoteNames u := by
    rw [quoteTokens_of_not_word rfl, calls]
    rfl
  rw [quoteNames, ofText_append_blanks ht last some hb hu, quoteTokens_append, blanks]
  · rfl
  · rintro t ⟨⟩
    rfl
  · rw [opensCall_eq]
    exact beq_eq_false_iff_ne.mpr fun first => opens (Token.head?_ofText_eq_open.mp first)
  · intro call
    rw [blanks, blanks]
  · intro a b' c vs front behind
    obtain ⟨-, behind⟩ := List.cons.inj behind
    refine pair a c (List.mem_of_getLast? front) ?_
    rw [behind]
    rfl

/-- Blanks at the end are written as they stand, and the tokens in front of them are the same. -/
theorem quoteNames_blanks_end (ht : d.Closed t)
    (last : ∀ c ∈ t.getLast?, Text.isBlank c = false) (hb : ∀ c ∈ b, Text.isBlank c = true) :
    d.quoteNames (t ++ b) = d.quoteNames t ++ b ∧
      ∀ w ∈ Token.ofText d t, w ∈ Token.ofText d (t ++ b) := by
  by_cases none : b = []
  · rw [none, List.append_nil, List.append_nil]
    exact ⟨rfl, fun w hw => hw⟩
  · have nothing : d.quoteNames [] = [] := by simp [quoteNames, quoteTokens]
    have tokens := ofText_append_blanks (u := []) ht last none hb (by simp)
    have written := quoteNames_append_blanks (u := []) ht last none hb (by simp) (by simp)
      (by simp [quoteNames, quoteTokens]) (by simp)
    rw [List.append_nil] at tokens written
    rw [nothing, List.append_nil] at written
    refine ⟨written, fun w hw => ?_⟩
    rw [tokens]
    exact List.mem_append_left _ hw

end Blanks

/-- Blanks at the end of an expression are written as they stand. -/
theorem exists_blanks (ht : d.isBalanced t = true) :
    ∃ front b, t = front ++ b ∧ d.isBalanced front = true ∧
      (∀ c ∈ front.getLast?, Text.isBlank c = false) ∧ (∀ c ∈ b, Text.isBlank c = true) := by
  induction t using List.reverseRecOn with
  | nil => exact ⟨[], [], rfl, ht, by simp, by simp⟩
  | append_singleton t c ih =>
      by_cases hc : Text.isBlank c = true
      · have rest := isBalanced_of_append ht (isSeparator_of_isWhite (Text.isWhite_of_isBlank hc))
        obtain ⟨front, b, rfl, balanced, last, blank⟩ := ih rest
        refine ⟨front, b ++ [c], List.append_assoc _ _ _, balanced, last, ?_⟩
        exact List.forall_mem_append.mpr ⟨blank, List.forall_mem_singleton.mpr hc⟩
      · refine ⟨t ++ [c], [], (List.append_nil _).symm, ht, ?_, by simp⟩
        intro c' hc'
        rw [List.getLast?_concat] at hc'
        cases hc'
        exact Bool.eq_false_iff.mpr hc

/-- A word that is no side of a TRIM call is written as if none had been read. -/
theorem quoteTokens_of_isSide {k : Text} (h : TrimCall.isSide k = false) (ts : List Token) :
    d.quoteTokens call (word k :: ts) = d.quoteTokens .none (word k :: ts) := by
  by_cases behind : ∃ b c us, ts = space b :: word c :: us
  · obtain ⟨b, c, us, rfl⟩ := behind
    rw [quoteTokens, quoteTokens]
    simp [h]
  · have alone : ∀ b c us, ts = space b :: word c :: us → d.isKeptPair k c = false :=
      fun b c us tokens => (behind ⟨b, c, us, tokens⟩).elim
    rw [quoteTokens_word alone, quoteTokens_word alone]
    simp [h]

/-- Behind a space a word that is neither the second one of a pair nor the side of a TRIM call is
quoted on its own. -/
theorem quoteNames_append_word {k v : Text} (ht : d.isBalanced t = true)
    (pair : ∀ w, word w ∈ Token.ofText d t → d.isKeptPair w k = false) (hk : k.IsWord)
    (side : TrimCall.isSide k = false) (hv : ∀ c ∈ v.head?, Text.isWordChar c = false) :
    d.quoteNames (t ++ ' ' :: (k ++ v)) = d.quoteNames t ++ ' ' :: d.quoteNames (k ++ v) := by
  obtain ⟨front, b, rfl, balanced, last, blank⟩ := exists_blanks ht
  have closed := closed_of_isBalanced balanced
  have tokens : Token.ofText d (k ++ v) = word k :: Token.ofText d v :=
    Token.ofText_word_append hk hv
  have first : ∀ c ∈ (k ++ v).head?, Text.isWordChar c = true := by
    obtain ⟨c, k, rfl⟩ := List.exists_cons_of_ne_nil hk.1
    rintro c ⟨⟩
    exact hk.2 c List.mem_cons_self
  obtain ⟨alone, mem⟩ := quoteNames_blanks_end closed last blank
  have second : ∀ a c, word a ∈ Token.ofText d front → word c ∈ (Token.ofText d (k ++ v)).head? →
      d.isKeptPair a c = false := by
    intro a c ha hc
    rw [tokens] at hc
    cases hc
    exact pair a (mem _ ha)
  have calls (call : TrimCall) :
      d.quoteTokens call (Token.ofText d (k ++ v)) = d.quoteNames (k ++ v) := by
    rw [quoteNames, tokens, quoteTokens_of_isSide side]
  have spaces : ∀ c ∈ b ++ [' '], Text.isBlank c = true :=
    List.forall_mem_append.mpr ⟨blank, List.forall_mem_singleton.mpr rfl⟩
  have written := quoteNames_append_blanks closed last (List.append_ne_nil_of_right_ne_nil b
    (List.cons_ne_nil ' ' [])) spaces (fun c hc => Text.isBlank_of_isWordChar (first c hc))
    (fun hc => by have := first _ hc; cases this) calls second
  rw [alone, List.append_assoc, List.append_assoc]
  simpa using written

end Dialect
end SqlStatement
