import SqlStatement.Proofs.Parting
import SqlStatement.Proofs.Requoting

/-!
# CASE expressions

The operands of a CASE expression stand between keywords, and quoting the names
of an operand does not look past a keyword. So a CASE expression is quoted
operand by operand, as long as no operand ends with a word that takes the
keyword behind it for a collation. ELSE is no keyword of expressions: it is a
name like any other, and a function in front of a parenthesis. Quoting keeps the
words of an expression, so no CAST comes up that was not there.
-/
namespace SqlStatement
open Token (word space symbol)

namespace Token
variable {d : Dialect} {ts : List Token} {out t : Text}

/-- The words of a token. -/
def words : Token → List Text
  | word w => [w]
  | t => Text.words t.text

/-- A token that is a word, or begins and ends with characters of no word. -/
def Framed : Token → Prop
  | word w => w.IsWord
  | t => (∀ c ∈ t.text.head?, Text.isWordChar c = false) ∧
      ∃ v c, t.text = v ++ [c] ∧ Text.isWordChar c = false

theorem framed_ofText (ht : d.Closed t) : ∀ u ∈ ofText d t, u.Framed := by
  intro u hu
  have proper := (tidy_ofText d t).proper u hu
  have whole {p : Piece} (hp : p ∈ u.pieces) : p.Whole d :=
    ht.whole (mem_ofText_of_mem_pieces hu hp)
  have quote {q : Char} (hq : d.isQuote q = true) : Text.isWordChar q = false := by
    by_contra hw
    rw [Dialect.isQuote_of_isWordChar (by simpa using hw)] at hq
    cases hq
  cases u with
  | word w => exact proper
  | space b =>
      obtain ⟨some, blank⟩ := proper
      have part {c : Char} (hc : c ∈ b) : Text.isWordChar c = false :=
        Text.isWordChar_of_isBlank (blank c hc)
      exact ⟨fun c hc => part (List.mem_of_mem_head? hc), b.dropLast, b.getLast some,
        (List.dropLast_concat_getLast some).symm, part (List.getLast_mem some)⟩
  | symbol c => exact ⟨by rintro c' ⟨⟩; exact proper.1, [], c, rfl, proper.1⟩
  | quoted x =>
      have literal : (Piece.literal x).Whole d := whole (by simp [pieces])
      obtain ⟨q, body, rfl, hq⟩ := Dialect.literal?_ends literal
      exact ⟨by rintro c ⟨⟩; exact quote hq, q :: body, q, rfl, quote hq⟩
  | unterminated q => exact (whole (p := .stray q) (by simp [pieces])).elim

/-- Tokens as they are written one behind the other, some words in identifier quotes. -/
inductive Writes (d : Dialect) : List Token → Text → Prop
  | nil : Writes d [] []
  | keep (t : Token) {ts : List Token} {out : Text} (h : Writes d ts out) :
      Writes d (t :: ts) (t.text ++ out)
  | quote (w : Text) {ts : List Token} {out : Text} (h : Writes d ts out) :
      Writes d (word w :: ts) (d.quoteName w ++ out)

theorem writes_textOf (ts : List Token) : Writes d ts (textOf ts) := by
  induction ts with
  | nil => exact .nil
  | cons t ts ih => exact .keep t ih

theorem writes_quoteTokens (call : TrimCall) (ts : List Token) :
    Writes d ts (d.quoteTokens call ts) := by
  have ordinary (w : Text) {ts : List Token} {out : Text} (h : Writes d ts out) :
      Writes d (word w :: ts) (d.quoteWord w ts ++ out) := by
    unfold Dialect.quoteWord
    split
    · exact .quote w h
    · exact .keep (word w) h
  fun_induction Dialect.quoteTokens d call ts with
  | case1 => exact .nil
  | case2 _ a _ _ _ _ ih | case3 _ a _ _ _ _ _ ih | case6 _ a _ _ _ ih | case7 _ a _ _ _ _ ih =>
      exact .keep (word a) ih
  | case4 _ a b c _ _ _ _ ih =>
      rw [List.append_assoc, List.append_assoc]
      exact .keep (word a) (.keep (space b) (.keep (word c) ih))
  | case5 _ a _ _ _ _ _ _ ih | case8 _ a _ _ _ _ ih => exact ordinary a ih
  | case9 _ t _ _ _ ih => exact .keep t ih

namespace Writes
variable (h : Writes d ts out) (framed : ∀ t ∈ ts, t.Framed)
include h framed

/-- What is written for tokens begins with a word only if they do. -/
theorem head? (first : ∀ t ∈ ts.head?, t.isWord = false) :
    ∀ c ∈ out.head?, Text.isWordChar c = false := by
  cases h with
  | nil => rintro c ⟨⟩
  | quote w => cases first (word w) rfl
  | keep t =>
      have edge := framed t List.mem_cons_self
      have plain := first t rfl
      cases t with
      | word w => cases plain
      | space | symbol | quoted | unterminated =>
          obtain ⟨begins, v, c, text, -⟩ := edge
          intro c' hc
          apply begins
          rw [text] at hc ⊢
          simpa using hc

/-- The words of what is written for tokens are those of the tokens. -/
theorem words_eq (tidy : Tidy ts) : Text.words out = ts.flatMap words := by
  have quote : Text.isWordChar d.identifierQuote = false := by cases d <;> decide
  induction h with
  | nil => rfl
  | keep t h ih =>
      obtain ⟨first, rest⟩ := List.forall_mem_cons.mp framed
      obtain ⟨-, tidy, apart⟩ := tidy_cons_iff.mp tidy
      rw [List.flatMap_cons, ← ih rest tidy]
      cases t with
      | word w =>
          have edge := h.head? rest fun u hu => (apart u hu).1 rfl
          exact Text.words_word_append first.1 first.2 edge
      | space | symbol | quoted | unterminated =>
          obtain ⟨-, v, c, text, hc⟩ := first
          have none : Text.words [] = [] := rfl
          rw [words, text, List.append_assoc, List.singleton_append, Text.words_append_cons hc,
            Text.words_append_cons hc, none, List.append_nil]
          simp
  | quote w h ih =>
      obtain ⟨first, rest⟩ := List.forall_mem_cons.mp framed
      obtain ⟨-, tidy, -⟩ := tidy_cons_iff.mp tidy
      rw [List.flatMap_cons, ← ih rest tidy, Dialect.quoteName, List.cons_append, List.append_assoc,
        Text.words_cons quote, List.singleton_append, Text.words_append_cons quote,
        Text.words_of_word first.1 first.2]
      rfl

end Writes

end Token

namespace Dialect
variable {d : Dialect} {t w : Text}

/-- The words of a text are those of its tokens. -/
theorem words_ofText (ht : d.Closed t) :
    Text.words t = (Token.ofText d t).flatMap Token.words := by
  have plain := (Token.writes_textOf (d := d) (Token.ofText d t)).words_eq
    (Token.framed_ofText ht) (Token.tidy_ofText d t)
  rwa [Token.textOf_ofText] at plain

/-- Quoting the names of an expression keeps its words. -/
theorem words_quoteNames (ht : d.Closed t) : Text.words (d.quoteNames t) = Text.words t := by
  have quoted := (Token.writes_quoteTokens (d := d) .none (Token.ofText d t)).words_eq
    (Token.framed_ofText ht) (Token.tidy_ofText d t)
  exact quoted.trans (words_ofText ht).symm

theorem mem_words_of_mem (ht : d.Closed t) (hw : word w ∈ Token.ofText d t) :
    w ∈ Text.words t := by
  rw [words_ofText ht]
  exact List.mem_flatMap.mpr ⟨word w, hw, List.mem_singleton_self w⟩

end Dialect

theorem Text.isWord_of_isAnyKeyword {ks : List String} {w : Text} (h : isAnyKeyword ks w = true)
    (hk : ∀ k ∈ ks, k.toList ≠ [] ∧ k.toList.all Char.isAlpha = true) : w.IsWord := by
  obtain ⟨some, letters⟩ := isAlpha_of_isAnyKeyword h hk
  exact ⟨some, fun c hc => by simp [isWordChar, Char.isAlphanum, letters c hc]⟩

namespace CastTarget
variable {before : Option Char} {t : Text}

/-- Where a CAST call is mentioned the word CAST begins. -/
theorem exists_of_isMentioned (h : isMentioned before t = true) :
    ∃ u v, t = u ++ v ∧ Text.startsWord (u.getLast?.or before) = true ∧
      Text.isKeyword "CAST" (v.take 4) = true ∧
      (Text.skipBlanks (v.drop 4)).head? = some '(' := by
  induction t generalizing before with
  | nil => cases h
  | cons c t ih =>
      rw [isMentioned, Bool.or_eq_true, Bool.and_eq_true, Bool.and_eq_true, beq_iff_eq] at h
      rcases h with ⟨⟨start, cast⟩, opens⟩ | h
      · exact ⟨[], c :: t, rfl, start, cast, opens⟩
      · obtain ⟨u, v, rfl, start, cast⟩ := ih h
        refine ⟨c :: u, v, rfl, ?_, cast⟩
        rw [List.getLast?_cons, Option.some_or]
        cases last : u.getLast? <;> simpa [last] using start

/-- The word CAST is among the words of a text that mentions a CAST call. -/
theorem mem_words_of_isMentioned (h : isMentioned none t = true) :
    ∃ w ∈ Text.words t, Text.isKeyword "CAST" w = true := by
  obtain ⟨u, v, rfl, start, cast, opens⟩ := exists_of_isMentioned h
  have keyword : Text.isAnyKeyword ["CAST"] (v.take 4) = true := by
    simpa [Text.isAnyKeyword] using cast
  have whole : Text.IsWord (v.take 4) := Text.isWord_of_isAnyKeyword keyword (by decide)
  -- A blank or the parenthesis stands behind the four letters, so they are a whole word.
  have edge : ∀ c ∈ (v.drop 4).head?, Text.isWordChar c = false := by
    intro c hc
    obtain ⟨r, rest⟩ := List.head?_eq_some_iff.mp hc
    by_contra hw
    rw [Bool.not_eq_false] at hw
    rw [rest, Text.skipBlanks, List.dropWhile_cons_of_neg (by simp [Text.isBlank_of_isWordChar hw])]
      at opens
    cases opens
    cases hw
  have behind : Text.words v = v.take 4 :: Text.words (v.drop 4) := by
    rw [← Text.words_word_append whole.1 whole.2 edge, List.take_append_drop]
  refine ⟨v.take 4, ?_, cast⟩
  rw [Option.or_none] at start
  rcases List.eq_nil_or_concat u with rfl | ⟨u, c, rfl⟩
  · rw [List.nil_append, behind]
    exact List.mem_cons_self
  · rw [List.concat_eq_append, List.getLast?_concat] at start
    rw [List.concat_eq_append, List.append_assoc, List.singleton_append,
      Text.words_append_cons (by simpa [Text.startsWord] using start), behind]
    simp

end CastTarget

theorem Text.words_joinWith_space (ts : List Text) :
    words (joinWith [' '] ts) = ts.flatMap words := by
  induction ts with
  | nil => rfl
  | cons t ts ih =>
      cases ts with
      | nil => rw [joinWith_singleton, List.flatMap_singleton]
      | cons u us =>
          rw [joinWith_cons_cons, List.append_assoc, List.singleton_append,
            words_append_cons (by decide), ih]
          rfl

namespace Dialect
variable {d : Dialect} {t : Text} {ts : List Text}

/-- A balanced expression that has no word of a CAST call or of a collation. -/
structure IsOperand (d : Dialect) (t : Text) : Prop where
  isBalanced : d.isBalanced t = true
  words : ∀ w ∈ Text.words t, Text.isAnyKeyword ["CAST", "COLLATE", "USING"] w = false

namespace IsOperand

/-- An expression that does not mention CAST has its names in quotes and nothing else. -/
theorem quoteSmart {s : Settings} (h : s.dialect.IsOperand t) :
    quoteSmart s t = .ok (s.dialect.quoteNames t) := by
  rw [SqlStatement.quoteSmart, if_neg]
  intro mentioned
  obtain ⟨w, mem, cast⟩ := CastTarget.mem_words_of_isMentioned mentioned
  rw [words_quoteNames (closed_of_isBalanced h.isBalanced)] at mem
  have other := h.words w mem
  simp [Text.isAnyKeyword, cast] at other

theorem quoteIdentifier {s : Settings} (h : s.dialect.IsOperand t) :
    quoteIdentifier s .smart t = .ok (s.dialect.quoteNames t) := by
  rw [SqlStatement.quoteIdentifier, if_pos h.isBalanced, h.quoteSmart]

/-- What is accepted and has none of the words is an operand. -/
theorem of_quoteIdentifier {s : Settings} {out : Text}
    (h : SqlStatement.quoteIdentifier s .smart t = .ok out)
    (hw : ∀ w ∈ Text.words t, Text.isAnyKeyword ["CAST", "COLLATE", "USING"] w = false) :
    s.dialect.IsOperand t ∧ out = s.dialect.quoteNames t := by
  have balanced : s.dialect.isBalanced t = true := by
    by_contra other
    rw [SqlStatement.quoteIdentifier, if_neg other] at h
    cases h
  have operand : s.dialect.IsOperand t := ⟨balanced, hw⟩
  rw [operand.quoteIdentifier] at h
  exact ⟨operand, (Except.ok.inj h).symm⟩

theorem joinWith_space (h : ∀ t ∈ ts, d.IsOperand t) : d.IsOperand (Text.joinWith [' '] ts) := by
  refine ⟨isBalanced_joinWith (isBalanced_of_trim (by decide)) fun t ht => (h t ht).isBalanced, ?_⟩
  rw [Text.words_joinWith_space]
  intro w hw
  obtain ⟨t, ht, hw⟩ := List.mem_flatMap.mp hw
  exact (h t ht).words w hw

end IsOperand

end Dialect

namespace Dialect
variable {d : Dialect} {call : TrimCall} {t u k : Text}

/-- Whether an opening parenthesis comes next is a question of the first character that is no
blank. -/
theorem opensCall_ofText (d : Dialect) (t : Text) :
    opensCall (Token.ofText d t) = ((Text.skipBlanks t).head? == some '(') := by
  have blank : ∀ c ∈ t.takeWhile Text.isBlank, Text.isBlank c = true :=
    fun c hc => List.mem_takeWhile_imp hc
  have behind := Text.isBlank_head?_skipBlanks t
  have cut : t = t.takeWhile Text.isBlank ++ Text.skipBlanks t :=
    List.takeWhile_append_dropWhile.symm
  have tokens : Token.skipSpace (Token.ofText d t) = Token.ofText d (Text.skipBlanks t) := by
    by_cases none : t.takeWhile Text.isBlank = []
    · rw [none, List.nil_append] at cut
      rw [← cut]
      exact Token.skipSpace_ofText (by rw [cut]; exact behind)
    · have read := ofText_append_blanks (closed_of_isBalanced (d := d) isBalanced_nil) (by simp)
        none blank behind
      rw [List.nil_append, ← cut, Token.ofText_nil, List.nil_append] at read
      rw [read]
      rfl
  rw [opensCall_eq, tokens, Bool.eq_iff_iff, beq_iff_eq, beq_iff_eq]
  exact Token.head?_ofText_eq_open

theorem quoteTokens_keyword (hk : Text.isAnyKeyword d.expressionKeywords k = true)
    (ts : List Token) : d.quoteTokens call (word k :: ts) = k ++ d.quoteTokens .none ts := by
  by_cases pair : ∃ b c us, ts = space b :: word c :: us
  · obtain ⟨b, c, us, rfl⟩ := pair
    rw [quoteTokens]
    simp [hk]
  · rw [quoteTokens_word fun b c us tokens => (pair ⟨b, c, us, tokens⟩).elim]
    simp [hk]

theorem quoteNames_space (d : Dialect) (t : Text) :
    d.quoteNames (' ' :: t) = ' ' :: d.quoteNames t :=
  quoteNames_cons (by cases d <;> rfl) (by decide) t

/-- Behind a keyword an expression is quoted on its own. -/
theorem quoteNames_keyword (hk : Text.isAnyKeyword d.expressionKeywords k = true) (t : Text) :
    d.quoteNames (k ++ ' ' :: t) = k ++ ' ' :: d.quoteNames t := by
  have whole : k.IsWord := Text.isWord_of_isAnyKeyword hk (by cases d <;> decide)
  rw [quoteNames, Token.ofText_word_append whole (by rintro c ⟨⟩; rfl), quoteTokens_keyword hk]
  exact congrArg (k ++ ·) (quoteNames_space d t)

/-- ELSE as it is written in front of an operand: a function if the operand begins with a
parenthesis, a name if it does not. -/
def quoteElse (d : Dialect) (t : Text) : Text :=
  if (Text.skipBlanks t).head? = some '(' then "ELSE".toList else d.quoteName "ELSE".toList

theorem quoteNames_else (d : Dialect) (t : Text) :
    d.quoteNames ("ELSE".toList ++ ' ' :: t) = d.quoteElse t ++ ' ' :: d.quoteNames t := by
  have whole : Text.IsWord "ELSE".toList := by decide
  have name : d.isName "ELSE".toList = true := by cases d <;> rfl
  have ordinary : Text.isAnyKeyword d.expressionKeywords "ELSE".toList = false := by
    cases d <;> decide
  have behind : (Text.skipBlanks (' ' :: t)) = Text.skipBlanks t := rfl
  rw [quoteNames, Token.ofText_word_append whole (by rintro c ⟨⟩; rfl), quoteTokens_word,
    if_neg (by rw [ordinary]; decide), quoteWord, name, opensCall_ofText, behind, quoteElse]
  · rw [show TrimCall.ofWord "ELSE".toList = .none by decide,
      show d.quoteTokens .none (Token.ofText d (' ' :: t)) = _ from quoteNames_space d t]
    congr 1
    by_cases opens : (Text.skipBlanks t).head? = some '(' <;> simp [opens]
  · rintro b c us -
    cases d <;> rfl

theorem quoteElse_append_space (t : Text) {u : Text} (hu : (Text.skipBlanks u).head? ≠ some '(') :
    d.quoteElse (t ++ ' ' :: u) = d.quoteElse t := by
  have opens : (Text.skipBlanks (t ++ ' ' :: u)).head? = some '(' ↔
      (Text.skipBlanks t).head? = some '(' := by
    rw [Text.skipBlanks, List.dropWhile_append]
    split
    · rename_i none
      rw [Text.skipBlanks, List.isEmpty_iff.mp none]
      exact iff_of_false hu (by simp)
    · rename_i some
      obtain ⟨c, t, rest⟩ := List.exists_cons_of_ne_nil fun none => some (List.isEmpty_iff.mpr none)
      rw [Text.skipBlanks, rest]
      rfl
  rw [quoteElse, quoteElse]
  exact if_congr opens rfl rfl

/-- In front of a keyword an operand is quoted on its own. -/
theorem IsOperand.quoteNames_append (h : d.IsOperand t) (hk : k.IsWord)
    (side : TrimCall.isSide k = false) (like : Text.isKeyword "LIKE" k = false)
    (hu : ∀ c ∈ u.head?, Text.isWordChar c = false) :
    d.quoteNames (t ++ ' ' :: (k ++ u)) = d.quoteNames t ++ ' ' :: d.quoteNames (k ++ u) := by
  refine quoteNames_append_word h.isBalanced (fun w mem => ?_) hk side hu
  have other := h.words w (mem_words_of_mem (closed_of_isBalanced h.isBalanced) mem)
  simp [isKeptPair, isKeywordPair, like, Chunk.isCollationKeyword, Text.isAnyKeyword] at other ⊢
  exact other.2

end Dialect

/-- A CASE expression of one branch, with the word that stands in front of the last operand. -/
def caseText (condition value word otherwise : Text) : Text :=
  Text.joinWith [' '] ["CASE".toList, "WHEN".toList, condition, "THEN".toList, value, word,
    otherwise, "END".toList]

theorem caseText_eq (a b k c : Text) :
    caseText a b k c = "CASE".toList ++ ' ' :: ("WHEN".toList ++ ' ' :: (a ++ ' ' ::
      ("THEN".toList ++ ' ' :: (b ++ ' ' :: (k ++ ' ' ::
        (c ++ ' ' :: ("END".toList ++ []))))))) := by
  simp [caseText, Text.joinWith_cons_cons]

namespace Dialect.IsOperand
variable {d : Dialect} {a b c : Text} (ha : d.IsOperand a) (hb : d.IsOperand b) (hc : d.IsOperand c)
include ha hb hc

theorem caseText : d.IsOperand (caseText a b "ELSE".toList c) := by
  have keyword : ∀ k ∈ ["CASE", "WHEN", "THEN", "ELSE", "END"], d.IsOperand k.toList := by
    intro k hk
    refine ⟨?_, ?_⟩
    · revert k
      cases d <;> decide +kernel
    · revert k
      decide +kernel
  apply joinWith_space
  simp only [List.forall_mem_cons, List.not_mem_nil, false_implies, implies_true, and_true]
    at keyword ⊢
  obtain ⟨start, first, second, other, last⟩ := keyword
  exact ⟨start, first, ha, second, hb, other, hc, last⟩

/-- The operands of a CASE expression are quoted on their own. -/
theorem quoteNames_caseText :
    d.quoteNames (SqlStatement.caseText a b "ELSE".toList c) =
      SqlStatement.caseText (d.quoteNames a) (d.quoteNames b) (d.quoteElse c) (d.quoteNames c) := by
  have keyword (k : String) (hk : k ∈ ["CASE", "WHEN", "THEN", "END"]) :
      Text.isAnyKeyword d.expressionKeywords k.toList = true := by
    revert k
    cases d <;> decide +kernel
  have ends : d.quoteNames ("END".toList ++ []) = "END".toList ++ [] := by
    rw [List.append_nil, quoteNames_word (by decide), if_pos (keyword _ (by decide))]
  rw [caseText_eq, caseText_eq, quoteNames_keyword (keyword _ (by decide)),
    quoteNames_keyword (keyword _ (by decide)),
    ha.quoteNames_append (by decide) (by decide) (by decide) (by rintro c ⟨⟩; rfl),
    quoteNames_keyword (keyword _ (by decide)),
    hb.quoteNames_append (by decide) (by decide) (by decide) (by rintro c ⟨⟩; rfl),
    quoteNames_else,
    hc.quoteNames_append (by decide) (by decide) (by decide) (by rintro c ⟨⟩),
    ends, quoteElse_append_space c (by decide)]

end Dialect.IsOperand

section Case
variable {s : Settings} {a b c a' b' c' : Text}

/-- A CASE expression is quoted operand by operand, and the word ELSE is quoted as well unless the
last operand begins with a parenthesis. -/
theorem quoteIdentifier_caseText (ha : quoteIdentifier s .smart a = .ok a')
    (hb : quoteIdentifier s .smart b = .ok b') (hc : quoteIdentifier s .smart c = .ok c')
    (hw : ∀ w ∈ Text.words a ++ Text.words b ++ Text.words c,
      Text.isAnyKeyword ["CAST", "COLLATE", "USING"] w = false) :
    quoteIdentifier s .smart (caseText a b "ELSE".toList c) =
        .ok (caseText a' b' (s.dialect.quoteElse c) c') ∧
      (quoteIdentifier s .smart (caseText a b "ELSE".toList c) =
          .ok (caseText a' b' "ELSE".toList c') ↔ (Text.skipBlanks c).head? = some '(') := by
  rw [List.forall_mem_append, List.forall_mem_append] at hw
  obtain ⟨condition, rfl⟩ := Dialect.IsOperand.of_quoteIdentifier ha hw.1.1
  obtain ⟨value, rfl⟩ := Dialect.IsOperand.of_quoteIdentifier hb hw.1.2
  obtain ⟨otherwise, rfl⟩ := Dialect.IsOperand.of_quoteIdentifier hc hw.2
  have written := (condition.caseText value otherwise).quoteIdentifier
  rw [condition.quoteNames_caseText value otherwise] at written
  refine ⟨written, ?_⟩
  rw [written, Except.ok.injEq]
  refine ⟨fun same => ?_, fun opens => by rw [Dialect.quoteElse, if_pos opens]⟩
  -- A quoted ELSE makes the expression longer by two characters.
  by_contra name
  have length := congrArg List.length same
  simp [caseText, Text.joinWith_cons_cons, Dialect.quoteElse, name, Dialect.quoteName] at length

theorem quoteIdentifier_caseText_group :
    quoteIdentifier {} .smart (caseText "a = 1".toList "'x'".toList "ELSE".toList "(b)".toList) =
      .ok (caseText "`a` = 1".toList "'x'".toList "ELSE".toList "(`b`)".toList) :=
  (quoteIdentifier_caseText (s := {}) (by decide +kernel) (by decide +kernel) (by decide +kernel)
    (by decide +kernel)).2.mpr (by decide)

/-- In front of anything but a group the word ELSE is taken for a name. -/
theorem not_quoteIdentifier_caseText :
    ¬∀ (s : Settings) (a b c a' b' c' : Text),
      (∀ t ∈ [a, b, c], t ≠ [] ∧ t.head? ≠ some '(' ∧
        ∀ w ∈ Text.words t, Text.isAnyKeyword ["CAST", "COLLATE", "USING"] w = false) →
      quoteIdentifier s .smart a = .ok a' → quoteIdentifier s .smart b = .ok b' →
      quoteIdentifier s .smart c = .ok c' →
      quoteIdentifier s .smart (caseText a b "ELSE".toList c) =
        .ok (caseText a' b' "ELSE".toList c') := by
  intro h
  have kept := h {} "a".toList "b".toList "c".toList "`a`".toList "`b`".toList "`c`".toList
    (by decide +kernel) (by decide +kernel) (by decide +kernel) (by decide +kernel)
  have quoted : quoteIdentifier {} .smart
      (caseText "a".toList "b".toList "ELSE".toList "c".toList) =
      .ok "CASE WHEN `a` THEN `b` `ELSE` `c` END".toList := by
    decide +kernel
  rw [quoted] at kept
  exact absurd kept (by decide)

end Case

end SqlStatement
