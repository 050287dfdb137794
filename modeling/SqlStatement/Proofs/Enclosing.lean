import SqlStatement.Proofs.Decoding

/-!
# String literals among other text

The literal of a text is read off any text it stands in, as long as no further
quote follows it. The same holds of the bytes of the text. There a backslash
takes a single byte along, which need not be a whole character; but what is left
of a character beyond ASCII is neither a quote nor a backslash, so the literal
closes at the same place.
-/
namespace SqlStatement

namespace Text

/-- The bytes of a text in UTF-8. -/
def bytes (t : Text) : List UInt8 := t.flatMap String.utf8EncodeChar

@[simp] theorem bytes_nil : bytes [] = [] := rfl

theorem bytes_cons (c : Char) (t : Text) :
    bytes (c :: t) = String.utf8EncodeChar c ++ bytes t := List.flatMap_cons

theorem length_bytes_cons (c : Char) (t : Text) :
    (bytes (c :: t)).length = c.utf8Size + (bytes t).length := by
  rw [bytes_cons, List.length_append, String.length_utf8EncodeChar]

theorem bytes_append (t u : Text) : bytes (t ++ u) = bytes t ++ bytes u := List.flatMap_append

theorem le_toNat_or (b : UInt8) {m : UInt8} (hm : 128 ≤ m.toNat) : 128 ≤ (b ||| m).toNat := by
  rw [UInt8.toNat_or]
  exact Nat.le_trans hm Nat.right_le_or

/-- An ASCII character is a single byte, and of any other no byte is an ASCII character. -/
theorem utf8EncodeChar_cases (c : Char) :
    (c.toNat < 128 ∧ String.utf8EncodeChar c = [c.toUInt8]) ∨
      (128 ≤ c.toNat ∧ ∃ b bs, String.utf8EncodeChar c = b :: bs ∧
        ∀ x ∈ b :: bs, 128 ≤ x.toNat) := by
  have wide (h : c.utf8Size ≠ 1) : 128 ≤ c.toNat := by
    have above := mt Char.utf8Size_eq_one_iff.mpr h
    rwa [UInt32.le_iff_toNat_le, Nat.not_le] at above
  obtain h | h | h | h := Char.utf8Size_eq c
  · refine .inl ⟨?_, String.utf8EncodeChar_eq_singleton h⟩
    exact Nat.lt_succ_of_le (UInt32.le_iff_toNat_le.mp (Char.utf8Size_eq_one_iff.mp h))
  · refine .inr ⟨wide (by omega), _, _, String.utf8EncodeChar_eq_cons_cons h, ?_⟩
    simp only [List.forall_mem_cons]
    refine ⟨le_toNat_or _ ?_, le_toNat_or _ ?_, List.forall_mem_nil _⟩
    all_goals decide
  · refine .inr ⟨wide (by omega), _, _, String.utf8EncodeChar_eq_cons_cons_cons h, ?_⟩
    simp only [List.forall_mem_cons]
    refine ⟨le_toNat_or _ ?_, le_toNat_or _ ?_, le_toNat_or _ ?_, List.forall_mem_nil _⟩
    all_goals decide
  · refine .inr ⟨wide (by omega), _, _, String.utf8EncodeChar_eq_cons_cons_cons_cons h, ?_⟩
    simp only [List.forall_mem_cons]
    refine ⟨le_toNat_or _ ?_, le_toNat_or _ ?_, le_toNat_or _ ?_, le_toNat_or _ ?_,
      List.forall_mem_nil _⟩
    all_goals decide

theorem bytes_cons_of_lt {c : Char} (hc : c.toNat < 128) (t : Text) :
    bytes (c :: t) = c.toUInt8 :: bytes t := by
  obtain ⟨-, single⟩ | ⟨wide, -⟩ := utf8EncodeChar_cases c
  · rw [bytes_cons, single, List.singleton_append]
  · omega

theorem utf8Size_of_lt {c : Char} (hc : c.toNat < 128) : c.utf8Size = 1 :=
  Char.utf8Size_eq_one_iff.mpr (UInt32.le_iff_toNat_le.mpr (Nat.le_of_lt_succ hc))

theorem toNat_toUInt8 {c : Char} (hc : c.toNat < 128) : c.toUInt8.toNat = c.toNat :=
  Nat.mod_eq_of_lt (by omega : c.toNat < 256)

/-- ASCII characters are told apart by their bytes. -/
theorem toUInt8_inj {c q : Char} (hc : c.toNat < 128) (hq : q.toNat < 128) :
    c.toUInt8 = q.toUInt8 ↔ c = q := by
  rw [← UInt8.toNat_inj, toNat_toUInt8 hc, toNat_toUInt8 hq, Char.toNat_inj]

theorem ne_toUInt8 {b : UInt8} {q : Char} (hb : 128 ≤ b.toNat) (hq : q.toNat < 128) :
    b ≠ q.toUInt8 := by
  rintro rfl
  rw [toNat_toUInt8 hq] at hb
  omega

end Text

/-- How many bytes stand behind an opening quote up to the one that closes it, itself included. A
backslash takes one byte along. -/
def Escape.closeBytes? (e : Escape) (q : UInt8) : List UInt8 → Option Nat
  | [] => none
  | [b] => if b = q then some 1 else none
  | b :: b' :: rest =>
      if b = '\\'.toUInt8 ∧ e = .backslash then (e.closeBytes? q rest).map (· + 2)
      else if b = q then
        if b' = q ∧ e ≠ .never then (e.closeBytes? q rest).map (· + 2) else some 1
      else (e.closeBytes? q (b' :: rest)).map (· + 1)

namespace Escape
variable {e : Escape} {q : Char}

theorem closeBytes?_cons_of_ne {q b : UInt8} (bs : List UInt8) (hq : b ≠ q)
    (hb : ¬(b = '\\'.toUInt8 ∧ e = .backslash)) :
    e.closeBytes? q (b :: bs) = (e.closeBytes? q bs).map (· + 1) := by
  cases bs with
  | nil => simp [closeBytes?, hq]
  | cons b' bs => rw [closeBytes?, if_neg hb, if_neg hq]

/-- The scan passes over bytes beyond ASCII one by one. -/
theorem closeBytes?_append (hq : q.toNat < 128) {bs : List UInt8}
    (hbs : ∀ b ∈ bs, 128 ≤ b.toNat) (rest : List UInt8) :
    e.closeBytes? q.toUInt8 (bs ++ rest) =
      (e.closeBytes? q.toUInt8 rest).map (· + bs.length) := by
  induction bs with
  | nil => simp
  | cons b bs ih =>
      rw [List.forall_mem_cons] at hbs
      have plain : b ≠ '\\'.toUInt8 := Text.ne_toUInt8 hbs.1 (by decide)
      rw [List.cons_append, closeBytes?_cons_of_ne _ (Text.ne_toUInt8 hbs.1 hq) fun h => plain h.1,
        ih hbs.2, Option.map_map]
      rfl

variable {c : Char}

/-- An ordinary character is passed over with all its bytes. -/
theorem closeBytes?_bytes_cons (hq : q.toNat < 128) (hc : c ≠ q)
    (hb : ¬(c = '\\' ∧ e = .backslash)) (t : Text) :
    e.closeBytes? q.toUInt8 (Text.bytes (c :: t)) =
      (e.closeBytes? q.toUInt8 (Text.bytes t)).map (· + c.utf8Size) := by
  obtain ⟨low, -⟩ | ⟨-, b, bs, encoded, high⟩ := Text.utf8EncodeChar_cases c
  · rw [Text.bytes_cons_of_lt low, Text.utf8Size_of_lt low]
    refine closeBytes?_cons_of_ne _ (mt (Text.toUInt8_inj low hq).mp hc) fun h => hb ?_
    exact ⟨(Text.toUInt8_inj low (by decide)).mp h.1, h.2⟩
  · rw [Text.bytes_cons, encoded, closeBytes?_append hq high, ← encoded,
      String.length_utf8EncodeChar]

/-- Behind a backslash a character is passed over, although only its first byte is taken along. -/
theorem closeBytes?_bytes_escaped (hq : q.toNat < 128) (c : Char) (t : Text) :
    Escape.backslash.closeBytes? q.toUInt8 (Text.bytes ('\\' :: c :: t)) =
      (Escape.backslash.closeBytes? q.toUInt8 (Text.bytes t)).map (· + c.utf8Size + 1) := by
  have encoded : ∃ b bs, String.utf8EncodeChar c = b :: bs ∧ ∀ x ∈ bs, 128 ≤ x.toNat := by
    obtain ⟨-, single⟩ | ⟨-, b, bs, encoded, high⟩ := Text.utf8EncodeChar_cases c
    · exact ⟨_, [], single, List.forall_mem_nil _⟩
    · exact ⟨b, bs, encoded, (List.forall_mem_cons.mp high).2⟩
  obtain ⟨b, bs, encoded, high⟩ := encoded
  rw [Text.bytes_cons_of_lt (by decide), Text.bytes_cons, encoded, List.cons_append, closeBytes?,
    if_pos ⟨rfl, rfl⟩, closeBytes?_append hq high, Option.map_map, ← String.length_utf8EncodeChar,
    encoded]
  rfl

/-- A quote closes the literal unless the next character is that quote again. -/
theorem closeBytes?_bytes_quote (hq : q.toNat < 128) (hb : q ≠ '\\') {t : Text}
    (ht : e = .never ∨ t.head? ≠ some q) :
    e.closeBytes? q.toUInt8 (Text.bytes (q :: t)) = some 1 := by
  rw [Text.bytes_cons_of_lt hq]
  have plain : ¬(q.toUInt8 = '\\'.toUInt8 ∧ e = .backslash) :=
    fun h => hb ((Text.toUInt8_inj hq (by decide)).mp h.1)
  cases t with
  | nil => rw [Text.bytes_nil, closeBytes?, if_pos rfl]
  | cons c t =>
      have other {b : UInt8} (h : b = q.toUInt8 → c = q) : ¬(b = q.toUInt8 ∧ e ≠ .never) :=
        fun hd => ht.elim hd.2 fun hc => hc (congrArg some (h hd.1))
      obtain ⟨low, -⟩ | ⟨-, b, bs, encoded, high⟩ := Text.utf8EncodeChar_cases c
      · rw [Text.bytes_cons_of_lt low, closeBytes?, if_neg plain, if_pos rfl,
          if_neg (other (Text.toUInt8_inj low hq).mp)]
      · have far := Text.ne_toUInt8 (high b (by simp)) hq
        rw [Text.bytes_cons, encoded, List.cons_append, closeBytes?, if_neg plain, if_pos rfl,
          if_neg (other fun h => absurd h far)]

theorem closeBytes?_bytes_doubled (hq : q.toNat < 128) (hb : q ≠ '\\') (he : e ≠ .never)
    (t : Text) :
    e.closeBytes? q.toUInt8 (Text.bytes (q :: q :: t)) =
      (e.closeBytes? q.toUInt8 (Text.bytes t)).map (· + 2) := by
  have plain : ¬(q.toUInt8 = '\\'.toUInt8 ∧ e = .backslash) :=
    fun h => hb ((Text.toUInt8_inj hq (by decide)).mp h.1)
  rw [Text.bytes_cons_of_lt hq, Text.bytes_cons_of_lt hq, closeBytes?, if_neg plain, if_pos rfl,
    if_pos ⟨rfl, he⟩]

/-- The bytes of a text close where the text does. -/
theorem closeBytes?_bytes (hq : q.toNat < 128) (hb : q ≠ '\\') (t : Text) :
    e.closeBytes? q.toUInt8 (Text.bytes t) =
      (e.close? q t).map fun r => (Text.bytes r.1).length := by
  have one := Text.utf8Size_of_lt hq
  fun_induction Escape.close? e q t with
  | case1 => rfl
  | case2 =>
      rw [closeBytes?_bytes_quote hq hb (.inr (by simp)), Option.map_some, Text.length_bytes_cons,
        one]
      rfl
  | case3 c hc =>
      by_cases escape : c = '\\' ∧ e = .backslash
      · obtain ⟨rfl, rfl⟩ := escape
        rw [Text.bytes_cons_of_lt (by decide), Text.bytes_nil, closeBytes?, if_neg]
        · rfl
        · exact mt (Text.toUInt8_inj (by decide) hq).mp hc
      · rw [closeBytes?_bytes_cons hq hc escape]
        rfl
  | case4 c c' r hc ih =>
      obtain ⟨rfl, rfl⟩ := hc
      rw [closeBytes?_bytes_escaped hq, ih, Option.map_map, Option.map_map]
      refine Option.map_congr fun r _ => ?_
      simp only [Function.comp_apply, Text.length_bytes_cons]
      rw [show Char.utf8Size '\\' = 1 from rfl]
      omega
  | case5 c' r hd hc ih =>
      obtain ⟨rfl, he⟩ := hd
      rw [closeBytes?_bytes_doubled hq hb he, ih, Option.map_map, Option.map_map]
      refine Option.map_congr fun r _ => ?_
      simp only [Function.comp_apply, Text.length_bytes_cons, one]
      omega
  | case6 c' r hd =>
      rw [closeBytes?_bytes_quote hq hb, Option.map_some, Text.length_bytes_cons, one]
      · rfl
      · by_cases he : e = .never
        · exact .inl he
        · exact .inr fun h => hd ⟨Option.some.inj h, he⟩
  | case7 c c' r hc hne ih =>
      rw [closeBytes?_bytes_cons hq hne hc, ih, Option.map_map, Option.map_map]
      refine Option.map_congr fun r _ => ?_
      simp only [Function.comp_apply, Text.length_bytes_cons]
      omega

end Escape
namespace Dialect
variable {d : Dialect}

/-- The length in bytes of the string literal that starts at a position in the bytes of a text. -/
def stringLength? (d : Dialect) (bytes : List UInt8) (start : Nat) : Option Nat :=
  match bytes.drop start with
  | [] => none
  | b :: rest =>
      if d.isStringQuote (Char.ofUInt8 b) then (d.stringEscape.closeBytes? b rest).map (· + 1)
      else none

theorem toNat_of_isStringQuote {q : Char} (h : d.isStringQuote q = true) : q.toNat < 128 := by
  have quote : d.isQuote q = true := by rw [isQuote, h, Bool.or_true]
  rcases isQuote_cases quote with rfl | rfl | rfl
  all_goals decide

theorem isStringQuote_ofUInt8 {b : UInt8} (hb : 128 ≤ b.toNat) :
    d.isStringQuote (Char.ofUInt8 b) = false := by
  by_contra h
  have low := toNat_of_isStringQuote (d := d) (by simpa using h)
  exact absurd (Nat.lt_of_le_of_lt hb low) (by decide)

/-- The bytes of a text hold the same string literal as its characters. -/
theorem stringLength?_bytes (d : Dialect) (a t : Text) :
    d.stringLength? (Text.bytes (a ++ t)) (Text.bytes a).length =
      (d.stringLiteral? t).map fun r => (Text.bytes r.1).length := by
  rw [stringLength?, Text.bytes_append, List.drop_left]
  cases t with
  | nil => rfl
  | cons c t =>
      obtain ⟨low, -⟩ | ⟨wide, b, bs, encoded, high⟩ := Text.utf8EncodeChar_cases c
      · have same : Char.ofUInt8 c.toUInt8 = c := Char.toNat_inj.mp (Text.toNat_toUInt8 low)
        rw [Text.bytes_cons_of_lt low]
        simp only [same, stringLiteral?]
        split
        · rename_i quote
          have plain := isQuote_ne_backslash (d := d) (by rw [isQuote, quote, Bool.or_true])
          rw [Escape.closeBytes?_bytes low plain, Option.map_map, Option.map_map]
          refine Option.map_congr fun r _ => ?_
          rw [Function.comp_apply, Function.comp_apply, Text.bytes_cons_of_lt low, List.length_cons]
        · rfl
      · have other : d.isStringQuote c = false := by
          by_contra h
          have low := toNat_of_isStringQuote (d := d) (by simpa using h)
          omega
        have first := isStringQuote_ofUInt8 (d := d) (high b (by simp))
        simp only [Text.bytes_cons, encoded, List.cons_append, first, stringLiteral?, other]
        rfl

/-- A quoted text is one string literal at its place in any text that does not go on with a further
quote, in characters and in bytes, and it is read back from it. -/
theorem enclosed_quoteString (d : Dialect) (t a : Text) {b : Text} (hb : b.head? ≠ some '\'') :
    d.stringLiteral? ((a ++ (d.quoteString t ++ b)).drop a.length) = some (d.quoteString t, b) ∧
      d.stringLength? (Text.bytes (a ++ (d.quoteString t ++ b))) (Text.bytes a).length =
        some (Text.bytes (d.quoteString t)).length ∧
      d.unquoteString? (d.quoteString t) = some t := by
  have literal := d.stringLiteral?_quoteString_append t hb
  refine ⟨?_, ?_, d.unquoteString?_quoted t⟩
  · rw [List.drop_left, literal]
  · rw [stringLength?_bytes, literal, Option.map_some]

/-- A text with a character of two bytes, a quote and a backslash at its end, behind another such
character and a literal, and in front of a double quote. -/
theorem enclosed_quoteString_mysql :
    "\"z".toList.head? ≠ some '\'' ∧
      mysql.stringLiteral? ("é'x' 'é\\'\\\\'\"z".toList.drop 5) =
        some ("'é\\'\\\\'".toList, "\"z".toList) ∧
      mysql.stringLength? (Text.bytes "é'x' 'é\\'\\\\'\"z".toList) 6 = some 8 ∧
      mysql.unquoteString? "'é\\'\\\\'".toList = some "é'\\".toList := by
  have other : "\"z".toList.head? ≠ some '\'' := by decide
  exact ⟨other, mysql.enclosed_quoteString "é'\\".toList "é'x' ".toList other⟩

end Dialect
end SqlStatement
