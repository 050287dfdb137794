import SqlStatement.Proofs.Bytewise
import SqlStatement.Proofs.Grouping

/-!
# Groups in bytes

The end of a group can also be looked for in the bytes of a text, and so can
whether the text is balanced. Either scan passes over a literal as a whole and
over any other byte on its own. A parenthesis is a single byte, and no byte of a
character beyond ASCII is one, so several steps over bytes make one step over a
piece.
-/
namespace SqlStatement

namespace Dialect
variable {d : Dialect} {depth depth' between m n : Nat} {bs bs' : List UInt8}

/-- The next step of a scan over bytes: how many bytes it passes over, and the number of groups that
are open behind them. There is none at the end, at an unclosed quote, and at a closing parenthesis
that closes no group. -/
def byteStep? (d : Dialect) (depth : Nat) : List UInt8 → Option (Nat × Nat)
  | [] => none
  | b :: bs =>
      if d.isQuote (Char.ofUInt8 b) then (d.literalLength? (b :: bs)).map fun n => (n, depth)
      else (Piece.groupsBehind? depth (Char.ofUInt8 b)).map fun depth => (1, depth)

theorem length_drop_byteStep? {r : Nat × Nat} (h : d.byteStep? depth bs = some r) :
    (bs.drop r.1).length < bs.length := by
  cases bs with
  | nil => cases h
  | cons b bs =>
      have pos : 0 < r.1 := by
        rw [byteStep?] at h
        split at h
        · obtain ⟨n, literal, rfl⟩ := Option.map_eq_some_iff.mp h
          exact literalLength?_pos literal
        · obtain ⟨k, -, rfl⟩ := Option.map_eq_some_iff.mp h
          exact Nat.one_pos
      simp only [List.length_drop, List.length_cons]
      omega

/-- How many bytes stand in front of the parenthesis that closes a group already open. `depth`
counts the groups that were opened inside. -/
def closingLength? (d : Dialect) (depth : Nat) (bs : List UInt8) : Option Nat :=
  match _h : d.byteStep? depth bs with
  | some r => (d.closingLength? r.2 (bs.drop r.1)).map (· + r.1)
  | none => if bs.head? = some ')'.toUInt8 then some 0 else none
termination_by bs.length
decreasing_by exact length_drop_byteStep? _h

/-- The length in bytes of the group that starts at a position in the bytes of a text, its
parentheses included. -/
def groupLength? (d : Dialect) (bytes : List UInt8) (start : Nat) : Option Nat :=
  match bytes.drop start with
  | [] => none
  | b :: bs => if b = '('.toUInt8 then (d.closingLength? 0 bs).map (· + 2) else none

/-- Whether bytes close all their literals and leave no group open, with `depth` groups open in
front of them. -/
def balancesBytes (d : Dialect) (depth : Nat) (bs : List UInt8) : Bool :=
  match _h : d.byteStep? depth bs with
  | some r => d.balancesBytes r.2 (bs.drop r.1)
  | none => bs.isEmpty && depth == 0
termination_by bs.length
decreasing_by exact length_drop_byteStep? _h

/-- Steps of a scan from one place and depth to another, and how many bytes they pass over. -/
inductive Scans (d : Dialect) : Nat → List UInt8 → Nat → List UInt8 → Nat → Prop
  | done (depth : Nat) (bs : List UInt8) : Scans d depth bs depth bs 0
  | step {depth between depth' m n : Nat} {bs bs' : List UInt8}
      (first : d.byteStep? depth bs = some (m, between))
      (further : Scans d between (bs.drop m) depth' bs' n) : Scans d depth bs depth' bs' (n + m)

theorem Scans.single (h : d.byteStep? depth bs = some (n, depth')) :
    d.Scans depth bs depth' (bs.drop n) n := by
  simpa only [Nat.zero_add] using Scans.step h (Scans.done depth' (bs.drop n))

theorem closingLength?_of_step (h : d.byteStep? depth bs = some (n, between)) :
    d.closingLength? depth bs = (d.closingLength? between (bs.drop n)).map (· + n) := by
  rw [closingLength?]
  split
  · rename_i r h'
    rw [h] at h'
    cases h'
    rfl
  · rename_i h'
    rw [h] at h'
    cases h'

theorem closingLength?_of_none (h : d.byteStep? depth bs = none) :
    d.closingLength? depth bs = if bs.head? = some ')'.toUInt8 then some 0 else none := by
  rw [closingLength?]
  split
  · rename_i r h'
    rw [h] at h'
    cases h'
  · rfl

theorem balancesBytes_of_step (h : d.byteStep? depth bs = some (n, between)) :
    d.balancesBytes depth bs = d.balancesBytes between (bs.drop n) := by
  rw [balancesBytes]
  split
  · rename_i r h'
    rw [h] at h'
    cases h'
    rfl
  · rename_i h'
    rw [h] at h'
    cases h'

theorem balancesBytes_of_none (h : d.byteStep? depth bs = none) :
    d.balancesBytes depth bs = (bs.isEmpty && depth == 0) := by
  rw [balancesBytes]
  split
  · rename_i r h'
    rw [h] at h'
    cases h'
  · rfl

theorem Scans.closingLength? (h : d.Scans depth bs depth' bs' n) :
    d.closingLength? depth bs = (d.closingLength? depth' bs').map (· + n) := by
  induction h with
  | done => exact Option.map_id'.symm
  | step first further ih =>
      rw [closingLength?_of_step first, ih, Option.map_map]
      exact Option.map_congr fun k _ => Nat.add_assoc _ _ _

theorem Scans.balancesBytes (h : d.Scans depth bs depth' bs' n) :
    d.balancesBytes depth bs = d.balancesBytes depth' bs' := by
  induction h with
  | done => rfl
  | step first further ih => exact (balancesBytes_of_step first).trans ih

/-- A byte beyond ASCII is neither a quote nor a parenthesis. -/
theorem byteStep?_of_wide {b : UInt8} (hb : 128 ≤ b.toNat) (depth : Nat) (bs : List UInt8) :
    d.byteStep? depth (b :: bs) = some (1, depth) := by
  have other {c : Char} (hc : c.toNat < 128) : Char.ofUInt8 b ≠ c := by
    rintro rfl
    rw [Text.toNat_ofUInt8] at hc
    omega
  have plain : d.isQuote (Char.ofUInt8 b) = false := by
    by_contra quote
    have low := d.isAscii_isQuote _ (by simpa using quote)
    exact other low rfl
  rw [byteStep?, plain, Piece.groupsBehind?, if_neg (other (by decide)),
    if_neg (other (by decide))]
  rfl

theorem scans_wide (wide : ∀ b ∈ bs, 128 ≤ b.toNat) (depth : Nat) (rest : List UInt8) :
    d.Scans depth (bs ++ rest) depth rest bs.length := by
  induction bs with
  | nil => exact .done depth rest
  | cons b bs ih =>
      rw [List.forall_mem_cons] at wide
      exact .step (byteStep?_of_wide wide.1 depth _) (ih wide.2)

theorem byteStep?_of_lt {c : Char} (low : c.toNat < 128) (plain : d.isQuote c = false)
    (depth : Nat) (bs : List UInt8) :
    d.byteStep? depth (c.toUInt8 :: bs) =
      (Piece.groupsBehind? depth c).map fun depth => (1, depth) := by
  rw [byteStep?, Text.ofUInt8_toUInt8 low, plain]
  rfl

/-- Parentheses are ASCII. -/
theorem groupsBehind?_of_wide {c : Char} (wide : 128 ≤ c.toNat) (depth : Nat) :
    Piece.groupsBehind? depth c = some depth := by
  have other {c' : Char} (hc : c'.toNat < 128) : c ≠ c' := by
    rintro rfl
    omega
  rw [Piece.groupsBehind?, if_neg (other (by decide)), if_neg (other (by decide))]

end Dialect

namespace Text

/-- The first byte of a text is that of an ASCII character exactly if the first character is. -/
theorem head?_bytes_eq_iff {q : Char} (low : q.toNat < 128) (c : Char) (t : Text) :
    (bytes (c :: t)).head? = some q.toUInt8 ↔ c = q := by
  obtain ⟨b, bs, encoded, class_eq, -⟩ := exists_bytes_cons c t
  have ascii : IsAscii (· == q) := by
    intro c hc
    rwa [beq_iff_eq.mp hc]
  have same : Char.ofUInt8 b = q ↔ c = q := by
    rw [← beq_iff_eq, class_eq _ ascii, beq_iff_eq]
  rw [encoded, List.head?_cons, Option.some_inj, ← same]
  constructor
  · rintro rfl
    exact ofUInt8_toUInt8 low
  · rintro rfl
    exact UInt8.toNat_inj.mp (toNat_toUInt8 low).symm

end Text

namespace Piece
variable {d : Dialect} {p : Piece} {ps : List Piece} {depth depth' : Nat}

/-- A piece is a character beyond ASCII, or its first byte tells what kind of piece it is. -/
theorem narrow_or_wide (p : Piece) :
    (∀ c, p = char c → c.toNat < 128) ∨ ∃ c, p = char c ∧ 128 ≤ c.toNat := by
  cases p with
  | char c =>
      obtain low | wide := Nat.lt_or_ge c.toNat 128
      · exact .inl fun _ same => by cases same; exact low
      · exact .inr ⟨c, rfl, wide⟩
  | literal | stray => exact .inl nofun

/-- The bytes of a piece are passed over in one step, unless they are those of a character beyond
ASCII. -/
theorem byteStep?_textOf (h : Lexed d (p :: ps)) (narrow : ∀ c, p = char c → c.toNat < 128)
    (depth : Nat) :
    d.byteStep? depth (Text.bytes (textOf (p :: ps))) =
      (p.depthBehind? depth).map fun depth => ((Text.bytes p.text).length, depth) := by
  have quoted {q : Char} (quote : d.isQuote q = true) (t : Text) :
      d.byteStep? depth (Text.bytes (q :: t)) =
        (d.literalLength? (Text.bytes (q :: t))).map fun n => (n, depth) := by
    have low := d.isAscii_isQuote q quote
    rw [Text.bytes_cons_of_lt low, Dialect.byteStep?, Text.ofUInt8_toUInt8 low, if_pos quote]
  rw [textOf_cons]
  cases h with
  | @char c _ plain _ =>
      have low := narrow c rfl
      rw [text, List.singleton_append, Text.bytes_cons_of_lt low,
        Dialect.byteStep?_of_lt low plain, Text.bytes_cons_of_lt low]
      rfl
  | @literal lit _ closed _ =>
      obtain ⟨q, body, rfl, quote⟩ := Dialect.literal?_quote closed
      rw [text, List.cons_append, quoted quote, Dialect.literalLength?_bytes quote,
        ← List.cons_append, closed]
      rfl
  | @stray q _ quote unclosed _ =>
      rw [text, List.singleton_append, quoted quote, Dialect.literalLength?_bytes quote, unclosed]
      rfl

/-- The bytes of a piece are scanned to its end. -/
theorem scans (h : Lexed d (p :: ps)) (hd : p.depthBehind? depth = some depth') :
    d.Scans depth (Text.bytes (textOf (p :: ps))) depth' (Text.bytes (textOf ps))
      (Text.bytes p.text).length := by
  obtain narrow | ⟨c, rfl, wide⟩ := p.narrow_or_wide
  · have step := byteStep?_textOf h narrow depth
    rw [hd, Option.map_some] at step
    have behind : (Text.bytes (textOf (p :: ps))).drop (Text.bytes p.text).length =
        Text.bytes (textOf ps) := by
      rw [textOf_cons, Text.bytes_append, List.drop_left]
    have scanned := Dialect.Scans.single step
    rwa [behind] at scanned
  · have same : depth' = depth :=
      Option.some.inj (hd.symm.trans (Dialect.groupsBehind?_of_wide wide depth))
    obtain ⟨low, -⟩ | ⟨-, b, bs, encoded, high⟩ := Text.utf8EncodeChar_cases c
    · omega
    · have whole : Text.bytes (char c).text = b :: bs := by
        rw [text, Text.bytes_cons, encoded, Text.bytes_nil, List.append_nil]
      rw [same, textOf_cons, Text.bytes_append, whole]
      exact Dialect.scans_wide high depth _

/-- Where a piece has no depth behind it, the scan stops at its first byte. -/
theorem byteStep?_eq_none (h : Lexed d (p :: ps)) (hd : p.depthBehind? depth = none) :
    d.byteStep? depth (Text.bytes (textOf (p :: ps))) = none := by
  obtain narrow | ⟨c, rfl, wide⟩ := p.narrow_or_wide
  · rw [byteStep?_textOf h narrow, hd, Option.map_none]
  · exact absurd (hd.symm.trans (Dialect.groupsBehind?_of_wide wide depth)) nofun

/-- A piece has a first character, which is a closing parenthesis exactly if the piece is one. -/
theorem Lexed.exists_cons (h : Lexed d (p :: ps)) :
    ∃ c t, textOf (p :: ps) = c :: t ∧ (c = ')' ↔ p = Piece.char ')') := by
  have other {q : Char} (quote : d.isQuote q = true) : q ≠ ')' := by
    rintro rfl
    cases d <;> cases quote
  cases h with
  | @char c => exact ⟨c, textOf ps, rfl, by rw [Piece.char.injEq]⟩
  | literal closed =>
      obtain ⟨q, body, rfl, quote⟩ := Dialect.literal?_quote closed
      exact ⟨q, body ++ textOf ps, rfl, fun same => absurd same (other quote), nofun⟩
  | @stray q _ quote =>
      exact ⟨q, textOf ps, rfl, fun same => absurd same (other quote), nofun⟩

end Piece

namespace Dialect
variable {d : Dialect} {ps : List Piece}

theorem closingLength?_textOf (h : Piece.Lexed d ps) (depth : Nat) :
    d.closingLength? depth (Text.bytes (Piece.textOf ps)) =
      (d.closeGroup? depth (Piece.textOf ps)).map fun r => (Text.bytes r.1).length := by
  induction ps generalizing depth with
  | nil =>
      rw [closingLength?_of_none rfl]
      simp [closeGroup?, Piece.next?]
  | cons p ps ih =>
      rw [closeGroup?_textOf depth h]
      cases hd : p.depthBehind? depth with
      | none =>
          obtain ⟨c, t, first, close⟩ := h.exists_cons
          rw [closingLength?_of_none (Piece.byteStep?_eq_none h hd), first]
          simp only [Text.head?_bytes_eq_iff (show (')' : Char).toNat < 128 by decide), close]
          split <;> rfl
      | some between =>
          rw [(Piece.scans h hd).closingLength?, ih h.of_cons, Option.map_map, Option.map_map]
          refine Option.map_congr fun r _ => ?_
          simp only [Function.comp_apply, Text.bytes_append, List.length_append]
          omega

theorem balancesBytes_textOf (h : Piece.Lexed d ps) (depth : Nat) :
    d.balancesBytes depth (Text.bytes (Piece.textOf ps)) =
      (ps.foldlM Piece.depthBehind? depth == some 0) := by
  induction ps generalizing depth with
  | nil =>
      rw [balancesBytes_of_none rfl]
      rfl
  | cons p ps ih =>
      cases hd : p.depthBehind? depth with
      | none =>
          obtain ⟨c, t, first, -⟩ := h.exists_cons
          obtain ⟨b, bs, encoded, -⟩ := Text.exists_bytes_cons c t
          rw [balancesBytes_of_none (Piece.byteStep?_eq_none h hd), List.foldlM_cons, hd, first,
            encoded]
          rfl
      | some between =>
          rw [(Piece.scans h hd).balancesBytes, ih h.of_cons, List.foldlM_cons, hd]
          rfl

/-- The bytes of a text hold the same group as its characters. -/
theorem groupLength?_bytes (d : Dialect) (a t : Text) :
    d.groupLength? (Text.bytes (a ++ t)) (Text.bytes a).length =
      (d.group? t).map fun r => (Text.bytes r.1).length + 2 := by
  rw [groupLength?, Text.bytes_append, List.drop_left]
  cases t with
  | nil => rfl
  | cons c t =>
      by_cases hc : c = '('
      · have scanned := closingLength?_textOf (Piece.lexed_ofText d t) 0
        rw [Piece.textOf_ofText] at scanned
        rw [hc, Text.bytes_cons_of_lt (by decide)]
        dsimp only
        rw [if_pos rfl, scanned, Option.map_map, group?]
        rfl
      · have first := mt (Text.head?_bytes_eq_iff (by decide) c t).mp hc
        obtain ⟨b, bs, encoded, -⟩ := Text.exists_bytes_cons c t
        rw [encoded, List.head?_cons, Option.some_inj] at first
        rw [encoded]
        dsimp only
        rw [if_neg first, group?]
        · rfl
        · rintro _ ⟨⟩
          exact hc rfl

/-- A text is balanced in its bytes exactly if it is in its characters. -/
theorem balancesBytes_bytes (d : Dialect) (t : Text) :
    d.balancesBytes 0 (Text.bytes t) = d.isBalanced t := by
  have scanned := balancesBytes_textOf (Piece.lexed_ofText d t) 0
  rwa [Piece.textOf_ofText] at scanned

end Dialect
end SqlStatement
