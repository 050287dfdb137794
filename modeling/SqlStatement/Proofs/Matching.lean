import SqlStatement.Proofs.Depths
import SqlStatement.Proofs.Measuring

/-!
# Parentheses and their partners

A parenthesis among tokens has a partner if what stands between them is level.
The scans that look for the end of a group find the partner of the parenthesis
that they start at, be it in tokens, in characters or in bytes. Tokens are level
exactly if there is no unclosed quote and no parenthesis without a partner.
-/
namespace SqlStatement
open Token

namespace Token
variable {t : Token} {ts inner behind : List Token} {depth depth' : Nat}

/-- A token opens a group, closes one, or leaves the groups as they are. -/
theorem depthBehind?_cases (h : t.depthBehind? depth = some depth') :
    (t = symbol '(' ∧ depth' = depth + 1) ∨ (t = symbol ')' ∧ depth = depth' + 1) ∨
      (depth' = depth ∧ ∀ k, t.depthBehind? k = some k) := by
  cases t with
  | word | space | quoted => exact .inr (.inr ⟨(Option.some.inj h).symm, fun _ => rfl⟩)
  | unterminated => cases h
  | symbol c =>
      rw [depthBehind?, Piece.groupsBehind?] at h
      by_cases opens : c = '('
      · rw [if_pos opens] at h
        exact .inl ⟨congrArg symbol opens, (Option.some.inj h).symm⟩
      · rw [if_neg opens] at h
        by_cases closes : c = ')'
        · rw [if_pos closes] at h
          by_cases zero : depth = 0
          · rw [if_pos zero] at h
            cases h
          · rw [if_neg zero, Option.some_inj] at h
            exact .inr (.inl ⟨congrArg symbol closes, by omega⟩)
        · rw [if_neg closes, Option.some_inj] at h
          refine .inr (.inr ⟨h.symm, fun k => ?_⟩)
          rw [depthBehind?, Piece.groupsBehind?, if_neg opens, if_neg closes]

/-- There is no depth behind an unclosed quote and behind a parenthesis that closes nothing. -/
theorem depthBehind?_eq_none (h : t.depthBehind? depth = none) :
    t.isClosed = false ∨ (t = symbol ')' ∧ depth = 0) := by
  cases t with
  | word | space | quoted => cases h
  | unterminated => exact .inl rfl
  | symbol c =>
      rw [depthBehind?, Piece.groupsBehind?] at h
      split at h
      · cases h
      · split at h
        · rename_i closes
          split at h
          · rename_i zero
            exact .inr ⟨congrArg symbol closes, zero⟩
          · cases h
        · cases h

/-- The scan for the end of a group stops where the groups opened on the way are closed. -/
theorem closeGroup?_eq_some_iff : closeGroup? depth ts = some (inner, behind) ↔
    ts = inner ++ symbol ')' :: behind ∧ inner.foldlM depthBehind? depth = some 0 := by
  constructor
  · exact fun h => ⟨closeGroup?_append h, foldlM_of_closeGroup? h 0⟩
  · rintro ⟨rfl, h⟩
    induction inner generalizing depth with
    | nil =>
        cases h
        rfl
    | cons t inner ih =>
        rw [List.foldlM_cons, Option.bind_eq_bind, Option.bind_eq_some_iff] at h
        obtain ⟨between, first, h⟩ := h
        rw [List.cons_append, closeGroup?, first]
        exact congrArg (Option.map _) (ih h)

theorem group?_eq_some_iff : group? ts = some (inner, behind) ↔
    ts = symbol '(' :: (inner ++ symbol ')' :: behind) ∧ Level inner := by
  constructor
  · exact fun h => ⟨group?_append h, foldlM_of_group? h 0⟩
  · rintro ⟨rfl, level⟩
    exact closeGroup?_eq_some_iff.mpr ⟨rfl, level⟩

/-- Level tokens leave the groups around them open. -/
theorem Level.foldlM (h : Level ts) (k : Nat) : ts.foldlM depthBehind? k = some k := by
  have group : group? (symbol '(' :: (ts ++ [symbol ')'])) = some (ts, []) :=
    group?_eq_some_iff.mpr ⟨rfl, h⟩
  exact foldlM_of_group? group k

/-- A group that is closed in the end has a parenthesis that closes it. -/
theorem exists_closing {around left : Nat} (hl : left ≤ around)
    (h : ts.foldlM depthBehind? (depth + around + 1) = some left) :
    ∃ inner behind, ts = inner ++ symbol ')' :: behind ∧
      inner.foldlM depthBehind? depth = some 0 := by
  induction ts generalizing depth with
  | nil =>
      have := Option.some.inj h
      omega
  | cons t ts ih =>
      rw [List.foldlM_cons, Option.bind_eq_bind, Option.bind_eq_some_iff] at h
      obtain ⟨between, first, h⟩ := h
      have goOn {k : Nat} (hk : t.depthBehind? depth = some k) (same : between = k + around + 1) :
          ∃ inner behind, t :: ts = inner ++ symbol ')' :: behind ∧
            inner.foldlM depthBehind? depth = some 0 := by
        obtain ⟨inner, behind, cut, level⟩ := ih (same ▸ h)
        refine ⟨t :: inner, behind, by rw [cut]; rfl, ?_⟩
        rw [List.foldlM_cons, hk]
        exact level
      obtain ⟨rfl, opened⟩ | ⟨rfl, closed⟩ | ⟨same, still⟩ := depthBehind?_cases first
      · exact goOn (k := depth + 1) rfl (by omega)
      · cases depth with
        | zero => exact ⟨[], ts, rfl, rfl⟩
        | succ depth => exact goOn (k := depth) rfl (by omega)
      · exact goOn (still depth) same

theorem foldlM_concat (ts : List Token) (t : Token) (depth : Nat) :
    (ts ++ [t]).foldlM depthBehind? depth =
      (ts.foldlM depthBehind? depth).bind (depthBehind? · t) := by
  rw [List.foldlM_append, Option.bind_eq_bind]
  refine Option.bind_congr fun between _ => ?_
  rw [List.foldlM_cons, funext fun k => List.foldlM_nil, bind_pure]

/-- Each of the groups that are open in the end has a parenthesis that opened it. -/
theorem exists_opening {inside : Nat} (h : ts.foldlM depthBehind? 0 = some (inside + depth + 1)) :
    ∃ outer inner, ts = outer ++ symbol '(' :: inner ∧
      outer.foldlM depthBehind? 0 = some depth ∧ inner.foldlM depthBehind? 0 = some inside := by
  induction ts using List.reverseRecOn generalizing inside with
  | nil => cases h
  | append_singleton ts t ih =>
      rw [foldlM_concat, Option.bind_eq_some_iff] at h
      obtain ⟨between, front, last⟩ := h
      have goBack {k : Nat} (hk : t.depthBehind? k = some inside)
          (same : between = k + depth + 1) :
          ∃ outer inner, ts ++ [t] = outer ++ symbol '(' :: inner ∧
            outer.foldlM depthBehind? 0 = some depth ∧
              inner.foldlM depthBehind? 0 = some inside := by
        obtain ⟨outer, inner, cut, before, level⟩ := ih (same ▸ front)
        refine ⟨outer, inner ++ [t], by rw [cut, List.append_assoc]; rfl, before, ?_⟩
        rw [foldlM_concat, level, Option.bind_some, hk]
      obtain ⟨rfl, opened⟩ | ⟨rfl, closed⟩ | ⟨same, still⟩ := depthBehind?_cases last
      · cases inside with
        | zero =>
            have outside : between = depth := by omega
            exact ⟨ts, [], rfl, outside ▸ front, rfl⟩
        | succ inside => exact goBack (k := inside) rfl (by omega)
      · exact goBack (k := inside + 1) rfl (by omega)
      · exact goBack (still inside) same.symm

theorem exists_level_closing (h : ts.foldlM depthBehind? (depth + 1) = some 0) :
    ∃ inner behind, ts = inner ++ symbol ')' :: behind ∧ Level inner := by
  apply exists_closing (Nat.zero_le depth)
  rw [Nat.zero_add]
  exact h

theorem exists_level_opening (h : ts.foldlM depthBehind? 0 = some (depth + 1)) :
    ∃ outer inner, ts = outer ++ symbol '(' :: inner ∧ Level inner := by
  rw [← Nat.zero_add depth] at h
  obtain ⟨outer, inner, cut, -, level⟩ := exists_opening h
  exact ⟨outer, inner, cut, level⟩

/-- The place of the parenthesis that closes the group which begins at a place among tokens. -/
def partner? (ts : List Token) (place : Nat) : Option Nat :=
  (group? (ts.drop place)).map fun r => place + 1 + r.1.length

/-- Partners have level tokens between them. -/
theorem partner?_eq_some_iff {i j : Nat} : partner? ts i = some j ↔
    ∃ before inner behind, ts = before ++ symbol '(' :: (inner ++ symbol ')' :: behind) ∧
      Level inner ∧ before.length = i ∧ i + 1 + inner.length = j := by
  unfold partner?
  rw [Option.map_eq_some_iff]
  constructor
  · rintro ⟨⟨inner, behind⟩, group, place⟩
    obtain ⟨cut, level⟩ := group?_eq_some_iff.mp group
    have inside : i < ts.length := by
      by_contra outside
      rw [List.drop_of_length_le (Nat.not_lt.mp outside)] at cut
      cases cut
    refine ⟨ts.take i, inner, behind, ?_, level, List.length_take_of_le inside.le, place⟩
    rw [← cut, List.take_append_drop]
  · rintro ⟨before, inner, behind, rfl, level, rfl, place⟩
    refine ⟨(inner, behind), ?_, place⟩
    rw [List.drop_left]
    exact group?_eq_some_iff.mpr ⟨rfl, level⟩

/-- Partners are an opening and a closing parenthesis. -/
theorem partner?_bounds {i j : Nat} (h : partner? ts i = some j) :
    i < j ∧ ts[i]? = some (symbol '(') ∧ ts[j]? = some (symbol ')') := by
  obtain ⟨before, inner, behind, rfl, -, rfl, rfl⟩ := partner?_eq_some_iff.mp h
  have place : before.length + 1 + inner.length - before.length = inner.length + 1 := by omega
  refine ⟨by omega, by simp, ?_⟩
  rw [List.getElem?_append_right (by omega), place, List.getElem?_cons_succ]
  simp

theorem exists_append_of_getElem? {i : Nat} (h : ts[i]? = some t) :
    ∃ before behind, ts = before ++ t :: behind ∧ before.length = i := by
  obtain ⟨inside, found⟩ := List.getElem?_eq_some_iff.mp h
  refine ⟨ts.take i, ts.drop (i + 1), ?_, List.length_take_of_le inside.le⟩
  rw [← found, List.getElem_cons_drop, List.take_append_drop]

/-- In level tokens every opening parenthesis has a partner. -/
theorem Level.exists_partner (level : Level ts) {i : Nat} (opens : ts[i]? = some (symbol '(')) :
    ∃ j, partner? ts i = some j := by
  obtain ⟨before, behind, rfl, rfl⟩ := exists_append_of_getElem? opens
  unfold Level at level
  rw [List.foldlM_append, Option.bind_eq_bind, Option.bind_eq_some_iff] at level
  obtain ⟨depth, -, rest⟩ := level
  obtain ⟨inner, behind, rfl, level⟩ := exists_level_closing rest
  exact ⟨_, partner?_eq_some_iff.mpr ⟨before, inner, behind, rfl, level, rfl, rfl⟩⟩

/-- In level tokens every closing parenthesis is a partner. -/
theorem Level.exists_opening_partner (level : Level ts) {j : Nat}
    (closes : ts[j]? = some (symbol ')')) : ∃ i, partner? ts i = some j := by
  obtain ⟨before, behind, rfl, rfl⟩ := exists_append_of_getElem? closes
  unfold Level at level
  rw [List.foldlM_append, Option.bind_eq_bind, Option.bind_eq_some_iff] at level
  obtain ⟨depth, front, rest⟩ := level
  cases depth with
  | zero => cases rest
  | succ depth =>
      obtain ⟨outer, inner, rfl, level⟩ := exists_level_opening front
      refine ⟨outer.length, partner?_eq_some_iff.mpr ⟨outer, inner, behind, ?_, level, rfl, ?_⟩⟩
      · rw [List.append_assoc, List.cons_append]
      · simp only [List.length_append, List.length_cons]
        omega

/-- A group that is not closed is open in the end. -/
theorem foldlM_ne_zero (level : Level inner) (outer : List Token) :
    (outer ++ symbol '(' :: inner).foldlM depthBehind? 0 ≠ some 0 := by
  intro h
  rw [List.foldlM_append, Option.bind_eq_bind, Option.bind_eq_some_iff] at h
  obtain ⟨depth, -, h⟩ := h
  have opened : (symbol '(').depthBehind? depth = some (depth + 1) := rfl
  rw [List.foldlM_cons, opened] at h
  cases (level.foldlM (depth + 1)).symm.trans h

/-- Behind level tokens a parenthesis closes nothing that was opened in them. -/
theorem not_level_append_close (level : Level inner) (behind : List Token) :
    ¬Level (inner ++ symbol ')' :: behind) := by
  unfold Level at level ⊢
  intro h
  rw [List.foldlM_append, level] at h
  cases h

/-- Tokens have a depth behind them if every quote is closed and every closing parenthesis is a
partner. -/
theorem exists_depth (closed : ∀ u ∈ ts, u.isClosed = true)
    (closes : ∀ j, ts[j]? = some (symbol ')') → ∃ i, partner? ts i = some j)
    (before behind : List Token) (cut : ts = before ++ behind) :
    ∃ depth, before.foldlM depthBehind? 0 = some depth := by
  induction before using List.reverseRecOn generalizing behind with
  | nil => exact ⟨0, rfl⟩
  | append_singleton before t ih =>
      rw [List.append_assoc, List.singleton_append] at cut
      obtain ⟨depth, front⟩ := ih (t :: behind) cut
      rw [foldlM_concat, front, Option.bind_some]
      cases last : t.depthBehind? depth with
      | some depth' => exact ⟨depth', rfl⟩
      | none =>
          exfalso
          obtain unclosed | ⟨rfl, rfl⟩ := depthBehind?_eq_none last
          · rw [closed t (by simp [cut])] at unclosed
            cases unclosed
          · -- Its partner would have opened a group in front of it.
            obtain ⟨i, partner⟩ := closes before.length (by rw [cut]; simp)
            obtain ⟨outer, inner, rest, cut', level, start, place⟩ :=
              partner?_eq_some_iff.mp partner
            have same : before = outer ++ symbol '(' :: inner := by
              rw [cut, ← List.cons_append, ← List.append_assoc] at cut'
              apply List.append_inj_left cut'
              simp only [List.length_append, List.length_cons]
              omega
            exact foldlM_ne_zero level outer (same ▸ front)

theorem level_of_partners (closed : ∀ u ∈ ts, u.isClosed = true)
    (opens : ∀ i, ts[i]? = some (symbol '(') → ∃ j, partner? ts i = some j)
    (closes : ∀ j, ts[j]? = some (symbol ')') → ∃ i, partner? ts i = some j) : Level ts := by
  obtain ⟨depth, all⟩ := exists_depth closed closes ts [] (List.append_nil ts).symm
  cases depth with
  | zero => exact all
  | succ depth =>
      -- The last group that is open in the end has no partner.
      obtain ⟨outer, inner, cut, level⟩ := exists_level_opening all
      obtain ⟨j, partner⟩ := opens outer.length (by rw [cut]; simp)
      obtain ⟨before, inner', behind, cut', level', start, -⟩ := partner?_eq_some_iff.mp partner
      have same : inner = inner' ++ symbol ')' :: behind :=
        (List.cons.inj (List.append_inj_right (cut.symm.trans cut') start.symm)).2
      exact absurd (same ▸ level) (not_level_append_close level' behind)

/-- Tokens are level exactly if every quote is closed and every parenthesis has a partner. -/
theorem level_iff : Level ts ↔ (∀ u ∈ ts, u.isClosed = true) ∧
    (∀ i, ts[i]? = some (symbol '(') → ∃ j, partner? ts i = some j) ∧
      ∀ j, ts[j]? = some (symbol ')') → ∃ i, partner? ts i = some j := by
  constructor
  · intro level
    exact ⟨isClosed_of_foldlM level, fun i => level.exists_partner,
      fun j => level.exists_opening_partner⟩
  · rintro ⟨closed, opens, closes⟩
    exact level_of_partners closed opens closes

/-- The scan for the end of a group is the same over tokens and over their characters. -/
theorem closeGroup?_textOf {d : Dialect} (proper : ∀ u ∈ ts, u.Proper)
    (lexed : Piece.Lexed d (piecesOf ts)) (depth : Nat) :
    d.closeGroup? depth (textOf ts) =
      (closeGroup? depth ts).map fun r => (textOf r.1, textOf r.2) := by
  induction ts generalizing depth with
  | nil => simp [closeGroup?, Dialect.closeGroup?, Piece.next?]
  | cons u us ih =>
      obtain ⟨first, rest⟩ := List.forall_mem_cons.mp proper
      rw [piecesOf_cons] at lexed
      have step := ih rest lexed.right
      cases hu : u.depthBehind? depth with
      | some between =>
          have pieces := (first.foldlM_pieces depth).trans hu
          have passed := Dialect.closeGroup?_append_of_foldlM lexed pieces
          rw [Piece.textOf_append, textOf_pieces, textOf_piecesOf, step, Option.map_map] at passed
          rw [textOf_cons, passed, closeGroup?, hu, Option.map_map]
          rfl
      | none =>
          rw [closeGroup?, hu]
          obtain unclosed | ⟨rfl, rfl⟩ := depthBehind?_eq_none hu
          · cases u with
            | unterminated q =>
                have alone : Piece.Lexed d (.stray q :: piecesOf us) := lexed
                have stopped := Dialect.closeGroup?_textOf depth alone
                rwa [Piece.textOf_cons, textOf_piecesOf] at stopped
            | word | space | quoted | symbol => cases unclosed
          · have alone : Piece.Lexed d (.char ')' :: piecesOf us) := lexed
            have stopped := Dialect.closeGroup?_textOf 0 alone
            rwa [Piece.textOf_cons, textOf_piecesOf] at stopped

theorem group?_textOf {d : Dialect} (proper : ∀ u ∈ ts, u.Proper)
    (lexed : Piece.Lexed d (piecesOf (symbol '(' :: ts))) :
    d.group? (textOf (symbol '(' :: ts)) =
      (group? (symbol '(' :: ts)).map fun r => (textOf r.1, textOf r.2) :=
  closeGroup?_textOf proper lexed.of_cons 0

theorem forall_isClosed_iff : (∀ u ∈ ts, u.isClosed = true) ↔ ∀ q, unterminated q ∉ ts := by
  constructor
  · intro closed q hq
    cases closed _ hq
  · intro none u hu
    cases u with
    | unterminated q => exact absurd hu (none q)
    | word | space | quoted | symbol => rfl

/-- How many bytes stand in front of a place among tokens. -/
def offset (ts : List Token) (place : Nat) : Nat := (Text.bytes (textOf (ts.take place))).length

/-- A group takes the bytes of what is in it and one for either parenthesis. -/
theorem offset_behind_group {i : Nat} (h : group? (ts.drop i) = some (inner, behind)) :
    offset ts (i + 1 + inner.length + 1) =
      offset ts i + ((Text.bytes (textOf inner)).length + 2) := by
  have group : (ts.drop i).take (inner.length + 1 + 1) =
      symbol '(' :: (inner ++ [symbol ')']) := by
    rw [group?_append h, List.take_succ_cons, List.take_length_add_append]
    rfl
  have parentheses : (Text.bytes (symbol '(').text).length = 1 ∧
      (Text.bytes (symbol ')').text).length = 1 := ⟨rfl, rfl⟩
  have place : i + 1 + inner.length + 1 = i + (inner.length + 1 + 1) := by omega
  unfold offset
  rw [place, List.take_add, group]
  simp only [textOf_append, textOf_cons, textOf_nil, Text.bytes_append, Text.bytes_nil,
    List.length_append, List.length_nil, parentheses.1, parentheses.2]
  omega

variable {d : Dialect} {w : Text}

/-- From an opening parenthesis on, tokens and characters hold the same group. -/
theorem group?_textOf_drop {i : Nat} (opens : (ofText d w)[i]? = some (symbol '(')) :
    d.group? (textOf ((ofText d w).drop i)) =
      (group? ((ofText d w).drop i)).map fun r => (textOf r.1, textOf r.2) := by
  have tidy := tidy_ofText d w
  have lexed := lexed_piecesOf_ofText d w
  obtain ⟨before, behind, cut, rfl⟩ := exists_append_of_getElem? opens
  rw [cut] at tidy lexed ⊢
  rw [piecesOf_append] at lexed
  rw [List.drop_left]
  exact group?_textOf (tidy_cons_iff.mp tidy.right).2.1.proper lexed.right

/-- The scan over bytes starts at a token like the scan over characters. -/
theorem groupLength?_offset (d : Dialect) (w : Text) (i : Nat) :
    d.groupLength? (Text.bytes w) (offset (ofText d w) i) =
      (d.group? (textOf ((ofText d w).drop i))).map fun r => (Text.bytes r.1).length + 2 := by
  have length := d.groupLength?_bytes (textOf ((ofText d w).take i)) (textOf ((ofText d w).drop i))
  rwa [← textOf_append, List.take_append_drop, textOf_ofText] at length

/-- The scans for the end of a group agree over tokens, characters and bytes: from every opening
parenthesis they come to the same partner or to none. A text is balanced exactly if it has no
unclosed quote and no parenthesis without a partner. -/
theorem groups_ofText (d : Dialect) (t : Text) :
    (∀ i, (ofText d t)[i]? = some (symbol '(') →
      d.group? (textOf ((ofText d t).drop i)) =
          (group? ((ofText d t).drop i)).map (fun r => (textOf r.1, textOf r.2)) ∧
        (d.groupLength? (Text.bytes t) (offset (ofText d t) i)).map (offset (ofText d t) i + ·) =
          (partner? (ofText d t) i).map (fun j => offset (ofText d t) (j + 1)) ∧
        ∀ j, partner? (ofText d t) i = some j → i < j ∧ (ofText d t)[j]? = some (symbol ')')) ∧
    d.balancesBytes 0 (Text.bytes t) = d.isBalanced t ∧
    (d.isBalanced t = true ↔
      (∀ q, unterminated q ∉ ofText d t) ∧
      (∀ i, (ofText d t)[i]? = some (symbol '(') → ∃ j, partner? (ofText d t) i = some j) ∧
      ∀ j, (ofText d t)[j]? = some (symbol ')') →
        ∃ i, (ofText d t)[i]? = some (symbol '(') ∧ partner? (ofText d t) i = some j) := by
  refine ⟨fun i opens => ⟨group?_textOf_drop opens, ?_, ?_⟩, d.balancesBytes_bytes t, ?_⟩
  · unfold partner?
    rw [groupLength?_offset, group?_textOf_drop opens, Option.map_map, Option.map_map,
      Option.map_map]
    exact Option.map_congr fun r found => (offset_behind_group found).symm
  · intro j partner
    obtain ⟨behind, -, closes⟩ := partner?_bounds partner
    exact ⟨behind, closes⟩
  · have opening (j : Nat) : (∃ i, partner? (ofText d t) i = some j) ↔
        ∃ i, (ofText d t)[i]? = some (symbol '(') ∧ partner? (ofText d t) i = some j :=
      exists_congr fun i => (and_iff_right_of_imp fun h => (partner?_bounds h).2.1).symm
    rw [← level_ofText_iff, level_iff, forall_isClosed_iff]
    simp only [opening]

/-- A group behind a character of two bytes, with a literal and another group in it, and in front of
an unclosed quote. -/
theorem groups_ofText_nested :
    (ofText .mysql "é(a, ')' (b)) 'c".toList)[1]? = some (symbol '(') ∧
      partner? (ofText .mysql "é(a, ')' (b)) 'c".toList) 1 = some 10 ∧
      Dialect.mysql.groupLength? (Text.bytes "é(a, ')' (b)) 'c".toList) 2 = some 12 ∧
      Dialect.mysql.isBalanced "é(a, ')' (b)) 'c".toList = false := by
  have opens : (ofText .mysql "é(a, ')' (b)) 'c".toList)[1]? = some (symbol '(') := by
    decide +kernel
  have partner : partner? (ofText .mysql "é(a, ')' (b)) 'c".toList) 1 = some 10 := by
    decide +kernel
  have start : offset (ofText .mysql "é(a, ')' (b)) 'c".toList) 1 = 2 := by decide +kernel
  have stop : offset (ofText .mysql "é(a, ')' (b)) 'c".toList) 11 = 14 := by decide +kernel
  have unclosed : (ofText .mysql "é(a, ')' (b)) 'c".toList)[12]? = some (unterminated '\'') := by
    decide +kernel
  obtain ⟨groups, -, balanced⟩ := groups_ofText .mysql "é(a, ')' (b)) 'c".toList
  refine ⟨opens, partner, ?_, ?_⟩
  · obtain ⟨-, bytes, -⟩ := groups 1 opens
    rw [start, partner, Option.map_some, stop] at bytes
    obtain ⟨n, found, size⟩ := Option.map_eq_some_iff.mp bytes
    rw [found, Option.some_inj]
    omega
  · rw [Bool.eq_false_iff]
    intro h
    exact (balanced.mp h).1 '\'' (List.mem_of_getElem? unclosed)

end Token
end SqlStatement
