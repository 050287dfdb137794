import SqlStatement.Literal

/-!
# Pieces of a text

Every scan of a statement has to pass over quoted literals as a whole. Here a
text is cut once into its pieces: a closed literal, a quote character whose
literal is never closed, or one character outside literals. The scans then
recurse on the list of pieces.
-/
namespace SqlStatement

/-- A closed literal, a quote that opens nothing, or a character outside literals. -/
inductive Piece where
  | literal (text : Text)
  | stray (quote : Char)
  | char (c : Char)
  deriving DecidableEq, Repr

namespace Piece

/-- The text of a piece. -/
def text : Piece → Text
  | literal t => t
  | stray q => [q]
  | char c => [c]

/-- The text of a list of pieces. -/
def textOf (ps : List Piece) : Text := ps.flatMap text

/-- The first piece of a text, and the rest. A quote whose literal is never closed stands alone. -/
def next? (d : Dialect) : Text → Option (Piece × Text)
  | [] => none
  | c :: rest =>
      if d.isQuote c then
        match d.literal? (c :: rest) with
        | some (lit, after) => some (literal lit, after)
        | none => some (stray c, rest)
      else some (char c, rest)

/-- A piece and the rest make up the text. -/
theorem next?_append {d : Dialect} {t rest : Text} {p : Piece} (h : next? d t = some (p, rest)) :
    p.text ++ rest = t := by
  cases t with
  | nil => simp [next?] at h
  | cons c t =>
      simp only [next?] at h
      split at h
      · split at h
        · rename_i hl
          cases h
          exact Dialect.literal?_append hl
        · cases h
          rfl
      · cases h
        rfl

/-- A piece takes at least one character. -/
theorem next?_length {d : Dialect} {t rest : Text} {p : Piece} (h : next? d t = some (p, rest)) :
    rest.length < t.length := by
  cases t with
  | nil => simp [next?] at h
  | cons c t =>
      simp only [next?] at h
      split at h
      · split at h
        · rename_i hl
          cases h
          exact Dialect.literal?_length hl
        · cases h
          exact Nat.lt_succ_self _
      · cases h
        exact Nat.lt_succ_self _

/-- The pieces of a text. -/
def ofText (d : Dialect) (t : Text) : List Piece :=
  match _h : next? d t with
  | none => []
  | some (p, rest) => p :: ofText d rest
termination_by t.length
decreasing_by exact next?_length _h

@[simp] theorem textOf_nil : textOf [] = [] := rfl

@[simp] theorem textOf_cons (p : Piece) (ps : List Piece) :
    textOf (p :: ps) = p.text ++ textOf ps := rfl

@[simp] theorem textOf_append (ps qs : List Piece) :
    textOf (ps ++ qs) = textOf ps ++ textOf qs := List.flatMap_append

/-- The pieces lose nothing of the text. -/
@[simp] theorem textOf_ofText (d : Dialect) (t : Text) : textOf (ofText d t) = t := by
  fun_induction ofText d t with
  | case1 t h =>
      cases t with
      | nil => rfl
      | cons c t =>
          simp only [next?] at h
          split at h
          · split at h <;> simp at h
          · simp at h
  | case2 t p rest h ih => rw [textOf_cons, ih, next?_append h]

/-- The number of open groups behind a character outside literals. There is none behind a closing
parenthesis that closes no group. -/
def groupsBehind? (depth : Nat) (c : Char) : Option Nat :=
  if c = '(' then some (depth + 1)
  else if c = ')' then (if depth = 0 then none else some (depth - 1))
  else some depth

/-- Groups that are open around a character stay open. -/
theorem groupsBehind?_add {c : Char} {depth depth' : Nat} (around : Nat)
    (h : groupsBehind? depth c = some depth') :
    groupsBehind? (depth + around) c = some (depth' + around) := by
  by_cases ho : c = '('
  · rw [groupsBehind?, if_pos ho] at h ⊢
    cases h
    exact congrArg some (Nat.add_right_comm depth around 1)
  · by_cases hc : c = ')'
    · rw [groupsBehind?, if_neg ho, if_pos hc] at h ⊢
      by_cases hd : depth = 0
      · rw [if_pos hd] at h
        cases h
      · rw [if_neg hd] at h
        cases h
        rw [if_neg (by omega), show depth + around - 1 = depth - 1 + around by omega]
    · rw [groupsBehind?, if_neg ho, if_neg hc] at h ⊢
      cases h
      rfl

/-- The number of open groups behind a piece. There is none behind an unclosed quote either. -/
def depthBehind? (depth : Nat) : Piece → Option Nat
  | literal _ => some depth
  | stray _ => none
  | char c => groupsBehind? depth c

end Piece

namespace Dialect

/-- Whether every quoted literal is closed and the parentheses outside literals pair up. -/
def isBalanced (d : Dialect) (t : Text) : Bool :=
  (Piece.ofText d t).foldlM Piece.depthBehind? 0 == some 0

/-- Cuts behind the parenthesis that closes a group already open: the text before it, and the text
behind. There is none if the group ends nowhere or runs into an unclosed quote. `depth` counts the
groups that were opened inside. -/
def closeGroup? (d : Dialect) (depth : Nat) (t : Text) : Option (Text × Text) :=
  match _h : Piece.next? d t with
  | none => none
  | some (p, rest) =>
      match p.depthBehind? depth with
      | some depth => (d.closeGroup? depth rest).map fun r => (p.text ++ r.1, r.2)
      | none => if p = .char ')' then some ([], rest) else none
termination_by t.length
decreasing_by exact Piece.next?_length _h

/-- The content of the group at the start of a text, and the text behind its closing
parenthesis. -/
def group? (d : Dialect) : Text → Option (Text × Text)
  | '(' :: rest => d.closeGroup? 0 rest
  | _ => none

/-- The content of a closed group, its parenthesis and the rest make up the text. -/
theorem closeGroup?_append {d : Dialect} {depth : Nat} {t inner rest : Text}
    (h : d.closeGroup? depth t = some (inner, rest)) : inner ++ ')' :: rest = t := by
  fun_induction closeGroup? d depth t generalizing inner rest with
  | case1 => simp at h
  | case2 _ _ p _ hn _ _ ih =>
      obtain ⟨r, hr, he⟩ := Option.map_eq_some_iff.mp h
      cases he
      rw [List.append_assoc, ih hr, Piece.next?_append hn]
  | case3 _ _ _ hn =>
      cases h
      exact Piece.next?_append hn
  | case4 => simp at h

/-- The content of a group in its parentheses and the rest make up the text. -/
theorem group?_append {d : Dialect} {t inner rest : Text} (h : d.group? t = some (inner, rest)) :
    '(' :: (inner ++ ')' :: rest) = t := by
  simp only [group?] at h
  split at h
  · rw [closeGroup?_append h]
  · simp at h

theorem group?_length {d : Dialect} {t inner rest : Text} (h : d.group? t = some (inner, rest)) :
    rest.length < t.length := by
  rw [← group?_append h]
  simp only [List.length_cons, List.length_append]
  omega

end Dialect
end SqlStatement
