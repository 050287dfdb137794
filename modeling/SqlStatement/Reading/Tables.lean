import SqlStatement.Dialect.Keyword
import SqlStatement.Parts
import SqlStatement.Reading.Place

/-!
# Tables

The tables of a table list, each under its alias or its own name. A group that
is no subquery is a list of its own; a subquery is one table. Text that is no
table is passed over character by character.
-/
namespace SqlStatement

/-- A table in a table list: the reference as written, the table's own name, its alias, and the
content of the parentheses if it stands in a group. -/
structure TableRef where
  reference : Text
  name : Text
  aliasName : Option Text := none
  group : Option Text := none
  deriving DecidableEq, Repr

namespace TableRef

/-- Passes one of several words and the blanks behind it, if there are any blanks. -/
def passWord (words : List String) (p : Place) : Place :=
  let behind := p.skipWhile Text.isWordChar
  if Text.isAnyKeyword words p.word && behind.rest.head?.any Text.isBlank then behind.skipBlanks
  else p

/-- The place behind join syntax such as `LEFT OUTER JOIN`. -/
def behindJoin? (d : Dialect) (p : Place) : Option Place :=
  let head := passWord ["INNER", "CROSS", "OUTER"]
    (passWord ["LEFT", "RIGHT"] (passWord ["NATURAL"] p))
  if Text.isAnyKeyword d.joinHeads head.word then some (head.skipWhile Text.isWordChar) else none

/-- The place behind a comma or join syntax and the blanks that follow, or the same place. -/
def passSeparator (d : Dialect) (p : Place) : Place :=
  match p.rest with
  | ',' :: rest => (p.past [','] rest).skipBlanks
  | _ =>
      if p.atWordStart then
        match behindJoin? d p with
        | some q => q.skipBlanks
        | none => p
      else p

/-- A quoted identifier with something in it, or else a word. -/
def name? (d : Dialect) (p : Place) : Option (Text × Place) :=
  match p.quoted? d with
  | some r => if 2 < r.1.length then some r else none
  | none => p.word?

/-- A table name with its database in front, if it has one. -/
def named? (d : Dialect) (p : Place) : Option (TableRef × Place) :=
  match name? d p with
  | none => none
  | some (first, q) =>
      match q.rest with
      | '.' :: rest =>
          match name? d (q.past ['.'] rest) with
          | some (second, r) => some ({ reference := first ++ '.' :: second, name := second }, r)
          | none => some ({ reference := first, name := first }, q)
      | _ => some ({ reference := first, name := first }, q)

/-- A group or a table name. -/
def table? (d : Dialect) (p : Place) : Option (TableRef × Place) :=
  match p.rest with
  | '(' :: _ =>
      match d.group? p.rest with
      | some (inner, rest) =>
          let whole := '(' :: (inner ++ [')'])
          some ({ reference := whole, name := whole, group := some inner }, p.past whole rest)
      | none => none
  | _ => named? d p

/-- The text between the quotes of a quoted identifier. -/
def unquoted (literal : Text) : Text := (literal.drop 1).dropLast

/-- An alias behind AS: in quotes, or a word with blanks in front. -/
def aliasBehindAs? (d : Dialect) (p : Place) : Option (Text × Place) :=
  if p.atWordStart && Text.isKeyword "AS" (p.rest.take 2) then
    let behind := p.past (p.rest.take 2) (p.rest.drop 2)
    let q := behind.skipBlanks
    match q.quoted? d with
    | some (literal, r) => some (unquoted literal, r)
    | none => if q.rest.length < behind.rest.length then q.word? else none
  else none

/-- An alias without AS: in quotes, or a word that is neither ON nor part of join syntax. -/
def bareAlias? (d : Dialect) (p : Place) : Option (Text × Place) :=
  match p.quoted? d with
  | some (literal, r) => some (unquoted literal, r)
  | none => p.word?.filter fun r => !Text.isAnyKeyword ("ON" :: d.joinWords) r.1

/-- An alias. -/
def aliasName? (d : Dialect) (p : Place) : Option (Text × Place) :=
  (aliasBehindAs? d p).or (bareAlias? d p)

/-- The text of a join condition with the blanks behind it. It ends in front of a comma, join
syntax, an unclosed quote or a parenthesis without a partner. -/
def conditionText (d : Dialect) (t : Text) : Text :=
  match _h : Piece.next? d t with
  | none | some (.stray _, _) => []
  | some (.literal lit, rest) => lit ++ conditionText d rest
  | some (.char c, rest) =>
      if Text.isWordChar c then
        let word := c :: rest.takeWhile Text.isWordChar
        if Text.isAnyKeyword d.joinWords word then []
        else word ++ conditionText d (rest.dropWhile Text.isWordChar)
      else if c = ',' ∨ c = ')' then []
      else if c = '(' then
        match _g : d.group? t with
        | some (inner, behind) => '(' :: (inner ++ ')' :: conditionText d behind)
        | none => []
      else c :: conditionText d rest
termination_by t.length
decreasing_by
  · exact Piece.next?_length _h
  · exact Nat.lt_of_le_of_lt (List.dropWhile_suffix _).length_le (Piece.next?_length _h)
  · exact Dialect.group?_length _g
  · exact Piece.next?_length _h

/-- A join condition without the blanks behind it. -/
def condition (d : Dialect) (t : Text) : Text := Text.dropEndWhile Text.isBlank (conditionText d t)

/-- The place behind ON and its condition, or the same place if there is no condition. -/
def passCondition (d : Dialect) (p : Place) : Place :=
  if p.atWordStart && Text.isKeyword "ON" p.word then
    let start := (p.skipWhile Text.isWordChar).skipBlanks
    let read := condition d start.rest
    if read.isEmpty then p else start.past read (start.rest.drop read.length)
  else p

/-- A table with its separator, its alias and its join condition, and the place behind. -/
def read? (d : Dialect) (p : Place) : Option (TableRef × Place) :=
  match table? d (passSeparator d p) with
  | none => none
  | some (table, q) =>
      match aliasName? d q.skipBlanks with
      | some (called, r) =>
          some ({ table with aliasName := some called }, passCondition d r.skipBlanks)
      | none => some (table, passCondition d q.skipBlanks)

/-- The key of a table: its alias, or its name without quotes and spaces at the ends. -/
def key (d : Dialect) (t : TableRef) : Text :=
  match t.aliasName with
  | some called => called
  | none => Text.trimWhere (fun c => c == ' ' || c == d.identifierQuote) t.name

/-- Whether a table stands in a group that is no subquery. -/
def isList (t : TableRef) : Bool :=
  t.group.any fun inner => !Text.startsWithKeyword "SELECT" inner

theorem passWord_suffix (words : List String) (p : Place) :
    (passWord words p).rest <:+ p.rest := by
  simp only [passWord]
  split
  · exact (Place.skipBlanks_suffix _).trans (p.skipWhile_suffix _)
  · exact List.suffix_rfl

theorem passSeparator_suffix (d : Dialect) (p : Place) :
    (passSeparator d p).rest <:+ p.rest := by
  simp only [passSeparator]
  split
  · rename_i rest comma
    rw [comma]
    exact (Place.skipBlanks_suffix _).trans (List.suffix_cons ',' rest)
  · split
    · split
      · rename_i q behind
        simp only [behindJoin?] at behind
        split at behind
        · cases behind
          refine (Place.skipBlanks_suffix _).trans ((Place.skipWhile_suffix _ _).trans ?_)
          exact (passWord_suffix _ _).trans ((passWord_suffix _ _).trans (passWord_suffix _ _))
        · cases behind
      · exact List.suffix_rfl
    · exact List.suffix_rfl

theorem length_name?_lt {d : Dialect} {p q : Place} {t : Text} (h : name? d p = some (t, q)) :
    q.rest.length < p.rest.length := by
  simp only [name?] at h
  split at h
  · rename_i r hr
    split at h
    · cases h
      exact Place.length_quoted?_lt hr
    · simp at h
  · exact Place.length_word?_lt h

theorem length_named?_lt {d : Dialect} {p q : Place} {t : TableRef}
    (h : named? d p = some (t, q)) : q.rest.length < p.rest.length := by
  simp only [named?] at h
  split at h
  · simp at h
  · rename_i first q' hq
    have h1 := length_name?_lt hq
    split at h
    · rename_i rest hrest
      split at h
      · rename_i second r hr
        cases h
        have h2 := length_name?_lt hr
        have h3 : (q'.past ['.'] rest).rest.length < q'.rest.length := by
          rw [hrest]
          exact Nat.lt_succ_self _
        omega
      · cases h
        exact h1
    · cases h
      exact h1

theorem length_table?_lt {d : Dialect} {p q : Place} {t : TableRef}
    (h : table? d p = some (t, q)) : q.rest.length < p.rest.length := by
  simp only [table?] at h
  split at h
  · split at h
    · rename_i inner rest hg
      cases h
      exact Dialect.group?_length hg
    · simp at h
  · exact length_named?_lt h

theorem aliasBehindAs?_suffix {d : Dialect} {p q : Place} {t : Text}
    (h : aliasBehindAs? d p = some (t, q)) : q.rest <:+ p.rest := by
  simp only [aliasBehindAs?] at h
  have behind : (p.past (p.rest.take 2) (p.rest.drop 2)).skipBlanks.rest <:+ p.rest :=
    (Place.skipBlanks_suffix _).trans (List.drop_suffix 2 p.rest)
  split at h
  · split at h
    · rename_i literal r quoted
      cases h
      exact (Place.quoted?_suffix quoted).trans behind
    · split at h
      · exact (Place.word?_suffix h).trans behind
      · cases h
  · cases h

theorem aliasName?_suffix {d : Dialect} {p q : Place} {t : Text}
    (h : aliasName? d p = some (t, q)) : q.rest <:+ p.rest := by
  rw [aliasName?, Option.or_eq_some_iff] at h
  rcases h with h | ⟨-, h⟩
  · exact aliasBehindAs?_suffix h
  · rw [bareAlias?] at h
    split at h
    · rename_i literal r quoted
      cases h
      exact Place.quoted?_suffix quoted
    · exact Place.word?_suffix (Option.filter_eq_some_iff.mp h).1

theorem passCondition_suffix (d : Dialect) (p : Place) :
    (passCondition d p).rest <:+ p.rest := by
  simp only [passCondition]
  split
  · split
    · exact List.suffix_rfl
    · exact (List.drop_suffix _ _).trans
        ((Place.skipBlanks_suffix _).trans (p.skipWhile_suffix _))
  · exact List.suffix_rfl

/-- A table takes at least one character. -/
theorem length_read?_lt {d : Dialect} {p q : Place} {t : TableRef} (h : read? d p = some (t, q)) :
    q.rest.length < p.rest.length := by
  simp only [read?] at h
  split at h
  · simp at h
  · rename_i table q' hq
    have h1 := length_table?_lt hq
    have h2 := (passSeparator_suffix d p).length_le
    have h3 := q'.skipBlanks_suffix.length_le
    split at h
    · rename_i called r hr
      cases h
      have h4 := (aliasName?_suffix hr).length_le
      have h5 := (passCondition_suffix d r.skipBlanks).length_le
      have h6 := r.skipBlanks_suffix.length_le
      omega
    · cases h
      have h5 := (passCondition_suffix d q'.skipBlanks).length_le
      omega

end TableRef

namespace TableList

/-- The tables of a list with their keys, in order. `inside` reads the list in a group. -/
def entries (d : Dialect) (inside : Text → Except Error (List (Text × Text))) (p : Place) :
    Except Error (List (Text × Text)) :=
  match _hp : p.rest with
  | [] => .ok []
  | c :: rest =>
      match _hr : TableRef.read? d p with
      | none => entries d inside (p.past [c] rest)
      | some (table, q) => do
          let here ← match table.group, table.isList with
            | some inner, true => inside inner
            | _, _ => .ok [(table.key d, table.reference)]
          return here ++ (← entries d inside q)
termination_by p.rest.length
decreasing_by
  · rw [_hp]
    exact Nat.lt_succ_self _
  · exact TableRef.length_read?_lt _hr

/-- The tables of a list and of the groups in it. The number says how many levels may be entered,
the list itself included. -/
def tables (s : Settings) : Nat → Text → Except Error (List (Text × Text))
  | 0, _ => .error (.nestingTooDeep s.maxNesting)
  | room + 1, t => entries s.dialect (tables s room) { rest := t }

end TableList

/-- The part that holds the tables: the first there is of `table`, `from` and `into`. -/
def tablePart (ps : Parts) : Except Error Text :=
  match ((ps.get? "table").or (ps.get? "from")).or (ps.get? "into") with
  | some t => .ok t
  | none => .error (.missingPart (StatementType.shown (Parts.type? ps)) .tables)

/-- The tables of a statement by alias or name. A later table of the same key replaces the
earlier one. -/
def splitTables (s : Settings) (ps : Parts) : Except Error (OrderedMap Text Text) := do
  return .ofList (← TableList.tables s (s.maxNesting + 1) (← tablePart ps))

end SqlStatement
