import SqlStatement.Proofs.Branching
import SqlStatement.Proofs.Curtailing
import SqlStatement.Proofs.Dotting
import SqlStatement.Proofs.Extraction
import SqlStatement.Proofs.Recording
import SqlStatement.Reading.Tables

/-!
# Opening parentheses

Every group of a text opens with a parenthesis of its own, so groups nest no
deeper than a text has opening parentheses. Taking a statement apart, reading
the tables of a list and quoting names add none; writing a statement again from
its parts adds at most the one in front of the columns of an INSERT.
-/
namespace SqlStatement

namespace Piece

theorem count_le_textOf (ps : List Piece) :
    ps.count (.char '(') ≤ (textOf ps).count '(' := by
  induction ps with
  | nil => exact Nat.le_refl 0
  | cons p ps ih =>
      rw [textOf_cons, List.count_append, List.count_cons]
      split
      · rename_i hp
        rw [beq_iff_eq.mp hp, text, List.count_singleton_self]
        omega
      · omega

end Piece

namespace Nesting

/-- How many levels of groups there are. -/
def height : Nesting → Nat
  | done => 0
  | piece _ rest => rest.height
  | group inner rest => max (inner.height + 1) rest.height

theorem depth_le_height (n : Nesting) : n.depth ≤ n.height := by
  induction n with
  | done => exact Nat.le_refl 0
  | piece p rest ih => exact ih
  | group inner rest ih₁ ih₂ =>
      rw [depth, height]
      split <;> omega

theorem height_le_count (n : Nesting) : n.height ≤ n.pieces.count (.char '(') := by
  induction n with
  | done => exact Nat.le_refl 0
  | piece p rest ih => exact Nat.le_trans ih List.count_le_count_cons
  | group inner rest ih₁ ih₂ =>
      rw [height, pieces, List.count_cons_self, List.count_append,
        List.count_cons_of_ne (by decide)]
      omega

/-- The groups of a text nest no deeper than the text has opening parentheses. -/
theorem height_ofText_le (d : Dialect) (t : Text) : (ofText d t).height ≤ t.count '(' := by
  have opens := (ofText d t).height_le_count
  have chars := Piece.count_le_textOf (Piece.ofText d t)
  rw [ofText, pieces_ofPieces] at opens
  rw [Piece.textOf_ofText] at chars
  exact Nat.le_trans opens chars

theorem depth_ofText_le (d : Dialect) (t : Text) : (ofText d t).depth ≤ t.count '(' :=
  Nat.le_trans (depth_le_height _) (height_ofText_le d t)

end Nesting

namespace Text

theorem count_trimWhere_le (p : Char → Bool) (c : Char) (t : Text) :
    (trimWhere p t).count c ≤ t.count c := (isInfix_trimWhere p t).sublist.count_le c

theorem count_joinWith_space {c : Char} (hc : c ≠ ' ') (ts : List Text) :
    (joinWith [' '] ts).count c = ts.flatten.count c := by
  induction ts with
  | nil => rfl
  | cons t ts ih =>
      by_cases hts : ts = []
      · simp [hts]
      · rw [Text.joinWith_cons hts, List.count_append, List.count_append, ih, List.flatten_cons,
          List.count_append, List.count_singleton, if_neg (by simpa using Ne.symm hc), Nat.add_zero]

end Text

namespace Parts

/-- The opening parentheses in the parts of a list. -/
def opens (ps : List (String × Text)) : Nat := (ps.flatMap (·.2)).count '('

@[simp] theorem opens_nil : opens [] = 0 := rfl

@[simp] theorem opens_cons (p : String × Text) (ps : List (String × Text)) :
    opens (p :: ps) = p.2.count '(' + opens ps := by
  rw [opens, List.flatMap_cons, List.count_append, opens]

theorem opens_append (ps qs : List (String × Text)) : opens (ps ++ qs) = opens ps + opens qs := by
  rw [opens, List.flatMap_append, List.count_append, opens, opens]

theorem opens_write_le (key : String) (value : Text) (ps : List (String × Text)) :
    opens (OrderedMap.write key value ps) ≤ opens ps + value.count '(' := by
  induction ps with
  | nil => simp [OrderedMap.write]
  | cons p ps ih =>
      rw [OrderedMap.write]
      split <;> simp only [opens_cons] <;> omega

theorem count_le_opens {ps : List (String × Text)} {key : String} {t : Text}
    (h : OrderedMap.find? key ps = some t) : t.count '(' ≤ opens ps := by
  induction ps with
  | nil => cases h
  | cons p ps ih =>
      rw [OrderedMap.find?] at h
      rw [opens_cons]
      split at h
      · cases h
        exact Nat.le_add_right _ _
      · exact Nat.le_trans (ih h) (Nat.le_add_left _ _)

/-- A part is written with the opening parentheses of its text, and one more around columns. -/
theorem count_fragment_le (insertLike : Bool) {key : String}
    (hk : '(' ∉ Text.upper key.toList) (t : Text) :
    (fragment insertLike key t).count '(' ≤ t.count '(' + [key].count "columns" := by
  have body : (if insertLike && key == "columns" then '(' :: (t ++ [')']) else t).count '(' ≤
      t.count '(' + [key].count "columns" := by
    split
    · rename_i columns
      have : key = "columns" := by simpa using (Bool.and_eq_true_iff.mp columns).2
      simp [this, List.count_append]
    · omega
  have name : (Text.upper key.toList).count '(' = 0 := List.count_eq_zero.mpr hk
  simp only [fragment]
  generalize (if insertLike && key == "columns" then '(' :: (t ++ [')']) else t) = written at body ⊢
  split
  · exact body
  · split
    · omega
    · rw [List.count_append, name, List.count_cons_of_ne (by decide), Nat.zero_add]
      exact body

section
variable (insertLike : Bool) {ps : List (String × Text)}

theorem count_trimmed_le {p : String × Text} (hp : '(' ∉ Text.upper p.1.toList) :
    (fragment insertLike p.1 (Text.trimWhere isPadding p.2)).count '(' ≤
      p.2.count '(' + [p.1].count "columns" :=
  Nat.le_trans (count_fragment_le insertLike hp _)
    (Nat.add_le_add_right (Text.count_trimWhere_le isPadding '(' p.2) _)

theorem count_others_le (hk : ∀ p ∈ ps, '(' ∉ Text.upper p.1.toList) :
    ((ps.filterMap fun p =>
        let t := Text.trimWhere isPadding p.2
        if t.isEmpty then none else some (fragment insertLike p.1 t)).flatten).count '(' ≤
      opens ps + (ps.map (·.1)).count "columns" := by
  induction ps with
  | nil => exact Nat.le_refl 0
  | cons p ps ih =>
      obtain ⟨hp, hps⟩ := List.forall_mem_cons.mp hk
      have behind := ih hps
      have first := count_trimmed_le insertLike hp
      simp only [opens_cons, List.map_cons, List.count_cons, List.count_nil,
        Nat.zero_add] at behind first ⊢
      rw [List.filterMap_cons]
      split
      · omega
      · rename_i kept
        split at kept
        · cases kept
        · cases kept
          rw [List.flatten_cons, List.count_append]
          omega

theorem count_fragments_le (hk : ∀ p ∈ ps, '(' ∉ Text.upper p.1.toList) :
    (fragments insertLike ps).flatten.count '(' ≤
      opens ps + (ps.map (·.1)).count "columns" := by
  cases ps with
  | nil => exact Nat.le_refl 0
  | cons p ps =>
      obtain ⟨hp, hps⟩ := List.forall_mem_cons.mp hk
      have behind := count_others_le insertLike hps
      have first := count_trimmed_le insertLike hp
      simp only [fragments, opens_cons, List.map_cons, List.flatten_cons, List.count_append,
        List.count_cons, List.count_nil, Nat.zero_add] at behind first ⊢
      omega

end

/-- A statement is written with the opening parentheses of its parts, and one more for each part
that is the columns. -/
theorem count_join_le (ps : Parts) (hk : ∀ key ∈ ps.keys, '(' ∉ Text.upper key.toList) :
    (join ps).count '(' ≤ opens ps.toList + ps.keys.count "columns" := by
  rw [join, Text.count_joinWith_space (by decide)]
  exact count_fragments_le _ fun p hp => hk p.1 (List.mem_map_of_mem hp)

end Parts

/-- Reading a part off its tokens adds no opening parenthesis. -/
theorem Step.count_captured_le (step : Step) (c : Choice) :
    (step.captured c).count '(' ≤ (Token.textOf c.taken).count '(' := by
  refine Nat.le_trans (Text.count_trimWhere_le Text.isWhite '(' _) ?_
  split
  · exact (List.takeWhile_sublist _).count_le '('
  · exact Nat.le_refl _

/-- The parts of a statement have its opening parentheses at most, since each part is a stretch of
its own. -/
theorem opens_capturesOf_le {steps : List Step} {ts : List Token} {cs : List Choice}
    (h : route steps ts = some cs) :
    Parts.opens (capturesOf steps cs) ≤ (Token.textOf ts).count '(' := by
  induction steps generalizing ts cs with
  | nil => exact Nat.zero_le _
  | cons step steps ih =>
      obtain ⟨c, cs', rfl, ⟨before, after, cuts, -⟩, hr⟩ := route_cons_eq_some h
      have behind := ih hr
      have first := step.count_captured_le c
      have here : Parts.opens (step.captures c) ≤ (Token.textOf c.taken).count '(' := by
        rw [Step.captures]
        split
        · simpa using first
        · exact Nat.zero_le _
      rw [cuts.eq_append, capturesOf, Parts.opens_append]
      simp only [Token.textOf_append, List.count_append]
      omega

namespace Pattern
variable {d : Dialect} {type : StatementType} {p : Pattern}

theorem opens_parts_le {statement text : Text} {ps : Parts}
    (h : p.parts d statement text = .ok ps) : Parts.opens ps.toList ≤ text.count '(' := by
  rw [parts, matchSteps_eq] at h
  split at h
  · rename_i captures found
    cases h
    obtain ⟨cs, hr, rfl⟩ := Option.map_eq_some_iff.mp found
    have opens := opens_capturesOf_le hr
    rwa [Token.textOf_ofText] at opens
  · cases h

theorem keys_parts {statement text : Text} {ps : Parts} (h : p.parts d statement text = .ok ps) :
    ps.keys = p.steps.filterMap Step.key? := by
  rw [parts, matchSteps_eq] at h
  split at h
  · rename_i captures found
    cases h
    obtain ⟨cs, hr, rfl⟩ := Option.map_eq_some_iff.mp found
    exact keys_capturesOf hr
  · cases h

theorem open_not_mem_upper_key (hp : ofType? d type = some p) :
    ∀ key ∈ p.steps.filterMap Step.key?, '(' ∉ Text.upper key.toList := by
  cases type with
  | other phrase => cases hp
  | _ =>
      cases hp
      cases d <;> decide

/-- With a marker in place of one of its parts, a statement is written with one more opening
parenthesis at most. -/
theorem count_join_insert_le (hp : ofType? d type = some p) {statement text marker : Text}
    {ps : Parts} (h : p.parts d statement text = .ok ps) {key : String}
    (hk : '(' ∉ Text.upper key.toList) (hm : '(' ∉ marker) :
    (Parts.join (ps.insert key marker)).count '(' ≤ text.count '(' + 1 := by
  have known := open_not_mem_upper_key hp
  have distinct := nodup_keys hp
  rw [← keys_parts h] at known distinct
  have written : (Parts.join (ps.insert key marker)).count '(' ≤
      Parts.opens (ps.insert key marker).toList + (ps.insert key marker).keys.count "columns" := by
    refine Parts.count_join_le _ fun k hm => ?_
    rw [OrderedMap.keys, OrderedMap.insert, OrderedMap.keys_write] at hm
    split at hm
    · exact known k hm
    · rcases List.mem_append.mp hm with hm | hm
      · exact known k hm
      · rwa [List.mem_singleton.mp hm]
  have once := List.nodup_iff_count.mp (OrderedMap.nodup_keys_insert distinct key marker) "columns"
  have replaced := Parts.opens_write_le key marker ps.toList
  have read := opens_parts_le h
  rw [List.count_eq_zero.mpr hm] at replaced
  change (Parts.join (ps.insert key marker)).count '(' ≤
    Parts.opens (OrderedMap.write key marker ps.toList) + _ at written
  omega

end Pattern

/-- What is written for tokens has their opening parentheses. -/
theorem Token.Writes.count_eq {d : Dialect} {ts : List Token} {out : Text}
    (h : Token.Writes d ts out) : out.count '(' = (textOf ts).count '(' := by
  have quote : d.identifierQuote ≠ '(' := by cases d <;> decide
  induction h with
  | nil => rfl
  | keep t _ ih => rw [List.count_append, textOf_cons, List.count_append, ih]
  | quote w _ ih =>
      rw [Dialect.quoteName, List.count_append, textOf_cons, List.count_append, ih,
        List.count_cons_of_ne quote, List.count_append, List.count_singleton,
        if_neg (by simpa using quote)]
      rfl

theorem Dialect.count_quoteNames (d : Dialect) (t : Text) :
    (d.quoteNames t).count '(' = t.count '(' := by
  have written := (Token.writes_quoteTokens .none (Token.ofText d t)).count_eq (d := d)
  rwa [Token.textOf_ofText] at written

namespace TableRef
variable {d : Dialect} {p q : Place} {table : TableRef} {t : Text}

theorem name?_suffix (h : name? d p = some (t, q)) : q.rest <:+ p.rest := by
  rw [name?] at h
  split at h
  · rename_i r quoted
    split at h
    · cases h
      exact Place.quoted?_suffix quoted
    · cases h
  · exact Place.word?_suffix h

theorem named?_suffix (h : named? d p = some (table, q)) :
    q.rest <:+ p.rest ∧ table.group = none := by
  rw [named?] at h
  split at h
  · cases h
  · rename_i first behind found
    have begins := name?_suffix found
    split at h
    · rename_i rest dot
      split at h
      · rename_i second r found
        cases h
        have dotted : rest <:+ behind.rest := dot ▸ List.suffix_cons '.' rest
        exact ⟨(name?_suffix found).trans (dotted.trans begins), rfl⟩
      · cases h
        exact ⟨begins, rfl⟩
    · cases h
      exact ⟨begins, rfl⟩

/-- A table that stands in a group stands there with its parentheses. -/
theorem table?_suffix (h : table? d p = some (table, q)) :
    q.rest <:+ p.rest ∧
      ∀ inner, table.group = some inner → '(' :: (inner ++ ')' :: q.rest) = p.rest := by
  rw [table?] at h
  split at h
  · split at h
    · rename_i inner rest found
      cases h
      have whole := Dialect.group?_append found
      refine ⟨⟨'(' :: (inner ++ [')']), ?_⟩, ?_⟩
      · rw [← whole]
        simp [Place.past]
      · rintro _ ⟨⟩
        exact whole
    · cases h
  · obtain ⟨behind, none⟩ := named?_suffix h
    exact ⟨behind, fun inner group => by rw [none] at group; cases group⟩

/-- What is behind a table is the end of the text, and the group that it stands in opens there. -/
theorem read?_suffix (h : read? d p = some (table, q)) :
    q.rest <:+ p.rest ∧ ∀ inner, table.group = some inner → '(' :: inner <:+: p.rest := by
  rw [read?] at h
  split at h
  · cases h
  · rename_i found behind read
    obtain ⟨begins, group⟩ := table?_suffix read
    have start := passSeparator_suffix d p
    have inside (inner : Text) (hi : found.group = some inner) : '(' :: inner <:+: p.rest := by
      refine List.IsInfix.trans ?_ start.isInfix
      rw [← group inner hi, ← List.cons_append]
      exact (List.prefix_append _ _).isInfix
    split at h
    · rename_i called r named
      cases h
      have ends := (passCondition_suffix d r.skipBlanks).trans
        (r.skipBlanks_suffix.trans (aliasName?_suffix named))
      exact ⟨ends.trans (behind.skipBlanks_suffix.trans (begins.trans start)), inside⟩
    · cases h
      have ends := (passCondition_suffix d behind.skipBlanks).trans behind.skipBlanks_suffix
      exact ⟨ends.trans (begins.trans start), inside⟩

end TableRef
end SqlStatement
