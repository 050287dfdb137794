import Mathlib.Data.List.Chain
import SqlStatement.Proofs.Carrying

/-!
# Segments of a text

The commas outside literals and groups cut a text into segments, which are its
items once they are trimmed and the empty ones are left out. Balanced texts with
a comma between them have the segments of both. With a blank between them the
last segment of one text and the first segment of the other become one segment,
and two items become one unless one of these segments is empty.
-/
namespace SqlStatement

namespace Text
variable {t u : Text}

/-- What holds of texts and is kept by putting two of them together holds of their list. -/
theorem joinWith_induction {P : Text → Prop} {separator : Text} {ts : List Text} (nil : P [])
    (append : ∀ t u, P t → P u → P (t ++ separator ++ u)) (h : ∀ t ∈ ts, P t) :
    P (joinWith separator ts) := by
  fun_induction joinWith separator ts with
  | case1 => exact nil
  | case2 t => exact h t (by simp)
  | case3 t ts hne ih => exact append t _ (h t (by simp)) (ih fun u hu => h u (by simp [hu]))

theorem trim_eq_nil_iff : trim t = [] ↔ ∀ c ∈ t, isWhite c = true := by
  rw [trim, trimWhere, dropEndWhile, List.reverse_eq_nil_iff, List.dropWhile_eq_nil_iff]
  simp only [List.mem_reverse]
  constructor
  · intro h c hc
    by_contra hw
    have kept : t.dropWhile isWhite ≠ [] := fun hn => hw (List.dropWhile_eq_nil_iff.mp hn c hc)
    have first := List.head_dropWhile_not isWhite kept
    rw [h _ (List.head_mem kept)] at first
    cases first
  · exact fun h c hc => h c ((List.dropWhile_sublist _).mem hc)

/-- White text in front is trimmed away. -/
theorem trim_append_left (h : trim t = []) : trim (t ++ u) = trim u := by
  rw [trim, trimWhere, List.dropWhile_append_of_pos (trim_eq_nil_iff.mp h)]
  rfl

/-- White text behind is trimmed away. -/
theorem trim_append_right (h : trim u = []) : trim (t ++ u) = trim t := by
  have white := trim_eq_nil_iff.mp h
  by_cases ht : trim t = []
  · rw [ht, trim_append_left ht, h]
  · have kept : t.dropWhile isWhite ≠ [] := fun hn =>
      ht (trim_eq_nil_iff.mpr (List.dropWhile_eq_nil_iff.mp hn))
    rw [trim, trimWhere, List.dropWhile_append, if_neg (by simpa using kept), dropEndWhile,
      List.reverse_append, List.dropWhile_append_of_pos (by simpa using white)]
    rfl

theorem trim_append_eq_nil_iff : trim (t ++ u) = [] ↔ trim t = [] ∧ trim u = [] := by
  simp only [trim_eq_nil_iff, List.forall_mem_append]

/-- Trimming takes white text off both ends. -/
theorem exists_trim (t : Text) :
    ∃ front behind, t = front ++ trim t ++ behind ∧ trim front = [] ∧ trim behind = [] := by
  refine ⟨t.takeWhile isWhite, ((t.dropWhile isWhite).reverse.takeWhile isWhite).reverse,
    ?_, ?_, ?_⟩
  · have inner := List.takeWhile_append_dropWhile (p := isWhite)
      (l := (t.dropWhile isWhite).reverse)
    rw [← List.reverse_inj, List.reverse_append, List.reverse_reverse] at inner
    rw [List.append_assoc, trim, trimWhere, dropEndWhile, inner, List.takeWhile_append_dropWhile]
  · exact trim_eq_nil_iff.mpr fun c hc => List.mem_takeWhile_imp hc
  · exact trim_eq_nil_iff.mpr fun c hc => List.mem_takeWhile_imp (List.mem_reverse.mp hc)

@[simp] theorem trim_trim (t : Text) : trim (trim t) = trim t := by
  obtain ⟨front, behind, ht, hf, hb⟩ := exists_trim t
  conv_rhs => rw [ht, trim_append_right hb, trim_append_left hf]

end Text

namespace Piece

/-- Pieces that close a group have a parenthesis that closes it. -/
theorem closes_of_foldlM {ps : List Piece} {depth : Nat}
    (h : ps.foldlM depthBehind? (depth + 1) = some 0) : closes depth ps = true := by
  induction ps generalizing depth with
  | nil => simp at h
  | cons p ps ih =>
      rw [List.foldlM_cons, Option.bind_eq_bind, Option.bind_eq_some_iff] at h
      obtain ⟨behind, hp, h⟩ := h
      obtain ho | rfl | rfl | ⟨q, rfl⟩ := p.isOrdinary_or
      · rw [depthBehind?_of_isOrdinary _ ho] at hp
        cases hp
        rw [closes_cons_of_isOrdinary _ _ ho]
        exact ih h
      · cases hp
        rw [closes_open]
        exact ih h
      · cases hp
        cases depth with
        | zero => exact closes_close_zero ps
        | succ depth =>
            rw [closes_close_succ]
            exact ih h
      · cases hp

end Piece

namespace Nesting
variable {d : Dialect} {n m : Nesting} {t u : Text}

/-- In balanced pieces nothing is left without a partner. -/
theorem Sound.closed (h : n.Sound) (hb : n.pieces.foldlM Piece.depthBehind? 0 = some 0) :
    n.Closed := by
  induction n with
  | done => trivial
  | piece p rest ih =>
      rw [pieces, List.foldlM_cons, Option.bind_eq_bind, Option.bind_eq_some_iff] at hb
      obtain ⟨behind, hp, hb⟩ := hb
      obtain ho | rfl | rfl | ⟨q, rfl⟩ := p.isOrdinary_or
      · rw [Piece.depthBehind?_of_isOrdinary _ ho] at hp
        cases hp
        exact ⟨ho, ih h.2 hb⟩
      · cases hp
        have opened := h.1 rfl
        rw [Piece.closes_of_foldlM hb] at opened
        cases opened
      · cases hp
      · cases hp
  | group inner rest _ ih =>
      rw [pieces, Piece.foldlM_group h.1.foldlM_pieces] at hb
      exact ⟨h.1, ih h.2 hb⟩

theorem closed_ofText (h : d.isBalanced t = true) : (ofText d t).Closed := by
  refine (sound_ofPieces _).closed ?_
  rw [pieces_ofPieces]
  exact beq_iff_eq.mp h

/-- A balanced text in parentheses keeps its pieces, whatever follows. -/
theorem lexed_group (h : d.isBalanced t = true) (rest : Text) :
    Piece.Lexed d (.char '(' :: ((ofText d t).pieces ++ .char ')' :: Piece.ofText d rest)) := by
  have plain {c : Char} (hc : Piece.isPlain c = true) : d.isQuote c = false :=
    Piece.isQuote_of_isPlain hc
  refine .char (plain (by decide)) ?_
  rw [ofText, pieces_ofPieces]
  refine (Piece.lexed_ofText d t).append (.char (plain (by decide)) (Piece.lexed_ofText d rest))
    (Dialect.closed_of_isBalanced h) fun c hc => ?_
  cases hc
  exact plain (by decide)

theorem flatten_append (n current : Nesting) (outers : List Nesting) :
    flatten (n.append current) outers = n.append (flatten current outers) := by
  cases outers with
  | nil => rfl
  | cons outer outers => exact append_assoc ..

/-- What has been read from the right, with a nesting behind all of it. -/
def reach (m current : Nesting) : List Nesting → Nesting × List Nesting
  | [] => (current.append m, [])
  | outer :: outers =>
      let rest := reach m outer outers
      (current, rest.1 :: rest.2)

theorem flatten_reach (m current : Nesting) (outers : List Nesting) :
    flatten (reach m current outers).1 (reach m current outers).2 =
      (flatten current outers).append m := by
  induction outers generalizing current with
  | nil => rfl
  | cons outer outers ih =>
      rw [reach, flatten, ih, flatten, append_assoc]
      rfl

theorem push_reach (m : Nesting) (p : Piece) (current : Nesting) (outers : List Nesting) :
    push p (reach m current outers) =
      reach m (push p (current, outers)).1 (push p (current, outers)).2 := by
  cases p with
  | literal t => cases outers <;> rfl
  | stray q =>
      rw [push, flatten_reach]
      rfl
  | char c =>
      by_cases closes : c = ')'
      · subst closes
        rfl
      · simp only [push, if_neg closes]
        by_cases opens : c = '('
        · simp only [if_pos opens]
          cases outers with
          | nil => rfl
          | cons outer outers => cases outers <;> rfl
        · simp only [if_neg opens]
          cases outers <;> rfl

/-- Closed pieces at the end are read on their own, whatever stands in front of them. -/
theorem Closed.ofPieces_append_pieces (h : m.Closed) (ps : List Piece) :
    ofPieces (ps ++ m.pieces) = (ofPieces ps).append m := by
  have run : ps.foldr push (m, []) = reach m (ps.foldr push (done, [])).1
      (ps.foldr push (done, [])).2 := by
    induction ps with
    | nil => rfl
    | cons p ps ih => rw [List.foldr_cons, ih, push_reach, List.foldr_cons]
  rw [ofPieces, List.foldr_append, h.foldr_push, append_done, run, flatten_reach]
  rfl

/-- Closed pieces at the start are read on their own, whatever stands behind them. -/
theorem Closed.ofPieces_pieces_append (h : n.Closed) (ps : List Piece) :
    ofPieces (n.pieces ++ ps) = n.append (ofPieces ps) := by
  rw [ofPieces, List.foldr_append, h.foldr_push, flatten_append]
  rfl

/-- Texts with a character between them nest like each of them if one of them is balanced and the
first has no unclosed quote. -/
theorem ofText_append_char {c : Char} (ht : d.Closed t)
    (hb : d.isBalanced t = true ∨ d.isBalanced u = true) (hq : d.isQuote c = false)
    (ho : (Piece.char c).isOrdinary = true) :
    ofText d (t ++ c :: u) = (ofText d t).append (piece (.char c) (ofText d u)) := by
  have pieces : Piece.ofText d (t ++ c :: u) = Piece.ofText d t ++ .char c :: Piece.ofText d u := by
    have lexed : Piece.Lexed d (Piece.ofText d t ++ .char c :: Piece.ofText d u) := by
      refine (Piece.lexed_ofText d t).append (.char hq (Piece.lexed_ofText d u)) ht fun c' hc => ?_
      cases hc
      exact hq
    rw [← lexed.ofText_textOf, Piece.textOf_append, Piece.textOf_cons, Piece.textOf_ofText,
      Piece.textOf_ofText]
    rfl
  rw [ofText, pieces]
  rcases hb with hb | hb
  · have behind : ofPieces (.char c :: Piece.ofText d u) = piece (.char c) (ofText d u) := by
      rw [ofPieces, List.foldr_cons, push_of_isOrdinary ho]
      exact flatten_append (piece (.char c) done) _ _
    have read := (closed_ofText hb).ofPieces_pieces_append (.char c :: Piece.ofText d u)
    rwa [ofText, pieces_ofPieces, behind] at read
  · have closed : (piece (.char c) (ofText d u)).Closed := ⟨ho, closed_ofText hb⟩
    have read := closed.ofPieces_append_pieces (Piece.ofText d t)
    rwa [Nesting.pieces, ofText, pieces_ofPieces] at read

/-- The last segment of a nesting and the first segment of the nesting behind it are one. -/
theorem exists_segments_append (n m : Nesting) : ∃ before last,
    n.segments = before ++ [last] ∧
      (n.append m).segments = before ++ (last ++ m.cut.1) :: m.cut.2 := by
  -- what stands in front of a nesting up to its first comma goes to its first segment
  have onto (u : Text) (rest : Nesting) (h : ∃ before last, rest.segments = before ++ [last] ∧
        (rest.append m).segments = before ++ (last ++ m.cut.1) :: m.cut.2) :
      ∃ before last, (u ++ rest.cut.1) :: rest.cut.2 = before ++ [last] ∧
        (u ++ (rest.append m).cut.1) :: (rest.append m).cut.2 =
          before ++ (last ++ m.cut.1) :: m.cut.2 := by
    obtain ⟨before, last, hr, ha⟩ := h
    cases before with
    | nil =>
        obtain ⟨first, others⟩ := List.cons.inj hr
        obtain ⟨first', others'⟩ := List.cons.inj ha
        exact ⟨[], u ++ last, by simp [first, others], by simp [first', others']⟩
    | cons b before =>
        obtain ⟨first, others⟩ := List.cons.inj hr
        obtain ⟨first', others'⟩ := List.cons.inj ha
        exact ⟨(u ++ b) :: before, last, by simp [first, others], by simp [first', others']⟩
  induction n with
  | done => exact ⟨[], [], rfl, rfl⟩
  | piece p rest ih =>
      rw [append, segments, segments, cut, cut]
      split
      · obtain ⟨before, last, hr, ha⟩ := ih
        exact ⟨[] :: before, last, congrArg ([] :: ·) hr, congrArg ([] :: ·) ha⟩
      · exact onto p.text rest ih
  | group inner rest _ ih =>
      rw [append, segments, segments, cut, cut]
      simp only [textOnto_eq]
      have shape (u : Text) : '(' :: (inner.text ++ ')' :: u) =
          ('(' :: (inner.text ++ [')'])) ++ u := by simp
      rw [shape rest.cut.1, shape (rest.append m).cut.1]
      exact onto _ rest ih

/-- A nesting with one segment is that segment. -/
theorem cut_eq_of_snd (h : n.cut.2 = []) : n.cut = (n.text, []) := by
  suffices n.cut.1 = n.text from Prod.ext this h
  induction n with
  | done => rfl
  | piece p rest ih =>
      rw [cut] at h ⊢
      split at h
      · cases h
      · rename_i hs
        rw [if_neg hs, ih h]
        rfl
  | group inner rest _ ih =>
      rw [cut] at h ⊢
      simp only [textOnto_eq, ih h]
      simp [text, pieces, Piece.text]

end Nesting

namespace Dialect
variable {d : Dialect} {t u : Text}

/-- The trimmed segments of a text. -/
def fields (d : Dialect) (t : Text) : List Text := (Nesting.ofText d t).segments.map Text.trim

theorem splitTopLevel_eq (d : Dialect) (t : Text) :
    d.splitTopLevel t = (d.fields t).filter (! ·.isEmpty) := rfl

theorem isBalanced_nil : d.isBalanced [] = true := by
  rw [isBalanced, Piece.ofText_nil]
  rfl

theorem isBalanced_append (ht : d.isBalanced t = true) (hu : d.isBalanced u = true) :
    d.isBalanced (t ++ u) = true :=
  ((LevelWith.of_isBalanced ht).append (.of_isBalanced hu)).isBalanced.trans isBalanced_nil

theorem isBalanced_joinWith {separator : Text} {ts : List Text}
    (hs : d.isBalanced separator = true) (h : ∀ t ∈ ts, d.isBalanced t = true) :
    d.isBalanced (Text.joinWith separator ts) = true :=
  Text.joinWith_induction (P := (d.isBalanced · = true)) isBalanced_nil
    (fun _ _ ht hu => isBalanced_append (isBalanced_append ht hs) hu) h

theorem isOrdinary_of_isWhite {c : Char} (h : Text.isWhite c = true) :
    (Piece.char c).isOrdinary = true := by
  have apart : c ≠ '(' ∧ c ≠ ')' := by
    constructor <;> rintro rfl <;> exact absurd h (by decide)
  simp [Piece.isOrdinary, apart]

theorem isBalanced_of_trim (h : Text.trim t = []) : d.isBalanced t = true := by
  have white := Text.trim_eq_nil_iff.mp h
  exact (LevelWith.of_chars (fun c hc => isQuote_of_isWhite (white c hc))
    fun c hc => isOrdinary_of_isWhite (white c hc)).isBalanced.trans isBalanced_nil

/-- A comma between texts keeps their segments apart if one of them is balanced and the first has no
unclosed quote. -/
theorem fields_append_comma (ht : d.Closed t)
    (hb : d.isBalanced t = true ∨ d.isBalanced u = true) :
    d.fields (t ++ ',' :: u) = d.fields t ++ d.fields u := by
  have comma : d.isQuote ',' = false := by cases d <;> decide
  obtain ⟨before, last, hn, ha⟩ := Nesting.exists_segments_append (Nesting.ofText d t)
    (.piece (.char ',') (Nesting.ofText d u))
  have behind : (Nesting.piece (.char ',') (Nesting.ofText d u)).cut =
      ([], (Nesting.ofText d u).segments) := rfl
  rw [behind, List.append_nil, ← List.singleton_append, ← List.append_assoc, ← hn] at ha
  rw [fields, Nesting.ofText_append_char ht hb comma rfl, ha, List.map_append, fields, fields]

/-- White characters between texts join two of their segments if one of the texts is balanced and
the first has no unclosed quote. -/
theorem exists_fields_append_white {c : Char} (ht : d.Closed t)
    (hb : d.isBalanced t = true ∨ d.isBalanced u = true) (hc : Text.isWhite c = true) :
    ∃ before last first behind,
      d.fields t = before ++ [Text.trim last] ∧ d.fields u = Text.trim first :: behind ∧
      d.fields (t ++ c :: u) = before ++ Text.trim (last ++ first) :: behind := by
  have plain : Nesting.separates (.char c) = false := by
    have apart : c ≠ ',' ∧ c ≠ '(' ∧ c ≠ ')' := by
      refine ⟨?_, ?_, ?_⟩ <;> rintro rfl <;> exact absurd hc (by decide)
    simp [Nesting.separates, apart]
  obtain ⟨before, last, hn, ha⟩ := Nesting.exists_segments_append (Nesting.ofText d t)
    (.piece (.char c) (Nesting.ofText d u))
  have behind : (Nesting.piece (.char c) (Nesting.ofText d u)).cut =
      (c :: (Nesting.ofText d u).cut.1, (Nesting.ofText d u).cut.2) := by
    rw [Nesting.cut, plain]
    rfl
  have white : Text.trim [c] = [] := Text.trim_eq_nil_iff.mpr (by simpa using hc)
  refine ⟨before.map Text.trim, last ++ [c], (Nesting.ofText d u).cut.1,
    (Nesting.ofText d u).cut.2.map Text.trim, ?_, rfl, ?_⟩
  · rw [fields, hn, List.map_append, List.map_singleton, Text.trim_append_right white]
  · rw [fields, Nesting.ofText_append_char ht hb (isQuote_of_isWhite hc)
      (isOrdinary_of_isWhite hc), ha, behind]
    simp

@[simp] theorem fields_nil : d.fields [] = [[]] := by
  rw [fields, Nesting.ofText, Piece.ofText_nil]
  rfl

theorem fields_cons_white {c : Char} (hc : Text.isWhite c = true) (u : Text) :
    d.fields (c :: u) = d.fields u := by
  obtain ⟨before, last, first, behind, ht, rest, joined⟩ :=
    exists_fields_append_white (u := u) (closed_of_isBalanced isBalanced_nil)
      (.inl isBalanced_nil) hc
  have single : [] ++ [[]] = before ++ [Text.trim last] := fields_nil.symm.trans ht
  obtain ⟨rfl, blank⟩ := List.append_inj' single rfl
  rw [List.nil_append] at joined
  rw [joined, rest, Text.trim_append_left (List.cons.inj blank).1.symm]
  rfl

theorem fields_of_trim (h : Text.trim t = []) : d.fields t = [[]] := by
  induction t with
  | nil => exact fields_nil
  | cons c t ih =>
      obtain ⟨first, rest⟩ := List.forall_mem_cons.mp (Text.trim_eq_nil_iff.mp h)
      have blank : Text.trim t = [] := Text.trim_eq_nil_iff.mpr rest
      rw [fields_cons_white first, ih blank]

theorem fields_append_of_trim (ht : d.Closed t) (hu : Text.trim u = []) :
    d.fields (t ++ u) = d.fields t := by
  cases u with
  | nil => rw [List.append_nil]
  | cons c u =>
      obtain ⟨first, rest⟩ := List.forall_mem_cons.mp (Text.trim_eq_nil_iff.mp hu)
      have blank : Text.trim u = [] := Text.trim_eq_nil_iff.mpr rest
      obtain ⟨before, last, first, behind, hs, single, joined⟩ :=
        exists_fields_append_white ht (.inr (isBalanced_of_trim blank)) ‹_›
      obtain ⟨empty, rfl⟩ := List.cons.inj ((fields_of_trim blank).symm.trans single)
      rw [joined, hs, Text.trim_append_right empty.symm]

theorem fields_append_left_of_trim (ht : Text.trim t = []) (u : Text) :
    d.fields (t ++ u) = d.fields u := by
  induction t with
  | nil => rfl
  | cons c t ih =>
      obtain ⟨first, rest⟩ := List.forall_mem_cons.mp (Text.trim_eq_nil_iff.mp ht)
      have blank : Text.trim t = [] := Text.trim_eq_nil_iff.mpr rest
      rw [List.cons_append, fields_cons_white first, ih blank]

theorem isBalanced_trim (h : d.isBalanced t = true) : d.isBalanced (Text.trim t) = true :=
  (closed_of_isBalanced h).levelWith_trim.isBalanced.trans h

/-- Trimming a text changes none of its trimmed segments. -/
theorem fields_trim (h : d.Closed t) : d.fields (Text.trim t) = d.fields t := by
  obtain ⟨front, behind, ht, hf, hb⟩ := Text.exists_trim t
  have white : d.Closed front := closed_of_isBalanced (isBalanced_of_trim hf)
  conv_rhs => rw [ht]
  rw [fields_append_of_trim (white.append h.levelWith_trim.left) hb, fields_append_left_of_trim hf]

theorem splitTopLevel_trim (h : d.Closed t) :
    d.splitTopLevel (Text.trim t) = d.splitTopLevel t := by
  rw [splitTopLevel_eq, fields_trim h, ← splitTopLevel_eq]

/-- A text with one segment that is empty is blank. -/
theorem trim_of_fields (h : d.fields t = [[]]) : Text.trim t = [] := by
  obtain ⟨first, others⟩ := List.cons.inj (h : _ :: _ = _)
  have single := Nesting.cut_eq_of_snd (List.map_eq_nil_iff.mp others)
  rwa [single, Nesting.text_ofText] at first

theorem isBalanced_comma : d.isBalanced [',', ' '] = true := by cases d <;> decide +kernel

theorem splitTopLevel_append_comma (ht : d.Closed t)
    (hb : d.isBalanced t = true ∨ d.isBalanced u = true) :
    d.splitTopLevel (t ++ [',', ' '] ++ u) = d.splitTopLevel t ++ d.splitTopLevel u := by
  have shape : t ++ [',', ' '] ++ u = t ++ ',' :: ' ' :: u := by simp
  have behind : d.isBalanced t = true ∨ d.isBalanced (' ' :: u) = true :=
    hb.imp_right (isBalanced_append (t := [' ']) (isBalanced_of_trim (by decide)))
  rw [splitTopLevel_eq, shape, fields_append_comma ht behind, fields_cons_white (by decide),
    List.filter_append, splitTopLevel_eq, splitTopLevel_eq]

/-- The items of balanced texts with commas between them. -/
theorem splitTopLevel_joinWith_comma {ts : List Text} (h : ∀ t ∈ ts, d.isBalanced t = true) :
    d.splitTopLevel (Text.joinWith [',', ' '] ts) = ts.flatMap d.splitTopLevel := by
  induction ts with
  | nil => simp [splitTopLevel_eq]
  | cons t ts ih =>
      obtain ⟨ht, hts⟩ := List.forall_mem_cons.mp h
      cases ts with
      | nil => simp
      | cons u us =>
          rw [Text.joinWith_cons_cons,
            splitTopLevel_append_comma (closed_of_isBalanced ht) (.inl ht), ih hts]
          rfl

/-- Whether a comma stands where trimmed segments meet further ones: the last of the former or the
first of the latter is empty. -/
def MeetAtComma (fs gs : List Text) : Prop := fs.getLast? = some [] ∨ gs.head? = some []

instance : DecidableRel MeetAtComma := fun fs gs =>
  inferInstanceAs (Decidable (fs.getLast? = some [] ∨ gs.head? = some []))

/-- Of a balanced text and one behind it, with a white character between them, the items are those
of both if a comma stands there as well, otherwise there are fewer. -/
theorem splitTopLevel_append_white {c : Char} (ht : d.isBalanced t = true)
    (hc : Text.isWhite c = true) (u : Text) :
    MeetAtComma (d.fields t) (d.fields u) ∧
        d.splitTopLevel (t ++ c :: u) = d.splitTopLevel t ++ d.splitTopLevel u ∨
      ¬MeetAtComma (d.fields t) (d.fields u) ∧ (d.splitTopLevel (t ++ c :: u)).length <
        (d.splitTopLevel t ++ d.splitTopLevel u).length := by
  obtain ⟨before, last, first, behind, left, right, joined⟩ :=
    exists_fields_append_white (u := u) (closed_of_isBalanced ht) (.inl ht) hc
  simp only [splitTopLevel_eq, MeetAtComma, left, right, joined]
  by_cases hl : Text.trim last = []
  · exact .inl (by simp [hl, Text.trim_append_left hl])
  · by_cases hf : Text.trim first = []
    · exact .inl (by simp [hl, hf, Text.trim_append_right hf])
    · have kept : Text.trim (last ++ first) ≠ [] := fun h => hl (Text.trim_append_eq_nil_iff.mp h).1
      exact .inr (by simp [hl, hf, kept])

/-- Texts with a comma wherever one meets the next. Blank texts do not count. -/
def Parted (d : Dialect) (ts : List Text) : Prop :=
  ((ts.map d.fields).filter (· ≠ [[]])).IsChain MeetAtComma

instance (d : Dialect) (ts : List Text) : Decidable (d.Parted ts) :=
  inferInstanceAs (Decidable (List.IsChain MeetAtComma _))

/-- A text that is not blank keeps its first segment in front of others, as far as that is
empty. -/
theorem head?_fields_append_white {c : Char} (ht : d.isBalanced t = true)
    (hc : Text.isWhite c = true) (hn : Text.trim t ≠ []) (u : Text) :
    (d.fields (t ++ c :: u)).head? = some [] ↔ (d.fields t).head? = some [] := by
  obtain ⟨before, last, first, behind, left, -, joined⟩ :=
    exists_fields_append_white (u := u) (closed_of_isBalanced ht) (.inl ht) hc
  rw [left, joined]
  cases before with
  | nil =>
      have kept : Text.trim last ≠ [] := fun h => hn (trim_of_fields (by rw [left, h]; rfl))
      simp [kept, Text.trim_append_eq_nil_iff]
  | cons b before => rfl

/-- Texts with blanks between them begin with an empty segment if the first that is not blank
does. -/
theorem head?_fields_joinWith_space {ts : List Text} (h : ∀ t ∈ ts, d.isBalanced t = true) :
    (d.fields (Text.joinWith [' '] ts)).head? = some [] ↔
      ∀ fs ∈ ((ts.map d.fields).filter (· ≠ [[]])).head?, fs.head? = some [] := by
  induction ts with
  | nil => simp
  | cons t ts ih =>
      obtain ⟨ht, hts⟩ := List.forall_mem_cons.mp h
      rw [List.map_cons]
      by_cases hn : d.fields t = [[]]
      · rw [List.filter_cons_of_neg (by simpa using hn), ← ih hts]
        cases ts with
        | nil => rw [Text.joinWith_singleton, hn, Text.joinWith_nil, fields_nil]
        | cons u us =>
            have blank : Text.trim (t ++ [' ']) = [] :=
              Text.trim_append_eq_nil_iff.mpr ⟨trim_of_fields hn, by decide⟩
            rw [Text.joinWith_cons_cons, fields_append_left_of_trim blank]
      · rw [List.filter_cons_of_pos (by simpa using hn)]
        cases ts with
        | nil => simp
        | cons u us =>
            have first := head?_fields_append_white (c := ' ') ht (by decide)
              (fun blank => hn (fields_of_trim blank)) (Text.joinWith [' '] (u :: us))
            simpa [Text.joinWith_cons_cons] using first

/-- Balanced texts with blanks between them have no more items than the texts. -/
theorem length_splitTopLevel_joinWith_space {ts : List Text}
    (h : ∀ t ∈ ts, d.isBalanced t = true) :
    (d.splitTopLevel (Text.joinWith [' '] ts)).length ≤ (ts.flatMap d.splitTopLevel).length := by
  induction ts with
  | nil => simp [splitTopLevel_eq]
  | cons t ts ih =>
      obtain ⟨ht, hts⟩ := List.forall_mem_cons.mp h
      cases ts with
      | nil => simp
      | cons u us =>
          have bound := ih hts
          have shape : Text.joinWith [' '] (t :: u :: us) =
              t ++ ' ' :: Text.joinWith [' '] (u :: us) := by simp [Text.joinWith_cons_cons]
          have few : (d.splitTopLevel (t ++ ' ' :: Text.joinWith [' '] (u :: us))).length ≤
              (d.splitTopLevel t ++ d.splitTopLevel (Text.joinWith [' '] (u :: us))).length := by
            rcases splitTopLevel_append_white (c := ' ') ht (by decide)
              (Text.joinWith [' '] (u :: us)) with ⟨-, h⟩ | ⟨-, h⟩
            · rw [h]
            · exact h.le
          rw [shape, List.flatMap_cons, List.length_append]
          rw [List.length_append] at few
          omega

/-- The items of balanced texts with blanks between them are the items of all of them exactly if
the texts are parted by commas. -/
theorem splitTopLevel_joinWith_space_iff {ts : List Text}
    (h : ∀ t ∈ ts, d.isBalanced t = true) :
    d.splitTopLevel (Text.joinWith [' '] ts) = ts.flatMap d.splitTopLevel ↔ d.Parted ts := by
  induction ts with
  | nil => simp [splitTopLevel_eq, Parted]
  | cons t ts ih =>
      obtain ⟨ht, hts⟩ := List.forall_mem_cons.mp h
      cases ts with
      | nil =>
          rw [Text.joinWith_singleton, List.flatMap_singleton, Parted]
          by_cases hn : d.fields t = [[]] <;> simp [hn]
      | cons u us =>
          have shape : Text.joinWith [' '] (t :: u :: us) =
              t ++ ' ' :: Text.joinWith [' '] (u :: us) := by simp [Text.joinWith_cons_cons]
          have bound := length_splitTopLevel_joinWith_space hts
          -- a comma parts the first text from the joined others if it parts it from the next one
          -- that is not blank
          have parted : d.Parted (t :: u :: us) ↔
              MeetAtComma (d.fields t) (d.fields (Text.joinWith [' '] (u :: us))) ∧
                d.Parted (u :: us) := by
            rw [Parted, List.map_cons]
            by_cases hn : d.fields t = [[]]
            · rw [List.filter_cons_of_neg (by simpa using hn), ← Parted, MeetAtComma, hn]
              simp
            · rw [List.filter_cons_of_pos (by simpa using hn), List.isChain_cons, ← Parted]
              refine and_congr_left fun _ => ?_
              rw [MeetAtComma, head?_fields_joinWith_space hts]
              simp only [MeetAtComma, forall_or_left]
          rw [parted, shape, List.flatMap_cons]
          rcases splitTopLevel_append_white (c := ' ') ht (by decide)
            (Text.joinWith [' '] (u :: us)) with ⟨hm, h⟩ | ⟨hm, h⟩
          · rw [h, List.append_cancel_left_eq, ih hts, and_iff_right hm]
          · refine iff_of_false (fun he => ?_) fun hp => hm hp.1
            rw [he, List.length_append, List.length_append] at h
            omega

end Dialect
end SqlStatement
