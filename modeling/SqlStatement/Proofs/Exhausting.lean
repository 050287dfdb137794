import SqlStatement.Proofs.Grouping
import SqlStatement.Proofs.Items

/-!
# No subquery is left behind

With markers in place of its subqueries a text nests as before, and the contents
of the groups that are left begin as they did: a marker does not begin with
SELECT, and what stands in front of the first literal or group of a content is
untouched. So an extraction leaves no group that starts with SELECT, neither in
the statement nor in the subqueries that it takes out. What it does not look
into it leaves as it is: a statement that mentions SELECT only in its first bytes
comes back whole, whatever groups it has.
-/
namespace SqlStatement

namespace Nesting
variable {n inner rest : Nesting} {next : Nat}

/-- The characters of a text, one after the other. -/
def ofChars : Text → Nesting
  | [] => done
  | c :: t => piece (.char c) (ofChars t)

@[simp] theorem pieces_ofChars (t : Text) : (ofChars t).pieces = t.map .char := by
  induction t with
  | nil => rfl
  | cons c t ih => rw [ofChars, pieces, ih, List.map_cons]

@[simp] theorem leading_ofChars (t : Text) : (ofChars t).leading = t := by
  induction t with
  | nil => rfl
  | cons c t ih => rw [ofChars, leading, ih]

@[simp] theorem queries_ofChars (t : Text) : (ofChars t).queries = [] := by
  induction t with
  | nil => rfl
  | cons c t ih => exact ih

theorem closed_ofChars {t : Text} (h : ∀ p ∈ t.map Piece.char, p.isOrdinary = true) :
    (ofChars t).Closed := by
  induction t with
  | nil => trivial
  | cons c t ih =>
      rw [List.map_cons, List.forall_mem_cons] at h
      exact ⟨h.1, ih h.2⟩

/-- A nesting with markers in place of its subqueries; `next` is the number of the first. -/
def masked : Nesting → Nat → Nesting
  | done, _ => done
  | piece p rest, next => piece p (rest.masked next)
  | group inner rest, next =>
      if inner.startsQuery then
        group (ofChars (Subquery.marker next)) (rest.masked (next + 1 + inner.queries.length))
      else group (inner.masked next) (rest.masked (next + inner.queries.length))

theorem masked_query (h : inner.startsQuery = true) :
    (group inner rest).masked next =
      group (ofChars (Subquery.marker next))
        (rest.masked (next + 1 + inner.queries.length)) := by
  rw [masked, if_pos h]

theorem masked_group (h : ¬inner.startsQuery = true) :
    (group inner rest).masked next =
      group (inner.masked next) (rest.masked (next + inner.queries.length)) := by
  rw [masked, if_neg h]

theorem pieces_masked (n : Nesting) (next : Nat) : (n.masked next).pieces = n.shown 0 next := by
  induction n generalizing next with
  | done => rfl
  | piece p rest ih => rw [masked, pieces, ih, shown_piece]
  | group inner rest ih₁ ih₂ =>
      by_cases hq : inner.startsQuery = true
      · rw [masked_query hq, pieces, ih₂, pieces_ofChars, shown_query _ _ _ hq, Item.pieces]
        simp
      · rw [masked_group hq, pieces, ih₁, ih₂, shown_group _ _ _ hq]

/-- Nothing in front of the first literal or group is put in place of anything. -/
theorem leading_masked (n : Nesting) (next : Nat) : (n.masked next).leading = n.leading := by
  induction n generalizing next with
  | done => rfl
  | piece p rest ih =>
      cases p with
      | char c => rw [masked, leading, leading, ih]
      | literal | stray => rfl
  | group inner rest =>
      by_cases hq : inner.startsQuery = true
      · rw [masked_query hq]
        rfl
      · rw [masked_group hq]
        rfl

theorem startsQuery_masked (n : Nesting) (next : Nat) :
    (n.masked next).startsQuery = n.startsQuery := by
  rw [startsQuery, leading_masked, startsQuery]

theorem startsQuery_marker (number : Nat) :
    (ofChars (Subquery.marker number)).startsQuery = false := by
  rw [startsQuery, leading_ofChars]
  rfl

/-- Markers leave no group that starts with SELECT. -/
theorem queries_masked (n : Nesting) (next : Nat) : (n.masked next).queries = [] := by
  induction n generalizing next with
  | done => rfl
  | piece p rest ih => exact ih next
  | group inner rest ih₁ ih₂ =>
      by_cases hq : inner.startsQuery = true
      · rw [masked_query hq, queries, startsQuery_marker, queries_ofChars, ih₂]
        rfl
      · rw [masked_group hq, queries, startsQuery_masked, if_neg hq, ih₁, ih₂]
        rfl

theorem Closed.masked (h : n.Closed) (next : Nat) : (n.masked next).Closed := by
  induction n generalizing next with
  | done => trivial
  | piece p rest ih => exact ⟨h.1, ih h.2 next⟩
  | group inner rest ih₁ ih₂ =>
      by_cases hq : inner.startsQuery = true
      · rw [masked_query hq]
        exact ⟨closed_ofChars isOrdinary_of_mem_marker, ih₂ h.2 _⟩
      · rw [masked_group hq]
        exact ⟨ih₁ h.1 next, ih₂ h.2 _⟩

/-- Markers stand in groups that are closed, so they close nothing else. -/
theorem Sound.closes_masked (h : n.Sound) (next depth : Nat) :
    Piece.closes depth (n.masked next).pieces = Piece.closes depth n.pieces := by
  induction n generalizing next depth with
  | done => rfl
  | piece p rest ih =>
      rw [Nesting.masked, pieces, pieces, Piece.closes, Piece.closes]
      split
      · exact ih h.2 next _
      · rfl
  | group inner rest ih₁ ih₂ =>
      have passed {content : Nesting} (hc : content.Closed) (next : Nat) :
          Piece.closes depth (group content (rest.masked next)).pieces =
            Piece.closes depth rest.pieces := by
        rw [pieces, Piece.closes_open, hc.closes_append, Piece.closes_close_succ, ih₂ h.2]
      have whole : Piece.closes depth (group inner rest).pieces =
          Piece.closes depth rest.pieces := by
        rw [pieces, Piece.closes_open, h.1.closes_append, Piece.closes_close_succ]
      by_cases hq : inner.startsQuery = true
      · rw [masked_query hq, whole]
        exact passed (closed_ofChars isOrdinary_of_mem_marker) _
      · rw [masked_group hq, whole]
        exact passed (h.1.masked next) _

theorem Sound.masked (h : n.Sound) (next : Nat) : (n.masked next).Sound := by
  induction n generalizing next with
  | done => trivial
  | piece p rest ih => exact ⟨fun hp => (h.2.closes_masked next 0).trans (h.1 hp), ih h.2 next⟩
  | group inner rest ih₁ ih₂ =>
      by_cases hq : inner.startsQuery = true
      · rw [masked_query hq]
        exact ⟨closed_ofChars isOrdinary_of_mem_marker, ih₂ h.2 _⟩
      · rw [masked_group hq]
        exact ⟨h.1.masked next, ih₂ h.2 _⟩

/-- What is closed and stands among lexed pieces is lexed. -/
theorem Closed.lexed_of_infix {d : Dialect} {ps : List Piece} (h : n.Closed)
    (hl : Piece.Lexed d ps) (hi : n.pieces <:+: ps) : Piece.Lexed d n.pieces := by
  obtain ⟨before, behind, rfl⟩ := hi
  rw [List.append_assoc] at hl
  exact hl.right.left (.inl fun p hp => h.isClosed_of_mem hp)

end Nesting

namespace Subquery
variable {d : Dialect} {s : Settings} {t : Text} {e : Extraction}

theorem queryContents_outerText {n : Nesting} (hn : n.Sound) (hl : Piece.Lexed d n.pieces)
    (next : Nat) : d.queryContents (outerText next n) = [] := by
  have lexed : Piece.Lexed d (n.masked next).pieces := by
    rw [Nesting.pieces_masked]
    exact hl.masks (n.masks_shown 0 next)
  have text : outerText next n = Piece.textOf (n.masked next).pieces := by
    rw [Nesting.pieces_masked, outerText]
  rw [Dialect.queryContents, text, lexed.ofText_textOf, (hn.masked next).contentsOf_eq lexed,
    Nesting.queries_masked]
  rfl

/-- A text and the subqueries that are taken out of it have no subquery any more. -/
theorem queryContents_takeOut {limit room next : Nat}
    (h : takeOut limit (Nesting.ofText d t) room next = .ok e) :
    ∀ u ∈ e.sets, d.queryContents u = [] := by
  have sound : (Nesting.ofText d t).Sound := Nesting.sound_ofPieces _
  have lexed : Piece.Lexed d (Nesting.ofText d t).pieces := by
    rw [Nesting.ofText, Nesting.pieces_ofPieces]
    exact Piece.lexed_ofText d t
  rw [takeOut_eq] at h
  split at h
  · cases h
    refine List.forall_mem_cons.mpr ⟨queryContents_outerText sound lexed next, ?_⟩
    intro u hu
    obtain ⟨content, hc, number, rfl⟩ := mem_outerTexts hu
    have closed := sound.closed_of_mem_queries hc
    exact queryContents_outerText closed.sound
      (closed.lexed_of_infix lexed (Nesting.infix_of_mem_queries hc)) number
  · cases h

/-- The extraction of a statement that is looked into leaves no subquery. -/
theorem queryContents_of_mentionsSelect (h : extract s t = .ok e)
    (mentions : mentionsSelect headBytes t = true) :
    ∀ u ∈ e.sets, s.dialect.queryContents u = [] := by
  rw [extract, if_pos mentions] at h
  obtain ⟨inserted, -, h⟩ := bind_eq_ok_iff.mp h
  cases inserted with
  | none => exact queryContents_takeOut h
  | some p =>
      dsimp only at h
      split at h
      · cases h
      · obtain ⟨q, hq, h⟩ := bind_eq_ok_iff.mp h
        obtain ⟨r, hr, h⟩ := bind_eq_ok_iff.mp h
        cases h
        have query := queryContents_takeOut hq
        have rest := queryContents_takeOut hr
        rw [Extraction.sets, List.forall_mem_cons] at query rest
        rw [Extraction.sets, List.forall_mem_cons, List.forall_mem_cons, List.forall_mem_append]
        exact ⟨rest.1, query.1, query.2, rest.2⟩

/-- No text of an extraction has a closed group that starts with SELECT, exactly if the statement
mentions SELECT behind its first bytes or has no such group. Without the mention it comes back as it
is. -/
theorem queryContents_extract (h : extract s t = .ok e) :
    (∀ u ∈ e.sets, s.dialect.queryContents u = []) ↔
      (mentionsSelect headBytes t = true ∨ s.dialect.queryContents t = []) := by
  by_cases mentions : mentionsSelect headBytes t = true
  · exact iff_of_true (queryContents_of_mentionsSelect h mentions) (.inl mentions)
  · rw [extract, if_neg mentions] at h
    cases h
    rw [Extraction.sets, List.forall_mem_singleton, or_iff_right mentions]

/-- The query of an INSERT and the subqueries in it and behind it are taken out. -/
theorem queryContents_extract_insert :
    let t : Text := ("INSERT INTO t SELECT '(SELECT' FROM (SELECT (c)) b " ++
      "ON DUPLICATE KEY UPDATE a = (SELECT 1)").toList
    let e : Extraction :=
      { outer := "INSERT INTO t #sub1 ON DUPLICATE KEY UPDATE a = (#sub3)".toList
        subqueries := ["SELECT '(SELECT' FROM (#sub2) b", "SELECT (c)", "SELECT 1"].map
          String.toList }
    extract {} t = .ok e ∧ ∀ u ∈ e.sets, Dialect.mysql.queryContents u = [] := by
  intro t e
  have extracted : extract {} t = .ok e := by decide +kernel
  exact ⟨extracted, (queryContents_extract extracted).mpr (.inl (by decide +kernel))⟩

/-- A statement that begins with a subquery and mentions SELECT nowhere else keeps it. -/
theorem not_queryContents_extract :
    ¬∀ (s : Settings) (t : Text) (e : Extraction), extract s t = .ok e →
      ∀ u ∈ e.sets, s.dialect.queryContents u = [] := by
  intro h
  have extracted : extract {} "(SELECT a FROM t) LIMIT 5".toList =
      .ok { outer := "(SELECT a FROM t) LIMIT 5".toList } := by
    decide +kernel
  have none := h {} _ _ extracted "(SELECT a FROM t) LIMIT 5".toList (by decide)
  exact absurd none (by decide +kernel)

end Subquery
end SqlStatement
