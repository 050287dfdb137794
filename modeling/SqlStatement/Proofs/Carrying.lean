import SqlStatement.Proofs.Balancing
import SqlStatement.Proofs.Groups
import SqlStatement.Proofs.Injection
import SqlStatement.Proofs.Trimming

/-!
# Groups carried through an extraction

A text opens and closes groups, and a level text leaves as many open as there
were. Trimming keeps the groups of a closed text. So do injections whose
subqueries are level, and every subquery is: it is the content of a closed group
with markers in place of the subqueries in it.
-/
namespace SqlStatement

namespace Piece

/-- Groups that are open around pieces stay open. -/
theorem foldlM_depthBehind?_add {ps : List Piece} {depth depth' : Nat} (around : Nat)
    (h : ps.foldlM depthBehind? depth = some depth') :
    ps.foldlM depthBehind? (depth + around) = some (depth' + around) := by
  induction ps generalizing depth with
  | nil =>
      cases h
      rfl
  | cons p ps ih =>
      rw [List.foldlM_cons, Option.bind_eq_bind, Option.bind_eq_some_iff] at h
      obtain ⟨between, hp, h⟩ := h
      have step : p.depthBehind? (depth + around) = some (between + around) := by
        cases p with
        | stray q => simp [depthBehind?] at hp
        | literal t =>
            cases hp
            rfl
        | char c => exact groupsBehind?_add around hp
      rw [List.foldlM_cons, step]
      exact ih h

theorem delimiter?_of_isWhite {p : Piece} (h : p.isWhite = true) : p.delimiter? = none := by
  obtain ⟨c, rfl, hc⟩ := text_of_isWhite h
  have apart : c ≠ '(' ∧ c ≠ ')' ∧ c ≠ ',' := by
    refine ⟨?_, ?_, ?_⟩ <;> rintro rfl <;> exact absurd hc (by decide)
  simp [delimiter?, apart]

theorem filterMap_strip (ps : List Piece) :
    (strip ps).filterMap delimiter? = ps.filterMap delimiter? := by
  have front (ps : List Piece) :
      (ps.dropWhile isWhite).filterMap delimiter? = ps.filterMap delimiter? := by
    induction ps with
    | nil => rfl
    | cons p ps ih =>
        cases hp : p.isWhite with
        | true =>
            rw [List.dropWhile_cons_of_pos hp, ih,
              List.filterMap_cons_none (delimiter?_of_isWhite hp)]
        | false => rw [List.dropWhile_cons_of_neg (by simp [hp])]
  rw [strip, List.rdropWhile, List.filterMap_reverse, front, ← List.filterMap_reverse,
    List.reverse_reverse, front]

end Piece

namespace Dialect
variable {d : Dialect} {t u v : Text}

/-- The number of open groups behind a text. -/
def depthBehind? (d : Dialect) (depth : Nat) (t : Text) : Option Nat :=
  (d.delimiters t).foldlM Piece.groupsBehind? depth

theorem Closed.delimiters_append (ht : d.Closed t) (hu : d.Closed u) :
    d.delimiters (t ++ u) = d.delimiters t ++ d.delimiters u := by
  rw [delimiters, ht.ofText_append hu, ← Piece.filterMap_delimiter?_bare, Piece.bare_weld,
    Piece.filterMap_delimiter?_bare, List.filterMap_append, delimiters, delimiters]

theorem Closed.depthBehind?_append (ht : d.Closed t) (hu : d.Closed u) (k : Nat) :
    d.depthBehind? k (t ++ u) = (d.depthBehind? k t).bind (d.depthBehind? · u) := by
  rw [depthBehind?, ht.delimiters_append hu, List.foldlM_append]
  rfl

/-- Two closed texts that open and close the same groups. -/
structure LevelWith (d : Dialect) (t u : Text) : Prop where
  left : d.Closed t
  right : d.Closed u
  depth : ∀ k, d.depthBehind? k t = d.depthBehind? k u

namespace LevelWith

theorem refl (h : d.Closed t) : d.LevelWith t t := ⟨h, h, fun _ => rfl⟩

theorem symm (h : d.LevelWith t u) : d.LevelWith u t := ⟨h.right, h.left, fun k => (h.depth k).symm⟩

theorem trans (h : d.LevelWith t u) (h' : d.LevelWith u v) : d.LevelWith t v :=
  ⟨h.left, h'.right, fun k => (h.depth k).trans (h'.depth k)⟩

theorem append {t' u' : Text} (h : d.LevelWith t u) (h' : d.LevelWith t' u') :
    d.LevelWith (t ++ t') (u ++ u') := by
  refine ⟨h.left.append h'.left, h.right.append h'.right, fun k => ?_⟩
  rw [h.left.depthBehind?_append h'.left, h.right.depthBehind?_append h'.right, h.depth k,
    funext h'.depth]

theorem isBalanced (h : d.LevelWith t u) : d.isBalanced t = d.isBalanced u := by
  rw [Bool.eq_iff_iff, isBalanced_iff, isBalanced_iff, ← depthBehind?, ← depthBehind?, h.depth 0]
  exact and_congr_left fun _ => ⟨fun _ => h.right, fun _ => h.left⟩

theorem of_delimiters (ht : d.Closed t) (hu : d.Closed u) (h : d.delimiters t = d.delimiters u) :
    d.LevelWith t u := ⟨ht, hu, fun k => by rw [depthBehind?, h, depthBehind?]⟩

/-- Whole pieces that leave as many groups open as there were. -/
theorem of_pieces {ps : List Piece} (hp : ∀ p ∈ ps, p.Whole d)
    (h : ∀ k, ps.foldlM Piece.depthBehind? k = some k) : d.LevelWith (Piece.textOf ps) [] := by
  refine ⟨closed_textOf hp, closed_of_forall (by simp), fun k => ?_⟩
  rw [depthBehind?, delimiters_textOf hp,
    ← Piece.foldlM_depthBehind? fun p hm => (hp p hm).isClosed, h, depthBehind?, delimiters,
    Piece.ofText_nil]
  rfl

/-- A balanced text leaves as many groups open as there were. -/
theorem of_isBalanced (h : d.isBalanced t = true) : d.LevelWith t [] := by
  have closed := (isBalanced_iff.mp h).1
  have level (k : Nat) : (Piece.ofText d t).foldlM Piece.depthBehind? k = some k := by
    have := Piece.foldlM_depthBehind?_add k (beq_iff_eq.mp h)
    simpa using this
  simpa using of_pieces (fun _ => closed.whole) level

theorem of_chars (hq : ∀ c ∈ t, d.isQuote c = false)
    (ho : ∀ c ∈ t, (Piece.char c).isOrdinary = true) : d.LevelWith t [] := by
  rw [← Piece.textOf_map_char t]
  refine of_pieces (fun p hp => ?_) (Piece.foldlM_of_isOrdinary fun p hp => ?_)
  · obtain ⟨c, hc, rfl⟩ := List.mem_map.mp hp
    exact hq c hc
  · obtain ⟨c, hc, rfl⟩ := List.mem_map.mp hp
    exact ho c hc

theorem of_word (h : ∀ c ∈ t, Text.isWordChar c = true) : d.LevelWith t [] :=
  .of_chars (fun c hc => isQuote_of_isWordChar (h c hc)) fun c hc =>
    Piece.isOrdinary_of_isWordChar (h c hc)

end LevelWith

/-- Trimming takes away nothing but white characters. -/
theorem Closed.levelWith_trim (h : d.Closed t) : d.LevelWith (Text.trim t) t := by
  have whole : ∀ p ∈ Piece.strip (Piece.ofText d t), p.Whole d := fun p hp =>
    h.whole ((List.dropWhile_sublist _).mem ((List.rdropWhile_prefix _ _).mem hp))
  have trimmed := Piece.trim_textOf fun p hp => (Piece.lexed_ofText d t).firm hp
  rw [Piece.textOf_ofText] at trimmed
  rw [trimmed]
  refine .of_delimiters (closed_textOf whole) h ?_
  rw [delimiters_textOf whole, Piece.filterMap_strip, delimiters]

end Dialect

namespace Subquery
variable {d : Dialect} {sets : List Text}

/-- A marker is replaced by one of the subqueries and the rest of the word behind the number. -/
theorem exists_of_replacement? {w t : Text} (h : replacement? sets w = some t) :
    ∃ set ∈ sets.tail, ∃ rest, rest <:+ w ∧ t = set ++ rest := by
  simp only [replacement?, markedNumber?] at h
  split at h
  · rename_i hm
    split at hm
    · split at hm
      · simp at hm
      · cases hm
        split at h
        · simp at h
        · rename_i number
          obtain ⟨set, hs, rfl⟩ := Option.map_eq_some_iff.mp h
          refine ⟨set, ?_, _, (List.dropWhile_suffix _).trans (List.drop_suffix 3 w), rfl⟩
          rw [← Nat.sub_one_add_one number, ← List.getElem?_tail] at hs
          exact List.mem_of_getElem? hs
    · simp at hm
  · simp at h

/-- A pass of an injection with level subqueries keeps the groups of a text. -/
theorem levelWith_fill {ts : List Token} (hs : ∀ set ∈ sets.tail, d.isBalanced set = true)
    (hp : ∀ t ∈ ts, t.Proper) (hc : ∀ t ∈ ts, d.Closed t.text) :
    d.LevelWith (fill sets ts).1 (Token.textOf ts) := by
  fun_induction fill sets ts with
  | case1 => exact .refl (Dialect.closed_of_forall (by simp))
  | case2 w ts r t ht ih =>
      obtain ⟨set, hm, rest, suffix, rfl⟩ := exists_of_replacement? ht
      have word := (hp (.word w) (by simp)).2
      have hash : d.LevelWith ['#'] [] :=
        .of_chars (List.forall_mem_singleton.mpr (by cases d <;> decide))
          (List.forall_mem_singleton.mpr rfl)
      have marker := hash.append (.of_word word)
      have text : d.LevelWith (set ++ rest) [] :=
        (Dialect.LevelWith.of_isBalanced (hs set hm)).append
          (.of_word fun c hc => word c (suffix.mem hc))
      exact (text.trans marker.symm).append
        (ih (fun t ht => hp t (by simp [ht])) fun t ht => hc t (by simp [ht]))
  | case3 w ts r hr ih =>
      have marker : d.Closed ('#' :: w) :=
        (hc (.symbol '#') (by simp)).append (hc (.word w) (by simp))
      exact (Dialect.LevelWith.refl marker).append
        (ih (fun t ht => hp t (by simp [ht])) fun t ht => hc t (by simp [ht]))
  | case4 t ts hne r ih =>
      exact (Dialect.LevelWith.refl (hc t (by simp))).append
        (ih (fun t ht => hp t (by simp [ht])) fun t ht => hc t (by simp [ht]))

/-- An injection with level subqueries keeps the groups of a closed text. -/
theorem levelWith_injectInto {t : Text} (hs : ∀ set ∈ sets.tail, d.isBalanced set = true)
    (ht : d.Closed t) : d.LevelWith (injectInto d sets t) t := by
  rw [injectInto, fillAll_eq_iterate]
  generalize sets.length + 1 = passes
  induction passes generalizing t with
  | zero => exact .refl ht
  | succ passes ih =>
      have pass := levelWith_fill hs (Token.tidy_ofText d t).proper fun _ => ht.text_of_mem
      rw [Token.textOf_ofText] at pass
      rw [Function.iterate_succ_apply]
      exact (ih pass.left).trans pass

end Subquery

namespace Piece
variable {d : Dialect}

theorem Masks.whole {ps qs : List Piece} (h : Masks ps qs) (hp : ∀ p ∈ ps, p.Whole d) :
    ∀ q ∈ qs, q.Whole d := by
  induction h with
  | nil => exact hp
  | keep p _ ih =>
      obtain ⟨first, rest⟩ := List.forall_mem_cons.mp hp
      exact List.forall_mem_cons.mpr ⟨first, ih rest⟩
  | mask inner hm _ ih =>
      intro q hq
      simp only [List.mem_cons, List.mem_append, List.mem_map] at hq
      rcases hq with rfl | ⟨c, hc, rfl⟩ | rfl | hq
      · exact hp _ (by simp)
      · exact isQuote_of_isPlain (hm c hc)
      · exact hp _ (by simp)
      · exact ih (fun p hm => hp p (by simp [hm])) q hq

end Piece

namespace Nesting
variable {d : Dialect} {n : Nesting}

theorem isOrdinary_of_mem_marker {number : Nat} :
    ∀ p ∈ (Subquery.marker number).map Piece.char, p.isOrdinary = true := by
  intro p hp
  obtain ⟨c, hc, rfl⟩ := List.mem_map.mp hp
  rcases List.mem_cons.mp hc with rfl | hc
  · rfl
  · exact Piece.isOrdinary_of_isWordChar (Subquery.isWordChar_of_mem_marker c hc)

/-- Markers open and close the groups they stand in, like the subqueries they stand for. -/
theorem Closed.foldlM_shown (h : n.Closed) (next k : Nat) :
    (n.shown 0 next).foldlM Piece.depthBehind? k = some k := by
  induction n generalizing next k with
  | done => rfl
  | piece p rest ih =>
      rw [shown_piece, List.foldlM_cons, Piece.depthBehind?_of_isOrdinary k h.1]
      exact ih h.2 next k
  | group inner rest ih₁ ih₂ =>
      by_cases hq : inner.startsQuery = true
      · rw [shown_query _ _ _ hq, Item.pieces, List.cons_append, List.append_assoc,
          List.singleton_append,
          Piece.foldlM_group (Piece.foldlM_of_isOrdinary isOrdinary_of_mem_marker)]
        exact ih₂ h.2 _ k
      · rw [shown_group _ _ _ hq, Piece.foldlM_group fun k => ih₁ h.1 next k]
        exact ih₂ h.2 _ k

end Nesting

namespace Subquery
variable {d : Dialect}

theorem mem_outerTexts {number : Nat} {ns : List Nesting} {t : Text}
    (h : t ∈ outerTexts number ns) : ∃ n ∈ ns, ∃ next, t = outerText next n := by
  induction ns generalizing number with
  | nil => simp [outerTexts] at h
  | cons n ns ih =>
      rcases List.mem_cons.mp h with rfl | h
      · exact ⟨n, by simp, _, rfl⟩
      · obtain ⟨m, hm, next, ht⟩ := ih h
        exact ⟨m, by simp [hm], next, ht⟩

/-- The subqueries that are taken out of a closed text are balanced, and what is left of the text is
closed. -/
theorem closed_takeOut {t : Text} {limit room next : Nat} {e : Extraction} (ht : d.Closed t)
    (h : takeOut limit (Nesting.ofText d t) room next = .ok e) :
    d.Closed e.outer ∧ ∀ set ∈ e.subqueries, d.isBalanced set = true := by
  have whole : ∀ p ∈ (Nesting.ofText d t).pieces, p.Whole d := by
    rw [Nesting.ofText, Nesting.pieces_ofPieces]
    exact fun _ => ht.whole
  have shown (n : Nesting) (hn : ∀ p ∈ n.pieces, p.Whole d) (next : Nat) :
      ∀ p ∈ n.shown 0 next, p.Whole d := (n.masks_shown 0 next).whole hn
  rw [takeOut_eq] at h
  split at h
  · cases h
    refine ⟨Dialect.closed_textOf (shown _ whole next), fun set hs => ?_⟩
    obtain ⟨n, hn, next, rfl⟩ := mem_outerTexts hs
    have closed := (Nesting.sound_ofPieces (Piece.ofText d t)).closed_of_mem_queries hn
    have inside := (Nesting.infix_of_mem_queries hn).subset
    have level := Dialect.LevelWith.of_pieces (shown n (fun p hp => whole p (inside hp)) next)
      fun k => closed.foldlM_shown next k
    rw [outerText, level.isBalanced]
    cases d <;> decide +kernel
  · simp at h

end Subquery
end SqlStatement
