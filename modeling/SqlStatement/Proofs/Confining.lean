import SqlStatement.Proofs.Adjoining
import SqlStatement.Proofs.Conjoining
import SqlStatement.Proofs.Joining

/-!
# Texts that keep to themselves

A text is contained if by itself it spells none of the phrases that may follow
the part it is written to, begins with no word that has a meaning there, has no
semicolon, and leaves no quote open. Nothing is spelled across a comma or a
parenthesis, and across a blank only behind a text that stops in the middle of a
phrase. So what is merged from contained texts is contained, whatever the part,
and so is what is left of them when they are trimmed.
-/
namespace SqlStatement
open Token
variable {d : Dialect} {limit : Nat} {phrases words : List Phrase}

namespace Token

/-- Whether a token is a run of blanks or a symbol that parts can lose at their ends. -/
def isSlack : Token → Bool
  | space _ => true
  | symbol c => Text.isSlack c
  | _ => false

theorem isWord_of_isSlack {t : Token} (h : t.isSlack = true) : t.isWord = false := by
  cases t with
  | word w => cases h
  | space | quoted | symbol | unterminated => rfl

end Token

/-- Whether none of several words stands first, white characters and commas aside. -/
def Unled (words : List Phrase) (ts : List Token) : Prop :=
  (ts.dropWhile Token.isSlack).head?.any (isModifier words) = false

instance (words : List Phrase) (ts : List Token) : Decidable (Unled words ts) :=
  inferInstanceAs (Decidable (_ = false))

namespace Unled
variable {ts us : List Token}

theorem nil : Unled words [] := rfl

theorem cons_iff {m : Token} (hm : m.isSlack = true) : Unled words (m :: ts) ↔ Unled words ts := by
  rw [Unled, List.dropWhile_cons_of_pos hm]
  rfl

theorem append_cons {m : Token} (h : Unled words ts) (hm : m.isWord = false)
    (h' : m.isSlack = true → Unled words us) : Unled words (ts ++ m :: us) := by
  rw [Unled, List.dropWhile_append]
  split
  · by_cases hs : m.isSlack = true
    · exact (cons_iff hs).mpr (h' hs)
    · rw [List.dropWhile_cons_of_neg hs, List.head?_cons, Option.any_some, isModifier_eq_false hm]
  · rename_i hne
    rw [List.head?_append_of_ne_nil _ (by simpa using hne)]
    exact h

theorem of_prefix (h : Unled words us) (hp : ts <+: us) : Unled words ts := by
  obtain ⟨vs, rfl⟩ := hp
  rw [Unled, List.dropWhile_append] at h
  rw [Unled]
  split at h
  · rename_i he
    rw [List.isEmpty_iff.mp he]
    rfl
  · rename_i hne
    rwa [List.head?_append_of_ne_nil _ (by simpa using hne)] at h

theorem skipSpace_iff : Unled words (skipSpace ts) ↔ Unled words ts := by
  cases ts with
  | nil => rfl
  | cons t ts =>
      cases t with
      | space b => exact (cons_iff rfl).symm
      | word | quoted | symbol | unterminated => rfl

theorem head?_eq_false (h : Unled words ts) : ∀ t ∈ ts.head?, isModifier words t = false := by
  intro t ht
  obtain ⟨ts, rfl⟩ := List.head?_eq_some_iff.mp ht
  by_cases hs : t.isSlack = true
  · exact isModifier_eq_false (isWord_of_isSlack hs)
  · rwa [Unled, List.dropWhile_cons_of_neg hs] at h

theorem selects_eq_false (h : Unled [["SELECT"]] ts) : selects ts = false := by
  have first := (skipSpace_iff.mpr h).head?_eq_false
  rw [selects]
  cases he : skipSpace ts with
  | nil => exact startsAny_of_atEnd _ atEnd_nil
  | cons t us =>
      rw [Token.startsAny_cons (by simp)]
      exact first t (by rw [he]; rfl)

end Unled

/-- The words behind which a phrase goes on. -/
def Phrase.inits (phrases : List Phrase) : List Phrase :=
  phrases.flatMap fun p => p.dropLast.map ([·])

/-- Whether a phrase goes on behind none of the last words, white characters and commas aside. -/
def Finished (phrases : List Phrase) (ts : List Token) : Prop :=
  Unled (Phrase.inits phrases) ts.reverse

instance (phrases : List Phrase) (ts : List Token) : Decidable (Finished phrases ts) :=
  inferInstanceAs (Decidable (Unled _ _))

namespace Finished
variable {ts us : List Token}

theorem append_cons {m : Token} (h : m.isSlack = true → Finished phrases ts)
    (hm : m.isWord = false) (h' : Finished phrases us) : Finished phrases (ts ++ m :: us) := by
  rw [Finished, List.reverse_append, List.reverse_cons, List.append_assoc]
  exact Unled.append_cons h' hm h

theorem of_suffix (h : Finished phrases us) (hs : ts <:+ us) : Finished phrases ts :=
  Unled.of_prefix h (List.reverse_prefix.mpr hs)

theorem concat_iff {m : Token} (hm : m.isSlack = true) :
    Finished phrases (ts ++ [m]) ↔ Finished phrases ts := by
  rw [Finished, List.reverse_concat]
  exact Unled.cons_iff hm

theorem skipSpace_iff : Finished phrases (skipSpace ts) ↔ Finished phrases ts := by
  cases ts with
  | nil => rfl
  | cons t ts =>
      cases t with
      | space b =>
          have start : Finished phrases [] := Unled.nil
          exact ⟨append_cons (fun _ => start) rfl, fun h => h.of_suffix (List.suffix_cons ..)⟩
      | word | quoted | symbol | unterminated => rfl

theorem getLast?_eq_false (h : Finished phrases ts) :
    ∀ t ∈ ts.getLast?, isModifier (Phrase.inits phrases) t = false := by
  rw [← List.head?_reverse]
  exact h.head?_eq_false

end Finished

/-- What stands in front of a blank in a spelling is a word behind which the phrase goes on. -/
theorem Phrase.Spells.before_space {p : Phrase} {ts us : List Token} {b : Text}
    (h : p.Spells (ts ++ .space b :: us)) :
    us ≠ [] ∧ ∃ k ∈ p.dropLast, ∃ w, .word w ∈ ts.getLast? ∧ Text.isKeyword k w = true := by
  generalize he : ts ++ .space b :: us = all at h
  fun_induction Spells p all generalizing ts with
  | case1 k w =>
      have := congrArg List.length he
      cases ts with
      | nil => simp at he
      | cons t ts => simp at he
  | case2 k k' ks w b' vs ih =>
      cases ts with
      | nil => simp at he
      | cons t ts =>
          cases ts with
          | nil =>
              simp only [List.cons_append, List.nil_append, List.cons.injEq] at he
              obtain ⟨rfl, -, rfl⟩ := he
              exact ⟨h.2.ne_nil, k, by simp, w, rfl, h.1⟩
          | cons t' ts =>
              simp only [List.cons_append, List.cons.injEq] at he
              obtain ⟨full, k'', hk, w', last, hw⟩ := ih he.2.2 h.2
              refine ⟨full, k'', by simp [hk], w', ?_, hw⟩
              obtain ⟨front, rfl⟩ := List.getLast?_eq_some_iff.mp last
              rw [← List.cons_append, ← List.cons_append, List.getLast?_concat]
              rfl
  | case3 => exact h.elim

namespace Quiet
variable {ts us : List Token}

theorem of_infix (h : Quiet phrases us) (hi : ts <:+: us) : Quiet phrases ts := by
  obtain ⟨front, behind, rfl⟩ := hi
  rintro p hp u t v ht rfl
  exact h p hp (front ++ u) t (v ++ behind) ht (by simp)

theorem nil : Quiet phrases [] := by
  intro p hp u t v ht he
  have empty := List.append_eq_nil_iff.mp (List.append_eq_nil_iff.mp he.symm).2
  exact ht.ne_nil empty.1

/-- No phrase is spelled across a token that is no word, unless it is a blank behind tokens that
stop in the middle of a phrase. -/
theorem append_cons {m : Token} (h : Quiet phrases ts) (h' : Quiet phrases us)
    (hm : m.isWord = false) (hf : m.isSpace = true → us ≠ [] → Finished phrases ts) :
    Quiet phrases (ts ++ m :: us) := by
  intro p hp u t v ht he
  obtain ⟨k, ks, w, t', hks, first, -⟩ := ht.head
  -- The spelling lies behind `m`, in front of it, or goes across it.
  rcases List.append_eq_append_iff.mp he with ⟨r, rfl, hr⟩ | ⟨r, hts, hr⟩
  · cases r with
    | nil =>
        rw [List.nil_append, first] at hr
        cases hr
        cases hm
    | cons x r =>
        cases hr
        exact h' p hp r t v ht rfl
  · rcases List.append_eq_append_iff.mp hr with ⟨r', rfl, -⟩ | ⟨r', across, hr'⟩
    · exact h p hp u t r' ht hts
    · cases r' with
      | nil =>
          rw [List.append_nil] at across
          exact h p hp u t [] ht (by rw [hts, across, List.append_nil])
      | cons x r' =>
          rw [List.cons_append, List.cons.injEq] at hr'
          obtain ⟨rfl, rfl⟩ := hr'
          have inside : m ∈ t := by
            rw [across]
            simp
          rcases ht.mem inside with hs | ⟨_, _, _, rfl, _⟩
          · obtain ⟨b, rfl⟩ := exists_space hs
            rw [across] at ht
            obtain ⟨full, k', hk', w', last, hw'⟩ := ht.before_space
            have ends : Token.word w' ∈ ts.getLast? := by
              obtain ⟨front, rfl⟩ := List.getLast?_eq_some_iff.mp last
              rw [hts, ← List.append_assoc, List.getLast?_concat]
              rfl
            have goes : isModifier (Phrase.inits phrases) (.word w') = true :=
              isModifier_iff.mpr ⟨k', w', List.mem_flatMap.mpr ⟨p, hp, List.mem_map_of_mem hk'⟩,
                rfl, hw'⟩
            rw [(hf rfl (by simp [full])).getLast?_eq_false _ ends] at goes
            cases goes
          · cases hm

theorem space_cons (b : Text) (h : Quiet phrases ts) : Quiet phrases (.space b :: ts) :=
  nil.append_cons h rfl fun _ _ => Unled.nil

theorem append_space (b : Text) (h : Quiet phrases ts) : Quiet phrases (ts ++ [.space b]) :=
  h.append_cons nil rfl fun _ hn => absurd rfl hn

end Quiet

/-- A character that is in no word stands beside others as one token, a symbol or a run of blanks,
which takes up the blanks on both sides. -/
theorem Token.exists_beside {ts us : List Token} {c : Char} (hc : Text.isWordChar c = false)
    (ht : Tidy ts) (hu : Tidy us) :
    ∃ front m behind, beside c ts us = front ++ m :: behind ∧
      (m = symbol c ∨ Text.isBlank c = true ∧ ∃ b, m = space b) ∧
      (ts = front ∨ ∃ b, ts = front ++ [space b]) ∧ (behind = us ∨ behind = skipSpace us) := by
  by_cases hb : Text.isBlank c = true
  · obtain ⟨front, b, he, hf⟩ := exists_beside_blank hb ht hu
    exact ⟨front, _, _, he, .inr ⟨hb, b, rfl⟩, hf, .inr rfl⟩
  · exact ⟨ts, _, us, beside_symbol hc (by simpa using hb) ht hu, .inl rfl, .inl rfl, .inl rfl⟩

theorem Dialect.veil_nil (d : Dialect) : d.veil [] = [] := by
  rw [veil, Nesting.ofText, Piece.ofText_nil]
  rfl

/-- A text that keeps to itself: it stands for tokens of its own whatever it is written next to,
it neither spells one of the phrases nor begins with a barred word, and it ends neither the
statement nor in a quote. -/
structure Contained (d : Dialect) (limit : Nat) (phrases words : List Phrase) (t : Text) :
    Prop where
  isSealed : Sealed d limit (d.veil t)
  closed : ∀ u ∈ d.veil t, u.isClosed = true
  quiet : Quiet phrases (d.veil t)
  unled : Unled words (d.veil t)
  semicolon : .symbol ';' ∉ d.veil t

namespace Contained
variable {t u : Text} {c : Char}

theorem nil : Contained d limit phrases words [] := by
  refine ⟨?_, ?_, ?_, ?_, ?_⟩ <;> rw [Dialect.veil_nil]
  · exact .of_bare legible_nil (by simp [Bare])
  · simp
  · exact .nil
  · exact .nil
  · simp

/-- Contained texts with a comma, a parenthesis or a blank between them are contained, unless a
parenthesis stands in front of SELECT or a blank in the middle of a phrase. -/
theorem append_cons (h : Contained d limit phrases words t)
    (h' : Contained d limit phrases words u) (seam : c ∈ [',', '(', ')', ' '])
    (free : c = '(' ∨ c = ' ' ∧ .symbol '(' ∈ d.veil t → selects (d.veil u) = false)
    (finished : c = ' ' → d.veil u ≠ [] → Finished phrases (d.veil t)) :
    Contained d limit phrases words (t ++ c :: u) ∧
      ((Text.isSlack c = true → Finished phrases (d.veil t)) → Finished phrases (d.veil u) →
        Finished phrases (d.veil (t ++ c :: u))) := by
  obtain ⟨veil, whole⟩ := h.isSealed.veil_append_cons h.closed h'.isSealed seam free
  have plain : Text.isWordChar c = false ∧ c ≠ ';' ∧ (Text.isBlank c = true → c = ' ') := by
    simp only [List.mem_cons, List.not_mem_nil, or_false] at seam
    rcases seam with rfl | rfl | rfl | rfl <;> decide
  obtain ⟨front, m, behind, he, hm, hf, hb⟩ :=
    exists_beside plain.1 h.isSealed.legible.tidy h'.isSealed.legible.tidy
  have before : front <+: d.veil t := by
    rcases hf with hf | ⟨b, hf⟩ <;> rw [hf]
    exact List.prefix_append ..
  have after : behind <:+ d.veil u := by
    obtain ⟨gap, -, hg⟩ := skipSpace_eq (d.veil u)
    rcases hb with rfl | rfl
    · exact List.suffix_rfl
    · exact ⟨gap, hg.symm⟩
  have mark : m.isWord = false ∧ m.isClosed = true ∧ m ≠ .symbol ';' := by
    rcases hm with rfl | ⟨-, b, rfl⟩
    · exact ⟨rfl, rfl, fun he => plain.2.1 (Token.symbol.inj he)⟩
    · exact ⟨rfl, rfl, by simp⟩
  have ends (hd : Finished phrases (d.veil t)) : Finished phrases front := by
    rcases hf with hf | ⟨b, hf⟩
    · exact hf ▸ hd
    · rw [hf] at hd
      exact (Finished.concat_iff rfl).mp hd
  rw [veil, he]
  refine ⟨⟨whole, ?_, ?_, ?_, ?_⟩, fun hd hd' => ?_⟩
  · rw [veil, he]
    exact List.forall_mem_append.mpr ⟨fun x hx => h.closed x (before.subset hx),
      List.forall_mem_cons.mpr ⟨mark.2.1, fun x hx => h'.closed x (after.subset hx)⟩⟩
  · rw [veil, he]
    refine (h.quiet.of_infix before.isInfix).append_cons (h'.quiet.of_infix after.isInfix) mark.1 ?_
    intro hs full
    obtain ⟨blank, b, rfl⟩ := hm.resolve_left (by rintro rfl; cases hs)
    refine ends (finished (plain.2.2 blank) fun empty => full ?_)
    rw [empty] at after
    exact List.suffix_nil.mp after
  · rw [veil, he]
    refine (h.unled.of_prefix before).append_cons mark.1 fun _ => ?_
    rcases hb with rfl | rfl
    · exact h'.unled
    · exact Unled.skipSpace_iff.mpr h'.unled
  · rw [veil, he, List.mem_append, List.mem_cons, not_or, not_or]
    exact ⟨fun hx => h.semicolon (before.subset hx), mark.2.2.symm,
      fun hx => h'.semicolon (after.subset hx)⟩
  · refine Finished.append_cons (fun slack => ends (hd ?_)) mark.1 (hd'.of_suffix after)
    rcases hm with rfl | ⟨blank, -⟩
    · exact slack
    · exact Text.isSlack_of_isWhite (Text.isWhite_of_isBlank blank)

/-- Sealed text that is part of a contained one, but for the blanks at one end, is contained. -/
theorem of_core {core : List Token} (h : Contained d limit phrases words u)
    (hs : Sealed d limit (d.veil t)) (hi : core <:+: d.veil u) (hl : Unled words core)
    (he : d.veil t = core ∨ ∃ b, d.veil t = core ++ [.space b] ∨ d.veil t = .space b :: core) :
    Contained d limit phrases words t := by
  have closed : ∀ x ∈ core, x.isClosed = true := fun x hx => h.closed x (hi.subset hx)
  have quiet : Quiet phrases core := h.quiet.of_infix hi
  have semicolon : Token.symbol ';' ∉ core := fun hx => h.semicolon (hi.subset hx)
  rcases he with he | ⟨b, he | he⟩ <;> refine ⟨hs, ?_, ?_, ?_, ?_⟩ <;> rw [he]
  · exact closed
  · exact quiet
  · exact hl
  · exact semicolon
  · exact List.forall_mem_append.mpr ⟨closed, by simp [isClosed]⟩
  · exact quiet.append_space b
  · exact hl.append_cons rfl fun _ => .nil
  · simpa using semicolon
  · exact List.forall_mem_cons.mpr ⟨rfl, closed⟩
  · exact quiet.space_cons b
  · exact (Unled.cons_iff rfl).mpr hl
  · simpa using semicolon

theorem of_cons (h : Contained d limit phrases words (c :: t)) (hc : Text.isSlack c = true) :
    Contained d limit phrases words t ∧
      (Finished phrases (d.veil (c :: t)) → Finished phrases (d.veil t)) := by
  obtain ⟨veil, rest⟩ := h.isSealed.of_cons hc
  have unled := h.unled
  rcases attach_or (Text.isWordChar_of_isSlack hc) (d.veil t) with he | ⟨b, he⟩ <;>
    rw [veil, he] at unled ⊢
  · have slack : (Token.symbol c).isSlack = true := hc
    refine ⟨h.of_core rest ?_ ((Unled.cons_iff slack).mp unled) (.inl rfl),
      fun hf => hf.of_suffix (List.suffix_cons ..)⟩
    rw [veil, he]
    exact (List.suffix_cons ..).isInfix
  · refine ⟨h.of_core rest ?_ ((Unled.cons_iff rfl).mp unled) ?_,
      fun hf => Finished.skipSpace_iff.mp (hf.of_suffix (List.suffix_cons ..))⟩
    · rw [veil, he]
      exact (List.suffix_cons ..).isInfix
    · rcases ht : d.veil t with _ | ⟨x, ts⟩
      · exact .inl rfl
      · cases x with
        | space b => exact .inr ⟨b, .inr rfl⟩
        | word | quoted | symbol | unterminated => exact .inl rfl

theorem of_concat (h : Contained d limit phrases words (t ++ [c])) (hc : Text.isSlack c = true) :
    Contained d limit phrases words t ∧
      (Finished phrases (d.veil (t ++ [c])) → Finished phrases (d.veil t)) := by
  obtain ⟨veil, rest⟩ := h.isSealed.of_concat hc
  obtain ⟨front, m, behind, he, hm, hf, hb⟩ :=
    exists_beside (Text.isWordChar_of_isSlack hc) rest.legible.tidy tidy_nil
  have last : behind = [] := by rcases hb with rfl | rfl <;> rfl
  subst last
  have slack : m.isSlack = true := by
    rcases hm with rfl | ⟨-, b, rfl⟩
    · exact hc
    · rfl
  have unled := h.unled
  rw [veil, he] at unled ⊢
  refine ⟨h.of_core rest ?_ (unled.of_prefix (List.prefix_append ..))
    (hf.imp_right fun ⟨b, hb⟩ => ⟨b, .inl hb⟩), fun hd => ?_⟩
  · rw [veil, he]
    exact (List.prefix_append ..).isInfix
  · have front := (Finished.concat_iff slack).mp hd
    rcases hf with hf | ⟨b, hf⟩ <;> rw [hf]
    · exact front
    · exact (Finished.concat_iff rfl).mpr front

/-- Contained texts are contained when they are trimmed, and stop where they did. -/
theorem trimWhere {p : Char → Bool} (hp : ∀ c, p c = true → Text.isSlack c = true)
    (h : Contained d limit phrases words t) :
    Contained d limit phrases words (Text.trimWhere p t) ∧
      (Finished phrases (d.veil t) → Finished phrases (d.veil (Text.trimWhere p t))) := by
  refine Text.trimWhere_induction (P := fun u => Contained d limit phrases words u ∧
    (Finished phrases (d.veil t) → Finished phrases (d.veil u))) ?_ ?_ ⟨h, id⟩
  · rintro c u hc ⟨hu, hd⟩
    exact (hu.of_cons (hp c hc)).imp_right fun hc => hc ∘ hd
  · rintro u c hc ⟨hu, hd⟩
    exact (hu.of_concat (hp c hc)).imp_right fun hc => hc ∘ hd

/-- A text and another one behind a comma. -/
theorem comma (h : Contained d limit phrases words t) (h' : Contained d limit phrases words u) :
    Contained d limit phrases words (t ++ [',', ' '] ++ u) := by
  have blank := (nil.append_cons (c := ' ') h' (by simp) (by simp [Dialect.veil_nil])
    fun _ _ => by rw [Dialect.veil_nil]; exact Unled.nil).1
  have := (h.append_cons (c := ',') blank (by simp) (by simp) (by simp)).1
  simpa using this

end Contained
/-- The words that have a meaning in front of a part: modifiers in front of columns, and SELECT
in front of what may be put in parentheses. -/
def Dialect.barred (d : Dialect) (key : String) : List Phrase :=
  if key = "columns" then d.selectModifiers
  else if key ∈ ["from", "where", "having"] then [["SELECT"]] else []

/-- A text that may be written to a part of a SELECT. -/
structure Confined (d : Dialect) (limit : Nat) (phrases : List Phrase) (key : String) (t : Text) :
    Prop where
  contained : Contained d limit phrases (d.barred key) t
  /-- Behind tables there may be others with nothing but a blank between them. -/
  finished : key = "from" → Finished phrases (d.veil t)

namespace Addition
variable {a : Addition} {key : String} {t u : Text} {ts : List Text}

theorem contained_list (h : ∀ t ∈ ts, Contained d limit phrases words t) :
    Contained d limit phrases words (Text.joinWith [',', ' '] ts) :=
  Text.joinWith_induction .nil (fun _ _ h h' => h.comma h') h

theorem contained_parenthesize (h : Contained d limit phrases [["SELECT"]] t) :
    Contained d limit phrases [["SELECT"]] (parenthesize t) ∧
      Finished phrases (d.veil (parenthesize t)) := by
  have last : Finished phrases (d.veil []) := by
    rw [Dialect.veil_nil]
    exact Unled.nil
  obtain ⟨inner, ends⟩ := h.append_cons (c := ')') .nil (by simp) (by simp) (by simp)
  obtain ⟨whole, ends'⟩ := Contained.nil.append_cons (c := '(') inner (by simp)
    (fun _ => inner.unled.selects_eq_false) (by simp)
  exact ⟨whole, ends' (fun slack => absurd slack (by decide))
    (ends (fun slack => absurd slack (by decide)) last)⟩

/-- Conditions that are contained make up a contained condition, if none of the phrases begins
with the AND between them. -/
theorem contained_conditions? (hand : ∀ p ∈ phrases, p.head? ≠ some "AND")
    (h : ∀ u ∈ a.chain t, Contained d limit phrases [["SELECT"]] u)
    (hu : a.conditions? t = some u) : Contained d limit phrases [["SELECT"]] u := by
  have veil : d.veil " AND ".toList = [.space [' '], .word "AND".toList, .space [' ']] := by
    cases d <;> decide +kernel
  have middle : Contained d limit phrases [["SELECT"]] " AND ".toList := by
    refine ⟨?_, ?_, fun p hp v w x hw he => ?_, ?_, ?_⟩
    · exact .of_bare (legible_veil d _) (by rw [veil]; simp [Bare, isWord, isSpace])
    · rw [veil]
      simp [isClosed]
    · obtain ⟨k, ks, y, vs, rfl, rfl, hk⟩ := hw.head
      have among : Token.word y ∈ d.veil " AND ".toList := by
        rw [he]
        simp
      rw [veil] at among
      simp only [List.mem_cons, reduceCtorEq, Token.word.injEq, List.not_mem_nil, or_false,
        false_or] at among
      subst among
      have same : k = "AND" := Phrase.keyword_unique hk (by decide)
      exact hand _ hp (by rw [same, List.head?_cons])
    · rw [veil]
      decide
    · rw [veil]
      simp
  rw [conditions?] at hu
  split at hu
  · cases hu
  · rename_i only he
    cases hu
    exact h u (by rw [he]; simp)
  · cases hu
    refine (contained_parenthesize (Text.joinWith_induction .nil (fun v w hv hw => ?_) h)).1
    have front := (middle.append_cons (c := '(') hw (by simp)
      (fun _ => hw.unled.selects_eq_false) (by simp)).1
    have := (hv.append_cons (c := ')') front (by simp) (by simp) (by simp)).1
    simpa using this

/-- Tables that are contained and do not stop in the middle of a phrase make up contained tables. -/
theorem contained_tables (h : ∀ u ∈ t :: (a.prepend ++ a.append),
      Contained d limit phrases [["SELECT"]] u ∧ Finished phrases (d.veil u)) :
    Contained d limit phrases [["SELECT"]] (a.tables d t) := by
  have slack : ∀ c, (c == ' ' || c == ',') = true → Text.isSlack c = true := by
    intro c hc
    rw [Bool.or_eq_true, beq_iff_eq, beq_iff_eq] at hc
    rcases hc with rfl | rfl <;> decide
  obtain ⟨existing, fragments⟩ := List.forall_mem_cons.mp h
  rw [List.forall_mem_append] at fragments
  rw [tables, spaced_eq]
  refine (Contained.trimWhere slack (Text.joinWith_induction (P := fun u =>
    Contained d limit phrases [["SELECT"]] u ∧ Finished phrases (d.veil u)) ?_ ?_ ?_).1).1
  · rw [Dialect.veil_nil]
    exact ⟨.nil, Unled.nil⟩
  · rintro v w ⟨hv, ends⟩ ⟨hw, ends'⟩
    obtain ⟨whole, finished⟩ := hv.append_cons (c := ' ') hw (by simp)
      (fun _ => hw.unled.selects_eq_false) fun _ _ => ends
    have := And.intro whole (finished (fun _ => ends) ends')
    simpa using this
  · refine List.forall_mem_append.mpr ⟨fragments.1, List.forall_mem_cons.mpr ⟨?_, fragments.2⟩⟩
    split
    · exact existing
    · exact contained_parenthesize existing.1

/-- What is merged from texts that may be written to a part may stand in it. -/
theorem contained_merge? (hk : key ∈ ["columns", "from", "where", "group by", "having", "order by"])
    (hand : ∀ p ∈ phrases, p.head? ≠ some "AND") (h : Confined d limit phrases key t)
    (ha : ∀ u ∈ a.prepend ++ a.append, Confined d limit phrases key u)
    (hu : a.merge? d key t = some u) : Contained d limit phrases (d.barred key) u := by
  have chain : ∀ u ∈ a.chain t, Contained d limit phrases (d.barred key) u := by
    rw [List.forall_mem_append] at ha
    rw [Addition.chain]
    refine List.forall_mem_append.mpr ⟨List.forall_mem_append.mpr
      ⟨fun u hu => (ha.1 u hu).contained, ?_⟩, fun u hu => (ha.2 u hu).contained⟩
    split
    · simp
    · simpa using h.contained
  simp only [List.mem_cons, List.not_mem_nil, or_false] at hk
  rcases hk with rfl | rfl | rfl | rfl | rfl | rfl
  · cases hu
    exact contained_list chain
  · cases hu
    exact contained_tables (List.forall_mem_cons.mpr ⟨⟨h.contained, h.finished rfl⟩,
      fun u hu => ⟨(ha u hu).contained, (ha u hu).finished rfl⟩⟩)
  · exact contained_conditions? hand chain hu
  · cases hu
    exact contained_list chain
  · exact contained_conditions? hand chain hu
  · cases hu
    exact contained_list chain

end Addition
end SqlStatement
