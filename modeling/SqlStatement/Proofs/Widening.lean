import SqlStatement.Proofs.Conjoining

/-!
# Conditions with alternatives

A condition whose words outside of literals and groups include OR or XOR has
alternatives, and AND binds tighter than they do. Conditions of several criteria
are joined as they are, so outside of literals and groups the words of all stand
behind each other, with AND in between: the alternatives of one criterion are
alternatives to all the others. Conditions that are merged into a part get
parentheses of their own, and nothing but AND is left between these.
-/
namespace SqlStatement

namespace Text

/-- No word has begun where a character of no word stands. -/
theorem attach_of_isWordChar_eq_false {c : Char} (hc : isWordChar c = false)
    (s : Bool × List Text) : words.attach c s = (false, s.2) := by
  obtain ⟨inWord, ws⟩ := s
  cases inWord with
  | false => simp [words.attach, hc]
  | true => cases ws <;> simp [words.attach, hc]

/-- The words of a text are put in front of the words that there are. One that has begun is the
first of them. -/
theorem exists_foldr_attach (t : Text) (ws : List Text) :
    ∃ begun us, (begun = true → us ≠ []) ∧ t.foldr words.attach (false, []) = (begun, us) ∧
      t.foldr words.attach (false, ws) = (begun, us ++ ws) := by
  induction t with
  | nil => exact ⟨false, [], by simp, rfl, rfl⟩
  | cons c t ih =>
      obtain ⟨begun, us, some, alone, onto⟩ := ih
      rw [List.foldr_cons, List.foldr_cons, alone, onto]
      by_cases hw : isWordChar c = true
      · cases begun with
        | false =>
            exact ⟨true, [c] :: us, by simp, by simp [words.attach, hw], by simp [words.attach, hw]⟩
        | true =>
            obtain ⟨u, us, rfl⟩ := List.exists_cons_of_ne_nil (some rfl)
            exact ⟨true, (c :: u) :: us, by simp, by simp [words.attach, hw],
              by simp [words.attach, hw]⟩
      · have stop := attach_of_isWordChar_eq_false (Bool.eq_false_iff.mpr hw)
        exact ⟨false, us, by simp, stop _, stop _⟩

/-- Words end at any other character. -/
theorem words_append_cons {c : Char} (hc : isWordChar c = false) (t u : Text) :
    words (t ++ c :: u) = words t ++ words u := by
  obtain ⟨begun, us, -, alone, onto⟩ := exists_foldr_attach t (words u)
  have front : words t = us := congrArg Prod.snd alone
  rw [words, List.foldr_append, List.foldr_cons, attach_of_isWordChar_eq_false hc, front]
  exact congrArg Prod.snd onto

end Text

/-- The text of a nesting with all its literals and groups left empty. -/
def Nesting.outside : Nesting → Text
  | done => []
  | piece (.char c) rest => c :: rest.outside
  | piece (.literal _) rest => '\'' :: '\'' :: rest.outside
  | piece (.stray q) rest => q :: rest.outside
  | group _ rest => '(' :: ')' :: rest.outside

theorem Nesting.outside_append (n m : Nesting) :
    (n.append m).outside = n.outside ++ m.outside := by
  induction n with
  | done => rfl
  | piece p rest ih => cases p <;> simp [append, outside, ih]
  | group inner rest _ ih => simp [append, outside, ih]

/-- A balanced text in parentheses is one group. -/
theorem Nesting.ofText_parenthesize {d : Dialect} {t : Text} (h : d.isBalanced t = true) :
    ofText d (Addition.parenthesize t) = group (ofText d t) done := by
  have closed : (group (ofText d t) done).Closed := ⟨closed_ofText h, trivial⟩
  have lexed := (lexed_group h []).ofText_textOf
  have text : Piece.textOf (.char '(' :: ((ofText d t).pieces ++ .char ')' :: Piece.ofText d [])) =
      Addition.parenthesize t := by
    rw [ofText, pieces_ofPieces]
    simp [Piece.text, Addition.parenthesize]
  rw [text, Piece.ofText_nil] at lexed
  rw [ofText, lexed]
  exact closed.ofPieces_pieces

namespace Dialect
variable {d : Dialect} {t u : Text}

/-- The words of a text outside of its literals and groups. -/
def outerWords (d : Dialect) (t : Text) : List Text := Text.words (Nesting.ofText d t).outside

/-- Whether a condition has alternatives: OR or XOR stands outside of its literals and groups. -/
def hasAlternatives (d : Dialect) (t : Text) : Bool :=
  (d.outerWords t).any (Text.isAnyKeyword ["OR", "XOR"])

/-- Behind a blank a balanced text has further words. -/
theorem outerWords_append_space (ht : d.isBalanced t = true) (u : Text) :
    d.outerWords (t ++ ' ' :: u) = d.outerWords t ++ d.outerWords u := by
  have nested := Nesting.ofText_append_char (u := u) (closed_of_isBalanced ht) (.inl ht)
    (isQuote_of_isWhite (c := ' ') (by decide)) (by decide)
  rw [outerWords, nested, Nesting.outside_append]
  exact Text.words_append_cons (by decide) _ _

/-- What is in parentheses is not outside. -/
theorem outerWords_parenthesize (h : d.isBalanced t = true) :
    d.outerWords (Addition.parenthesize t) = [] := by
  rw [outerWords, Nesting.ofText_parenthesize h]
  rfl

/-- The words of balanced texts with AND between them. -/
theorem outerWords_joinWith_and {ts : List Text} (h : ∀ t ∈ ts, d.isBalanced t = true) :
    d.outerWords (Text.joinWith " AND ".toList ts) =
      List.intercalate ["AND".toList] (ts.map d.outerWords) := by
  have word : d.isBalanced "AND".toList = true ∧ d.outerWords "AND".toList = ["AND".toList] := by
    cases d <;> decide +kernel
  induction ts with
  | nil =>
      cases d <;> decide +kernel
  | cons t ts ih =>
      obtain ⟨ht, hts⟩ := List.forall_mem_cons.mp h
      cases ts with
      | nil => simp
      | cons u us =>
          have shape : Text.joinWith " AND ".toList (t :: u :: us) =
              t ++ ' ' :: ("AND".toList ++ ' ' :: Text.joinWith " AND ".toList (u :: us)) := by
            simp [Text.joinWith_cons_cons]
          rw [shape, outerWords_append_space ht, outerWords_append_space word.1, word.2, ih hts]
          simp [List.intercalate_cons_cons]

/-- Joined conditions have alternatives exactly if one of them has. -/
theorem hasAlternatives_joinWith_and {ts : List Text} (h : ∀ t ∈ ts, d.isBalanced t = true) :
    d.hasAlternatives (Text.joinWith " AND ".toList ts) = ts.any d.hasAlternatives := by
  rw [hasAlternatives, outerWords_joinWith_and h]
  clear h
  have word : Text.isAnyKeyword ["OR", "XOR"] "AND".toList = false := by decide
  induction ts with
  | nil => rfl
  | cons t ts ih =>
      cases ts with
      | nil => simp [hasAlternatives]
      | cons u us =>
          rw [List.map_cons, List.map_cons, List.intercalate_cons_cons, ← List.map_cons,
            List.any_append, List.any_append, ih, List.any_cons, List.any_nil, word, Bool.or_false,
            Bool.or_false, List.any_cons (l := u :: us)]
          rfl

/-- Conditions that are merged into a part have no alternatives as soon as there are several: each
has parentheses of its own. -/
theorem hasAlternatives_conditions? {a : Addition} (several : 2 ≤ (a.chain u).length)
    (h : ∀ t ∈ a.chain u, d.isBalanced t = true) (ht : a.conditions? u = some t) :
    d.hasAlternatives t = false := by
  have text : t = Text.joinWith " AND ".toList ((a.chain u).map Addition.parenthesize) := by
    rw [Addition.conditions?] at ht
    split at ht
    · cases ht
    · rename_i single
      simp [single] at several
    · cases ht
      exact Addition.parenthesize_joinWith fun none => by simp [none] at several
  rw [text, hasAlternatives_joinWith_and (List.forall_mem_map.mpr fun t hm =>
    (isItem_parenthesize (h t hm)).isBalanced), List.any_eq_false, List.forall_mem_map]
  intro t hm
  rw [hasAlternatives, outerWords_parenthesize (h t hm)]
  simp

end Dialect

variable {s : Settings} {mode : QuoteMode} {cs : List Criterion} {conditions : List Text}

/-- The condition of several criteria has the words of their conditions outside of literals and
groups, with AND in between. So it is a conjunction of the conditions exactly if none of them has
alternatives of its own. -/
theorem outerWords_buildConditions (hc : cs.mapM (buildCondition s mode) = .ok conditions)
    (balanced : ∀ c ∈ conditions, s.dialect.isBalanced c = true) :
    ∃ t, buildConditions s mode cs = .ok t ∧
      s.dialect.outerWords t = List.intercalate ["AND".toList]
        ((conditions.filter (! ·.isEmpty)).map s.dialect.outerWords) ∧
      (s.dialect.hasAlternatives t = true ↔
        ∃ c ∈ conditions, s.dialect.hasAlternatives c = true) := by
  have kept : ∀ c ∈ conditions.filter (! ·.isEmpty), s.dialect.isBalanced c = true :=
    fun c hm => balanced c (List.mem_of_mem_filter hm)
  have empty : s.dialect.hasAlternatives [] = false := by cases s.dialect <;> decide +kernel
  refine ⟨Text.joinWith " AND ".toList (conditions.filter (! ·.isEmpty)), ?_,
    Dialect.outerWords_joinWith_and kept, ?_⟩
  · rw [buildConditions, hc]
    rfl
  · rw [Dialect.hasAlternatives_joinWith_and kept, List.any_eq_true]
    constructor
    · rintro ⟨c, hm, ha⟩
      exact ⟨c, List.mem_of_mem_filter hm, ha⟩
    · rintro ⟨c, hm, ha⟩
      refine ⟨c, List.mem_filter.mpr ⟨hm, ?_⟩, ha⟩
      cases c with
      | nil => exact absurd ha (by simp [empty])
      | cons => rfl

/-- A criterion with OR widens the condition past the one behind it. -/
theorem outerWords_buildConditions_or :
    ∃ t, buildConditions {} .smart
        [⟨"a = 1 OR b = 2".toList, none⟩, ⟨['c'], some (.int 3)⟩] = .ok t ∧
      Dialect.mysql.outerWords t = ["1", "OR", "2", "AND", "3"].map String.toList ∧
      Dialect.mysql.hasAlternatives t = true := by
  have built : [⟨"a = 1 OR b = 2".toList, none⟩, ⟨['c'], some (.int 3)⟩].mapM
      (buildCondition {} .smart) = .ok ["`a` = 1 OR `b` = 2".toList, "`c` = 3".toList] := by
    decide +kernel
  obtain ⟨t, ht, words, widened⟩ := outerWords_buildConditions built (by decide +kernel)
  refine ⟨t, ht, words.trans (by decide +kernel), widened.mpr ⟨_, List.mem_cons_self, ?_⟩⟩
  decide +kernel

/-- Several balanced conditions do not always make up a conjunction. -/
theorem not_hasAlternatives_buildConditions :
    ¬ ∀ (cs : List Criterion) (conditions : List Text) (t : Text),
      cs.mapM (buildCondition {} .smart) = .ok conditions →
      (∀ c ∈ conditions, Dialect.mysql.isBalanced c = true) →
      2 ≤ (conditions.filter (! ·.isEmpty)).length →
      buildConditions {} .smart cs = .ok t → Dialect.mysql.hasAlternatives t = false := by
  intro h
  have conjunction := h [⟨"a = 1 OR b = 2".toList, none⟩, ⟨['c'], some (.int 3)⟩]
    ["`a` = 1 OR `b` = 2".toList, "`c` = 3".toList] "`a` = 1 OR `b` = 2 AND `c` = 3".toList
    (by decide +kernel) (by decide +kernel) (by decide) (by decide +kernel)
  exact absurd conjunction (by decide +kernel)

end SqlStatement
