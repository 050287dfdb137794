import SqlStatement.Proofs.Stretching

/-!
# Quoting every bare word again

What is written for an expression consists of the same stretches, the names now
between quotes. These are literals, and what is left of runs are keywords and
collations in the places where they are kept, and runs without letters. So the
quoting of the result finds nothing to quote.
-/
namespace SqlStatement

namespace Text
variable {ks ks' : List String} {w : Text}

theorem isWordChar_of_isNameStart {c : Char} (h : isNameStart c = true) : isWordChar c = true := by
  simp only [isNameStart, isWordChar, Char.isAlphanum, Bool.or_eq_true] at h ⊢
  exact h.imp .inl id

/-- The word of a keyword of letters has letters only, and at least one. -/
theorem isAlpha_of_isAnyKeyword (h : isAnyKeyword ks w = true)
    (hk : ∀ k ∈ ks, k.toList ≠ [] ∧ k.toList.all Char.isAlpha = true) :
    w ≠ [] ∧ ∀ c ∈ w, c.isAlpha = true := by
  obtain ⟨k, hm, hw⟩ := List.any_eq_true.mp h
  obtain ⟨hn, letters⟩ := hk k hm
  rw [isKeyword, beq_iff_eq] at hw
  rw [← hw] at hn letters
  refine ⟨fun none => hn (by rw [none]; rfl), fun c hc => ?_⟩
  by_contra other
  rw [Bool.not_eq_true] at other
  have upper := List.all_eq_true.mp letters _ (List.mem_map_of_mem hc)
  rw [toUpper_of_isAlpha other, other] at upper
  cases upper

theorem isAnyKeyword_mono (h : isAnyKeyword ks w = true) (hs : ks ⊆ ks') :
    isAnyKeyword ks' w = true := by
  obtain ⟨k, hm, hw⟩ := List.any_eq_true.mp h
  exact List.any_eq_true.mpr ⟨k, hs hm, hw⟩

/-- A keyword of one list is no keyword of another that has none of its keywords. -/
theorem isAnyKeyword_of_disjoint (h : isAnyKeyword ks w = true) (hd : ∀ k ∈ ks, k ∉ ks') :
    isAnyKeyword ks' w = false := by
  by_contra h'
  rw [Bool.not_eq_false] at h'
  obtain ⟨k, hm, hw⟩ := List.any_eq_true.mp h
  obtain ⟨k', hm', hw'⟩ := List.any_eq_true.mp h'
  exact hd k hm (Phrase.keyword_unique hw hw' ▸ hm')

end Text

namespace Dialect
variable {d : Dialect} {w : Text}

/-- The words that are kept in some places. -/
def keptWords (d : Dialect) : List String :=
  d.expressionKeywords ++ ["SOUNDS", "LIKE", "COLLATE", "USING"]

section Kept
variable {ks : List String} (hk : ks ⊆ d.keptWords) (h : Text.isAnyKeyword ks w = true)
include hk h

theorem isAlpha_of_isKept : w ≠ [] ∧ ∀ c ∈ w, c.isAlpha = true :=
  Text.isAlpha_of_isAnyKeyword (Text.isAnyKeyword_mono h hk) (by cases d <;> decide)

theorem isRun_of_isKept : d.IsRun w := by
  obtain ⟨hn, letters⟩ := isAlpha_of_isKept hk h
  refine ⟨hn, fun c hc => inRun_of_isWordChar ?_⟩
  simp [Text.isWordChar, Char.isAlphanum, letters c hc]

theorem any_isNameStart_of_isKept : w.any Text.isNameStart = true := by
  obtain ⟨hn, letters⟩ := isAlpha_of_isKept hk h
  obtain ⟨c, w, rfl⟩ := List.exists_cons_of_ne_nil hn
  simp [Text.isNameStart, letters c]

end Kept

/-- The words of a keyword of two words. -/
theorem isAnyKeyword_of_isKeywordPair {c : Text} (h : d.isKeywordPair w c = true) :
    Text.isAnyKeyword ["SOUNDS"] w = true ∧ Text.isAnyKeyword ["LIKE"] c = true := by
  rw [isKeywordPair, Bool.and_eq_true, Bool.and_eq_true] at h
  simp [Text.isAnyKeyword, h]

end Dialect

namespace Chunk
variable {d : Dialect} {ps : List Piece}

theorem isBlank_of_isMark {c : Char} (h : isMark c = true) : Text.isBlank c = false := by
  simp only [isMark, Bool.or_eq_true, beq_iff_eq] at h
  rcases h with ((rfl | rfl) | rfl) | rfl <;> rfl

/-- The chunks of a list of pieces. -/
def ofPieces (ps : List Piece) : List Chunk := ps.foldr attach []

theorem ofPieces_cons (p : Piece) (ps : List Piece) : ofPieces (p :: ps) = attach p (ofPieces ps) :=
  rfl

/-- Characters of a run join the run behind them. -/
theorem ofPieces_append_run {w r : Text} {cs : List Chunk} (hw : ∀ c ∈ w, inRun d c = true)
    (hr : ofPieces ps = run r :: cs) : ofPieces (w.map .char ++ ps) = run (w ++ r) :: cs := by
  induction w with
  | nil => exact hr
  | cons c w ih =>
      rw [List.forall_mem_cons] at hw
      rw [List.map_cons, List.cons_append, ofPieces_cons, ih hw.2, attach_run_run hw.1]
      rfl

/-- Characters make up one chunk if the last begins it and each of the others joins it. -/
theorem ofPieces_chunk {make : Text → Chunk} {t : Text} (hn : t ≠ [])
    (begins : ∀ c ∈ t, attach (.char c) (ofPieces ps) = make [c] :: ofPieces ps)
    (joins : ∀ c ∈ t, ∀ r cs, attach (.char c) (make r :: cs) = make (c :: r) :: cs) :
    ofPieces (t.map .char ++ ps) = make t :: ofPieces ps := by
  obtain ⟨c, t, rfl⟩ := List.exists_cons_of_ne_nil hn
  clear hn
  induction t generalizing c with
  | nil => exact begins c (by simp)
  | cons c' t ih =>
      rw [List.forall_mem_cons] at begins joins
      rw [List.map_cons, List.cons_append, ofPieces_cons, ih c' begins.2 joins.2, joins.1]

/-- A run is a single chunk in front of anything but another run. -/
theorem ofPieces_run {w : Text} (hw : d.IsRun w) (h : ∀ c ∈ (ofPieces ps).head?, c.isRun = false) :
    ofPieces (w.map .char ++ ps) = run w :: ofPieces ps :=
  ofPieces_chunk hw.1 (fun c hc => attach_run (hw.2 c hc) h) fun c hc => attach_run_run (hw.2 c hc)

theorem ofPieces_blanks {b : Text} (hb : b.IsBlanks)
    (h : ∀ c ∈ (ofPieces ps).head?, c.isBlanks = false) :
    ofPieces (b.map .char ++ ps) = blanks b :: ofPieces ps :=
  ofPieces_chunk hb.1 (fun c hc => attach_blanks (hb.2 c hc) h)
    fun c hc => attach_blanks_blanks (hb.2 c hc)

/-- Two runs with blanks between them, of which the second may go on. -/
theorem ofPieces_phrase {a b v w : Text} {cs : List Chunk} (ha : d.IsRun a) (hb : b.IsBlanks)
    (h : ofPieces (v.map .char ++ ps) = run w :: cs) :
    ofPieces ((a ++ (b ++ v)).map .char ++ ps) = run a :: blanks b :: run w :: cs := by
  rw [List.map_append, List.map_append, List.append_assoc, List.append_assoc]
  have behind : ofPieces (b.map .char ++ (v.map .char ++ ps)) = blanks b :: run w :: cs := by
    rw [ofPieces_blanks hb, h]
    rw [h]
    rintro _ ⟨⟩
    rfl
  rw [ofPieces_run ha, behind]
  rw [behind]
  rintro _ ⟨⟩
  rfl

end Chunk

namespace Dialect
variable {chunk : Option Chunk} {cs : List Chunk}

/-- Behind a run it does not matter which run it was. -/
theorem quoteChunks_behind_run {d : Dialect} (v w : Text) (cs : List Chunk) :
    d.quoteChunks (some (.run v)) cs = d.quoteChunks (some (.run w)) cs := by
  unfold quoteChunks
  rfl

theorem quoteChunks_of_isRun {d : Dialect} {c : Chunk} (hc : c.isRun = false) :
    d.quoteChunks chunk (c :: cs) = c.text ++ d.quoteChunks (some c) cs := by
  cases c with
  | run t => simp [Chunk.isRun] at hc
  | literal | blanks | mark => simp [quoteChunks]

variable {w : Text}

theorem quoteRun_of_plain (h : w.any Text.isNameStart = false) (before : Option Char) :
    quoteRun .mysql before w = w := by
  rw [quoteRun, Stretch.hasName_mysql, h]
  rfl

/-- A run that is no keyword of two words and no collation. -/
theorem quoteChunks_run {d : Dialect} (hp : ∀ c, d.isKeywordPair w c = false)
    (hc : Chunk.isCollationKeyword w = false) :
    d.quoteChunks chunk (.run w :: cs) =
      (if chunk.all Chunk.delimits = true ∧ Text.isAnyKeyword d.expressionKeywords w = true ∧
        Chunk.endsHere cs = true then w else d.quoteRun none w) ++
          d.quoteChunks (some (.run w)) cs := by
  by_cases more : ∃ b c cs', cs = .blanks b :: .run c :: cs'
  · obtain ⟨b, c, cs', rfl⟩ := more
    have ends : Chunk.endsHere (.blanks b :: .run c :: cs') = true := rfl
    rw [quoteChunks]
    split <;> rename_i hd
    · split <;> rename_i hk
      · rw [if_pos ⟨hd, hk, ends⟩]
      · simp only [hp, hc, Bool.false_and, Bool.false_eq_true, if_false]
        rw [if_neg fun h => hk h.2.1]
    · rw [if_neg fun h => hd h.1]
  · rw [quoteChunks]
    · simp only [Bool.and_eq_true, and_assoc]
      split <;> rfl
    · exact fun b c cs' h => more ⟨b, c, cs', h⟩

/-- A run without letters is left as it is, whatever stands around it. -/
theorem quoteChunks_plain (h : w.any Text.isNameStart = false) :
    quoteChunks .mysql chunk (.run w :: cs) = w ++ quoteChunks .mysql (some (.run w)) cs := by
  have other {ks : List String} (hk : ks ⊆ keptWords .mysql) : Text.isAnyKeyword ks w = false := by
    by_contra kept
    rw [any_isNameStart_of_isKept hk (by simpa using kept)] at h
    cases h
  have pair (c : Text) : isKeywordPair .mysql w c = false := by
    by_contra two
    have first := (isAnyKeyword_of_isKeywordPair (by simpa using two)).1
    rw [other (by decide)] at first
    cases first
  rw [quoteChunks_run pair (other (by decide)), quoteRun_of_plain h, ite_self]

/-- A word that is a keyword of another kind begins no keyword of two words. -/
theorem isKeywordPair_eq_false {d : Dialect} {ks : List String}
    (h : Text.isAnyKeyword ks w = true) (hs : "SOUNDS" ∉ ks) (c : Text) :
    d.isKeywordPair w c = false := by
  by_contra two
  have first := (isAnyKeyword_of_isKeywordPair (by simpa using two)).1
  rw [Text.isAnyKeyword_of_disjoint h] at first
  · cases first
  · rintro k hk hm
    exact hs (List.mem_singleton.mp hm ▸ hk)

/-- A keyword that stands alone is left as it is. -/
theorem quoteChunks_keyword (hk : Text.isAnyKeyword (expressionKeywords .mysql) w = true)
    (hd : chunk.all Chunk.delimits = true) (he : Chunk.endsHere cs = true) :
    quoteChunks .mysql chunk (.run w :: cs) = w ++ quoteChunks .mysql (some (.run w)) cs := by
  have collation : Chunk.isCollationKeyword w = false :=
    Text.isAnyKeyword_of_disjoint hk (by decide)
  rw [quoteChunks_run (isKeywordPair_eq_false hk (by decide)) collation, if_pos ⟨hd, hk, he⟩]

theorem quoteChunks_pair {a b c : Text} (hk : isKeywordPair .mysql a c = true)
    (hd : chunk.all Chunk.delimits = true) (he : Chunk.endsHere cs = true) :
    quoteChunks .mysql chunk (.run a :: .blanks b :: .run c :: cs) =
      a ++ b ++ c ++ quoteChunks .mysql (some (.run c)) cs := by
  have other : Text.isAnyKeyword (expressionKeywords .mysql) a = false :=
    Text.isAnyKeyword_of_disjoint (isAnyKeyword_of_isKeywordPair hk).1 (by decide)
  simp [quoteChunks, hd, hk, he, other]

/-- Behind the name of a collation a run without letters is kept, too. -/
theorem keepCollation_append {r : Text} (hw : ∀ c ∈ w, Text.isWordChar c = true)
    (hr : ∀ c ∈ r.head?, Text.isWordChar c = false) (hp : r.any Text.isNameStart = false) :
    (w ++ r).takeWhile Text.isWordChar = w ∧ keepCollation .mysql (w ++ r) = w ++ r := by
  have cut : r.takeWhile Text.isWordChar = [] ∧ r.dropWhile Text.isWordChar = r := by
    cases r with
    | nil => simp
    | cons c r => simp [hr c rfl]
  have word : (w ++ r).takeWhile Text.isWordChar = w := by
    rw [List.takeWhile_append_of_pos hw, cut.1, List.append_nil]
  refine ⟨word, ?_⟩
  rw [keepCollation, word, List.dropWhile_append_of_pos hw, cut.2, quoteRun_of_plain hp]

/-- A collation is left as it is, and so is a run without letters behind its name. -/
theorem quoteChunks_collation {a b r : Text} (hk : Chunk.isCollationKeyword a = true) (hn : w ≠ [])
    (hw : ∀ c ∈ w, Text.isWordChar c = true) (hr : ∀ c ∈ r.head?, Text.isWordChar c = false)
    (hp : r.any Text.isNameStart = false) (hd : chunk.all Chunk.delimits = true) :
    quoteChunks .mysql chunk (.run a :: .blanks b :: .run (w ++ r) :: cs) =
      a ++ (b ++ w) ++ r ++ quoteChunks .mysql (some (.run (w ++ r))) cs := by
  obtain ⟨word, kept⟩ := keepCollation_append hw hr hp
  have other : Text.isAnyKeyword (expressionKeywords .mysql) a = false :=
    Text.isAnyKeyword_of_disjoint hk (by decide)
  have single : isKeywordPair .mysql a (w ++ r) = false := isKeywordPair_eq_false hk (by decide) _
  have starts : startsCollation (w ++ r) = true := by simpa [startsCollation, word] using hn
  simp [quoteChunks, hd, hk, starts, other, single, kept]

end Dialect

namespace Stretch
variable {before behind : Option Stretch}

/-- Whether a stretch that has been written begins with a run. -/
def opensRun : Stretch → Bool
  | keyword _ | collation _ | plain _ => true
  | _ => false

theorem exists_run {d : Dialect} {w : Text} (hw : d.IsRun w) (ps : List Piece) :
    ∃ r cs, Chunk.ofPieces (w.map .char ++ ps) = .run r :: cs := by
  obtain ⟨r, cs, found⟩ | first := Chunk.run_or (Chunk.ofPieces ps)
  · exact ⟨w ++ r, cs, Chunk.ofPieces_append_run hw.2 found⟩
  · exact ⟨w, _, Chunk.ofPieces_run hw first⟩

theorem exists_blanks {b : Text} (hb : b.IsBlanks) (ps : List Piece) :
    ∃ b' cs, Chunk.ofPieces (b.map .char ++ ps) = .blanks b' :: cs := by
  obtain ⟨c, b, rfl⟩ := List.exists_cons_of_ne_nil hb.1
  have blank := hb.2 c (by simp)
  rw [List.map_cons, List.cons_append, Chunk.ofPieces_cons]
  obtain ⟨b', cs, found⟩ | first := Chunk.blanks_or (Chunk.ofPieces (b.map .char ++ ps))
  · exact ⟨c :: b', cs, by rw [found, Chunk.attach_blanks_blanks blank]⟩
  · exact ⟨[c], _, Chunk.attach_blanks blank first⟩

theorem exists_isRun_of_isKeptKeyword {t : Text} (h : Dialect.IsKeptKeyword .mysql t) :
    ∃ a u, t = a ++ u ∧ Dialect.IsRun .mysql a := by
  obtain single | ⟨a, b, c, rfl, -, pair⟩ := h
  · exact ⟨t, [], (List.append_nil t).symm, Dialect.isRun_of_isKept (by decide) single⟩
  · have first := (Dialect.isAnyKeyword_of_isKeywordPair pair).1
    exact ⟨a, b ++ c, rfl, Dialect.isRun_of_isKept (by decide) first⟩

/-- The first chunk of what is written for stretches is of the kind of the first stretch. -/
theorem exists_chunk {s : Stretch} (h : s.Fits .mysql before behind) (ps : List Piece) :
    ∃ c cs, Chunk.ofPieces (s.written .mysql ++ ps) = c :: cs ∧ c.isRun = s.opensRun ∧
      c.isBlanks = s.isBlanks ∧ c.delimits = s.delimits := by
  have begins {a u : Text} (ha : Dialect.IsRun .mysql a) : ∃ c cs,
      Chunk.ofPieces ((a ++ u).map .char ++ ps) = c :: cs ∧ c.isRun = true ∧
        c.isBlanks = false ∧ c.delimits = false := by
    rw [List.map_append, List.append_assoc]
    obtain ⟨r, cs, found⟩ := exists_run ha (u.map .char ++ ps)
    exact ⟨.run r, cs, found, rfl, rfl, rfl⟩
  cases s with
  | literal t => exact ⟨.literal t, _, rfl, rfl, rfl, rfl⟩
  | name t => exact ⟨.literal _, _, rfl, rfl, rfl, rfl⟩
  | mark c =>
      exact ⟨.mark c, _, Chunk.attach_mark (Chunk.isBlank_of_isMark h) h _, rfl, rfl, rfl⟩
  | blanks t =>
      obtain ⟨b, cs, found⟩ := exists_blanks h.1 ps
      exact ⟨.blanks b, cs, found, rfl, rfl, rfl⟩
  | keyword t =>
      obtain ⟨a, u, rfl, run⟩ := exists_isRun_of_isKeptKeyword h.1
      exact begins run
  | collation t =>
      obtain ⟨k, b, w, rfl, kept, -⟩ := h.1
      exact begins (Dialect.isRun_of_isKept (by decide) kept)
  | plain t =>
      have run := begins (u := []) h.1
      rwa [List.append_nil] at run

namespace Arranged
variable {s : Stretch} {ss : List Stretch}

/-- The chunks that are written for stretches. -/
def chunks (ss : List Stretch) : List Chunk := Chunk.ofPieces (ss.flatMap (written .mysql))

theorem isRun_head? (h : Arranged .mysql (some s) ss) (hd : s.delimits = false)
    (hp : s.isRun = true ∨ ∀ r, ss.head? ≠ some (plain r)) :
    ∀ c ∈ (chunks ss).head?, c.isRun = false := by
  cases ss with
  | nil => simp [chunks, Chunk.ofPieces]
  | cons s' ss =>
      obtain ⟨c, cs, found, run, -, -⟩ := exists_chunk h.1 (ss.flatMap (written .mysql))
      rw [chunks, List.flatMap_cons, found]
      rintro _ ⟨⟩
      rw [run]
      cases s' with
      | keyword t | collation t => exact absurd h.1.2.1 (by simp [hd])
      | plain t =>
          rcases hp with hp | hp
          · exact absurd (h.1.2.2 s rfl) (by simp [hp])
          · exact absurd rfl (hp t)
      | literal | blanks | mark | name => rfl

theorem isBlanks_head? (h : Arranged .mysql (some s) ss) (hs : s.isBlanks = true) :
    ∀ c ∈ (chunks ss).head?, c.isBlanks = false := by
  cases ss with
  | nil => simp [chunks, Chunk.ofPieces]
  | cons s' ss =>
      obtain ⟨c, cs, found, -, blanks, -⟩ := exists_chunk h.1 (ss.flatMap (written .mysql))
      rw [chunks, List.flatMap_cons, found]
      rintro _ ⟨⟩
      rw [blanks]
      cases s' with
      | blanks t => exact absurd (h.1.2 s rfl) (by simp [hs])
      | literal | mark | keyword | collation | plain | name => rfl

theorem endsHere_chunks (h : Arranged .mysql before ss) (hd : ss.head?.all delimits = true) :
    Chunk.endsHere (chunks ss) = true := by
  cases ss with
  | nil => rfl
  | cons s ss =>
      obtain ⟨c, cs, found, -, -, delimits⟩ := exists_chunk h.1 (ss.flatMap (written .mysql))
      rw [chunks, List.flatMap_cons, found]
      exact delimits.trans hd

/-- A keyword of one or two words is left as it is. -/
theorem quoteChunks_keyword {t : Text} {chunk : Option Chunk}
    (h : Arranged .mysql before (keyword t :: ss)) (hc : chunk.all Chunk.delimits = true) :
    ∃ w, Dialect.quoteChunks .mysql chunk (chunks (keyword t :: ss)) =
      t ++ Dialect.quoteChunks .mysql (some (.run w)) (chunks ss) := by
  obtain ⟨⟨kept, -, behind⟩, rest⟩ := h
  have apart := rest.isRun_head? rfl (.inl rfl)
  have ends := rest.endsHere_chunks behind
  obtain single | ⟨a, b, c, rfl, blanks, pair⟩ := kept
  · have run : Dialect.IsRun .mysql t := Dialect.isRun_of_isKept (by decide) single
    refine ⟨t, ?_⟩
    rw [chunks, List.flatMap_cons, written, source, text, Chunk.ofPieces_run run apart]
    · exact Dialect.quoteChunks_keyword single hc ends
    all_goals simp
  · obtain ⟨first, second⟩ := Dialect.isAnyKeyword_of_isKeywordPair pair
    have last := Chunk.ofPieces_run (Dialect.isRun_of_isKept (d := .mysql) (by decide) second) apart
    refine ⟨c, ?_⟩
    rw [chunks, List.flatMap_cons, written, source, text,
      Chunk.ofPieces_phrase (Dialect.isRun_of_isKept (d := .mysql) (by decide) first) blanks last]
    · exact (Dialect.quoteChunks_pair pair hc ends).trans (by simp [chunks])
    all_goals simp

/-- A collation is left as it is, and what stands behind it is left if this holds of it alone. -/
theorem quoteChunks_collation {t : Text} {chunk : Option Chunk}
    (h : Arranged .mysql before (collation t :: ss)) (hc : chunk.all Chunk.delimits = true)
    (ih : Dialect.quoteChunks .mysql (some (.run t)) (chunks ss) =
      Piece.textOf (ss.flatMap (written .mysql))) :
    Dialect.quoteChunks .mysql chunk (chunks (collation t :: ss)) =
      t ++ Piece.textOf (ss.flatMap (written .mysql)) := by
  obtain ⟨⟨⟨k, b, w, rfl, kept, blanks, hw, word⟩, -, behind⟩, rest⟩ := h
  have first : Dialect.IsRun .mysql k := Dialect.isRun_of_isKept (by decide) kept
  have second : Dialect.IsRun .mysql w := ⟨hw, fun c hc => Dialect.inRun_of_isWordChar (word c hc)⟩
  by_cases more : ∃ r ss', ss = plain r :: ss'
  · obtain ⟨r, ss', rfl⟩ := more
    have next : chunks (plain r :: ss') = .run r :: chunks ss' :=
      Chunk.ofPieces_run rest.1.1 (rest.2.isRun_head? rfl (.inl rfl))
    have all : chunks (collation (k ++ (b ++ w)) :: plain r :: ss') =
        .run k :: .blanks b :: .run (w ++ r) :: chunks ss' :=
      Chunk.ofPieces_phrase first blanks (Chunk.ofPieces_append_run second.2 next)
    rw [next, Dialect.quoteChunks_plain rest.1.2.1, List.flatMap_cons, Piece.textOf_append,
      textOf_written (by simp), text, List.append_cancel_left_eq] at ih
    rw [all, Dialect.quoteChunks_collation (r := r) kept hw word (behind _ rfl rfl) rest.1.2.1 hc,
      Dialect.quoteChunks_behind_run _ r, ih, List.flatMap_cons,
      Piece.textOf_append, textOf_written (by simp), text, List.append_assoc (k ++ (b ++ w))]
  · have apart := rest.isRun_head? rfl (.inr fun r hr => more ⟨r, List.head?_eq_some_iff.mp hr⟩)
    have all : chunks (collation (k ++ (b ++ w)) :: ss) =
        .run k :: .blanks b :: .run w :: chunks ss :=
      Chunk.ofPieces_phrase first blanks (Chunk.ofPieces_run second apart)
    have alone : Dialect.quoteChunks .mysql chunk
        (.run k :: .blanks b :: .run (w ++ []) :: chunks ss) = _ :=
      Dialect.quoteChunks_collation kept hw word (by simp) rfl hc
    rw [List.append_nil, List.append_nil] at alone
    rw [all, alone, ← ih]
    exact congrArg _ (Dialect.quoteChunks_behind_run w (k ++ (b ++ w)) _)

/-- What is written for stretches stays as it is when its bare words are quoted. -/
theorem quoteChunks_chunks (h : Arranged .mysql before ss) {chunk : Option Chunk}
    (hc : chunk.all Chunk.delimits = before.all delimits) :
    Dialect.quoteChunks .mysql chunk (chunks ss) =
      Piece.textOf (ss.flatMap (written .mysql)) := by
  induction ss generalizing before chunk with
  | nil => simp [chunks, Chunk.ofPieces, Dialect.quoteChunks]
  | cons s ss ih =>
      have next (c : Chunk) (hd : c.delimits = s.delimits) :
          Dialect.quoteChunks .mysql (some c) (chunks ss) =
            Piece.textOf (ss.flatMap (written .mysql)) := ih h.2 hd
      have kept {c : Chunk} (hs : chunks (s :: ss) = c :: chunks ss) (hr : c.isRun = false)
          (hd : c.delimits = s.delimits) (ht : c.text = Piece.textOf (s.written .mysql)) :
          Dialect.quoteChunks .mysql chunk (chunks (s :: ss)) =
            Piece.textOf ((s :: ss).flatMap (written .mysql)) := by
        rw [hs, Dialect.quoteChunks_of_isRun hr, next c hd, ht, List.flatMap_cons,
          Piece.textOf_append]
      cases s with
      | literal t => exact kept (c := .literal t) rfl rfl rfl (List.append_nil t).symm
      | name t => exact kept (c := .literal _) rfl rfl rfl (List.append_nil _).symm
      | mark c =>
          have single := Chunk.attach_mark (Chunk.isBlank_of_isMark h.1) h.1 (chunks ss)
          exact kept (c := .mark c) single rfl rfl rfl
      | blanks t =>
          have single := Chunk.ofPieces_blanks h.1.1 (h.2.isBlanks_head? rfl)
          exact kept (c := .blanks t) single rfl rfl (Piece.textOf_map_char t).symm
      | keyword t =>
          obtain ⟨w, left⟩ := quoteChunks_keyword h (hc.trans h.1.2.1)
          rw [left, next (.run w) rfl, List.flatMap_cons, Piece.textOf_append,
            textOf_written (by simp), text]
      | collation t =>
          rw [quoteChunks_collation h (hc.trans h.1.2.1) (next (.run t) rfl), List.flatMap_cons,
            Piece.textOf_append, textOf_written (by simp), text]
      | plain t =>
          have apart := h.2.isRun_head? rfl (.inl rfl)
          have single : chunks (plain t :: ss) = .run t :: chunks ss :=
            Chunk.ofPieces_run h.1.1 apart
          rw [single, Dialect.quoteChunks_plain h.1.2.1, next (.run t) rfl, List.flatMap_cons,
            Piece.textOf_append, textOf_written (by simp), text]

end Arranged

variable {ss : List Stretch}

/-- What is written for stretches are their pieces with the names in quotes. -/
theorem Arranged.names (h : Arranged .mysql before ss) :
    Piece.Names .mysql (ss.flatMap source) (ss.flatMap (written .mysql)) := by
  induction ss generalizing before with
  | nil => exact .nil
  | cons s ss ih =>
      rw [List.flatMap_cons, List.flatMap_cons]
      cases s with
      | name t =>
          exact .quote t (fun c hc => Dialect.isInert_of_inRun (h.1.1.2 c hc)) (ih h.2)
      | literal | blanks | mark | keyword | collation | plain =>
          exact (Piece.Names.refl _).append (ih h.2)

/-- Outside quotes letters and underscores are left in keywords and collations only. -/
theorem Fits.isNameStart {s : Stretch} (h : s.Fits .mysql before behind) {c : Char}
    (hc : .char c ∈ s.written .mysql) (hn : Text.isNameStart c = true) :
    (∃ w, s = .keyword w) ∨ ∃ w, s = .collation w := by
  have inside := Dialect.inRun_of_isWordChar (d := .mysql) (Text.isWordChar_of_isNameStart hn)
  simp only [Chunk.inRun, Bool.and_eq_true, Bool.not_eq_true'] at inside
  cases s with
  | keyword w => exact .inl ⟨w, rfl⟩
  | collation w => exact .inr ⟨w, rfl⟩
  | literal | name => simp [written, source] at hc
  | mark m =>
      have same : c = m := by simpa [written, source, text] using hc
      exact absurd h (by simp [Fits, ← same, inside])
  | blanks b =>
      have blank := h.1.2 c (by simpa [written, source, text] using hc)
      simp [blank] at inside
  | plain w =>
      have letters := List.any_eq_false.mp h.2.1 c (by simpa [written, source, text] using hc)
      exact absurd hn letters

theorem Arranged.exists_fits (h : Arranged .mysql before ss) {s : Stretch} (hs : s ∈ ss) :
    ∃ before behind, s.Fits .mysql before behind := by
  induction ss generalizing before with
  | nil => simp at hs
  | cons s' ss ih =>
      rcases List.mem_cons.mp hs with rfl | hs
      · exact ⟨_, _, h.1⟩
      · exact ih h.2 hs

end Stretch

/-- Quoting every bare word takes balanced expressions and nothing else. It cuts an expression into
stretches, each of which fits between its neighbours, and puts quotes around those that are names.
Outside literals and names no letter or underscore is left, but for keywords that stand alone and
the names of collations. What has been written is left as it is when it is quoted again. -/
theorem quoteIdentifier_words (maxNesting : Nat) (t : Text) :
    ((∃ r, quoteIdentifier ⟨.mysql, maxNesting⟩ .words t = .ok r) ↔
        Dialect.isBalanced .mysql t = true) ∧
      ∀ r, quoteIdentifier ⟨.mysql, maxNesting⟩ .words t = .ok r →
        (∃ ss : List Stretch, Stretch.Arranged .mysql none ss ∧
          Piece.ofText .mysql t = ss.flatMap Stretch.source ∧
          Piece.ofText .mysql r = ss.flatMap (Stretch.written .mysql) ∧
          ∀ s ∈ ss, ∀ c, .char c ∈ s.written .mysql → Text.isNameStart c = true →
            (∃ w, s = .keyword w) ∨ ∃ w, s = .collation w) ∧
        quoteIdentifier ⟨.mysql, maxNesting⟩ .words r = .ok r := by
  simp only [quoteIdentifier]
  refine ⟨⟨?_, fun h => ⟨_, if_pos h⟩⟩, fun r h => ?_⟩
  · rintro ⟨r, h⟩
    by_contra unbalanced
    rw [if_neg unbalanced] at h
    cases h
  · by_cases balanced : Dialect.isBalanced .mysql t = true
    · rw [if_pos balanced] at h
      cases h
      have closed := (Dialect.isBalanced_iff.mp balanced).1
      have whole := (Chunk.ofText_of_closed closed).1
      have leads : Stretch.Leads none none (Chunk.ofText .mysql t) := ⟨rfl, by simp, by simp⟩
      obtain ⟨ss, covers⟩ := Stretch.exists_covers (Chunk.tidy_ofText closed) leads
      have source : Piece.ofText .mysql t = ss.flatMap Stretch.source := by
        rw [covers.source, whole]
      have written : Piece.ofText .mysql (Dialect.quoteWords .mysql t) =
          ss.flatMap (Stretch.written .mysql) := by
        have lexed := covers.arranged.names.lexed (source ▸ Piece.lexed_ofText .mysql t)
          (source ▸ closed)
        rw [Dialect.quoteWords, ← covers.text, lexed.ofText_textOf]
      refine ⟨⟨ss, covers.arranged, source, written, fun s hs c hc hn => ?_⟩, ?_⟩
      · obtain ⟨_, _, fits⟩ := covers.arranged.exists_fits hs
        exact fits.isNameStart hc hn
      · obtain ⟨closed', delimiters⟩ := closed.of_renders (Dialect.renders_quoteWords closed)
        have chunks : Chunk.ofText .mysql (Dialect.quoteWords .mysql t) =
            Stretch.Arranged.chunks ss := by
          rw [Chunk.ofText, written]
          rfl
        rw [if_pos (Dialect.isBalanced_of_delimiters_eq balanced closed' delimiters)]
        conv_lhs => rw [Dialect.quoteWords, chunks]
        rw [covers.arranged.quoteChunks_chunks rfl, covers.text]
        rfl
    · rw [if_neg balanced] at h
      cases h

/-- A keyword that stands alone, a function, a name in quotes, a literal, and a collation with the
rest of a run behind its name. -/
theorem quoteIdentifier_words_collation :
    quoteIdentifier ⟨.mysql, 32⟩ .words "NOT IF(a.`b c`,'d') COLLATE utf8-e".toList =
        .ok "NOT `IF`(`a`.`b c`,'d') COLLATE utf8`-e`".toList ∧
      quoteIdentifier ⟨.mysql, 32⟩ .words "NOT `IF`(`a`.`b c`,'d') COLLATE utf8`-e`".toList =
        .ok "NOT `IF`(`a`.`b c`,'d') COLLATE utf8`-e`".toList := by
  have quoted : quoteIdentifier ⟨.mysql, 32⟩ .words "NOT IF(a.`b c`,'d') COLLATE utf8-e".toList =
      .ok "NOT `IF`(`a`.`b c`,'d') COLLATE utf8`-e`".toList := by decide +kernel
  exact ⟨quoted, ((quoteIdentifier_words 32 _).2 _ quoted).2⟩

end SqlStatement
