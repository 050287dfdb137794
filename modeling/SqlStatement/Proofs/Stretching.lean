import SqlStatement.Proofs.Decoding

/-!
# Stretches of an expression

The quoting of every bare word leaves literals, blanks and the marks that end
names where they are. Between them stand runs of other characters. A run that is
a keyword and stands alone is kept, and so is the name of a collation behind its
keyword; the rest of the run behind such a name counts as a run of its own. Of
the other runs those with a letter or an underscore are put in identifier
quotes. So an expression is a row of stretches, each of which has its own way to
be written, and no two runs are neighbours.
-/
namespace SqlStatement

namespace Text

/-- One or more blanks. -/
def IsBlanks (t : Text) : Prop := t ≠ [] ∧ ∀ c ∈ t, isBlank c = true

theorem isBlanks_cons {c : Char} {t : Text} (hc : isBlank c = true)
    (ht : ∀ c ∈ t, isBlank c = true) : IsBlanks (c :: t) :=
  ⟨List.cons_ne_nil c t, List.forall_mem_cons.mpr ⟨hc, ht⟩⟩

end Text

namespace Chunk

/-- A character that neither separates names nor begins a literal. -/
def inRun (d : Dialect) (c : Char) : Bool := !Text.isBlank c && !isMark c && !d.isQuote c

end Chunk

namespace Dialect
variable {d : Dialect} {w : Text}

/-- One or more characters that neither separate names nor begin a literal. -/
def IsRun (d : Dialect) (t : Text) : Prop := t ≠ [] ∧ ∀ c ∈ t, Chunk.inRun d c = true

theorem inRun_of_isWordChar {c : Char} (h : Text.isWordChar c = true) : Chunk.inRun d c = true := by
  have blank : Text.isBlank c = false := by
    by_contra hb
    have white := Text.isWhite_of_isBlank (by simpa using hb : Text.isBlank c = true)
    simp [Text.isWhite_of_isWordChar h] at white
  have mark : Chunk.isMark c = false := by
    by_contra hm
    simp only [Chunk.isMark, Bool.not_eq_false, Bool.or_eq_true, beq_iff_eq] at hm
    rcases hm with ((rfl | rfl) | rfl) | rfl <;> exact absurd h (by decide)
  simp [Chunk.inRun, blank, mark, isQuote_of_isWordChar h]

theorem isInert_of_inRun {c : Char} (h : Chunk.inRun d c = true) : d.isInert c = true := by
  simp only [Chunk.inRun, Chunk.isMark, Bool.and_eq_true, Bool.not_eq_true', Bool.or_eq_false_iff,
    beq_eq_false_iff_ne] at h
  simp [isInert, h]

/-- A single keyword that expressions keep, or two words of one with blanks between them. -/
def IsKeptKeyword (d : Dialect) (t : Text) : Prop :=
  Text.isAnyKeyword d.expressionKeywords t = true ∨
    ∃ a b c, t = a ++ (b ++ c) ∧ Text.IsBlanks b ∧ d.isKeywordPair a c = true

end Dialect

/-- COLLATE or USING, blanks, and a word. -/
def Text.IsCollation (t : Text) : Prop :=
  ∃ k b w, t = k ++ (b ++ w) ∧ Chunk.isCollationKeyword k = true ∧ IsBlanks b ∧ w ≠ [] ∧
    ∀ c ∈ w, isWordChar c = true

/-- A stretch of an expression. A name is a run that gets quotes, and a plain run is one that does
not. -/
inductive Stretch where
  | literal (text : Text)
  | blanks (text : Text)
  | mark (c : Char)
  | keyword (text : Text)
  | collation (text : Text)
  | plain (text : Text)
  | name (text : Text)
  deriving DecidableEq, Repr

namespace Stretch

/-- The characters of a stretch. -/
def text : Stretch → Text
  | literal t | blanks t | keyword t | collation t | plain t | name t => t
  | mark c => [c]

/-- The pieces of a stretch. -/
def source : Stretch → List Piece
  | literal t => [.literal t]
  | s => s.text.map .char

/-- The pieces that are written for a stretch. -/
def written (d : Dialect) : Stretch → List Piece
  | name t => [.literal (d.quoteName t)]
  | s => s.source

theorem textOf_written {d : Dialect} {s : Stretch} (h : ∀ t, s ≠ name t) :
    Piece.textOf (s.written d) = s.text := by
  cases s with
  | name t => exact absurd rfl (h t)
  | literal t => exact List.append_nil t
  | blanks t | keyword t | collation t | plain t => exact Piece.textOf_map_char t
  | mark c => rfl

/-- Whether a keyword may stand next to a stretch: blanks and commas let it. -/
def delimits : Stretch → Bool
  | blanks _ => true
  | mark c => c == ','
  | _ => false

/-- Whether a stretch is a whole run up to its end. Behind the name of a collation a run may go
on. -/
def isRun : Stretch → Bool
  | keyword _ | plain _ | name _ => true
  | _ => false

def isBlanks : Stretch → Bool
  | blanks _ => true
  | _ => false

/-- What a stretch is, with the neighbours it may have. Runs and blanks are as long as they can be,
keywords have a blank, a comma or an end of the text on both sides, and a collation begins behind
one of these and ends with its word. -/
def Fits (d : Dialect) (before behind : Option Stretch) : Stretch → Prop
  | literal _ => True
  | blanks t => t.IsBlanks ∧ ∀ s ∈ before, s.isBlanks = false
  | mark c => Chunk.isMark c = true
  | keyword t => d.IsKeptKeyword t ∧ before.all delimits = true ∧ behind.all delimits = true
  | collation t => t.IsCollation ∧ before.all delimits = true ∧
      ∀ s ∈ behind, s.isRun = true → ∀ c ∈ s.text.head?, Text.isWordChar c = false
  | plain t => d.IsRun t ∧ t.any Text.isNameStart = false ∧ ∀ s ∈ before, s.isRun = false
  | name t => d.IsRun t ∧ t.any Text.isNameStart = true ∧ ∀ s ∈ before, s.isRun = false

/-- Stretches of which each fits between its neighbours. -/
def Arranged (d : Dialect) (before : Option Stretch) : List Stretch → Prop
  | [] => True
  | s :: ss => s.Fits d before ss.head? ∧ Arranged d (some s) ss

/-- A run as a stretch. -/
def ofRun (t : Text) : Stretch := if t.any Text.isNameStart then name t else plain t

@[simp] theorem text_ofRun (t : Text) : (ofRun t).text = t := by
  rw [ofRun]
  split <;> rfl

@[simp] theorem source_ofRun (t : Text) : (ofRun t).source = t.map .char := by
  rw [ofRun]
  split <;> rfl

@[simp] theorem delimits_ofRun (t : Text) : (ofRun t).delimits = false := by
  rw [ofRun]
  split <;> rfl

@[simp] theorem isRun_ofRun (t : Text) : (ofRun t).isRun = true := by
  rw [ofRun]
  split <;> rfl

@[simp] theorem isBlanks_ofRun (t : Text) : (ofRun t).isBlanks = false := by
  rw [ofRun]
  split <;> rfl

theorem hasName_mysql (before : Option Char) (t : Text) :
    Dialect.hasName .mysql before t = t.any Text.isNameStart := by
  cases t <;> rfl

theorem textOf_written_ofRun (before : Option Char) (t : Text) :
    Piece.textOf ((ofRun t).written .mysql) = Dialect.quoteRun .mysql before t := by
  rw [ofRun, Dialect.quoteRun, hasName_mysql]
  split
  · exact List.append_nil _
  · exact Piece.textOf_map_char t

theorem fits_ofRun {d : Dialect} {before : Option Stretch} {t : Text} (ht : d.IsRun t)
    (hb : ∀ s ∈ before, s.isRun = false) (behind : Option Stretch) :
    (ofRun t).Fits d before behind := by
  rw [ofRun]
  split
  · exact ⟨ht, ‹_›, hb⟩
  · rename_i named
    exact ⟨ht, by simpa using named, hb⟩

end Stretch

namespace Chunk
variable {d : Dialect}

def isRun : Chunk → Bool
  | run _ => true
  | _ => false

def isBlanks : Chunk → Bool
  | blanks _ => true
  | _ => false

theorem blanks_or (cs : List Chunk) :
    (∃ b cs', cs = blanks b :: cs') ∨ ∀ x ∈ cs.head?, x.isBlanks = false := by
  match cs with
  | blanks b :: cs => exact .inl ⟨b, cs, rfl⟩
  | [] | literal _ :: _ | mark _ :: _ | run _ :: _ => exact .inr (by simp [isBlanks])

theorem run_or (cs : List Chunk) :
    (∃ r cs', cs = run r :: cs') ∨ ∀ x ∈ cs.head?, x.isRun = false := by
  match cs with
  | run r :: cs => exact .inl ⟨r, cs, rfl⟩
  | [] | literal _ :: _ | mark _ :: _ | blanks _ :: _ => exact .inr (by simp [isRun])

section attach
variable {c : Char} {cs : List Chunk}

theorem attach_blanks_blanks (hc : Text.isBlank c = true) (b : Text) (cs : List Chunk) :
    attach (.char c) (blanks b :: cs) = blanks (c :: b) :: cs := by simp [attach, hc]

theorem attach_blanks (hc : Text.isBlank c = true) (h : ∀ x ∈ cs.head?, x.isBlanks = false) :
    attach (.char c) cs = blanks [c] :: cs := by
  match cs, h with
  | [], _ | literal _ :: _, _ | mark _ :: _, _ | run _ :: _, _ => simp [attach, hc]
  | blanks _ :: _, h => simp [isBlanks] at h

theorem attach_mark (hb : Text.isBlank c = false) (hc : isMark c = true) (cs : List Chunk) :
    attach (.char c) cs = mark c :: cs := by simp [attach, hb, hc]

theorem attach_run_run (hc : inRun d c = true) (r : Text) (cs : List Chunk) :
    attach (.char c) (run r :: cs) = run (c :: r) :: cs := by
  simp only [inRun, Bool.and_eq_true, Bool.not_eq_true'] at hc
  simp [attach, hc]

theorem attach_run (hc : inRun d c = true) (h : ∀ x ∈ cs.head?, x.isRun = false) :
    attach (.char c) cs = run [c] :: cs := by
  simp only [inRun, Bool.and_eq_true, Bool.not_eq_true'] at hc
  match cs, h with
  | [], _ | literal _ :: _, _ | mark _ :: _, _ | blanks _ :: _, _ => simp [attach, hc]
  | run _ :: _, h => simp [isRun] at h

end attach

/-- A chunk as a closed text has it. -/
def Proper (d : Dialect) : Chunk → Prop
  | literal _ => True
  | blanks t => t.IsBlanks
  | mark c => isMark c = true
  | run t => d.IsRun t

/-- Chunks that stay apart: not two runs, and not two runs of blanks. -/
def Apart (c c' : Chunk) : Prop :=
  (c.isRun = true → c'.isRun = false) ∧ (c.isBlanks = true → c'.isBlanks = false)

/-- Chunks as a closed text has them. -/
inductive Tidy (d : Dialect) : List Chunk → Prop
  | nil : Tidy d []
  | cons {c : Chunk} {cs : List Chunk} (proper : c.Proper d) (apart : ∀ c' ∈ cs.head?, c.Apart c')
      (tidy : Tidy d cs) : Tidy d (c :: cs)

theorem Tidy.rest {c : Chunk} {cs : List Chunk} (h : Tidy d (c :: cs)) : Tidy d cs := by
  cases h with
  | cons _ _ rest => exact rest

theorem Tidy.head {c : Chunk} {cs : List Chunk} (h : Tidy d (c :: cs)) :
    c.Proper d ∧ ∀ c' ∈ cs.head?, c.Apart c' := by
  cases h with
  | cons proper apart _ => exact ⟨proper, apart⟩

theorem Tidy.attach {cs : List Chunk} (h : Tidy d cs) {p : Piece} (hp : p.Whole d) :
    Tidy d (attach p cs) := by
  cases p with
  | literal t => exact .cons trivial (fun _ _ => ⟨by simp [isRun], by simp [isBlanks]⟩) h
  | stray q => exact absurd hp id
  | char c =>
      by_cases blank : Text.isBlank c = true
      · obtain ⟨b, cs', rfl⟩ | first := blanks_or cs
        · rw [attach_blanks_blanks blank]
          exact .cons (Text.isBlanks_cons blank h.head.1.2) h.head.2 h.rest
        · rw [attach_blanks blank first]
          exact .cons (Text.isBlanks_cons blank (by simp))
            (fun x hx => ⟨by simp [isRun], fun _ => first x hx⟩) h
      · by_cases mark : isMark c = true
        · rw [attach_mark (by simpa using blank) mark]
          exact .cons mark (fun _ _ => ⟨by simp [isRun], by simp [isBlanks]⟩) h
        · have quote : d.isQuote c = false := hp
          have inside : inRun d c = true := by simp [inRun, blank, mark, quote]
          obtain ⟨r, cs', rfl⟩ | first := run_or cs
          · rw [attach_run_run inside]
            exact .cons ⟨List.cons_ne_nil _ _, List.forall_mem_cons.mpr ⟨inside, h.head.1.2⟩⟩
              h.head.2 h.rest
          · rw [attach_run inside first]
            exact .cons ⟨List.cons_ne_nil _ _, List.forall_mem_singleton.mpr inside⟩
              (fun x hx => ⟨fun _ => first x hx, by simp [isBlanks]⟩) h

theorem tidy_ofText {t : Text} (h : d.Closed t) : Tidy d (ofText d t) := by
  rw [ofText]
  have whole : ∀ p ∈ Piece.ofText d t, p.Whole d := fun _ => h.whole
  generalize Piece.ofText d t = ps at whole
  induction ps with
  | nil => exact .nil
  | cons p ps ih =>
      obtain ⟨first, rest⟩ := List.forall_mem_cons.mp whole
      exact (ih rest).attach first

end Chunk
namespace Stretch

/-- Stretches that a row of chunks is made of, with the text that is written for them. -/
structure Covers (before : Option Stretch) (ss : List Stretch) (cs : List Chunk) (out : Text) :
    Prop where
  arranged : Arranged .mysql before ss
  source : ss.flatMap source = cs.flatMap Chunk.pieces
  text : Piece.textOf (ss.flatMap (written .mysql)) = out
  delimits : ss.head?.all delimits = Chunk.endsHere cs
  isRun : ∀ s ∈ ss.head?, s.isRun = true → ∃ c ∈ cs.head?, c.isRun = true

theorem Covers.nil (before : Option Stretch) : Covers before [] [] [] :=
  ⟨trivial, rfl, rfl, rfl, by simp⟩

/-- A stretch of one or more chunks. -/
theorem Covers.cons {before : Option Stretch} {s : Stretch} {ss : List Stretch} {c : Chunk}
    {cs : List Chunk} {out : Text} (h : Covers (some s) ss cs out)
    (fits : s.Fits .mysql before ss.head?) (more : List Chunk)
    (same : s.source = (c :: more).flatMap Chunk.pieces) (ends : s.delimits = c.delimits)
    (run : s.isRun = true → c.isRun = true) :
    Covers before (s :: ss) (c :: (more ++ cs)) (Piece.textOf (s.written .mysql) ++ out) := by
  refine ⟨⟨fits, h.arranged⟩, ?_, ?_, ends, ?_⟩
  · rw [← List.cons_append, List.flatMap_append, List.flatMap_cons, same, h.source]
  · rw [List.flatMap_cons, Piece.textOf_append, h.text]
  · rintro _ ⟨⟩ isRun
    exact ⟨c, rfl, run isRun⟩

/-- What stands in front of a row of stretches, as far as it matters for the first of them. -/
structure Leads (before : Option Stretch) (chunk : Option Chunk) (cs : List Chunk) : Prop where
  delimits : before.all delimits = chunk.all Chunk.delimits
  isRun : ∀ s ∈ before, s.isRun = true → ∀ c ∈ cs.head?, c.isRun = false
  isBlanks : ∀ s ∈ before, s.isBlanks = true → ∀ c ∈ cs.head?, c.isBlanks = false

variable {before : Option Stretch} {chunk : Option Chunk} {cs : List Chunk} {out : Text}

theorem Leads.next {s : Stretch} {c : Chunk} (h : Chunk.Tidy .mysql (c :: cs))
    (hd : s.delimits = c.delimits) (hr : s.isRun = true → c.isRun = true)
    (hb : s.isBlanks = true → c.isBlanks = true) : Leads (some s) (some c) cs := by
  refine ⟨hd, ?_, ?_⟩
  · rintro _ ⟨⟩ run c' hc
    exact (h.head.2 c' hc).1 (hr run)
  · rintro _ ⟨⟩ blanks c' hc
    exact (h.head.2 c' hc).2 (hb blanks)

theorem Leads.isRun_eq_false {a : Text} (h : Leads before chunk (.run a :: cs)) :
    ∀ s ∈ before, s.isRun = false := by
  intro s hs
  by_contra run
  exact absurd (h.isRun s hs (by simpa using run) _ rfl) (by simp [Chunk.isRun])

/-- A run that is put in quotes if it has a name. -/
theorem exists_covers_run {a : Text} (h : Chunk.Tidy .mysql (.run a :: cs))
    (hl : Leads before chunk (.run a :: cs))
    (ih : Leads (some (ofRun a)) (some (.run a)) cs → ∃ ss, Covers (some (ofRun a)) ss cs out) :
    ∃ ss, Covers before ss (.run a :: cs) (Dialect.quoteRun .mysql none a ++ out) := by
  obtain ⟨ss, covers⟩ := ih (.next h (by simp [Chunk.delimits]) (fun _ => rfl) (by simp))
  have all := covers.cons (c := .run a) (fits_ofRun h.head.1 hl.isRun_eq_false ss.head?) []
    (by simp [Chunk.pieces]) (by simp [Chunk.delimits]) fun _ => rfl
  rw [textOf_written_ofRun none] at all
  exact ⟨_, all⟩

/-- A keyword that stands alone. -/
theorem exists_covers_keyword {a : Text} (h : Chunk.Tidy .mysql (.run a :: cs))
    (hl : Leads before chunk (.run a :: cs))
    (hk : Text.isAnyKeyword (Dialect.expressionKeywords .mysql) a = true)
    (hd : chunk.all Chunk.delimits = true) (he : Chunk.endsHere cs = true)
    (ih : Leads (some (keyword a)) (some (.run a)) cs → ∃ ss, Covers (some (keyword a)) ss cs out) :
    ∃ ss, Covers before ss (.run a :: cs) (a ++ out) := by
  obtain ⟨ss, covers⟩ := ih (.next h rfl (fun _ => rfl) (by simp [isBlanks]))
  have fits : (keyword a).Fits .mysql before ss.head? :=
    ⟨.inl hk, hl.delimits.trans hd, covers.delimits.trans he⟩
  have all := covers.cons (c := .run a) fits [] (List.append_nil _).symm rfl fun _ => rfl
  rw [textOf_written (by simp)] at all
  exact ⟨_, all⟩

/-- A keyword of two words. -/
theorem exists_covers_pair {a b c : Text}
    (h : Chunk.Tidy .mysql (.run a :: .blanks b :: .run c :: cs))
    (hl : Leads before chunk (.run a :: .blanks b :: .run c :: cs))
    (hk : Dialect.isKeywordPair .mysql a c = true) (hd : chunk.all Chunk.delimits = true)
    (he : Chunk.endsHere cs = true)
    (ih : Leads (some (keyword (a ++ (b ++ c)))) (some (.run c)) cs →
      ∃ ss, Covers (some (keyword (a ++ (b ++ c)))) ss cs out) :
    ∃ ss, Covers before ss (.run a :: .blanks b :: .run c :: cs) (a ++ b ++ c ++ out) := by
  obtain ⟨ss, covers⟩ := ih (.next h.rest.rest rfl (fun _ => rfl) (by simp [isBlanks]))
  have fits : (keyword (a ++ (b ++ c))).Fits .mysql before ss.head? :=
    ⟨.inr ⟨a, b, c, rfl, h.rest.head.1, hk⟩, hl.delimits.trans hd, covers.delimits.trans he⟩
  have all := covers.cons (c := .run a) fits [.blanks b, .run c]
    (by simp [source, text, Chunk.pieces]) rfl fun _ => rfl
  rw [textOf_written (by simp)] at all
  exact ⟨_, by simpa [text] using all⟩

/-- A collation whose last word is a whole run. -/
theorem exists_covers_collation {a b w : Text}
    (h : Chunk.Tidy .mysql (.run a :: .blanks b :: .run w :: cs)) (hp : (a ++ (b ++ w)).IsCollation)
    (hd : before.all delimits = true)
    (ih : ∀ s : Stretch, Leads (some s) (some (.run w)) cs → ∃ ss, Covers (some s) ss cs out) :
    ∃ ss, Covers before ss (.run a :: .blanks b :: .run w :: cs) (a ++ b ++ w ++ out) := by
  obtain ⟨ss, covers⟩ := ih (collation (a ++ (b ++ w)))
    (.next h.rest.rest rfl (fun _ => rfl) (by simp [isBlanks]))
  have apart : ∀ s ∈ ss.head?, s.isRun = false := by
    intro s hs
    by_contra run
    obtain ⟨c, hc, again⟩ := covers.isRun s hs (by simpa using run)
    exact absurd ((h.rest.rest.head.2 c hc).1 rfl) (by simp [again])
  have fits : (collation (a ++ (b ++ w))).Fits .mysql before ss.head? :=
    ⟨hp, hd, fun s hs run => absurd run (by simp [apart s hs])⟩
  have all := covers.cons (c := .run a) fits [.blanks b, .run w]
    (by simp [source, text, Chunk.pieces]) rfl fun _ => rfl
  rw [textOf_written (by simp)] at all
  exact ⟨_, by simpa [text] using all⟩

/-- A collation with the rest of a run behind its last word. -/
theorem exists_covers_collation_run {a b w r : Text}
    (h : Chunk.Tidy .mysql (.run a :: .blanks b :: .run (w ++ r) :: cs))
    (hp : (a ++ (b ++ w)).IsCollation) (hd : before.all delimits = true) (hr : r ≠ [])
    (hw : ∀ c ∈ r.head?, Text.isWordChar c = false)
    (ih : ∀ s : Stretch, Leads (some s) (some (.run (w ++ r))) cs →
      ∃ ss, Covers (some s) ss cs out) :
    ∃ ss, Covers before ss (.run a :: .blanks b :: .run (w ++ r) :: cs)
      (a ++ b ++ (w ++ Dialect.quoteRun .mysql w.getLast? r) ++ out) := by
  obtain ⟨ss, covers⟩ := ih (ofRun r)
    (.next h.rest.rest (by simp [Chunk.delimits]) (fun _ => rfl) (by simp))
  have run : Dialect.IsRun .mysql r :=
    ⟨hr, fun c hc => h.rest.rest.head.1.2 c (List.mem_append_right _ hc)⟩
  refine ⟨collation (a ++ (b ++ w)) :: ofRun r :: ss, ⟨⟨hp, hd, ?_⟩, ?_, covers.arranged⟩, ?_, ?_,
    rfl, by simp [isRun]⟩
  · rintro _ ⟨⟩ -
    rwa [text_ofRun]
  · exact fits_ofRun run (by simp [isRun]) _
  · rw [List.flatMap_cons, List.flatMap_cons, source_ofRun, covers.source]
    simp [source, text, Chunk.pieces]
  · rw [List.flatMap_cons, List.flatMap_cons, Piece.textOf_append, Piece.textOf_append,
      textOf_written (by simp), textOf_written_ofRun w.getLast?, covers.text, text]
    simp

/-- A literal, blanks or a mark. -/
theorem exists_covers_kept {c : Chunk} (h : Chunk.Tidy .mysql (c :: cs))
    (hl : Leads before chunk (c :: cs)) (hc : c.isRun = false)
    (ih : ∀ s : Stretch, Leads (some s) (some c) cs → ∃ ss, Covers (some s) ss cs out) :
    ∃ ss, Covers before ss (c :: cs) (c.text ++ out) := by
  have keep (s : Stretch) (fits : ∀ behind, s.Fits .mysql before behind)
      (same : s.source = c.pieces) (written : s.written .mysql = s.source)
      (ends : s.delimits = c.delimits) (run : s.isRun = false)
      (blanks : s.isBlanks = true → c.isBlanks = true) :
      ∃ ss, Covers before ss (c :: cs) (c.text ++ out) := by
    obtain ⟨ss, covers⟩ := ih s (.next h ends (by simp [run]) blanks)
    have all := covers.cons (fits ss.head?) [] (by simpa using same) ends (by simp [run])
    rw [written, same, Chunk.textOf_pieces] at all
    exact ⟨_, all⟩
  cases c with
  | run t => simp [Chunk.isRun] at hc
  | literal t => exact keep (literal t) (fun _ => trivial) rfl rfl rfl rfl (by simp [isBlanks])
  | mark c => exact keep (mark c) (fun _ => h.head.1) rfl rfl rfl rfl (by simp [isBlanks])
  | blanks t =>
      refine keep (blanks t) (fun _ => ⟨h.head.1, fun s hs => ?_⟩) rfl rfl rfl rfl fun _ => rfl
      by_contra again
      exact absurd (hl.isBlanks s hs (by simpa using again) _ rfl) (by simp [Chunk.isBlanks])

/-- A row of chunks is a row of stretches, and these are written as quoting writes the chunks. -/
theorem exists_covers (h : Chunk.Tidy .mysql cs) (hl : Leads before chunk cs) :
    ∃ ss, Covers before ss cs (Dialect.quoteChunks .mysql chunk cs) := by
  fun_induction Dialect.quoteChunks .mysql chunk cs generalizing before with
  | case1 => exact ⟨[], .nil before⟩
  | case2 chunk a b c cs hd hk ih => exact exists_covers_keyword h hl hk hd rfl (ih h.rest)
  | case3 chunk a b c cs hd _ hp ih =>
      rw [Bool.and_eq_true] at hp
      exact exists_covers_pair h hl hp.1 hd hp.2 (ih h.rest.rest.rest)
  | case4 chunk a b c cs hd _ _ hc ih =>
      rw [Bool.and_eq_true] at hc
      have parts := List.takeWhile_append_dropWhile (p := Text.isWordChar) (l := c)
      have ends : ∀ x ∈ (c.dropWhile Text.isWordChar).head?, Text.isWordChar x = false := by
        intro x hx
        simpa [Option.mem_def.mp hx] using List.head?_dropWhile_not Text.isWordChar c
      have collation : (a ++ (b ++ c.takeWhile Text.isWordChar)).IsCollation :=
        ⟨a, b, _, rfl, hc.1, h.rest.head.1, by simpa [Dialect.startsCollation] using hc.2,
          fun _ => List.mem_takeWhile_imp⟩
      have delimited := hl.delimits.trans hd
      have rest (s : Stretch) (leads : Leads (some s) (some (.run c)) cs) :
          ∃ ss, Covers (some s) ss cs (Dialect.quoteChunks .mysql (some (.run c)) cs) :=
        ih h.rest.rest.rest leads
      rw [Dialect.keepCollation]
      by_cases whole : c.dropWhile Text.isWordChar = []
      · rw [whole, List.append_nil] at parts
        rw [whole, parts, Dialect.quoteRun, hasName_mysql]
        rw [parts] at collation
        simpa using exists_covers_collation h collation delimited rest
      · have all := exists_covers_collation_run (by rwa [parts]) collation delimited whole ends
          (by rwa [parts])
        rwa [parts] at all
  | case5 chunk a b c cs _ _ _ _ ih | case6 chunk a b c cs _ ih =>
      exact exists_covers_run h hl (ih h.rest)
  | case7 chunk a cs _ hk ih =>
      simp only [Bool.and_eq_true] at hk
      exact exists_covers_keyword h hl hk.1.2 hk.1.1 hk.2 (ih h.rest)
  | case8 chunk a cs _ _ ih => exact exists_covers_run h hl (ih h.rest)
  | case9 chunk c cs _ other ih =>
      refine exists_covers_kept h hl ?_ fun _ => ih h.rest
      cases c with
      | run a => exact absurd rfl (other a)
      | literal | blanks | mark => rfl

end Stretch
end SqlStatement
