import SqlStatement.Proofs.Letters
import SqlStatement.Proofs.Quoting
import SqlStatement.Proofs.Spotting
import SqlStatement.Proofs.Trimming

/-!
# Casts in quoted expressions

The second pass takes the quotes off the name behind the last AS of a CAST call,
whoever put them on. As long as the caller quotes no name with a quote, a
parenthesis or a comma in it, the pass only undoes quoting, and a quoted
expression is balanced with the delimiters it had. A quoted type with a
parenthesis in it spoils this. Where moreover the quoted names are words that
stand behind no other word, the pass changes no placeholder: what it takes the
quotes off stands behind AS and a blank.
-/
namespace SqlStatement

theorem Text.isWordChar_of_toUpper {c : Char} (h : c.toUpper = 'S') : isWordChar c = true := by
  rw [← isWordChar_toUpper, h]
  decide

namespace Piece
variable {d : Dialect} {ps qs : List Piece}

/-- Literals are welded from strings only. -/
theorem mem_of_mem_weld {t : Text} (h : literal t ∈ weld d ps) :
    literal t ∈ ps ∨ t.head?.any d.isStringQuote = true := by
  induction ps generalizing t with
  | nil => exact .inl h
  | cons p ps ih =>
      rw [weld_cons] at h
      generalize weld d ps = qs at h ih
      unfold fuse at h
      split at h
      · rename_i a b qs
        split at h
        · rename_i ht
          simp only [Dialect.takesIn, Bool.and_eq_true] at ht
          rcases List.mem_cons.mp h with he | h
          · cases he
            refine .inr ?_
            cases a with
            | nil => simp at ht
            | cons q a => exact ht.2
          · exact (ih (List.mem_cons_of_mem _ h)).imp_left (List.mem_cons_of_mem _)
        · rcases List.mem_cons.mp h with he | h
          · exact .inl (by rw [he]; exact List.mem_cons_self)
          · exact (ih h).imp_left (List.mem_cons_of_mem _)
      · rcases List.mem_cons.mp h with rfl | h
        · exact .inl List.mem_cons_self
        · exact (ih h).imp_left (List.mem_cons_of_mem _)

/-- Whether all names in identifier quotes could have been put there. -/
def InertNames (d : Dialect) (ps : List Piece) : Prop :=
  ∀ w, literal (d.quoteName w) ∈ ps → ∀ c ∈ w, d.isInert c = true

theorem InertNames.mono (h : InertNames d qs) (hs : ∀ t, literal t ∈ ps → literal t ∈ qs) :
    InertNames d ps := fun w hm => h w (hs _ hm)

theorem InertNames.weld (h : InertNames d ps) : InertNames d (weld d ps) := by
  intro w hm
  rcases mem_of_mem_weld hm with hm | hm
  · exact h w hm
  · have : d.isStringQuote d.identifierQuote = true := hm
    cases d <;> simp [Dialect.isStringQuote, Dialect.identifierQuote] at this

namespace Names

theorem mem_of_literal {t : Text} (h : Names d ps qs) (hm : literal t ∈ ps) : literal t ∈ qs := by
  induction h with
  | nil => exact hm
  | keep p _ ih =>
      rcases List.mem_cons.mp hm with rfl | hm
      · exact List.mem_cons_self
      · exact List.mem_cons_of_mem _ (ih hm)
  | quote w _ _ ih =>
      rcases List.mem_append.mp hm with hm | hm
      · simp at hm
      · exact List.mem_cons_of_mem _ (ih hm)

theorem inertNames (h : Names d ps qs) (hn : InertNames d ps) : InertNames d qs := by
  induction h with
  | nil => exact hn
  | keep p _ ih =>
      intro w hm
      rcases List.mem_cons.mp hm with rfl | hm
      · exact hn w List.mem_cons_self
      · exact ih (hn.mono fun _ => List.mem_cons_of_mem p) w hm
  | quote w hw _ ih =>
      intro w' hm
      rcases List.mem_cons.mp hm with he | hm
      · have same : w' = w := by simpa [Dialect.quoteName] using he
        exact same ▸ hw
      · exact ih (hn.mono fun _ => List.mem_append_right _) w' hm

end Names

/-- The name that a piece has in identifier quotes. -/
def name? (d : Dialect) : Piece → Option Text
  | literal (q :: t) => if q = d.identifierQuote then some t.dropLast else none
  | _ => none

@[simp] theorem name?_quoteName (w : Text) : name? d (literal (d.quoteName w)) = some w := by
  simp [name?, Dialect.quoteName]

/-- Whether a piece is a character of a word. -/
def isWordChar : Piece → Bool
  | char c => Text.isWordChar c
  | literal _ | stray _ => false

/-- Whether the names in identifier quotes are words and none of them stands right behind a
word. -/
def sheltered (d : Dialect) : Bool → List Piece → Bool
  | _, [] => true
  | behindWord, p :: ps =>
      (p.name? d).all (fun w => !behindWord && w.all Text.isWordChar) &&
        sheltered d p.isWordChar ps

@[simp] theorem sheltered_nil (b : Bool) : sheltered d b [] = true := rfl

@[simp] theorem sheltered_char (b : Bool) (c : Char) (ps : List Piece) :
    sheltered d b (char c :: ps) = sheltered d (Text.isWordChar c) ps := rfl

theorem sheltered_append (b : Bool) (ps qs : List Piece) :
    sheltered d b (ps ++ qs) =
      (sheltered d b ps && sheltered d (ps.getLast?.elim b isWordChar) qs) := by
  induction ps generalizing b with
  | nil => rfl
  | cons p ps ih =>
      rw [List.cons_append, sheltered, ih, sheltered, Bool.and_assoc, List.getLast?_cons]
      cases ps.getLast? <;> rfl

@[simp] theorem sheltered_chars (b : Bool) (w : Text) : sheltered d b (w.map char) = true := by
  induction w generalizing b with
  | nil => rfl
  | cons c w ih => exact ih _

theorem sheltered_group (b : Bool) (ps qs : List Piece) :
    sheltered d b (char '(' :: (ps ++ char ')' :: qs)) =
      (sheltered d false ps && sheltered d false qs) := by
  rw [sheltered_char, sheltered_append, sheltered_char]
  rfl

theorem InertNames.of_sheltered {b : Bool} (h : sheltered d b ps = true) : InertNames d ps := by
  induction ps generalizing b with
  | nil => simp [InertNames]
  | cons p ps ih =>
      rw [sheltered, Bool.and_eq_true] at h
      intro w hm c hc
      rcases List.mem_cons.mp hm with rfl | hm
      · have word := h.1
        simp only [name?_quoteName, Option.all_some, Bool.and_eq_true, List.all_eq_true] at word
        exact Dialect.isInert_of_isWordChar (word.2 c hc)
      · exact ih h.2 w hm c hc

/-- Where a text ends with AS, blanks aside, and no word goes on, there is a blank. -/
theorem exists_blank (hw : ∀ p ∈ ps, Whole d p)
    (has : Text.isKeyword "SA" ((Text.skipBlanks (textOf ps).reverse).take 2) = true)
    (hl : ∀ p ∈ ps.getLast?, p.isWordChar = false) :
    ∃ front c, ps = front ++ [char c] ∧ Text.isBlank c = true := by
  induction ps using List.reverseRecOn with
  | nil => exact absurd has (by decide)
  | append_singleton front p _ =>
      have whole := hw p (by simp)
      have last : p.isWordChar = false := hl p (by simp)
      -- The character that ends the text is a blank, or else the S of AS.
      have ends {c : Char} {t : Text} (hc : (textOf (front ++ [p])).reverse = c :: t)
          (word : Text.isWordChar c = false) : Text.isBlank c = true := by
        by_contra hb
        rw [hc, Text.skipBlanks, List.dropWhile_cons_of_neg hb, Text.isKeyword, Text.upper,
          beq_iff_eq] at has
        have upper : c.toUpper = 'S' := (List.cons.inj has).1
        rw [Text.isWordChar_of_toUpper upper] at word
        cases word
      cases p with
      | stray q => exact absurd whole id
      | char c => exact ⟨front, c, rfl, ends (by simp [text]; rfl) last⟩
      | literal t =>
          obtain ⟨q, w, rfl, hq⟩ := Dialect.literal?_ends whole
          have apart : Text.isWordChar q = false := by
            by_contra hc
            rw [Dialect.isQuote_of_isWordChar (by simpa using hc)] at hq
            cases hq
          have blank := ends (c := q) (by simp [text]; rfl) apart
          rw [Dialect.isQuote_of_isBlank blank] at hq
          cases hq

/-- Whether pieces that replace others spare what is sheltered: the names stay so, and the front
shows the same as before. -/
def Spares (d : Dialect) (ps qs : List Piece) : Prop :=
  ∀ b, sheltered d b ps = true → sheltered d b qs = true ∧ outlook qs = outlook ps

namespace Spares

theorem refl (ps : List Piece) : Spares d ps ps := fun _ h => ⟨h, rfl⟩

theorem trans {rs : List Piece} (h : Spares d ps qs) (h' : Spares d qs rs) : Spares d ps rs := by
  intro b hb
  obtain ⟨sheltered, outlook⟩ := h b hb
  obtain ⟨sheltered', outlook'⟩ := h' b sheltered
  exact ⟨sheltered', outlook'.trans outlook⟩

theorem cons (h : Spares d ps qs) (p : Piece) : Spares d (p :: ps) (p :: qs) := by
  intro b hb
  rw [sheltered, Bool.and_eq_true] at hb
  obtain ⟨rest, outlook⟩ := h _ hb.2
  rw [sheltered, hb.1, rest, outlook_cons, outlook_cons, outlook]
  exact ⟨rfl, rfl⟩

theorem append_blank (h : Spares d ps qs) {c : Char} (hc : Text.isBlank c = true) :
    Spares d (ps ++ [char c]) (qs ++ [char c]) := by
  intro b hb
  rw [sheltered_append, Bool.and_eq_true] at hb
  obtain ⟨front, outlook⟩ := h b hb.1
  have behind : (Piece.outlook [char c]).word = [] := by rw [outlook_blank hc]
  rw [sheltered_append, front, outlook_append behind, outlook_append behind, outlook]
  exact ⟨rfl, rfl⟩

theorem group {rs us : List Piece} (h : Spares d ps qs) (h' : Spares d rs us) :
    Spares d (char '(' :: (ps ++ char ')' :: rs)) (char '(' :: (qs ++ char ')' :: us)) := by
  intro b hb
  rw [sheltered_group, Bool.and_eq_true] at hb
  obtain ⟨inside, outlook⟩ := h _ hb.1
  obtain ⟨behind, outlook'⟩ := h' _ hb.2
  rw [sheltered_group, inside, behind, outlook_group, outlook_group, outlook, outlook']
  exact ⟨rfl, rfl⟩

/-- A name behind AS can do without its quotes: if it is sheltered, a blank keeps the two apart. -/
theorem unquote {w : Text} (hw : ∀ p ∈ ps, Whole d p)
    (has : Text.isKeyword "SA" ((Text.skipBlanks (textOf ps).reverse).take 2) = true) :
    Spares d (ps ++ [literal (d.quoteName w)]) (ps ++ w.map char) := by
  intro b hb
  simp only [sheltered_append, sheltered, name?_quoteName, Option.all_some, Bool.and_eq_true,
    Bool.not_eq_true', List.all_eq_true] at hb
  obtain ⟨front, ⟨behind, word⟩, -⟩ := hb
  obtain ⟨front', c, rfl, blank⟩ := exists_blank hw has (by
    intro p hp
    rwa [Option.mem_def.mp hp] at behind)
  rw [sheltered_append, front, sheltered_chars]
  refine ⟨rfl, ?_⟩
  rw [List.append_assoc, List.append_assoc]
  refine outlook_append_congr ?_ front'
  have none := outlook_word word []
  rw [List.append_nil] at none
  rw [List.singleton_append, outlook_blank blank, none, List.singleton_append, outlook_blank blank]
  rfl

end Spares

end Piece

namespace CastTarget
variable {d : Dialect} {q : Char}

theorem strip_append_blank (t : Text) {c : Char} (hc : Text.isBlank c = true) :
    strip q (t ++ [c]) = strip q t ++ [c] := by
  simp only [strip, List.reverse_append, List.reverse_singleton, List.singleton_append,
    List.dropWhile_cons_of_pos hc, List.takeWhile_cons_of_pos hc]
  split
  · rfl
  · split
    · rfl
    · split
      · rfl
      · split
        · simp
        · rfl

theorem strip_append_of_ne (t : Text) {c : Char} (hc : Text.isBlank c = false) (hq : c ≠ q) :
    strip q (t ++ [c]) = t ++ [c] := by
  simp [strip, hc, hq]

/-- A name in quotes at the end keeps its quotes or loses both, the latter behind AS. -/
theorem strip_append_quoteName (t : Text) {w : Text} (hw : ∀ c ∈ w, d.isInert c = true) :
    (Text.isKeyword "SA" ((Text.skipBlanks t.reverse).take 2) = true ∧
        strip d.identifierQuote (t ++ d.quoteName w) = t ++ w) ∨
      strip d.identifierQuote (t ++ d.quoteName w) = t ++ d.quoteName w := by
  have blank : Text.isBlank d.identifierQuote = false := by cases d <;> decide
  have back : (t ++ d.quoteName w).reverse =
      d.identifierQuote :: (w.reverse ++ d.identifierQuote :: t.reverse) := by
    simp [Dialect.quoteName]
  have inside : ∀ c ∈ w.reverse, (decide (c ≠ d.identifierQuote)) = true := by
    intro c hc
    rw [decide_eq_true_eq]
    rintro rfl
    have := Dialect.isQuote_of_isInert (hw _ (List.mem_reverse.mp hc))
    simp [Dialect.isQuote] at this
  rw [strip, back, List.dropWhile_cons_of_neg (by simp [blank]),
    List.takeWhile_cons_of_neg (by simp [blank])]
  dsimp only
  rw [if_neg (not_not.mpr rfl), List.dropWhile_append_of_pos inside,
    List.takeWhile_append_of_pos inside, List.dropWhile_cons_of_neg (by simp),
    List.takeWhile_cons_of_neg (by simp)]
  dsimp only
  split
  · rename_i has
    rw [Bool.and_eq_true] at has
    exact .inl ⟨has.1, by simp⟩
  · exact .inr rfl

/-- Where all quoted names are inert, taking the quotes off the last one undoes quoting. -/
theorem exists_strip {ps : List Piece} (hw : ∀ p ∈ ps, p.Whole d) (hn : Piece.InertNames d ps) :
    ∃ qs, Piece.Names d qs ps ∧ Piece.textOf qs = strip d.identifierQuote (Piece.textOf ps) ∧
      Piece.Spares d ps qs := by
  induction ps using List.reverseRecOn with
  | nil => exact ⟨[], .nil, rfl, .refl _⟩
  | append_singleton ps p ih =>
      have rest : ∀ p ∈ ps, p.Whole d := fun p hp => hw p (by simp [hp])
      have last := hw p (by simp)
      have same (h : strip d.identifierQuote (Piece.textOf ps ++ p.text) =
          Piece.textOf ps ++ p.text) : ∃ qs, Piece.Names d qs (ps ++ [p]) ∧
            Piece.textOf qs = strip d.identifierQuote (Piece.textOf (ps ++ [p])) ∧
            Piece.Spares d (ps ++ [p]) qs :=
        ⟨ps ++ [p], .refl _, by simpa using h.symm, .refl _⟩
      cases p with
      | stray c => exact absurd last id
      | char c =>
          cases hc : Text.isBlank c with
          | true =>
              obtain ⟨qs, names, ht, spares⟩ := ih rest (hn.mono fun _ => List.mem_append_left _)
              refine ⟨qs ++ [.char c], names.append (.refl _), ?_, spares.append_blank hc⟩
              rw [Piece.textOf_append, ht, Piece.textOf_append]
              exact (strip_append_blank _ hc).symm
          | false =>
              refine same (strip_append_of_ne _ hc ?_)
              rintro rfl
              have : d.isQuote d.identifierQuote = false := last
              simp [Dialect.isQuote] at this
      | literal t =>
          obtain ⟨c, w, rfl, hq⟩ := Dialect.literal?_ends last
          by_cases hc : c = d.identifierQuote
          · subst hc
            have inert := hn w (by simp [Dialect.quoteName])
            rcases strip_append_quoteName (Piece.textOf ps) inert with ⟨has, h⟩ | h
            · refine ⟨ps ++ w.map .char, (Piece.Names.refl ps).append ?_, ?_, ?_⟩
              · simpa [Dialect.quoteName] using Piece.Names.quote w inert .nil
              · rw [Piece.textOf_append, Piece.textOf_map_char, Piece.textOf_append, ← h]
                simp [Dialect.quoteName, Piece.text]
              · exact Piece.Spares.unquote rest has
            · exact same h
          · have blank : Text.isBlank c = false := by
              by_contra hb
              rw [Bool.not_eq_false] at hb
              simp [Dialect.isQuote_of_isBlank hb] at hq
            refine same ?_
            have := strip_append_of_ne (Piece.textOf ps ++ c :: w) blank hc
            simpa [Piece.text] using this

theorem clean_piece {limit room : Nat} {p : Piece} {rest : Nesting} {seen out : Text}
    (h : clean limit q (.piece p rest) room seen = .ok out) :
    ∃ r, clean limit q rest room (p.text.reverse ++ seen) = .ok r ∧ out = p.text ++ r := by
  rw [clean] at h
  cases hr : clean limit q rest room (p.text.reverse ++ seen) with
  | error e =>
      rw [hr] at h
      cases h
  | ok r =>
      rw [hr] at h
      cases h
      exact ⟨r, rfl, rfl⟩

theorem clean_group {limit room : Nat} {inner rest : Nesting} {seen out : Text}
    (h : clean limit q (.group inner rest) room seen = .ok out) :
    ∃ below i r, clean limit q inner below [] = .ok i ∧ clean limit q rest room [] = .ok r ∧
      out = '(' :: ((if endsWithCast seen then strip q i else i) ++ ')' :: r) := by
  cases room with
  | zero => simp [clean] at h
  | succ below =>
      rw [clean] at h
      cases hi : clean limit q inner below [] with
      | error e =>
          rw [hi] at h
          cases h
      | ok i =>
          cases hr : clean limit q rest (below + 1) [] with
          | error e =>
              rw [hi, hr] at h
              cases h
          | ok r =>
              rw [hi, hr] at h
              cases h
              exact ⟨below, i, r, hi, rfl, rfl⟩

/-- Where all quoted names are inert, taking the quotes off CAST types undoes quoting. -/
theorem exists_clean {limit room : Nat} {n : Nesting} {seen out : Text}
    (h : clean limit d.identifierQuote n room seen = .ok out) (hw : ∀ p ∈ n.pieces, p.Whole d)
    (hn : Piece.InertNames d n.pieces) :
    ∃ qs, Piece.Names d qs n.pieces ∧ Piece.textOf qs = out ∧ Piece.Spares d n.pieces qs := by
  induction n generalizing room seen out with
  | done =>
      cases h
      exact ⟨[], .nil, rfl, .refl _⟩
  | piece p rest ih =>
      obtain ⟨r, hr, rfl⟩ := clean_piece h
      obtain ⟨qs, names, rfl, spares⟩ := ih hr (fun p hp => hw p (List.mem_cons_of_mem _ hp))
        (hn.mono fun _ => List.mem_cons_of_mem _)
      exact ⟨p :: qs, .keep p names, rfl, spares.cons p⟩
  | group inner rest ih₁ ih₂ =>
      obtain ⟨below, i, r, hi, hr, rfl⟩ := clean_group h
      rw [Nesting.pieces] at hw hn ⊢
      have whole : ∀ p ∈ inner.pieces, p.Whole d := fun p hp => hw p (by simp [hp])
      have inert : Piece.InertNames d inner.pieces := hn.mono fun t ht => by simp [ht]
      obtain ⟨qs, names, rfl, spares⟩ := ih₁ hi whole inert
      obtain ⟨rs, names', rfl, spares'⟩ := ih₂ hr (fun p hp => hw p (by simp [hp]))
        (hn.mono fun t ht => by simp [ht])
      obtain ⟨ps, stripped, ht, unquoted⟩ := exists_strip (names.whole_of_quoted whole)
        (inert.mono fun _ => names.mem_of_literal)
      have group {ps : List Piece} (h : Piece.Names d ps inner.pieces) :
          Piece.Names d (.char '(' :: (ps ++ .char ')' :: rs))
            (.char '(' :: (inner.pieces ++ .char ')' :: rest.pieces)) :=
        .keep _ (h.append (.keep _ names'))
      split
      · exact ⟨_, group (stripped.trans names), by simp [ht, Piece.text],
          (spares.trans unquoted).group spares'⟩
      · exact ⟨_, group names, by simp [Piece.text], spares.group spares'⟩

end CastTarget

namespace Dialect
variable {d : Dialect} {t u : Text}

/-- A text that is a closed text with some names out of their quotes. -/
theorem Closed.of_unquoted {ps : List Piece} (ht : d.Closed t)
    (h : Piece.Names d ps (Piece.ofText d t)) :
    d.Closed (Piece.textOf ps) ∧ d.delimiters (Piece.textOf ps) = d.delimiters t := by
  have whole := h.whole_of_quoted fun _ => ht.whole
  exact ⟨closed_textOf whole, by rw [delimiters_textOf whole, ← h.delimiters, delimiters]⟩

theorem inertNames_of_renders (ht : d.Closed t) (hn : Piece.InertNames d (Piece.ofText d t))
    (h : Piece.Renders d (Piece.ofText d t) u) : Piece.InertNames d (Piece.ofText d u) := by
  obtain ⟨qs, names, rfl⟩ := h
  rw [Piece.ofText_textOf_of_whole (names.whole fun _ => ht.whole)]
  exact (names.inertNames hn).weld

end Dialect

theorem closed_quoteSmart {s : Settings} {t out : Text} (h : quoteSmart s t = .ok out)
    (ht : s.dialect.Closed t)
    (hn : CastTarget.isMentioned none (s.dialect.quoteNames t) = true →
      Piece.InertNames s.dialect (Piece.ofText s.dialect t)) :
    s.dialect.Closed out ∧ s.dialect.delimiters out = s.dialect.delimiters t := by
  have renders := s.dialect.renders_quoteNames t
  obtain ⟨closed, delimiters⟩ := ht.of_renders renders
  rw [quoteSmart] at h
  split at h
  · rename_i cast
    have pieces : (Nesting.ofText s.dialect (s.dialect.quoteNames t)).pieces =
        Piece.ofText s.dialect (s.dialect.quoteNames t) := Nesting.pieces_ofPieces _
    obtain ⟨qs, names, rfl, -⟩ := CastTarget.exists_clean h (pieces ▸ fun _ => closed.whole)
      (pieces ▸ Dialect.inertNames_of_renders ht (hn cast) renders)
    obtain ⟨closed', delimiters'⟩ := closed.of_unquoted (pieces ▸ names)
    exact ⟨closed', delimiters'.trans delimiters⟩
  · cases h
    exact ⟨closed, delimiters⟩

/-- An expression whose names are quoted is balanced and keeps its delimiters, in the smart way as
long as the expression casts nothing or has no quote, parenthesis or comma in a quoted name. -/
theorem isBalanced_quoteIdentifier {s : Settings} {mode : QuoteMode} {t out : Text}
    (h : quoteIdentifier s mode t = .ok out) (hm : mode = .words ∨ mode = .smart)
    (hn : mode = .smart → CastTarget.isMentioned none (s.dialect.quoteNames t) = true →
      Piece.InertNames s.dialect (Piece.ofText s.dialect t)) :
    s.dialect.isBalanced out = true ∧ s.dialect.delimiters out = s.dialect.delimiters t := by
  suffices kept : s.dialect.isBalanced t = true ∧ s.dialect.Closed out ∧
      s.dialect.delimiters out = s.dialect.delimiters t by
    obtain ⟨balanced, closed, delimiters⟩ := kept
    exact ⟨Dialect.isBalanced_of_delimiters_eq balanced closed delimiters, delimiters⟩
  rcases hm with rfl | rfl
  · rw [quoteIdentifier] at h
    split at h
    · rename_i balanced
      cases h
      have closed := (Dialect.isBalanced_iff.mp balanced).1
      exact ⟨balanced, closed.of_renders (Dialect.renders_quoteWords closed)⟩
    · cases h
  · rw [quoteIdentifier] at h
    split at h
    · rename_i balanced
      exact ⟨balanced, closed_quoteSmart h (Dialect.isBalanced_iff.mp balanced).1 (hn rfl)⟩
    · cases h

theorem isBalanced_quoteIdentifier_cast :
    Dialect.mysql.isBalanced "CAST(`a` AS b), `c`".toList = true ∧
      Dialect.mysql.delimiters "CAST(`a` AS b), `c`".toList =
        Dialect.mysql.delimiters "CAST(a AS `b`), c".toList := by
  have quoted : quoteIdentifier {} .smart "CAST(a AS `b`), c".toList =
      .ok "CAST(`a` AS b), `c`".toList := by decide +kernel
  have pieces : Piece.ofText .mysql "CAST(a AS `b`), c".toList =
      "CAST(a AS ".toList.map .char ++ .literal "`b`".toList :: "), c".toList.map .char := by
    decide +kernel
  refine isBalanced_quoteIdentifier quoted (.inr rfl) fun _ _ w hw => ?_
  have name : Dialect.mysql.quoteName w = "`b`".toList := by
    rw [pieces] at hw
    simpa using hw
  obtain rfl : w = ['b'] := List.append_cancel_right (List.cons.inj name).2
  exact List.forall_mem_singleton.mpr (by decide)

/-- A quoted CAST type with a parenthesis in it leaves the expression unbalanced. -/
theorem not_isBalanced_quoteIdentifier_cast :
    ¬∀ (s : Settings) (t out : Text), quoteIdentifier s .smart t = .ok out →
      s.dialect.isBalanced out = true := by
  intro h
  have balanced := h {} "CAST(a AS `b(`)".toList "CAST(`a` AS b()".toList (by decide +kernel)
  exact absurd balanced (by decide +kernel)

end SqlStatement
