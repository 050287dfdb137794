import SqlStatement.Proofs.Assigning

/-!
# Dotted paths

Strict quoting takes its input for a path of segments with single dots between
them. A segment stands in identifier quotes, or it has neither a dot nor such a
quote in it, whatever else it has. What is written are the same segments, all of
them in quotes. So a quote in the input is a quote around a segment or the input
is refused, and what is written reads as names and dots in any place outside
literals.
-/
namespace SqlStatement

theorem Text.joinWith_cons {separator t : Text} {ts : List Text} (h : ts ≠ []) :
    joinWith separator (t :: ts) = t ++ separator ++ joinWith separator ts := by
  obtain ⟨u, ts, rfl⟩ := List.exists_cons_of_ne_nil h
  exact joinWith_cons_cons separator t u ts

namespace Dialect
variable {d : Dialect}

/-- A segment of a path: a name in identifier quotes, or some characters that are neither dots nor
such quotes. -/
inductive IsSegment (d : Dialect) : Text → Prop
  | quoted {name : Text} (h : d.identifierQuote ∉ name) : IsSegment d (d.quoteName name)
  | bare {name : Text} (hn : name ≠ []) (hd : '.' ∉ name) (hq : d.identifierQuote ∉ name) :
      IsSegment d name

/-- A text of one or more segments with single dots between them. -/
structure IsPath (d : Dialect) (segments : List Text) (t : Text) : Prop where
  nonempty : segments ≠ []
  segment : ∀ g ∈ segments, d.IsSegment g
  joined : t = Text.joinWith ['.'] segments

/-- A segment in quotes. -/
def quoteSegment (d : Dialect) (g : Text) : Text :=
  if g.head? = some d.identifierQuote then g else d.quoteName g

@[simp] theorem quoteSegment_quoteName (w : Text) :
    d.quoteSegment (d.quoteName w) = d.quoteName w := if_pos rfl

theorem IsSegment.exists_quoteName {g : Text} (h : d.IsSegment g) :
    ∃ w, d.quoteSegment g = d.quoteName w ∧ d.identifierQuote ∉ w := by
  cases h with
  | @quoted name hq => exact ⟨name, quoteSegment_quoteName name, hq⟩
  | bare _ _ hq =>
      refine ⟨g, if_neg fun first => hq ?_, hq⟩
      exact List.mem_of_mem_head? first

theorem IsPath.cons {g t : Text} {segments : List Text} (hg : d.IsSegment g)
    (h : d.IsPath segments t) : d.IsPath (g :: segments) (g ++ '.' :: t) := by
  refine ⟨List.cons_ne_nil _ _, List.forall_mem_cons.mpr ⟨hg, h.segment⟩, ?_⟩
  rw [h.joined, Text.joinWith_cons h.nonempty, List.append_assoc, List.singleton_append]

theorem isPath_singleton {g : Text} (hg : d.IsSegment g) : d.IsPath [g] g :=
  ⟨List.cons_ne_nil _ _, List.forall_mem_singleton.mpr hg, rfl⟩

/-- A path is a segment, or a segment, a dot and a path. -/
@[elab_as_elim]
theorem IsPath.induct {motive : ∀ segments t, d.IsPath segments t → Prop}
    (single : ∀ g (hg : d.IsSegment g), motive [g] g (isPath_singleton hg))
    (cons : ∀ g segments t (hg : d.IsSegment g) (path : d.IsPath segments t),
      motive segments t path → motive (g :: segments) (g ++ '.' :: t) (path.cons hg))
    {segments : List Text} {t : Text} (h : d.IsPath segments t) : motive segments t h := by
  obtain ⟨hn, hs, rfl⟩ := h
  induction segments with
  | nil => exact absurd rfl hn
  | cons g segments ih =>
      obtain ⟨hg, rest⟩ := List.forall_mem_cons.mp hs
      cases segments with
      | nil => exact single g hg
      | cons g' segments =>
          have path : d.IsPath (g' :: segments) _ := ⟨List.cons_ne_nil _ _, rest, rfl⟩
          have all := cons g _ _ hg path (ih path.nonempty rest)
          simpa [Text.joinWith_cons_cons] using all

/-- What follows a segment: nothing, or a dot and a path. -/
def Continues (d : Dialect) (t : Text) : Prop :=
  t = [] ∨ ∃ segments rest, t = '.' :: rest ∧ d.IsPath segments rest

theorem Continues.isPath {g t : Text} (h : d.Continues t) (hg : d.IsSegment g) :
    ∃ segments, d.IsPath segments (g ++ t) := by
  obtain rfl | ⟨segments, rest, rfl, path⟩ := h
  · exact ⟨[g], by simpa using isPath_singleton hg⟩
  · exact ⟨g :: segments, path.cons hg⟩

end Dialect

namespace PathState
variable {d : Dialect}
open Dialect (IsSegment IsPath quoteSegment)

/-- What may be left of a path in each state. -/
def Reads (d : Dialect) : PathState → Text → Prop
  | start, t => ∃ segments, d.IsPath segments t
  | bare, t => ∃ w rest, t = w ++ rest ∧ '.' ∉ w ∧ d.identifierQuote ∉ w ∧ d.Continues rest
  | quoted, t => ∃ w rest, t = w ++ d.identifierQuote :: rest ∧ d.identifierQuote ∉ w ∧
      d.Continues rest
  | closed, t => d.Continues t

theorem continues_dot {t : Text} (h : Reads d start t) : d.Continues ('.' :: t) := by
  obtain ⟨segments, path⟩ := h
  exact .inr ⟨segments, t, rfl, path⟩

/-- Only paths are quoted. -/
theorem reads_quote? {state : PathState} {t out : Text}
    (h : quote? d.identifierQuote state t = some out) : Reads d state t := by
  fun_induction quote? d.identifierQuote state t generalizing out with
  | case1 | case3 | case6 | case9 | case14 => cases h
  | case2 t ih =>
      obtain ⟨_, hr, -⟩ := Option.map_eq_some_iff.mp h
      obtain ⟨w, rest, rfl, hq, continues⟩ := ih hr
      have path := continues.isPath (.quoted hq)
      simpa [Dialect.quoteName, Reads] using path
  | case4 c t hq hd ih =>
      obtain ⟨_, hr, -⟩ := Option.map_eq_some_iff.mp h
      obtain ⟨w, rest, rfl, hd', hq', continues⟩ := ih hr
      refine continues.isPath (g := c :: w) (.bare (List.cons_ne_nil _ _) ?_ ?_)
      · exact List.not_mem_cons_of_ne_of_not_mem (Ne.symm hd) hd'
      · exact List.not_mem_cons_of_ne_of_not_mem (Ne.symm hq) hq'
  | case5 => exact ⟨[], [], rfl, by simp, by simp, .inl rfl⟩
  | case7 t _ ih =>
      obtain ⟨_, hr, -⟩ := Option.map_eq_some_iff.mp h
      exact ⟨[], '.' :: t, rfl, by simp, by simp, continues_dot (ih hr)⟩
  | case8 c t hq hd ih =>
      obtain ⟨_, hr, -⟩ := Option.map_eq_some_iff.mp h
      obtain ⟨w, rest, rfl, hd', hq', continues⟩ := ih hr
      exact ⟨c :: w, rest, rfl, List.not_mem_cons_of_ne_of_not_mem (Ne.symm hd) hd',
        List.not_mem_cons_of_ne_of_not_mem (Ne.symm hq) hq', continues⟩
  | case10 t ih =>
      obtain ⟨_, hr, -⟩ := Option.map_eq_some_iff.mp h
      exact ⟨[], t, rfl, by simp, ih hr⟩
  | case11 c t hq ih =>
      obtain ⟨_, hr, -⟩ := Option.map_eq_some_iff.mp h
      obtain ⟨w, rest, rfl, hq', continues⟩ := ih hr
      exact ⟨c :: w, rest, rfl, List.not_mem_cons_of_ne_of_not_mem (Ne.symm hq) hq', continues⟩
  | case12 => exact .inl rfl
  | case13 t ih =>
      obtain ⟨_, hr, -⟩ := Option.map_eq_some_iff.mp h
      exact continues_dot (ih hr)

/-- A name in quotes is read up to the quote that closes it. -/
theorem quote?_quoted_append {q : Char} {w : Text} (hq : q ∉ w) (t : Text) :
    quote? q quoted (w ++ q :: t) = (quote? q closed t).map (w ++ q :: ·) := by
  induction w with
  | nil => rw [List.nil_append, quote?, if_pos rfl]; rfl
  | cons c w ih =>
      rw [List.mem_cons, not_or] at hq
      rw [List.cons_append, quote?, if_neg (Ne.symm hq.1), ih hq.2, Option.map_map]
      rfl

/-- A name without quotes gets its closing quote where it ends. -/
theorem quote?_bare_eq_closed {q : Char} {t : Text} (hq : q ≠ '.') (ht : ∀ c ∈ t.head?, c = '.') :
    quote? q bare t = (quote? q closed t).map (q :: ·) := by
  cases t with
  | nil => rfl
  | cons c t =>
      cases ht c rfl
      rw [quote?, if_neg (Ne.symm hq), if_pos rfl, quote?, if_pos rfl, Option.map_map]
      rfl

theorem identifierQuote_ne_dot (d : Dialect) : d.identifierQuote ≠ '.' := by cases d <;> decide

/-- A segment is written in quotes, and what follows it is read behind it. -/
theorem quote?_segment {g t : Text} (hg : d.IsSegment g) (ht : ∀ c ∈ t.head?, c = '.') :
    quote? d.identifierQuote start (g ++ t) =
      (quote? d.identifierQuote closed t).map (d.quoteSegment g ++ ·) := by
  cases hg with
  | @quoted name hq =>
      rw [Dialect.quoteSegment_quoteName, Dialect.quoteName, List.cons_append, List.append_assoc,
        List.singleton_append, quote?, if_pos rfl, quote?_quoted_append hq, Option.map_map]
      simp only [Function.comp_def, List.cons_append, List.append_assoc, List.nil_append]
  | bare hn hd hq =>
      obtain ⟨c, w, rfl⟩ := List.exists_cons_of_ne_nil hn
      have unquoted : d.quoteSegment (c :: w) = d.quoteName (c :: w) :=
        if_neg fun first => hq (List.mem_of_mem_head? first)
      rw [List.mem_cons, not_or] at hd hq
      rw [unquoted, List.cons_append, quote?, if_neg (Ne.symm hq.1), if_neg (Ne.symm hd.1),
        quote?_bare_append hq.2 hd.2, quote?_bare_eq_closed (identifierQuote_ne_dot d) ht,
        Option.map_map, Option.map_map]
      simp only [Function.comp_def, Dialect.quoteName, List.cons_append, List.append_assoc,
        List.nil_append]

/-- Every path is quoted, segment by segment. -/
theorem quote?_path {segments : List Text} {t : Text} (h : d.IsPath segments t) :
    quote? d.identifierQuote start t =
      some (Text.joinWith ['.'] (segments.map d.quoteSegment)) := by
  induction h using Dialect.IsPath.induct with
  | single g hg =>
      have last := quote?_segment (t := []) hg (by simp)
      rw [List.append_nil] at last
      simp [last, quote?]
  | cons g segments t hg path ih =>
      rw [quote?_segment hg (by simp), quote?, if_pos rfl, ih, List.map_cons,
        Text.joinWith_cons (by simpa using path.nonempty)]
      simp

end PathState

namespace Dialect
variable {d : Dialect}

/-- A text is quoted strictly exactly if it is a path. -/
theorem quotePath_iff {t : Text} :
    (∃ r, d.quotePath t = .ok r) ↔ ∃ segments, d.IsPath segments (Text.trim t) := by
  rw [quotePath]
  constructor
  · rintro ⟨r, h⟩
    split at h
    · rename_i quoted hq
      exact PathState.reads_quote? hq
    · cases h
  · rintro ⟨segments, path⟩
    simp [PathState.quote?_path path]

theorem IsPath.quotePath_eq {segments : List Text} {t : Text}
    (h : d.IsPath segments (Text.trim t)) :
    d.quotePath t = .ok (Text.joinWith ['.'] (segments.map d.quoteSegment)) := by
  simp [quotePath, PathState.quote?_path h]

/-- Segments in quotes are a path again. -/
theorem IsPath.quoted {segments : List Text} {t : Text} (h : d.IsPath segments t) :
    d.IsPath (segments.map d.quoteSegment)
      (Text.joinWith ['.'] (segments.map d.quoteSegment)) := by
  refine ⟨by simpa using h.nonempty, List.forall_mem_map.mpr fun g hg => ?_, rfl⟩
  obtain ⟨w, hw, hq⟩ := (h.segment g hg).exists_quoteName
  exact hw ▸ .quoted hq

theorem IsPath.map_quoteSegment {segments : List Text} {t : Text} (h : d.IsPath segments t) :
    (segments.map d.quoteSegment).map d.quoteSegment = segments.map d.quoteSegment := by
  rw [List.map_map]
  refine List.map_congr_left fun g hg => ?_
  obtain ⟨w, hw, -⟩ := (h.segment g hg).exists_quoteName
  rw [Function.comp_apply, hw, quoteSegment_quoteName]

/-- What is written of a path begins and ends with a quote. -/
theorem IsPath.exists_enclosed {segments : List Text} {t : Text} (h : d.IsPath segments t) :
    ∃ body, Text.joinWith ['.'] (segments.map d.quoteSegment) =
      d.identifierQuote :: (body ++ [d.identifierQuote]) := by
  induction h using IsPath.induct with
  | single g hg =>
      obtain ⟨w, hw, -⟩ := hg.exists_quoteName
      exact ⟨w, hw⟩
  | cons g segments t hg path ih =>
      obtain ⟨w, hw, -⟩ := hg.exists_quoteName
      obtain ⟨body, hb⟩ := ih
      rw [List.map_cons, Text.joinWith_cons (by simpa using path.nonempty), hb, hw, quoteName]
      exact ⟨w ++ d.identifierQuote :: '.' :: d.identifierQuote :: body, by simp⟩

theorem IsPath.trim_quoted {segments : List Text} {t : Text} (h : d.IsPath segments t) :
    Text.trim (Text.joinWith ['.'] (segments.map d.quoteSegment)) =
      Text.joinWith ['.'] (segments.map d.quoteSegment) := by
  obtain ⟨body, hb⟩ := h.exists_enclosed
  rw [hb, Text.trim_enclosed d.isWhite_identifierQuote d.isWhite_identifierQuote]

end Dialect

namespace Token
variable {d : Dialect}

theorem ofText_quoteName {w : Text} (h : d.identifierQuote ∉ w) (t : Text) :
    ofText d (d.quoteName w ++ t) = quoted (d.quoteName w) :: ofText d t := by
  rw [ofText, Piece.ofText_literal (Piece.literal?_quoteName h t)]
  rfl

theorem ofText_dot (t : Text) : ofText d ('.' :: t) = symbol '.' :: ofText d t := by
  have plain : d.isQuote '.' = false := by cases d <;> decide
  rw [ofText, Piece.ofText_char t plain]
  rfl

/-- A quoted path has its segments and the dots between them for tokens. -/
theorem ofText_path {segments : List Text} {t : Text} (h : d.IsPath segments t) (b : Text) :
    ofText d (Text.joinWith ['.'] (segments.map d.quoteSegment) ++ b) =
      ((segments.map d.quoteSegment).map quoted).intersperse (symbol '.') ++ ofText d b := by
  induction h using Dialect.IsPath.induct with
  | single g hg =>
      obtain ⟨w, hw, hq⟩ := hg.exists_quoteName
      simp [hw, ofText_quoteName hq]
  | cons g segments t hg path ih =>
      obtain ⟨w, hw, hq⟩ := hg.exists_quoteName
      rw [List.map_cons, Text.joinWith_cons (by simpa using path.nonempty), hw, List.append_assoc,
        List.append_assoc, ofText_quoteName hq, List.singleton_append, ofText_dot, ih]
      obtain ⟨g', segments, rfl⟩ := List.exists_cons_of_ne_nil path.nonempty
      simp

/-- A text that begins with a quote begins with no word and no blanks. -/
theorem head?_ofText_of_quote {q : Char} (hq : d.isQuote q = true) (t : Text) (u : Token)
    (hu : (ofText d (q :: t)).head? = some u) : u.isWord = false ∧ u.isSpace = false := by
  cases hl : d.literal? (q :: t) with
  | none =>
      rw [ofText, Piece.ofText_stray hq hl] at hu
      cases hu
      exact ⟨rfl, rfl⟩
  | some r =>
      obtain ⟨lit, rest⟩ := r
      have made := Dialect.literal?_append hl
      rw [← made] at hl hu
      rw [ofText, Piece.ofText_literal hl] at hu
      cases hu
      exact ⟨rfl, rfl⟩

/-- Behind closed literals a text that begins with an identifier quote is read on its own. -/
theorem ofText_append_of_quote {a : Text} (ha : d.Closed a) (t : Text) :
    ofText d (a ++ d.identifierQuote :: t) = ofText d a ++ ofText d (d.identifierQuote :: t) := by
  have lexed := (Piece.lexed_ofText d a).append_of_quote
    (Piece.lexed_ofText d (d.identifierQuote :: t)) ha fun c hc _ => by
      rw [Piece.textOf_ofText] at hc
      exact (Option.some.inj hc).symm
  have pieces := lexed.ofText_textOf
  rw [Piece.textOf_append, Piece.textOf_ofText, Piece.textOf_ofText] at pieces
  rw [ofText, pieces]
  refine ofPieces_append fun p _ => standsApart_of_head p (head?_ofText_of_quote ?_ t)
  exact Dialect.isQuote_iff.mpr ⟨_, Dialect.escapeOf?_identifierQuote⟩

end Token

/-- Strict quoting takes paths and nothing else. It puts the segments of a path in identifier
quotes, leaves what it has written as it is, and behind closed literals what is written has one
quoted token for each segment and a dot between two of them, whatever stands behind it. -/
theorem quoteIdentifier_strict (s : Settings) (t : Text) :
    ((∃ r, quoteIdentifier s .strict t = .ok r) ↔
        ∃ segments, s.dialect.IsPath segments (Text.trim t)) ∧
      ∀ segments, s.dialect.IsPath segments (Text.trim t) →
        ∃ r, r = Text.joinWith ['.'] (segments.map s.dialect.quoteSegment) ∧
          quoteIdentifier s .strict t = .ok r ∧ quoteIdentifier s .strict r = .ok r ∧
          ∀ a b, s.dialect.Closed a → Token.ofText s.dialect (a ++ (r ++ b)) =
            Token.ofText s.dialect a ++
              (((segments.map s.dialect.quoteSegment).map Token.quoted).intersperse (.symbol '.') ++
                Token.ofText s.dialect b) := by
  refine ⟨Dialect.quotePath_iff, fun segments path => ⟨_, rfl, path.quotePath_eq, ?_, ?_⟩⟩
  · have again := path.quoted
    rw [← path.trim_quoted] at again
    have kept := again.quotePath_eq
    rwa [path.map_quoteSegment] at kept
  · intro a b closed
    obtain ⟨body, enclosed⟩ := path.exists_enclosed
    rw [← Token.ofText_path path, enclosed, List.cons_append, Token.ofText_append_of_quote closed]

/-- A path whose first segment is in quotes, with a dot in them, and whose second is a bare word of
any characters, behind an identifier and in front of a quote that opens nothing. -/
theorem quoteIdentifier_strict_mysql :
    Dialect.mysql.IsPath ["`a.b`".toList, "c-d 'e".toList] (Text.trim " `a.b`.c-d 'e ".toList) ∧
      Dialect.mysql.Closed "x`y`".toList ∧
      quoteIdentifier { } .strict " `a.b`.c-d 'e ".toList = .ok "`a.b`.`c-d 'e`".toList ∧
      quoteIdentifier { } .strict "`a.b`.`c-d 'e`".toList = .ok "`a.b`.`c-d 'e`".toList ∧
      Token.ofText .mysql "x`y``a.b`.`c-d 'e``z".toList =
        Token.ofText .mysql "x`y`".toList ++ ([.quoted "`a.b`".toList, .symbol '.',
          .quoted "`c-d 'e`".toList] ++ Token.ofText .mysql "`z".toList) := by
  have path : Dialect.mysql.IsPath ["`a.b`".toList, "c-d 'e".toList]
      (Text.trim " `a.b`.c-d 'e ".toList) := by
    refine ⟨by simp, List.forall_mem_cons.mpr ⟨?_, List.forall_mem_singleton.mpr ?_⟩, rfl⟩
    · exact .quoted (by decide : Dialect.mysql.identifierQuote ∉ "a.b".toList)
    · exact .bare (by decide) (by decide) (by decide)
  have closed : Dialect.mysql.Closed "x`y`".toList := by decide +kernel
  obtain ⟨r, rfl, taken, kept, tokens⟩ := (quoteIdentifier_strict { } _).2 _ path
  exact ⟨path, closed, taken, kept, tokens "x`y`".toList "`z".toList closed⟩

end SqlStatement
