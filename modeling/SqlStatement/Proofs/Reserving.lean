import SqlStatement.Proofs.Confining
import SqlStatement.Proofs.Dotting

/-!
# Texts without reserved words

Only words that stand bare in a text can end its part or get a meaning there. So
a text keeps to itself if it leaves no quote open and has, outside of literals
and quoted names, neither a semicolon nor the sign of a marker nor one of the
words that a phrase begins with or that are barred where the text goes. What
strict quoting writes has no bare words at all.
-/
namespace SqlStatement
open Token
variable {d : Dialect} {limit : Nat} {phrases words barred : List Phrase} {t : Text}

/-- Without the sign of a marker there is no marker. -/
theorem Token.markless_of_sign (hs : symbol '#' ∉ ofText d t) : Markless d (ofText d t) := by
  rw [Markless, piecesOf_ofText, (Piece.lexed_ofText d t).unveil_eq, ← piecesOf_ofText]
  intro marked
  obtain ⟨u, hu, sign⟩ := List.mem_flatMap.mp (marked.subset (by decide : Piece.char '#' ∈ _))
  have proper := (tidy_ofText d t).proper u hu
  cases u with
  | word w | space b =>
      obtain ⟨c, hc, he⟩ := List.mem_map.mp sign
      cases he
      exact absurd (proper.2 _ hc) (by decide)
  | symbol c =>
      cases List.mem_singleton.mp sign
      exact hs hu
  | quoted | unterminated => simp [pieces] at sign

theorem isModifier_mono (h : words ⊆ barred) {u : Token} (hu : isModifier words u = true) :
    isModifier barred u = true := by
  obtain ⟨k, w, hk, rfl, hw⟩ := isModifier_iff.mp hu
  exact isModifier_iff.mpr ⟨k, w, h hk, rfl, hw⟩

/-- A text with nothing open and, outside of literals, no semicolon, no sign of a marker and none
of several words. -/
def Unreserved (d : Dialect) (barred : List Phrase) (t : Text) : Prop :=
  ∀ u ∈ ofText d t,
    u.isClosed = true ∧ u ∉ [symbol ';', symbol '#'] ∧ isModifier barred u = false

instance (d : Dialect) (barred : List Phrase) (t : Text) : Decidable (Unreserved d barred t) :=
  inferInstanceAs (Decidable (∀ u ∈ ofText d t, _))

namespace Unreserved
variable (h : Unreserved d barred t)
include h

theorem mono (hw : words ⊆ barred) : Unreserved d words t := by
  intro u hu
  obtain ⟨closed, plain, other⟩ := h u hu
  refine ⟨closed, plain, ?_⟩
  by_contra bare
  rw [isModifier_mono hw (by simpa using bare)] at other
  cases other

theorem unled {ts : List Token} (hs : ts ⊆ ofText d t) : Unled barred ts := by
  rw [Unled]
  cases first : (ts.dropWhile Token.isSlack).head? with
  | none => rfl
  | some u =>
      have inside := (List.dropWhile_sublist _).subset (List.mem_of_mem_head? first)
      exact (h u (hs inside)).2.2

/-- Without the word SELECT there is no subquery. -/
theorem isSealed (limit : Nat) (hs : ["SELECT"] ∈ barred) :
    d.veil t = ofText d t ∧ Sealed d limit (ofText d t) := by
  have legible := legible_ofText d t
  have shut : Shut (ofText d t) := by
    intro us hu
    have behind : us ⊆ ofText d t := fun u hm => hu.subset (List.mem_cons_of_mem _ hm)
    have select : Unreserved d [["SELECT"]] t := h.mono (by simpa using hs)
    exact (select.unled behind).selects_eq_false
  have veil := (legible.veil_textOf (shut.veiled legible)).1
  rw [textOf_ofText] at veil
  refine ⟨veil, legible, shut, markless_of_sign fun sign => ?_, fun x hx => ?_⟩
  · have := (h _ sign).2.1
    simp at this
  · rw [Nesting.ofText, ofText_of_quoted_mem hx]
    exact Nat.zero_le _

/-- A text without reserved words keeps to itself. -/
theorem contained (hs : ["SELECT"] ∈ barred) (hw : words ⊆ barred)
    (hp : ∀ p ∈ phrases, ∀ k ∈ p.head?, [k] ∈ barred) : Contained d limit phrases words t := by
  obtain ⟨veil, whole⟩ := h.isSealed limit hs
  refine ⟨?_, ?_, ?_, ?_, ?_⟩ <;> rw [veil]
  · exact whole
  · exact fun u hu => (h u hu).1
  · intro p hp' front spelled behind ht he
    obtain ⟨k, ks, w, us, rfl, rfl, hk⟩ := ht.head
    have bare := (h (.word w) (by rw [he]; simp)).2.2
    rw [isModifier_iff.mpr ⟨k, w, hp _ hp' k rfl, rfl, hk⟩] at bare
    cases bare
  · exact (h.mono hw).unled (List.Subset.refl _)
  · intro hm
    have := (h _ hm).2.1
    simp at this

theorem finished (hs : ["SELECT"] ∈ barred) (hi : Phrase.inits phrases ⊆ barred) :
    Finished phrases (d.veil t) := by
  rw [(h.isSealed 0 hs).1]
  exact (h.mono hi).unled fun u hu => List.mem_reverse.mp hu

end Unreserved

/-- The words that must not stand bare in a text for a part: SELECT, those with which the phrases
begin that may follow, those that are barred in front of the part, and in tables all those behind
which such a phrase goes on. -/
def Dialect.reserved (d : Dialect) (phrases : List Phrase) (key : String) : List Phrase :=
  ["SELECT"] :: (phrases.map (·.take 1) ++ d.barred key ++
    if key = "from" then Phrase.inits phrases else [])

theorem Confined.of_unreserved {key : String} (h : Unreserved d (d.reserved phrases key) t) :
    Confined d limit phrases key t := by
  have select : ["SELECT"] ∈ d.reserved phrases key := List.mem_cons_self ..
  refine ⟨h.contained select (fun p hp => by simp [Dialect.reserved, hp]) fun p hp k hk => ?_,
    fun from_ => h.finished select fun p hp => by simp [Dialect.reserved, from_, hp]⟩
  have first : p.take 1 = [k] := by
    obtain ⟨ks, rfl⟩ := List.head?_eq_some_iff.mp hk
    rfl
  exact List.mem_cons_of_mem _ (List.mem_append_left _ (List.mem_append_left _
    (first ▸ List.mem_map_of_mem hp)))

/-- What strict quoting writes has no bare words but those that stand behind it. -/
theorem unreserved_quotePath {name quoted rest : Text} (hq : d.quotePath name = .ok quoted)
    (hr : Unreserved d barred rest) : Unreserved d barred (quoted ++ rest) := by
  have segment {w rest : Text} (hw : d.identifierQuote ∉ w) (hr : Unreserved d barred rest) :
      Unreserved d barred (d.quoteName w ++ rest) := by
    rw [Unreserved, ofText_quoteName hw]
    exact List.forall_mem_cons.mpr ⟨⟨rfl, by simp, isModifier_eq_false rfl⟩, hr⟩
  obtain ⟨segments, path⟩ := Dialect.quotePath_iff.mp ⟨_, hq⟩
  cases hq.symm.trans path.quotePath_eq
  clear hq
  generalize Text.trim name = u at path
  induction path using Dialect.IsPath.induct with
  | single g hg =>
      obtain ⟨w, he, hw⟩ := hg.exists_quoteName
      simpa [he] using segment hw hr
  | cons g segments t hg path ih =>
      obtain ⟨w, he, hw⟩ := hg.exists_quoteName
      rw [List.map_cons, Text.joinWith_cons (by simpa using path.nonempty), he, List.append_assoc,
        List.append_assoc, List.singleton_append]
      refine segment hw ?_
      rw [Unreserved, ofText_dot]
      exact List.forall_mem_cons.mpr ⟨⟨rfl, by simp, isModifier_eq_false rfl⟩, ih⟩

namespace Confined
variable {key : String} {u : Text}

/-- Tables that may be written may be written with a blank between them. -/
theorem append_space (h : Confined d limit phrases "from" t)
    (h' : Confined d limit phrases "from" u) : Confined d limit phrases "from" (t ++ ' ' :: u) := by
  obtain ⟨whole, ends⟩ := h.contained.append_cons (c := ' ') h'.contained (by simp)
    (fun _ => h'.contained.unled.selects_eq_false) fun _ _ => h.finished rfl
  exact ⟨whole, fun _ => ends (fun _ => h.finished rfl) (h'.finished rfl)⟩

/-- Names in strict quotes, each with the same words behind it. -/
theorem listed {s : Settings} {o : PartOptions} {suffix : Text} {names : List Text}
    (ho : o.quote = some .strict) (hk : key ≠ "from")
    (hs : Unreserved s.dialect (s.dialect.reserved phrases key) suffix)
    (h : Change.listed s o suffix names = .ok t) : Confined s.dialect limit phrases key t := by
  obtain ⟨quoted, hq, h⟩ := bind_eq_ok_iff.mp h
  cases h
  refine ⟨Addition.contained_list fun w hw => ?_, fun tables => absurd tables hk⟩
  obtain ⟨name, -, hn⟩ := exists_of_mem_mapM hq w hw
  obtain ⟨path, hp, hn⟩ := bind_eq_ok_iff.mp hn
  cases hn
  rw [ho] at hp
  exact (of_unreserved (unreserved_quotePath hp hs)).contained

end Confined
end SqlStatement
