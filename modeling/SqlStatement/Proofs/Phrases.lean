import Mathlib.Tactic.Common
import SqlStatement.Phrase

/-!
# Phrases in tokens

Tokens spell a phrase if they are its words with runs of blanks between them.
A phrase is found in front of tokens exactly if they start with a spelling of
it.
-/
namespace SqlStatement

namespace Phrase

/-- Tokens that are the words of a phrase with blanks between them. -/
def Spells : Phrase → List Token → Prop
  | [k], [.word w] => Text.isKeyword k w = true
  | k :: k' :: ks, .word w :: .space _ :: ts =>
      Text.isKeyword k w = true ∧ Spells (k' :: ks) ts
  | _, _ => False

theorem after?_eq_some {p : Phrase} {ts us : List Token} (h : p.after? ts = some us) :
    ∃ t, p.Spells t ∧ ts = t ++ us := by
  fun_induction after? p ts with
  | case1 => simp at h
  | case2 k w ts hk =>
      cases h
      exact ⟨[.word w], hk, rfl⟩
  | case3 => simp at h
  | case4 k k' ks w b ts hk ih =>
      obtain ⟨t, ht, rfl⟩ := ih h
      exact ⟨.word w :: .space b :: t, ⟨hk, ht⟩, rfl⟩
  | case5 => simp at h
  | case6 => simp at h

theorem after?_append {p : Phrase} {t : List Token} (h : p.Spells t) (us : List Token) :
    p.after? (t ++ us) = some us := by
  fun_induction Spells p t with
  | case1 k w => simp [after?, h]
  | case2 k k' ks w b ts ih => simp [after?, h.1, ih h.2]
  | case3 => exact h.elim

theorem Spells.ne_nil {p : Phrase} {t : List Token} (h : p.Spells t) : t ≠ [] := by
  rintro rfl
  unfold Spells at h
  split at h <;> simp_all

/-- A spelling begins with the first word of the phrase. -/
theorem Spells.head {p : Phrase} {t : List Token} (h : p.Spells t) :
    ∃ k ks w us, p = k :: ks ∧ t = .word w :: us ∧ Text.isKeyword k w = true := by
  fun_cases Spells p t with
  | case1 k w => exact ⟨k, [], w, [], rfl, rfl, by simpa [Spells] using h⟩
  | case2 k k' ks w b ts => exact ⟨k, k' :: ks, w, _, rfl, rfl, by simpa [Spells] using h.1⟩
  | case3 => simp_all [Spells]

/-- A spelling has only words of the phrase and blanks. -/
theorem Spells.mem {p : Phrase} {t : List Token} (h : p.Spells t) {u : Token} (hu : u ∈ t) :
    u.isSpace = true ∨ ∃ k ∈ p, ∃ w, u = .word w ∧ Text.isKeyword k w = true := by
  fun_induction Spells p t with
  | case1 k w =>
      rw [List.mem_singleton] at hu
      exact .inr ⟨k, by simp, w, hu, h⟩
  | case2 k k' ks w b ts ih =>
      simp only [List.mem_cons] at hu
      rcases hu with rfl | rfl | hu
      · exact .inr ⟨k, by simp, w, rfl, h.1⟩
      · exact .inl rfl
      · rcases ih h.2 hu with hs | ⟨k, hk, hw⟩
        · exact .inl hs
        · exact .inr ⟨k, by simp [hk], hw⟩
  | case3 => exact h.elim

theorem afterAny?_eq_some {phrases : List Phrase} {ts us : List Token}
    (h : afterAny? phrases ts = some us) :
    ∃ p ∈ phrases, ∃ t, p.Spells t ∧ ts = t ++ us := by
  obtain ⟨p, hp, hs⟩ := List.exists_of_findSome?_eq_some h
  exact ⟨p, hp, after?_eq_some hs⟩

theorem startsAny_iff {phrases : List Phrase} {ts : List Token} :
    startsAny phrases ts = true ↔ ∃ p ∈ phrases, ∃ t, p.Spells t ∧ t <+: ts := by
  constructor
  · intro h
    obtain ⟨us, hu⟩ := Option.isSome_iff_exists.mp h
    obtain ⟨p, hp, t, ht, rfl⟩ := afterAny?_eq_some hu
    exact ⟨p, hp, t, ht, List.prefix_append t us⟩
  · rintro ⟨p, hp, t, ht, us, rfl⟩
    rw [startsAny, afterAny?, List.findSome?_isSome_iff]
    exact ⟨p, hp, by rw [after?_append ht]; rfl⟩

end Phrase
end SqlStatement
