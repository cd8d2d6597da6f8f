import Mathlib.Data.Nat.Notation
import Mathlib.Tactic.Basic

/-! Looking up entries of a list that grows at its end and has entries replaced.

    The shape of a table of threads: `l ++ [a]` when one starts, `l.set k a` when one moves. -/

namespace Schemes

variable {α : Type*} {l : List α} {a b : α} {k k' : ℕ}

theorem getElem?_concat_some (h : (l ++ [a])[k]? = some b) :
    l[k]? = some b ∨ (k = l.length ∧ b = a) := by
  rcases Nat.lt_trichotomy k l.length with hlt | rfl | hgt
  · rw [List.getElem?_append_left hlt] at h
    exact Or.inl h
  · rw [List.getElem?_concat_length, Option.some.injEq] at h
    exact Or.inr ⟨rfl, h.symm⟩
  · rw [List.getElem?_eq_none (by rw [List.length_append, List.length_singleton]; omega)] at h
    exact absurd h (by simp)

theorem lt_of_getElem?_some (h : l[k]? = some a) : k < l.length :=
  (List.getElem?_eq_some_iff.mp h).1

theorem getElem?_set_some (h : (l.set k a)[k']? = some b) :
    (k' = k ∧ b = a) ∨ (k' ≠ k ∧ l[k']? = some b) := by
  rw [List.getElem?_set] at h
  split at h
  · rename_i he
    split at h
    · exact Or.inl ⟨he.symm, (Option.some.inj h).symm⟩
    · exact absurd h (by simp)
  · rename_i hne
    exact Or.inr ⟨fun he => hne he.symm, h⟩

theorem getElem?_set_self_some (h : l[k]? = some b) : (l.set k a)[k]? = some a := by
  simp [lt_of_getElem?_some h]

theorem set_self_of_some (h : l[k]? = some a) : l.set k a = l := by
  obtain ⟨hlt, rfl⟩ := List.getElem?_eq_some_iff.mp h
  exact List.set_getElem_self hlt

end Schemes
