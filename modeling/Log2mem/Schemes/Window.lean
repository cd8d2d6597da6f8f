import Mathlib.Data.Nat.ModEq
import Mathlib.Data.List.Nodup
import Mathlib.Tactic.Linarith

/-! The last `N` of `n` numbered items, and the slots they occupy in a ring of `N`.

    Item `k` lives in slot `k % N`. The retained items `n - N ≤ k < n` never share a slot, every slot
    of a full ring holds exactly one of them, and walking `N` consecutive numbers from the oldest one
    meets them in order. -/

namespace Schemes

/-- Item `k` is one of the last `N` of the `n` items so far. -/
def Retained (N n k : ℕ) : Prop := k < n ∧ n ≤ k + N

instance (N n k : ℕ) : Decidable (Retained N n k) := inferInstanceAs (Decidable (_ ∧ _))

/-- The retained items, oldest first. -/
def window (N n : ℕ) : List ℕ := List.range' (n - N) (min n N)

theorem mem_window {N n k : ℕ} : k ∈ window N n ↔ Retained N n k := by
  rw [window, List.mem_range'_1, Retained]
  omega

theorem window_length (N n : ℕ) : (window N n).length = min n N := by simp [window]

/-- Retained items in one slot are one item. -/
theorem Retained.slot_inj {N n k k' : ℕ} (hk : Retained N n k) (hk' : Retained N n k')
    (h : k % N = k' % N) : k = k' := by
  obtain ⟨h1, h2⟩ := hk
  obtain ⟨h3, h4⟩ := hk'
  have hmod : k ≡ k' [MOD N] := h
  rcases Nat.le_total k k' with hle | hle
  · have := Nat.eq_zero_of_dvd_of_lt ((Nat.modEq_iff_dvd' hle).mp hmod) (by omega)
    omega
  · have := Nat.eq_zero_of_dvd_of_lt ((Nat.modEq_iff_dvd' hle).mp hmod.symm) (by omega)
    omega

theorem window_slots_nodup (N n : ℕ) : ((window N n).map (· % N)).Nodup := by
  refine (List.nodup_map_iff_inj_on (List.nodup_range' 1)).mpr fun k hk k' hk' h => ?_
  exact Retained.slot_inj (mem_window.mp hk) (mem_window.mp hk') h

theorem exists_window_slot {N n j : ℕ} (hj : j < N) (hn : j < n) : ∃ k ∈ window N n, k % N = j := by
  have hmod : (n - 1 - j) % N < N := Nat.mod_lt _ (by omega)
  have hle : (n - 1 - j) % N ≤ n - 1 - j := Nat.mod_le ..
  have hdiv := Nat.mod_add_div (n - 1 - j) N
  refine ⟨n - 1 - (n - 1 - j) % N, mem_window.mpr ⟨by omega, by omega⟩, ?_⟩
  have he : n - 1 - (n - 1 - j) % N = j + N * ((n - 1 - j) / N) := by omega
  rw [he, Nat.add_mul_mod_self_left, Nat.mod_eq_of_lt hj]

end Schemes
