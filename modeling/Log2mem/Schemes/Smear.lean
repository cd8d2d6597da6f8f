import Mathlib.Data.Nat.Size
import Mathlib.Data.Nat.Bitwise
import Mathlib.Order.Bounds.Basic

/-! Bit smearing: filling in every bit below the highest one.

    `y` covers `x` with reach `w` when bit `i` of `y` says whether one of the bits `i … i + w - 1` of
    `x` is set. Or-ing in a shift by `s ≤ w` extends the reach to `w + s`, so doubling shifts reach a
    whole word in logarithmically many steps; a full reach leaves `2 ^ size x - 1`. -/

namespace Schemes

/-- Bit `i` of `y` is set iff some bit of `x` in `[i, i + w)` is. -/
def Covers (w x y : ℕ) : Prop := ∀ i, y.testBit i = true ↔ ∃ k < w, x.testBit (i + k) = true

theorem Covers.refl (x : ℕ) : Covers 1 x x := fun i => by
  constructor
  · intro h; exact ⟨0, by omega, h⟩
  · rintro ⟨k, hk, h⟩
    obtain rfl : k = 0 := by omega
    exact h

/-- One smearing step: or in a shift no longer than the reach. -/
theorem Covers.smear {w x y : ℕ} (h : Covers w x y) {s : ℕ} (hs : s ≤ w) :
    Covers (w + s) x (y ||| y >>> s) := fun i => by
  rw [Nat.testBit_or, Nat.testBit_shiftRight, Bool.or_eq_true, h i, Nat.add_comm s i, h (i + s)]
  constructor
  · rintro (⟨k, hk, hb⟩ | ⟨k, hk, hb⟩)
    · exact ⟨k, by omega, hb⟩
    · exact ⟨s + k, by omega, by rw [← Nat.add_assoc]; exact hb⟩
  · rintro ⟨k, hk, hb⟩
    by_cases hkw : k < w
    · exact Or.inl ⟨k, hkw, hb⟩
    · refine Or.inr ⟨k - s, by omega, ?_⟩
      rw [show i + s + (k - s) = i + k by omega]
      exact hb

theorem Covers.eq_size {w x y : ℕ} (h : Covers w x y) (hx : x < 2 ^ w) : y = 2 ^ x.size - 1 := by
  refine Nat.eq_of_testBit_eq fun i => ?_
  rw [Nat.testBit_two_pow_sub_one, Bool.eq_iff_iff, h i, decide_eq_true_iff, Nat.lt_size]
  constructor
  · rintro ⟨k, _, hb⟩
    exact le_trans (Nat.pow_le_pow_right (by omega) (Nat.le_add_right i k)) (Nat.ge_two_pow_of_testBit hb)
  · intro hi
    obtain ⟨j, hj, hb⟩ := Nat.exists_ge_and_testBit_of_ge_two_pow hi
    have hjw : j < w := (Nat.pow_lt_pow_iff_right (by omega)).mp
      (lt_of_le_of_lt (Nat.ge_two_pow_of_testBit hb) hx)
    exact ⟨j - i, by omega, by rw [show i + (j - i) = j by omega]; exact hb⟩

/-- `2 ^ size (v - 1)` is the least power of two that is at least `v`. -/
theorem le_two_pow_size_pred (v : ℕ) : v ≤ 2 ^ (v - 1).size := by
  have := Nat.lt_size_self (v - 1)
  omega

theorem size_pred_le {v b : ℕ} (hv : 1 ≤ v) (h : v ≤ 2 ^ b) : (v - 1).size ≤ b :=
  Nat.size_le.mpr (by omega)

theorem isLeast_two_pow {v : ℕ} (hv : 1 ≤ v) :
    IsLeast {p | (∃ b, p = 2 ^ b) ∧ v ≤ p} (2 ^ (v - 1).size) := by
  refine ⟨⟨⟨_, rfl⟩, le_two_pow_size_pred v⟩, ?_⟩
  rintro p ⟨⟨b, rfl⟩, hle⟩
  exact Nat.pow_le_pow_right (by omega) (size_pred_le hv hle)

theorem two_pow_size_pred_lt {v : ℕ} (hv : 1 ≤ v) : 2 ^ (v - 1).size < 2 * v := by
  rcases Nat.eq_zero_or_pos (v - 1).size with h0 | hpos
  · rw [h0]
    omega
  · have hhalf : 2 ^ ((v - 1).size - 1) ≤ v - 1 := Nat.lt_size.mp (by omega)
    have hdouble : 2 ^ (v - 1).size = 2 * 2 ^ ((v - 1).size - 1) := by
      rw [← Nat.pow_succ', Nat.succ_eq_add_one, Nat.sub_add_cancel hpos]
    omega

end Schemes
