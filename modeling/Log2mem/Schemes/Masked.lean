import Mathlib.Data.Nat.Size
import Log2mem.Schemes.Word

/-! Consecutive numbers under a mask that need not be one below a power of two.

    Masking keeps some of the low bits. Whatever number the counting starts from, `M + 1` numbers in a
    row take every value the mask `M` can give: the wanted value is met at `v`, and once more where
    the bits missing from the mask are filled in, and one of the two lies near enough.

        lowest, lowest + 1, …, lowest + M   ──&&& M──▶   all of { x &&& M } -/

namespace Schemes

theorem and_eq_of_mod_eq {x y M b : ℕ} (hM : M < 2 ^ b) (h : x % 2 ^ b = y % 2 ^ b) :
    x &&& M = y &&& M := by
  have hlow : ∀ z : ℕ, z &&& M = z % 2 ^ b &&& M := fun z => by
    rw [← Nat.and_two_pow_sub_one_eq_mod, Nat.and_assoc, Nat.and_comm (2 ^ b - 1),
      Nat.and_two_pow_sub_one_eq_mod, Nat.mod_eq_of_lt hM]
  rw [hlow x, hlow y, h]

theorem add_eq_or {a b : ℕ} (h : a &&& b = 0) : a + b = a ||| b := by
  have hlt : ∀ n ≤ a + b, n < 2 ^ (a + b) := fun n hn => lt_of_le_of_lt hn Nat.lt_two_pow_self
  have hadd := BitVec.add_eq_or_of_and_eq_zero (BitVec.ofNat (a + b) a) (BitVec.ofNat (a + b) b)
    (by rw [← BitVec.ofNat_and, h])
  have hnat := congrArg BitVec.toNat hadd
  rw [BitVec.toNat_add, BitVec.toNat_or, BitVec.toNat_ofNat, BitVec.toNat_ofNat,
    Nat.mod_eq_of_lt (hlt a (by omega)), Nat.mod_eq_of_lt (hlt b (by omega)),
    Nat.mod_eq_of_lt (hlt (a + b) (le_refl _))] at hnat
  exact hnat

/-- Filling in the bits that are missing from the mask does not change what the mask keeps. -/
theorem add_complement_and {v M b : ℕ} (hM : M < 2 ^ b) (hv : v &&& M = v) :
    (v + (2 ^ b - (M + 1))) &&& M = v := by
  have hbit : ∀ i, (2 ^ b - (M + 1)).testBit i = (decide (i < b) && !M.testBit i) := fun i =>
    Nat.testBit_two_pow_sub_succ hM i
  have hdisj : v &&& (2 ^ b - (M + 1)) = 0 := by
    refine Nat.eq_of_testBit_eq fun i => ?_
    rw [← hv, Nat.testBit_and, Nat.testBit_and, hbit, Nat.zero_testBit]
    cases M.testBit i <;> simp
  have hzero : (2 ^ b - (M + 1)) &&& M = 0 := by
    refine Nat.eq_of_testBit_eq fun i => ?_
    rw [Nat.testBit_and, hbit, Nat.zero_testBit]
    cases M.testBit i <;> simp
  rw [add_eq_or hdisj, Nat.and_or_distrib_right, hv, hzero, Nat.or_zero]

/-- MASKED: any `M + 1` consecutive numbers take every value of the mask `M`. -/
theorem exists_masked (lowest : ℕ) {v M : ℕ} (hv : v &&& M = v) :
    ∃ i ≤ M, (lowest + i) &&& M = v := by
  have hM : M < 2 ^ M.size := Nat.lt_size_self M
  have hhalf : 2 ^ M.size ≤ 2 * M + 1 := by
    rcases Nat.eq_zero_or_pos M with rfl | hpos
    · simp
    · have hlow : 2 ^ (M.size - 1) ≤ M := Nat.lt_size.mp (by have := Nat.size_pos.mpr hpos; omega)
      have : 2 ^ M.size = 2 * 2 ^ (M.size - 1) := by
        rw [← Nat.pow_succ', Nat.succ_eq_add_one, Nat.sub_add_cancel (Nat.size_pos.mpr hpos)]
      omega
  have hvle : v ≤ M := by
    rw [← hv]
    exact Nat.and_le_right
  generalize hB : 2 ^ M.size = B at hM hhalf
  have hmod := Nat.mod_lt lowest (show 0 < B by omega)
  have hdiv := Nat.div_add_mod lowest B
  -- the distance from `lowest` up to the next number that agrees with `v` on the low bits
  obtain ⟨d, hd, q, hq⟩ : ∃ d < B, ∃ q, lowest + d = v + B * q := by
    rcases Nat.lt_or_ge v (lowest % B) with hlt | hge
    · refine ⟨v + B - lowest % B, by omega, lowest / B + 1, ?_⟩
      rw [Nat.mul_add]
      omega
    · exact ⟨v - lowest % B, by omega, lowest / B, by omega⟩
  rcases Nat.lt_or_ge M d with hlt | hge
  · -- too far: the same value with the missing bits filled in comes sooner
    have hq0 : 0 < q := by
      rcases Nat.eq_zero_or_pos q with rfl | hpos
      · omega
      · exact hpos
    obtain ⟨q', rfl⟩ : ∃ q', q = q' + 1 := ⟨q - 1, by omega⟩
    rw [Nat.mul_add] at hq
    refine ⟨d - (M + 1), by omega, ?_⟩
    rw [← add_complement_and (b := M.size) (by omega) hv, hB]
    refine and_eq_of_mod_eq (b := M.size) (by omega) ?_
    rw [hB, show lowest + (d - (M + 1)) = v + (B - (M + 1)) + B * q' by omega,
      Nat.add_mul_mod_self_left]
  · refine ⟨d, hge, ?_⟩
    conv_rhs => rw [← hv]
    refine and_eq_of_mod_eq (b := M.size) (by omega) ?_
    rw [hB, hq, Nat.add_mul_mod_self_left]

end Schemes
