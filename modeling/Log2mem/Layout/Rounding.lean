import Log2mem.Layout.Config

/-! What `round_up_next_power_of_2_uint` computes, over the whole 32-bit range.

    Between 1 and `2 ^ 31` it is the least power of two that is not below its argument, so one less than
    it is a mask; at 0 and above `2 ^ 31` the decrement or the increment wraps and it is 0.

        v        0   1   2   3   4   5   …   2³¹   2³¹ + 1   …   2³² - 1
        result   0   1   2   4   4   8   …   2³¹   0         …   0       -/

namespace Log2mem
open Schemes

section Rounding
variable {v w : UInt32}

theorem roundUp_isLeast (h0 : 1 ≤ v.toNat) (h1 : v.toNat ≤ 2 ^ 31) :
    IsLeast {p | (∃ b, p = 2 ^ b) ∧ v.toNat ≤ p} (roundUpNextPowerOf2Uint v).toNat := by
  rw [roundUp_toNat_of_le h0 h1]
  exact isLeast_two_pow h0

theorem roundUp_lt_two_mul (h0 : 1 ≤ v.toNat) (h1 : v.toNat ≤ 2 ^ 31) :
    (roundUpNextPowerOf2Uint v).toNat < 2 * v.toNat := by
  rw [roundUp_toNat_of_le h0 h1]
  exact two_pow_size_pred_lt h0

theorem roundUp_of_pow2 {b : ℕ} (hb : b ≤ 31) (hv : v.toNat = 2 ^ b) : roundUpNextPowerOf2Uint v = v := by
  have h0 : 1 ≤ v.toNat := by
    rw [hv]
    exact Nat.one_le_two_pow
  have h1 : v.toNat ≤ 2 ^ 31 := by
    rw [hv]
    exact Nat.pow_le_pow_right (by omega) hb
  obtain ⟨⟨-, hge⟩, hleast⟩ := roundUp_isLeast h0 h1
  exact UInt32.toNat_inj.mp (le_antisymm (hleast ⟨⟨b, hv⟩, le_refl _⟩) hge)

/-- The rounding is done once: rounding its own result changes nothing, 0 included. -/
theorem roundUp_roundUp (v : UInt32) :
    roundUpNextPowerOf2Uint (roundUpNextPowerOf2Uint v) = roundUpNextPowerOf2Uint v := by
  rcases roundUp_cases v with ⟨b, hb, he⟩ | h0
  · exact roundUp_of_pow2 hb he
  · rw [h0]
    exact roundUp_eq_zero (Or.inl rfl)

/-- MASK: one less than the result keeps the residue modulo the result. -/
theorem and_roundUp (h0 : 1 ≤ v.toNat) (h1 : v.toNat ≤ 2 ^ 31) (x : UInt32) :
    x &&& (roundUpNextPowerOf2Uint v - 1) = x % roundUpNextPowerOf2Uint v := by
  obtain ⟨b, -, he, -⟩ := roundUp_of_le h0 h1
  have hone : (1 : UInt32) ≤ roundUpNextPowerOf2Uint v := by
    rw [UInt32.le_iff_toNat_le, he]
    exact Nat.one_le_two_pow
  have hpred : (roundUpNextPowerOf2Uint v - 1).toNat = (roundUpNextPowerOf2Uint v).toNat - 1 := by
    rw [UInt32.toNat_sub_of_le _ _ hone]
    rfl
  refine UInt32.toNat_inj.mp ?_
  rw [UInt32.toNat_and, UInt32.toNat_mod, hpred, and_mask ⟨b, he⟩]

theorem roundUp_mono (hle : v ≤ w) (hw : w.toNat ≤ 2 ^ 31) :
    roundUpNextPowerOf2Uint v ≤ roundUpNextPowerOf2Uint w := by
  rw [UInt32.le_iff_toNat_le] at hle ⊢
  rcases Nat.eq_zero_or_pos v.toNat with h0 | hpos
  · rw [roundUp_eq_zero (Or.inl h0)]
    exact Nat.zero_le _
  · obtain ⟨⟨hpow, hge⟩, -⟩ := roundUp_isLeast (v := w) (by omega) hw
    exact (roundUp_isLeast hpos (by omega)).2 ⟨hpow, le_trans hle hge⟩

end Rounding

/-- ROUNDING: on `1 … 2 ^ 31` the least power of two that is not below `v`, less than `2 * v`, fixed when
    rounded again, and a modulus by masking; 0 on 0 and above `2 ^ 31`; monotone on `0 … 2 ^ 31`. -/
theorem roundUp_spec (v : UInt32) :
    (1 ≤ v.toNat → v.toNat ≤ 2 ^ 31 →
      IsLeast {p | (∃ b, p = 2 ^ b) ∧ v.toNat ≤ p} (roundUpNextPowerOf2Uint v).toNat ∧
      (roundUpNextPowerOf2Uint v).toNat < 2 * v.toNat ∧
      roundUpNextPowerOf2Uint (roundUpNextPowerOf2Uint v) = roundUpNextPowerOf2Uint v ∧
      ∀ x : UInt32, x &&& (roundUpNextPowerOf2Uint v - 1) = x % roundUpNextPowerOf2Uint v) ∧
    (v.toNat = 0 ∨ 2 ^ 31 < v.toNat → roundUpNextPowerOf2Uint v = 0) ∧
    ∀ w : UInt32, v ≤ w → w.toNat ≤ 2 ^ 31 → roundUpNextPowerOf2Uint v ≤ roundUpNextPowerOf2Uint w :=
  ⟨fun h0 h1 => ⟨roundUp_isLeast h0 h1, roundUp_lt_two_mul h0 h1, roundUp_roundUp v, and_roundUp h0 h1⟩,
    roundUp_eq_zero, fun _ => roundUp_mono⟩

/-- A request for 5 is rounded to 8, whose mask reduces modulo 8. -/
theorem roundUp_spec_five : roundUpNextPowerOf2Uint 5 = 8 ∧
    ∀ x : UInt32, x &&& 7 = x % 8 := by
  have h8 : roundUpNextPowerOf2Uint 5 = 8 := by decide
  obtain ⟨-, -, -, hmask⟩ := (roundUp_spec 5).1 (by decide) (by decide)
  rw [h8] at hmask
  exact ⟨h8, hmask⟩

/-- A bumped value is a power of two, so rounding and bumping it again changes nothing. -/
theorem bumped_bumped {n : UInt32} (hn : ∃ b ≤ 31, n.toNat = 2 ^ b) :
    roundUpNextPowerOf2Uint n + (if roundUpNextPowerOf2Uint n = 0 then 1 else 0) = n := by
  obtain ⟨b, hb, he⟩ := hn
  have hne : n ≠ 0 := by
    rintro rfl
    exact (Nat.two_pow_pos b).ne he
  rw [roundUp_of_pow2 hb he, if_neg hne, UInt32.add_zero]

/-- NORMALISED: a config taken from the header of a memmap is created again unchanged. -/
theorem normalise_normalise (c : Config) : normalise (normalise c) = normalise c := by
  have hcounters := bumped_bumped (normalise_numCounters_pow2 c)
  have hrows := bumped_bumped (normalise_numRows_pow2 c)
  have hvars : roundUpNextPowerOf2Uint (normalise c).numVars = (normalise c).numVars :=
    roundUp_roundUp c.numVars
  rw [normalise.eq_1 (normalise c), hcounters, hrows, hvars]

end Log2mem
