import Log2mem.Layout.Config

/-! The masked table indices: `counterid & (num_counters-1)`, `rowid & (num_rows-1)` and
    `id & (num_vars-1)`.

    A mask one below a power of two keeps an index inside its table. The mask of an empty table is all
    ones, so the index runs free: that is what happens to the variables when `num_vars` rounds to 0. -/

namespace Log2mem
open Schemes

/-- `int idx = id & (n - 1)`: both operands `unsigned`, the result converted to `int`. -/
def maskIdx (id : ℤ) (n : ℕ) : ℤ := toInt32 (toU32 id &&& toU32 (n - 1) : ℕ)

/-- The index of `log2mem_counter_add` and `log2mem_counter_label`. -/
def counterIdx (cfg : Config) (counterid : Int32) : ℤ :=
  maskIdx counterid.toInt cfg.numCounters.toNat

/-- The index of `__log2mem_init_row`. -/
def rowIdx (cfg : Config) (rowid : UInt32) : ℤ := maskIdx rowid.toNat cfg.numRows.toNat

/-- The index of the `log2mem_var_*` operations. -/
def varIdx (cfg : Config) (id : UInt32) : ℤ := maskIdx id.toNat cfg.numVars.toNat

theorem maskIdx_eq {n b : ℕ} (hb : b ≤ 31) (hn : n = 2 ^ b) (id : ℤ) :
    maskIdx id n = toU32 id % n := by
  have hpos : 0 < n := by rw [hn]; exact Nat.two_pow_pos b
  have hle : n ≤ 2 ^ 31 := by rw [hn]; exact Nat.pow_le_pow_right (by omega) hb
  have hmask : toU32 ((n : ℤ) - 1) = n - 1 := by
    have := toU32_of_range (x := (n : ℤ) - 1) (by omega) (by omega)
    omega
  have hlt := Nat.mod_lt (toU32 id) hpos
  rw [maskIdx, hmask, and_mask ⟨b, hn⟩, toInt32_of_range (by omega) (by omega)]
  rfl

theorem maskIdx_range {n b : ℕ} (hb : b ≤ 31) (hn : n = 2 ^ b) (id : ℤ) :
    0 ≤ maskIdx id n ∧ maskIdx id n < n := by
  have hpos : 0 < n := by rw [hn]; exact Nat.two_pow_pos b
  rw [maskIdx_eq hb hn]
  have := Nat.mod_lt (toU32 id) hpos
  omega

theorem maskIdx_emod {n b : ℕ} (hb : b ≤ 31) (hn : n = 2 ^ b) (id : ℤ) : maskIdx id n = id % n := by
  have hdvd : (n : ℤ) ∣ 4294967296 := by
    rw [hn]
    exact_mod_cast pow_dvd_pow 2 (show b ≤ 32 by omega)
  rw [maskIdx_eq hb hn, toU32_cast, Int.emod_emod_of_dvd _ hdvd]

/-- With an empty table the mask is all ones and the index is the id itself. -/
theorem maskIdx_zero (id : ℤ) : maskIdx id 0 = toInt32 id := by
  have hmask : toU32 ((0 : ℕ) - 1 : ℤ) = 2 ^ 32 - 1 := by decide
  rw [maskIdx, hmask, Nat.and_two_pow_sub_one_eq_mod, Nat.mod_eq_of_lt (toU32_lt id), toInt32_toU32]

/-- Every masked index of the three tables is below the number of entries laid out. -/
def MasksInRange (cfg : Config) : Prop :=
  ∀ (counterid : Int32) (rowid id : UInt32),
    (0 ≤ counterIdx cfg counterid ∧ counterIdx cfg counterid < cfg.numCounters.toNat) ∧
    (0 ≤ rowIdx cfg rowid ∧ rowIdx cfg rowid < cfg.numRows.toNat) ∧
    (0 ≤ varIdx cfg id ∧ varIdx cfg id < cfg.numVars.toNat)

/-- MASKS: for every caller's config and every `configsize`, the masked indices stay in range exactly
    when the `num_vars` that was copied is between 1 and `2 ^ 31`. -/
theorem masks_in_range_iff (userconfig : ℕ → UInt8) (configsize : ℕ) :
    MasksInRange (normalise (copyConfig userconfig configsize)) ↔
      1 ≤ (copyConfig userconfig configsize).numVars.toNat ∧
      (copyConfig userconfig configsize).numVars.toNat ≤ 2 ^ 31 := by
  set c := copyConfig userconfig configsize with hc
  constructor
  · intro h
    by_contra hn
    have h0 : (normalise c).numVars = 0 := normalise_numVars_eq_zero (by omega)
    have hv := (h 0 0 0).2.2.2
    rw [varIdx, h0] at hv
    exact absurd hv (by decide)
  · rintro ⟨h1, h2⟩ counterid rowid id
    obtain ⟨b, hb, hbc⟩ := normalise_numCounters_pow2 c
    obtain ⟨b', hb', hbr⟩ := normalise_numRows_pow2 c
    obtain ⟨b'', hb'', hbv⟩ := normalise_numVars_pow2 h1 h2
    exact ⟨maskIdx_range hb hbc _, maskIdx_range hb' hbr _, maskIdx_range hb'' hbv _⟩

/-- A caller built against the config without `num_vars`: 16 counters, 64 rows of 256 bytes. -/
def olderClient : ℕ → UInt8 := fun i => [0, 0, 0, 0, 16, 0, 0, 0, 64, 0, 0, 0, 0, 1, 0, 0].getD i 0

/-- The older caller's 16 bytes leave `num_vars` at 0, and variable 0 has no entry. -/
theorem masks_out_of_range :
    ¬ ∀ (userconfig : ℕ → UInt8) (configsize : ℕ), configsize ≤ sizeofConfig →
      MasksInRange (normalise (copyConfig userconfig configsize)) := by
  intro h
  have hv := (h olderClient 16 (by decide) 0 0 0).2.2.2
  exact absurd hv (by decide)

end Log2mem
