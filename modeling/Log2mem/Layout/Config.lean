import Log2mem.Schemes.Smear
import Log2mem.Schemes.Word

/-! The configuration of a memmap (`struct log2mem_config`), how `log2mem_init` copies it from the
    caller, and how `__log2mem_create` rounds it.

        userconfig ──memcpy configsize──▶ config ──round up to power of 2──▶ header->config

    `num_counters` and `num_rows` are bumped from 0 to 1 after the rounding; `num_vars` is not. -/

namespace Log2mem
open Schemes

/-- `struct log2mem_config`. -/
structure Config where
  options : UInt32
  numCounters : UInt32
  numRows : UInt32
  rowLen : UInt32
  numVars : UInt32
  deriving DecidableEq

/-- `MEMLOG_FILELINE`. -/
def optFileLine : ℕ := 1

/-- `MEMLOG_THREADID`. -/
def optThreadId : ℕ := 2

/-- `sizeof(struct log2mem_config)`. -/
def sizeofConfig : ℕ := 20

/-- The bytes of `struct log2mem_config` in memory. -/
def Config.bytes (c : Config) : List UInt8 :=
  leBytes 4 c.options.toNat ++ leBytes 4 c.numCounters.toNat ++ leBytes 4 c.numRows.toNat ++
    leBytes 4 c.rowLen.toNat ++ leBytes 4 c.numVars.toNat

/-- `log2mem_init`: `memset` the local config to 0, then `memcpy` the `configsize` bytes the caller
    was compiled with. -/
def copyConfig (userconfig : ℕ → UInt8) (configsize : ℕ) : Config :=
  let image := fun i => if i < configsize then userconfig i else 0
  let field := fun off => UInt32.ofNat (ofLe ((List.range 4).map fun i => image (off + i)))
  { options := field 0, numCounters := field 4, numRows := field 8, rowLen := field 12,
    numVars := field 16 }

/-- The bytes of a config, as a caller passes them. -/
def Config.image (config : Config) : ℕ → UInt8 := fun i => config.bytes.getD i 0

/-- `round_up_next_power_of_2_uint`. -/
def roundUpNextPowerOf2Uint (v : UInt32) : UInt32 :=
  let v := v - 1
  let v := v ||| v >>> 1
  let v := v ||| v >>> 2
  let v := v ||| v >>> 4
  let v := v ||| v >>> 8
  let v := v ||| v >>> 16
  v + 1

/-- `__log2mem_create`: "round up to power-of-2". -/
def normalise (config : Config) : Config :=
  let numCounters := roundUpNextPowerOf2Uint config.numCounters
  let numRows := roundUpNextPowerOf2Uint config.numRows
  { config with
    numCounters := numCounters + if numCounters = 0 then 1 else 0
    numRows := numRows + if numRows = 0 then 1 else 0
    numVars := roundUpNextPowerOf2Uint config.numVars }

/-! ### The copy -/

/-- COPY: the local config is the caller's bytes up to `configsize`, and zeros behind them. -/
theorem copyConfig_bytes (userconfig : ℕ → UInt8) (configsize : ℕ) :
    (copyConfig userconfig configsize).bytes =
      (List.range sizeofConfig).map fun i => if i < configsize then userconfig i else 0 := by
  have hfield : ∀ bs : List UInt8, bs.length = 4 → leBytes 4 (UInt32.ofNat (ofLe bs)).toNat = bs :=
    fun bs hbs => by
      have hlt := ofLe_lt bs
      rw [hbs] at hlt
      rw [UInt32.toNat_ofNat_of_lt' hlt]
      have hinv := leBytes_ofLe bs
      rwa [hbs] at hinv
  simp only [copyConfig, Config.bytes]
  rw [hfield _ (by simp), hfield _ (by simp), hfield _ (by simp), hfield _ (by simp), hfield _ (by simp)]
  rfl

theorem Config.bytes_length (config : Config) : config.bytes.length = sizeofConfig := by
  simp [Config.bytes, sizeofConfig]

theorem Config.bytes_injective : Function.Injective Config.bytes := by
  intro c c' h
  have hfield : ∀ v w : UInt32, leBytes 4 v.toNat = leBytes 4 w.toNat → v = w := fun v w h => by
    have hof := congrArg ofLe h
    rw [ofLe_leBytes, ofLe_leBytes] at hof
    have hv := v.toNat_lt
    have hw := w.toNat_lt
    exact UInt32.toNat_inj.mp (by omega)
  rw [Config.bytes, Config.bytes] at h
  obtain ⟨h, h5⟩ := List.append_inj' h (by simp)
  obtain ⟨h, h4⟩ := List.append_inj' h (by simp)
  obtain ⟨h, h3⟩ := List.append_inj' h (by simp)
  obtain ⟨h1, h2⟩ := List.append_inj' h (by simp)
  cases c
  cases c'
  rw [Config.mk.injEq]
  exact ⟨hfield _ _ h1, hfield _ _ h2, hfield _ _ h3, hfield _ _ h4, hfield _ _ h5⟩

theorem copyConfig_image (config : Config) : copyConfig config.image sizeofConfig = config := by
  refine Config.bytes_injective ((copyConfig_bytes ..).trans (List.ext_getElem (by simp [config.bytes_length])
    fun i h1 h2 => ?_))
  have hi : i < sizeofConfig := by rwa [config.bytes_length] at h2
  rw [List.getElem_map, List.getElem_range, if_pos hi, Config.image, List.getD_eq_getElem _ _ h2]

/-! ### The rounding -/

/-- The five smearing steps reach over 32 bits. -/
theorem roundUp_toNat (v : UInt32) :
    (roundUpNextPowerOf2Uint v).toNat = 2 ^ (v - 1).toNat.size % 2 ^ 32 := by
  have hc := (((((Covers.refl (v - 1).toNat).smear (s := 1) (by omega)).smear (s := 2)
    (by omega)).smear (s := 4) (by omega)).smear (s := 8) (by omega)).smear (s := 16) (by omega)
  have heq := hc.eq_size (v - 1).toNat_lt
  have hpos : 0 < 2 ^ (v - 1).toNat.size := Nat.two_pow_pos _
  have hsmear : (roundUpNextPowerOf2Uint v).toNat = (2 ^ (v - 1).toNat.size - 1 + 1) % 2 ^ 32 := by
    rw [← heq]
    simp [roundUpNextPowerOf2Uint, UInt32.toNat_add, UInt32.toNat_or, UInt32.toNat_shiftRight]
  rw [hsmear, Nat.sub_add_cancel hpos]

theorem roundUp_toNat_of_le {v : UInt32} (h0 : 1 ≤ v.toNat) (h1 : v.toNat ≤ 2 ^ 31) :
    (roundUpNextPowerOf2Uint v).toNat = 2 ^ (v.toNat - 1).size := by
  have hv : (v - 1).toNat = v.toNat - 1 := by
    rw [UInt32.toNat_sub_of_le v 1 (by rw [UInt32.le_iff_toNat_le]; exact h0)]; rfl
  have hsize := size_pred_le h0 h1
  rw [roundUp_toNat, hv]
  exact Nat.mod_eq_of_lt (Nat.pow_lt_pow_right (by omega) (by omega))

/-- Up to `2 ^ 31` the rounding gives a power of two that fits in 31 bits. -/
theorem roundUp_of_le {v : UInt32} (h0 : 1 ≤ v.toNat) (h1 : v.toNat ≤ 2 ^ 31) :
    ∃ b ≤ 31, (roundUpNextPowerOf2Uint v).toNat = 2 ^ b ∧ v.toNat ≤ 2 ^ b :=
  ⟨(v.toNat - 1).size, size_pred_le h0 h1, roundUp_toNat_of_le h0 h1, le_two_pow_size_pred _⟩

/-- Outside that range the increment wraps to 0. -/
theorem roundUp_eq_zero {v : UInt32} (h : v.toNat = 0 ∨ 2 ^ 31 < v.toNat) :
    roundUpNextPowerOf2Uint v = 0 := by
  have hlt := v.toNat_lt
  have hbig : 2 ^ 31 ≤ (v - 1).toNat := by
    rw [UInt32.toNat_sub]
    rcases h with h | h
    · rw [h]; decide
    · have : (1 : UInt32).toNat = 1 := rfl
      omega
  have hsize : (v - 1).toNat.size = 32 :=
    le_antisymm (Nat.size_le.mpr (v - 1).toNat_lt) (Nat.lt_size.mpr hbig)
  refine UInt32.toNat_inj.mp ?_
  rw [roundUp_toNat, hsize]
  rfl

theorem roundUp_cases (v : UInt32) :
    (∃ b ≤ 31, (roundUpNextPowerOf2Uint v).toNat = 2 ^ b) ∨ roundUpNextPowerOf2Uint v = 0 := by
  by_cases h : 1 ≤ v.toNat ∧ v.toNat ≤ 2 ^ 31
  · obtain ⟨b, hb, he, -⟩ := roundUp_of_le h.1 h.2
    exact Or.inl ⟨b, hb, he⟩
  · exact Or.inr (roundUp_eq_zero (by omega))

/-- The bump `n += (n == 0)` makes any rounded value a power of two. -/
theorem bumped_pow2 (v : UInt32) :
    ∃ b ≤ 31, (roundUpNextPowerOf2Uint v +
      if roundUpNextPowerOf2Uint v = 0 then 1 else 0).toNat = 2 ^ b := by
  rcases roundUp_cases v with ⟨b, hb, he⟩ | h0
  · have hne : roundUpNextPowerOf2Uint v ≠ 0 := by
      intro h0
      rw [h0] at he
      exact (Nat.two_pow_pos b).ne he
    exact ⟨b, hb, by rw [if_neg hne, UInt32.add_zero, he]⟩
  · exact ⟨0, by omega, by rw [h0]; rfl⟩

theorem normalise_numCounters_pow2 (c : Config) :
    ∃ b ≤ 31, (normalise c).numCounters.toNat = 2 ^ b := bumped_pow2 c.numCounters

theorem normalise_numRows_pow2 (c : Config) :
    ∃ b ≤ 31, (normalise c).numRows.toNat = 2 ^ b := bumped_pow2 c.numRows

/-- `num_vars` has no bump: it is a power of two exactly on the requests `1 … 2 ^ 31`. -/
theorem normalise_numVars_pow2 {c : Config} (h0 : 1 ≤ c.numVars.toNat)
    (h1 : c.numVars.toNat ≤ 2 ^ 31) : ∃ b ≤ 31, (normalise c).numVars.toNat = 2 ^ b := by
  obtain ⟨b, hb, he, -⟩ := roundUp_of_le h0 h1
  exact ⟨b, hb, he⟩

theorem normalise_numVars_eq_zero {c : Config} (h : c.numVars.toNat = 0 ∨ 2 ^ 31 < c.numVars.toNat) :
    (normalise c).numVars = 0 := roundUp_eq_zero h

end Log2mem
