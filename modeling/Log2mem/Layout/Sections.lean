import Log2mem.Layout.Config

/-! The layout of the memmap (`log2mem_calculate_layout`): `size_t` sums truncated into `int` offsets.

    `calculateLayout` follows the C arithmetic, every conversion included; signed overflow wraps, as
    the supported compilers emit it. `exactLayout` is the same sum over the unbounded integers. The
    two agree modulo `2 ^ 32` always, and are equal as soon as the exact size fits in an `int`.

        0        256        rows_off            labels_off   double_vars  int_vars      size
        │ header │ counters │ rows (24+row_len) │ labels 64  │ vars 80    │ vars 72 │ pad │ -/

namespace Log2mem
open Schemes

/-- `getpagesize()`: a power of two of at least 8. -/
structure PageSize where
  bits : ℕ
  bits_ge : 3 ≤ bits
  bits_lt : bits < 31

/-- The page size in bytes. -/
def PageSize.bytes (ps : PageSize) : ℤ := 2 ^ ps.bits

/-- `struct log2mem_layout`: the `int` offsets of the sections, and the size of the whole region. -/
structure Layout where
  size : ℤ
  countersOff : ℤ
  rowsOff : ℤ
  counterLabelsOff : ℤ
  doubleVarsOff : ℤ
  intVarsOff : ℤ
  deriving DecidableEq

/-- `calc_row_total_size`: `sizeof(struct log2mem_row) + cfg->row_len` as a `size_t`. -/
def calcRowTotalSize (rowLen : ℕ) : ℕ := toSize (24 + rowLen)

/-- `(n + 8 - 1) & ~(8 - 1)` on a `size_t`: the mask clears the three low bits. -/
def align8 (n : ℤ) : ℕ := toSize (n + 8 - 1) / 8 * 8

/-- `log2mem_calculate_layout`. -/
def calculateLayout (ps : PageSize) (cfg : Config) : Layout :=
  let countersOff := 256
  let rowsOff := toInt32 (toSize (countersOff + align8 (toSize (cfg.numCounters.toNat * 8))))
  let counterLabelsOff := toInt32 (toSize (rowsOff +
    align8 (toSize (cfg.numRows.toNat * calcRowTotalSize cfg.rowLen.toNat))))
  let doubleVarsOff := toInt32 (toSize (counterLabelsOff +
    align8 (toSize (cfg.numCounters.toNat * 64))))
  let intVarsOff := toInt32 (toSize (doubleVarsOff + align8 (toSize (cfg.numVars.toNat * 80))))
  let size := toInt32 (toSize (intVarsOff + toSize (cfg.numVars.toNat * 72)))
  -- `(layout->size + ps - 1) & ~(ps - 1)`: the mask clears the low bits of a power of two
  let size := toInt32 (size + ps.bytes - 1) / ps.bytes * ps.bytes
  { size, countersOff, rowsOff, counterLabelsOff, doubleVarsOff, intVarsOff }

/-- `__log2mem_init_row`: the address of row slot `rowidx`, an `int` product added to the section. -/
def rowAddr (rowsOff rowidx : ℤ) (rowLen : ℕ) : ℤ :=
  rowsOff + toInt32 (rowidx * toInt32 (calcRowTotalSize rowLen))

/-! ### The exact layout -/

/-- `n` rounded up to a multiple of 8, exactly. -/
def up8 (n : ℤ) : ℤ := (n + 7) / 8 * 8

/-- The same layout over the unbounded integers. -/
def exactLayout (ps : PageSize) (cfg : Config) : Layout :=
  let countersOff := 256
  let rowsOff := countersOff + up8 (cfg.numCounters.toNat * 8)
  let counterLabelsOff := rowsOff + up8 (cfg.numRows.toNat * (24 + cfg.rowLen.toNat))
  let doubleVarsOff := counterLabelsOff + up8 (cfg.numCounters.toNat * 64)
  let intVarsOff := doubleVarsOff + up8 (cfg.numVars.toNat * 80)
  let size := (intVarsOff + cfg.numVars.toNat * 72 + ps.bytes - 1) / ps.bytes * ps.bytes
  { size, countersOff, rowsOff, counterLabelsOff, doubleVarsOff, intVarsOff }

/-- The exact size of the region is an `int`. -/
def FitsInt (ps : PageSize) (cfg : Config) : Prop := (exactLayout ps cfg).size < 2147483648

instance (ps : PageSize) (cfg : Config) : Decidable (FitsInt ps cfg) :=
  inferInstanceAs (Decidable (_ < _))

/-- The layout gives every section, and every row slot, room of its own. -/
structure Sound (ps : PageSize) (cfg : Config) (L : Layout) : Prop where
  exact : L = exactLayout ps cfg
  header : 256 ≤ L.countersOff
  counters : L.countersOff + cfg.numCounters.toNat * 8 ≤ L.rowsOff
  rows : L.rowsOff + cfg.numRows.toNat * (24 + cfg.rowLen.toNat) ≤ L.counterLabelsOff
  labels : L.counterLabelsOff + cfg.numCounters.toNat * 64 ≤ L.doubleVarsOff
  doubles : L.doubleVarsOff + cfg.numVars.toNat * 80 ≤ L.intVarsOff
  ints : L.intVarsOff + cfg.numVars.toNat * 72 ≤ L.size
  slot : ∀ rowidx : ℕ, rowidx < cfg.numRows.toNat →
    L.rowsOff ≤ rowAddr L.rowsOff rowidx cfg.rowLen.toNat ∧
    rowAddr L.rowsOff rowidx cfg.rowLen.toNat + (24 + cfg.rowLen.toNat) ≤ L.counterLabelsOff

theorem le_up8 (n : ℤ) : n ≤ up8 n := by unfold up8; omega

theorem up8_emod (n : ℤ) : up8 n % 8 = 0 := by unfold up8; omega

/-- Rounding to 8 bytes in `size_t` agrees with the exact rounding modulo `2 ^ 32`. -/
theorem align8_emod (n : ℤ) : (align8 n : ℤ) % 4294967296 = up8 n % 4294967296 := by
  have := toSize_cast (n + 8 - 1)
  unfold align8 up8
  omega

theorem calcRowTotalSize_eq (rowLen : UInt32) : calcRowTotalSize rowLen.toNat = 24 + rowLen.toNat := by
  have := rowLen.toNat_lt
  have := toSize_of_range (x := 24 + (rowLen.toNat : ℤ)) (by omega) (by omega)
  unfold calcRowTotalSize
  omega

theorem PageSize.bytes_pos (ps : PageSize) : 0 < ps.bytes := by
  unfold PageSize.bytes; positivity

theorem PageSize.bytes_dvd (ps : PageSize) : ps.bytes ∣ 4294967296 :=
  ⟨2 ^ (32 - ps.bits), by
    have := ps.bits_lt
    rw [PageSize.bytes, ← pow_add, show ps.bits + (32 - ps.bits) = 32 by omega]
    norm_num⟩

theorem PageSize.le_round (ps : PageSize) (n : ℤ) : n ≤ (n + ps.bytes - 1) / ps.bytes * ps.bytes := by
  have hpos := ps.bytes_pos
  have h1 := Int.emod_add_mul_ediv (n + ps.bytes - 1) ps.bytes
  have h2 := Int.emod_lt_of_pos (n + ps.bytes - 1) hpos
  have h3 := mul_comm ps.bytes ((n + ps.bytes - 1) / ps.bytes)
  omega

theorem PageSize.round_emod (ps : PageSize) {a b : ℤ} (h : a % 4294967296 = b % 4294967296) :
    (a / ps.bytes * ps.bytes) % 4294967296 = (b / ps.bytes * ps.bytes) % 4294967296 := by
  have hsub : ∀ x : ℤ, x / ps.bytes * ps.bytes = x - x % ps.bytes := fun x => by
    have := Int.emod_add_mul_ediv x ps.bytes
    have := mul_comm ps.bytes (x / ps.bytes)
    omega
  have hmod : a % ps.bytes = b % ps.bytes := by
    rw [← Int.emod_emod_of_dvd a ps.bytes_dvd, h, Int.emod_emod_of_dvd b ps.bytes_dvd]
  rw [hsub, hsub, hmod]
  omega

/-! ### Offsets of the exact layout -/

section Exact
variable (ps : PageSize) (cfg : Config)

theorem exact_sections :
    256 ≤ (exactLayout ps cfg).countersOff ∧
    (exactLayout ps cfg).countersOff + cfg.numCounters.toNat * 8 ≤ (exactLayout ps cfg).rowsOff ∧
    (exactLayout ps cfg).rowsOff + cfg.numRows.toNat * (24 + cfg.rowLen.toNat) ≤
      (exactLayout ps cfg).counterLabelsOff ∧
    (exactLayout ps cfg).counterLabelsOff + cfg.numCounters.toNat * 64 ≤
      (exactLayout ps cfg).doubleVarsOff ∧
    (exactLayout ps cfg).doubleVarsOff + cfg.numVars.toNat * 80 ≤ (exactLayout ps cfg).intVarsOff ∧
    (exactLayout ps cfg).intVarsOff + cfg.numVars.toNat * 72 ≤ (exactLayout ps cfg).size := by
  refine ⟨le_refl _, ?_, ?_, ?_, ?_, ?_⟩
  · exact Int.add_le_add_left (le_up8 _) _
  · exact Int.add_le_add_left (le_up8 _) _
  · exact Int.add_le_add_left (le_up8 _) _
  · exact Int.add_le_add_left (le_up8 _) _
  · exact ps.le_round _

theorem exact_aligned :
    (exactLayout ps cfg).countersOff % 8 = 0 ∧ (exactLayout ps cfg).rowsOff % 8 = 0 ∧
    (exactLayout ps cfg).counterLabelsOff % 8 = 0 ∧ (exactLayout ps cfg).doubleVarsOff % 8 = 0 ∧
    (exactLayout ps cfg).intVarsOff % 8 = 0 := by
  have h1 := up8_emod (cfg.numCounters.toNat * 8)
  have h2 := up8_emod (cfg.numRows.toNat * (24 + cfg.rowLen.toNat))
  have h3 := up8_emod (cfg.numCounters.toNat * 64)
  have h4 := up8_emod (cfg.numVars.toNat * 80)
  refine ⟨rfl, ?_, ?_, ?_, ?_⟩ <;> simp only [exactLayout] <;> omega

/-- One section further: the truncated sum agrees with the exact one modulo `2 ^ 32`. -/
theorem offset_eq {a b : ℤ} (n : ℤ) (h : a % 4294967296 = b % 4294967296) :
    toInt32 (toSize (a + align8 (toSize n))) = toInt32 (b + up8 n) := by
  have h1 := align8_emod (toSize n)
  have h2 : up8 (toSize n) % 4294967296 = up8 n % 4294967296 := by
    have := toSize_cast n
    unfold up8
    omega
  rw [toInt32_toSize]
  exact toInt32_congr (by omega)

theorem offset_toInt32 (b n : ℤ) :
    toInt32 (toSize (toInt32 b + align8 (toSize n))) = toInt32 (b + up8 n) :=
  offset_eq n (toInt32_emod b)

theorem PageSize.round_toInt32 (n : ℤ) :
    toInt32 (toInt32 n + ps.bytes - 1) / ps.bytes * ps.bytes =
      toInt32 ((n + ps.bytes - 1) / ps.bytes * ps.bytes) := by
  have hpos := ps.bytes_pos
  have hdvd : ps.bytes ∣ 2147483648 := ⟨2 ^ (31 - ps.bits), by
    have := ps.bits_lt
    rw [PageSize.bytes, ← pow_add, show ps.bits + (31 - ps.bits) = 31 by omega]
    norm_num⟩
  set x := toInt32 (toInt32 n + ps.bytes - 1) with hx
  have hcongr : (x / ps.bytes * ps.bytes) % 4294967296 =
      ((n + ps.bytes - 1) / ps.bytes * ps.bytes) % 4294967296 := by
    refine ps.round_emod ?_
    have h1 := toInt32_emod (toInt32 n + ps.bytes - 1)
    have h2 := toInt32_emod n
    omega
  have hge : -2147483648 ≤ x / ps.bytes * ps.bytes := by
    obtain ⟨q, hq⟩ := hdvd
    have hdiv : -q ≤ x / ps.bytes := by
      rw [Int.le_ediv_iff_mul_le hpos]
      have := toInt32_ge (toInt32 n + ps.bytes - 1)
      have := mul_comm ps.bytes q
      rw [neg_mul]
      omega
    have := mul_le_mul_of_nonneg_right hdiv (le_of_lt hpos)
    have := mul_comm ps.bytes q
    rw [neg_mul] at *
    omega
  have hlt : x / ps.bytes * ps.bytes < 2147483648 := by
    have := Int.ediv_mul_le x (ne_of_gt hpos)
    have := toInt32_lt (toInt32 n + ps.bytes - 1)
    omega
  rw [← toInt32_of_range hge hlt]
  exact toInt32_congr hcongr

/-- Every computed field is the exact one reduced to an `int`. -/
theorem calculateLayout_eq : calculateLayout ps cfg =
    { size := toInt32 (exactLayout ps cfg).size
      countersOff := toInt32 (exactLayout ps cfg).countersOff
      rowsOff := toInt32 (exactLayout ps cfg).rowsOff
      counterLabelsOff := toInt32 (exactLayout ps cfg).counterLabelsOff
      doubleVarsOff := toInt32 (exactLayout ps cfg).doubleVarsOff
      intVarsOff := toInt32 (exactLayout ps cfg).intVarsOff } := by
  have hrow : (cfg.numRows.toNat : ℤ) * calcRowTotalSize cfg.rowLen.toNat =
      cfg.numRows.toNat * (24 + cfg.rowLen.toNat) := by
    rw [calcRowTotalSize_eq]; push_cast; ring
  have hsum : ∀ a n : ℤ, toInt32 (toSize (toInt32 a + toSize n)) = toInt32 (a + n) := fun a n => by
    have := toSize_cast n
    have := toInt32_emod a
    rw [toInt32_toSize]
    exact toInt32_congr (by omega)
  simp only [calculateLayout, exactLayout, hrow, offset_eq (a := 256) (b := 256) _ rfl,
    offset_toInt32, hsum, PageSize.round_toInt32]
  rfl

/-- Where the exact size is an `int`, every offset is exact. -/
theorem calculateLayout_exact (h : FitsInt ps cfg) : calculateLayout ps cfg = exactLayout ps cfg := by
  obtain ⟨h1, h2, h3, h4, h5, h6⟩ := exact_sections ps cfg
  have hmul : 0 ≤ (cfg.numRows.toNat : ℤ) * (24 + cfg.rowLen.toNat) := by positivity
  unfold FitsInt at h
  rw [calculateLayout_eq]
  generalize exactLayout ps cfg = L at *
  obtain ⟨sz, co, ro, lo, d, i⟩ := L
  simp only at *
  rw [toInt32_of_range, toInt32_of_range, toInt32_of_range, toInt32_of_range, toInt32_of_range,
    toInt32_of_range] <;> omega

theorem calculateLayout_size : (calculateLayout ps cfg).size = toInt32 (exactLayout ps cfg).size := by
  rw [calculateLayout_eq]

theorem calculateLayout_doubleVarsOff :
    (calculateLayout ps cfg).doubleVarsOff = toInt32 (exactLayout ps cfg).doubleVarsOff := by
  rw [calculateLayout_eq]

theorem calculateLayout_intVarsOff :
    (calculateLayout ps cfg).intVarsOff = toInt32 (exactLayout ps cfg).intVarsOff := by
  rw [calculateLayout_eq]

theorem slot_le {n T j : ℕ} (hj : j < n) : (j : ℤ) * T + T ≤ n * T := by
  have h : (j + 1) * T ≤ n * T := Nat.mul_le_mul_right T hj
  have : ((j + 1) * T : ℤ) ≤ n * T := by exact_mod_cast h
  rw [add_mul, one_mul] at this
  exact this

theorem rowAddr_exact (h : FitsInt ps cfg) {rowidx : ℕ} (hr : rowidx < cfg.numRows.toNat)
    (off : ℤ) : rowAddr off rowidx cfg.rowLen.toNat = off + rowidx * (24 + cfg.rowLen.toNat) := by
  obtain ⟨h1, h2, h3, h4, h5, h6⟩ := exact_sections ps cfg
  have hslot := slot_le (T := 24 + cfg.rowLen.toNat) hr
  have hnn : 0 ≤ (rowidx : ℤ) * (24 + cfg.rowLen.toNat) := by positivity
  unfold FitsInt at h
  push_cast at hslot
  rw [rowAddr, calcRowTotalSize_eq]
  push_cast
  rw [toInt32_of_range (x := 24 + (cfg.rowLen.toNat : ℤ)) (by omega) (by omega),
    toInt32_of_range (by omega) (by omega)]

/-- The layout is sound where the exact size is an `int`. -/
theorem sound_of_fits (h : FitsInt ps cfg) : Sound ps cfg (calculateLayout ps cfg) := by
  obtain ⟨h1, h2, h3, h4, h5, h6⟩ := exact_sections ps cfg
  rw [calculateLayout_exact ps cfg h]
  refine ⟨rfl, h1, h2, h3, h4, h5, h6, fun rowidx hr => ?_⟩
  have hslot := slot_le (T := 24 + cfg.rowLen.toNat) hr
  have hnn : 0 ≤ (rowidx : ℤ) * (24 + cfg.rowLen.toNat) := by positivity
  push_cast at hslot
  rw [rowAddr_exact ps cfg h hr]
  omega

theorem fits_of_sound (h : Sound ps cfg (calculateLayout ps cfg)) : FitsInt ps cfg := by
  rw [FitsInt, ← h.exact, calculateLayout_size]
  exact toInt32_lt _

end Exact

end Log2mem
