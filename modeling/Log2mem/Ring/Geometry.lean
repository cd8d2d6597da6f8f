import Log2mem.Schemes.Window
import Log2mem.Row.Slot

/-! The ring of row slots in a memmap whose exact layout size fits in an `int`.

    `Geometry` carries the config together with the proof that its layout is exact; every bound on a
    slot is derived here, once. `Mapped` is the header of such a memmap in a mapping of its size.

        rows_off                                     labels_off
        │ slot 0 │ slot 1 │ … │ slot (num_rows - 1) │ pad │      slot j = rows_off + j (24 + row_len) -/

namespace Log2mem
open Schemes

/-- A config `log2mem_init` was given and the page size it was laid out with, whose exact size is an
    `int`; the header's config and the layout are kept, so that later proofs only use their bounds. -/
structure Geometry where
  ps : PageSize
  config : Config
  /-- the config in the header -/
  cfg : Config
  layout : Layout
  cfg_eq : cfg = normalise config
  layout_eq : layout = calculateLayout ps cfg
  fits : FitsInt ps cfg

namespace Geometry

/-- The geometry of any such config. -/
def of (ps : PageSize) (config : Config) (fits : FitsInt ps (normalise config)) : Geometry :=
  { ps, config, cfg := normalise config, layout := calculateLayout ps (normalise config)
    cfg_eq := rfl, layout_eq := rfl, fits }

variable (G : Geometry)

def numRows : ℕ := G.cfg.numRows.toNat

def rowLen : ℕ := G.cfg.rowLen.toNat

def handle : Handle := G.layout.handle

/-- The address of slot `j`. -/
def slot (j : ℕ) : ℤ := G.layout.rowsOff + j * (24 + G.rowLen)

theorem sound : Sound G.ps G.cfg G.layout := by
  rw [G.layout_eq]
  exact sound_of_fits _ _ G.fits

theorem numRows_pow2 : ∃ b ≤ 31, G.numRows = 2 ^ b := by
  rw [numRows, G.cfg_eq]
  exact normalise_numRows_pow2 G.config

theorem numRows_pos : 0 < G.numRows := by
  obtain ⟨b, -, hb⟩ := G.numRows_pow2
  rw [hb]
  exact Nat.two_pow_pos b

theorem numRows_dvd : G.numRows ∣ 4294967296 := by
  obtain ⟨b, hb, h⟩ := G.numRows_pow2
  rw [h]
  exact pow_dvd_pow 2 (show b ≤ 32 by omega)

theorem size_lt : G.layout.size < 2147483648 := by
  rw [G.sound.exact]
  exact G.fits

theorem sections : 256 + G.cfg.numCounters.toNat * 8 ≤ G.layout.rowsOff ∧
    G.layout.rowsOff + G.numRows * (24 + G.rowLen) ≤ G.layout.counterLabelsOff ∧
    G.layout.counterLabelsOff + G.cfg.numCounters.toNat * 64 ≤ G.layout.doubleVarsOff ∧
    G.layout.doubleVarsOff + G.cfg.numVars.toNat * 80 ≤ G.layout.intVarsOff ∧
    G.layout.intVarsOff + G.cfg.numVars.toNat * 72 ≤ G.layout.size := by
  obtain ⟨-, h0, h1, h2, h3, h4, h5, -⟩ := G.sound
  refine ⟨?_, h2, h3, h4, h5⟩
  omega

theorem slot_base (j : ℕ) : 256 ≤ G.slot j := by
  have hj : 0 ≤ (j : ℤ) * (24 + G.rowLen) := by positivity
  have := G.sections.1
  unfold slot
  omega

theorem slot_end {j : ℕ} (h : j < G.numRows) :
    G.slot j + 24 + G.rowLen ≤ G.layout.counterLabelsOff := by
  have hle := slot_le (T := 24 + G.rowLen) h
  have := G.sections.2.1
  unfold slot
  push_cast at hle
  omega

theorem slot_room {j : ℕ} (h : j < G.numRows) : G.slot j + 24 + G.rowLen ≤ G.layout.size := by
  have := G.slot_end h
  obtain ⟨-, -, h3, h4, h5⟩ := G.sections
  omega

theorem rowLen_lt : G.rowLen < 2147483648 := by
  have := G.slot_room G.numRows_pos
  have := G.slot_base 0
  have := G.size_lt
  omega

/-- Different slots do not overlap. -/
theorem slot_disjoint {j k : ℕ} (h : j ≠ k) :
    G.slot j + 24 + G.rowLen ≤ G.slot k ∨ G.slot k + 24 + G.rowLen ≤ G.slot j := by
  rcases Nat.lt_or_gt_of_ne h with hlt | hlt
  · have := slot_le (T := 24 + G.rowLen) hlt
    unfold slot
    push_cast at this
    omega
  · have := slot_le (T := 24 + G.rowLen) hlt
    unfold slot
    push_cast at this
    omega

theorem slot_inj {j k : ℕ} (h : G.slot j = G.slot k) : j = k := by
  by_contra hne
  rcases G.slot_disjoint hne with h' | h' <;> omega

/-- The bytes of slot `j`. -/
def slotBytes (j : ℕ) : Set ℤ := Set.Ico (G.slot j) (G.slot j + (24 + G.rowLen))

theorem mem_slotBytes_of_ne {j k : ℕ} (h : j ≠ k) {x : ℤ} (hx : x ∈ G.slotBytes j) :
    x < G.slot k ∨ G.slot k + 24 + G.rowLen ≤ x := by
  obtain ⟨h1, h2⟩ := hx
  have := G.slot_disjoint h
  omega

theorem le_of_mem_slotBytes {j : ℕ} {x : ℤ} (hx : x ∈ G.slotBytes j) : 256 ≤ x := by
  have := G.slot_base j
  have := hx.1
  omega

theorem rowAddr_eq {j : ℕ} (h : j < G.numRows) :
    rowAddr G.handle.rows j G.rowLen = G.slot j := by
  unfold numRows at h
  have hx := rowAddr_exact G.ps G.cfg G.fits h G.layout.rowsOff
  simp only [handle, Layout.handle, slot, rowLen, hx]

end Geometry

/-- A memory holding a memmap of this geometry. -/
structure Mapped (G : Geometry) (m : Mem) : Prop where
  header : HeaderOk G.cfg m
  size : (m.size : ℤ) = G.layout.size

section Mapped
variable {G : Geometry} {m m' : Mem}

theorem Mapped.frame {S : Set ℤ} (h : Mapped G m) (hf : Mem.Frame S m m')
    (hS : ∀ x ∈ S, x < 32 ∨ 92 ≤ x) : Mapped G m' :=
  ⟨h.header.frame hf hS, by rw [hf.size]; exact h.size⟩

theorem Mapped.frame_slot {j : ℕ} (h : Mapped G m) (hf : Mem.Frame (G.slotBytes j) m m') :
    Mapped G m' :=
  h.frame hf fun x hx => by
    have := G.le_of_mem_slotBytes hx
    omega

theorem Mapped.size_ge (h : Mapped G m) : 280 ≤ m.size := by
  have := G.slot_room G.numRows_pos
  have := G.slot_base 0
  have := h.size
  omega

theorem Mapped.size_lt (h : Mapped G m) : m.size < 2147483648 := by
  have := G.size_lt
  have := h.size
  omega

theorem Mapped.slotRoom (h : Mapped G m) {j : ℕ} (hj : j < G.numRows) :
    SlotRoom G.rowLen m (G.slot j) where
  cap := h.header.rowLen
  lt := G.rowLen_lt
  base := by have := G.slot_base j; omega
  room := by rw [h.size]; exact G.slot_room hj

/-- `log2mem_atomic_incr_fetch_uint(…) - 1` is the value of `nextrow` before the step. -/
theorem Mapped.fetchRowid_spec (h : Mapped G m) :
    ∃ m', fetchRowid m = some (m', m.word 28) ∧ m'.word 28 = (m.word 28 + 1) % 4294967296 ∧
      Mem.Frame (Set.Ico 28 32) m m' := by
  have hsize := h.size_ge
  have hlt := m.word_lt 28
  obtain ⟨m', e, f, w⟩ := Mem.store32_spec (m := m) (a := 28) ⟨by omega, by omega⟩
    (toU32 ((m.word 28 : ℤ) + 1))
  have hid : toU32 (toInt32 ((m.word 28 : ℤ) + 1) - 1) = m.word 28 := by
    have h1 := toU32_cast (toInt32 ((m.word 28 : ℤ) + 1) - 1)
    have h2 := toInt32_emod ((m.word 28 : ℤ) + 1)
    omega
  have hnext : toU32 ((m.word 28 : ℤ) + 1) = (m.word 28 + 1) % 4294967296 := by
    have := toU32_cast ((m.word 28 : ℤ) + 1)
    omega
  refine ⟨m', ?_, by rw [w, hnext, Nat.mod_mod], f⟩
  simp only [fetchRowid, hdrNextrow, Mem.load32_eq (m := m) (a := 28) ⟨by omega, by omega⟩,
    Option.bind_eq_bind, Option.bind_some, e, hid]
  rfl

/-- Row id `id` is put into slot `id % num_rows`. -/
theorem Mapped.rowPtr_eq (h : Mapped G m) {id : ℕ} (hid : id < 4294967296) :
    rowPtr G.handle id m = some (G.slot (id % G.numRows)) := by
  have hsize := h.size_ge
  obtain ⟨b, hb, hn⟩ := G.numRows_pow2
  have hmask : maskIdx id G.numRows = ((id % G.numRows : ℕ) : ℤ) := by
    rw [maskIdx_eq hb hn, toU32_natCast, Nat.mod_eq_of_lt hid]
    rfl
  simp only [rowPtr, h.header.hdrNumRows_eq (by omega), h.header.hdrRowLen_eq (by omega),
    Option.bind_eq_bind, Option.bind_some]
  exact congrArg some ((congrArg (fun i => rowAddr G.handle.rows i G.rowLen) hmask).trans
    (G.rowAddr_eq (Nat.mod_lt _ G.numRows_pos)))

/-- The slot of acquisition `k`, counted without wrapping. -/
theorem Geometry.wrapped_slot (G : Geometry) (k : ℕ) :
    k % 4294967296 % G.numRows = k % G.numRows := Nat.mod_mod_of_dvd k G.numRows_dvd

/-- The bytes one acquisition may change: `nextrow` and its slot. -/
def Geometry.acquired (G : Geometry) (k : ℕ) : Set ℤ :=
  Set.Ico 28 32 ∪ G.slotBytes (k % G.numRows)

/-- ACQUIRE: the acquisition that finds `nextrow` at `n` (modulo `2 ^ 32`) gets slot `n % num_rows` under
    that id, leaves the fill of the source location there, and changes nothing but `nextrow` and the
    slot. -/
theorem Mapped.initRow_spec (h : Mapped G m) {n : ℕ} (hn : m.word 28 = n % 4294967296) (env : Env)
    (filename : Option CStr) (lineno : Int32)
    (hloc : ∀ p ∈ locationPushes G.cfg.options.toNat filename lineno, p.Exact) :
    ∃ m', initRow G.handle env filename lineno m = some (m', G.slot (n % G.numRows)) ∧
      RowHolds G.rowLen m' (G.slot (n % G.numRows)) (recFormat.fit G.rowLen
        (offered (locationPushes G.cfg.options.toNat filename lineno))) ∧
      m'.word (G.slot (n % G.numRows) + 16) = n % 4294967296 ∧
      m'.word 28 = (n + 1) % 4294967296 ∧ Mem.Frame (G.acquired n) m m' := by
  have hslot : n % G.numRows < G.numRows := Nat.mod_lt _ G.numRows_pos
  have hbase := G.slot_base (n % G.numRows)
  obtain ⟨m₁, e₁, w₁, f₁⟩ := h.fetchRowid_spec
  have h₁ : Mapped G m₁ := h.frame f₁ fun x hx => by have := hx.2; omega
  have hptr := h₁.rowPtr_eq (m.word_lt 28)
  rw [hn, G.wrapped_slot] at hptr
  have hopt : m₁.word 32 = G.cfg.options.toNat := h₁.header.options
  obtain ⟨m₂, e₂, hrow, hid, f₂⟩ := initSlot_spec (h₁.slotRoom hslot) (m.word_lt 28) env
    filename lineno (by rw [hopt]; exact hloc)
  rw [hopt] at hrow
  rw [hn] at hid
  refine ⟨m₂, ?_, hrow, hid, ?_, ?_⟩
  · simp only [initRow, e₁, hn, hptr, Option.bind_eq_bind, Option.bind_some]
    rw [hn] at e₂
    rw [e₂]
    rfl
  · rw [f₂.word_of_Ico (by omega), w₁, hn, Nat.mod_add_mod]
  · exact (f₁.mono Set.subset_union_left).trans (f₂.mono Set.subset_union_right)

end Mapped

/-- A fresh memmap is mapped, its `nextrow` is 0 and so is every byte behind the header. -/
theorem Geometry.created (G : Geometry) (date : List UInt8) :
    ∃ m, create ⟨true, true⟩ G.ps date G.config = some (G.handle, m) ∧ Mapped G m ∧ m.word 28 = 0 ∧
      ∀ x, 92 ≤ x → m.byte x = 0 := by
  have hsize := G.slot_room G.numRows_pos
  have hbase := G.slot_base 0
  obtain ⟨m, hm, hok, hn, hs, hz⟩ := create_spec G.ps date G.config
    (by rw [← G.cfg_eq, ← G.layout_eq]; omega)
  rw [← G.cfg_eq, ← G.layout_eq] at *
  exact ⟨m, hm, ⟨hok, hs⟩, hn, hz⟩

theorem Geometry.of_create (G : Geometry) {os : Os} {date : List UInt8} {h : Handle} {m : Mem}
    (hc : create os G.ps date G.config = some (h, m)) :
    h = G.handle ∧ Mapped G m ∧ m.word 28 = 0 ∧ ∀ x, 92 ≤ x → m.byte x = 0 := by
  obtain ⟨m', e, h'⟩ := G.created date
  rw [create_willing hc, Option.some.injEq, Prod.mk.injEq] at e
  obtain ⟨rfl, rfl⟩ := e
  exact ⟨rfl, h'⟩

end Log2mem
