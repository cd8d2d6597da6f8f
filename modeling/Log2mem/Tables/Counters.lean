import Log2mem.Layout.Masks
import Log2mem.Ring.Geometry

/-! The counters and their labels (`log2mem_counter_add`, `log2mem_counter_incr`,
    `log2mem_counter_label`).

    A counter id of any sign is masked into the table, so ids that agree modulo `num_counters` share an
    entry. A label is copied over 63 of its 64 bytes, padded with NULs, and marks the counter as used.

        counters_off + 8 i          labels_off + 64 i
        │ value │ used │            │ text (63) │ NUL │ -/

namespace Log2mem
open Schemes

/-- `&g_log2mem->counters[idx]`. -/
def counterAddr (h : Handle) (idx : ℤ) : ℤ := h.counters + idx * 8

/-- `&g_log2mem->counter_labels[idx]`. -/
def labelAddr (h : Handle) (idx : ℤ) : ℤ := h.counterLabels + idx * 64

/-- `MEMLOG_LABEL_LEN`. -/
def labelLen : ℕ := 64

/-- `strncpy`: at most `n` characters, and NULs up to `n` bytes. -/
def strncpy (dst : ℤ) (src : CStr) (n : ℕ) (m : Mem) : Option Mem := m.copy dst n src.buf

/-- `log2mem_counter_add`; the addition is one atomic step and wraps. -/
def log2memCounterAdd (h : Handle) (counterid valueToAdd : Int32) (m : Mem) : Option Mem := do
  let numCounters ← hdrNumCounters m
  let counter := counterAddr h (maskIdx counterid.toInt numCounters)
  let v ← m.load32 counter
  m.store32 counter (toU32 (v + valueToAdd.toInt))

/-- `log2mem_counter_incr`. -/
def log2memCounterIncr (h : Handle) (counterid : Int32) : Mem → Option Mem :=
  log2memCounterAdd h counterid 1

/-- `log2mem_counter_label`. -/
def log2memCounterLabel (h : Handle) (counterid : Int32) (src : CStr) (m : Mem) : Option Mem := do
  let numCounters ← hdrNumCounters m
  let idx := maskIdx counterid.toInt numCounters
  let m ← strncpy (labelAddr h idx) src (labelLen - 1) m
  m.store32 (counterAddr h idx + 4) 1

/-- A mapping holds the header of a memmap and both tables of `n` counters, which do not overlap. -/
structure CounterTables (h : Handle) (n : ℕ) (m : Mem) : Prop where
  numCounters : m.word 36 = n
  pow2 : ∃ b ≤ 31, n = 2 ^ b
  counters : 92 ≤ h.counters ∧ h.counters + 8 * n ≤ m.size
  labels : 92 ≤ h.counterLabels ∧ h.counterLabels + 64 * n ≤ m.size
  apart : h.counters + 8 * n ≤ h.counterLabels ∨ h.counterLabels + 64 * n ≤ h.counters

/-! ### One entry -/

namespace CounterTables
variable {h : Handle} {n i j : ℕ} {m m' : Mem} {counterid : Int32}

theorem pos (ht : CounterTables h n m) : 0 < n := by
  obtain ⟨b, -, hb⟩ := ht.pow2
  rw [hb]
  exact Nat.two_pow_pos b

theorem frame_of {S : Set ℤ} (ht : CounterTables h n m) (hf : Mem.Frame S m m') (hS : ∀ x ∈ S, 92 ≤ x) :
    CounterTables h n m' := by
  refine ⟨?_, ht.pow2, ?_, ?_, ht.apart⟩
  · rw [hf.word_of_outside (fun x hx => Or.inr (hS x hx)) (show 0 ≤ _ by omega) (by omega), ht.numCounters]
  · rw [hf.size]
    exact ht.counters
  · rw [hf.size]
    exact ht.labels

theorem frame {lo hi : ℤ} (ht : CounterTables h n m) (hf : Mem.Frame (Set.Ico lo hi) m m')
    (hlo : 92 ≤ lo) : CounterTables h n m' :=
  ht.frame_of hf fun _ hx => le_trans hlo hx.1

theorem hdrNumCounters_eq (ht : CounterTables h n m) : hdrNumCounters m = some n := by
  have := ht.counters
  have := ht.pos
  rw [hdrNumCounters, Mem.load32_eq ⟨by omega, by omega⟩, ht.numCounters]

/-- A masked id is its residue, and an index of the tables. -/
theorem maskIdx_eq (ht : CounterTables h n m) (counterid : Int32) :
    maskIdx counterid.toInt n = counterid.toInt % n ∧
      0 ≤ counterid.toInt % n ∧ counterid.toInt % n < n := by
  obtain ⟨b, hb, hn⟩ := ht.pow2
  have hpos := ht.pos
  exact ⟨maskIdx_emod hb hn _, Int.emod_nonneg _ (by omega), Int.emod_lt_of_pos _ (by omega)⟩

theorem mod_lt (ht : CounterTables h n m) (hid : counterid.toInt % n = i) : i < n := by
  have := (ht.maskIdx_eq counterid).2.2
  omega

theorem counter_entry (ht : CounterTables h n m) (hi : i < n) :
    92 ≤ counterAddr h i ∧ counterAddr h i + 8 ≤ m.size := by
  have := ht.counters
  unfold counterAddr
  omega

theorem label_entry (ht : CounterTables h n m) (hi : i < n) :
    92 ≤ labelAddr h i ∧ labelAddr h i + 64 ≤ m.size := by
  have := ht.labels
  unfold labelAddr
  omega

theorem counter_inBounds (ht : CounterTables h n m) (hi : i < n) : m.InBounds (counterAddr h i) 8 := by
  obtain ⟨h0, h1⟩ := ht.counter_entry hi
  exact ⟨by omega, h1⟩

theorem label_inBounds (ht : CounterTables h n m) (hi : i < n) : m.InBounds (labelAddr h i) 64 := by
  obtain ⟨h0, h1⟩ := ht.label_entry hi
  exact ⟨by omega, h1⟩

theorem counter_label (ht : CounterTables h n m) (hi : i < n) (hj : j < n) :
    counterAddr h i + 8 ≤ labelAddr h j ∨ labelAddr h j + 64 ≤ counterAddr h i := by
  have := ht.apart
  unfold counterAddr labelAddr
  omega

/-- ADD: the masked counter's value grows by the amount, and nothing else changes. -/
theorem counterAdd_spec (ht : CounterTables h n m) (hid : counterid.toInt % n = i) (valueToAdd : Int32) :
    ∃ m', log2memCounterAdd h counterid valueToAdd m = some m' ∧
      m'.word (counterAddr h i) = toU32 (m.word (counterAddr h i) + valueToAdd.toInt) ∧
      Mem.Frame (Set.Ico (counterAddr h i) (counterAddr h i + 4)) m m' := by
  obtain ⟨h0, h8⟩ := ht.counter_entry (ht.mod_lt hid)
  have hin : m.InBounds (counterAddr h i) 4 := ⟨by omega, by omega⟩
  obtain ⟨m', e, f, w⟩ := Mem.store32_spec hin (toU32 (m.word (counterAddr h i) + valueToAdd.toInt))
  refine ⟨m', ?_, by rw [w, Nat.mod_eq_of_lt (toU32_lt _)], f⟩
  simp only [log2memCounterAdd, ht.hdrNumCounters_eq, (ht.maskIdx_eq counterid).1, hid,
    Option.bind_eq_bind, Option.bind_some, Mem.load32_eq hin, e]

/-- LABEL: the masked counter's label and `used` word are set, and nothing else changes. -/
theorem counterLabel_spec (ht : CounterTables h n m) (hid : counterid.toInt % n = i) (src : CStr) :
    ∃ m', log2memCounterLabel h counterid src m = some m' ∧
      m'.get (labelAddr h i) 63 = (List.range 63).map src.buf ∧
      m'.word (counterAddr h i + 4) = 1 ∧
      Mem.Frame (Set.Ico (labelAddr h i) (labelAddr h i + 63) ∪
        Set.Ico (counterAddr h i + 4) (counterAddr h i + 8)) m m' := by
  have hi := ht.mod_lt hid
  obtain ⟨hl0, hl64⟩ := ht.label_entry hi
  obtain ⟨hc0, hc8⟩ := ht.counter_entry hi
  have hapart := ht.counter_label hi hi
  obtain ⟨m₁, e₁, f₁, g₁⟩ := Mem.copy_spec (m := m) (a := labelAddr h i) (n := 63)
    ⟨by omega, by omega⟩ src.buf
  obtain ⟨m₂, e₂, f₂, w₂⟩ := Mem.store32_spec (m := m₁) (a := counterAddr h i + 4)
    ⟨by omega, by rw [f₁.size]; omega⟩ 1
  have hcopy : strncpy (labelAddr h i) src (labelLen - 1) m = some m₁ := e₁
  refine ⟨m₂, ?_, ?_, w₂, ?_⟩
  · simp only [log2memCounterLabel, ht.hdrNumCounters_eq, (ht.maskIdx_eq counterid).1, hid,
      Option.bind_eq_bind, Option.bind_some, hcopy, e₂]
  · rw [f₂.get_of_Ico (by omega), g₁]
  · refine (f₁.mono Set.subset_union_left).trans (f₂.mono fun x hx => Or.inr ⟨hx.1, ?_⟩)
    have := hx.2
    omega

end CounterTables

/-! ### The tables of a memmap -/

namespace Geometry
variable (G : Geometry)

def numCounters : ℕ := G.cfg.numCounters.toNat

/-- The counter a counter id stands for. -/
def counterOf (counterid : Int32) : ℕ := (counterid.toInt % G.numCounters).toNat

/-- The address of counter `i`. -/
def counter (i : ℕ) : ℤ := counterAddr G.handle i

/-- The address of the label of counter `i`. -/
def label (i : ℕ) : ℤ := labelAddr G.handle i

theorem numCounters_pow2 : ∃ b ≤ 31, G.numCounters = 2 ^ b := by
  rw [numCounters, G.cfg_eq]
  exact normalise_numCounters_pow2 G.config

theorem numCounters_pos : 0 < G.numCounters := by
  obtain ⟨b, -, hb⟩ := G.numCounters_pow2
  rw [hb]
  exact Nat.two_pow_pos b

theorem counterOf_eq (counterid : Int32) : counterid.toInt % G.numCounters = G.counterOf counterid := by
  have hpos := G.numCounters_pos
  rw [counterOf, Int.toNat_of_nonneg (Int.emod_nonneg _ (by omega))]

theorem counterOf_lt (counterid : Int32) : G.counterOf counterid < G.numCounters := by
  have hpos := G.numCounters_pos
  have h1 := Int.emod_lt_of_pos counterid.toInt (show (0 : ℤ) < G.numCounters by omega)
  have heq := G.counterOf_eq counterid
  omega

theorem counter_room {i : ℕ} (h : i < G.numCounters) :
    256 ≤ G.counter i ∧ G.counter i + 8 ≤ G.layout.rowsOff := by
  have h0 := G.sound.header
  have h1 := G.sound.counters
  unfold numCounters at h
  unfold counter counterAddr handle Layout.handle
  simp only
  omega

theorem label_room {i : ℕ} (h : i < G.numCounters) :
    G.layout.counterLabelsOff ≤ G.label i ∧ G.label i + 64 ≤ G.layout.doubleVarsOff := by
  have h1 := G.sound.labels
  unfold numCounters at h
  unfold label labelAddr handle Layout.handle
  simp only
  omega

end Geometry

section Specs
variable {G : Geometry} {m : Mem}

theorem Mapped.inBounds (h : Mapped G m) {a : ℤ} {n : ℕ} (h0 : 256 ≤ a) (h1 : a + n ≤ G.layout.size) :
    m.InBounds a n := ⟨by omega, by rw [h.size]; exact h1⟩

theorem Mapped.counterTables (hm : Mapped G m) : CounterTables G.handle G.numCounters m := by
  have hheader := G.sound.header
  have hcounters := G.sound.counters
  have hsec := G.sections
  have hrows : 0 ≤ (G.numRows : ℤ) * (24 + G.rowLen) := by positivity
  have hsize := hm.size
  refine ⟨hm.header.numCounters, G.numCounters_pow2, ?_, ?_, ?_⟩ <;>
    simp only [Geometry.handle, Layout.handle, Geometry.numCounters] <;> omega

/-- ADD: only the masked counter's value changes. -/
theorem Mapped.counterAdd_spec (h : Mapped G m) (counterid valueToAdd : Int32) :
    ∃ m', log2memCounterAdd G.handle counterid valueToAdd m = some m' ∧
      m'.word (G.counter (G.counterOf counterid)) =
        toU32 (m.word (G.counter (G.counterOf counterid)) + valueToAdd.toInt) ∧
      Mem.Frame (Set.Ico (G.counter (G.counterOf counterid)) (G.counter (G.counterOf counterid) + 4))
        m m' :=
  h.counterTables.counterAdd_spec (G.counterOf_eq counterid) valueToAdd

/-- LABEL: only the masked counter's label and `used` word change. -/
theorem Mapped.counterLabel_spec (h : Mapped G m) (counterid : Int32) (src : CStr) :
    ∃ m', log2memCounterLabel G.handle counterid src m = some m' ∧
      m'.get (G.label (G.counterOf counterid)) 63 = (List.range 63).map src.buf ∧
      m'.word (G.counter (G.counterOf counterid) + 4) = 1 ∧
      Mem.Frame (Set.Ico (G.label (G.counterOf counterid)) (G.label (G.counterOf counterid) + 63) ∪
        Set.Ico (G.counter (G.counterOf counterid) + 4) (G.counter (G.counterOf counterid) + 8)) m m' :=
  h.counterTables.counterLabel_spec (G.counterOf_eq counterid) src

end Specs

end Log2mem
