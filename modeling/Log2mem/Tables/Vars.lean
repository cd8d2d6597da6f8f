import Log2mem.Tables.Counters

/-! The variables (`log2mem_var_double_init`, `log2mem_var_double_set` and their `int` twins).

    The two tables differ in the width of a value and, by the padding of the struct, in the size of an
    entry; everything else is the same code, written here once. An initialised variable ignores a
    second initialisation.

        double:  │ value (8) │ flags │ text (64) │ pad │   80 bytes
        int:     │ value (4) │ flags │ text (64) │         72 bytes -/

namespace Log2mem
open Schemes

/-- One of the two tables of variables. -/
inductive VarTable where
  | double
  | int

namespace VarTable

/-- `sizeof` the value. -/
def width : VarTable → ℕ
  | double => 8
  | int => 4

/-- `sizeof(struct log2mem_var_double)` and `sizeof(struct log2mem_var_int)`. -/
def size : VarTable → ℕ
  | double => 80
  | int => 72

/-- The section of the table. -/
def base (h : Handle) : VarTable → ℤ
  | double => h.doubleVars
  | int => h.intVars

/-- The address of variable `idx`. -/
def addr (t : VarTable) (h : Handle) (idx : ℤ) : ℤ := t.base h + idx * t.size

end VarTable

/-- `log2mem_eInitialised`. -/
def eInitialised : ℕ := 1

/-- `log2mem_eUsed`. -/
def eUsed : ℕ := 2

/-- `flags |= bits`. -/
def orFlags (flags : ℤ) (bits : ℕ) (m : Mem) : Option Mem := do
  let old ← m.load32 flags
  m.store32 flags (old ||| bits)

/-- The text of a variable, with its last byte set to NUL; nothing for a null `src`. -/
def putText (text : ℤ) (src : Option CStr) (m : Mem) : Option Mem := do
  match src with
  | some s =>
    let m ← strncpy text s (labelLen - 1) m
    m.store (text + (labelLen - 1 : ℕ)) [0]
  | none => return m

/-- The body shared by `log2mem_var_double_init` and `log2mem_var_int_init`. -/
def varInit (t : VarTable) (h : Handle) (id : UInt32) (value : ℕ) (src : Option CStr) (m : Mem) :
    Option Mem := do
  let numVars ← hdrNumVars m
  let var := t.addr h (maskIdx id.toNat numVars)
  let flags ← m.load32 (var + t.width)
  if flags &&& eInitialised ≠ 0 then return m
  else
    let m ← m.store var (leBytes t.width value)
    let m ← orFlags (var + t.width) (eUsed ||| eInitialised) m
    putText (var + t.width + 4) src m

/-- The body shared by `log2mem_var_double_set` and `log2mem_var_int_set`. -/
def varSet (t : VarTable) (h : Handle) (id : UInt32) (value : ℕ) (m : Mem) : Option Mem := do
  let numVars ← hdrNumVars m
  let var := t.addr h (maskIdx id.toNat numVars)
  let m ← m.store var (leBytes t.width value)
  orFlags (var + t.width) eUsed m

/-- `log2mem_var_double_init`, on the bits of the `double`. -/
def log2memVarDoubleInit (h : Handle) (id : UInt32) (value : UInt64) (src : Option CStr) :
    Mem → Option Mem := varInit .double h id value.toNat src

/-- `log2mem_var_double_set`. -/
def log2memVarDoubleSet (h : Handle) (id : UInt32) (d : UInt64) : Mem → Option Mem :=
  varSet .double h id d.toNat

/-- `log2mem_var_int_init`. -/
def log2memVarIntInit (h : Handle) (id : UInt32) (value : Int32) (src : Option CStr) :
    Mem → Option Mem := varInit .int h id value.toUInt32.toNat src

/-- `log2mem_var_int_set`. -/
def log2memVarIntSet (h : Handle) (id : UInt32) (d : Int32) : Mem → Option Mem :=
  varSet .int h id d.toUInt32.toNat

/-! ### Entries -/

namespace Geometry
variable (G : Geometry)

def numVars : ℕ := G.cfg.numVars.toNat

/-- The variable an id stands for. -/
def varOf (id : UInt32) : ℕ := id.toNat % G.numVars

/-- The address of variable `i` of a table. -/
def var (t : VarTable) (i : ℕ) : ℤ := t.addr G.handle i

/-- The bytes of variable `i` of a table. -/
def varBytes (t : VarTable) (i : ℕ) : Set ℤ := Set.Ico (G.var t i) (G.var t i + t.size)

theorem numVars_pow2 (h : 1 ≤ G.numVars) : ∃ b ≤ 31, G.numVars = 2 ^ b := by
  rw [numVars, G.cfg_eq] at h ⊢
  rcases roundUp_cases G.config.numVars with hpow | hzero
  · exact hpow
  · rw [normalise] at h
    simp only [hzero] at h
    exact absurd h (by decide)

theorem var_room (t : VarTable) {i : ℕ} (h : i < G.numVars) :
    G.layout.doubleVarsOff ≤ G.var t i ∧ G.var t i + t.size ≤ G.layout.size := by
  have h1 := G.sound.doubles
  have h2 := G.sound.ints
  unfold numVars at h
  unfold var VarTable.addr handle Layout.handle
  cases t <;> simp only [VarTable.base, VarTable.size] <;> push_cast <;> omega

theorem var_ge (t : VarTable) {i : ℕ} (h : i < G.numVars) : 256 ≤ G.var t i := by
  have hroom := G.var_room t h
  have hslot := G.slot_end G.numRows_pos
  have hbase := G.slot_base 0
  have hsec := G.sections
  omega

end Geometry

theorem VarTable.width_size (t : VarTable) : 4 ≤ t.width ∧ t.width + 68 ≤ t.size := by
  cases t <;> decide

theorem VarTable.entries_apart {h : Handle} {n : ℕ}
    (hapart : h.doubleVars + 80 * n ≤ h.intVars ∨ h.intVars + 72 * n ≤ h.doubleVars) {t t' : VarTable}
    {i j : ℕ} (hi : i < n) (hj : j < n) (hne : ¬ (t = t' ∧ i = j)) :
    t.addr h i + t.size ≤ t'.addr h j ∨ t'.addr h j + t'.size ≤ t.addr h i := by
  unfold VarTable.addr
  cases t <;> cases t' <;> simp only [VarTable.size, VarTable.base] <;> push_cast <;>
    simp only [true_and, reduceCtorEq, false_and, not_false_eq_true] at hne <;> omega

/-- A mapping holds the header of a memmap and both tables of `n` variables, which do not overlap. -/
structure VarTables (h : Handle) (n : ℕ) (m : Mem) : Prop where
  numVars : m.word 48 = n
  pow2 : ∃ b ≤ 31, n = 2 ^ b
  room : ∀ t : VarTable, 92 ≤ t.base h ∧ t.base h + t.size * n ≤ m.size
  apart : h.doubleVars + 80 * n ≤ h.intVars ∨ h.intVars + 72 * n ≤ h.doubleVars

/-- The bytes of a variable's text: 63 bytes of the label, padded with NULs, and a NUL. -/
def textBytes (src : Option CStr) : List UInt8 :=
  match src with
  | some s => (List.range 63).map s.buf ++ [0]
  | none => List.replicate 64 0

section Specs
variable {h : Handle} {n i : ℕ} {m : Mem} {id : UInt32}

theorem orFlags_spec {a : ℤ} (h : m.InBounds a 4) (bits : ℕ) :
    ∃ m', orFlags a bits m = some m' ∧ m'.word a = (m.word a ||| bits) % 4294967296 ∧
      Mem.Frame (Set.Ico a (a + 4)) m m' := by
  obtain ⟨m', e, f, w⟩ := Mem.store32_spec h (m.word a ||| bits)
  exact ⟨m', by simp only [orFlags, Mem.load32_eq h, Option.bind_eq_bind, Option.bind_some, e], w, f⟩

theorem putText_spec {a : ℤ} (h : m.InBounds a 64) (src : Option CStr) :
    ∃ m', putText a src m = some m' ∧
      (m'.get a 64 = if src.isSome then textBytes src else m.get a 64) ∧
      Mem.Frame (Set.Ico a (a + 64)) m m' := by
  obtain ⟨h0, h1⟩ := h
  cases src with
  | none => exact ⟨m, rfl, rfl, .refl ..⟩
  | some s =>
    obtain ⟨m₁, e₁, f₁, g₁⟩ := Mem.copy_spec (m := m) (a := a) (n := 63) ⟨h0, by omega⟩ s.buf
    obtain ⟨m₂, e₂, f₂, g₂⟩ := Mem.store_spec m₁ (a + 63) [0]
      ⟨by omega, by rw [f₁.size]; simp only [List.length_singleton]; omega⟩
    refine ⟨m₂, ?_, ?_, ?_⟩
    · have hcopy : strncpy a s (labelLen - 1) m = some m₁ := e₁
      have hstore : m₁.store (a + (labelLen - 1 : ℕ)) [0] = some m₂ := e₂
      simp only [putText, hcopy, Option.bind_eq_bind, Option.bind_some, hstore]
    · have hlast : m₂.get (a + (63 : ℕ)) 1 = [0] := g₂
      rw [m₂.get_add a 63 1, hlast, f₂.get_of_Ico (by omega), g₁]
      rfl
    · refine (f₁.ico_mono (le_refl a) (by omega)).trans (f₂.ico_mono (by omega) ?_)
      simp only [List.length_singleton]
      omega

/-- Initialising whatever entry the masked id stands for: one already initialised is left alone; any
    other takes the value, the flags and the text, and nothing else changes. -/
theorem varInit_at {t : VarTable} {a : ℤ} (hn : hdrNumVars m = some n)
    (ha : t.addr h (maskIdx id.toNat n) = a) (hin : m.InBounds a t.size) (value : ℕ)
    (src : Option CStr) : ∃ m', varInit t h id value src m = some m' ∧
      (m.word (a + t.width) &&& eInitialised ≠ 0 → m' = m) ∧
      (m.word (a + t.width) &&& eInitialised = 0 →
        m'.get a t.width = leBytes t.width value ∧
        m'.word (a + t.width) = (m.word (a + t.width) ||| (eUsed ||| eInitialised)) % 4294967296 ∧
        m'.get (a + t.width + 4) 64 =
          if src.isSome then textBytes src else m.get (a + t.width + 4) 64) ∧
      Mem.Frame (Set.Ico a (a + t.size)) m m' := by
  obtain ⟨hlo, hhi⟩ := hin
  obtain ⟨hw, hs⟩ := t.width_size
  have hload : m.load32 (a + t.width) = some (m.word (a + t.width)) :=
    Mem.load32_eq ⟨by omega, by push_cast; omega⟩
  simp only [varInit, hn, Option.bind_eq_bind, Option.bind_some, ha, hload]
  by_cases hinit : m.word (a + t.width) &&& eInitialised = 0
  · rw [if_neg (not_not.mpr hinit)]
    obtain ⟨m₁, e₁, f₁, g₁⟩ := Mem.store_spec m a (leBytes t.width value)
      ⟨by omega, by rw [leBytes_length]; omega⟩
    rw [leBytes_length] at f₁ g₁
    obtain ⟨m₂, e₂, w₂, f₂⟩ := orFlags_spec (m := m₁) (a := a + t.width)
      ⟨by omega, by rw [f₁.size]; push_cast; omega⟩ (eUsed ||| eInitialised)
    obtain ⟨m₃, e₃, g₃, f₃⟩ := putText_spec (m := m₂) (a := a + t.width + 4)
      ⟨by omega, by rw [f₂.size, f₁.size]; push_cast; omega⟩ src
    refine ⟨m₃, by rw [e₁, Option.bind_some, e₂, Option.bind_some, e₃],
      fun hne => absurd hinit hne, fun _ => ⟨?_, ?_, ?_⟩, ?_⟩
    · rw [f₃.get_of_Ico (by omega), f₂.get_of_Ico (by omega), g₁]
    · rw [f₃.word_of_Ico (by omega), w₂, f₁.word_of_Ico (by omega)]
    · rw [g₃, f₂.get_of_Ico (by omega), f₁.get_of_Ico (by omega)]
    · exact ((f₁.ico_mono (le_refl _) (by omega)).trans (f₂.ico_mono (by omega) (by omega))).trans
        (f₃.ico_mono (by omega) (by omega))
  · rw [if_pos hinit]
    exact ⟨m, rfl, fun _ => rfl, fun h0 => absurd h0 hinit, .refl ..⟩

namespace VarTables

theorem pos (hv : VarTables h n m) : 0 < n := by
  obtain ⟨b, -, hb⟩ := hv.pow2
  rw [hb]
  exact Nat.two_pow_pos b

theorem frame {S : Set ℤ} {m' : Mem} (hv : VarTables h n m) (hf : Mem.Frame S m m')
    (hS : ∀ x ∈ S, 92 ≤ x) : VarTables h n m' := by
  refine ⟨?_, hv.pow2, fun t => by rw [hf.size]; exact hv.room t, hv.apart⟩
  rw [hf.word_of_outside (fun x hx => Or.inr (hS x hx)) (show 0 ≤ _ by omega) (by omega), hv.numVars]

theorem entry (hv : VarTables h n m) (t : VarTable) (hi : i < n) :
    92 ≤ t.addr h i ∧ t.addr h i + t.size ≤ m.size := by
  obtain ⟨h0, h1⟩ := hv.room t
  unfold VarTable.addr
  cases t <;> simp only [VarTable.size] at h1 ⊢ <;> push_cast at h1 ⊢ <;> omega

theorem entry_disjoint (hv : VarTables h n m) {t t' : VarTable} {j : ℕ} (hi : i < n) (hj : j < n)
    (hne : ¬ (t = t' ∧ i = j)) :
    t.addr h i + t.size ≤ t'.addr h j ∨ t'.addr h j + t'.size ≤ t.addr h i :=
  VarTable.entries_apart hv.apart hi hj hne

/-- What is changed of one variable keeps clear of every other. -/
theorem outside_entry (hv : VarTables h n m) {t t' : VarTable} {j : ℕ} (hi : i < n) (hj : j < n)
    (hne : ¬ (t = t' ∧ i = j)) {hi' : ℤ} (hle : hi' ≤ t.addr h i + t.size) :
    ∀ x ∈ Set.Ico (t.addr h i) hi', x < t'.addr h j ∨ t'.addr h j + t'.size ≤ x := by
  refine Mem.outside_Ico ?_
  rcases hv.entry_disjoint hi hj hne with hd | hd
  · exact Or.inr (by omega)
  · exact Or.inl hd

theorem hdrNumVars_eq (hv : VarTables h n m) : hdrNumVars m = some n := by
  have hpos := hv.pos
  have hroom := hv.room .int
  simp only [VarTable.size] at hroom
  rw [hdrNumVars, Mem.load32_eq ⟨by omega, by omega⟩, hv.numVars]

theorem maskIdx_eq (hv : VarTables h n m) (id : UInt32) :
    maskIdx id.toNat n = (id.toNat % n : ℕ) := by
  obtain ⟨b, hb, hn⟩ := hv.pow2
  rw [maskIdx_emod hb hn]
  rfl

theorem mod_lt (hv : VarTables h n m) (hid : id.toNat % n = i) : i < n := by
  rw [← hid]
  exact Nat.mod_lt _ hv.pos

/-- SET: the masked variable takes the value and is marked used, and nothing else changes. -/
theorem varSet_spec (hv : VarTables h n m) (t : VarTable) (hid : id.toNat % n = i) (value : ℕ) :
    ∃ m', varSet t h id value m = some m' ∧ m'.get (t.addr h i) t.width = leBytes t.width value ∧
      m'.word (t.addr h i + t.width) = (m.word (t.addr h i + t.width) ||| eUsed) % 4294967296 ∧
      m'.get (t.addr h i + t.width + 4) 64 = m.get (t.addr h i + t.width + 4) 64 ∧
      Mem.Frame (Set.Ico (t.addr h i) (t.addr h i + t.width + 4)) m m' := by
  obtain ⟨hlo, hhi⟩ := hv.entry t (hv.mod_lt hid)
  obtain ⟨hw, hs⟩ := t.width_size
  obtain ⟨m₁, e₁, f₁, g₁⟩ := Mem.store_spec m (t.addr h i) (leBytes t.width value)
    ⟨by omega, by rw [leBytes_length]; omega⟩
  rw [leBytes_length] at f₁ g₁
  obtain ⟨m₂, e₂, w₂, f₂⟩ := orFlags_spec (m := m₁) (a := t.addr h i + t.width)
    ⟨by omega, by rw [f₁.size]; push_cast; omega⟩ eUsed
  refine ⟨m₂, ?_, ?_, ?_, ?_, ?_⟩
  · simp only [varSet, hv.hdrNumVars_eq, Option.bind_eq_bind, Option.bind_some, hv.maskIdx_eq, hid, e₁, e₂]
  · rw [f₂.get_of_Ico (by omega), g₁]
  · rw [w₂, f₁.word_of_Ico (by omega)]
  · rw [f₂.get_of_Ico (by omega), f₁.get_of_Ico (by omega)]
  · exact (f₁.ico_mono (le_refl _) (by omega)).trans (f₂.ico_mono (by omega) (by omega))

/-- INIT: a variable already initialised is left alone; any other takes the value, the flags and the
    text, and nothing else changes. -/
theorem varInit_spec (hv : VarTables h n m) (t : VarTable) (hid : id.toNat % n = i) (value : ℕ)
    (src : Option CStr) : ∃ m', varInit t h id value src m = some m' ∧
      (m.word (t.addr h i + t.width) &&& eInitialised ≠ 0 → m' = m) ∧
      (m.word (t.addr h i + t.width) &&& eInitialised = 0 →
        m'.get (t.addr h i) t.width = leBytes t.width value ∧
        m'.word (t.addr h i + t.width) =
          (m.word (t.addr h i + t.width) ||| (eUsed ||| eInitialised)) % 4294967296 ∧
        m'.get (t.addr h i + t.width + 4) 64 =
          if src.isSome then textBytes src else m.get (t.addr h i + t.width + 4) 64) ∧
      Mem.Frame (Set.Ico (t.addr h i) (t.addr h i + t.size)) m m' := by
  obtain ⟨hlo, hhi⟩ := hv.entry t (hv.mod_lt hid)
  exact varInit_at hv.hdrNumVars_eq (by rw [hv.maskIdx_eq, hid]) ⟨by omega, hhi⟩ value src

end VarTables

/-! ### The tables of a memmap -/

section Mapped
variable {G : Geometry}

theorem Mapped.varTables (hm : Mapped G m) (hv : 1 ≤ G.numVars) : VarTables G.handle G.numVars m := by
  have hheader := G.sound.header
  have hcounters := G.sound.counters
  have hsec := G.sections
  have hrows : 0 ≤ (G.numRows : ℤ) * (24 + G.rowLen) := by positivity
  have hsize := hm.size
  refine ⟨hm.header.numVars, G.numVars_pow2 hv, fun t => ?_, ?_⟩
  · cases t <;> simp only [VarTable.base, VarTable.size, Geometry.handle, Layout.handle,
      Geometry.numVars] <;> push_cast <;> omega
  · simp only [Geometry.handle, Layout.handle, Geometry.numVars]
    omega

/-- SET: only the masked variable changes. -/
theorem Mapped.varSet_spec (hm : Mapped G m) (hv : 1 ≤ G.numVars) (t : VarTable) (id : UInt32)
    (value : ℕ) : ∃ m', varSet t G.handle id value m = some m' ∧
      Mem.Frame (G.varBytes t (G.varOf id)) m m' := by
  obtain ⟨m', e, -, -, -, hf⟩ := (hm.varTables hv).varSet_spec t (rfl : id.toNat % G.numVars = _) value
  obtain ⟨hw, hs⟩ := t.width_size
  exact ⟨m', e, hf.ico_mono (le_refl _) (by unfold Geometry.var Geometry.varOf; omega)⟩

/-- INIT: only the masked variable changes. -/
theorem Mapped.varInit_spec (hm : Mapped G m) (hv : 1 ≤ G.numVars) (t : VarTable) (id : UInt32)
    (value : ℕ) (src : Option CStr) : ∃ m', varInit t G.handle id value src m = some m' ∧
      Mem.Frame (G.varBytes t (G.varOf id)) m m' := by
  obtain ⟨m', e, -, -, hf⟩ := (hm.varTables hv).varInit_spec t (rfl : id.toNat % G.numVars = _) value src
  exact ⟨m', e, hf⟩

end Mapped

end Specs

end Log2mem
