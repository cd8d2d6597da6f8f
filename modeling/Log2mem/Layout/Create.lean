import Log2mem.Layout.Sections
import Log2mem.Schemes.Memory

/-! Creating the memmap (`__log2mem_create`) and finding its sections again
    (`__log2mem_calculate_section_pointers`).

    The file is sized and mapped, zeroed, and its header populated. `ftruncate` refuses a negative
    size and `mmap` an empty one; either way the process exits and no handle exists. -/

namespace Log2mem
open Schemes

/-- `struct log2mem_handle`: the sections, as offsets from the start of the mapping. -/
structure Handle where
  counters : ℤ
  rows : ℤ
  counterLabels : ℤ
  doubleVars : ℤ
  intVars : ℤ
  deriving DecidableEq

/-- The section pointers `mem + layout.…_off`. -/
def Layout.handle (L : Layout) : Handle :=
  { counters := L.countersOff, rows := L.rowsOff, counterLabels := L.counterLabelsOff,
    doubleVars := L.doubleVarsOff, intVars := L.intVarsOff }

theorem Layout.handle_doubleVars (L : Layout) : L.handle.doubleVars = L.doubleVarsOff := rfl

theorem Layout.handle_intVars (L : Layout) : L.handle.intVars = L.intVarsOff := rfl

/-! ### Fields of `struct log2mem_mm_header`

        0    24    28      32      36           40       44      48       52      56   60
        desc flags nextrow options num_counters num_rows row_len num_vars version arch datecreated -/

/-- `header->nextrow`. -/
def hdrNextrow (m : Mem) : Option ℕ := m.load32 28

/-- `header->config.options`. -/
def hdrOptions (m : Mem) : Option ℕ := m.load32 32

/-- `header->config.num_counters`. -/
def hdrNumCounters (m : Mem) : Option ℕ := m.load32 36

/-- `header->config.num_rows`. -/
def hdrNumRows (m : Mem) : Option ℕ := m.load32 40

/-- `header->config.row_len`. -/
def hdrRowLen (m : Mem) : Option ℕ := m.load32 44

/-- `header->config.num_vars`. -/
def hdrNumVars (m : Mem) : Option ℕ := m.load32 48

/-- The kernel's answers to requests it may grant or refuse. -/
structure Os where
  ftruncate : Bool
  mmap : Bool

/-- `"log2mem memmap version %d"` cut by `snprintf` to the 24 bytes of `desc`, NUL included. -/
def desc : List UInt8 :=
  [108, 111, 103, 50, 109, 101, 109, 32, 109, 101, 109, 109, 97, 112, 32, 118, 101, 114, 115, 105,
    111, 110, 32, 0]

/-- Populate the header: description, version, flags (little endian), architecture, config, `nextrow`
    and the formatted creation time, of which `snprintf` keeps 30 characters and a NUL. -/
def populate (config : Config) (date : List UInt8) (m : Mem) : Option Mem := do
  let m ← m.store 0 desc
  let m ← m.store 23 [0]
  let m ← m.store32 52 2
  let m ← m.store32 24 1
  let m ← m.store32 56 64
  let m ← m.store 32 config.bytes
  let m ← m.store32 28 0
  let m ← m.store 60 (List.replicate 32 0)
  let m ← m.store 60 (date.take 30 ++ [0])
  m.store 91 [0]

/-- `__log2mem_create`; `none` is `exit(1)` or a fault. -/
def create (os : Os) (ps : PageSize) (date : List UInt8) (config : Config) :
    Option (Handle × Mem) := do
  let config := normalise config
  let layout := calculateLayout ps config
  if os.ftruncate = false ∨ layout.size < 0 then none
  else if os.mmap = false ∨ layout.size = 0 then none
  else
    let m ← populate config date { size := layout.size.toNat, byte := fun _ => 0 }
    return (layout.handle, m)

/-- The `struct log2mem_config` in the header. -/
def loadConfig (m : Mem) : Option Config := do
  let options ← hdrOptions m
  let numCounters ← hdrNumCounters m
  let numRows ← hdrNumRows m
  let rowLen ← hdrRowLen m
  let numVars ← hdrNumVars m
  return { options := UInt32.ofNat options, numCounters := UInt32.ofNat numCounters,
           numRows := UInt32.ofNat numRows, rowLen := UInt32.ofNat rowLen,
           numVars := UInt32.ofNat numVars }

/-- `__log2mem_calculate_section_pointers`: the handle recomputed from the header's config. -/
def calculateSectionPointers (ps : PageSize) (m : Mem) : Option Handle := do
  let config ← loadConfig m
  return (calculateLayout ps config).handle

/-! ### What creation leaves behind -/

/-- The header of a memmap with this config, as every later operation reads it. -/
structure HeaderOk (cfg : Config) (m : Mem) : Prop where
  options : m.word 32 = cfg.options.toNat
  numCounters : m.word 36 = cfg.numCounters.toNat
  numRows : m.word 40 = cfg.numRows.toNat
  rowLen : m.word 44 = cfg.rowLen.toNat
  numVars : m.word 48 = cfg.numVars.toNat
  arch : m.word 56 = 64

theorem words_of_config {m : Mem} {c : Config} (h : m.get 32 20 = c.bytes) :
    m.word 32 = c.options.toNat ∧ m.word 36 = c.numCounters.toNat ∧
    m.word 40 = c.numRows.toNat ∧ m.word 44 = c.rowLen.toNat ∧
    m.word 48 = c.numVars.toNat := by
  have hsplit : m.get 32 20 = m.get 32 4 ++ m.get 36 4 ++ m.get 40 4 ++ m.get 44 4 ++
      m.get 48 4 := by
    rw [show (20 : ℕ) = 4 + 4 + 4 + 4 + 4 from rfl, m.get_add, m.get_add, m.get_add, m.get_add]
    rfl
  rw [hsplit, Config.bytes] at h
  obtain ⟨h, h5⟩ := List.append_inj' h (by simp)
  obtain ⟨h, h4⟩ := List.append_inj' h (by simp)
  obtain ⟨h, h3⟩ := List.append_inj' h (by simp)
  obtain ⟨h1, h2⟩ := List.append_inj' h (by simp)
  refine ⟨?_, ?_, ?_, ?_, ?_⟩
  · rw [Mem.word, h1, ofLe_leBytes]; exact Nat.mod_eq_of_lt c.options.toNat_lt
  · rw [Mem.word, h2, ofLe_leBytes]; exact Nat.mod_eq_of_lt c.numCounters.toNat_lt
  · rw [Mem.word, h3, ofLe_leBytes]; exact Nat.mod_eq_of_lt c.numRows.toNat_lt
  · rw [Mem.word, h4, ofLe_leBytes]; exact Nat.mod_eq_of_lt c.rowLen.toNat_lt
  · rw [Mem.word, h5, ofLe_leBytes]; exact Nat.mod_eq_of_lt c.numVars.toNat_lt

/-- The 32 bytes of `datecreated`: what `snprintf` keeps of the creation time, and zeros. -/
def datecreated (date : List UInt8) : List UInt8 :=
  date.take 30 ++ List.replicate (32 - (date.take 30).length) 0

@[simp] theorem datecreated_length (date : List UInt8) : (datecreated date).length = 32 := by
  have hdate : (date.take 30).length ≤ 30 := by simp
  rw [datecreated, List.length_append, List.length_replicate]
  omega

/-- The stores to `datecreated` as one. -/
theorem store_datecreated (date : List UInt8) (m : Mem) :
    (((m.store 60 (List.replicate 32 0)).bind fun m => m.store 60 (date.take 30 ++ [0])).bind fun m =>
      m.store 91 [0]) = m.store 60 (datecreated date) := by
  have hdate : (date.take 30).length ≤ 30 := by simp
  obtain ⟨n, hn⟩ : ∃ n, 32 - (date.take 30).length = 1 + n + 1 := ⟨30 - (date.take 30).length, by omega⟩
  have hbefore := m.store_within 60 [] (List.replicate ((date.take 30).length + 1) 0)
    (List.replicate (n + 1) 0) (date.take 30 ++ [0]) (by simp)
  have hlast := m.store_within 60 (date.take 30 ++ [0] ++ List.replicate n 0) [0] [] [0] rfl
  have hzeros : List.replicate 32 (0 : UInt8) =
      List.replicate ((date.take 30).length + 1) 0 ++ List.replicate (n + 1) 0 := by
    rw [List.replicate_append_replicate]
    congr 1
    omega
  have hbytes : date.take 30 ++ [0] ++ List.replicate n 0 ++ [0] = datecreated date := by
    rw [datecreated, hn, ← List.replicate_append_replicate, ← List.replicate_append_replicate]
    simp only [List.append_assoc, List.replicate_one]
  simp only [List.nil_append, List.append_nil, List.length_nil, Nat.cast_zero, add_zero] at hbefore hlast
  have hend : (60 : ℤ) + (date.take 30 ++ [0] ++ List.replicate n 0).length = 91 := by
    simp only [List.length_append, List.length_singleton, List.length_replicate]
    omega
  rw [hend, hbytes] at hlast
  rw [hzeros, hbefore, List.replicate_succ', ← List.append_assoc, hbytes, hlast]

theorem populate_fields (config : Config) (date : List UInt8) (m : Mem) :
    populate config date m = (do
      let m ← m.store 0 desc
      let m ← m.store32 52 2
      let m ← m.store32 24 1
      let m ← m.store32 56 64
      let m ← m.store 32 config.bytes
      let m ← m.store32 28 0
      m.store 60 (datecreated date)) := by
  have hdesc := m.store_within 0 (desc.take 23) [0] [] [0] rfl
  rw [show desc.take 23 ++ [0] ++ [] = desc from rfl, show (0 : ℤ) + (desc.take 23).length = 23 from rfl]
    at hdesc
  conv_rhs => rw [Option.bind_eq_bind, ← hdesc, Option.bind_assoc]
  simp only [populate, Option.bind_eq_bind, ← store_datecreated, Option.bind_assoc]

/-- Populating a mapping with room for the header succeeds, stores the config, resets `nextrow` and
    touches nothing past the header. -/
theorem populate_spec (m : Mem) (date : List UInt8) (hsize : 92 ≤ m.size) (config : Config) :
    ∃ m', populate config date m = some m' ∧ HeaderOk config m' ∧ m'.word 28 = 0 ∧
      m'.size = m.size ∧ ∀ x, 92 ≤ x → m'.byte x = m.byte x := by
  have hcfg : config.bytes.length = 20 := by simp [Config.bytes]
  obtain ⟨m1, e1, f1, -⟩ := Mem.store_spec m 0 desc
    ⟨by omega, by have : desc.length = 24 := rfl; omega⟩
  obtain ⟨m2, e2, f2, -⟩ := Mem.store32_spec (m := m1) (a := 52) ⟨by omega, by rw [f1.size]; omega⟩ 2
  obtain ⟨m3, e3, f3, -⟩ := Mem.store32_spec (m := m2) (a := 24)
    ⟨by omega, by rw [f2.size, f1.size]; omega⟩ 1
  obtain ⟨m4, e4, f4, w4⟩ := Mem.store32_spec (m := m3) (a := 56)
    ⟨by omega, by rw [f3.size, f2.size, f1.size]; omega⟩ 64
  obtain ⟨m5, e5, f5, w5⟩ := Mem.store_spec m4 32 config.bytes
    ⟨by omega, by rw [f4.size, f3.size, f2.size, f1.size, hcfg]; omega⟩
  obtain ⟨m6, e6, f6, w6⟩ := Mem.store32_spec (m := m5) (a := 28)
    ⟨by omega, by rw [f5.size, f4.size, f3.size, f2.size, f1.size]; omega⟩ 0
  obtain ⟨m7, e7, f7, -⟩ := Mem.store_spec m6 60 (datecreated date)
    ⟨by omega, by rw [f6.size, f5.size, f4.size, f3.size, f2.size, f1.size, datecreated_length]; omega⟩
  rw [datecreated_length] at f7
  rw [hcfg] at f5 w5
  have hbytes : m7.get 32 20 = config.bytes := by
    rw [f7.get_of_Ico (by omega), f6.get_of_Ico (by omega)]
    exact w5
  obtain ⟨h1, h2, h3, h4, h5⟩ := words_of_config hbytes
  refine ⟨m7, ?_, ⟨h1, h2, h3, h4, h5, ?_⟩, ?_, ?_, fun x hx => ?_⟩
  · simp only [populate_fields, e1, e2, e3, e4, e5, e6, e7, Option.bind_eq_bind, Option.bind_some]
  · rw [f7.word_of_Ico (by omega), f6.word_of_Ico (by omega), f5.word_of_Ico (by omega), w4]
  · rw [f7.word_of_Ico (by omega), w6]
  · rw [f7.size, f6.size, f5.size, f4.size, f3.size, f2.size, f1.size]
  · have hdesc : desc.length = 24 := rfl
    rw [f7.byte x fun h => by have := h.2; omega, f6.byte x fun h => by have := h.2; omega,
      f5.byte x fun h => by have := h.2; omega, f4.byte x fun h => by have := h.2; omega,
      f3.byte x fun h => by have := h.2; omega, f2.byte x fun h => by have := h.2; omega,
      f1.byte x fun h => by have := h.2; omega]

theorem populate_room {m m' : Mem} {config : Config} {date : List UInt8}
    (h : populate config date m = some m') : 92 ≤ m.size := by
  simp only [populate_fields, Option.bind_eq_bind, Option.bind_eq_some_iff] at h
  obtain ⟨m1, e1, m2, e2, m3, e3, m4, e4, m5, e5, m6, e6, e7⟩ := h
  have h1 := (Mem.store_some e1).2.size
  have h2 := (Mem.store_some e2).2.size
  have h3 := (Mem.store_some e3).2.size
  have h4 := (Mem.store_some e4).2.size
  have h5 := (Mem.store_some e5).2.size
  have h6 := (Mem.store_some e6).2.size
  have h7 := (Mem.store_some e7).1.2
  rw [datecreated_length] at h7
  omega

section Loads
variable {cfg : Config} {m : Mem}

theorem HeaderOk.hdrOptions_eq (h : HeaderOk cfg m) (hsize : 52 ≤ m.size) :
    hdrOptions m = some cfg.options.toNat := by
  rw [hdrOptions, Mem.load32_eq ⟨by omega, by omega⟩, h.options]

theorem HeaderOk.hdrNumCounters_eq (h : HeaderOk cfg m) (hsize : 52 ≤ m.size) :
    hdrNumCounters m = some cfg.numCounters.toNat := by
  rw [hdrNumCounters, Mem.load32_eq ⟨by omega, by omega⟩, h.numCounters]

theorem HeaderOk.hdrNumRows_eq (h : HeaderOk cfg m) (hsize : 52 ≤ m.size) :
    hdrNumRows m = some cfg.numRows.toNat := by
  rw [hdrNumRows, Mem.load32_eq ⟨by omega, by omega⟩, h.numRows]

theorem HeaderOk.hdrRowLen_eq (h : HeaderOk cfg m) (hsize : 52 ≤ m.size) :
    hdrRowLen m = some cfg.rowLen.toNat := by
  rw [hdrRowLen, Mem.load32_eq ⟨by omega, by omega⟩, h.rowLen]

theorem HeaderOk.hdrNumVars_eq (h : HeaderOk cfg m) (hsize : 52 ≤ m.size) :
    hdrNumVars m = some cfg.numVars.toNat := by
  rw [hdrNumVars, Mem.load32_eq ⟨by omega, by omega⟩, h.numVars]

theorem HeaderOk.loadConfig_eq (h : HeaderOk cfg m) (hsize : 52 ≤ m.size) :
    loadConfig m = some cfg := by
  simp [loadConfig, h.hdrOptions_eq hsize, h.hdrNumCounters_eq hsize, h.hdrNumRows_eq hsize,
    h.hdrRowLen_eq hsize, h.hdrNumVars_eq hsize]

end Loads

theorem HeaderOk.frame {cfg : Config} {m m' : Mem} {S : Set ℤ} (h : HeaderOk cfg m)
    (hf : Mem.Frame S m m') (hS : ∀ x ∈ S, x < 32 ∨ 92 ≤ x) : HeaderOk cfg m' := by
  have hw : ∀ a : ℤ, 32 ≤ a → a + 4 ≤ 92 → m'.word a = m.word a := fun a h0 h1 =>
    hf.word_of_outside hS h0 h1
  exact ⟨(hw _ (by omega) (by omega)).trans h.options, (hw _ (by omega) (by omega)).trans h.numCounters,
    (hw _ (by omega) (by omega)).trans h.numRows, (hw _ (by omega) (by omega)).trans h.rowLen,
    (hw _ (by omega) (by omega)).trans h.numVars, (hw _ (by omega) (by omega)).trans h.arch⟩

/-! ### Creation as a whole -/

/-- Creation hands out a handle exactly on a positive size with room for the header. -/
theorem create_eq_some {os : Os} {ps : PageSize} {date : List UInt8} {config : Config} {h : Handle}
    {m : Mem} (hc : create os ps date config = some (h, m)) :
    92 ≤ (calculateLayout ps (normalise config)).size ∧
    h = (calculateLayout ps (normalise config)).handle := by
  simp only [create] at hc
  split at hc
  · exact absurd hc (by simp)
  · split at hc
    · exact absurd hc (by simp)
    · obtain ⟨m', hm', he⟩ := Option.bind_eq_some_iff.mp hc
      simp only [Option.pure_def, Option.some.injEq, Prod.mk.injEq] at he
      refine ⟨?_, he.1.symm⟩
      have hroom := populate_room hm'
      simp only at hroom
      omega

/-- What some kernel granted, a willing kernel grants. -/
theorem create_willing {os : Os} {ps : PageSize} {date : List UInt8} {config : Config}
    {x : Handle × Mem} (hc : create os ps date config = some x) :
    create ⟨true, true⟩ ps date config = some x := by
  simp only [create] at hc ⊢
  split at hc
  · exact absurd hc (by simp)
  · rename_i h1
    split at hc
    · exact absurd hc (by simp)
    · rename_i h2
      rw [if_neg (by simp; omega), if_neg (by simp; omega)]
      exact hc

theorem create_spec (ps : PageSize) (date : List UInt8) (config : Config)
    (hsize : 92 ≤ (calculateLayout ps (normalise config)).size) :
    ∃ m, create ⟨true, true⟩ ps date config =
        some ((calculateLayout ps (normalise config)).handle, m) ∧
      HeaderOk (normalise config) m ∧ m.word 28 = 0 ∧
      (m.size : ℤ) = (calculateLayout ps (normalise config)).size ∧
      ∀ x, 92 ≤ x → m.byte x = 0 := by
  obtain ⟨m, hm, hok, hn, hs, hz⟩ := populate_spec
    ⟨(calculateLayout ps (normalise config)).size.toNat, fun _ => 0⟩ date
    (by simp only; omega) (normalise config)
  refine ⟨m, ?_, hok, hn, by simp only at hs; omega, fun x hx => hz x hx⟩
  simp only [create]
  rw [if_neg (by simp; omega), if_neg (by simp; omega), hm]
  rfl

/-- CREATED: a created memmap has its header, and zeros behind it. -/
theorem create_some {os : Os} {ps : PageSize} {date : List UInt8} {config : Config} {h : Handle}
    {m : Mem} (hc : create os ps date config = some (h, m)) :
    HeaderOk (normalise config) m ∧ m.word 28 = 0 ∧
      (m.size : ℤ) = (calculateLayout ps (normalise config)).size ∧ ∀ x, 92 ≤ x → m.byte x = 0 := by
  obtain ⟨m', e, hspec⟩ := create_spec ps date config (create_eq_some hc).1
  rw [create_willing hc, Option.some.injEq, Prod.mk.injEq] at e
  rw [e.2]
  exact hspec

/-- Creation hands out a handle only when the layout is sound. -/
def CreatesSound (ps : PageSize) (config : Config) : Prop :=
  ∀ os date h m, create os ps date config = some (h, m) →
    Sound ps (normalise config) (calculateLayout ps (normalise config))

/-- LAYOUT: creation is sound exactly for the configs whose exact region size is an `int`, or is
    truncated to a size the kernel refuses or the header does not fit in. -/
theorem create_sound_iff (ps : PageSize) (config : Config) :
    CreatesSound ps config ↔
      FitsInt ps (normalise config) ∨
      (exactLayout ps (normalise config)).size % 4294967296 < 92 ∨
      2147483648 ≤ (exactLayout ps (normalise config)).size % 4294967296 := by
  have hsize := calculateLayout_size ps (normalise config)
  constructor
  · intro h
    by_contra hn
    have hroom : 92 ≤ (calculateLayout ps (normalise config)).size := by
      rw [hsize]; unfold toInt32; split <;> omega
    obtain ⟨m, hm, -⟩ := create_spec ps [] config hroom
    exact hn (Or.inl (fits_of_sound _ _ (h _ _ _ _ hm)))
  · intro h os date hd m hc
    have hroom := (create_eq_some hc).1
    rcases h with h | h
    · exact sound_of_fits _ _ h
    · rw [hsize] at hroom
      unfold toInt32 at hroom
      split at hroom <;> omega

/-- `1 << 28` rows of 8 bytes need `2 ^ 33` bytes, which the `int` offsets truncate to 0. -/
def wrappingConfig : Config :=
  { options := 0, numCounters := 16, numRows := 268435456, rowLen := 8, numVars := 16 }

/-- Pages of 4096 bytes. -/
def page4096 : PageSize := ⟨12, by decide, by decide⟩

/-- The truncated size is a positive 4096 bytes, so the kernel grants it and a handle is handed out. -/
theorem create_unsound : ¬ ∀ (ps : PageSize) (config : Config), CreatesSound ps config := by
  intro h
  obtain ⟨m, hm, -⟩ := create_spec page4096 [] wrappingConfig (by decide)
  have hfits := fits_of_sound _ _ (h page4096 wrappingConfig _ _ _ _ hm)
  exact absurd hfits (by decide)

end Log2mem
