import Log2mem.Dump.Safety
import Log2mem.Dump.Summary
import Log2mem.Schemes.Torn

/-! `__log2mem_create` on its way, and the file it leaves when it is stopped there.

    The file is opened as it is: the comment speaks of the TRUNC flag, the call does not pass it.
    `ftruncate` gives it its size, `memset` zeroes it, and then the header is populated. These are plain
    stores, so nothing says which byte arrives first: `arch`, by which `log2mem_attach` tells a memmap,
    may be there before the config is.

        open ──▶ ftruncate ──▶ memset ──▶ populate ──▶ handle
        old       old header,     │         └ every byte 0 or final: refused, or an empty memmap
        file      new size        └ old bytes, zeroed one by one                                     -/

namespace Log2mem
open Schemes

/-- The header's stores, in the order of the source. The zeros of `datecreated` and the time printed over
    them are one: the file is zero there already. -/
def headerPatches (config : Config) (date : List UInt8) : List Patch :=
  [⟨0, desc⟩, ⟨52, leBytes 4 2⟩, ⟨24, leBytes 4 1⟩, ⟨56, leBytes 4 64⟩, ⟨32, config.bytes⟩,
    ⟨28, leBytes 4 0⟩, ⟨60, datecreated date⟩]

/-- Where a creation stands. -/
inductive CreatePhase where
  /-- the file is open, and `ftruncate` is next -/
  | opened
  /-- inside `memset(ptr->mem, 0, layout.size)` -/
  | zeroing
  /-- the header is being populated -/
  | populating
  deriving DecidableEq

/-- A creation, and the file it works on. -/
structure Creation where
  phase : CreatePhase
  file : Mem

/-- What happens next to the file. -/
inductive CreateAct where
  /-- `ftruncate(fd, layout.size)` -/
  | ftruncate
  /-- `memset` reaches a byte -/
  | zero (x : ℤ)
  /-- `memset` returns -/
  | zeroed
  /-- a byte of the header arrives -/
  | put (x : ℤ) (b : UInt8)

/-- One step; a creation whose `ftruncate` fails exits the process. -/
def Creation.step (ps : PageSize) (config : Config) (date : List UInt8) (s : Creation) :
    CreateAct → Option Creation
  | .ftruncate =>
    let layout := calculateLayout ps (normalise config)
    if s.phase = .opened ∧ 0 ≤ layout.size then some ⟨.zeroing, s.file.resize layout.size.toNat⟩ else none
  | .zero x =>
    if s.phase = .zeroing then (s.file.store x [0]).map fun file => { s with file } else none
  | .zeroed => if s.phase = .zeroing then some ⟨.populating, ⟨s.file.size, fun _ => 0⟩⟩ else none
  | .put x b =>
    if s.phase = .populating ∧ Patch.Puts (headerPatches (normalise config) date) x b then
      (s.file.store x [b]).map fun file => { s with file }
    else none

/-- The file is opened. -/
def Creation.start (old : Mem) : Creation := ⟨.opened, old⟩

/-- The header asks for no more than the file has, and there are only zeros behind it. -/
structure Blank (ps : PageSize) (file : Mem) : Prop where
  fits : FitsInt ps (fileConfig file)
  room : (exactLayout ps (fileConfig file)).size ≤ file.size
  zeros : ∀ x, 92 ≤ x → file.byte x = 0

/-- What is printed of a memmap without rows, counters and variables. -/
def emptyReport (summary : Text) : Section → Text
  | .summary => summary
  | .rows | .counters | .vars => []

/-- The tool attaches to the file, reads inside it only, and finds nothing in it. -/
structure ShownEmpty (ps : PageSize) (file : Mem) : Prop where
  attached : log2memAttach ps file = some (fileHandle ps file)
  safe : ∀ g f, DumpSafe g f (fileConfig file) (fileHandle ps file) file
  printed : ∀ f, ∃ summary, ∀ g fuel shown,
    printSections g f fuel ps (fileHandle ps file) file shown = some (shown.flatMap (emptyReport summary))

/-! ### Smaller configs -/

section Smaller
variable {ps : PageSize} {c c' : Config}

/-- No count of the one config is larger than that of the other. -/
structure Config.Le (c c' : Config) : Prop where
  numCounters : c.numCounters.toNat ≤ c'.numCounters.toNat
  numRows : c.numRows.toNat ≤ c'.numRows.toNat
  rowLen : c.rowLen.toNat ≤ c'.rowLen.toNat
  numVars : c.numVars.toNat ≤ c'.numVars.toNat

theorem up8_mono {a b : ℤ} (h : a ≤ b) : up8 a ≤ up8 b := by
  unfold up8
  omega

theorem exactLayout_mono (h : c.Le c') : (exactLayout ps c).size ≤ (exactLayout ps c').size := by
  obtain ⟨hc, hr, hl, hv⟩ := h
  have hrows : c.numRows.toNat * (24 + c.rowLen.toNat) ≤ c'.numRows.toNat * (24 + c'.rowLen.toNat) :=
    Nat.mul_le_mul hr (by omega)
  have h1 : up8 (c.numCounters.toNat * 8) ≤ up8 (c'.numCounters.toNat * 8) := up8_mono (by omega)
  have h2 : up8 (c.numRows.toNat * (24 + c.rowLen.toNat)) ≤
      up8 (c'.numRows.toNat * (24 + c'.rowLen.toNat)) := up8_mono (by exact_mod_cast hrows)
  have h3 : up8 (c.numCounters.toNat * 64) ≤ up8 (c'.numCounters.toNat * 64) := up8_mono (by omega)
  have h4 : up8 (c.numVars.toNat * 80) ≤ up8 (c'.numVars.toNat * 80) := up8_mono (by omega)
  refine mul_le_mul_of_nonneg_right (Int.ediv_le_ediv ps.bytes_pos ?_) (le_of_lt ps.bytes_pos)
  unfold up8 at h1 h2 h3 h4 ⊢
  omega

theorem exact_size_ge (ps : PageSize) (c : Config) : 256 ≤ (exactLayout ps c).size := by
  have hsections := exact_sections ps c
  have hrows : 0 ≤ (c.numRows.toNat : ℤ) * (24 + c.rowLen.toNat) := by positivity
  omega

theorem dumpRowAddr_exact (h : FitsInt ps c) {j : ℕ} (hj : j < c.numRows.toNat) (off : ℤ) :
    dumpRowAddr off j c.rowLen.toNat = off + j * (24 + c.rowLen.toNat) := by
  obtain ⟨h1, h2, h3, h4, h5, h6⟩ := exact_sections ps c
  have hslot := slot_le (T := 24 + c.rowLen.toNat) hj
  have hnn : 0 ≤ (j : ℤ) * (24 + c.rowLen.toNat) := by positivity
  unfold FitsInt at h
  push_cast at hslot
  rw [dumpRowAddr, calcRowTotalSize_eq]
  push_cast
  rw [toInt32_of_range (x := 24 + (c.rowLen.toNat : ℤ)) (by omega) (by omega),
    toU32_of_range (by omega) (by omega)]

end Smaller

/-! ### Blank files -/

section Blank
variable {ps : PageSize} {file : Mem}

theorem Blank.word_zero (h : Blank ps file) {a : ℤ} (ha : 92 ≤ a) : file.word a = 0 :=
  Mem.word_eq_zero fun x hx => h.zeros x (by omega)

theorem Blank.size_ge (h : Blank ps file) : 256 ≤ file.size := by
  have hroom := h.room
  have := exact_size_ge ps (fileConfig file)
  omega

theorem Blank.slot (h : Blank ps file) {j : ℕ} (hj : j < (fileConfig file).numRows.toNat) :
    256 ≤ slotAt (fileHandle ps file) (fileConfig file) j ∧
      slotAt (fileHandle ps file) (fileConfig file) j + (24 + (fileConfig file).rowLen.toNat) ≤
        file.size := by
  have hroom := h.room
  have hsections := exact_sections ps (fileConfig file)
  have hslot := slot_le (T := 24 + (fileConfig file).rowLen.toNat) hj
  have hnn : 0 ≤ (j : ℤ) * (24 + (fileConfig file).rowLen.toNat) := by positivity
  push_cast at hslot
  rw [slotAt, dumpRowAddr_exact h.fits hj, fileHandle, calculateLayout_exact _ _ h.fits, Layout.handle]
  dsimp only
  omega

theorem Blank.tables (h : Blank ps file) :
    (toInt32 (fileConfig file).numCounters.toNat).toNat = (fileConfig file).numCounters.toNat ∧
    (∀ i < (fileConfig file).numCounters.toNat, 256 ≤ counterAddr (fileHandle ps file) i ∧
      file.InBounds (counterAddr (fileHandle ps file) i) 8) ∧
    ∀ (t : VarTable), ∀ i < (fileConfig file).numVars.toNat, 256 ≤ t.addr (fileHandle ps file) i ∧
      file.InBounds (t.addr (fileHandle ps file) i) t.size := by
  have hroom := h.room
  have hfits : (exactLayout ps (fileConfig file)).size < 2147483648 := h.fits
  have hsections := exact_sections ps (fileConfig file)
  have hrows : 0 ≤ ((fileConfig file).numRows.toNat : ℤ) * (24 + (fileConfig file).rowLen.toNat) := by
    positivity
  refine ⟨by rw [toInt32_of_range (by omega) (by omega)]; rfl, fun i hi => ?_, fun t i hi => ?_⟩
  · rw [counterAddr, fileHandle, calculateLayout_exact _ _ h.fits, Layout.handle]
    unfold Mem.InBounds
    dsimp only
    omega
  · rw [VarTable.addr, fileHandle, calculateLayout_exact _ _ h.fits, Layout.handle]
    unfold Mem.InBounds
    cases t <;> simp only [VarTable.base, VarTable.size] <;> omega

theorem Blank.dumpable (h : Blank ps file) (g : Globals) :
    Dumpable g (fileConfig file) (fileHandle ps file) file := by
  obtain ⟨hcount, hcounters, hvars⟩ := h.tables
  refine ⟨fun j hj => ?_, fun j hj _ => ?_, ?_, fun i hi hused => ?_, fun t => ?_, fun t i hi hused => ?_⟩
  · have := h.slot hj
    exact ⟨by omega, by push_cast; omega⟩
  · refine .done ?_
    rw [slotAlone, Mem.slice_word, h.word_zero (by have := h.slot hj; omega)]
  · exact Mem.tableIn_iff.mpr fun i hi => (hcounters i (hcount ▸ hi)).2
  · exact absurd (h.word_zero (by have := (hcounters i (hcount ▸ hi)).1; omega)) hused
  · exact Mem.tableIn_iff.mpr fun i hi => (hvars t i hi).2
  · refine absurd ?_ hused
    rw [h.word_zero (by have := (hvars t i hi).1; omega), Nat.zero_and]

theorem Blank.printRows (h : Blank ps file) (g : Globals) (f : Printf) (fuel : ℕ) :
    printRows g f fuel (fileHandle ps file) file = some [] := by
  obtain ⟨-, -, hrows, hlen, -⟩ := fileConfig_header (m := file) (by have := h.size_ge; omega)
  obtain ⟨lowest, hlowest⟩ := lowestRowid_some hrows hlen (h.dumpable g).slots
  have hblank : ∀ j < (fileConfig file).numRows.toNat,
      printRow g f fuel (slotAt (fileHandle ps file) (fileConfig file) j) file = some [] := fun j hj => by
    obtain ⟨hlo, hhi⟩ := h.slot hj
    have hdatalen : rowDatalen (slotAt (fileHandle ps file) (fileConfig file) j) file = some 0 := by
      rw [rowDatalen, Mem.load32_eq ⟨by omega, by omega⟩, h.word_zero (by omega)]
    rw [printRow, hdatalen]
    rfl
  have hall : ∀ i ∈ List.range (fileConfig file).numRows.toNat, printRow g f fuel (slotAt (fileHandle ps file)
      (fileConfig file) (visitIdx lowest (fileConfig file).numRows.toNat i)) file = some [] := fun i hi =>
    hblank _ (visitIdx_masked lowest (fileConfig file).numRows.toNat_lt (List.mem_range.mp hi)).1
  obtain ⟨lines, hlines, hnone⟩ := mapM_nothing hall
  simp only [slotAt, visitIdx] at hlines
  simp only [Log2mem.printRows, hrows, hlen, hlowest, hlines, Option.bind_eq_bind, Option.bind_some]
  rw [hnone]
  rfl

theorem Blank.printCounters (h : Blank ps file) (f : Printf) :
    printCounters f (fileHandle ps file) file = some [] := by
  obtain ⟨-, hnum, -⟩ := fileConfig_header (m := file) (by have := h.size_ge; omega)
  obtain ⟨hcount, hcounters, -⟩ := h.tables
  have hall : ∀ i ∈ List.range (toInt32 (fileConfig file).numCounters.toNat).toNat,
      printCounter f (fileHandle ps file) file i = some [] := fun i hi => by
    rw [hcount] at hi
    obtain ⟨hlo, h0, h1⟩ := hcounters i (List.mem_range.mp hi)
    have hused : file.load32 (counterAddr (fileHandle ps file) i + 4) = some 0 := by
      rw [Mem.load32_eq ⟨by omega, by omega⟩, h.word_zero (by omega)]
    simp [printCounter, hused]
  obtain ⟨texts, htexts, hnone⟩ := mapM_nothing hall
  rw [Log2mem.printCounters, hnum, Option.bind_eq_bind, Option.bind_some, htexts]
  exact congrArg some hnone

theorem Blank.printVars (h : Blank ps file) (f : Printf) :
    printVars f (fileHandle ps file) file = some [] := by
  obtain ⟨-, -, -, -, hnum⟩ := fileConfig_header (m := file) (by have := h.size_ge; omega)
  obtain ⟨-, -, hvars⟩ := h.tables
  have hall : ∀ (t : VarTable), ∀ i ∈ List.range (fileConfig file).numVars.toNat,
      printVar f (fileHandle ps file) file t i = some [] := fun t i hi => by
    obtain ⟨hlo, h0, h1⟩ := hvars t i (List.mem_range.mp hi)
    obtain ⟨hw, hs⟩ := t.width_size
    rw [printVar, Mem.load32_eq ⟨by omega, by omega⟩, h.word_zero (by omega)]
    simp
  obtain ⟨doubles, hdoubles, hnone⟩ := mapM_nothing (hall .double)
  obtain ⟨ints, hints, hnone'⟩ := mapM_nothing (hall .int)
  simp only [Log2mem.printVars, hnum, hdoubles, hints, Option.bind_eq_bind, Option.bind_some]
  rw [hnone, hnone']
  rfl

theorem Blank.printSummary (h : Blank ps file) (f : Printf) :
    ∃ text, printSummary f ps file = some text := by
  have hsize := h.size_ge
  have hload : ∀ a : ℤ, 0 ≤ a → a + 4 ≤ 256 → file.load32 a = some (file.word a) := fun a h0 h1 =>
    Mem.load32_eq ⟨h0, by omega⟩
  -- the creation time ends at the latest behind the header
  obtain ⟨date, hdate⟩ : ∃ s, printStr 60 file = some s :=
    Mem.cstr_size_iff.mpr ⟨32, ⟨by omega, by push_cast; omega⟩, h.zeros _ (by omega)⟩
  obtain ⟨hoptions, hcounters, hrows, hlen, hvars⟩ := fileConfig_header (m := file) (by omega)
  simp only [Log2mem.printSummary, loadConfig, hoptions, hcounters, hrows, hlen, hvars, hdate, hdrNextrow,
    hload 28 (by omega) (by omega), hload 52 (by omega) (by omega), hload 56 (by omega) (by omega),
    hload 24 (by omega) (by omega), Option.bind_eq_bind, Option.bind_some, Option.pure_def]
  exact ⟨_, rfl⟩

/-- BLANK: a blank file with the right architecture is an empty memmap to the tool. -/
theorem Blank.shown (h : Blank ps file) (harch : file.word 56 = 64) : ShownEmpty ps file := by
  have hsize := h.size_ge
  refine ⟨log2memAttach_eq (by omega) harch, fun g f => (h.dumpable g).safe (by omega), fun f => ?_⟩
  obtain ⟨summary, hsummary⟩ := h.printSummary f
  refine ⟨summary, fun g fuel shown => ?_⟩
  have hall : ∀ sec ∈ shown, printSection g f fuel ps (fileHandle ps file) file sec =
      some (emptyReport summary sec) := fun sec _ => by
    cases sec with
    | summary => exact hsummary
    | rows => rw [printSection, h.printRows]; rfl
    | counters => exact h.printCounters f
    | vars => exact h.printVars f
  rw [printSections, mapM_eq_some hall]
  rfl

end Blank

/-! ### The header on its way -/

section Header
variable {ps : PageSize} {os : Os} {config : Config} {date : List UInt8} {h : Handle} {m₀ m file : Mem}

theorem headerPatches_apart (config : Config) (date : List UInt8) :
    (headerPatches config date).Pairwise Patch.Apart := by
  have hcfg : config.bytes.length = 20 := by simp [Config.bytes]
  have hdesc : desc.length = 24 := rfl
  simp only [headerPatches, List.pairwise_cons, List.forall_mem_cons, List.not_mem_nil, false_imp_iff,
    implies_true, List.Pairwise.nil, and_true]
  refine ⟨⟨?_, ?_, ?_, ?_, ?_, ?_⟩, ⟨?_, ?_, ?_, ?_, ?_⟩, ⟨?_, ?_, ?_, ?_⟩, ⟨?_, ?_, ?_⟩, ⟨?_, ?_⟩, ?_⟩
  all_goals simp only [Patch.Apart, leBytes_length, datecreated_length]
  all_goals omega

theorem populate_eq (config : Config) (date : List UInt8) (m : Mem) :
    populate config date m = Mem.storeAll (headerPatches config date) m := by
  simp [populate_fields, Mem.storeAll, headerPatches, Mem.store32]

/-- Creation stores the patches of its header. -/
theorem create_patches (hc : create os ps date config = some (h, m₀)) :
    Mem.storeAll (headerPatches (normalise config) date)
      ⟨(calculateLayout ps (normalise config)).size.toNat, fun _ => 0⟩ = some m₀ := by
  simp only [create] at hc
  split at hc
  · exact absurd hc (by simp)
  · split at hc
    · exact absurd hc (by simp)
    · obtain ⟨m', hm', he⟩ := Option.bind_eq_some_iff.mp hc
      simp only [Option.pure_def, Option.some.injEq, Prod.mk.injEq] at he
      rw [← populate_eq, hm', he.2]

/-- A file in which `arch` has not arrived is refused. -/
theorem log2memAttach_refuses (harch : file.word 56 < 64) : log2memAttach ps file = none := by
  have hle : (filePages ps file).word 56 ≤ file.word 56 := Mem.ofLe_map_le fun i _ => by
    by_cases hi : (56 : ℤ) + i < file.size
    · exact Or.inr (if_pos hi)
    · exact Or.inl (if_neg hi)
  cases ha : log2memAttach ps file with
  | none => rfl
  | some h =>
    exfalso
    simp only [log2memAttach] at ha
    split at ha
    · exact absurd ha (by simp)
    · obtain ⟨handle, -, ha⟩ := Option.bind_eq_some_iff.mp ha
      obtain ⟨arch, hload, ha⟩ := Option.bind_eq_some_iff.mp ha
      have hword : arch = (filePages ps file).word 56 := (Mem.load32_some hload).2
      split at ha
      · rename_i h64
        rw [toInt32_of_range (by omega) (by omega)] at h64
        omega
      · exact absurd ha (by simp)

/-- A header on its way is a blank file, refused until `arch` is there. -/
theorem torn_readable (hfits : FitsInt ps (normalise config)) (hc : create os ps date config = some (h, m₀))
    (ht : Mem.Torn m₀ m) : log2memAttach ps m = none ∨ ShownEmpty ps m := by
  obtain ⟨hheader, -, hsize, hz⟩ := create_some hc
  have hcount : ∀ (a : ℤ) (c : UInt32), m₀.word a = c.toNat → (UInt32.ofNat (m.word a)).toNat ≤ c.toNat :=
    fun a c hword => by
      rw [UInt32.toNat_ofNat_of_lt' (m.word_lt a), ← hword]
      exact ht.word_le a
  have hle : (fileConfig m).Le (normalise config) :=
    ⟨hcount _ _ hheader.numCounters, hcount _ _ hheader.numRows, hcount _ _ hheader.rowLen,
      hcount _ _ hheader.numVars⟩
  have hmono : (exactLayout ps (fileConfig m)).size ≤ (exactLayout ps (normalise config)).size :=
    exactLayout_mono hle
  have hblank : Blank ps m :=
    { fits := lt_of_le_of_lt hmono hfits
      room := by rw [ht.size, hsize, calculateLayout_exact _ _ hfits]; exact hmono
      zeros := fun x hx => ht.zero (hz x hx) }
  have harch := ht.word_le 56
  rw [hheader.arch] at harch
  rcases Nat.lt_or_eq_of_le harch with hlt | heq
  · exact Or.inl (log2memAttach_refuses hlt)
  · exact Or.inr (hblank.shown heq)

end Header

/-! ### Creation, step by step -/

/-- What the file holds in each phase of a creation over `old` that would end in `m₀`. -/
def Creation.Ok (old m₀ : Mem) (s : Creation) : Prop :=
  match s.phase with
  | .opened => s.file = old
  | .zeroing => s.file.size = m₀.size ∧ (old.size = 0 → ∀ x, 0 ≤ x → s.file.byte x = 0)
  | .populating => Mem.Torn m₀ s.file

section Steps
variable {ps : PageSize} {os : Os} {config : Config} {date : List UInt8} {h : Handle} {old m₀ : Mem}
  {s s' : Creation}

/-- STEP: every step keeps to its phase. -/
theorem Creation.Ok.step (hok : s.Ok old m₀) (hc : create os ps date config = some (h, m₀)) {a : CreateAct}
    (hs : s.step ps config date a = some s') : s'.Ok old m₀ := by
  have hpatches := create_patches hc
  have hsize := (Mem.storeAll_frame hpatches).size
  obtain ⟨phase, file⟩ := s
  cases a with
  | ftruncate =>
    simp only [Creation.step] at hs
    split at hs
    · rename_i hphase
      obtain ⟨rfl, -⟩ := hphase
      obtain rfl := Option.some.inj hs
      obtain rfl : file = old := hok
      refine ⟨hsize.symm, fun h0 x hx => ?_⟩
      simp only [Mem.resize]
      rw [if_neg (by omega)]
    · exact absurd hs (by simp)
  | zero x =>
    simp only [Creation.step] at hs
    split at hs
    · rename_i hphase
      obtain rfl : phase = .zeroing := hphase
      obtain ⟨file', hstore, rfl⟩ := Option.map_eq_some_iff.mp hs
      refine ⟨(Mem.store_some hstore).2.size.trans hok.1, fun h0 y hy => ?_⟩
      rw [Mem.store_one hstore]
      split
      · rfl
      · exact hok.2 h0 y hy
    · exact absurd hs (by simp)
  | zeroed =>
    simp only [Creation.step] at hs
    split at hs
    · rename_i hphase
      obtain rfl : phase = .zeroing := hphase
      obtain rfl := Option.some.inj hs
      exact ⟨hok.1, fun _ => Or.inl rfl⟩
    · exact absurd hs (by simp)
  | put x b =>
    simp only [Creation.step] at hs
    split at hs
    · rename_i hguard
      obtain ⟨hphase, hputs⟩ := hguard
      obtain rfl : phase = .populating := hphase
      obtain ⟨file', hstore, rfl⟩ := Option.map_eq_some_iff.mp hs
      exact Mem.Torn.store hok (Mem.storeAll_puts (headerPatches_apart _ _) hpatches hputs) hstore
    · exact absurd hs (by simp)

/-- Once the old header is gone, the file is refused, or shows an empty memmap. -/
theorem Creation.Ok.readable (hok : s.Ok old m₀) (hfits : FitsInt ps (normalise config))
    (hc : create os ps date config = some (h, m₀))
    (hgone : s.phase = .populating ∨ old.size = 0 ∨ s.file.word 56 = 0) :
    log2memAttach ps s.file = none ∨ ShownEmpty ps s.file := by
  -- a file whose `arch` is 0 is refused, however short it is
  have hrefused : s.file.word 56 = 0 → log2memAttach ps s.file = none := fun hzero =>
    log2memAttach_refuses (by omega)
  obtain ⟨phase, file⟩ := s
  cases phase with
  | opened =>
    obtain rfl : file = old := hok
    rcases hgone with hphase | hempty | hzero
    · exact absurd hphase (by simp)
    · exact Or.inl (by simp [log2memAttach, hempty])
    · exact Or.inl (hrefused hzero)
  | zeroing =>
    rcases hgone with hphase | hempty | hzero
    · exact absurd hphase (by simp)
    · exact Or.inl (hrefused (Mem.word_eq_zero fun x hx => hok.2 hempty x (by omega)))
    · exact Or.inl (hrefused hzero)
  | populating => exact torn_readable hfits hc hok

theorem create_fits (hfits : FitsInt ps (normalise config)) (date : List UInt8) :
    ∃ h m, create ⟨true, true⟩ ps date config = some (h, m) := by
  have hexact := exact_size_ge ps (normalise config)
  have hdate : (date.take 30).length ≤ 30 := by simp
  obtain ⟨m, hc, -⟩ := create_spec ps date config (by rw [calculateLayout_exact _ _ hfits]; omega)
  exact ⟨_, m, hc⟩

theorem Creation.step_ftruncate (ps : PageSize) (config : Config) (date : List UInt8) (old : Mem)
    (hsize : 0 ≤ (calculateLayout ps (normalise config)).size) :
    Creation.step ps config date (.start old) .ftruncate =
      some ⟨.zeroing, old.resize (calculateLayout ps (normalise config)).size.toNat⟩ := by
  simp only [Creation.step, Creation.start]
  rw [if_pos ⟨trivial, hsize⟩]

/-- RUN: the steps in order end where `__log2mem_create` ends. -/
theorem creation_runs (hc : create os ps date config = some (h, m₀)) (old : Mem) :
    Run (Creation.step ps config date) (fun _ _ => True) (.start old) ⟨.populating, m₀⟩ := by
  have hroom := (create_eq_some hc).1
  have hpatches := create_patches hc
  have hsized := Creation.step_ftruncate ps config date old (by omega)
  generalize (calculateLayout ps (normalise config)).size.toNat = size at hpatches hsized
  have hzeroed : Creation.step ps config date ⟨.zeroing, old.resize size⟩ .zeroed =
      some ⟨.populating, ⟨size, fun _ => 0⟩⟩ := by simp [Creation.step, Mem.resize]
  refine ((Run.single trivial hsized).tail trivial hzeroed).trans
    (Mem.storeAll_run (Creation.mk .populating) (fun x b hb m m' hs => ?_) hpatches)
  have hstep : Creation.step ps config date ⟨.populating, m⟩ (.put x b) = some ⟨.populating, m'⟩ := by
    simp only [Creation.step, hb, and_self, if_true, hs, Option.map_some]
  exact .single trivial hstep

end Steps

/-- TORN: stop a creation anywhere, the bytes of the header having arrived in any order. Once the old header
    is gone, the tool refuses the file, or shows an empty memmap. -/
theorem creation_readable {ps : PageSize} {config : Config} {date : List UInt8} {old : Mem} {s : Creation}
    (hfits : FitsInt ps (normalise config))
    (hrun : Run (Creation.step ps config date) (fun _ _ => True) (.start old) s)
    (hgone : s.phase = .populating ∨ old.size = 0 ∨ s.file.word 56 = 0) :
    log2memAttach ps s.file = none ∨ ShownEmpty ps s.file := by
  obtain ⟨h, m₀, hc⟩ := create_fits hfits date
  have hstart : (Creation.start old).Ok old m₀ := rfl
  have hok : s.Ok old m₀ := hrun.invariant hstart fun t a u hok _ hs => hok.step hc hs
  exact hok.readable hfits hc hgone

/-- The architecture and the number of rows have arrived, the length of a row has not. -/
theorem creation_readable_torn : ∃ s : Creation,
    s.file.word 56 = 64 ∧ s.file.word 40 = 2 ∧ s.file.word 44 = 0 ∧
    (log2memAttach twoRows.ps s.file = none ∨ ShownEmpty twoRows.ps s.file) := by
  have hexec : (exec (Creation.step twoRows.ps twoRows.config []) (.start ⟨100, fun _ => 7⟩)
      [.ftruncate, .zeroed, .put 56 64, .put 40 2]).map
        (fun s => (s.phase, s.file.word 56, s.file.word 40, s.file.word 44)) =
      some (.populating, 64, 2, 0) := by decide
  obtain ⟨s, hs, hwords⟩ := Option.map_eq_some_iff.mp hexec
  simp only [Prod.mk.injEq] at hwords
  obtain ⟨hphase, harch, hrows, hlen⟩ := hwords
  exact ⟨s, harch, hrows, hlen, creation_readable (by decide)
    (Run.of_exec hs (AllOk.of_forall fun _ _ => trivial)) (Or.inl hphase)⟩

/-! ### While the old header stands -/

/-- RESTART: over an older memmap whose variables end behind the new size there is a moment, between
    `ftruncate` and `memset`, in which the tool accepts the file and faults on it. -/
theorem recreate_faults {G : Geometry} {old : Mem} (hm : Mapped G old) (hv : 1 ≤ G.numVars)
    {config : Config} (hfits : FitsInt G.ps (normalise config)) (date : List UInt8)
    (hsmall : (exactLayout G.ps (normalise config)).size ≤ G.var .int (G.numVars - 1 : ℕ)) :
    ∃ s, Run (Creation.step G.ps config date) (fun _ _ => True) (.start old) s ∧
      log2memAttach G.ps s.file = some G.handle ∧ ∀ f, printVars f G.handle s.file = none := by
  have hge := exact_size_ge G.ps (normalise config)
  have hsize := hm.size_ge
  have hexact := calculateLayout_exact _ _ hfits
  have hsized := Creation.step_ftruncate G.ps config date old (by rw [hexact]; omega)
  obtain ⟨n, hn⟩ : ∃ n : ℕ, (exactLayout G.ps (normalise config)).size = n :=
    ⟨_, (Int.toNat_of_nonneg (by omega)).symm⟩
  rw [hexact, hn, Int.toNat_natCast] at hsized
  rw [hn] at hsmall
  have hword : ∀ a : ℤ, a + 4 ≤ 256 → (old.resize n).word a = old.word a := fun a ha =>
    congrArg ofLe (List.map_congr_left fun i hi => if_pos (by have := List.mem_range.mp hi; omega))
  have hconfig : fileConfig (old.resize n) = fileConfig old := by
    simp only [fileConfig, hword 32 (by omega), hword 36 (by omega), hword 40 (by omega),
      hword 44 (by omega), hword 48 (by omega)]
  refine ⟨_, Run.single trivial hsized, ?_, fun f => ?_⟩
  · rw [log2memAttach_eq (show 60 ≤ n by omega) ((hword 56 (by omega)).trans hm.header.arch), fileHandle,
      hconfig, ← hm.fileHandle_eq, fileHandle]
  · cases hprint : printVars f G.handle (old.resize n) with
    | none => rfl
    | some text =>
      exfalso
      have hnum : hdrNumVars (old.resize n) = some G.numVars := by
        rw [hdrNumVars, Mem.load32_eq ⟨by omega, show (48 : ℤ) + (4 : ℕ) ≤ n by omega⟩, hword 48 (by omega),
          hm.header.numVars]
        rfl
      rw [printVars, hnum, Option.bind_eq_bind, Option.bind_some] at hprint
      obtain ⟨doubles, -, hprint⟩ := Option.bind_eq_some_iff.mp hprint
      obtain ⟨ints, hints, -⟩ := Option.bind_eq_some_iff.mp hprint
      -- the flags of the last variable are read outside the file
      obtain ⟨last, hlast⟩ := mapM_some_iff.mp ⟨ints, hints⟩ (G.numVars - 1) (List.mem_range.mpr (by omega))
      obtain ⟨flags, hflags, -⟩ := Option.bind_eq_some_iff.mp hlast
      obtain ⟨-, hend⟩ := (Mem.load32_some hflags).1
      have hsize' : (old.resize n).size = n := rfl
      unfold Geometry.var at hsmall
      omega

end Log2mem
