import Log2mem.Dump.Attach
import Log2mem.Dump.Tiling
import Log2mem.Ring.Isolation
import Log2mem.Schemes.Masked

/-! When dumping an accepted file is safe.

    `log2mem_attach` accepts every file whose `arch` word matches, and leaves the comparison of its size
    with the layout as a TODO; `print_rows` trusts each `hdr->len` it meets. So the dump is safe not on
    every accepted file but on the `Dumpable` ones: those that hold the sections their header asks for,
    with records that tile every row and texts that end. The memmaps the library writes are dumpable.

        accepted ─┬─ Dumpable ◀──▶ print_rows, print_counters, print_vars end, inside the file
                  └─ truncated, hdr->len = 0, …: a read outside, or a walk that never ends -/

namespace Log2mem
open Schemes

/-- The slot `print_rows` visits in round `i`. -/
def visitIdx (lowest numRows i : ℕ) : ℕ := toU32 (lowest + i) &&& toU32 (numRows - 1)

/-- The slot with number `j`, as `print_rows` addresses it. -/
def slotAt (h : Handle) (c : Config) (j : ℕ) : ℤ := dumpRowAddr h.rows j c.rowLen.toNat

/-- The bytes of that slot taken alone. -/
def slotAlone (h : Handle) (c : Config) (m : Mem) (j : ℕ) : Mem :=
  m.slice (slotAt h c j) (24 + c.rowLen.toNat)

/-- The three printers end and have read inside the file only; every slot and entry they visit lies in
    the file, and the walk of every visited row stays in its slot and moves ahead. -/
structure DumpSafe (g : Globals) (f : Printf) (c : Config) (h : Handle) (m : Mem) : Prop where
  rows : ∃ fuel lines, printRows g f fuel h m = some lines
  counters : ∃ text, printCounters f h m = some text
  vars : ∃ text, printVars f h m = some text
  scanned : ∀ j < c.numRows.toNat, m.InBounds (slotAt h c j) (24 + c.rowLen.toNat)
  visited : ∀ lowest, lowestRowid h m = some lowest → ∀ i < c.numRows.toNat,
    m.InBounds (slotAt h c (visitIdx lowest c.numRows.toNat i)) (24 + c.rowLen.toNat) ∧
    (m.word (slotAt h c (visitIdx lowest c.numRows.toNat i) + 20) ≠ 0 →
      WalkSafe g f c.rowLen.toNat (slotAlone h c m (visitIdx lowest c.numRows.toNat i)))
  counterEntries : ∀ i < (toInt32 c.numCounters.toNat).toNat, m.InBounds (counterAddr h i) 8
  labelEntries : ∀ i < (toInt32 c.numCounters.toNat).toNat, CounterUsed h m i →
    m.InBounds (labelAddr h i) 64
  varEntries : ∀ t : VarTable, ∀ i < c.numVars.toNat, m.InBounds (t.addr h i) t.size

/-- The file holds what its header announces: the row slots, the counters with the labels of those in
    use, and the variables; the records of every slot that the mask can reach tile its `datalen`, and
    the text of every variable in use ends within the file. -/
structure Dumpable (g : Globals) (c : Config) (h : Handle) (m : Mem) : Prop where
  slots : ∀ j < c.numRows.toNat, m.InBounds (slotAt h c j) (24 + c.rowLen.toNat)
  tiled : ∀ j < c.numRows.toNat, j &&& (c.numRows.toNat - 1) = j →
    RowTiled g c.rowLen.toNat (slotAlone h c m j)
  counters : m.TableIn h.counters (toInt32 c.numCounters.toNat).toNat 8
  labels : ∀ i < (toInt32 c.numCounters.toNat).toNat, CounterUsed h m i → m.InBounds (labelAddr h i) 64
  vars : ∀ t : VarTable, m.TableIn (t.base h) c.numVars.toNat t.size
  texts : ∀ t : VarTable, ∀ i < c.numVars.toNat, VarUsed h m t i →
    m.Terminated (t.addr h i + t.width + 4)

/-! ### The rows that are visited -/

section Visit
variable (lowest : ℕ) {numRows : ℕ}

theorem visitIdx_eq (hpos : 0 < numRows) (hlt : numRows < 4294967296) (i : ℕ) :
    visitIdx lowest numRows i = (lowest + i) &&& (numRows - 1) := by
  have hmask : toU32 ((numRows : ℤ) - 1) = numRows - 1 := by
    have := toU32_of_range (x := (numRows : ℤ) - 1) (by omega) (by omega)
    omega
  have hsum : toU32 ((lowest : ℤ) + i) = (lowest + i) % 2 ^ 32 := by
    rw [← Nat.cast_add, toU32_natCast]
    rfl
  rw [visitIdx, hmask, hsum]
  exact and_eq_of_mod_eq (b := 32) (by omega) (Nat.mod_mod _ _)

/-- Every round visits a slot that the mask can reach. -/
theorem visitIdx_masked (hlt : numRows < 4294967296) {i : ℕ} (hi : i < numRows) :
    visitIdx lowest numRows i < numRows ∧
      visitIdx lowest numRows i &&& (numRows - 1) = visitIdx lowest numRows i := by
  rw [visitIdx_eq lowest (by omega) hlt]
  refine ⟨?_, by rw [Nat.and_assoc, Nat.and_self]⟩
  have hle : (lowest + i) &&& (numRows - 1) ≤ numRows - 1 := Nat.and_le_right
  omega

/-- Some round visits each of them, wherever the visit starts. -/
theorem exists_visitIdx (hlt : numRows < 4294967296) {j : ℕ} (hj : j < numRows)
    (hmask : j &&& (numRows - 1) = j) : ∃ i < numRows, visitIdx lowest numRows i = j := by
  obtain ⟨i, hi, he⟩ := exists_masked lowest hmask
  exact ⟨i, by omega, by rw [visitIdx_eq lowest (by omega) hlt, he]⟩

end Visit

section Dump
variable {g : Globals} {f : Printf} {c : Config} {h : Handle} {m : Mem}

theorem printRow_some {r : ℤ} {rowLen fuel options : ℕ} (hopt : hdrOptions m = some options)
    (hin : m.InBounds r (24 + rowLen)) (ht : RowTiled g rowLen (m.slice r (24 + rowLen)))
    (hfuel : rowLen < fuel) : ∃ lines, printRow g f fuel r m = some lines := by
  have hbase := hin.1
  have hroom := hin.2
  obtain ⟨start, hstart⟩ := rowPrefix_some hopt (r := r) ⟨hbase, by omega⟩ g f
  have hd : rowDatalen r m = some (m.word (r + 20)) := Mem.load32_eq ⟨by omega, by omega⟩
  have hle := ht.datalen_le
  obtain ⟨w, hw, -⟩ := walk_of_tiles (f := f) rfl ht fuel .start rfl (by omega) (by omega)
    (by simp [Walk.start])
  have hwalk := walk_of_slice hin hw
  rw [printRow, hd, Option.bind_eq_bind, Option.bind_some]
  split
  · exact ⟨[], rfl⟩
  · rw [hstart, Option.bind_eq_bind, Option.bind_some, hwalk]
    exact ⟨_, rfl⟩

theorem fileConfig_header (hsize : 52 ≤ m.size) :
    hdrOptions m = some (fileConfig m).options.toNat ∧
    hdrNumCounters m = some (fileConfig m).numCounters.toNat ∧
    hdrNumRows m = some (fileConfig m).numRows.toNat ∧
    hdrRowLen m = some (fileConfig m).rowLen.toNat ∧
    hdrNumVars m = some (fileConfig m).numVars.toNat := by
  have hload : ∀ a : ℤ, 0 ≤ a → a + 4 ≤ 52 → m.load32 a = some (UInt32.ofNat (m.word a)).toNat :=
    fun a h0 h1 => by
      rw [Mem.load32_eq ⟨h0, by omega⟩, UInt32.toNat_ofNat_of_lt' (m.word_lt a)]
  exact ⟨hload 32 (by omega) (by omega), hload 36 (by omega) (by omega), hload 40 (by omega) (by omega),
    hload 44 (by omega) (by omega), hload 48 (by omega) (by omega)⟩

theorem lowestRowid_some (hrows : hdrNumRows m = some c.numRows.toNat)
    (hlen : hdrRowLen m = some c.rowLen.toNat)
    (hslots : ∀ j < c.numRows.toNat, m.InBounds (slotAt h c j) (24 + c.rowLen.toNat)) :
    ∃ lowest, lowestRowid h m = some lowest :=
  ⟨_, lowestRowid_scan hrows hlen fun j hj => by
    obtain ⟨h0, h1⟩ := hslots j hj
    unfold slotAt at h0 h1
    exact ⟨h0, by omega⟩⟩

/-- A dumpable file is dumped safely. -/
theorem Dumpable.safe (hsize : 52 ≤ m.size) (hd : Dumpable g (fileConfig m) h m) :
    DumpSafe g f (fileConfig m) h m := by
  obtain ⟨hopt, hcounters, hrows, hlen, hvars⟩ := fileConfig_header hsize
  have hlt := (fileConfig m).numRows.toNat_lt
  have hvisit : ∀ lowest, ∀ i < (fileConfig m).numRows.toNat,
      m.InBounds (slotAt h (fileConfig m) (visitIdx lowest (fileConfig m).numRows.toNat i))
        (24 + (fileConfig m).rowLen.toNat) ∧
      RowTiled g (fileConfig m).rowLen.toNat
        (slotAlone h (fileConfig m) m (visitIdx lowest (fileConfig m).numRows.toNat i)) := by
    intro lowest i hi
    obtain ⟨hidx, hmask⟩ := visitIdx_masked lowest hlt hi
    exact ⟨hd.slots _ hidx, hd.tiled _ hidx hmask⟩
  have hcounterIn := Mem.tableIn_iff.mp hd.counters
  have hvarIn := fun t => Mem.tableIn_iff.mp (hd.vars t)
  obtain ⟨lowest, hlowest⟩ := lowestRowid_some hrows hlen hd.slots
  refine ⟨?_, printCounters_some hcounters hcounterIn hd.labels,
    (printVars_iff hvars hvarIn).mpr hd.texts, hd.slots, ?_, hcounterIn, hd.labels, hvarIn⟩
  · have hall : ∀ i ∈ List.range (fileConfig m).numRows.toNat, ∃ lines,
        printRow g f ((fileConfig m).rowLen.toNat + 1)
          (slotAt h (fileConfig m) (visitIdx lowest (fileConfig m).numRows.toNat i)) m = some lines := by
      intro i hi
      obtain ⟨hin, ht⟩ := hvisit lowest i (List.mem_range.mp hi)
      exact printRow_some hopt hin ht (Nat.lt_succ_self _)
    obtain ⟨lines, hlines⟩ := mapM_some_iff.mpr hall
    refine ⟨(fileConfig m).rowLen.toNat + 1, lines.flatten, ?_⟩
    simp only [printRows, hrows, hlen, hlowest, Option.bind_eq_bind, Option.bind_some]
    simp only [slotAt, visitIdx] at hlines
    rw [hlines]
    rfl
  · intro lowest _ i hi
    obtain ⟨hin, ht⟩ := hvisit lowest i hi
    exact ⟨hin, fun _ => (walkSafe_iff rfl).mpr ht⟩

/-- A file that is dumped safely is dumpable. -/
theorem DumpSafe.dumpable (hsize : 52 ≤ m.size) (hs : DumpSafe g f (fileConfig m) h m) :
    Dumpable g (fileConfig m) h m := by
  obtain ⟨-, -, hrows, hlen, hvars⟩ := fileConfig_header hsize
  obtain ⟨lowest, hlowest⟩ := lowestRowid_some hrows hlen hs.scanned
  refine ⟨hs.scanned, ?_, Mem.tableIn_iff.mpr hs.counterEntries, hs.labelEntries,
    fun t => Mem.tableIn_iff.mpr (hs.varEntries t), (printVars_iff hvars hs.varEntries).mp hs.vars⟩
  intro j hj hmask
  obtain ⟨i, hi, hidx⟩ := exists_visitIdx lowest (fileConfig m).numRows.toNat_lt hj hmask
  have hwalk := (hs.visited lowest hlowest i hi).2
  rw [hidx] at hwalk
  by_cases hzero : m.word (slotAt h (fileConfig m) j + 20) = 0
  · refine .done ?_
    rw [slotAlone, Mem.slice_word, hzero]
  · exact (walkSafe_iff rfl).mp (hwalk hzero)

end Dump

/-! ### The files the library writes -/

section Rest
variable {G : Geometry} {m : Mem}

theorem Mapped.fileConfig_eq (h : Mapped G m) : fileConfig m = G.cfg := by
  obtain ⟨h1, h2, h3, h4, h5, -⟩ := h.header
  unfold fileConfig
  rw [h1, h2, h3, h4, h5]
  simp only [UInt32.ofNat_toNat]

theorem Mapped.fileHandle_eq (h : Mapped G m) : fileHandle G.ps m = G.handle := by
  rw [fileHandle, h.fileConfig_eq, Geometry.handle, G.layout_eq]

theorem Mapped.attach_eq (h : Mapped G m) : log2memAttach G.ps m = some G.handle := by
  have hsize := h.size_ge
  rw [log2memAttach_eq (by omega) h.header.arch, h.fileHandle_eq]

/-- A memmap whose slots store well-typed records is dumpable, if the texts of its variables end. -/
theorem Mapped.dumpable (hm : Mapped G m) (hrow : ∀ j < G.numRows, ∃ recs,
    RowHolds G.rowLen m (G.slot j) recs ∧ ∀ x ∈ recs, x.WellTyped) (ht : ∀ t : VarTable, ∀ i < G.numVars,
    VarUsed G.handle m t i → m.Terminated (G.var t i + t.width + 4)) (g : Globals) :
    Dumpable g (fileConfig m) (fileHandle G.ps m) m := by
  have hcounters : (toInt32 G.cfg.numCounters.toNat).toNat = G.numCounters := by
    have hsec := G.sections
    have hsize := G.size_lt
    have hrows : 0 ≤ (G.numRows : ℤ) * (24 + G.rowLen) := by positivity
    rw [toInt32_of_range (by omega) (by omega)]
    rfl
  have hslot : ∀ j < G.numRows, slotAt G.handle G.cfg j = G.slot j := fun j hj => G.dumpRowAddr_eq hj
  have hin : ∀ j < G.numRows, m.InBounds (G.slot j) (24 + G.rowLen) := fun j hj => by
    have hroom := hm.slotRoom hj
    have := hroom.base
    have := hroom.room
    exact ⟨by omega, by omega⟩
  rw [hm.fileConfig_eq, hm.fileHandle_eq]
  refine ⟨fun j hj => ?_, fun j hj _ => ?_, ?_, ?_, fun t => Mem.tableIn_iff.mpr fun i hi => ?_, ht⟩
  · rw [hslot j hj]
    exact hin j hj
  · obtain ⟨recs, hholds, hwt⟩ := hrow j hj
    rw [slotAlone, hslot j hj]
    exact hholds.tiled hwt g
  · rw [hcounters]
    exact Mem.tableIn_iff.mpr fun i hi => hm.counterTables.counter_inBounds hi
  · rw [hcounters]
    exact fun i hi _ => hm.counterTables.label_inBounds hi
  · have hge := G.var_ge t hi
    have hroom := (G.var_room t hi).2
    exact hm.inBounds hge hroom

end Rest

/-- DUMP: an accepted file is dumped safely exactly when it is dumpable. -/
theorem dump_safe_iff {ps : PageSize} {file : Mem} {h : Handle} (ha : log2memAttach ps file = some h)
    (g : Globals) (f : Printf) : DumpSafe g f (fileConfig file) h file ↔
      Dumpable g (fileConfig file) (fileHandle ps file) file := by
  obtain ⟨hsize, rfl⟩ := log2memAttach_some ha
  exact ⟨fun hs => hs.dumpable (by omega), fun hd => hd.safe (by omega)⟩

/-- A file of two rows, the integer 5 in the first and the string `h` in the second, with a counter labelled
    `hi` and an integer variable `a`. -/
def usedFile : Mem where
  size := 4096
  byte x := match x with
    -- the config: one counter, two rows of 16 bytes, one variable; `arch`
    | 36 => 1 | 40 => 2 | 44 => 16 | 48 => 1 | 56 => 64
    -- the counter: 7, used
    | 256 => 7 | 260 => 1
    -- the rows: id 2, `datalen` 12; id 1, `datalen` 10
    | 280 => 2 | 284 => 12 | 288 => DataType.int.code | 292 => 12 | 296 => 5
    | 320 => 1 | 324 => 10 | 328 => DataType.string.code | 332 => 10 | 336 => 104
    -- the label
    | 344 => 104 | 345 => 105
    -- the variable: 3, used
    | 488 => 3 | 492 => 2 | 496 => 97
    | _ => 0

def usedGlobals : Globals := ⟨false, true, [32]⟩

/-- There a dump is safe; it meets a row with an integer, one with a string, the counter and the variable. -/
theorem dump_safe_used : ∃ h, log2memAttach page4096 usedFile = some h ∧
    DumpSafe ⟨false, true, [32]⟩ quiet (fileConfig usedFile) h usedFile ∧
    rowDatalen (slotAt h (fileConfig usedFile) 0) usedFile = some 12 ∧
    rowDatalen (slotAt h (fileConfig usedFile) 1) usedFile = some 10 ∧
    CounterUsed h usedFile 0 ∧ VarUsed h usedFile .int 0 := by
  have ha : log2memAttach page4096 usedFile = some (fileHandle page4096 usedFile) :=
    log2memAttach_eq (by decide) (by decide)
  have hc : fileConfig usedFile = ⟨0, 1, 2, 16, 1⟩ := by decide
  have hh : fileHandle page4096 usedFile = ⟨256, 264, 344, 408, 488⟩ := by
    rw [fileHandle, hc]
    decide
  have hone : (toInt32 (⟨0, 1, 2, 16, 1⟩ : Config).numCounters.toNat).toNat = 1 := by decide
  refine ⟨_, ha, (dump_safe_iff ha _ _).mpr ?_, ?_⟩
  · rw [hc, hh]
    refine ⟨by decide, fun j hj _ => ?_, .inr (by decide), fun i hi _ => ?_, fun t => ?_,
      fun t i hi hused => ?_⟩
    · obtain rfl | rfl : j = 0 ∨ j = 1 := by
        have hj : j < 2 := hj
        omega
      · exact .stride (by decide) ⟨by decide, by decide, by decide, by
          rw [Readable, show DataType.ofCode _ = some .int by decide]
          decide⟩ (by decide) (.done (by decide))
      · exact .stride (by decide) ⟨by decide, by decide, by decide, by
          rw [Readable, show DataType.ofCode _ = some .string by decide]
          exact ⟨1, by decide, by decide⟩⟩ (by decide) (.done (by decide))
    · rw [hone, Nat.lt_one_iff] at hi
      rw [hi]
      decide
    · cases t <;> exact .inr (by decide)
    · obtain rfl : i = 0 := Nat.lt_one_iff.mp hi
      cases t with
      | double => exact absurd hused (by unfold VarUsed; decide)
      | int => exact ⟨1, by decide, by decide⟩
  · rw [hc, hh]
    exact ⟨by decide, by decide, by unfold CounterUsed; decide, by unfold VarUsed; decide⟩

/-- A header of 64 bytes that asks for one row, with the `arch` of the program, and nothing behind it. -/
def truncatedFile : Mem :=
  { size := 64, byte := fun x => if x = 40 then 1 else if x = 56 then 64 else 0 }

/-- The truncated file is accepted, and its only row slot starts behind its end. -/
theorem dump_not_safe : ¬ ∀ (ps : PageSize) (file : Mem) (h : Handle) (g : Globals) (f : Printf),
    log2memAttach ps file = some h → DumpSafe g f (fileConfig file) h file := by
  intro hall
  have ha : log2memAttach page4096 truncatedFile = some (fileHandle page4096 truncatedFile) :=
    log2memAttach_eq (by decide) (by decide)
  have hslot := (hall page4096 truncatedFile _ ⟨false, true, [32]⟩ quiet ha).scanned 0 (by decide)
  exact absurd hslot (by decide)

end Log2mem
