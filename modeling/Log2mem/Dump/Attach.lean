import Log2mem.Dump.Rows
import Log2mem.Schemes.Slice
import Log2mem.Tables.Vars

/-! Attaching to a memmap file (`log2mem_attach`) and printing its tables (`print_counters`,
    `print_vars`).

    Nothing is known about the file. `log2mem_attach` maps all of it, finds the sections from the
    config in the header and compares the architecture; the comparison of the file's size with the
    layout is a TODO of the source. The file is then read through checked loads, so a printer that
    returns has read inside the file only.

        file ──mmap──▶ pages ──config──▶ sections ──arch = 64──▶ handle ──▶ print_counters, print_vars -/

namespace Log2mem
open Schemes

/-- The pages a file is mapped to: behind its last byte they hold zeros. -/
def filePages (ps : PageSize) (file : Mem) : Mem :=
  { size := ((file.size + ps.bytes - 1) / ps.bytes * ps.bytes).toNat
    byte := fun x => if x < file.size then file.byte x else 0 }

/-- `log2mem_attach`; `none` is a null handle, or a fault. `mmap` refuses an empty file. -/
def log2memAttach (ps : PageSize) (file : Mem) : Option Handle := do
  let pages := filePages ps file
  if file.size = 0 then none
  else
    let h ← calculateSectionPointers ps pages
    let arch ← pages.load32 56
    if toInt32 arch = 64 then return h else none

/-- The characters of a literal. -/
def ascii (s : String) : Text := s.toList.map fun c => UInt8.ofNat c.toNat

/-- `strncpy` into a zeroed buffer of more than `n` bytes: the characters before a NUL, `n` at most. -/
def readLabel : ℕ → ℤ → Mem → Option Text
  | 0, _, _ => some []
  | n + 1, a, m => do
    let c ← m.load8 a
    if c = 0 then return [] else return c :: (← readLabel n (a + 1) m)

/-- The body of `print_counters`: `"counter[%d] %s : %d\n"` for a counter in use; the `strncpy` of the field
    overwrites all of the name `noname` that `label` was set to. -/
def printCounter (f : Printf) (h : Handle) (m : Mem) (i : ℕ) : Option Text := do
  let used ← m.load32 (counterAddr h i + 4)
  if used = 0 then return []
  else
    let label ← readLabel labelLen (labelAddr h i) m
    let v ← m.load32 (counterAddr h i)
    return ascii "counter[" ++ f.int i ++ ascii "] " ++ label ++ ascii " : " ++ f.int (toInt32 v) ++ [10]

/-- `print_counters`; the number of counters is read as an `int`. -/
def printCounters (f : Printf) (h : Handle) (m : Mem) : Option Text := do
  let numCounters ← hdrNumCounters m
  let texts ← (List.range (toInt32 numCounters).toNat).mapM (printCounter f h m)
  return texts.flatten

namespace VarTable

/-- `"double[%d] "` and `"int[%d] "`. -/
def name : VarTable → String
  | double => "double["
  | int => "int["

/-- `"%f"` and `"%i"` of the bits of a value. -/
def format (f : Printf) (v : ℕ) : VarTable → Text
  | double => f.double v
  | int => f.int (toInt32 v)

end VarTable

/-- The body of either loop of `print_vars`, for a variable in use: its index, its text with a blank
    behind it unless it is empty, and its value. -/
def printVar (f : Printf) (h : Handle) (m : Mem) (t : VarTable) (i : ℕ) : Option Text := do
  let var := t.addr h i
  let flags ← m.load32 (var + t.width)
  if flags &&& eUsed = 0 then return []
  else
    let text ← printStr (var + t.width + 4) m
    let value ← m.load var t.width
    return ascii t.name ++ f.int (toInt32 i) ++ ascii "] " ++ text ++ (if text = [] then [] else [32]) ++
      ascii ": " ++ t.format f (ofLe value) ++ [10]

/-- `print_vars`; `int i` is compared with `num_vars` as `unsigned`. -/
def printVars (f : Printf) (h : Handle) (m : Mem) : Option Text := do
  let numVars ← hdrNumVars m
  let doubles ← (List.range numVars).mapM (printVar f h m .double)
  let ints ← (List.range numVars).mapM (printVar f h m .int)
  return doubles.flatten ++ ints.flatten

/-! ### Accepted files -/

/-- The config in the header of a file. -/
def fileConfig (file : Mem) : Config :=
  { options := UInt32.ofNat (file.word 32), numCounters := UInt32.ofNat (file.word 36),
    numRows := UInt32.ofNat (file.word 40), rowLen := UInt32.ofNat (file.word 44),
    numVars := UInt32.ofNat (file.word 48) }

/-- The sections that the config in the header of a file asks for. -/
def fileHandle (ps : PageSize) (file : Mem) : Handle := (calculateLayout ps (fileConfig file)).handle

section Accepted
variable {ps : PageSize} {file : Mem}

theorem filePages_size (ps : PageSize) (file : Mem) : file.size ≤ (filePages ps file).size := by
  have := ps.le_round file.size
  simp only [filePages]
  omega

theorem filePages_word {a : ℤ} (h : file.InBounds a 4) : (filePages ps file).word a = file.word a := by
  obtain ⟨h0, h1⟩ := h
  refine congrArg ofLe (List.map_congr_left fun i hi => if_pos ?_)
  have := List.mem_range.mp hi
  omega

theorem filePages_word_end {a : ℤ} (h : file.size ≤ a) : (filePages ps file).word a = 0 :=
  Mem.word_eq_zero fun _ hx => if_neg (by omega)

theorem calculateSectionPointers_pages (hsize : 52 ≤ file.size) :
    calculateSectionPointers ps (filePages ps file) = some (fileHandle ps file) := by
  have hpages := filePages_size ps file
  have hload : ∀ a : ℤ, 0 ≤ a → a + 4 ≤ 52 →
      (filePages ps file).load32 a = some (file.word a) := fun a h0 h1 => by
    rw [Mem.load32_eq ⟨h0, by omega⟩, filePages_word ⟨h0, by omega⟩]
  simp only [calculateSectionPointers, loadConfig, hdrOptions, hdrNumCounters, hdrNumRows, hdrRowLen,
    hdrNumVars, hload 32 (by omega) (by omega), hload 36 (by omega) (by omega),
    hload 40 (by omega) (by omega), hload 44 (by omega) (by omega), hload 48 (by omega) (by omega),
    Option.bind_eq_bind, Option.bind_some, Option.pure_def]
  rfl

/-- Only a file that holds the first byte of `arch` is accepted, and its sections are the config's. -/
theorem log2memAttach_some {h : Handle} (ha : log2memAttach ps file = some h) :
    57 ≤ file.size ∧ h = fileHandle ps file := by
  simp only [log2memAttach] at ha
  split at ha
  · exact absurd ha (by simp)
  · obtain ⟨h', hh', ha⟩ := Option.bind_eq_some_iff.mp ha
    obtain ⟨arch, harch, ha⟩ := Option.bind_eq_some_iff.mp ha
    have hword := (Mem.load32_some harch).2
    split at ha
    · rename_i h64
      have hsize : 57 ≤ file.size := by
        by_contra hlt
        rw [hword, filePages_word_end (by omega)] at h64
        exact absurd h64 (by decide)
      rw [calculateSectionPointers_pages (by omega), Option.some.injEq] at hh'
      rw [Option.pure_def, Option.some.injEq] at ha
      exact ⟨hsize, by rw [← ha, hh']⟩
    · exact absurd ha (by simp)

theorem log2memAttach_eq (hsize : 60 ≤ file.size) (harch : file.word 56 = 64) :
    log2memAttach ps file = some (fileHandle ps file) := by
  have hpages := filePages_size ps file
  have hload : (filePages ps file).load32 56 = some 64 := by
    rw [Mem.load32_eq ⟨by omega, by omega⟩, filePages_word ⟨by omega, by omega⟩,
      harch]
  simp only [log2memAttach, calculateSectionPointers_pages (show 52 ≤ file.size by omega), hload,
    Option.bind_eq_bind, Option.bind_some]
  rw [if_neg (by omega)]
  rfl

end Accepted

/-! ### When the tables are printed -/

/-- A counter in use, as `print_counters` asks. -/
def CounterUsed (h : Handle) (m : Mem) (i : ℕ) : Prop := m.word (counterAddr h i + 4) ≠ 0

/-- A variable in use, as `print_vars` asks. -/
def VarUsed (h : Handle) (m : Mem) (t : VarTable) (i : ℕ) : Prop :=
  m.word (t.addr h i + t.width) &&& eUsed ≠ 0

section Printers
variable {f : Printf} {h : Handle} {m : Mem}

theorem readLabel_some : ∀ {n : ℕ} {a : ℤ}, m.InBounds a n → ∃ s, readLabel n a m = some s
  | 0, _, _ => ⟨[], rfl⟩
  | n + 1, a, ⟨h0, h1⟩ => by
    rw [readLabel, Mem.load8_eq ⟨h0, by omega⟩, Option.bind_eq_bind, Option.bind_some]
    split
    · exact ⟨[], rfl⟩
    · obtain ⟨s, hs⟩ := readLabel_some (n := n) (a := a + 1) ⟨by omega, by omega⟩
      exact ⟨m.byte a :: s, by rw [hs]; rfl⟩

theorem printCounter_some {i : ℕ} (hc : m.InBounds (counterAddr h i) 8)
    (hl : CounterUsed h m i → m.InBounds (labelAddr h i) 64) :
    ∃ text, printCounter f h m i = some text := by
  obtain ⟨h0, h1⟩ := hc
  have hused : m.load32 (counterAddr h i + 4) = some (m.word (counterAddr h i + 4)) :=
    Mem.load32_eq ⟨by omega, by omega⟩
  have hvalue : m.load32 (counterAddr h i) = some (m.word (counterAddr h i)) :=
    Mem.load32_eq ⟨by omega, by omega⟩
  rw [printCounter, hused, Option.bind_eq_bind, Option.bind_some]
  split
  · exact ⟨[], rfl⟩
  · rename_i hne
    obtain ⟨label, hlabel⟩ := readLabel_some (hl hne)
    rw [labelLen, hlabel, hvalue]
    exact ⟨_, rfl⟩

theorem printCounters_some {numCounters : ℕ} (hn : hdrNumCounters m = some numCounters)
    (hc : ∀ i < (toInt32 numCounters).toNat, m.InBounds (counterAddr h i) 8)
    (hl : ∀ i < (toInt32 numCounters).toNat, CounterUsed h m i → m.InBounds (labelAddr h i) 64) :
    ∃ text, printCounters f h m = some text := by
  have hall : ∀ i ∈ List.range (toInt32 numCounters).toNat, ∃ text, printCounter f h m i = some text :=
    fun i hi => printCounter_some (hc i (List.mem_range.mp hi)) (hl i (List.mem_range.mp hi))
  obtain ⟨texts, htexts⟩ := mapM_some_iff.mpr hall
  refine ⟨texts.flatten, ?_⟩
  rw [printCounters, hn, Option.bind_eq_bind, Option.bind_some, htexts]
  rfl

/-- A variable whose entry is in the memory is printed exactly when it is not in use or its text is
    terminated. -/
theorem printVar_iff {t : VarTable} {i : ℕ} (hv : m.InBounds (t.addr h i) t.size) :
    (∃ text, printVar f h m t i = some text) ↔
      (VarUsed h m t i → m.Terminated (t.addr h i + t.width + 4)) := by
  obtain ⟨h0, h1⟩ := hv
  obtain ⟨hw, hs⟩ := t.width_size
  have hflags : m.load32 (t.addr h i + t.width) = some (m.word (t.addr h i + t.width)) :=
    Mem.load32_eq ⟨by omega, by omega⟩
  have hvalue : m.load (t.addr h i) t.width = some (m.get (t.addr h i) t.width) :=
    Mem.load_eq ⟨h0, by omega⟩
  unfold VarUsed
  rw [← Mem.cstr_size_iff]
  simp only [printVar, hflags, Option.bind_eq_bind, Option.bind_some]
  split
  · rename_i hunused
    exact ⟨fun _ hused => absurd hunused hused, fun _ => ⟨[], rfl⟩⟩
  · rename_i hused
    constructor
    · rintro ⟨text, htext⟩ _
      obtain ⟨s, hs, -⟩ := Option.bind_eq_some_iff.mp htext
      exact ⟨s, hs⟩
    · intro hterm
      obtain ⟨s, hs⟩ := hterm hused
      rw [printStr, hs, hvalue]
      exact ⟨_, rfl⟩

theorem printVars_iff {numVars : ℕ} (hn : hdrNumVars m = some numVars)
    (hv : ∀ t : VarTable, ∀ i < numVars, m.InBounds (t.addr h i) t.size) :
    (∃ text, printVars f h m = some text) ↔ ∀ t : VarTable, ∀ i < numVars,
      VarUsed h m t i → m.Terminated (t.addr h i + t.width + 4) := by
  have htable : ∀ t : VarTable, (∃ texts, (List.range numVars).mapM (printVar f h m t) = some texts) ↔
      ∀ i < numVars, VarUsed h m t i → m.Terminated (t.addr h i + t.width + 4) := fun t => by
    rw [mapM_some_iff]
    constructor
    · intro hall i hi
      exact (printVar_iff (hv t i hi)).mp (hall i (List.mem_range.mpr hi))
    · intro hall i hi
      exact (printVar_iff (hv t i (List.mem_range.mp hi))).mpr (hall i (List.mem_range.mp hi))
  simp only [printVars, hn, Option.bind_eq_bind, Option.bind_some, Option.pure_def]
  constructor
  · rintro ⟨text, htext⟩ t
    obtain ⟨doubles, hdoubles, htext⟩ := Option.bind_eq_some_iff.mp htext
    obtain ⟨ints, hints, -⟩ := Option.bind_eq_some_iff.mp htext
    cases t with
    | double => exact (htable .double).mp ⟨doubles, hdoubles⟩
    | int => exact (htable .int).mp ⟨ints, hints⟩
  · intro hall
    obtain ⟨doubles, hdoubles⟩ := (htable .double).mpr (hall .double)
    obtain ⟨ints, hints⟩ := (htable .int).mpr (hall .int)
    exact ⟨doubles.flatten ++ ints.flatten, by rw [hdoubles, Option.bind_some, hints, Option.bind_some]⟩

end Printers

end Log2mem
