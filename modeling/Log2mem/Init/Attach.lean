import Log2mem.Dump.Attach
import Log2mem.Init.Steps
import Log2mem.Ring.Isolation
import Log2mem.Schemes.Runs

/-! What a failed `log2mem_attach` leaves of `g_log2mem`, and what later calls make of it.

    The first two failure exits come before `g_log2mem` is assigned. The third, a memmap of another
    architecture, comes after: it leaves the global null, whatever it was before. The next call finds it
    null, and `MEMLOG_PREPARE_PTR` quietly creates the default memmap for it.

        open ─▶ fstat ─▶ mmap ─▶ g_log2mem = malloc ─▶ sections ─▶ arch = 64 ─▶ g_log2mem
                  │        │                                         │
                  ▼        ▼                                         ▼
                return NULL, g_log2mem as before             g_log2mem = NULL, return NULL -/

namespace Log2mem
open Schemes

/-- What `g_log2mem` points to: a mapped file, and its sections. -/
structure Attached where
  file : ℕ
  handle : Handle
  deriving DecidableEq

/-- What the calls of a process act on: `g_log2mem`, and the contents of the files. -/
structure Lib where
  g : Option Attached
  files : ℕ → Mem

/-- The library in a process: with `g_log2mem_errno`. -/
structure Process where
  lib : Lib
  errno : ℕ

/-- `MEMLOG_ERROR_INCOMPATIBLE_ARCH`. -/
def errorIncompatibleArch : ℕ := 1

/-- What the system calls of `log2mem_attach` return. -/
structure AttachOs where
  /-- `open`: a descriptor, or -1; it is not looked at -/
  fd : ℤ
  /-- `fstat` succeeds on this descriptor -/
  fstat : ℤ → Bool
  /-- `mmap` grants a mapping of this descriptor -/
  mmap : ℤ → Bool
  /-- `malloc` has room for a handle -/
  malloc : Bool

/-- `log2mem_attach` on the file that `filename` names: the pointer returned, and the library after it;
    `none` is a fault. Reading every byte beforehand only feeds a sum that nothing looks at. -/
def Process.log2memAttach (os : AttachOs) (ps : PageSize) (file : ℕ) (p : Process) :
    Option (Option Attached × Process) :=
  if os.fstat os.fd = false then some (none, p)
  else if os.mmap os.fd = false ∨ (p.lib.files file).size = 0 then some (none, p)
  -- the sections are written through the pointer before it is tested
  else if os.malloc = false then none
  else do
    let pages := filePages ps (p.lib.files file)
    let handle ← calculateSectionPointers ps pages
    let arch ← pages.load32 56
    if toInt32 arch = 64 then
      let g := some ⟨file, handle⟩
      return (g, { p with lib := { p.lib with g } })
    else return (none, { lib := { p.lib with g := none }, errno := errorIncompatibleArch })

/-- `log2mem_init`: the config is used only if there is no memmap yet. -/
def Lib.init (ps : PageSize) (os : Os) (date : List UInt8) (file : ℕ) (config : Config) (l : Lib) :
    Option Lib :=
  if l.g.isSome then some l
  else do
    let (handle, m) ← create os ps date config
    return { g := some ⟨file, handle⟩, files := Function.update l.files file m }

/-- A call of the library after the attach. -/
inductive LibCall where
  /-- `log2mem_init` on a file -/
  | init (os : Os) (date : List UInt8) (file : ℕ) (config : Config)
  /-- a function that starts with `MEMLOG_PREPARE_PTR`: counters, variables, acquiring a row -/
  | prepared (os : Os) (date : List UInt8) (op : Attached → (ℕ → Mem) → Option (ℕ → Mem))
  /-- a function that takes `g_log2mem` as it is: the appends to a row -/
  | bare (op : Option Attached → (ℕ → Mem) → Option (ℕ → Mem))

/-- One call; `defaultFile` is the file of `__default_log2mem_init`. -/
def LibCall.step (ps : PageSize) (defaultFile : ℕ) (l : Lib) : LibCall → Option Lib
  | init os date file config => l.init ps os date file config
  | prepared os date op => do
    let l ← l.init ps os date defaultFile defaultConfig
    let g ← l.g
    let files ← op g l.files
    return { l with files }
  | bare op => do
    let files ← op l.g l.files
    return { l with files }

/-- An operation on the memmap that `g_log2mem` points to. -/
def onMemmap (op : Handle → Mem → Option Mem) (g : Attached) (files : ℕ → Mem) : Option (ℕ → Mem) := do
  let m ← op g.handle (files g.file)
  return Function.update files g.file m

/-- The file is found and mapped. -/
def FileMapped (os : AttachOs) (file : Mem) : Prop :=
  os.fstat os.fd = true ∧ os.mmap os.fd = true ∧ file.size ≠ 0

/-- The file is mapped, and its header says another architecture. -/
def ArchRefused (os : AttachOs) (ps : PageSize) (file : Mem) : Prop :=
  os.fstat os.fd = true ∧ os.mmap os.fd = true ∧ file.size ≠ 0 ∧ os.malloc = true ∧
    60 ≤ (filePages ps file).size ∧ toInt32 ((filePages ps file).word 56) ≠ 64

/-! ### The exits of the attach -/

section Exits
variable {os : AttachOs} {ps : PageSize} {file : ℕ} {p p' : Process}

theorem calculateSectionPointers_some {m : Mem} (hsize : 52 ≤ m.size) :
    ∃ h, calculateSectionPointers ps m = some h := by
  have hload : ∀ a : ℤ, 0 ≤ a → a + 4 ≤ 52 → m.load32 a = some (m.word a) :=
    fun a h0 h1 => Mem.load32_eq ⟨h0, by omega⟩
  simp only [calculateSectionPointers, loadConfig, hdrOptions, hdrNumCounters, hdrNumRows, hdrRowLen,
    hdrNumVars, hload 32 (by omega) (by omega), hload 36 (by omega) (by omega),
    hload 40 (by omega) (by omega), hload 44 (by omega) (by omega), hload 48 (by omega) (by omega),
    Option.bind_eq_bind, Option.bind_some, Option.pure_def, Option.some.injEq, exists_eq']

/-- EARLY: before the file is mapped a failure leaves everything as it was. -/
theorem attach_unmapped (h : ¬ FileMapped os (p.lib.files file)) :
    p.log2memAttach os ps file = some (none, p) := by
  by_cases hfstat : os.fstat os.fd = true
  · have hmmap : os.mmap os.fd = false ∨ (p.lib.files file).size = 0 := by
      by_contra hnot
      push Not at hnot
      exact h ⟨hfstat, by simpa using hnot.1, hnot.2⟩
    rw [Process.log2memAttach, if_neg (by simp [hfstat]), if_pos hmmap]
  · rw [Process.log2memAttach, if_pos (by simpa using hfstat)]

/-- Once the file is mapped and there is a handle to fill in, only the architecture can go wrong. -/
theorem attach_mapped (hmapped : FileMapped os (p.lib.files file)) (hmalloc : os.malloc = true) :
    p.log2memAttach os ps file =
      (calculateSectionPointers ps (filePages ps (p.lib.files file))).bind fun handle =>
        ((filePages ps (p.lib.files file)).load32 56).bind fun arch =>
          if toInt32 arch = 64 then
            some (some ⟨file, handle⟩, { p with lib := { p.lib with g := some ⟨file, handle⟩ } })
          else some (none, { lib := { p.lib with g := none }, errno := errorIncompatibleArch }) := by
  obtain ⟨hfstat, hmmap, hempty⟩ := hmapped
  rw [Process.log2memAttach, if_neg (by simp [hfstat]), if_neg (by simp [hmmap, hempty]),
    if_neg (by simp [hmalloc])]
  rfl

/-- Without a handle to fill in, the sections are written through a null pointer. -/
theorem attach_nomem (hmapped : FileMapped os (p.lib.files file)) (hmalloc : os.malloc = false) :
    p.log2memAttach os ps file = none := by
  obtain ⟨hfstat, hmmap, hempty⟩ := hmapped
  rw [Process.log2memAttach, if_neg (by simp [hfstat]), if_neg (by simp [hmmap, hempty]), if_pos hmalloc]

theorem attach_accepts {m : Mem} {handle : Handle} {arch : ℕ} (hempty : m.size ≠ 0)
    (hsections : calculateSectionPointers ps (filePages ps m) = some handle)
    (harch : (filePages ps m).load32 56 = some arch) (h64 : toInt32 arch = 64) :
    Log2mem.log2memAttach ps m = some handle := by
  simp only [Log2mem.log2memAttach, Option.bind_eq_bind]
  rw [if_neg hempty, hsections, Option.bind_some, harch, Option.bind_some, if_pos h64]
  rfl

/-- REFUSED: another architecture is reported, and leaves `g_log2mem` null. -/
theorem attach_refused (h : ArchRefused os ps (p.lib.files file)) :
    p.log2memAttach os ps file =
      some (none, { lib := { p.lib with g := none }, errno := errorIncompatibleArch }) := by
  obtain ⟨hfstat, hmmap, hempty, hmalloc, hsize, harch⟩ := h
  rw [attach_mapped ⟨hfstat, hmmap, hempty⟩ hmalloc]
  generalize filePages ps (p.lib.files file) = pages at hsize harch ⊢
  obtain ⟨handle, hsections⟩ : ∃ handle, calculateSectionPointers ps pages = some handle :=
    calculateSectionPointers_some (by omega)
  have hload : pages.load32 56 = some (pages.word 56) := Mem.load32_eq ⟨by omega, by omega⟩
  rw [hsections, Option.bind_some, hload, Option.bind_some, if_neg harch]

/-- ATTACH: what a call that returns has done. It failed before the file was mapped and left everything
    as it was, or it was refused, or the file is accepted and is what `g_log2mem` points to. -/
theorem attach_cases {ret : Option Attached} (h : p.log2memAttach os ps file = some (ret, p')) :
    (ret = none ∧ p' = p) ∨
    (ArchRefused os ps (p.lib.files file) ∧ ret = none ∧
      p' = { lib := { p.lib with g := none }, errno := errorIncompatibleArch }) ∨
    ∃ handle, Log2mem.log2memAttach ps (p.lib.files file) = some handle ∧ ret = some ⟨file, handle⟩ ∧
      p' = { p with lib := { p.lib with g := some ⟨file, handle⟩ } } := by
  by_cases hmapped : FileMapped os (p.lib.files file)
  · cases hmalloc : os.malloc with
    | false =>
      rw [attach_nomem hmapped hmalloc] at h
      exact absurd h (by simp)
    | true =>
      rw [attach_mapped hmapped hmalloc] at h
      obtain ⟨handle, hsections, h⟩ := Option.bind_eq_some_iff.mp h
      obtain ⟨arch, harch, h⟩ := Option.bind_eq_some_iff.mp h
      by_cases h64 : toInt32 arch = 64
      · rw [if_pos h64, Option.some.injEq, Prod.mk.injEq] at h
        have haccept := attach_accepts hmapped.2.2 hsections harch h64
        exact Or.inr (Or.inr ⟨handle, haccept, h.1.symm, h.2.symm⟩)
      · rw [if_neg h64, Option.some.injEq, Prod.mk.injEq] at h
        obtain ⟨hin, hword⟩ := Mem.load32_some harch
        rw [hword] at h64
        obtain ⟨hfstat, hmmap, hempty⟩ := hmapped
        have hrefused : ArchRefused os ps (p.lib.files file) :=
          ⟨hfstat, hmmap, hempty, hmalloc, by have := hin.2; omega, h64⟩
        exact Or.inr (Or.inl ⟨hrefused, h.1.symm, h.2.symm⟩)
  · rw [attach_unmapped hmapped, Option.some.injEq, Prod.mk.injEq] at h
    exact Or.inl ⟨h.1.symm, h.2.symm⟩

end Exits

/-! ### The calls after it -/

section Later
variable {ps : PageSize} {defaultFile : ℕ} {l l' : Lib}

/-- The call leaves file `k` alone unless it is given the memmap in it. -/
def LibCall.Confined (k : ℕ) : LibCall → Prop
  | init _ _ file _ => file ≠ k
  | prepared _ _ op => ∀ a files files', a.file ≠ k → op a files = some files' → files' k = files k
  | bare op => ∀ (g : Option Attached) files files', (∀ a, g = some a → a.file ≠ k) →
      op g files = some files' → files' k = files k

theorem onMemmap_confined (k : ℕ) (os : Os) (date : List UInt8) (op : Handle → Mem → Option Mem) :
    (LibCall.prepared os date (onMemmap op)).Confined k := by
  intro a files files' hne hop
  obtain ⟨m, -, hfiles⟩ := Option.bind_eq_some_iff.mp hop
  rw [Option.pure_def, Option.some.injEq] at hfiles
  rw [← hfiles, Function.update_of_ne (Ne.symm hne)]

/-- `g_log2mem` does not point to file `k`, and the file is as it was. -/
def Lib.Apart (k : ℕ) (m : Mem) (l : Lib) : Prop := (∀ a, l.g = some a → a.file ≠ k) ∧ l.files k = m

theorem Lib.Apart.init {k file : ℕ} {m : Mem} (h : l.Apart k m) (hfile : file ≠ k) {os : Os}
    {date : List UInt8} {config : Config} (hs : l.init ps os date file config = some l') : l'.Apart k m := by
  obtain ⟨hg, hm⟩ := h
  rw [Lib.init] at hs
  split at hs
  · rw [Option.some.injEq] at hs
    rw [← hs]
    exact ⟨hg, hm⟩
  · obtain ⟨⟨handle, m'⟩, -, hs⟩ := Option.bind_eq_some_iff.mp hs
    rw [Option.pure_def, Option.some.injEq] at hs
    rw [← hs]
    refine ⟨fun a ha => ?_, by rw [← hm]; exact Function.update_of_ne (Ne.symm hfile) ..⟩
    rw [← Option.some.inj ha]
    exact hfile

/-- STEP: a confined call keeps the file apart. -/
theorem Lib.Apart.step {k : ℕ} {m : Mem} (h : l.Apart k m) (hdefault : defaultFile ≠ k) {c : LibCall}
    (hc : c.Confined k) (hs : LibCall.step ps defaultFile l c = some l') : l'.Apart k m := by
  cases c with
  | init os date file config => exact h.init hc hs
  | prepared os date op =>
    simp only [LibCall.step, Option.bind_eq_bind, Option.bind_eq_some_iff, Option.pure_def,
      Option.some.injEq] at hs
    obtain ⟨l₁, hinit, a, ha, files, hop, rfl⟩ := hs
    obtain ⟨hg, hm⟩ := h.init hdefault hinit
    exact ⟨hg, (hc a _ files (hg a ha) hop).trans hm⟩
  | bare op =>
    simp only [LibCall.step, Option.bind_eq_bind, Option.bind_eq_some_iff, Option.pure_def,
      Option.some.injEq] at hs
    obtain ⟨files, hop, rfl⟩ := hs
    exact ⟨h.1, (hc _ _ files h.1 hop).trans h.2⟩

end Later

section Runs
variable {os : AttachOs} {ps : PageSize} {defaultFile file : ℕ} {p p' : Process} {a : Attached}
  {calls : List LibCall} {l l' : Lib}

/-- DETACHED: after a refused attach no later call acts on the memmap that `g_log2mem` pointed to, unless it
    is the default one. -/
theorem refused_attach_detaches (hrefused : ArchRefused os ps (p.lib.files file))
    (hdefault : defaultFile ≠ a.file)
    (hcalls : ∀ c ∈ calls, ∃ os date op, c = LibCall.prepared os date (onMemmap op))
    (hattach : p.log2memAttach os ps file = some (none, p'))
    (hrun : exec (LibCall.step ps defaultFile) p'.lib calls = some l) :
    l.files a.file = p.lib.files a.file := by
  rw [attach_refused hrefused, Option.some.injEq, Prod.mk.injEq] at hattach
  have hstart : p'.lib.Apart a.file (p.lib.files a.file) := by
    rw [← hattach.2]
    exact ⟨fun _ h => absurd h (by simp), rfl⟩
  have hconfined : ∀ c ∈ calls, c.Confined a.file := fun c hc => by
    obtain ⟨os, date, op, rfl⟩ := hcalls c hc
    exact onMemmap_confined a.file os date op
  exact (exec_invariant (fun _ _ _ hI hc hs => hI.step hdefault hc hs) hconfined hstart hrun).2

end Runs

/-- KEPT: whenever the attach returns null, `g_log2mem` is what it was and all later calls do what they
    would have done without it, exactly when `g_log2mem` was null before or the call is not refused for
    the architecture. -/
theorem failed_attach_kept_iff (os : AttachOs) (ps : PageSize) (defaultFile file : ℕ) (p : Process) :
    (∀ p', p.log2memAttach os ps file = some (none, p') → p'.lib.g = p.lib.g ∧
      ∀ calls : List LibCall, exec (LibCall.step ps defaultFile) p'.lib calls =
        exec (LibCall.step ps defaultFile) p.lib calls) ↔
      p.lib.g = none ∨ ¬ ArchRefused os ps (p.lib.files file) := by
  constructor
  · intro hall
    by_contra hnot
    push Not at hnot
    obtain ⟨hg, hrefused⟩ := hnot
    exact hg (hall _ (attach_refused hrefused)).1.symm
  · intro h p' hnull
    have hlib : p'.lib = p.lib := by
      rcases attach_cases hnull with ⟨-, hsame⟩ | ⟨hrefused, -, hp⟩ | ⟨handle, -, hret, -⟩
      · rw [hsame]
      · have hg := h.resolve_right (not_not.mpr hrefused)
        rw [hp, ← hg]
      · exact absurd hret (by simp)
    rw [hlib]
    exact ⟨rfl, fun _ => rfl⟩

/-- The first 60 bytes of a memmap written by a program of 32 bits. -/
def otherArch : Mem := ⟨60, fun x => if x = 56 then 32 else 0⟩

/-- With a memmap in use, attaching to the file of a 32-bit program leaves `g_log2mem` null. -/
theorem failed_attach_not_kept : ¬ ∀ (os : AttachOs) (ps : PageSize) (defaultFile file : ℕ)
    (p p' : Process), p.log2memAttach os ps file = some (none, p') → p'.lib.g = p.lib.g ∧
      ∀ calls : List LibCall, exec (LibCall.step ps defaultFile) p'.lib calls =
        exec (LibCall.step ps defaultFile) p.lib calls := by
  intro hall
  obtain ⟨m, -⟩ := twoRows.created []
  have hrefused : ArchRefused ⟨3, fun _ => true, fun _ => true, true⟩ page4096 otherArch :=
    ⟨rfl, rfl, by decide, rfl, by decide, by decide⟩
  have hg := (hall _ page4096 0 1
    ⟨⟨some ⟨2, twoRows.handle⟩, fun k => if k = 2 then m else otherArch⟩, 0⟩ _ (attach_refused hrefused)).1
  exact absurd hg (by simp)

end Log2mem
