import Log2mem.Layout.Create
import Log2mem.Schemes.Lookup
import Log2mem.Schemes.Runs

/-! One-time initialisation: double-checked locking around `__log2mem_create`.

    A call reaches the initialisation directly (`log2mem_init`) or through `MEMLOG_PREPARE_PTR`, which
    calls `log2mem_init` with the default config. Its program counter stands between two accesses to
    `g_log2mem` and `g_log2mem_lock`, so a run may interleave any number of calls in any way.

        prepare ─▶ test ─▶ lock ─▶ retest ─▶ create ─▶ creating ─▶ assign ─▶ unlock ─▶ ready ─▶ used
           │         │      ↻ held    └────────────────────────────────────────▲        ▲
           └─────────┴─── g_log2mem ≠ 0 ────────────────────────────────────────────────┘ -/

namespace Log2mem
open Schemes

/-- What `g_log2mem` points to: the handle that this call's `__log2mem_create` returned. -/
structure Inst where
  creator : ℕ
  handle : Handle
  deriving DecidableEq

/-- Where a call stands between two accesses. -/
inductive InitPc where
  /-- `MEMLOG_PREPARE_PTR` tests `g_log2mem` next -/
  | prepare
  /-- `log2mem_init` tests `g_log2mem` next, outside the lock -/
  | test
  /-- `__sync_lock_test_and_set` is next -/
  | lock
  /-- `log2mem_init` tests `g_log2mem` next, under the lock -/
  | retest
  /-- `__log2mem_create` is entered next -/
  | create
  /-- inside `__log2mem_create` -/
  | creating
  /-- `g_log2mem` is assigned next -/
  | assign (i : Inst)
  /-- `__sync_lock_release` is next -/
  | unlock
  /-- returned from initialisation -/
  | ready
  /-- loaded `g_log2mem` for its own work -/
  | used (g : Option Inst)

/-- Between `log2mem_atomic_spinlock` and `log2mem_atomic_spinunlock`. -/
def InitPc.inside : InitPc → Bool
  | .retest | .create | .creating | .assign _ | .unlock => true
  | _ => false

/-- Running `__log2mem_create`, or about to assign its result. -/
def InitPc.making : InitPc → Bool
  | .creating | .assign _ => true
  | _ => false

/-- Returned from initialisation. -/
def InitPc.returned : InitPc → Bool
  | .ready | .used _ => true
  | _ => false

/-- How a call reaches the initialisation. -/
inductive InitEntry where
  /-- `log2mem_init(filename, userconfig, configsize)` -/
  | init (userconfig : ℕ → UInt8) (configsize : ℕ)
  /-- an API function, by `MEMLOG_PREPARE_PTR` and `__default_log2mem_init` -/
  | api

/-- The config of `__default_log2mem_init`. -/
def defaultConfig : Config :=
  { options := UInt32.ofNat (optFileLine ||| optThreadId), numCounters := 16, numRows := 65536,
    rowLen := 256, numVars := 10 }

/-- A call of some thread. -/
structure InitCall where
  entry : InitEntry
  pc : InitPc

/-- The local `config` that the call passes to `__log2mem_create`. -/
def InitCall.config (c : InitCall) : Config :=
  match c.entry with
  | .init userconfig configsize => copyConfig userconfig configsize
  | .api => copyConfig defaultConfig.image sizeofConfig

/-- `g_log2mem`, `g_log2mem_lock`, the memmap as the last creation left it, and the calls that executed
    `__log2mem_create`, in order. -/
structure InitShared where
  g : Option Inst
  lock : Bool
  mem : Option Mem
  creates : List ℕ

structure InitState where
  shared : InitShared
  calls : List InitCall

/-- `g_log2mem == 0` and `lock == 0`, before any call. -/
def InitState.start : InitState := ⟨⟨none, false, none, []⟩, []⟩

/-- The next access of call `k`. A creation that fails exits the process: no step. -/
def InitCall.step (ps : PageSize) (os : Os) (date : List UInt8) (k : ℕ) (c : InitCall) (s : InitShared) :
    Option (InitShared × InitPc) :=
  match c.pc with
  | .prepare => some (s, if s.g = none then .test else .ready)
  | .test => some (s, if s.g = none then .lock else .ready)
  | .lock => some ({ s with lock := true }, if s.lock then .lock else .retest)
  | .retest => some (s, if s.g = none then .create else .unlock)
  | .create => some ({ s with creates := s.creates ++ [k] }, .creating)
  | .creating => do
    let (handle, m) ← Log2mem.create os ps date c.config
    return ({ s with mem := some m }, .assign ⟨k, handle⟩)
  | .assign i => some ({ s with g := some i }, .unlock)
  | .unlock => some ({ s with lock := false }, .ready)
  | .ready => some (s, .used s.g)
  | .used _ => none

/-- An action of some thread. -/
inductive InitAct where
  /-- `log2mem_init(filename, userconfig, configsize)` is called -/
  | init (userconfig : ℕ → UInt8) (configsize : ℕ)
  /-- an API function is called -/
  | api
  /-- the next access of call `k`; what the kernel and the clock say matters to a creation only -/
  | advance (k : ℕ) (os : Os) (date : List UInt8)

/-- One step of the system. -/
def initStep (ps : PageSize) (s : InitState) : InitAct → Option InitState
  | .init userconfig configsize =>
    some { s with calls := s.calls ++ [⟨.init userconfig configsize, .test⟩] }
  | .api => some { s with calls := s.calls ++ [⟨.api, .prepare⟩] }
  | .advance k os date => do
    let c ← s.calls[k]?
    let (shared, pc) ← c.step ps os date k s.shared
    return ⟨shared, s.calls.set k { c with pc }⟩

/-- The instance was created by a call that ran `__log2mem_create` to its end, and the memmap is the one
    it created. -/
def Made (ps : PageSize) (s : InitState) (i : Inst) : Prop :=
  ∃ c m os date, s.calls[i.creator]? = some c ∧ s.shared.mem = some m ∧
    create os ps date c.config = some (i.handle, m)

theorem initStep_advance {ps : PageSize} {s s' : InitState} {k : ℕ} {os : Os} {date : List UInt8}
    (hs : initStep ps s (.advance k os date) = some s') :
    ∃ c shared pc, s.calls[k]? = some c ∧ c.step ps os date k s.shared = some (shared, pc) ∧
      s' = ⟨shared, s.calls.set k { c with pc }⟩ := by
  simp only [initStep, Option.bind_eq_bind, Option.bind_eq_some_iff, Option.pure_def,
    Option.some.injEq] at hs
  obtain ⟨c, hc, ⟨shared, pc⟩, hst, rfl⟩ := hs
  exact ⟨c, shared, pc, hc, hst, rfl⟩

/-- A created memmap stores the rounded config of its creator. -/
theorem create_config {os : Os} {ps : PageSize} {date : List UInt8} {config : Config} {h : Handle}
    {m : Mem} (hc : create os ps date config = some (h, m)) : loadConfig m = some (normalise config) := by
  have hfit := (create_eq_some hc).1
  obtain ⟨hok, -, hsize, -⟩ := create_some hc
  exact hok.loadConfig_eq (by omega)

end Log2mem
