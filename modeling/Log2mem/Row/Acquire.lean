import Log2mem.Layout.Masks
import Log2mem.Row.Push

/-! Acquiring a row (`__log2mem_init_row`) and the logging API on top of it.

    A row id is fetched from `nextrow`, masked into a slot index, and the slot's header is written
    field by field; with `MEMLOG_FILELINE` the source location is pushed first.

        nextrow++ ──▶ slot address ──▶ [tid] ──▶ [ts] ──▶ id ──▶ datalen = 0 ──▶ [filename, lineno] -/

namespace Log2mem
open Schemes

/-- A C string: its characters, no NUL among them. -/
structure CStr where
  chars : List UInt8
  nul_free : 0 ∉ chars

/-- The string as a buffer, its NUL included. -/
def CStr.buf (s : CStr) : Buf := fun i => s.chars.getD i 0

/-- `strlen` passed on as an `int`. -/
def CStr.strlen (s : CStr) : Int32 := Int32.ofNat s.chars.length

/-- What the system calls of one row acquisition return. -/
structure Env where
  tid : Int32
  rdtsc : UInt64
  /-- `gettimeofday` -/
  tvSec : Int64
  tvUsec : Int64
  /-- `clock_gettime` -/
  tsSec : Int64
  tsNsec : Int64

/-- `(tv_sec << MEMLOG_BITS_NANO) + nanoseconds`, with the 64-bit `time_t` of LP64. -/
def packTs (sec nsec : ℤ) : ℕ := toSize (sec * 1073741824 + nsec)

/-- The timestamp of a row under `options & MEMLOG_CLOCKSOURCE_MASK`; without a clock source `r->ts`
    is left alone. -/
def rowTs (options : ℕ) (env : Env) : Option ℕ :=
  match options &&& 12 with
  | 12 => some env.rdtsc.toNat
  | 4 => some (packTs env.tvSec.toInt (env.tvUsec.toInt * 1000))
  | 8 => some (packTs env.tsSec.toInt env.tsNsec.toInt)
  | _ => none

/-- `log2mem_atomic_incr_fetch_uint(&nextrow, 1) - 1`; the fetched value passes through an `int`. -/
def fetchRowid (m : Mem) : Option (Mem × ℕ) := do
  let nextrow ← hdrNextrow m
  let m ← m.store32 28 (toU32 (nextrow + 1))
  return (m, toU32 (toInt32 (nextrow + 1) - 1))

/-- The row pointer of `rowid`. -/
def rowPtr (h : Handle) (rowid : ℕ) (m : Mem) : Option ℤ := do
  let numRows ← hdrNumRows m
  let rowLen ← hdrRowLen m
  return rowAddr h.rows (maskIdx rowid numRows) rowLen

/-- `r->tid`, under `MEMLOG_THREADID`. -/
def stampTid (r : ℤ) (env : Env) (m : Mem) : Option Mem := do
  let options ← hdrOptions m
  if options &&& optThreadId ≠ 0 then m.store32 r env.tid.toUInt32.toNat else return m

/-- `r->ts`, under a clock source. -/
def stampTs (r : ℤ) (env : Env) (m : Mem) : Option Mem := do
  let options ← hdrOptions m
  match rowTs options env with
  | some ts => m.store (r + 8) (leBytes 8 ts)
  | none => return m

/-- `r->id = rowid`. -/
def stampId (r : ℤ) (rowid : ℕ) (m : Mem) : Option Mem := m.store32 (r + 16) rowid

/-- `r->datalen = 0`. -/
def resetDatalen (r : ℤ) (m : Mem) : Option Mem := m.store32 (r + 20) 0

/-- The pushes of the source location: `(options & MEMLOG_FILELINE) && filename`. -/
def locationPushes (options : ℕ) (filename : Option CStr) (lineno : Int32) : List Push :=
  match filename with
  | some s =>
    if options &&& optFileLine ≠ 0 then [.filename s.strlen s.buf, .value (.lineno lineno)] else []
  | none => []

/-- Pushes in order. -/
def runPushes (r : ℤ) : List Push → Mem → Option Mem
  | [], m => some m
  | p :: ps, m => do runPushes r ps (← p.run r m)

/-- `__log2mem_init_row`, once the row pointer is known: the slot's header, then the location. -/
def initSlot (r : ℤ) (rowid : ℕ) (env : Env) (filename : Option CStr) (lineno : Int32) (m : Mem) :
    Option Mem := do
  let m ← stampTid r env m
  let m ← stampTs r env m
  let m ← stampId r rowid m
  let m ← resetDatalen r m
  let options ← hdrOptions m
  runPushes r (locationPushes options filename lineno) m

/-- `__log2mem_init_row`, on a valid handle. -/
def initRow (h : Handle) (env : Env) (filename : Option CStr) (lineno : Int32) (m : Mem) :
    Option (Mem × ℤ) := do
  let (m, rowid) ← fetchRowid m
  let r ← rowPtr h rowid m
  return (← initSlot r rowid env filename lineno m, r)

/-! ### The logging API -/

/-- `log2mem_write`. -/
def log2memWrite (h : Handle) (env : Env) (str filename : Option CStr) (lineno : Int32) (m : Mem) :
    Option (Mem × ℤ) := do
  let (m, r) ← initRow h env filename lineno m
  match str with
  | some s => return (← log2memPushStr r .string s.strlen s.buf m, r)
  | none => return (m, r)

/-- `log2mem_get_row`. -/
def log2memGetRow (h : Handle) (env : Env) (filename : Option CStr) (lineno : Int32) (m : Mem) :
    Option (Mem × ℤ) := initRow h env filename lineno m

/-- `log2mem_time_event4`. -/
def log2memTimeEvent4 (h : Handle) (env : Env) (e : Event) (m : Mem) : Option (Mem × ℤ) := do
  let (m, r) ← initRow h env none 0 m
  return (← eventBody r e m, r)

/-- `log2mem_time_event2`. -/
def log2memTimeEvent2 (h : Handle) (env : Env) (flowid msgid : Int32) : Mem → Option (Mem × ℤ) :=
  log2memTimeEvent4 h env ⟨flowid, msgid, none, 0⟩

/-- `log2mem_time_event3`. -/
def log2memTimeEvent3 (h : Handle) (env : Env) (flowid msgid : Int32) (msgstr : CStr) :
    Mem → Option (Mem × ℤ) :=
  log2memTimeEvent4 h env ⟨flowid, msgid, some msgstr.buf, msgstr.strlen⟩

/-- `if (r)`: a null row pointer makes every append a no-op. -/
def onRow (r : Option ℤ) (f : ℤ → Mem → Option Mem) (m : Mem) : Option Mem :=
  match r with
  | some r => f r m
  | none => some m

def log2memAppendUint (r : Option ℤ) (d : UInt32) : Mem → Option Mem :=
  onRow r fun r => log2memPush r .uint (leBytes 4 d.toNat)

def log2memAppendInt (r : Option ℤ) (d : Int32) : Mem → Option Mem :=
  onRow r fun r => log2memPush r .int (leBytes 4 d.toUInt32.toNat)

/-- `log2mem_append_str2`: the length comes from the caller. -/
def log2memAppendStr2 (r : Option ℤ) (str : Option Buf) (len : Int32) : Mem → Option Mem :=
  onRow r fun r m => match str with
    | some str => log2memPushStr r .string len str m
    | none => some m

/-- `log2mem_append_str`: the length is `strlen(str)`. -/
def log2memAppendStr (r : Option ℤ) (str : Option CStr) : Mem → Option Mem :=
  onRow r fun r m => match str with
    | some s => log2memPushStr r .string s.strlen s.buf m
    | none => some m

def log2memAppendUlong (r : Option ℤ) (d : UInt64) : Mem → Option Mem :=
  onRow r fun r => log2memPush r .ulong (leBytes 8 d.toNat)

def log2memAppendLong (r : Option ℤ) (d : Int64) : Mem → Option Mem :=
  onRow r fun r => log2memPush r .long (leBytes 8 d.toUInt64.toNat)

def log2memAppendFloat (r : Option ℤ) (bits : UInt32) : Mem → Option Mem :=
  onRow r fun r => log2memPush r .float (leBytes 4 bits.toNat)

def log2memAppendDouble (r : Option ℤ) (bits : UInt64) : Mem → Option Mem :=
  onRow r fun r => log2memPush r .double (leBytes 8 bits.toNat)

def log2memAppendChar (r : Option ℤ) (d : UInt8) : Mem → Option Mem :=
  onRow r fun r => log2memPush r .char [d]

/-- A call of one of the append functions. -/
inductive Append where
  | str (s : Option CStr)
  | str2 (s : Option Buf) (len : Int32)
  | int (d : Int32)
  | uint (d : UInt32)
  | long (d : Int64)
  | ulong (d : UInt64)
  | float (bits : UInt32)
  | double (bits : UInt64)
  | char (d : UInt8)

/-- The call on the row pointer `r`. -/
def Append.run (r : Option ℤ) : Append → Mem → Option Mem
  | .str s => log2memAppendStr r s
  | .str2 s len => log2memAppendStr2 r s len
  | .int d => log2memAppendInt r d
  | .uint d => log2memAppendUint r d
  | .long d => log2memAppendLong r d
  | .ulong d => log2memAppendUlong r d
  | .float bits => log2memAppendFloat r bits
  | .double bits => log2memAppendDouble r bits
  | .char d => log2memAppendChar r d

/-- The push the call makes; a null string makes none. -/
def Append.pushes : Append → List Push
  | .str (some s) => [.string s.strlen s.buf]
  | .str none => []
  | .str2 (some b) len => [.string len b]
  | .str2 none _ => []
  | .int d => [.value (.int d)]
  | .uint d => [.value (.uint d)]
  | .long d => [.value (.long d)]
  | .ulong d => [.value (.ulong d)]
  | .float bits => [.value (.float bits)]
  | .double bits => [.value (.double bits)]
  | .char d => [.value (.char d)]

theorem runPushes_singleton (r : ℤ) (p : Push) (m : Mem) : runPushes r [p] m = p.run r m := by
  cases h : p.run r m <;> simp [runPushes, h]

theorem Append.run_eq (a : Append) (r : ℤ) (m : Mem) :
    a.run (some r) m = runPushes r a.pushes m := by
  cases a with
  | str s =>
    cases s with
    | none => rfl
    | some s => rw [Append.pushes, runPushes_singleton]; rfl
  | str2 s len =>
    cases s with
    | none => rfl
    | some s => rw [Append.pushes, runPushes_singleton]; rfl
  | _ => rw [Append.pushes, runPushes_singleton]; rfl

end Log2mem
