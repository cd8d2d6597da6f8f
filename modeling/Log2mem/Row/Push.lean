import Log2mem.Row.Record

/-! Pushing into a row (`__log2mem_push`, `__log2mem_push_str`) and the fused record group of
    `log2mem_time_event4`.

    Every push reads `row->datalen` three times: for the space test, for the write address, and for
    the update. On a row that nobody else touches in between, the three agree, and a push is one step
    of the greedy fill: the record is appended when it fits and the row is left alone otherwise.

        fits? ──no──▶ unchanged
         │ yes
         ▼
        write record at payload + datalen ──▶ datalen += totlen -/

namespace Log2mem
open Schemes

/-- `row->id`. -/
def rowId (r : ℤ) (m : Mem) : Option ℕ := m.load32 (r + 16)

/-- `row->datalen`. -/
def rowDatalen (r : ℤ) (m : Mem) : Option ℕ := m.load32 (r + 20)

/-- The space test: `totlen <= (int) (row_len - row->datalen)`. -/
def fits (r totlen : ℤ) (m : Mem) : Option Bool := do
  let rowLen ← hdrRowLen m
  let datalen ← rowDatalen r m
  return decide (totlen ≤ toInt32 (rowLen - datalen))

/-- `row->datalen += totlen`. -/
def growDatalen (r totlen : ℤ) (m : Mem) : Option Mem := do
  let datalen ← rowDatalen r m
  m.store32 (r + 20) (toU32 (datalen + totlen))

/-- The shape shared by both push functions: test, write at `payload + datalen`, update. -/
def pushRecord (r totlen : ℤ) (put : ℤ → Mem → Option Mem) (m : Mem) : Option Mem := do
  if ← fits r totlen m then
    let datalen ← rowDatalen r m
    let m ← put (r + 24 + datalen) m
    growDatalen r totlen m
  else return m

/-- `__log2mem_push`. -/
def log2memPush (r : ℤ) (datatype : DataType) (data : List UInt8) : Mem → Option Mem :=
  pushRecord r (dataTotlen data.length) (putData datatype data)

/-- `__log2mem_push_str`. -/
def log2memPushStr (r : ℤ) (datatype : DataType) (len : Int32) (str : Buf) : Mem → Option Mem :=
  pushRecord r (strTotlen len) (putStr datatype len str)

/-! ### Values and pushes -/

/-- A value of one of the fixed-size data types. -/
inductive Value where
  | uint (d : UInt32)
  | int (d : Int32)
  | ulong (d : UInt64)
  | long (d : Int64)
  | float (bits : UInt32)
  | double (bits : UInt64)
  | char (d : UInt8)
  | lineno (d : Int32)
  deriving DecidableEq

def Value.type : Value → DataType
  | .uint _ => .uint
  | .int _ => .int
  | .ulong _ => .ulong
  | .long _ => .long
  | .float _ => .float
  | .double _ => .double
  | .char _ => .char
  | .lineno _ => .lineno

/-- The value's bytes in memory. -/
def Value.bytes : Value → List UInt8
  | .uint d => leBytes 4 d.toNat
  | .int d => leBytes 4 d.toUInt32.toNat
  | .ulong d => leBytes 8 d.toNat
  | .long d => leBytes 8 d.toUInt64.toNat
  | .float bits => leBytes 4 bits.toNat
  | .double bits => leBytes 8 bits.toNat
  | .char d => [d]
  | .lineno d => leBytes 4 d.toUInt32.toNat

/-- A call of one of the two push functions. -/
inductive Push where
  | value (v : Value)
  | string (len : Int32) (str : Buf)
  | filename (len : Int32) (str : Buf)

/-- The call itself. -/
def Push.run (r : ℤ) : Push → Mem → Option Mem
  | .value v => log2memPush r v.type v.bytes
  | .string len str => log2memPushStr r .string len str
  | .filename len str => log2memPushStr r .filename len str

/-- The call's `totlen`. -/
def Push.totlen : Push → ℤ
  | .value v => dataTotlen v.bytes.length
  | .string len _ => strTotlen len
  | .filename len _ => strTotlen len

/-- The call's writes at `ptr`. -/
def Push.put : Push → ℤ → Mem → Option Mem
  | .value v => putData v.type v.bytes
  | .string len str => putStr .string len str
  | .filename len str => putStr .filename len str

/-- The record the call is meant to store. -/
def Push.recs : Push → List Rec
  | .value v => [⟨v.type, v.bytes⟩]
  | .string len str => strRecs .string len str
  | .filename len str => strRecs .filename len str

/-- A length whose exact record size is an `int`. -/
def ExactLen (len : Int32) : Prop := 0 ≤ len.toInt ∧ len.toInt ≤ 2147483638

/-- The exact size of the pushed record is an `int`. -/
def Push.Exact : Push → Prop
  | .value _ => True
  | .string len _ => ExactLen len
  | .filename len _ => ExactLen len

theorem Push.run_eq (r : ℤ) (p : Push) : p.run r = pushRecord r p.totlen p.put := by
  cases p <;> rfl

theorem Value.bytes_length_le (v : Value) : v.bytes.length ≤ 8 := by
  cases v <;> simp [Value.bytes]

/-! ### The record group of `log2mem_time_event4` -/

/-- The arguments of `log2mem_time_event4`; `str = none` is the null pointer. -/
structure Event where
  flowid : Int32
  msgref : Int32
  str : Option Buf
  len : Int32

/-- The message is stored under `str && len>0`. -/
def Event.msg (e : Event) : Option Buf := if 0 < e.len.toInt then e.str else none

/-- `len_needed`. -/
def Event.lenNeeded (e : Event) : ℤ :=
  let lenNeeded : ℤ := toInt32 (toSize (2 * 8 + 2 * 4))
  match e.msg with
  | some _ => toInt32 (toSize (lenNeeded + toSize (8 + toInt32 (e.len.toInt + 1))))
  | none => lenNeeded

/-- The two or three records written at `ptr`. -/
def Event.put (e : Event) (ptr : ℤ) (m : Mem) : Option Mem := do
  let m ← putData .int (leBytes 4 e.flowid.toUInt32.toNat) ptr m
  let m ← putData .int (leBytes 4 e.msgref.toUInt32.toNat) (ptr + 12) m
  match e.msg with
  | some str => putStr .string e.len str (ptr + 24) m
  | none => return m

/-- The records the event is meant to store. -/
def Event.recs (e : Event) : List Rec :=
  [⟨.int, leBytes 4 e.flowid.toUInt32.toNat⟩, ⟨.int, leBytes 4 e.msgref.toUInt32.toNat⟩] ++
    match e.msg with
    | some str => [strRec .string e.len str]
    | none => []

/-- The exact size of the event's records is an `int`. -/
def Event.Exact (e : Event) : Prop := e.msg.isSome → e.len.toInt ≤ 2147483614

/-- The body of `log2mem_time_event4` on an acquired row: one combined test, then all the records at
    offset 0 ("there is no data already in the row"). -/
def eventBody (r : ℤ) (e : Event) (m : Mem) : Option Mem := do
  if ← fits r e.lenNeeded m then
    let m ← e.put (r + 24) m
    growDatalen r e.lenNeeded m
  else return m

end Log2mem
