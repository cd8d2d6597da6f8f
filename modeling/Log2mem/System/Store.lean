import Log2mem.Api.Isolation
import Log2mem.Dump.Reported
import Log2mem.Log.Stamps
import Log2mem.Tool.Passes

/-! What a memmap is for: counters, variables and the last rows of a log, without a memory.

    A request is a call of the API or an operation of the tool. On the store it is a pure function: a
    counter gains an amount or a label, a variable is a latch, and the log is a bounded queue of rows,
    each with its number, its stamp and its items.

        counters:  value, label               ◀── add, incr, label
        variables: value, label, used         ◀── init, set, the tool by index or by name
        log:       │ number, stamp, items │ … ◀── write, get_row, time_event, append, set_ts     -/

namespace Log2mem
open Schemes

/-- A row of the log. -/
structure Entry where
  /-- how many rows were acquired before it -/
  number : ℕ
  stamp : Stamp
  items : List Item

/-- An append offers its item to the row. -/
def Entry.append (rowLen : ℕ) (a : Append) (e : Entry) : Entry :=
  { e with items := offers rowLen e.items (oneByOne a.logged) }

/-- `log2mem_set_ts` replaces the time. -/
def Entry.setTs (ts : UInt64) (e : Entry) : Entry := { e with stamp := { e.stamp with ts := ts.toNat } }

/-- A counter, and the label it was given last. -/
structure Counter where
  value : ℤ
  label : Option CStr

/-- What a memmap keeps. -/
structure Store where
  counters : ℕ → Counter
  vars : (t : VarTable) → ℕ → Latch t.Value (Option CStr)
  log : Queue Entry

/-- The sizes of a store, and the options its rows are written under. -/
structure Shape where
  counters : ℕ
  vars : ℕ
  rows : ℕ
  rowLen : ℕ
  options : ℕ

/-- A request: of the program, or of the tool. -/
inductive Request where
  | counter (c : CounterCall)
  | var (c : VarCall)
  | log (op : Op)
  /-- `log2mem_set_ts`, on the row pointer the `k`-th acquisition returned -/
  | setTs (k : ℕ) (ts : UInt64)
  | tool (op : SetOp)

/-- The request on the memory. -/
def Request.call (f : Sscanf) (h : Handle) (s : LogState) : Request → Option LogState
  | .counter c => s.onMem (c.run h s.mem)
  | .var c => s.onMem (c.run h s.mem)
  | .log op => op.call h s
  | .setTs k ts => do
    let r ← s.rows[k]?
    s.onMem (log2memSetTs (some r) ts s.mem)
  | .tool op => s.onMem ((op.run f h ⟨s.mem, []⟩).map World.mem)

/-! ### The requests on the store -/

/-- Nothing was done yet. -/
def Store.empty : Store where
  counters := fun _ => ⟨0, none⟩
  vars := fun t _ => .fresh t.zero
  log := .empty

/-- A counter takes what a call is addressed to it with. -/
def Counter.step (n i : ℕ) (c : CounterCall) (cell : Counter) : Counter :=
  ⟨cell.value + tally n i [c], (c.labels n i).or cell.label⟩

/-- The value an operation of the tool stores in slot `i` of a table: by index in the slot the index
    stands for, by name in a slot in use whose text is the name, if the value converts. -/
def SetOp.stores (f : Sscanf) (n i : ℕ) :
    (t : VarTable) → Latch t.Value (Option CStr) → SetOp → Option t.Value
  | .double, _, .index .double idx val => if idx.toNat % n = i then some val else none
  | .int, _, .index .int idx val => if idx.toNat % n = i then some val else none
  | t, l, .name label p => if label ≠ [] ∧ l.used ∧ labelText l.label = label then f.scan t p else none
  | _, _, _ => none

/-- A variable takes a value the tool stores. -/
def SetOp.latch (f : Sscanf) (n i : ℕ) (t : VarTable) (op : SetOp) (l : Latch t.Value (Option CStr)) :
    Latch t.Value (Option CStr) :=
  match op.stores f n i t l with
  | some value => l.step (.set value)
  | none => l

/-- The row a call acquires, or the row it appends to. -/
def Op.onLog (sh : Shape) (log : Queue Entry) (op : Op) : Queue Entry :=
  match op, op.env? with
  | .append k a, _ => log.modify k (·.append sh.rowLen a)
  | op, some env => log.push sh.rows
      ⟨log.next, env.stamp sh.options, offers sh.rowLen [] (op.groups together sh.options)⟩
  | _, none => log

/-- The request on the store. -/
def Store.step (f : Sscanf) (sh : Shape) (S : Store) : Request → Store
  | .counter c => { S with counters := fun i => (S.counters i).step sh.counters i c }
  | .var c => { S with vars := fun t i => c.latch sh.vars i t (S.vars t i) }
  | .log op => { S with log := op.onLog sh S.log }
  | .setTs k ts => { S with log := S.log.modify k (·.setTs ts) }
  | .tool op => { S with vars := fun t i => op.latch f sh.vars i t (S.vars t i) }

/-- Strings are short and NUL-free, and row pointers are used as long as their slot has not been acquired
    again. -/
def Request.Allowed (sh : Shape) (S : Store) : Request → Prop
  | .log op => op.Allowed sh.rows S.log.next
  | .setTs k _ => Retained sh.rows S.log.next k
  | .tool (.name label _) => 0 ∉ label
  | _ => True

end Log2mem
