import Log2mem.Schemes.Lookup
import Log2mem.Schemes.Runs
import Log2mem.Ring.Geometry

/-! Many writers on one ring: the individual memory accesses of row acquisition and of every push.

    An owner is the holder of one acquisition, numbered in the order of the fetch-adds. Its program
    counter stands between two accesses of `__log2mem_init_row` or of a push, so a run may stop any
    owner anywhere and let the others go on.

        fetch-add ─▶ tid ─▶ ts ─▶ id ─▶ datalen=0 ─▶ location ─▶ ready ◀──────────────────┐
                                                       (test) │ no room: drop             │
                                                              ▼                           │
                                     load datalen (addr) ─▶ write ─▶ load datalen ─▶ store ┘ -/

namespace Log2mem
open Schemes

/-- One call of a push function, or the fused group of `log2mem_time_event4`. -/
inductive Job where
  | push (p : Push)
  | event (e : Event)

def Job.totlen : Job → ℤ
  | .push p => p.totlen
  | .event e => e.lenNeeded

def Job.put : Job → ℤ → Mem → Option Mem
  | .push p => p.put
  | .event e => e.put

def Job.recs : Job → List Rec
  | .push p => p.recs
  | .event e => e.recs

def Job.Exact : Job → Prop
  | .push p => p.Exact
  | .event e => e.Exact

def Job.isPush : Job → Bool
  | .push _ => true
  | .event _ => false

/-- Where a thread stands between two memory accesses. -/
inductive Pc where
  | stampTid | stampTs | stampId | reset | location
  | ready
  /-- the space test passed; `row->datalen` is loaded next, for the write address -/
  | addr (j : Job)
  /-- the record is written next, at this offset of the payload -/
  | write (j : Job) (off : ℕ)
  /-- `row->datalen` is loaded next, for the update -/
  | load (j : Job)
  /-- `row->datalen` is stored next, this value plus `totlen` -/
  | store (j : Job) (d : ℕ)
  | finished

/-- A passed test leads on to the address; "there is no data already in the row" of an event. -/
def Job.placed : Job → Pc
  | .push p => .addr (.push p)
  | .event e => .write (.event e) 0

/-- What a row is acquired for. -/
inductive Start where
  /-- `log2mem_write` and `log2mem_get_row` -/
  | row (filename : Option CStr) (lineno : Int32)
  /-- `log2mem_time_event4` -/
  | event (e : Event)

/-- The pushes made before the row pointer is handed out. -/
def Start.jobs (options : ℕ) : Start → List Job
  | .row filename lineno => (locationPushes options filename lineno).map .push
  | .event e => [.event e]

/-- The holder of one acquisition. -/
structure Owner where
  row : ℤ
  rowid : ℕ
  start : Start
  env : Env
  pc : Pc
  /-- the pushes of the current call that are still to come -/
  todo : List Job
  /-- the groups of records offered so far -/
  done : List (List Rec)

/-- Between two calls. -/
def Owner.idle (o : Owner) : Bool :=
  match o.pc, o.todo with
  | .ready, [] => true
  | _, _ => false

/-- The next memory access of an owner. -/
def Owner.step (o : Owner) (m : Mem) : Option (Owner × Mem) :=
  match o.pc with
  | .stampTid => do return ({ o with pc := .stampTs }, ← stampTid o.row o.env m)
  | .stampTs => do return ({ o with pc := .stampId }, ← stampTs o.row o.env m)
  | .stampId => do return ({ o with pc := .reset }, ← stampId o.row o.rowid m)
  | .reset => do return ({ o with pc := .location }, ← resetDatalen o.row m)
  | .location => do
    let options ← hdrOptions m
    return ({ o with pc := .ready, todo := o.start.jobs options }, m)
  | .ready =>
    match o.todo with
    | [] => none
    | j :: js => do
      if ← fits o.row j.totlen m then return ({ o with pc := j.placed, todo := js }, m)
      else return ({ o with todo := js, done := o.done ++ [j.recs] }, m)
  | .addr j => do return ({ o with pc := .write j (← rowDatalen o.row m) }, m)
  | .write j off => do return ({ o with pc := .load j }, ← j.put (o.row + 24 + off) m)
  | .load j => do return ({ o with pc := .store j (← rowDatalen o.row m) }, m)
  | .store j d => do
    let m ← m.store32 (o.row + 20) (toU32 (d + j.totlen))
    return ({ o with pc := .ready, done := o.done ++ [j.recs] }, m)
  | .finished => none

/-- The shared memory and the owners, in the order of their acquisitions. -/
structure State where
  mem : Mem
  owners : List Owner

/-- An action of some thread. -/
inductive Act where
  /-- the fetch-add of the next acquisition -/
  | acquire (start : Start) (env : Env)
  /-- the next memory access of acquisition `k` -/
  | advance (k : ℕ)
  /-- an append call on the row of acquisition `k` -/
  | append (k : ℕ) (a : Append)
  /-- the owner of acquisition `k` makes no more calls on its row -/
  | finish (k : ℕ)

/-- One step of the system; `none` is an action that is not possible, or a fault. -/
def step (h : Handle) (s : State) : Act → Option State
  | .acquire start env => do
    let (m, rowid) ← fetchRowid s.mem
    let r ← rowPtr h rowid m
    return { mem := m, owners := s.owners ++ [⟨r, rowid, start, env, .stampTid, [], []⟩] }
  | .advance k => do
    let o ← s.owners[k]?
    let (o, m) ← o.step s.mem
    return { mem := m, owners := s.owners.set k o }
  | .append k a => do
    let o ← s.owners[k]?
    if o.idle then return { s with owners := s.owners.set k { o with todo := a.pushes.map .push } }
    else none
  | .finish k => do
    let o ← s.owners[k]?
    if o.idle then return { s with owners := s.owners.set k { o with pc := .finished } }
    else none

/-- No acquisition overtakes by a full ring an owner that is still writing. -/
def Timely (numRows : ℕ) (s : State) : Act → Prop
  | .acquire _ _ => ∀ k o, k + numRows = s.owners.length → s.owners[k]? = some o → o.pc = .finished
  | _ => True

instance : ∀ pc : Pc, Decidable (pc = .finished)
  | .finished => .isTrue rfl
  | .stampTid | .stampTs | .stampId | .reset | .location | .ready | .addr _ | .write _ _ | .load _
  | .store _ _ => .isFalse Pc.noConfusion

instance : ∀ pc : Pc, Decidable (pc = .ready)
  | .ready => .isTrue rfl
  | .stampTid | .stampTs | .stampId | .reset | .location | .addr _ | .write _ _ | .load _ | .store _ _
  | .finished => .isFalse Pc.noConfusion

instance (numRows : ℕ) (s : State) : ∀ a, Decidable (Timely numRows s a)
  | .acquire _ _ =>
    decidable_of_iff (numRows ≤ s.owners.length →
        ∀ o ∈ s.owners[s.owners.length - numRows]?, o.pc = .finished)
      ⟨fun h k o hk ho => h (by omega) o (by rw [show s.owners.length - numRows = k by omega]; exact ho),
        fun h hle o ho => h _ o (by omega) ho⟩
  | .advance _ | .append _ _ | .finish _ => .isTrue trivial

/-! ### What the jobs do -/

theorem Job.writes {j : Job} (h : j.Exact) : Writes j.totlen j.put j.recs := by
  cases j with
  | push p => exact Push.writes h
  | event e => exact Event.writes h

theorem Job.overruns {j : Job} (h : ¬ j.Exact) : Overruns j.put j.recs := by
  cases j with
  | push p => exact Push.overruns h
  | event e => exact Event.overruns h

/-! ### What a step can do -/

section Inversion
variable {h : Handle} {s s' : State}

theorem step_acquire {start : Start} {env : Env} (hs : step h s (.acquire start env) = some s') :
    ∃ m rowid r, fetchRowid s.mem = some (m, rowid) ∧ rowPtr h rowid m = some r ∧
      s' = { mem := m, owners := s.owners ++ [⟨r, rowid, start, env, .stampTid, [], []⟩] } := by
  simp only [step, Option.bind_eq_bind, Option.bind_eq_some_iff, Option.pure_def,
    Option.some.injEq] at hs
  obtain ⟨⟨m, rowid⟩, hf, r, hr, rfl⟩ := hs
  exact ⟨m, rowid, r, hf, hr, rfl⟩

/-- A memory access replaces one owner. -/
theorem step_advance {k : ℕ} (hs : step h s (.advance k) = some s') :
    ∃ o o' m, s.owners[k]? = some o ∧ o.step s.mem = some (o', m) ∧
      s' = { mem := m, owners := s.owners.set k o' } := by
  simp only [step, Option.bind_eq_bind, Option.bind_eq_some_iff, Option.pure_def,
    Option.some.injEq] at hs
  obtain ⟨o, ho, ⟨o', m⟩, hst, rfl⟩ := hs
  exact ⟨o, o', m, ho, hst, rfl⟩

theorem Owner.idle_iff {o : Owner} : o.idle = true ↔ o.pc = .ready ∧ o.todo = [] := by
  unfold Owner.idle
  split
  · simp [*]
  · rename_i hn
    simp only [Bool.false_eq_true, false_iff, not_and]
    exact fun h1 h2 => hn h1 h2

theorem step_append {k : ℕ} {a : Append} (hs : step h s (.append k a) = some s') :
    ∃ o, s.owners[k]? = some o ∧ o.pc = .ready ∧ o.todo = [] ∧
      s' = { s with owners := s.owners.set k { o with todo := a.pushes.map .push } } := by
  simp only [step, Option.bind_eq_bind, Option.bind_eq_some_iff] at hs
  obtain ⟨o, ho, hif⟩ := hs
  split at hif
  · rename_i hidle
    obtain ⟨h1, h2⟩ := Owner.idle_iff.mp hidle
    exact ⟨o, ho, h1, h2, (Option.some.inj hif).symm⟩
  · exact absurd hif (by simp)

theorem step_finish {k : ℕ} (hs : step h s (.finish k) = some s') :
    ∃ o, s.owners[k]? = some o ∧ o.pc = .ready ∧ o.todo = [] ∧
      s' = { s with owners := s.owners.set k { o with pc := .finished } } := by
  simp only [step, Option.bind_eq_bind, Option.bind_eq_some_iff] at hs
  obtain ⟨o, ho, hif⟩ := hs
  split at hif
  · rename_i hidle
    obtain ⟨h1, h2⟩ := Owner.idle_iff.mp hidle
    exact ⟨o, ho, h1, h2, (Option.some.inj hif).symm⟩
  · exact absurd hif (by simp)

end Inversion

end Log2mem
