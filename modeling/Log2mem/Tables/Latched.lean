import Log2mem.Schemes.Latch
import Log2mem.Dump.Walk
import Log2mem.Ring.Isolation
import Log2mem.Tables.Vars

/-! The variables over whole histories of calls.

    Each slot of the two tables is a latch: the first `init` addressed to it stores the value, the flags
    and the text, later ones return at once, and `set` stores a value at any time. Ids that agree modulo
    `num_vars` address the same slot, and no call touches a slot it does not address.

        calls ──addressed to slot i of table t──▶ history ──▶ first init, last set
          │ run                                                    │
          ▼                                                        ▼
        memmap ─────────── value, flags, text of slot i ─── VarHolds  -/

namespace Log2mem
open Schemes

deriving instance DecidableEq for VarTable

/-- A call on the variables. -/
inductive VarCall where
  | doubleInit (id : UInt32) (value : UInt64) (src : Option CStr)
  | doubleSet (id : UInt32) (d : UInt64)
  | intInit (id : UInt32) (value : Int32) (src : Option CStr)
  | intSet (id : UInt32) (d : Int32)

/-- The call on its own. -/
def VarCall.run (h : Handle) : VarCall → Mem → Option Mem
  | doubleInit id value src => log2memVarDoubleInit h id value src
  | doubleSet id d => log2memVarDoubleSet h id d
  | intInit id value src => log2memVarIntInit h id value src
  | intSet id d => log2memVarIntSet h id d

/-- The body shared by `log2mem_var_double_get` and `log2mem_var_int_get`. -/
def varGet (t : VarTable) (h : Handle) (id : UInt32) (m : Mem) : Option ℕ := do
  let numVars ← hdrNumVars m
  let bs ← m.load (t.addr h (maskIdx id.toNat numVars)) t.width
  return ofLe bs

/-- The body shared by `log2mem_var_double_used` and `log2mem_var_int_used`. -/
def varUsed (t : VarTable) (h : Handle) (id : UInt32) (m : Mem) : Option ℕ := do
  let numVars ← hdrNumVars m
  let flags ← m.load32 (t.addr h (maskIdx id.toNat numVars) + t.width)
  return flags &&& eUsed

/-- `log2mem_var_double_get`, the bits of the `double`. -/
def log2memVarDoubleGet (h : Handle) (id : UInt32) (m : Mem) : Option UInt64 :=
  (varGet .double h id m).map UInt64.ofNat

/-- `log2mem_var_int_get`. -/
def log2memVarIntGet (h : Handle) (id : UInt32) (m : Mem) : Option Int32 :=
  (varGet .int h id m).map fun v => (UInt32.ofNat v).toInt32

/-- `log2mem_var_double_used`. -/
def log2memVarDoubleUsed : Handle → UInt32 → Mem → Option ℕ := varUsed .double

/-- `log2mem_var_int_used`. -/
def log2memVarIntUsed : Handle → UInt32 → Mem → Option ℕ := varUsed .int

namespace VarTable

/-- The type of a value; a `double` is its bits. -/
abbrev Value : VarTable → Type
  | double => UInt64
  | int => Int32

/-- The value of a variable nothing was done to. -/
def zero : (t : VarTable) → t.Value
  | double => (0 : UInt64)
  | int => (0 : Int32)

/-- The bytes of a value, as a number. -/
def bits : (t : VarTable) → t.Value → ℕ
  | double, value => UInt64.toNat value
  | int, value => (Int32.toUInt32 value).toNat

/-- `log2mem_var_double_get` or `log2mem_var_int_get`. -/
def get : (t : VarTable) → Handle → UInt32 → Mem → Option t.Value
  | double => log2memVarDoubleGet
  | int => log2memVarIntGet

end VarTable

/-- What a call does to slot `i` of a table, if it is addressed to it. -/
def VarCall.addressed (n i : ℕ) : (t : VarTable) → VarCall → Option (LatchOp t.Value (Option CStr))
  | .double, doubleInit id value src => if id.toNat % n = i then some (.init value src) else none
  | .double, doubleSet id d => if id.toNat % n = i then some (.set d) else none
  | .int, intInit id value src => if id.toNat % n = i then some (.init value src) else none
  | .int, intSet id d => if id.toNat % n = i then some (.set d) else none
  | _, _ => none

/-- The operations addressed to slot `i` of a table, in order. -/
def history (n i : ℕ) (t : VarTable) (calls : List VarCall) : List (LatchOp t.Value (Option CStr)) :=
  calls.filterMap (VarCall.addressed n i t)

/-- The text of a slot: the first 63 bytes of the first label, or nothing. -/
def labelText : Option (Option CStr) → List UInt8
  | some (some s) => s.chars.take 63
  | _ => []

/-- `flags` of a slot. -/
def latchFlags {V L : Type} (c : Latch V L) : ℕ :=
  (if c.used then eUsed else 0) + if c.label.isSome then eInitialised else 0

/-- Slot `i` of a table holds a latch. -/
structure VarHolds (t : VarTable) (h : Handle) (i : ℕ) (m : Mem) (c : Latch t.Value (Option CStr)) :
    Prop where
  value : m.get (t.addr h i) t.width = leBytes t.width (t.bits c.value)
  flags : m.word (t.addr h i + t.width) = latchFlags c
  text : m.get (t.addr h i + t.width + 4) 64 =
    labelText c.label ++ List.replicate (64 - (labelText c.label).length) 0

/-- Nothing was done to a memmap's variables yet. -/
def FreshVars (h : Handle) (n : ℕ) (m : Mem) : Prop :=
  ∀ (t : VarTable) (x : ℤ), t.base h ≤ x → x < t.base h + t.size * n → m.byte x = 0

/-! ### One call -/

theorem VarTables.fresh {h : Handle} {n : ℕ} {m : Mem} (hv : VarTables h n m)
    (hz : ∀ x, 92 ≤ x → m.byte x = 0) : FreshVars h n m := fun t x h0 _ =>
  hz x (by have := (hv.room t).1; omega)

theorem labelText_length_le (label : Option (Option CStr)) : (labelText label).length ≤ 63 := by
  rcases label with _ | _ | s <;> simp [labelText]

theorem textBytes_eq (src : Option CStr) : textBytes src =
    labelText (some src) ++ List.replicate (64 - (labelText (some src)).length) 0 := by
  cases src with
  | none => simp [textBytes, labelText]
  | some s =>
    refine List.ext_getElem (by simp [textBytes, labelText]) fun i h₁ h₂ => ?_
    simp only [textBytes, List.length_append, List.length_map, List.length_range,
      List.length_singleton] at h₁
    by_cases hlt : i < 63
    · by_cases hi : i < s.chars.length
      · simp [textBytes, labelText, hlt, CStr.buf, hi]
      · simp [textBytes, labelText, List.getElem_append, hlt, CStr.buf, hi]
    · have : i = 63 := by omega
      simp [textBytes, labelText, this]

/-- `log2mem_eInitialised` is set in the flags of a latch that has a label. -/
theorem latchFlags_initialised {V L : Type} (c : Latch V L) :
    latchFlags c &&& eInitialised ≠ 0 ↔ c.label.isSome := by
  rw [latchFlags]
  cases c.used <;> cases c.label <;> simp [eUsed, eInitialised]

theorem latchFlags_used {V L : Type} (c : Latch V L) :
    latchFlags c &&& eUsed = if c.used then eUsed else 0 := by
  rw [latchFlags]
  cases c.used <;> cases c.label <;> simp [eUsed, eInitialised]

theorem VarTable.bits_lt (t : VarTable) (value : t.Value) : t.bits value < 256 ^ t.width := by
  cases t with
  | double => exact UInt64.toNat_lt value
  | int => exact UInt32.toNat_lt (Int32.toUInt32 value)

theorem VarHolds.frame_of {t : VarTable} {h : Handle} {i : ℕ} {m m' : Mem}
    {c : Latch t.Value (Option CStr)} (hc : VarHolds t h i m c) {S : Set ℤ} (hf : Mem.Frame S m m')
    (hout : ∀ x ∈ S, x < t.addr h i ∨ t.addr h i + t.size ≤ x) : VarHolds t h i m' c := by
  obtain ⟨hw, hs⟩ := t.width_size
  refine ⟨?_, ?_, ?_⟩
  · rw [hf.get_of_outside hout (le_refl _) (by omega), hc.value]
  · rw [hf.word_of_outside hout (by omega) (by omega), hc.flags]
  · rw [hf.get_of_outside hout (by omega) (by omega), hc.text]

section Step
variable {h : Handle} {n i : ℕ} {m : Mem} {t : VarTable} {id : UInt32}
  {c : Latch t.Value (Option CStr)}

/-- SET: a step of the latch that is addressed. -/
theorem VarHolds.set (hv : VarTables h n m) (hid : id.toNat % n = i) (hc : VarHolds t h i m c)
    (d : t.Value) : ∃ m', varSet t h id (t.bits d) m = some m' ∧ VarHolds t h i m' (c.step (.set d)) ∧
      Mem.Frame (Set.Ico (t.addr h i) (t.addr h i + t.size)) m m' := by
  obtain ⟨m', e, hvalue, hflags, htext, hf⟩ := hv.varSet_spec t hid (t.bits d)
  obtain ⟨hw, hs⟩ := t.width_size
  refine ⟨m', e, ⟨hvalue, ?_, htext.trans hc.text⟩, hf.ico_mono (le_refl _) (by omega)⟩
  rw [hflags, hc.flags, latchFlags, latchFlags]
  cases hu : c.used <;> cases hl : c.label <;> simp [Latch.step, hl] <;> decide

/-- INIT: a step of the latch that is addressed; without a label the text stays as it is, which is
    empty as long as there was no first initialisation. -/
theorem VarHolds.init (hv : VarTables h n m) (hid : id.toNat % n = i) (hc : VarHolds t h i m c)
    (value : t.Value) (src : Option CStr) : ∃ m', varInit t h id (t.bits value) src m = some m' ∧
      VarHolds t h i m' (c.step (.init value src)) ∧
      Mem.Frame (Set.Ico (t.addr h i) (t.addr h i + t.size)) m m' := by
  obtain ⟨m', e, hskip, hdone, hf⟩ := hv.varInit_spec t hid (t.bits value) src
  refine ⟨m', e, ?_, hf⟩
  rw [hc.flags] at hskip hdone
  cases hl : c.label with
  | some label =>
    have hbit : latchFlags c &&& eInitialised ≠ 0 := by simp [latchFlags_initialised, hl]
    rw [hskip hbit]
    simpa [Latch.step, hl] using hc
  | none =>
    have hbit : latchFlags c &&& eInitialised = 0 := by
      by_contra hne
      simp [latchFlags_initialised, hl] at hne
    obtain ⟨hvalue, hflags, htext⟩ := hdone hbit
    have hstep : c.step (.init value src) = ⟨value, some src, true⟩ := by simp [Latch.step, hl]
    rw [hstep]
    refine ⟨hvalue, ?_, ?_⟩
    · rw [hflags, latchFlags, latchFlags, hl]
      cases c.used <;> simp <;> decide
    · rw [htext]
      cases src with
      | some s => exact textBytes_eq (some s)
      | none =>
        have hbefore := hc.text
        rw [hl] at hbefore
        simpa [labelText] using hbefore

end Step

/-! ### Histories -/

section Runs
variable {h : Handle} {n i : ℕ} {m m' : Mem} {t : VarTable}

/-- What a call leaves of a slot's latch. -/
def VarCall.latch (n i : ℕ) (t : VarTable) (c : VarCall) (l : Latch t.Value (Option CStr)) :
    Latch t.Value (Option CStr) :=
  match c.addressed n i t with
  | some op => l.step op
  | none => l

theorem foldl_history_concat (calls : List VarCall) (c : VarCall) (l : Latch t.Value (Option CStr)) :
    (history n i t (calls ++ [c])).foldl Latch.step l =
      c.latch n i t ((history n i t calls).foldl Latch.step l) := by
  rw [history, List.filterMap_append, List.foldl_append, VarCall.latch, history]
  cases hop : c.addressed n i t <;> simp [hop]

/-- The table of a call. -/
def VarCall.table : VarCall → VarTable
  | doubleInit .. | doubleSet .. => .double
  | intInit .. | intSet .. => .int

/-- The id of a call. -/
def VarCall.id : VarCall → UInt32
  | doubleInit id .. | doubleSet id _ | intInit id .. | intSet id _ => id

/-- A call is addressed to one slot of one table. -/
theorem VarCall.addressed_other {c : VarCall} (hne : ¬ (c.table = t ∧ c.id.toNat % n = i)) :
    c.addressed n i t = none := by
  cases c <;> cases t
  all_goals first | rfl | exact if_neg fun heq => hne ⟨rfl, heq⟩

/-- That slot takes one step, and nothing else changes. -/
theorem VarCall.addressed_self (hv : VarTables h n m) (c : VarCall) :
    ∃ op, c.addressed n (c.id.toNat % n) c.table = some op ∧
      ∀ l, VarHolds c.table h (c.id.toNat % n : ℕ) m l → ∃ m', c.run h m = some m' ∧
        VarHolds c.table h (c.id.toNat % n : ℕ) m' (l.step op) ∧
        Mem.Frame (Set.Ico (c.table.addr h (c.id.toNat % n : ℕ))
          (c.table.addr h (c.id.toNat % n : ℕ) + c.table.size)) m m' := by
  cases c with
  | doubleInit id value src => exact ⟨.init value src, if_pos rfl, fun l hl => hl.init hv rfl value src⟩
  | doubleSet id d => exact ⟨.set d, if_pos rfl, fun l hl => hl.set hv rfl d⟩
  | intInit id value src => exact ⟨.init value src, if_pos rfl, fun l hl => hl.init hv rfl value src⟩
  | intSet id d => exact ⟨.set d, if_pos rfl, fun l hl => hl.set hv rfl d⟩

/-- STEP: a call succeeds, and takes each latch addressed by it one step. -/
theorem VarCall.run_spec (hv : VarTables h n m)
    {cells : (t : VarTable) → ℕ → Latch t.Value (Option CStr)}
    (hcells : ∀ t i, i < n → VarHolds t h i m (cells t i)) (c : VarCall) :
    ∃ m', c.run h m = some m' ∧ VarTables h n m' ∧
      ∀ t i, i < n → VarHolds t h i m' (c.latch n i t (cells t i)) := by
  have hlt : c.id.toNat % n < n := Nat.mod_lt _ hv.pos
  have hentry := hv.entry c.table hlt
  obtain ⟨op, hself, hrun⟩ := c.addressed_self hv
  obtain ⟨m', e, hstep, hf⟩ := hrun _ (hcells c.table _ hlt)
  refine ⟨m', e, hv.frame hf fun x hx => by have := hx.1; omega, fun t i hi => ?_⟩
  by_cases heq : c.table = t ∧ c.id.toNat % n = i
  · obtain ⟨rfl, rfl⟩ := heq
    rw [VarCall.latch, hself]
    exact hstep
  · rw [VarCall.latch, VarCall.addressed_other heq]
    exact (hcells t i hi).frame_of hf (hv.outside_entry hlt hi heq (le_refl _))

theorem FreshVars.holds (hz : FreshVars h n m) (t : VarTable) (hi : i < n) :
    VarHolds t h i m (.fresh t.zero) := by
  obtain ⟨hw, hs⟩ := t.width_size
  have hzero : ∀ (a : ℤ) (k : ℕ), t.addr h i ≤ a → a + k ≤ t.addr h i + t.size →
      m.get a k = List.replicate k 0 := by
    intro a k h0 h1
    refine List.eq_replicate_iff.mpr ⟨m.get_length a k, fun b hb => ?_⟩
    obtain ⟨j, hj, rfl⟩ := List.mem_map.mp hb
    have hj := List.mem_range.mp hj
    unfold VarTable.addr at h0 h1
    refine hz t _ (by cases t <;> simp only [VarTable.size] at h0 h1 ⊢ <;> omega) ?_
    cases t <;> simp only [VarTable.size] at h0 h1 ⊢ <;> push_cast at h0 h1 ⊢ <;> omega
  refine ⟨?_, ?_, ?_⟩
  · rw [hzero _ _ (le_refl _) (by omega)]
    cases t <;> rfl
  · rw [Mem.word, hzero _ _ (by omega) (by push_cast; omega)]
    rfl
  · rw [hzero _ _ (by omega) (by push_cast; omega)]
    rfl

/-- The value of a slot, read through any id that addresses it. -/
theorem VarHolds.get_eq (hv : VarTables h n m) {id : UInt32} (hid : id.toNat % n = i)
    {c : Latch t.Value (Option CStr)} (hc : VarHolds t h i m c) : t.get h id m = some c.value := by
  obtain ⟨hlo, hhi⟩ := hv.entry t (hv.mod_lt hid)
  obtain ⟨hw, hs⟩ := t.width_size
  have hload : m.load (t.addr h i) t.width = some (m.get (t.addr h i) t.width) :=
    Mem.load_eq ⟨by omega, by omega⟩
  have hget : varGet t h id m = some (t.bits c.value) := by
    simp only [varGet, hv.hdrNumVars_eq, Option.bind_eq_bind, Option.bind_some, hv.maskIdx_eq, hid,
      Option.pure_def, hload, hc.value, ofLe_leBytes, Nat.mod_eq_of_lt (t.bits_lt c.value)]
  cases t with
  | double => simp [VarTable.get, log2memVarDoubleGet, hget, VarTable.bits]
  | int =>
    rw [VarTable.get, log2memVarIntGet, hget, Option.map_some, VarTable.bits, UInt32.ofNat_toNat]
    rfl

theorem VarHolds.used_eq (hv : VarTables h n m) {id : UInt32} (hid : id.toNat % n = i)
    {c : Latch t.Value (Option CStr)} (hc : VarHolds t h i m c) :
    varUsed t h id m = some (if c.used then eUsed else 0) := by
  obtain ⟨hlo, hhi⟩ := hv.entry t (hv.mod_lt hid)
  obtain ⟨hw, hs⟩ := t.width_size
  have hload : m.load32 (t.addr h i + t.width) = some (m.word (t.addr h i + t.width)) :=
    Mem.load32_eq ⟨by omega, by push_cast; omega⟩
  simp only [varUsed, hv.hdrNumVars_eq, Option.bind_eq_bind, Option.bind_some, hv.maskIdx_eq, hid,
    hload, hc.flags, latchFlags_used, Option.pure_def]

/-- A call changes the slot it addresses, and nothing else. -/
theorem VarCall.frame (hv : VarTables h n m) {c : VarCall} (hr : c.run h m = some m') :
    Mem.Frame (Set.Ico (c.table.addr h (c.id.toNat % n : ℕ))
      (c.table.addr h (c.id.toNat % n : ℕ) + c.table.size)) m m' := by
  have hinit : ∀ (t : VarTable) (id : UInt32) (value : ℕ) (src : Option CStr),
      varInit t h id value src m = some m' →
      Mem.Frame (Set.Ico (t.addr h (id.toNat % n : ℕ)) (t.addr h (id.toNat % n : ℕ) + t.size)) m m' := by
    intro t id value src hr
    obtain ⟨m₁, e, -, -, hf⟩ := hv.varInit_spec t (rfl : id.toNat % n = _) value src
    rw [e, Option.some.injEq] at hr
    rwa [← hr]
  have hset : ∀ (t : VarTable) (id : UInt32) (value : ℕ), varSet t h id value m = some m' →
      Mem.Frame (Set.Ico (t.addr h (id.toNat % n : ℕ)) (t.addr h (id.toNat % n : ℕ) + t.size)) m m' := by
    intro t id value hr
    obtain ⟨m₁, e, -, -, -, hf⟩ := hv.varSet_spec t (rfl : id.toNat % n = _) value
    obtain ⟨hw, hs⟩ := t.width_size
    rw [e, Option.some.injEq] at hr
    rw [← hr]
    exact hf.ico_mono (le_refl _) (by omega)
  cases c with
  | doubleInit id value src => exact hinit .double id _ src hr
  | doubleSet id d => exact hset .double id _ hr
  | intInit id value src => exact hinit .int id _ src hr
  | intSet id d => exact hset .int id _ hr

end Runs

end Log2mem
