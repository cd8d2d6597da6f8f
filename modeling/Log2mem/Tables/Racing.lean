import Mathlib.Algebra.Order.BigOperators.Group.List
import Mathlib.Data.ENat.Basic
import Log2mem.Dump.Attach
import Log2mem.Schemes.Threads
import Log2mem.Tables.Latched

/-! Variables in the hands of several threads (`log2mem_var_double_init`, `log2mem_var_int_set`, …).

    "need to add some kind of lock, spinlock?": nothing makes a call on a variable one step. A call is
    taken apart into its accesses to the memmap, `flags |= bits` into a load and a store, and the copy of
    a label into its bytes; the accesses of different threads come in any order.

        set:    value ▶ flags (load) ▶ flags (store)
        init:   flags & eInitialised ? ─no─▶ value ▶ flags (load) ▶ flags (store) ▶ text[0] … text[63] -/

namespace Log2mem
open Schemes

/-! ### Accesses -/

/-- The bits of the value a call stores. -/
def VarCall.value : VarCall → ℕ
  | doubleInit _ value _ | doubleSet _ value => value.toNat
  | intInit _ value _ | intSet _ value => value.toUInt32.toNat

/-- The label of an initialisation that has one. -/
def VarCall.src : VarCall → Option CStr
  | doubleInit _ _ src | intInit _ _ src => src
  | doubleSet .. | intSet .. => none

def VarCall.isInit : VarCall → Bool
  | doubleInit .. | intInit .. => true
  | doubleSet .. | intSet .. => false

/-- What a call makes of `flags`: `|= log2mem_eUsed`, an initialisation with `log2mem_eInitialised`. -/
def VarCall.bits (c : VarCall) : ℕ := if c.isInit then eUsed ||| eInitialised else eUsed

/-- The slot an id stands for. -/
def VarCall.slot (n : ℕ) (c : VarCall) : ℕ := c.id.toNat % n

/-- What a thread does between two accesses to the memmap. -/
inductive VarOp where
  /-- a call is entered -/
  | call (c : VarCall)
  /-- `flags & log2mem_eInitialised` of variable `idx` is tested -/
  | testFlags (t : VarTable) (idx : ℤ) (value : ℕ) (src : Option CStr)
  | putValue (t : VarTable) (idx : ℤ) (value : ℕ)
  /-- the load of `flags |= bits` -/
  | loadFlags (t : VarTable) (idx : ℤ) (bits : ℕ)
  /-- its store -/
  | storeFlags (t : VarTable) (idx : ℤ) (flags : ℕ)
  /-- byte `i` of the text of variable `idx` -/
  | putChar (t : VarTable) (idx : ℤ) (i : ℕ) (c : UInt8)

/-- The copy of a label and the NUL behind it; nothing for a null `src`. -/
def putTextOps (t : VarTable) (idx : ℤ) (src : Option CStr) : List VarOp :=
  match src with
  | some s => (List.range (labelLen - 1)).map (fun i => .putChar t idx i (s.buf i)) ++
      [.putChar t idx (labelLen - 1) 0]
  | none => []

/-- One access, and what is left of the call after it. -/
def varMicro (h : Handle) (m : Mem) : VarOp → Option (Mem × List VarOp)
  | .call c => do
    let numVars ← hdrNumVars m
    let idx := maskIdx c.id.toNat numVars
    return (m, if c.isInit then [.testFlags c.table idx c.value c.src]
      else [.putValue c.table idx c.value, .loadFlags c.table idx eUsed])
  | .testFlags t idx value src => do
    let flags ← m.load32 (t.addr h idx + t.width)
    return (m, if flags &&& eInitialised ≠ 0 then []
      else [.putValue t idx value, .loadFlags t idx (eUsed ||| eInitialised)] ++ putTextOps t idx src)
  | .putValue t idx value => do
    let m ← m.store (t.addr h idx) (leBytes t.width value)
    return (m, [])
  | .loadFlags t idx bits => do
    let flags ← m.load32 (t.addr h idx + t.width)
    return (m, [.storeFlags t idx (flags ||| bits)])
  | .storeFlags t idx flags => do
    let m ← m.store32 (t.addr h idx + t.width) flags
    return (m, [])
  | .putChar t idx i c => do
    let m ← m.store (t.addr h idx + t.width + 4 + i) [c]
    return (m, [])

/-- Threads that are each about to make their calls, one after the other. -/
def varThreads (m : Mem) (threads : List (List VarCall)) : Threads Mem VarOp :=
  ⟨m, threads.map (·.map .call)⟩

/-- More than the number of accesses an operation is made of. -/
def VarOp.cost : VarOp → ℕ
  | call _ => 70
  | testFlags .. => 69
  | loadFlags .. => 2
  | _ => 1

/-! ### What holds in every interleaving -/

/-- An access that call `c` may lead to. -/
def VarOp.Of (n : ℕ) (c : VarCall) : VarOp → Prop
  | call d => d = c
  | testFlags t idx value src =>
    c.isInit = true ∧ t = c.table ∧ idx = (c.slot n : ℕ) ∧ value = c.value ∧ src = c.src
  | putValue t idx value => t = c.table ∧ idx = (c.slot n : ℕ) ∧ value = c.value
  | loadFlags t idx bits => t = c.table ∧ idx = (c.slot n : ℕ) ∧ bits = c.bits
  | storeFlags t idx flags => t = c.table ∧ idx = (c.slot n : ℕ) ∧ flags = c.bits
  | putChar t idx i ch => t = c.table ∧ idx = (c.slot n : ℕ) ∧
      ∃ s, c.src = some s ∧ (i < 63 ∧ ch = s.buf i ∨ i = 63 ∧ ch = 0)

/-- An access that some of the calls may lead to. -/
def VarOp.From (n : ℕ) (calls : List VarCall) (op : VarOp) : Prop := ∃ c ∈ calls, op.Of n c

/-- Call `c` is addressed to slot `i` of a table. -/
def VarCall.At (n : ℕ) (t : VarTable) (i : ℕ) (c : VarCall) : Prop := c.table = t ∧ c.slot n = i

/-- Slot `i` of a table holds nothing that no call addressed to it has put there: its flags are those of
    some call, its value is one of theirs, each byte of its text is that of one of their labels, and the
    last byte is a NUL. -/
structure RacedSlot (h : Handle) (n : ℕ) (calls : List VarCall) (t : VarTable) (i : ℕ) (m : Mem) :
    Prop where
  flags : m.word (t.addr h i + t.width) = 0 ∨
    ∃ c ∈ calls, c.At n t i ∧ m.word (t.addr h i + t.width) = c.bits
  value : m.get (t.addr h i) t.width = leBytes t.width (t.bits t.zero) ∨
    ∃ c ∈ calls, c.At n t i ∧ m.get (t.addr h i) t.width = leBytes t.width c.value
  text : ∀ k < 63, m.byte (t.addr h i + t.width + 4 + (k : ℕ)) = 0 ∨ ∃ c ∈ calls, c.At n t i ∧
    ∃ s, c.src = some s ∧ m.byte (t.addr h i + t.width + 4 + (k : ℕ)) = s.buf k
  last : m.byte (t.addr h i + t.width + 4 + (63 : ℕ)) = 0

/-- Both tables. -/
structure Raced (h : Handle) (n : ℕ) (calls : List VarCall) (m : Mem) : Prop where
  tables : VarTables h n m
  slots : ∀ (t : VarTable) (i : ℕ), i < n → RacedSlot h n calls t i m

theorem VarCall.run_eq (h : Handle) (c : VarCall) : c.run h =
    if c.isInit then varInit c.table h c.id c.value c.src else varSet c.table h c.id c.value := by
  cases c <;> rfl

theorem VarCall.bits_cases (c : VarCall) :
    c.isInit = true ∧ c.bits = 3 ∨ c.isInit = false ∧ c.bits = 2 := by
  unfold VarCall.bits
  cases c.isInit <;> simp [eUsed, eInitialised]

section Slots
variable {h : Handle} {n i : ℕ} {calls : List VarCall} {m m' : Mem} {t : VarTable}

theorem RacedSlot.frame {S : Set ℤ} (hc : RacedSlot h n calls t i m) (hf : Mem.Frame S m m')
    (hout : ∀ x ∈ S, x < t.addr h i ∨ t.addr h i + t.size ≤ x) : RacedSlot h n calls t i m' := by
  obtain ⟨hw, hs⟩ := t.width_size
  have hbyte : ∀ k ≤ 63, m'.byte (t.addr h i + t.width + 4 + (k : ℕ)) =
      m.byte (t.addr h i + t.width + 4 + (k : ℕ)) := fun k hk =>
    hf.byte _ fun hx => by have := hout _ hx; omega
  have hflags : m'.word (t.addr h i + t.width) = m.word (t.addr h i + t.width) :=
    hf.word_of_outside hout (by omega) (by omega)
  have hvalue : m'.get (t.addr h i) t.width = m.get (t.addr h i) t.width :=
    hf.get_of_outside hout (le_refl _) (by omega)
  refine ⟨?_, ?_, fun k hk => ?_, ?_⟩
  · rw [hflags]
    exact hc.flags
  · rw [hvalue]
    exact hc.value
  · rw [hbyte k (by omega)]
    exact hc.text k hk
  · rw [hbyte 63 (le_refl _)]
    exact hc.last

/-- A change inside one slot. -/
theorem Raced.update {lo hi : ℤ} (hr : Raced h n calls m) (hin : i < n)
    (hf : Mem.Frame (Set.Ico lo hi) m m') (hlo : t.addr h i ≤ lo) (hhi : hi ≤ t.addr h i + t.size)
    (hslot : RacedSlot h n calls t i m') : Raced h n calls m' := by
  have hf' := hf.ico_mono hlo hhi
  refine ⟨hr.tables.frame hf' fun x hx => ?_, fun t' j hj => ?_⟩
  · have := hr.tables.entry t hin
    have := hx.1
    omega
  · by_cases he : t = t' ∧ i = j
    · obtain ⟨rfl, rfl⟩ := he
      exact hslot
    · exact (hr.slots t' j hj).frame hf' (hr.tables.outside_entry hin hj he (le_refl _))

theorem Raced.fresh (hv : VarTables h n m) (hz : FreshVars h n m) : Raced h n calls m := by
  refine ⟨hv, fun t i hi => ?_⟩
  obtain ⟨hw, hs⟩ := t.width_size
  have hbyte : ∀ k ≤ 63, m.byte (t.addr h i + t.width + 4 + (k : ℕ)) = 0 := fun k hk => by
    have hlow : t.base h ≤ t.addr h i := by
      unfold VarTable.addr
      have : (0 : ℤ) ≤ (i : ℤ) * t.size := by positivity
      omega
    have hhigh : t.addr h i + t.size ≤ t.base h + t.size * n := by
      have hle : (i + 1) * t.size ≤ n * t.size := Nat.mul_le_mul_right _ hi
      unfold VarTable.addr
      have : ((i : ℤ) + 1) * t.size ≤ n * t.size := by exact_mod_cast hle
      nlinarith
    exact hz t _ (by omega) (by omega)
  have hfresh := hz.holds t hi
  exact ⟨Or.inl hfresh.flags, Or.inl hfresh.value, fun k hk => Or.inl (hbyte k (by omega)), hbyte 63 (le_refl _)⟩

end Slots

/-! ### Stores -/

section Stores
variable {h : Handle} {n : ℕ} {calls : List VarCall} {m : Mem} {c : VarCall}

theorem Raced.load32_flags (hr : Raced h n calls m) (hn : c.slot n < n) :
    m.load32 (c.table.addr h (c.slot n : ℕ) + c.table.width) =
      some (m.word (c.table.addr h (c.slot n : ℕ) + c.table.width)) := by
  obtain ⟨hlo, hhi⟩ := hr.tables.entry c.table hn
  obtain ⟨hw, hs⟩ := c.table.width_size
  exact Mem.load32_eq ⟨by omega, by push_cast; omega⟩

/-- VALUE: storing the value of a call. -/
theorem Raced.putValue (hr : Raced h n calls m) (hc : c ∈ calls) (hn : c.slot n < n) :
    ∃ m', m.store (c.table.addr h (c.slot n : ℕ)) (leBytes c.table.width c.value) = some m' ∧
      Raced h n calls m' ∧ ∀ (t : VarTable) (i : ℕ), i < n →
        m'.word (t.addr h i + t.width) = m.word (t.addr h i + t.width) := by
  obtain ⟨hlo, hhi⟩ := hr.tables.entry c.table hn
  obtain ⟨hw, hs⟩ := c.table.width_size
  obtain ⟨m', e, f, g⟩ := Mem.store_spec m (c.table.addr h (c.slot n : ℕ)) (leBytes c.table.width c.value)
    ⟨by omega, by rw [leBytes_length]; omega⟩
  rw [leBytes_length] at f g
  have hold := hr.slots c.table (c.slot n) hn
  refine ⟨m', e, hr.update hn f (le_refl _) (by omega) ⟨?_, ?_, fun k hk => ?_, ?_⟩, fun t i hi => ?_⟩
  · rw [f.word_of_Ico (by omega)]
    exact hold.flags
  · exact Or.inr ⟨c, hc, ⟨rfl, rfl⟩, g⟩
  · rw [f.byte _ fun hx => by have := hx.2; omega]
    exact hold.text k hk
  · rw [f.byte _ fun hx => by have := hx.2; omega]
    exact hold.last
  · by_cases he : c.table = t ∧ c.slot n = i
    · obtain ⟨rfl, rfl⟩ := he
      exact f.word_of_Ico (by omega)
    · have hw' := t.width_size
      exact f.word_of_outside (hr.tables.outside_entry hn hi he (by omega)) (by omega) (by omega)

/-- FLAGS: storing the flags of a call. -/
theorem Raced.storeFlags (hr : Raced h n calls m) (hc : c ∈ calls) (hn : c.slot n < n) :
    ∃ m', m.store32 (c.table.addr h (c.slot n : ℕ) + c.table.width) c.bits = some m' ∧
      Raced h n calls m' ∧ m'.word (c.table.addr h (c.slot n : ℕ) + c.table.width) = c.bits ∧
      ∀ (t : VarTable) (i : ℕ), i < n → ¬ c.At n t i →
        m'.word (t.addr h i + t.width) = m.word (t.addr h i + t.width) := by
  obtain ⟨hlo, hhi⟩ := hr.tables.entry c.table hn
  obtain ⟨hw, hs⟩ := c.table.width_size
  obtain ⟨m', e, f, w⟩ := Mem.store32_spec (m := m) (a := c.table.addr h (c.slot n : ℕ) + c.table.width)
    ⟨by omega, by push_cast; omega⟩ c.bits
  have hbits : c.bits % 4294967296 = c.bits := by
    rcases c.bits_cases with ⟨-, hb⟩ | ⟨-, hb⟩ <;> rw [hb]
  rw [hbits] at w
  have hold := hr.slots c.table (c.slot n) hn
  refine ⟨m', e, hr.update (t := c.table) hn f (by omega) (by omega) ⟨?_, ?_, fun k hk => ?_, ?_⟩, w,
    fun t i hi he => ?_⟩
  · exact Or.inr ⟨c, hc, ⟨rfl, rfl⟩, w⟩
  · rw [f.get_of_Ico (by omega)]
    exact hold.value
  · rw [f.byte _ fun hx => by have := hx.2; omega]
    exact hold.text k hk
  · rw [f.byte _ fun hx => by have := hx.2; omega]
    exact hold.last
  · have hw' := t.width_size
    refine f.word_of_outside (fun x hx => ?_) (le_refl _) (le_refl _)
    have := hr.tables.outside_entry hn hi he (le_refl _) x ⟨by have := hx.1; omega, by have := hx.2; omega⟩
    omega

/-- CHARACTER: storing a byte of the label of a call, or the NUL behind it. -/
theorem Raced.putChar (hr : Raced h n calls m) (hc : c ∈ calls) (hn : c.slot n < n) {s : CStr}
    (hsrc : c.src = some s) {k : ℕ} {ch : UInt8} (hk : k < 63 ∧ ch = s.buf k ∨ k = 63 ∧ ch = 0) :
    ∃ m', m.store (c.table.addr h (c.slot n : ℕ) + c.table.width + 4 + k) [ch] = some m' ∧
      Raced h n calls m' ∧ ∀ (t : VarTable) (i : ℕ), i < n →
        m'.word (t.addr h i + t.width) = m.word (t.addr h i + t.width) := by
  obtain ⟨hlo, hhi⟩ := hr.tables.entry c.table hn
  obtain ⟨hw, hs⟩ := c.table.width_size
  obtain ⟨m', e, f, g⟩ := Mem.store_spec m (c.table.addr h (c.slot n : ℕ) + c.table.width + 4 + k) [ch]
    ⟨by omega, by simp only [List.length_singleton]; omega⟩
  simp only [List.length_singleton, Mem.get_one, List.cons.injEq, and_true] at f g
  have hold := hr.slots c.table (c.slot n) hn
  refine ⟨m', e, hr.update (t := c.table) hn f (by omega) (by push_cast; omega)
    ⟨?_, ?_, fun j hj => ?_, ?_⟩, fun t i hi => ?_⟩
  · rw [f.word_of_Ico (by omega)]
    exact hold.flags
  · rw [f.get_of_Ico (by omega)]
    exact hold.value
  · by_cases he : j = k
    · subst he
      rcases hk with ⟨-, rfl⟩ | ⟨h63, -⟩
      · exact Or.inr ⟨c, hc, ⟨rfl, rfl⟩, s, hsrc, g⟩
      · omega
    · rw [f.byte _ fun hx => by have := hx.1; have := hx.2; push_cast at this; omega]
      exact hold.text j hj
  · by_cases he : 63 = k
    · subst he
      rcases hk with ⟨hlt, -⟩ | ⟨-, rfl⟩
      · omega
      · exact g
    · rw [f.byte _ fun hx => by have := hx.1; have := hx.2; push_cast at this; omega]
      exact hold.last
  · have hw' := t.width_size
    by_cases he : c.table = t ∧ c.slot n = i
    · obtain ⟨rfl, rfl⟩ := he
      exact f.word_of_Ico (by omega)
    · refine f.word_of_outside (fun x hx => ?_) (le_refl _) (le_refl _)
      have := hr.tables.outside_entry hn hi he (le_refl _) x
        ⟨by have := hx.1; omega, by have := hx.2; push_cast at this; omega⟩
      omega

end Stores

/-! ### One access -/

section Access
variable {h : Handle} {n : ℕ} {calls : List VarCall} {m : Mem} {op : VarOp}

theorem putTextOps_of {c : VarCall} {b : VarOp} (hb : b ∈ putTextOps c.table (c.slot n : ℕ) c.src) :
    ∃ k ch, b = .putChar c.table (c.slot n : ℕ) k ch ∧ b.Of n c := by
  unfold putTextOps at hb
  cases hsrc : c.src with
  | none => simp [hsrc] at hb
  | some s =>
    rw [hsrc] at hb
    rcases List.mem_append.mp hb with hb | hb
    · obtain ⟨k, hk, rfl⟩ := List.mem_map.mp hb
      exact ⟨k, s.buf k, rfl, rfl, rfl, s, hsrc, Or.inl ⟨List.mem_range.mp hk, rfl⟩⟩
    · rw [List.mem_singleton.mp hb]
      exact ⟨63, 0, rfl, rfl, rfl, s, hsrc, Or.inr ⟨rfl, rfl⟩⟩

theorem putTextOps_cost (t : VarTable) (idx : ℤ) (src : Option CStr) :
    ((putTextOps t idx src).map VarOp.cost).sum ≤ 64 := by
  cases src with
  | none => simp [putTextOps]
  | some s => simp [putTextOps, VarOp.cost, labelLen, Function.comp_def]

/-- The flags two calls addressed to one slot leave are those of one of the two. -/
theorem VarCall.bits_or (c d : VarCall) : d.bits ||| c.bits = c.bits ∨ d.bits ||| c.bits = d.bits := by
  rcases c.bits_cases with ⟨-, hc⟩ | ⟨-, hc⟩ <;> rcases d.bits_cases with ⟨-, hd⟩ | ⟨-, hd⟩ <;>
    rw [hc, hd] <;> decide

/-- What an access does: it succeeds, what is left of the call are accesses of calls, and the flags of a
    slot are either left alone or those of a call addressed to it. -/
theorem varMicro_spec (hr : Raced h n calls m) (hop : op.From n calls) :
    ∃ m' new, varMicro h m op = some (m', new) ∧ Raced h n calls m' ∧ (∀ b ∈ new, b.From n calls) ∧
      (new.map VarOp.cost).sum < op.cost ∧ ∀ (t : VarTable) (i : ℕ), i < n →
        m'.word (t.addr h i + t.width) = m.word (t.addr h i + t.width) ∨
          ∃ c ∈ calls, c.At n t i ∧ m'.word (t.addr h i + t.width) = c.bits := by
  obtain ⟨c, hc, hof⟩ := hop
  have hn : c.slot n < n := Nat.mod_lt _ hr.tables.pos
  have hload := hr.load32_flags hn
  cases op with
  | call d =>
    obtain rfl : d = c := hof
    have hidx : maskIdx d.id.toNat n = (d.slot n : ℕ) := hr.tables.maskIdx_eq d.id
    refine ⟨m, if d.isInit then [.testFlags d.table (d.slot n : ℕ) d.value d.src]
      else [.putValue d.table (d.slot n : ℕ) d.value, .loadFlags d.table (d.slot n : ℕ) eUsed],
      ?_, hr, fun b hb => ⟨d, hc, ?_⟩, ?_, fun t i _ => Or.inl rfl⟩
    · simp only [varMicro, hr.tables.hdrNumVars_eq, Option.bind_eq_bind, Option.bind_some, hidx,
        Option.pure_def]
    · rcases d.bits_cases with ⟨hi, hb'⟩ | ⟨hi, hb'⟩
      · simp only [hi, if_true, List.mem_singleton] at hb
        subst hb
        exact ⟨hi, rfl, rfl, rfl, rfl⟩
      · simp only [hi, Bool.false_eq_true, if_false, List.mem_cons, List.not_mem_nil, or_false] at hb
        rcases hb with rfl | rfl
        · exact ⟨rfl, rfl, rfl⟩
        · exact ⟨rfl, rfl, hb'.symm⟩
    · cases d.isInit <;> simp [VarOp.cost]
  | testFlags t idx value src =>
    obtain ⟨hi, rfl, rfl, rfl, rfl⟩ := hof
    have hcost := putTextOps_cost c.table (c.slot n : ℕ) c.src
    have hbits : c.bits = eUsed ||| eInitialised := if_pos hi
    by_cases hflag : m.word (c.table.addr h (c.slot n : ℕ) + c.table.width) &&& eInitialised = 0
    · refine ⟨m, [.putValue c.table (c.slot n : ℕ) c.value,
        .loadFlags c.table (c.slot n : ℕ) (eUsed ||| eInitialised)] ++
          putTextOps c.table (c.slot n : ℕ) c.src, ?_, hr, fun b hb => ⟨c, hc, ?_⟩, ?_,
        fun t i _ => Or.inl rfl⟩
      · simp [varMicro, hload, hflag]
      · simp only [List.cons_append, List.nil_append, List.mem_cons] at hb
        rcases hb with rfl | rfl | hb
        · exact ⟨rfl, rfl, rfl⟩
        · exact ⟨rfl, rfl, hbits.symm⟩
        · obtain ⟨-, -, -, hof⟩ := putTextOps_of hb
          exact hof
      · simp only [List.map_append, List.map_cons, List.sum_append, List.sum_cons, VarOp.cost]
        simp only [List.map_nil, List.sum_nil]
        omega
    · exact ⟨m, [], by simp [varMicro, hload, hflag], hr, by simp, by simp [VarOp.cost],
        fun t i _ => Or.inl rfl⟩
  | putValue t idx value =>
    obtain ⟨rfl, rfl, rfl⟩ := hof
    obtain ⟨m', e, hr', hkeep⟩ := hr.putValue hc hn
    refine ⟨m', [], ?_, hr', by simp, by simp [VarOp.cost], fun t i hi => Or.inl (hkeep t i hi)⟩
    simp only [varMicro, e, Option.bind_eq_bind, Option.bind_some, Option.pure_def]
  | loadFlags t idx bits =>
    obtain ⟨rfl, rfl, rfl⟩ := hof
    refine ⟨m, [.storeFlags c.table (c.slot n : ℕ)
      (m.word (c.table.addr h (c.slot n : ℕ) + c.table.width) ||| c.bits)], ?_, hr, fun b hb => ?_,
      by simp [VarOp.cost], fun t i _ => Or.inl rfl⟩
    · simp only [varMicro, hload, Option.bind_eq_bind, Option.bind_some, Option.pure_def]
    · rw [List.mem_singleton.mp hb]
      rcases (hr.slots c.table (c.slot n) hn).flags with h0 | ⟨d, hd, ⟨hdt, hds⟩, hbits⟩
      · rw [h0, Nat.zero_or]
        exact ⟨c, hc, rfl, rfl, rfl⟩
      · rw [hbits]
        rcases c.bits_or d with hor | hor <;> rw [hor]
        · exact ⟨c, hc, rfl, rfl, rfl⟩
        · exact ⟨d, hd, hdt.symm, by rw [hds], rfl⟩
  | storeFlags t idx flags =>
    obtain ⟨rfl, rfl, rfl⟩ := hof
    obtain ⟨m', e, hr', hword, hkeep⟩ := hr.storeFlags hc hn
    refine ⟨m', [], ?_, hr', by simp, by simp [VarOp.cost], fun t i hi => ?_⟩
    · simp only [varMicro, e, Option.bind_eq_bind, Option.bind_some, Option.pure_def]
    · by_cases hat : c.At n t i
      · obtain ⟨rfl, rfl⟩ := hat
        exact Or.inr ⟨c, hc, ⟨rfl, rfl⟩, hword⟩
      · exact Or.inl (hkeep t i hi hat)
  | putChar t idx k ch =>
    obtain ⟨rfl, rfl, s, hsrc, hk⟩ := hof
    obtain ⟨m', e, hr', hkeep⟩ := hr.putChar hc hn hsrc hk
    refine ⟨m', [], ?_, hr', by simp, by simp [VarOp.cost], fun t i hi => Or.inl (hkeep t i hi)⟩
    simp only [varMicro, e, Option.bind_eq_bind, Option.bind_some, Option.pure_def]

/-- The tables stay where they are, and hold what calls have put there. -/
theorem varMicro_keeps : Threads.Keeps (varMicro h) (Raced h n calls) (VarOp.From n calls) := by
  intro m op m' new hr hop e
  obtain ⟨m₁, new₁, e₁, hr₁, hnew, -⟩ := varMicro_spec hr hop
  rw [e₁, Option.some.injEq, Prod.mk.injEq] at e
  rw [← e.1, ← e.2]
  exact ⟨hr₁, hnew⟩

end Access

/-! ### Flags -/

/-- Whether an operation will still store the flags of slot `i`: all or nothing. -/
def VarOp.mark (n : ℕ) (t : VarTable) (i : ℕ) : VarOp → ℕ∞
  | call c => if c.table = t ∧ c.slot n = i then ⊤ else 0
  | testFlags t' idx .. | loadFlags t' idx _ | storeFlags t' idx _ => if t' = t ∧ idx = i then ⊤ else 0
  | putValue .. | putChar .. => 0

/-- Whether a bit of the flags of slot `i` is set. -/
def flagMark (h : Handle) (t : VarTable) (i bit : ℕ) (m : Mem) : ℕ∞ :=
  if m.word (t.addr h i + t.width) &&& bit = 0 then 0 else ⊤

section Marks
variable {h : Handle} {n i bit : ℕ} {calls : List VarCall} {m m' : Mem} {t : VarTable} {op : VarOp}
  {new : List VarOp}

theorem putTextOps_mark (t' : VarTable) (idx : ℤ) (src : Option CStr) :
    ((putTextOps t' idx src).map (VarOp.mark n t i)).sum = 0 := by
  cases src with
  | none => rfl
  | some s => simp [putTextOps, VarOp.mark, Function.comp_def]

/-- Where every call addressed to a slot sets a bit, the bit is set once the flags are. -/
theorem RacedSlot.flagMark_top (hc : RacedSlot h n calls t i m)
    (hall : ∀ c ∈ calls, c.At n t i → c.bits &&& bit ≠ 0) (hne : m.word (t.addr h i + t.width) ≠ 0) :
    flagMark h t i bit m = ⊤ := by
  rcases hc.flags with h0 | ⟨c, hmem, hat, hbits⟩
  · exact absurd h0 hne
  · rw [flagMark, hbits, if_neg (hall c hmem hat)]

/-- STEP: a bit that every call addressed to a slot sets is set by the store of the flags, and stays. -/
theorem varMicro_mark (hr : Raced h n calls m) (hi : i < n) (hop : op.From n calls)
    (hall : ∀ c ∈ calls, c.At n t i → c.bits &&& bit ≠ 0) (e : varMicro h m op = some (m', new)) :
    flagMark h t i bit m' + (new.map (VarOp.mark n t i)).sum = flagMark h t i bit m + op.mark n t i := by
  obtain ⟨c, hc, hof⟩ := hop
  have hn : c.slot n < n := Nat.mod_lt _ hr.tables.pos
  cases op with
  | call d =>
    have hidx : maskIdx d.id.toNat n = (d.slot n : ℕ) := hr.tables.maskIdx_eq d.id
    simp only [varMicro, hr.tables.hdrNumVars_eq, Option.bind_eq_bind, Option.bind_some, hidx,
      Option.pure_def, Option.some.injEq, Prod.mk.injEq] at e
    obtain ⟨rfl, rfl⟩ := e
    cases d.isInit <;> simp [VarOp.mark]
  | testFlags t' idx value src =>
    obtain ⟨-, rfl, rfl, rfl, rfl⟩ := hof
    simp only [varMicro, hr.load32_flags hn, Option.bind_eq_bind, Option.bind_some, Option.pure_def,
      Option.some.injEq, Prod.mk.injEq] at e
    obtain ⟨rfl, rfl⟩ := e
    by_cases hflag : m.word (c.table.addr h (c.slot n : ℕ) + c.table.width) &&& eInitialised = 0
    · simp [hflag, VarOp.mark, putTextOps_mark]
    · by_cases hat : c.At n t i
      · obtain ⟨rfl, rfl⟩ := hat
        have hne : m.word (c.table.addr h (c.slot n : ℕ) + c.table.width) ≠ 0 := fun h0 =>
          hflag (by rw [h0, Nat.zero_and])
        simp [hflag, (hr.slots _ _ hi).flagMark_top hall hne]
      · have hother : ¬ (c.table = t ∧ c.slot n = i) := hat
        simp [hflag, VarOp.mark, hother]
  | putValue t' idx value =>
    obtain ⟨rfl, rfl, rfl⟩ := hof
    obtain ⟨m₁, e₁, -, hkeep⟩ := hr.putValue hc hn
    simp only [varMicro, e₁, Option.bind_eq_bind, Option.bind_some, Option.pure_def, Option.some.injEq,
      Prod.mk.injEq] at e
    obtain ⟨rfl, rfl⟩ := e
    simp [flagMark, hkeep t i hi, VarOp.mark]
  | loadFlags t' idx bits =>
    simp only [varMicro, Option.bind_eq_bind, Option.bind_eq_some_iff, Option.pure_def,
      Option.some.injEq, Prod.mk.injEq] at e
    obtain ⟨flags, -, rfl, rfl⟩ := e
    simp [VarOp.mark]
  | storeFlags t' idx flags =>
    obtain ⟨rfl, rfl, rfl⟩ := hof
    obtain ⟨m₁, e₁, hr₁, hword, hkeep⟩ := hr.storeFlags hc hn
    simp only [varMicro, e₁, Option.bind_eq_bind, Option.bind_some, Option.pure_def, Option.some.injEq,
      Prod.mk.injEq] at e
    obtain ⟨rfl, rfl⟩ := e
    by_cases hat : c.At n t i
    · have hset := hall c hc hat
      obtain ⟨rfl, rfl⟩ := hat
      simp [flagMark, hword, hset, VarOp.mark]
    · have hother : ¬ (c.table = t ∧ c.slot n = i) := hat
      simp [flagMark, hkeep t i hi hat, VarOp.mark, hother]
  | putChar t' idx k ch =>
    obtain ⟨rfl, rfl, s, hsrc, hk⟩ := hof
    obtain ⟨m₁, e₁, -, hkeep⟩ := hr.putChar hc hn hsrc hk
    simp only [varMicro, e₁, Option.bind_eq_bind, Option.bind_some, Option.pure_def, Option.some.injEq,
      Prod.mk.injEq] at e
    obtain ⟨rfl, rfl⟩ := e
    simp [flagMark, hkeep t i hi, VarOp.mark]

end Marks

/-! ### A call on its own -/

section Solo
variable {h : Handle} {m m' : Mem}

theorem putText_reaches {t : VarTable} {idx : ℤ} (src : Option CStr) (rest : List VarOp)
    (hc : putText (t.addr h idx + t.width + 4) src m = some m') : Threads.Reaches (varMicro h)
      ⟨m, [putTextOps t idx src ++ rest]⟩ ⟨m', [rest]⟩ := by
  cases src with
  | none =>
    rw [putText, Option.pure_def, Option.some.injEq] at hc
    rw [hc]
    exact .refl
  | some s =>
    simp only [putText, Option.bind_eq_bind, Option.bind_eq_some_iff] at hc
    obtain ⟨m₁, hcopy, hlast⟩ := hc
    have hin := Mem.copy_some hcopy
    rw [strncpy, Mem.copy_eq hin, Option.some.injEq] at hcopy
    have hchars : ∀ k, m.InBounds (t.addr h idx + t.width + 4) k → ∀ rest : List VarOp,
        Threads.Reaches (varMicro h)
          ⟨m, [(List.range k).map (fun i => .putChar t idx i (s.buf i)) ++ rest]⟩
          ⟨m.put (t.addr h idx + t.width + 4) k s.buf, [rest]⟩ := by
      intro k
      induction k with
      | zero =>
        intro _ rest
        rw [Mem.put_zero]
        exact .refl
      | succ k ih =>
        intro hin rest
        obtain ⟨h0, h1⟩ := hin
        have hbefore := ih ⟨h0, by push_cast at h1; omega⟩ (.putChar t idx k (s.buf k) :: rest)
        rw [List.range_succ, List.map_append, List.append_assoc]
        refine hbefore.trans (Threads.solo_done rest ?_)
        simp only [varMicro, Mem.store_put ⟨h0, h1⟩ s.buf, Option.bind_eq_bind, Option.bind_some,
          Option.pure_def]
    rw [← hcopy] at hlast
    rw [putTextOps, List.append_assoc]
    refine (hchars _ hin _).trans (Threads.solo_done rest ?_)
    simp only [varMicro, hlast, Option.bind_eq_bind, Option.bind_some, Option.pure_def]

theorem orFlags_reaches {t : VarTable} {idx : ℤ} {bits : ℕ} (rest : List VarOp)
    (hc : orFlags (t.addr h idx + t.width) bits m = some m') : Threads.Reaches (varMicro h)
      ⟨m, [.loadFlags t idx bits :: rest]⟩ ⟨m', [rest]⟩ := by
  simp only [orFlags, Option.bind_eq_bind, Option.bind_eq_some_iff] at hc
  obtain ⟨old, hload, hstore⟩ := hc
  have hor : varMicro h m (.loadFlags t idx bits) = some (m, [.storeFlags t idx (old ||| bits)]) := by
    simp [varMicro, hload]
  have hput : varMicro h m (.storeFlags t idx (old ||| bits)) = some (m', []) := by
    simp [varMicro, hstore]
  exact (Threads.solo rest hor).trans (Threads.solo_done rest hput)

/-- CALL: without other threads, the accesses of a call do what the call does. -/
theorem VarCall.reaches {c : VarCall} (hc : c.run h m = some m') :
    Threads.Reaches (varMicro h) ⟨m, [[.call c]]⟩ ⟨m', [[]]⟩ := by
  rw [c.run_eq] at hc
  cases hi : c.isInit with
  | false =>
    simp only [hi, Bool.false_eq_true, if_false, varSet, Option.bind_eq_bind,
      Option.bind_eq_some_iff] at hc
    obtain ⟨numVars, hn, m₁, hvalue, hflags⟩ := hc
    have henter : varMicro h m (.call c) = some (m, [.putValue c.table (maskIdx c.id.toNat numVars) c.value,
        .loadFlags c.table (maskIdx c.id.toNat numVars) eUsed]) := by
      simp [varMicro, hn, hi]
    have hput : varMicro h m (.putValue c.table (maskIdx c.id.toNat numVars) c.value) = some (m₁, []) := by
      simp [varMicro, hvalue]
    exact (Threads.solo_last henter).trans ((Threads.solo_done _ hput).trans (orFlags_reaches [] hflags))
  | true =>
    simp only [hi, if_true, varInit, Option.bind_eq_bind, Option.bind_eq_some_iff] at hc
    obtain ⟨numVars, hn, flags, hload, hc⟩ := hc
    have henter : varMicro h m (.call c) =
        some (m, [.testFlags c.table (maskIdx c.id.toNat numVars) c.value c.src]) := by
      simp [varMicro, hn, hi]
    refine (Threads.solo_last henter).trans ?_
    by_cases hflag : flags &&& eInitialised = 0
    · rw [if_neg (not_not.mpr hflag)] at hc
      simp only [Option.bind_eq_some_iff] at hc
      obtain ⟨m₁, hvalue, m₂, hflags, htext⟩ := hc
      have htest : varMicro h m (.testFlags c.table (maskIdx c.id.toNat numVars) c.value c.src) =
          some (m, .putValue c.table (maskIdx c.id.toNat numVars) c.value ::
            .loadFlags c.table (maskIdx c.id.toNat numVars) (eUsed ||| eInitialised) ::
              (putTextOps c.table (maskIdx c.id.toNat numVars) c.src ++ [])) := by
        simp [varMicro, hload, hflag]
      have hput : varMicro h m (.putValue c.table (maskIdx c.id.toNat numVars) c.value) = some (m₁, []) := by
        simp [varMicro, hvalue]
      exact (Threads.solo_last htest).trans ((Threads.solo_done _ hput).trans
        ((orFlags_reaches _ hflags).trans (putText_reaches c.src [] htext)))
    · rw [if_pos hflag, Option.pure_def, Option.some.injEq] at hc
      have htest : varMicro h m (.testFlags c.table (maskIdx c.id.toNat numVars) c.value c.src) =
          some (m, []) := by
        simp [varMicro, hload, hflag]
      rw [← hc]
      exact Threads.solo_last htest

end Solo

/-! ### Any interleaving -/

section Run
variable {h : Handle} {n i bit : ℕ} {m : Mem} {t : VarTable} {threads : List (List VarCall)}
  {p q : Threads Mem VarOp}

theorem from_varThreads (n : ℕ) (m : Mem) (threads : List (List VarCall)) :
    (varThreads m threads).Holds (VarOp.From n threads.flatten) := by
  intro op hop
  rw [varThreads, ← List.map_flatten] at hop
  obtain ⟨c, hc, rfl⟩ := List.mem_map.mp hop
  exact ⟨c, hc, rfl⟩

/-- RUN: once every call has returned, a bit that every call addressed to a slot sets is set if there was
    such a call. -/
theorem flagMark_finished (hr : Raced h n threads.flatten m) (hi : i < n)
    (hall : ∀ c ∈ threads.flatten, c.At n t i → c.bits &&& bit ≠ 0)
    (hrun : Threads.Reaches (varMicro h) (varThreads m threads) p) (hfin : p.Finished)
    (hcall : ∃ c ∈ threads.flatten, c.At n t i) : flagMark h t i bit p.shared = ⊤ := by
  have hkeep := Threads.Keeps.conserved (flagMark h t i bit) (VarOp.mark n t i) varMicro_keeps
    (fun m op m' new hr hop e => varMicro_mark hr hi hop hall e) hr (from_varThreads n m threads) hrun
  obtain ⟨c, hc, hat⟩ := hcall
  have hmark : (VarOp.call c).mark n t i = ⊤ := if_pos hat
  have hmem : (⊤ : ℕ∞) ∈ (varThreads m threads).todo.flatten.map (VarOp.mark n t i) := by
    rw [varThreads, ← List.map_flatten, List.map_map, ← hmark]
    exact List.mem_map_of_mem hc
  have hpending : (varThreads m threads).pending (VarOp.mark n t i) = ⊤ :=
    top_le_iff.mp (List.le_sum_of_mem hmem)
  rw [hfin.pending, add_zero, hpending, add_top] at hkeep
  exact hkeep

/-- STAYS: such a bit is never lost again. -/
theorem flagMark_stays (hr : Raced h n threads.flatten p.shared) (hi : i < n)
    (hop : p.Holds (VarOp.From n threads.flatten))
    (hall : ∀ c ∈ threads.flatten, c.At n t i → c.bits &&& bit ≠ 0)
    (hrun : Threads.Reaches (varMicro h) p q) (hset : flagMark h t i bit p.shared = ⊤) :
    flagMark h t i bit q.shared = ⊤ := by
  have hkeeps : Threads.Keeps (varMicro h)
      (fun m => Raced h n threads.flatten m ∧ flagMark h t i bit m = ⊤) (VarOp.From n threads.flatten) := by
    rintro m op m' new ⟨hr, hset⟩ hop e
    obtain ⟨m₁, new₁, e₁, hr₁, hnew, -, hflags⟩ := varMicro_spec hr hop
    rw [e₁, Option.some.injEq, Prod.mk.injEq] at e
    obtain ⟨rfl, rfl⟩ := e
    refine ⟨⟨hr₁, ?_⟩, hnew⟩
    rcases hflags t i hi with hsame | ⟨c, hc, hat, hbits⟩
    · rwa [flagMark, hsame]
    · rw [flagMark, hbits, if_neg (hall c hc hat)]
  exact (hkeeps.run ⟨hr, hset⟩ hop hrun).1.2

theorem flagMark_top_iff : flagMark h t i bit m = ⊤ ↔ m.word (t.addr h i + t.width) &&& bit ≠ 0 := by
  unfold flagMark
  split <;> simp [*]

theorem Raced.terminated {calls : List VarCall} (hr : Raced h n calls m) (t : VarTable) {i : ℕ} (hi : i < n) :
    m.Terminated (t.addr h i + t.width + 4) := by
  obtain ⟨hlo, hhi⟩ := hr.tables.entry t hi
  obtain ⟨hw, hs⟩ := t.width_size
  exact ⟨63, ⟨by omega, by push_cast; omega⟩, (hr.slots t i hi).last⟩

theorem Raced.printVars {calls : List VarCall} (hr : Raced h n calls m) (f : Printf) :
    ∃ text, printVars f h m = some text := by
  refine (printVars_iff hr.tables.hdrNumVars_eq fun t i hi => ?_).mpr fun t i hi _ => hr.terminated t hi
  obtain ⟨hlo, hhi⟩ := hr.tables.entry t hi
  exact ⟨by omega, hhi⟩

end Run

/-- RACED: whatever the threads and however their accesses interleave, every call can return. At every
    instant a slot's flags, its value and each byte of its text are 0 or those of calls addressed to it,
    and the tool prints the tables. A bit that every call addressed to a slot sets (`log2mem_eUsed`, and
    `log2mem_eInitialised` where nothing but initialisations is addressed to it) is never lost, and once
    all calls have returned it is set exactly where there was a call. -/
theorem vars_raced {h : Handle} {n : ℕ} {m : Mem} (hv : VarTables h n m) (hz : FreshVars h n m)
    (threads : List (List VarCall)) {p : Threads Mem VarOp}
    (hrun : Threads.Reaches (varMicro h) (varThreads m threads) p) :
    (∃ q, Threads.Reaches (varMicro h) p q ∧ q.Finished) ∧
    (∀ f, ∃ text, printVars f h p.shared = some text) ∧
    ∀ (t : VarTable) (i : ℕ), i < n → RacedSlot h n threads.flatten t i p.shared ∧
      ∀ bit : ℕ, (∀ c ∈ threads.flatten, c.At n t i → c.bits &&& bit ≠ 0) →
        (p.shared.word (t.addr h i + t.width) &&& bit ≠ 0 → ∀ q, Threads.Reaches (varMicro h) p q →
          q.shared.word (t.addr h i + t.width) &&& bit ≠ 0) ∧
        (p.Finished → (p.shared.word (t.addr h i + t.width) &&& bit ≠ 0 ↔
          ∃ c ∈ threads.flatten, c.At n t i)) := by
  have hr : Raced h n threads.flatten m := .fresh hv hz
  obtain ⟨hrp, hop⟩ := varMicro_keeps.run hr (from_varThreads n m threads) hrun
  refine ⟨?_, hrp.printVars, fun t i hi => ⟨hrp.slots t i hi, fun bit hall => ⟨fun hset q hq => ?_,
    fun hfin => ⟨fun hset => ?_, fun hcall => ?_⟩⟩⟩⟩
  · refine varMicro_keeps.completes VarOp.cost (fun m op hr hop => ?_) hrp hop
    obtain ⟨m', new, e, -, -, hcost, -⟩ := varMicro_spec hr hop
    exact ⟨m', new, e, hcost⟩
  · exact flagMark_top_iff.mp (flagMark_stays hrp hi hop hall hq (flagMark_top_iff.mpr hset))
  · rcases (hrp.slots t i hi).flags with h0 | ⟨c, hc, hat, -⟩
    · rw [h0, Nat.zero_and] at hset
      exact absurd rfl hset
    · exact ⟨c, hc, hat⟩
  · exact flagMark_top_iff.mp (flagMark_finished hr hi hall hrun hfin hcall)

/-- On a fresh memmap with one variable, one thread that initialises it as `hi` and one that sets it. -/
theorem vars_raced_two : ∃ m p, create ⟨true, true⟩ twoRows.ps [] twoRows.config =
    some (twoRows.handle, m) ∧
    Threads.Reaches (varMicro twoRows.handle)
      (varThreads m [[.intInit 0 5 (some ⟨[104, 105], by decide⟩)], [.intSet 4 7]]) p ∧ p.Finished ∧
    p.shared.word (VarTable.int.addr twoRows.handle 0 + 4) &&& eUsed ≠ 0 := by
  obtain ⟨m, hc, hm, -, hz⟩ := twoRows.created []
  have hN : twoRows.numVars = 1 := by decide
  have hv := hm.varTables (by rw [hN])
  have hfresh := hv.fresh hz
  obtain ⟨⟨p, hrun, hfin⟩, -⟩ := vars_raced hv hfresh
    [[.intInit 0 5 (some ⟨[104, 105], by decide⟩)], [.intSet 4 7]] .refl
  have hused := ((vars_raced hv hfresh _ hrun).2.2 .int 0 (by rw [hN]; decide)).2 eUsed
    fun c _ _ => by rcases c.bits_cases with ⟨-, hb⟩ | ⟨-, hb⟩ <;> rw [hb] <;> decide
  refine ⟨m, p, hc, hrun, hfin, (hused.2 hfin).mpr ⟨.intSet 4 7, by simp, rfl, ?_⟩⟩
  rw [hN]
  rfl

/-- LOST: an initialisation and a `set` that run at once may leave a variable that counts as not
    initialised, whatever their values: the `set` loads the flags before the initialisation stores them,
    and stores them after. The next initialisation then puts its own value over both. -/
theorem init_lost {h : Handle} {n i : ℕ} {m : Mem} {t : VarTable} (hv : VarTables h n m)
    (hz : FreshVars h n m) {c d : VarCall} (hc : c.isInit = true) (hcat : c.At n t i)
    (hd : d.isInit = false) (hdat : d.At n t i) : ∃ p,
    Threads.Reaches (varMicro h) (varThreads m [[c], [d]]) p ∧ p.Finished ∧
    p.shared.word (t.addr h i + t.width) = eUsed ∧
    ∀ e : VarCall, e.isInit = true → e.At n t i → ∃ m', e.run h p.shared = some m' ∧
      m'.get (t.addr h i) t.width = leBytes t.width e.value := by
  have hi : i < n := hcat.2 ▸ Nat.mod_lt _ hv.pos
  obtain ⟨rfl, hdi⟩ := hdat
  have hr : Raced h n [c, d] m := .fresh hv hz
  have hdn : d.slot n < n := hdi ▸ hi
  -- the `set` stores its value and loads the flags
  obtain ⟨m₁, hvalue, hr₁, hkeep₁⟩ := hr.putValue (List.mem_cons_of_mem c (List.mem_singleton_self d)) hdn
  have hzero : m₁.word (d.table.addr h (d.slot n : ℕ) + d.table.width) = 0 := by
    rw [hkeep₁ _ _ hdn]
    exact (hz.holds d.table hdn).flags
  have henter : varMicro h m (.call d) = some (m, [.putValue d.table (d.slot n : ℕ) d.value,
      .loadFlags d.table (d.slot n : ℕ) eUsed]) := by
    have hidx : maskIdx d.id.toNat n = (d.slot n : ℕ) := hv.maskIdx_eq d.id
    simp [varMicro, hv.hdrNumVars_eq, hidx, hd]
  have hput : varMicro h m (.putValue d.table (d.slot n : ℕ) d.value) = some (m₁, []) := by
    simp [varMicro, hvalue]
  have hload : varMicro h m₁ (.loadFlags d.table (d.slot n : ℕ) eUsed) =
      some (m₁, [.storeFlags d.table (d.slot n : ℕ) eUsed]) := by
    simp [varMicro, hr₁.load32_flags hdn, hzero]
  have hset : Threads.Reaches (varMicro h) (varThreads m [[c], [d]])
      ⟨m₁, [[.call c], [.storeFlags d.table (d.slot n : ℕ) eUsed]]⟩ := Threads.among [[VarOp.call c]] []
    ((Threads.solo_last henter).trans ((Threads.solo_done _ hput).trans (Threads.solo_last hload)))
  -- the initialisation runs
  obtain ⟨m₂, hinit⟩ : ∃ m₂, c.run h m₁ = some m₂ := by
    rw [c.run_eq, hc, if_pos rfl]
    obtain ⟨m₂, e, -⟩ := hr₁.tables.varInit_spec c.table rfl c.value c.src
    exact ⟨m₂, e⟩
  have hboth : Threads.Reaches (varMicro h) (varThreads m [[c], [d]])
      ⟨m₂, [[], [.storeFlags d.table (d.slot n : ℕ) eUsed]]⟩ :=
    hset.trans (Threads.among [] [[VarOp.storeFlags d.table (d.slot n : ℕ) eUsed]] (VarCall.reaches hinit))
  -- the `set` stores the flags
  have hr₂ : Raced h n [c, d] m₂ :=
    (varMicro_keeps.run hr (from_varThreads n m [[c], [d]]) hboth).1
  obtain ⟨m₃, hflags, hr₃, hword, -⟩ := hr₂.storeFlags (List.mem_cons_of_mem c (List.mem_singleton_self d)) hdn
  have hbits : d.bits = eUsed := by simp [VarCall.bits, hd]
  rw [hbits] at hflags hword
  rw [hdi] at hword
  have hstore : varMicro h m₂ (.storeFlags d.table (d.slot n : ℕ) eUsed) = some (m₃, []) := by
    simp [varMicro, hflags]
  refine ⟨⟨m₃, [[], []]⟩, hboth.trans (Threads.among [[]] [] (Threads.solo_last hstore)), by
    simp [Threads.Finished], hword, fun e he heat => ?_⟩
  obtain ⟨het, hei⟩ := heat
  obtain ⟨m', hrun, -, hdone, -⟩ := hr₃.tables.varInit_spec d.table hei e.value e.src
  refine ⟨m', ?_, (hdone (by rw [hword]; decide)).1⟩
  rw [e.run_eq, he, if_pos rfl, het, hrun]

/-- The same two calls may leave the variable used and not initialised. -/
theorem init_lost_two : ∃ m p, create ⟨true, true⟩ twoRows.ps [] twoRows.config =
    some (twoRows.handle, m) ∧
    Threads.Reaches (varMicro twoRows.handle)
      (varThreads m [[.intInit 0 5 (some ⟨[104, 105], by decide⟩)], [.intSet 4 7]]) p ∧ p.Finished ∧
    p.shared.word (VarTable.int.addr twoRows.handle 0 + 4) = eUsed := by
  obtain ⟨m, hc, hm, -, hz⟩ := twoRows.created []
  have hN : twoRows.numVars = 1 := by decide
  have hv := hm.varTables (by rw [hN])
  have hfresh := hv.fresh hz
  obtain ⟨p, hrun, hfin, hword, -⟩ := init_lost (t := .int) (i := 0) hv hfresh
    (c := .intInit 0 5 (some ⟨[104, 105], by decide⟩)) rfl ⟨rfl, by rw [hN]; rfl⟩ (d := .intSet 4 7) rfl
    ⟨rfl, by rw [hN]; rfl⟩
  exact ⟨m, p, hc, hrun, hfin, hword⟩

end Log2mem
