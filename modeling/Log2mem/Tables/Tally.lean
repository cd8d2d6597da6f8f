import Mathlib.Data.ZMod.Basic
import Log2mem.Schemes.Threads
import Log2mem.Ring.Isolation
import Log2mem.Tables.Counters

/-! The counters under any interleaving of threads.

    A call first loads `num_counters`; `log2mem_counter_add` then is one atomic addition, and
    `log2mem_counter_label` is a byte-wise copy followed by a store, between which other threads may run.
    What a counter has gained modulo `2 ^ 32` is, at every moment, what the calls on it have given up, so
    once all calls have returned its value is their sum, whatever the order.

        call ─▶ load num_counters ─┬─▶ value += amount                       (one atomic step)
                                   └─▶ text[0] ─▶ … ─▶ text[62] ─▶ used = 1              -/

namespace Log2mem
open Schemes

/-- A call on the counters. -/
inductive CounterCall where
  | add (counterid valueToAdd : Int32)
  | incr (counterid : Int32)
  | label (counterid : Int32) (src : CStr)

/-- The call on its own. -/
def CounterCall.run (h : Handle) : CounterCall → Mem → Option Mem
  | add counterid valueToAdd => log2memCounterAdd h counterid valueToAdd
  | incr counterid => log2memCounterIncr h counterid
  | label counterid src => log2memCounterLabel h counterid src

/-- What a thread does between two accesses to the memmap. -/
inductive CounterOp where
  /-- a call is entered -/
  | call (c : CounterCall)
  /-- `__sync_add_and_fetch` on the value of counter `idx` -/
  | fetchAdd (idx : ℤ) (valueToAdd : Int32)
  /-- character `i` of the label of counter `idx` -/
  | putChar (idx : ℤ) (i : ℕ) (c : UInt8)
  /-- `counters[idx].used = 1` -/
  | putUsed (idx : ℤ)

/-- One access, and what is left of the call after it. -/
def counterMicro (h : Handle) (m : Mem) : CounterOp → Option (Mem × List CounterOp)
  | .call (.add counterid valueToAdd) => do
    let numCounters ← hdrNumCounters m
    return (m, [.fetchAdd (maskIdx counterid.toInt numCounters) valueToAdd])
  | .call (.incr counterid) => return (m, [.call (.add counterid 1)])
  | .call (.label counterid src) => do
    let numCounters ← hdrNumCounters m
    let idx := maskIdx counterid.toInt numCounters
    return (m, (List.range (labelLen - 1)).map (fun i => .putChar idx i (src.buf i)) ++ [.putUsed idx])
  | .fetchAdd idx valueToAdd => do
    let v ← m.load32 (counterAddr h idx)
    let m ← m.store32 (counterAddr h idx) (toU32 (v + valueToAdd.toInt))
    return (m, [])
  | .putChar idx i c => do
    let m ← m.store (labelAddr h idx + i) [c]
    return (m, [])
  | .putUsed idx => do
    let m ← m.store32 (counterAddr h idx + 4) 1
    return (m, [])

/-- Threads that are each about to make their calls, one after the other. -/
def counterThreads (m : Mem) (threads : List (List CounterCall)) : Threads Mem CounterOp :=
  ⟨m, threads.map (·.map .call)⟩

/-- The additions among some calls: id and amount. -/
def CounterCall.added : CounterCall → Option (Int32 × Int32)
  | add counterid valueToAdd => some (counterid, valueToAdd)
  | incr counterid => some (counterid, 1)
  | label _ _ => none

/-- The sum of the amounts of the calls whose id is congruent to `i` modulo `n`. -/
def tally (n i : ℕ) (calls : List CounterCall) : ℤ :=
  (((calls.filterMap CounterCall.added).filter fun a => a.1.toInt % (n : ℤ) = (i : ℤ)).map fun a => a.2.toInt).sum

/-- The value of counter `i`, as a residue. -/
def counterValue (h : Handle) (i : ℕ) (m : Mem) : ZMod 4294967296 := (m.word (counterAddr h i) : ℕ)

/-- The indices of an operation are in the tables of `n` counters. -/
def CounterOp.InTable (n : ℕ) : CounterOp → Prop
  | call _ => True
  | fetchAdd idx _ => 0 ≤ idx ∧ idx < n
  | putChar idx i _ => (0 ≤ idx ∧ idx < n) ∧ i < 63
  | putUsed idx => 0 ≤ idx ∧ idx < n

/-- What an operation will still add to counter `i`. -/
def CounterOp.amount (n i : ℕ) : CounterOp → ℤ
  | call c => tally n i [c]
  | fetchAdd idx valueToAdd => if idx = i then valueToAdd.toInt else 0
  | putChar .. => 0
  | putUsed .. => 0

/-- More than the number of accesses an operation is made of. -/
def CounterOp.cost : CounterOp → ℕ
  | call (.add ..) => 2
  | call (.incr ..) => 3
  | call (.label ..) => 65
  | _ => 1

/-! ### Sums of amounts -/

section Tally
variable {n i : ℕ}

theorem tally_append (calls calls' : List CounterCall) :
    tally n i (calls ++ calls') = tally n i calls + tally n i calls' := by
  simp only [tally, List.filterMap_append, List.filter_append, List.map_append, List.sum_append]

@[simp] theorem tally_label (counterid : Int32) (src : CStr) : tally n i [.label counterid src] = 0 := rfl

@[simp] theorem tally_incr (counterid : Int32) :
    tally n i [.incr counterid] = tally n i [.add counterid 1] := rfl

theorem tally_add (counterid valueToAdd : Int32) : tally n i [.add counterid valueToAdd] =
    if counterid.toInt % n = i then valueToAdd.toInt else 0 := by
  by_cases hid : counterid.toInt % n = i <;> simp [tally, CounterCall.added, hid]

theorem pending_counterThreads (m : Mem) (threads : List (List CounterCall)) :
    (counterThreads m threads).pending (fun b => (b.amount n i : ZMod 4294967296)) =
      tally n i threads.flatten := by
  rw [Threads.pending, counterThreads, ← List.map_flatten, List.map_map]
  induction threads.flatten with
  | nil => simp [tally]
  | cons c calls ih =>
    rw [List.map_cons, List.sum_cons, ih, ← List.singleton_append, tally_append, Int.cast_add]
    rfl

end Tally

/-! ### One access -/

section Access
variable {h : Handle} {n i : ℕ} {m m' : Mem}

theorem toU32_zmod (x : ℤ) : ((toU32 x : ℕ) : ZMod 4294967296) = x := by
  have hcast : ((toU32 x : ℕ) : ℤ) = x % 4294967296 := toU32_cast x
  calc ((toU32 x : ℕ) : ZMod 4294967296) = ((toU32 x : ℤ) : ZMod 4294967296) := by rw [Int.cast_natCast]
    _ = ((x % 4294967296 : ℤ) : ZMod 4294967296) := by rw [hcast]
    _ = x := ZMod.intCast_mod x 4294967296

/-- CALL: entering a call leaves the memory alone, and what is left of the call stays in the tables and
    gives up what the call does. -/
theorem counterMicro_call (ht : CounterTables h n m) (i : ℕ) (c : CounterCall) :
    ∃ new, counterMicro h m (.call c) = some (m, new) ∧ (∀ b ∈ new, b.InTable n) ∧
      (new.map CounterOp.cost).sum < (CounterOp.call c).cost ∧
      (new.map fun b => (b.amount n i : ZMod 4294967296)).sum = tally n i [c] := by
  cases c with
  | add counterid valueToAdd =>
    obtain ⟨hmask, h0, h1⟩ := ht.maskIdx_eq counterid
    refine ⟨[.fetchAdd (counterid.toInt % n) valueToAdd], ?_, ?_, by simp [CounterOp.cost], ?_⟩
    · simp only [counterMicro, ht.hdrNumCounters_eq, hmask, Option.bind_eq_bind, Option.bind_some,
        Option.pure_def]
    · intro b hb
      rw [List.mem_singleton.mp hb]
      exact ⟨h0, h1⟩
    · rw [List.map_singleton, List.sum_singleton, CounterOp.amount, tally_add]
  | incr counterid =>
    refine ⟨[.call (.add counterid 1)], rfl, ?_, by simp [CounterOp.cost], ?_⟩
    · intro b hb
      rw [List.mem_singleton.mp hb]
      trivial
    · rw [List.map_singleton, List.sum_singleton, CounterOp.amount, tally_incr]
  | label counterid src =>
    obtain ⟨hmask, h0, h1⟩ := ht.maskIdx_eq counterid
    refine ⟨(List.range (labelLen - 1)).map (fun i => .putChar (counterid.toInt % n) i (src.buf i)) ++
      [.putUsed (counterid.toInt % n)], ?_, ?_, ?_, ?_⟩
    · simp only [counterMicro, ht.hdrNumCounters_eq, hmask, Option.bind_eq_bind, Option.bind_some,
        Option.pure_def]
    · intro b hb
      rcases List.mem_append.mp hb with hb | hb
      · obtain ⟨k, hk, rfl⟩ := List.mem_map.mp hb
        exact ⟨⟨h0, h1⟩, List.mem_range.mp hk⟩
      · rw [List.mem_singleton.mp hb]
        exact ⟨h0, h1⟩
    · simp [CounterOp.cost, labelLen, Function.comp_def]
    · simp [CounterOp.amount, Function.comp_def]

/-- STORE: an access to the tables stays inside them, and a counter's value changes by the addition to
    it only. -/
theorem counterMicro_store (ht : CounterTables h n m) (hi : i < n) {op : CounterOp}
    (hop : op.InTable n) (hstore : ∀ c, op ≠ .call c) : ∃ m', counterMicro h m op = some (m', []) ∧
      CounterTables h n m' ∧ counterValue h i m' = counterValue h i m + op.amount n i := by
  cases op with
  | call c => exact absurd rfl (hstore c)
  | fetchAdd idx valueToAdd =>
    obtain ⟨k, rfl⟩ := Int.eq_ofNat_of_zero_le hop.1
    obtain ⟨h0, h1⟩ := ht.counter_entry (Int.ofNat_lt.mp hop.2)
    have hin : m.InBounds (counterAddr h k) 4 := ⟨by omega, by omega⟩
    obtain ⟨m', e, f, w⟩ := Mem.store32_spec hin (toU32 (m.word (counterAddr h k) + valueToAdd.toInt))
    refine ⟨m', ?_, ht.frame f h0, ?_⟩
    · simp only [counterMicro, Mem.load32_eq hin, e, Option.bind_eq_bind, Option.bind_some,
        Option.pure_def]
    · by_cases hki : (k : ℤ) = i
      · rw [counterValue, counterValue, ← hki, w, Nat.mod_eq_of_lt (toU32_lt _), toU32_zmod]
        simp [CounterOp.amount, hki]
      · rw [counterValue, f.word_of_Ico (by unfold counterAddr; omega), counterValue]
        simp [CounterOp.amount, hki]
  | putChar idx j c =>
    obtain ⟨⟨hlo, hlt⟩, hj⟩ := hop
    obtain ⟨k, rfl⟩ := Int.eq_ofNat_of_zero_le hlo
    have hk : k < n := Int.ofNat_lt.mp hlt
    obtain ⟨h0, h1⟩ := ht.label_entry hk
    obtain ⟨m', e, f, -⟩ := Mem.store_spec m (labelAddr h k + j) [c]
      ⟨by omega, by rw [List.length_singleton]; omega⟩
    rw [List.length_singleton] at f
    have hapart := ht.counter_label hi hk
    refine ⟨m', ?_, ht.frame f (by omega), ?_⟩
    · simp only [counterMicro, e, Option.bind_eq_bind, Option.bind_some, Option.pure_def]
    · rw [counterValue, f.word_of_Ico (by omega), counterValue]
      simp [CounterOp.amount]
  | putUsed idx =>
    obtain ⟨k, rfl⟩ := Int.eq_ofNat_of_zero_le hop.1
    obtain ⟨h0, h1⟩ := ht.counter_entry (Int.ofNat_lt.mp hop.2)
    obtain ⟨m', e, f, -⟩ := Mem.store32_spec (m := m) (a := counterAddr h k + 4)
      ⟨by omega, by omega⟩ 1
    refine ⟨m', ?_, ht.frame f (by omega), ?_⟩
    · simp only [counterMicro, e, Option.bind_eq_bind, Option.bind_some, Option.pure_def]
    · rw [counterValue, f.word_of_Ico (by unfold counterAddr; omega), counterValue]
      simp [CounterOp.amount]

/-- What an access does: the tables stay where they are, what is left of the call stays in the tables,
    and counter `i` gains what the operation gives up. -/
theorem counterMicro_spec (ht : CounterTables h n m) (hi : i < n) {op : CounterOp}
    (hop : op.InTable n) : ∃ m' new, counterMicro h m op = some (m', new) ∧ CounterTables h n m' ∧
      (∀ b ∈ new, b.InTable n) ∧ (new.map CounterOp.cost).sum < op.cost ∧
      counterValue h i m' + (new.map fun b => (b.amount n i : ZMod 4294967296)).sum =
        counterValue h i m + op.amount n i := by
  have hstored : (∀ c, op ≠ .call c) → 0 < op.cost → ∃ m' new, counterMicro h m op = some (m', new) ∧
      CounterTables h n m' ∧ (∀ b ∈ new, b.InTable n) ∧ (new.map CounterOp.cost).sum < op.cost ∧
      counterValue h i m' + (new.map fun b => (b.amount n i : ZMod 4294967296)).sum =
        counterValue h i m + op.amount n i := by
    intro hstore hcost
    obtain ⟨m', e, ht', hvalue⟩ := counterMicro_store ht hi hop hstore
    exact ⟨m', [], e, ht', by simp, hcost, by simpa using hvalue⟩
  cases op with
  | call c =>
    obtain ⟨new, e, hnew, hcost, hsum⟩ := counterMicro_call ht i c
    exact ⟨m, new, e, ht, hnew, hcost, congrArg _ hsum⟩
  | _ => exact hstored (fun c => by simp) Nat.one_pos

theorem counterMicro_keeps : Threads.Keeps (counterMicro h) (CounterTables h n) (CounterOp.InTable n) := by
  intro m op m' new ht hop e
  obtain ⟨m₁, new₁, e₁, ht₁, hnew, -⟩ := counterMicro_spec ht ht.pos hop
  rw [e₁, Option.some.injEq, Prod.mk.injEq] at e
  rw [← e.1, ← e.2]
  exact ⟨ht₁, hnew⟩

end Access

/-! ### Any interleaving -/

section Run
variable {h : Handle} {n i : ℕ} {m : Mem}

theorem holds_counterThreads (m : Mem) (threads : List (List CounterCall)) :
    (counterThreads m threads).Holds (CounterOp.InTable n) := by
  intro op hop
  rw [counterThreads, ← List.map_flatten] at hop
  obtain ⟨c, -, rfl⟩ := List.mem_map.mp hop
  trivial

theorem toInt32_of_zmod {a : ℕ} {x : ℤ} (h : (a : ZMod 4294967296) = x) : toInt32 a = toInt32 x := by
  refine toInt32_congr ?_
  rw [← Int.cast_natCast (R := ZMod 4294967296)] at h
  exact (ZMod.intCast_eq_intCast_iff' a x 4294967296).mp h

end Run

/-! ### A call on its own -/

section Solo
variable {h : Handle} {m m' : Mem}

theorem putChars_reaches {idx : ℤ} (f : ℕ → UInt8) {k : ℕ} (hin : m.InBounds (labelAddr h idx) k)
    (rest : List CounterOp) : Threads.Reaches (counterMicro h)
      ⟨m, [(List.range k).map (fun i => .putChar idx i (f i)) ++ rest]⟩
      ⟨m.put (labelAddr h idx) k f, [rest]⟩ := by
  induction k generalizing rest with
  | zero =>
    rw [Mem.put_zero]
    exact .refl
  | succ k ih =>
    obtain ⟨h0, h1⟩ := hin
    have hbefore := ih ⟨h0, by push_cast at h1; omega⟩ (.putChar idx k (f k) :: rest)
    rw [List.range_succ, List.map_append, List.append_assoc]
    refine hbefore.trans (Threads.solo_done rest ?_)
    simp only [counterMicro, Mem.store_put ⟨h0, h1⟩ f, Option.bind_eq_bind, Option.bind_some,
      Option.pure_def]

/-- CALL: without other threads, the accesses of a call do what the call does. -/
theorem CounterCall.reaches {c : CounterCall} (hc : c.run h m = some m') :
    Threads.Reaches (counterMicro h) ⟨m, [[.call c]]⟩ ⟨m', [[]]⟩ := by
  have hadd : ∀ {counterid valueToAdd : Int32}, log2memCounterAdd h counterid valueToAdd m = some m' →
      Threads.Reaches (counterMicro h) ⟨m, [[.call (.add counterid valueToAdd)]]⟩ ⟨m', [[]]⟩ := by
    intro counterid valueToAdd hc
    simp only [log2memCounterAdd, Option.bind_eq_bind, Option.bind_eq_some_iff] at hc
    obtain ⟨numCounters, hn, v, hv, hs⟩ := hc
    have henter : counterMicro h m (.call (.add counterid valueToAdd)) =
        some (m, [.fetchAdd (maskIdx counterid.toInt numCounters) valueToAdd]) := by
      simp [counterMicro, hn]
    have hfetch : counterMicro h m (.fetchAdd (maskIdx counterid.toInt numCounters) valueToAdd) =
        some (m', []) := by
      simp [counterMicro, hv, hs]
    exact (Threads.solo_last henter).trans (Threads.solo_last hfetch)
  cases c with
  | add counterid valueToAdd => exact hadd hc
  | incr counterid =>
    have henter : counterMicro h m (.call (.incr counterid)) = some (m, [.call (.add counterid 1)]) := rfl
    exact (Threads.solo_last henter).trans (hadd hc)
  | label counterid src =>
    simp only [run, log2memCounterLabel, Option.bind_eq_bind, Option.bind_eq_some_iff] at hc
    obtain ⟨numCounters, hn, m₁, hcopy, hs⟩ := hc
    set idx := maskIdx counterid.toInt numCounters with hidx
    have hin := Mem.copy_some hcopy
    rw [strncpy, Mem.copy_eq hin, Option.some.injEq] at hcopy
    rw [← hcopy] at hs
    have henter : counterMicro h m (.call (.label counterid src)) = some (m,
        (List.range (labelLen - 1)).map (fun i => .putChar idx i (src.buf i)) ++ [.putUsed idx]) := by
      simp [counterMicro, hn, ← hidx]
    have hused : counterMicro h (m.put (labelAddr h idx) (labelLen - 1) src.buf) (.putUsed idx) =
        some (m', []) := by
      simp [counterMicro, hs]
    exact (Threads.solo_last henter).trans
      ((putChars_reaches src.buf hin [.putUsed idx]).trans (Threads.solo_last hused))

end Solo

end Log2mem
