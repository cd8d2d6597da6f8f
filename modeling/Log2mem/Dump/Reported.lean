import Log2mem.Dump.Attach
import Log2mem.Tables.Labelled

/-! Which counters `print_counters` lists.

    A counter is listed when its `used` word is set. `log2mem_counter_label` sets it;
    `log2mem_counter_add` does not, although the variables' `set` operations mark what they touch as
    used. So a counter that is only added to has a value and no line, and the fallback name that
    `print_counters` prepares is never seen.

        add, add, add  ──▶ value, used = 0 ──▶ no line
        add, label     ──▶ value, used = 1 ──▶ counter[i] label : value
        what is asked:     addressed       ──▶ counter[i] label or "noname" : value -/

namespace Log2mem
open Schemes

/-- Some call of the run is addressed to counter `i`. -/
def Addressed (n i : ℕ) (calls : List CounterCall) : Prop :=
  ∃ c ∈ calls, c.counterid.toInt % (n : ℤ) = (i : ℤ)

instance (n i : ℕ) (calls : List CounterCall) : Decidable (Addressed n i calls) :=
  inferInstanceAs (Decidable (∃ c ∈ calls, _))

/-- Some call of the run labels counter `i`. -/
def Labelled (n i : ℕ) (calls : List CounterCall) : Prop := ∃ c ∈ calls, (c.labels n i).isSome

/-- The name a counter is to be listed under: its last label, as far as it is kept, or the fallback. -/
def counterName : Option CStr → Text
  | some src => src.chars.take 63
  | none => ascii "noname"

/-- `"counter[%d] %s : %d\n"`. -/
def counterLine (f : Printf) (i : ℕ) (name : Text) (value : ℤ) : Text :=
  ascii "counter[" ++ f.int i ++ ascii "] " ++ name ++ ascii " : " ++ f.int value ++ [10]

/-- The line that is asked for: of every counter that was addressed, with its sum as an `int`. -/
def reportLine (f : Printf) (n : ℕ) (calls : List CounterCall) (i : ℕ) : Text :=
  if Addressed n i calls then
    counterLine f i (counterName (lastLabel n i calls)) (toInt32 (tally n i calls))
  else []

/-- The line that is printed: of every counter that has a label. -/
def printedLine (f : Printf) (n : ℕ) (calls : List CounterCall) (i : ℕ) : Text :=
  if (lastLabel n i calls).isSome then
    counterLine f i (labelText (some (lastLabel n i calls))) (toInt32 (tally n i calls))
  else []

/-- The report that is asked for. -/
def report (f : Printf) (n : ℕ) (calls : List CounterCall) : Text :=
  ((List.range n).map (reportLine f n calls)).flatten

/-! ### The name of a counter -/

section Name
variable {m : Mem}

theorem readLabel_of_cstr : ∀ {n : ℕ} {a : ℤ} {s : Text}, m.cstr n a = some s → readLabel n a m = some s
  | 0, a, s, h => by simp [Mem.cstr] at h
  | n + 1, a, s, h => by
    rw [Mem.cstr, Option.bind_eq_bind] at h
    obtain ⟨c, hc, h⟩ := Option.bind_eq_some_iff.mp h
    rw [readLabel, hc, Option.bind_eq_bind, Option.bind_some]
    by_cases hz : c = 0
    · rw [if_pos hz] at h ⊢
      exact h
    · rw [if_neg hz, Option.bind_eq_bind] at h
      obtain ⟨t, ht, h⟩ := Option.bind_eq_some_iff.mp h
      rw [if_neg hz, readLabel_of_cstr ht]
      exact h

/-- A text whose NUL lies inside the memory and among the first `n` bytes is copied up to that NUL. -/
theorem readLabel_spec {payload : List UInt8} {a : ℤ} {n : ℕ} (h0 : 0 ∈ payload) (hn : payload.length ≤ n)
    (hin : m.InBounds a payload.length) (hg : m.get a payload.length = payload) :
    readLabel n a m = some (strText payload) := readLabel_of_cstr (cstr_spec h0 hn hin hg)

theorem strText_textBytes (src : Option CStr) :
    0 ∈ textBytes src ∧ strText (textBytes src) = labelText (some src) := by
  have hlen := labelText_length_le (some src)
  have hfree : 0 ∉ labelText (some src) := by
    cases src with
    | none => simp [labelText]
    | some s => exact fun h => s.nul_free (List.mem_of_mem_take h)
  obtain ⟨k, hk⟩ : ∃ k, 64 - (labelText (some src)).length = k + 1 :=
    ⟨63 - (labelText (some src)).length, by omega⟩
  rw [textBytes_eq, hk, List.replicate_succ]
  exact ⟨by simp, strText_nul hfree⟩

end Name

/-! ### The lines -/

section Lines
variable {h : Handle} {n i : ℕ} {m : Mem} {value : ℤ} {label : Option CStr} {f : Printf}

theorem CounterHolds.printCounter_eq (hc : CounterHolds h i m value label)
    (hin : m.InBounds (counterAddr h i) 8) (hlabel : m.InBounds (labelAddr h i) 64) :
    printCounter f h m i = some (if label.isSome then
      counterLine f i (labelText (some label)) (toInt32 value) else []) := by
  obtain ⟨h0, h1⟩ := hin
  have hused : m.load32 (counterAddr h i + 4) = some (if label.isSome then 1 else 0) := by
    rw [Mem.load32_eq ⟨by omega, by omega⟩, hc.used]
  have hvalue : m.load32 (counterAddr h i) = some (toU32 value) := by
    rw [Mem.load32_eq ⟨by omega, by omega⟩, hc.value]
  obtain ⟨hnul, htext⟩ := strText_textBytes label
  have hlen : (textBytes label).length = 64 := by rw [← hc.text, Mem.get_length]
  have hname : readLabel labelLen (labelAddr h i) m = some (labelText (some label)) := by
    rw [← htext]
    exact readLabel_spec hnul (le_of_eq hlen) (by rw [hlen]; exact hlabel) (by rw [hlen, hc.text])
  rw [printCounter, hused, Option.bind_eq_bind, Option.bind_some]
  cases label with
  | none => rfl
  | some src => simp [hname, hvalue, counterLine]

end Lines

section Report
variable {n i : ℕ} {calls : List CounterCall} {f : Printf}

theorem CounterCall.labels_addressed {c : CounterCall} (h : (c.labels n i).isSome) :
    c.counterid.toInt % n = i := by
  cases c with
  | add counterid valueToAdd => exact absurd h (by simp [CounterCall.labels])
  | incr counterid => exact absurd h (by simp [CounterCall.labels])
  | label counterid src =>
    by_contra hne
    simp [CounterCall.labels, show ¬ counterid.toInt % n = i from hne] at h

theorem Labelled.addressed (h : Labelled n i calls) : Addressed n i calls := by
  obtain ⟨c, hc, hl⟩ := h
  exact ⟨c, hc, CounterCall.labels_addressed hl⟩

/-- What is printed for a counter is the line that is asked for, or nothing. -/
theorem printedLine_or_nil (f : Printf) (n i : ℕ) (calls : List CounterCall) :
    printedLine f n calls i = reportLine f n calls i ∨ printedLine f n calls i = [] := by
  by_cases hl : (lastLabel n i calls).isSome
  · have ha : Addressed n i calls := Labelled.addressed (lastLabel_isSome.mp hl)
    obtain ⟨src, hsrc⟩ := Option.isSome_iff_exists.mp hl
    refine Or.inl ?_
    rw [printedLine, reportLine, if_pos ha, hsrc]
    rfl
  · exact Or.inr (if_neg hl)

/-- LINE: it is the line that is asked for exactly when the counter was labelled, or not addressed. -/
theorem printedLine_eq_iff (f : Printf) (n i : ℕ) (calls : List CounterCall) :
    printedLine f n calls i = reportLine f n calls i ↔ (Addressed n i calls → Labelled n i calls) := by
  by_cases ha : Addressed n i calls
  · constructor
    · intro heq _
      by_contra hl
      have hnone : printedLine f n calls i = [] := if_neg fun h => hl (lastLabel_isSome.mp h)
      rw [hnone, reportLine, if_pos ha] at heq
      exact absurd heq (by simp [counterLine, ascii])
    · intro h
      have hl := lastLabel_isSome.mpr (h ha)
      obtain ⟨src, hsrc⟩ := Option.isSome_iff_exists.mp hl
      rw [printedLine, reportLine, if_pos ha, hsrc]
      rfl
  · refine ⟨fun _ h => absurd h ha, fun _ => ?_⟩
    have hnone : ¬ (lastLabel n i calls).isSome := fun h => ha (Labelled.addressed (lastLabel_isSome.mp h))
    rw [printedLine, reportLine, if_neg ha, if_neg hnone]

end Report

/-- The offsets of a created memmap are `int`s, so two tables that do not overlap have fewer than
    `2 ^ 31` counters. -/
theorem CounterTables.lt_of_create {os : Os} {ps : PageSize} {date : List UInt8} {config : Config}
    {h : Handle} {n : ℕ} {m : Mem} (hc : create os ps date config = some (h, m))
    (ht : CounterTables h n m) : n < 2147483648 := by
  have hcounters : h.counters = 256 := by
    rw [(create_eq_some hc).2]
    rfl
  have hlabels : h.counterLabels < 2147483648 := by
    rw [(create_eq_some hc).2]
    simp only [Layout.handle, calculateLayout, toInt32_lt]
  have hroom := ht.labels
  have hapart := ht.apart
  omega

/-- PRINTED: after any calls on a fresh memmap, `print_counters` prints the lines of the counters that
    have a label. -/
theorem printCounters_run {os : Os} {ps : PageSize} {date : List UInt8} {config : Config}
    {h : Handle} {n : ℕ} {m : Mem} (hc : create os ps date config = some (h, m))
    (ht : CounterTables h n m) (f : Printf) (calls : List CounterCall) :
    ∃ m', runCounterCalls h m calls = some m' ∧
      printCounters f h m' = some ((List.range n).map (printedLine f n calls)).flatten := by
  obtain ⟨-, -, -, hz⟩ := create_some hc
  obtain ⟨m', e, ht', hcells⟩ := runCounterCalls_spec ht hz calls
  have hn : (toInt32 n).toNat = n := by
    have := ht.lt_of_create hc
    rw [toInt32_of_range (by omega) (by omega), Int.toNat_natCast]
  have hlines : (List.range n).mapM (printCounter f h m') =
      some ((List.range n).map (printedLine f n calls)) := by
    refine mapM_eq_some fun i hi => ?_
    have hi := List.mem_range.mp hi
    exact (hcells i hi).printCounter_eq (ht'.counter_inBounds hi) (ht'.label_inBounds hi)
  refine ⟨m', e, ?_⟩
  rw [printCounters, ht'.hdrNumCounters_eq, Option.bind_eq_bind, Option.bind_some, hn, hlines]
  rfl

/-- REPORT: after any calls on a fresh memmap, `print_counters` prints a line for every counter that was
    addressed, with its last label or the fallback name and its value, and for no other, exactly when
    every counter that was addressed was labelled. -/
theorem counters_reported_iff {os : Os} {ps : PageSize} {date : List UInt8} {config : Config}
    {h : Handle} {n : ℕ} {m : Mem} (hc : create os ps date config = some (h, m))
    (ht : CounterTables h n m) (f : Printf) (calls : List CounterCall) :
    ∃ m', runCounterCalls h m calls = some m' ∧
      (printCounters f h m' = some (report f n calls) ↔
        ∀ i < n, Addressed n i calls → Labelled n i calls) := by
  obtain ⟨m', e, hprint⟩ := printCounters_run hc ht f calls
  refine ⟨m', e, ?_⟩
  rw [hprint, Option.some.injEq, report, flatten_eq_iff fun i _ => printedLine_or_nil f n i calls]
  simp only [printedLine_eq_iff, List.mem_range]

/-- A counter that is labelled and incremented under ids of both signs is reported. -/
theorem counters_reported_hi : ∃ m m', create ⟨true, true⟩ twoRows.ps [] twoRows.config =
    some (twoRows.handle, m) ∧
    runCounterCalls twoRows.handle m [.label (-1) ⟨[104, 105], by decide⟩, .incr 5] = some m' ∧
    printCounters quiet twoRows.handle m' =
      some (report quiet 1 [.label (-1) ⟨[104, 105], by decide⟩, .incr 5]) := by
  obtain ⟨m, hc, hm, -⟩ := twoRows.created []
  have hN : twoRows.numCounters = 1 := by decide
  have ht := hm.counterTables
  rw [hN] at ht
  obtain ⟨m', e, hiff⟩ := counters_reported_iff hc ht quiet [.label (-1) ⟨[104, 105], by decide⟩, .incr 5]
  refine ⟨m, m', hc, e, hiff.mpr fun i hi _ => ?_⟩
  obtain rfl : i = 0 := by omega
  exact ⟨_, List.mem_cons_self .., by decide⟩

/-- A counter that is only added to is not. -/
theorem counters_not_reported : ¬ ∀ (os : Os) (ps : PageSize) (date : List UInt8) (config : Config)
    (h : Handle) (n : ℕ) (m : Mem) (f : Printf) (calls : List CounterCall),
    create os ps date config = some (h, m) → CounterTables h n m →
    ∃ m', runCounterCalls h m calls = some m' ∧ printCounters f h m' = some (report f n calls) := by
  intro hall
  obtain ⟨m, hc, hm, -⟩ := twoRows.created []
  have hN : twoRows.numCounters = 1 := by decide
  have ht := hm.counterTables
  rw [hN] at ht
  obtain ⟨m₁, e₁, hreport⟩ := hall _ _ _ _ _ _ _ quiet [.add 0 7] hc ht
  obtain ⟨m₂, e₂, hprint⟩ := printCounters_run hc ht quiet [.add 0 7]
  rw [e₁, Option.some.injEq] at e₂
  rw [← e₂, hreport] at hprint
  exact absurd hprint (by decide)

end Log2mem
