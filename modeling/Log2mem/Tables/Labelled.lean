import Log2mem.Schemes.Runs
import Log2mem.Tables.Latched
import Log2mem.Tables.Tally

/-! What calls made one after the other leave in each counter.

    A counter holds a sum and a text: additions only change the sum, and each label replaces the text of
    the last one as a whole, since `strncpy` pads a short label with NULs. `used` is set by the labels
    alone; an addition does not set it.

        calls ──addressed to counter i──▶ sum of the amounts, last label
          │ run                                │
          ▼                                    ▼
        memmap ───── value, used, text ─── CounterHolds     used = 1 ◀──▶ there is a last label -/

namespace Log2mem
open Schemes

/-- The id of a call. -/
def CounterCall.counterid : CounterCall → Int32
  | add counterid _ | incr counterid | label counterid _ => counterid

/-- The label a call gives to counter `i` of `n`, if it is addressed to it. -/
def CounterCall.labels (n i : ℕ) : CounterCall → Option CStr
  | label counterid src => if counterid.toInt % n = i then some src else none
  | _ => none

/-- The label that was given to counter `i` last. -/
def lastLabel (n i : ℕ) (calls : List CounterCall) : Option CStr :=
  (calls.filterMap (CounterCall.labels n i)).getLast?

/-- One call after the other. -/
def runCounterCalls (h : Handle) : Mem → List CounterCall → Option Mem := exec fun m c => c.run h m

/-- Counter `i` holds this sum and this label; its 64 bytes of text are the label's first 63, padded
    with NULs. -/
structure CounterHolds (h : Handle) (i : ℕ) (m : Mem) (value : ℤ) (label : Option CStr) : Prop where
  value : m.word (counterAddr h i) = toU32 value
  used : m.word (counterAddr h i + 4) = if label.isSome then 1 else 0
  text : m.get (labelAddr h i) 64 = textBytes label

/-- The bytes of the counters and of their labels. -/
def counterBytes (h : Handle) (n : ℕ) : Set ℤ :=
  Set.Ico h.counters (h.counters + 8 * n) ∪ Set.Ico h.counterLabels (h.counterLabels + 64 * n)

/-! ### Histories -/

section History
variable {n i : ℕ} {calls : List CounterCall}

theorem lastLabel_concat (c : CounterCall) :
    lastLabel n i (calls ++ [c]) = (c.labels n i).or (lastLabel n i calls) := by
  rw [lastLabel, lastLabel, List.filterMap_append, List.getLast?_append]
  cases hl : c.labels n i <;> simp [hl]

theorem lastLabel_isSome : (lastLabel n i calls).isSome ↔ ∃ c ∈ calls, (c.labels n i).isSome := by
  rw [lastLabel, List.getLast?_isSome, ne_eq, List.filterMap_eq_nil_iff]
  push Not
  simp only [Option.isSome_iff_ne_none]

theorem textBytes_last (src : Option CStr) : ∃ chars, textBytes src = chars ++ [0] := by
  cases src with
  | none => exact ⟨List.replicate 63 0, by decide⟩
  | some s => exact ⟨(List.range 63).map s.buf, rfl⟩

theorem byte_of_textBytes {m : Mem} {a : ℤ} {src : Option CStr} (h : m.get a 64 = textBytes src) :
    m.byte (a + (63 : ℕ)) = 0 := by
  obtain ⟨chars, hlast⟩ := textBytes_last src
  rw [hlast, m.get_succ a 63] at h
  exact List.singleton_inj.mp (List.append_inj' h rfl).2

end History

/-! ### One call -/

section Step
variable {h : Handle} {n i k : ℕ} {m m' : Mem} {counterid : Int32}
  {value : ℕ → ℤ} {label : ℕ → Option CStr}

theorem CounterHolds.frame {S : Set ℤ} {v : ℤ} {l : Option CStr} (hc : CounterHolds h i m v l)
    (hf : Mem.Frame S m m') (hcounter : ∀ x ∈ S, x < counterAddr h i ∨ counterAddr h i + 8 ≤ x)
    (hlabel : ∀ x ∈ S, x < labelAddr h i ∨ labelAddr h i + 64 ≤ x) : CounterHolds h i m' v l := by
  refine ⟨?_, ?_, ?_⟩
  · rw [hf.word_of_outside hcounter (le_refl _) (by omega), hc.value]
  · rw [hf.word_of_outside hcounter (by omega) (by omega), hc.used]
  · rw [hf.get_of_outside hlabel (le_refl _) (by omega), hc.text]

theorem CounterTables.counterBytes_ge (ht : CounterTables h n m) : ∀ x ∈ counterBytes h n, 92 ≤ x := by
  rintro x (hx | hx)
  · exact le_trans ht.counters.1 hx.1
  · exact le_trans ht.labels.1 hx.1

/-- ADD: the addressed counter gains the amount. -/
theorem CounterHolds.add (ht : CounterTables h n m) (hid : counterid.toInt % n = k)
    (hcells : ∀ i < n, CounterHolds h i m (value i) (label i)) (valueToAdd : Int32) :
    ∃ m', log2memCounterAdd h counterid valueToAdd m = some m' ∧
      Mem.Frame (Set.Ico (counterAddr h k) (counterAddr h k + 4)) m m' ∧
      ∀ i < n, CounterHolds h i m' (value i + if (k : ℤ) = i then valueToAdd.toInt else 0) (label i) := by
  have hk := ht.mod_lt hid
  obtain ⟨m', e, w, f⟩ := ht.counterAdd_spec hid valueToAdd
  refine ⟨m', e, f, fun i hi => ?_⟩
  have hcell := hcells i hi
  have hapart := ht.counter_label hk hi
  by_cases hki : k = i
  · obtain rfl := hki
    rw [if_pos rfl]
    refine ⟨?_, ?_, ?_⟩
    · rw [w, hcell.value]
      unfold toU32
      omega
    · rw [f.word_of_Ico (Or.inr (le_refl _)), hcell.used]
    · rw [f.get_of_Ico (by omega), hcell.text]
  · rw [if_neg (by omega), add_zero]
    refine hcell.frame f (Mem.outside_Ico ?_) (Mem.outside_Ico (by omega))
    unfold counterAddr
    omega

/-- LABEL: the addressed counter is used from now on, under this label. -/
theorem CounterHolds.relabel (ht : CounterTables h n m) (hid : counterid.toInt % n = k)
    (hcells : ∀ i < n, CounterHolds h i m (value i) (label i)) (src : CStr) :
    ∃ m', log2memCounterLabel h counterid src m = some m' ∧
      Mem.Frame (Set.Ico (labelAddr h k) (labelAddr h k + 63) ∪
        Set.Ico (counterAddr h k + 4) (counterAddr h k + 8)) m m' ∧
      ∀ i < n, CounterHolds h i m' (value i) (if k = i then some src else label i) := by
  have hk := ht.mod_lt hid
  obtain ⟨m', e, g, w, f⟩ := ht.counterLabel_spec hid src
  refine ⟨m', e, f, fun i hi => ?_⟩
  have hcell := hcells i hi
  have hapart := ht.counter_label hk hi
  have hapart' := ht.counter_label hi hk
  by_cases hki : k = i
  · obtain rfl := hki
    rw [if_pos rfl]
    refine ⟨?_, w, ?_⟩
    · rw [f.word_of_outside (Mem.outside_union (by omega) (by omega)) (le_refl _) (le_refl _), hcell.value]
    · -- the label call leaves byte 63, which is the NUL of the text before
      have hkeep : m'.byte (labelAddr h k + (63 : ℕ)) = m.byte (labelAddr h k + (63 : ℕ)) := by
        refine f.byte _ ?_
        rintro (⟨h0, h1⟩ | ⟨h0, h1⟩) <;> omega
      rw [m'.get_succ _ 63, hkeep, byte_of_textBytes hcell.text, g]
      rfl
  · rw [if_neg hki]
    have hcounters : counterAddr h i + 8 ≤ counterAddr h k ∨ counterAddr h k + 8 ≤ counterAddr h i := by
      unfold counterAddr
      omega
    have hlabels : labelAddr h i + 64 ≤ labelAddr h k ∨ labelAddr h k + 64 ≤ labelAddr h i := by
      unfold labelAddr
      omega
    exact hcell.frame f (Mem.outside_union (by omega) (by omega)) (Mem.outside_union (by omega) (by omega))

/-- STEP: a call succeeds, and each counter takes from it what it is addressed with. -/
theorem CounterCall.run_spec (ht : CounterTables h n m)
    (hcells : ∀ i < n, CounterHolds h i m (value i) (label i)) (c : CounterCall) :
    ∃ m', c.run h m = some m' ∧ Mem.Frame (counterBytes h n) m m' ∧ CounterTables h n m' ∧
      ∀ i < n, CounterHolds h i m' (value i + tally n i [c]) ((c.labels n i).or (label i)) := by
  obtain ⟨-, h0, h1⟩ := ht.maskIdx_eq c.counterid
  obtain ⟨k, hid⟩ : ∃ k : ℕ, c.counterid.toInt % n = k := ⟨_, (Int.toNat_of_nonneg h0).symm⟩
  have hk : k < n := by omega
  have hvalue : Set.Ico (counterAddr h k) (counterAddr h k + 4) ⊆ counterBytes h n := by
    rintro x ⟨hx0, hx1⟩
    unfold counterAddr at hx0 hx1
    exact Or.inl ⟨by omega, by omega⟩
  have hadd : ∀ valueToAdd : Int32, ∃ m', log2memCounterAdd h c.counterid valueToAdd m = some m' ∧
      Mem.Frame (counterBytes h n) m m' ∧ CounterTables h n m' ∧ ∀ i < n,
        CounterHolds h i m' (value i + tally n i [.add c.counterid valueToAdd]) (label i) := by
    intro valueToAdd
    obtain ⟨m', e, f, hcells'⟩ := CounterHolds.add ht hid hcells valueToAdd
    have hframe := f.mono hvalue
    refine ⟨m', e, hframe, ht.frame_of hframe ht.counterBytes_ge, fun i hi => ?_⟩
    rw [tally_add, hid]
    exact hcells' i hi
  cases c with
  | add counterid valueToAdd => exact hadd valueToAdd
  | incr counterid => exact hadd 1
  | label counterid src =>
    obtain ⟨m', e, f, hcells'⟩ := CounterHolds.relabel ht hid hcells src
    have hframe := f.mono (show _ ⊆ counterBytes h n by
      rintro x (⟨hx0, hx1⟩ | ⟨hx0, hx1⟩)
      · unfold labelAddr at hx0 hx1
        exact Or.inr ⟨by omega, by omega⟩
      · unfold counterAddr at hx0 hx1
        exact Or.inl ⟨by omega, by omega⟩)
    refine ⟨m', e, hframe, ht.frame_of hframe ht.counterBytes_ge, fun i hi => ?_⟩
    have hhold := hcells' i hi
    have hlabel : (CounterCall.label counterid src).labels n i = if k = i then some src else none := by
      simp only [CounterCall.labels, show counterid.toInt % n = k from hid, Nat.cast_inj]
    rw [tally_label, add_zero, hlabel]
    by_cases hki : k = i
    · rw [if_pos hki] at hhold ⊢
      exact hhold
    · rw [if_neg hki] at hhold ⊢
      exact hhold

end Step

/-! ### Runs -/

section Run
variable {h : Handle} {n : ℕ} {m : Mem}

theorem CounterTables.fresh (ht : CounterTables h n m) (hz : ∀ x, 92 ≤ x → m.byte x = 0) {i : ℕ}
    (hi : i < n) : CounterHolds h i m (tally n i []) (lastLabel n i []) := by
  have hcounter := (ht.counter_entry hi).1
  have hlabel := (ht.label_entry hi).1
  refine ⟨?_, ?_, ?_⟩
  · rw [Mem.word_eq_zero fun x hx => hz x (by omega)]
    rfl
  · rw [Mem.word_eq_zero fun x hx => hz x (by omega)]
    rfl
  · refine List.eq_replicate_iff.mpr ⟨m.get_length .., fun b hb => ?_⟩
    obtain ⟨j, -, rfl⟩ := List.mem_map.mp hb
    exact hz _ (by omega)

/-- RUN: calls on a fresh memmap succeed, and leave in each counter the sum of the amounts added to it
    and the label it was given last. -/
theorem runCounterCalls_spec (ht : CounterTables h n m) (hz : ∀ x, 92 ≤ x → m.byte x = 0)
    (calls : List CounterCall) : ∃ m', runCounterCalls h m calls = some m' ∧ CounterTables h n m' ∧
      ∀ i < n, CounterHolds h i m' (tally n i calls) (lastLabel n i calls) := by
  refine exec_history (P := fun _ => True) (R := fun done m => CounterTables h n m ∧
    ∀ i < n, CounterHolds h i m (tally n i done) (lastLabel n i done)) ?_ (fun _ _ => trivial)
    ⟨ht, fun i hi => ht.fresh hz hi⟩
  rintro done m c ⟨ht, hcells⟩ -
  obtain ⟨m', e, -, ht', hcells'⟩ := c.run_spec ht hcells
  refine ⟨m', e, ht', fun i hi => ?_⟩
  rw [tally_append, lastLabel_concat]
  exact hcells' i hi

end Run

end Log2mem
