import Log2mem.Dump.Reported
import Log2mem.Tool.ByName

/-! The 64-byte texts of a memmap under any calls on the counters and the variables.

    No writer touches the last byte of a text but to store a NUL there, and `strncpy` pads, so from a
    zeroed memmap on every text ends inside its field and holds one label without a trace of an earlier
    one. Then the tool's copies, prints and comparisons stay inside the field as well. All of this
    needs a variable to exist: in an empty table the index is not masked, and a negative one leads an
    initialisation back into the labels.

        labels_off                      double_vars
        │ … │ text (63) NUL │ text (63) NUL │ var 0 │ …
                                  ▲ var -1, when num_vars = 0 -/

namespace Log2mem
open Schemes

/-- A call on the counters or on the variables. -/
inductive TableCall where
  | counter (c : CounterCall)
  | var (c : VarCall)

namespace TableCall

/-- The call on its own. -/
def run (h : Handle) : TableCall → Mem → Option Mem
  | counter c => c.run h
  | var c => c.run h

/-- The call on the counters, if it is one. -/
def counter? : TableCall → Option CounterCall
  | counter c => some c
  | var _ => none

/-- The call on the variables, if it is one. -/
def var? : TableCall → Option VarCall
  | counter _ => none
  | var c => some c

/-- `log2mem_counter_label` and the `log2mem_var_*_init` operations, which write texts. -/
def WritesText : TableCall → Prop
  | counter (.label ..) | var (.doubleInit ..) | var (.intInit ..) => True
  | _ => False

end TableCall

/-- One call after the other. -/
def runTableCalls (h : Handle) : Mem → List TableCall → Option Mem := exec fun m c => c.run h m

/-- The calls on the counters, in order. -/
def counterCalls (calls : List TableCall) : List CounterCall := calls.filterMap TableCall.counter?

/-- The calls on the variables, in order. -/
def varCalls (calls : List TableCall) : List VarCall := calls.filterMap TableCall.var?

/-- The 64 bytes at `a` hold the text `s`, and whatever reads them as a string stays inside: `strncpy`
    into the label of `print_counters`, `%s` and `strlen` in `print_vars`, and `strcmp` in
    `set_var_by_name` return the same on the field taken alone as on the memmap. -/
structure TextField (m : Mem) (a : ℤ) (s : Text) : Prop where
  nul : m.byte (a + 63) = 0
  text : strText (m.get a 64) = s
  copied : readLabel labelLen 0 (m.slice a 64) = some s ∧ readLabel labelLen a m = some s
  printed : printStr 0 (m.slice a 64) = some s ∧ printStr a m = some s
  compared : ∀ label : CStr,
    strcmpEq label.chars 0 (m.slice a 64) = some (decide (s = label.chars)) ∧
    strcmpEq label.chars a m = some (decide (s = label.chars))

/-- The calls return, and leave in the text of each counter the first 63 bytes of its last label and
    nothing else, in the text of each variable its first label, all of them read inside their fields. -/
def TextsKept (G : Geometry) (m : Mem) (calls : List TableCall) : Prop :=
  ∃ m', runTableCalls G.handle m calls = some m' ∧
    (∀ i < G.numCounters,
      m'.get (labelAddr G.handle i) 64 = textBytes (lastLabel G.numCounters i (counterCalls calls)) ∧
      TextField m' (labelAddr G.handle i)
        (labelText (some (lastLabel G.numCounters i (counterCalls calls))))) ∧
    ∀ (t : VarTable) (i : ℕ), i < G.numVars →
      TextField m' (t.addr G.handle i + t.width + 4)
        (labelText (firstLabel (history G.numVars i t (varCalls calls))))

/-! ### Reading a field -/

section Field
variable {m : Mem} {a : ℤ}

/-- FIELD: bytes as the writers leave them are read inside their field. -/
theorem TextField.of_bytes (hin : m.InBounds a 64) {src : Option CStr} (hget : m.get a 64 = textBytes src) :
    TextField m a (labelText (some src)) := by
  obtain ⟨hnul, htext⟩ := strText_textBytes src
  have hlen : (textBytes src).length = 64 := by rw [← hget, Mem.get_length]
  have hin' : m.InBounds a (textBytes src).length := by rwa [hlen]
  have hget' : m.get a (textBytes src).length = textBytes src := by rwa [hlen]
  have halone : (m.slice a 64).InBounds 0 (textBytes src).length := by
    rw [hlen]
    exact ⟨le_refl _, le_refl _⟩
  have hgetAlone : (m.slice a 64).get 0 (textBytes src).length = textBytes src := by
    rw [Mem.slice_get, add_zero, hget']
  obtain ⟨h0, h1⟩ := hin
  refine ⟨?_, ?_, ⟨?_, ?_⟩, ⟨?_, ?_⟩, fun label => ⟨?_, ?_⟩⟩
  · exact_mod_cast byte_of_textBytes hget
  · rw [hget, htext]
  · rw [← htext]
    exact readLabel_spec hnul (le_of_eq hlen) halone hgetAlone
  · rw [← htext]
    exact readLabel_spec hnul (le_of_eq hlen) hin' hget'
  · rw [← htext]
    exact cstr_spec hnul (by rw [hlen, Mem.slice_size]; omega) halone hgetAlone
  · rw [← htext]
    exact cstr_spec hnul (by rw [hlen]; omega) hin' hget'
  · rw [← htext]
    exact strcmpEq_spec label.nul_free hnul halone hgetAlone
  · rw [← htext]
    exact strcmpEq_spec label.nul_free hnul hin' hget'

end Field

/-! ### Runs -/

section Run
variable {G : Geometry} {m m' : Mem} {done : List TableCall}

/-- What a run leaves: every counter holds its sum and its last label, and every variable, if there are
    any, went through its history. -/
structure TablesHold (G : Geometry) (m : Mem) (done : List TableCall) : Prop where
  counters : CounterTables G.handle G.numCounters m
  counter : ∀ i < G.numCounters, CounterHolds G.handle i m
    (tally G.numCounters i (counterCalls done)) (lastLabel G.numCounters i (counterCalls done))
  vars : 1 ≤ G.numVars → VarTables G.handle G.numVars m
  var : ∀ (t : VarTable) (i : ℕ), i < G.numVars → VarHolds t G.handle i m
    ((history G.numVars i t (varCalls done)).foldl Latch.step (.fresh t.zero))
  size : (m.size : ℤ) = G.layout.size

theorem Geometry.counter_before_label {i j : ℕ} (hi : i < G.numCounters) (hj : j < G.numCounters) :
    256 ≤ counterAddr G.handle i ∧ counterAddr G.handle i + 32 ≤ labelAddr G.handle j := by
  obtain ⟨h0, h1⟩ := G.counter_room hi
  have hlabel := (G.label_room hj).1
  have hrow : G.layout.rowsOff = G.slot 0 := by simp [Geometry.slot]
  have hslot := G.slot_end G.numRows_pos
  unfold Geometry.counter at h0 h1
  unfold Geometry.label at hlabel
  exact ⟨h0, by omega⟩

theorem Geometry.counterBytes_lt (G : Geometry) {x : ℤ} (hx : x ∈ counterBytes G.handle G.numCounters) :
    x < G.layout.doubleVarsOff := by
  have hpos := G.numCounters_pos
  have hlast : G.numCounters - 1 < G.numCounters := by omega
  have hbefore := (G.counter_before_label hlast hlast).2
  have hlabel := (G.label_room hlast).2
  unfold label at hlabel
  unfold labelAddr at hlabel hbefore
  unfold counterAddr at hbefore
  rcases hx with ⟨-, hx⟩ | ⟨-, hx⟩ <;> omega

/-- COUNTER: a call on the counters leaves the variables alone. -/
theorem TablesHold.counter_step (hh : TablesHold G m done) (c : CounterCall) :
    ∃ m', c.run G.handle m = some m' ∧ TablesHold G m' (done ++ [.counter c]) := by
  obtain ⟨m', e, hf, ht', hcells⟩ := c.run_spec hh.counters hh.counter
  have hcounters : counterCalls (done ++ [.counter c]) = counterCalls done ++ [c] := by
    simp [counterCalls, TableCall.counter?]
  have hvars : varCalls (done ++ [.counter c]) = varCalls done := by simp [varCalls, TableCall.var?]
  refine ⟨m', e, ht', fun i hi => ?_, fun hpos => (hh.vars hpos).frame hf hh.counters.counterBytes_ge,
    fun t i hi => ?_, by rw [hf.size, hh.size]⟩
  · rw [hcounters, tally_append, lastLabel_concat]
    exact hcells i hi
  · rw [hvars]
    refine (hh.var t i hi).frame_of hf fun x hx => Or.inl ?_
    exact lt_of_lt_of_le (G.counterBytes_lt hx) (G.var_room t hi).1

/-- VAR: a call on the variables leaves the counters alone. -/
theorem TablesHold.var_step (hh : TablesHold G m done) (hpos : 1 ≤ G.numVars) (c : VarCall) :
    ∃ m', c.run G.handle m = some m' ∧ TablesHold G m' (done ++ [.var c]) := by
  have hv := hh.vars hpos
  obtain ⟨m', e, hv', hcells⟩ := c.run_spec hv hh.var
  have hf := VarCall.frame hv e
  have hlt : c.id.toNat % G.numVars < G.numVars := Nat.mod_lt _ hv.pos
  have hroom := (G.var_room c.table hlt).1
  have hge := (hv.entry c.table hlt).1
  unfold Geometry.var at hroom
  have hcounters : counterCalls (done ++ [.var c]) = counterCalls done := by
    simp [counterCalls, TableCall.counter?]
  have hvars : varCalls (done ++ [.var c]) = varCalls done ++ [c] := by simp [varCalls, TableCall.var?]
  refine ⟨m', e, hh.counters.frame hf hge, fun i hi => ?_, fun _ => hv', fun t i hi => ?_,
    by rw [hf.size, hh.size]⟩
  · rw [hcounters]
    have hlabel := (G.label_room hi).2
    have hbefore := (G.counter_before_label hi hi).2
    unfold Geometry.label at hlabel
    exact (hh.counter i hi).frame hf (Mem.outside_Ico (by omega)) (Mem.outside_Ico (by omega))
  · rw [hvars, foldl_history_concat]
    exact hcells t i hi

theorem Mapped.tablesHold (hm : Mapped G m) (hz : ∀ x, 92 ≤ x → m.byte x = 0) : TablesHold G m [] where
  counters := hm.counterTables
  counter _ hi := hm.counterTables.fresh hz hi
  vars hpos := hm.varTables hpos
  var t i hi := by
    have hv := hm.varTables (show 1 ≤ G.numVars by omega)
    exact FreshVars.holds (fun t x h0 _ => hz x (le_trans (hv.room t).1 h0)) t hi
  size := hm.size

/-- RUN: calls on the counters return, and so do calls on the variables if there are any. -/
theorem runTableCalls_spec (hh : TablesHold G m []) {calls : List TableCall}
    (hcalls : 1 ≤ G.numVars ∨ ∀ c ∈ calls, c.var? = none) :
    ∃ m', runTableCalls G.handle m calls = some m' ∧ TablesHold G m' calls := by
  refine exec_history (P := fun c => 1 ≤ G.numVars ∨ c.var? = none) (R := fun done m => TablesHold G m done)
    (fun done m c hh hc => ?_) (fun c hc => hcalls.imp_right fun h => h c hc) hh
  cases c with
  | counter c => exact hh.counter_step c
  | var c =>
    rcases hc with hpos | hnone
    · exact hh.var_step hpos c
    · exact absurd hnone (by simp [TableCall.var?])

theorem VarHolds.textBytes {t : VarTable} {h : Handle} {i : ℕ} {c : Latch t.Value (Option CStr)}
    (hc : VarHolds t h i m c) : m.get (t.addr h i + t.width + 4) 64 = textBytes c.label.join := by
  rw [hc.text, textBytes_eq]
  rcases c.label with _ | _ | s <;> rfl

/-- What a run leaves is read inside the fields. -/
theorem TablesHold.textsKept {calls : List TableCall} (hh : TablesHold G m' calls)
    (hrun : runTableCalls G.handle m calls = some m') : TextsKept G m calls := by
  refine ⟨m', hrun, fun i hi => ?_, fun t i hi => ?_⟩
  · have htext := (hh.counter i hi).text
    exact ⟨htext, .of_bytes (hh.counters.label_inBounds hi) htext⟩
  · obtain ⟨h0, h1⟩ := (hh.vars (by omega)).entry t hi
    obtain ⟨hw, hs⟩ := t.width_size
    have htext := (hh.var t i hi).textBytes
    rw [Latch.run_eq] at htext
    have hfield := TextField.of_bytes ⟨by omega, by push_cast; omega⟩ htext
    have hjoin : ∀ label : Option (Option CStr), labelText (some label.join) = labelText label := by
      rintro (_ | _ | s) <;> rfl
    rwa [hjoin] at hfield

end Run

/-! ### Without variables -/

section Empty
variable {G : Geometry} {m : Mem}

/-- Without variables the id `2 ^ 32 - 1` stands for the entry before the first variable, which starts 16
    bytes before the last label. -/
theorem Geometry.stray_entry (G : Geometry) :
    VarTable.double.addr G.handle (maskIdx (4294967295 : UInt32).toNat 0) =
      labelAddr G.handle (G.numCounters - 1 : ℕ) - 16 := by
  have hpos := G.numCounters_pos
  have hidx : maskIdx (4294967295 : UInt32).toNat 0 = -1 := by
    rw [maskIdx_zero]
    decide
  have hexact : G.layout.doubleVarsOff = G.layout.counterLabelsOff + up8 (G.numCounters * 64) := by
    rw [G.sound.exact]
    rfl
  unfold up8 at hexact
  rw [hidx]
  unfold VarTable.addr labelAddr Geometry.handle Layout.handle VarTable.base VarTable.size
  simp only
  push_cast
  omega

/-- Relabel the last counter, then initialise a variable that does not exist. -/
def strayCalls : List TableCall :=
  [.counter (.label (-1) ⟨[120], by decide⟩),
    .var (.doubleInit 4294967295 0 (some ⟨[98, 99, 100, 101, 102], by decide⟩))]

theorem Geometry.last_counter (G : Geometry) :
    (-1 : Int32).toInt % G.numCounters = (G.numCounters - 1 : ℕ) := by
  have hpos := G.numCounters_pos
  rw [show (-1 : Int32).toInt = -1 by decide, ← Int.add_emod_right, Int.emod_eq_of_lt (by omega) (by omega)]
  omega

/-- STRAY: without variables the initialisation is stored over the text of the last counter. -/
theorem stray_stored (hm : Mapped G m) (hz : ∀ x, 92 ≤ x → m.byte x = 0) (hzero : G.numVars = 0) :
    ∃ m', runTableCalls G.handle m strayCalls = some m' ∧
      m'.byte (labelAddr G.handle (G.numCounters - 1 : ℕ)) = 102 := by
  have hpos := G.numCounters_pos
  have hlast : G.numCounters - 1 < G.numCounters := by omega
  have hentry := G.stray_entry
  obtain ⟨hheader, hbefore⟩ := G.counter_before_label hlast hlast
  obtain ⟨-, hin⟩ := hm.counterTables.label_entry hlast
  -- the label call leaves the 16 bytes before the text alone
  obtain ⟨m₁, e₁, -, -, f₁⟩ := hm.counterTables.counterLabel_spec G.last_counter ⟨[120], by decide⟩
  set a := labelAddr G.handle (G.numCounters - 1 : ℕ)
  have hnum : hdrNumVars m₁ = some 0 := by
    rw [hdrNumVars, Mem.load32_eq ⟨by omega, by rw [f₁.size]; omega⟩,
      f₁.word_of_outside (Mem.outside_union (by omega) (by omega)) (le_refl _) (le_refl _)]
    exact congrArg some (hm.header.numVars.trans hzero)
  have hflags : m₁.word (a - 16 + VarTable.double.width) = 0 := by
    have hw : ((VarTable.double.width : ℕ) : ℤ) = 8 := rfl
    rw [hw, f₁.word_of_outside (Mem.outside_union (by omega) (by omega)) (le_refl _) (le_refl _)]
    exact Mem.word_eq_zero fun x hx => hz x (by omega)
  -- so the initialisation goes ahead, and its text starts four bytes before the label
  obtain ⟨m₂, e₂, -, hdone, -⟩ := varInit_at (h := G.handle) (m := m₁) (t := .double) (a := a - 16)
    hnum hentry
    ⟨by omega, by rw [f₁.size]; simp only [VarTable.size]; push_cast; omega⟩ 0
    (some ⟨[98, 99, 100, 101, 102], by decide⟩)
  obtain ⟨-, -, htext⟩ := hdone (by rw [hflags]; rfl)
  rw [Option.isSome_some, if_pos rfl] at htext
  have hbyte := congrArg (fun bs => bs[4]?) htext
  simp only [Mem.getElem?_get _ _ (show 4 < 64 by omega)] at hbyte
  rw [show a - 16 + (VarTable.double.width : ℕ) + 4 + (4 : ℕ) = a by
    simp only [VarTable.width]; push_cast; omega] at hbyte
  have hcalls : runTableCalls G.handle m strayCalls =
      (log2memCounterLabel G.handle (-1) ⟨[120], by decide⟩ m).bind fun m₁ =>
        (varInit .double G.handle 4294967295 0 (some ⟨[98, 99, 100, 101, 102], by decide⟩) m₁).bind
          some := rfl
  refine ⟨m₂, ?_, Option.some.inj (hbyte.trans (by decide))⟩
  rw [hcalls, e₁, Option.bind_some, e₂, Option.bind_some]

theorem not_textsKept (hm : Mapped G m) (hz : ∀ x, 92 ≤ x → m.byte x = 0) (hzero : G.numVars = 0) :
    ¬ TextsKept G m strayCalls := by
  have hpos := G.numCounters_pos
  have hlabel : (CounterCall.label (-1) ⟨[120], by decide⟩).labels G.numCounters (G.numCounters - 1) =
      some ⟨[120], by decide⟩ := if_pos G.last_counter
  have hname : lastLabel G.numCounters (G.numCounters - 1) (counterCalls strayCalls) =
      some ⟨[120], by decide⟩ := by
    have hcalls : counterCalls strayCalls = [.label (-1) ⟨[120], by decide⟩] := rfl
    rw [hcalls, lastLabel, List.filterMap_cons, hlabel]
    rfl
  obtain ⟨m₂, e₂, hstray⟩ := stray_stored hm hz hzero
  rintro ⟨m', hrun, hcounters, -⟩
  rw [e₂, Option.some.injEq] at hrun
  have hkept := congrArg (fun bs => bs[0]?) (hcounters (G.numCounters - 1) (by omega)).1
  simp only [Mem.getElem?_get _ _ (show 0 < 64 by omega), hname] at hkept
  rw [Nat.cast_zero, add_zero, ← hrun, hstray] at hkept
  exact absurd hkept (by decide)

end Empty

/-- TEXTS: on a fresh memmap every run of labels and initialisations keeps the texts, each with its last
    or first label alone and read inside its 64 bytes, exactly when there is a variable; any calls on
    the counters and variables keep them then, and calls on the counters alone keep them always. -/
theorem texts_kept_iff {G : Geometry} {os : Os} {date : List UInt8} {m : Mem}
    (hc : create os G.ps date G.config = some (G.handle, m)) :
    ((∀ calls : List TableCall, (∀ c ∈ calls, c.WritesText) → TextsKept G m calls) ↔ 1 ≤ G.numVars) ∧
    ∀ calls : List TableCall, (1 ≤ G.numVars ∨ ∀ c ∈ calls, c.var? = none) → TextsKept G m calls := by
  obtain ⟨-, hm, -, hz⟩ := G.of_create hc
  have hkept : ∀ calls : List TableCall, (1 ≤ G.numVars ∨ ∀ c ∈ calls, c.var? = none) →
      TextsKept G m calls := by
    intro calls hcalls
    obtain ⟨m', e, hh⟩ := runTableCalls_spec (hm.tablesHold hz) hcalls
    exact hh.textsKept e
  refine ⟨⟨fun hall => ?_, fun hpos calls _ => hkept calls (Or.inl hpos)⟩, hkept⟩
  by_contra hzero
  refine not_textsKept hm hz (by omega) (hall strayCalls ?_)
  simp [strayCalls, TableCall.WritesText]

/-- A counter labelled with 70 bytes and then with two shows the two. -/
theorem texts_kept_hi : ∃ m m', create ⟨true, true⟩ twoRows.ps [] twoRows.config =
    some (twoRows.handle, m) ∧
    runTableCalls twoRows.handle m [.counter (.label 0 ⟨List.replicate 70 120, by decide⟩),
      .counter (.label 5 ⟨[104, 105], by decide⟩)] = some m' ∧
    printStr (labelAddr twoRows.handle 0) m' = some [104, 105] := by
  obtain ⟨m, hc, -⟩ := twoRows.created []
  have hN : twoRows.numCounters = 1 := by decide
  obtain ⟨m', e, hcounters, -⟩ := (texts_kept_iff hc).2 [.counter (.label 0 ⟨List.replicate 70 120, by decide⟩),
    .counter (.label 5 ⟨[104, 105], by decide⟩)] (Or.inl (by decide))
  have hprint := (hcounters 0 (by rw [hN]; decide)).2.printed.2
  rw [hN] at hprint
  exact ⟨m, m', hc, e, hprint⟩

/-- A memmap without variables. -/
def noVars : Geometry := .of page4096 ⟨0, 1, 2, 16, 0⟩ (by decide)

/-- Without variables a counter shows the tail of a text that was meant for a variable. -/
theorem texts_not_kept : ¬ ∀ (G : Geometry) (os : Os) (date : List UInt8) (m : Mem),
    create os G.ps date G.config = some (G.handle, m) →
    ∀ calls : List TableCall, (∀ c ∈ calls, c.WritesText) → TextsKept G m calls := by
  intro hall
  obtain ⟨m, hc, hm, -, hz⟩ := noVars.created []
  refine not_textsKept hm hz (by decide) (hall noVars _ _ m hc strayCalls ?_)
  simp [strayCalls, TableCall.WritesText]

end Log2mem
