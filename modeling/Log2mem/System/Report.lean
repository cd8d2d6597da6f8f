import Log2mem.Dump.Summary
import Log2mem.System.Holds

/-! What the tool prints of a memmap is a report of the store it holds.

    The report is a function of the store, the header and the options of the tool; the printers compute it
    from the bytes. Rows are reported from the current round of the row ids on, the rows of the round
    before behind them.

        memmap ──print_summary, print_rows, print_counters, print_vars──▶ text
          │ StoreHolds                                                     ‖
        store ──────────────────────── report ────────────────────────▶ text -/

namespace Log2mem
open Schemes

/-! ### The report of a store -/

/-- What is put between two values. -/
def Globals.sep (g : Globals) : Text := if g.showdelim then g.delim else []

/-- The text of a source location, `"(%s:"` and `"%d) "`, unless `g_terse`. -/
def Item.location (g : Globals) (f : Printf) : Item → Text
  | .filename s => if g.terse then [] else [40] ++ s ++ [58]
  | .value (.lineno d) => if g.terse then [] else f.int d.toInt ++ [41, 32]
  | _ => []

/-- The items of a row: its location, and its values with the delimiter between them. -/
def itemsText (g : Globals) (f : Printf) (row : List Item) : Text :=
  (row.filter Item.isLocation).flatMap (Item.location g f) ++
    g.sep.intercalate ((row.filter fun x => !x.isLocation).map (Item.show f))

/-- The line of a row; a row without items has none. -/
def Entry.report (g : Globals) (f : Printf) (options : ℕ) (e : Entry) : Text :=
  if e.items = [] then []
  else stampText g f options e.number e.stamp ++ itemsText g f e.items ++ [10]

/-- The entries of the current round of the row ids, and those of the round before behind them. -/
def currentFirst (log : Queue Entry) : List Entry :=
  let current := fun e : Entry => decide (e.number / 4294967296 = (log.next - 1) / 4294967296)
  log.rows.filter current ++ log.rows.filter fun e => !current e

/-- The line of a counter, if it has a label. -/
def Counter.report (f : Printf) (i : ℕ) (c : Counter) : Text :=
  if c.label.isSome then counterLine f i (labelText (some c.label)) (toInt32 c.value) else []

/-- The line of a variable, if it is in use. -/
def varReport (f : Printf) (t : VarTable) (i : ℕ) (l : Latch t.Value (Option CStr)) : Text :=
  if l.used then
    ascii t.name ++ f.int i ++ ascii "] " ++ labelText l.label ++
      (if labelText l.label = [] then [] else [32]) ++ ascii ": " ++ t.format f (t.bits l.value) ++ [10]
  else []

/-- The header shown of a memmap that was created at `date`. -/
def Store.header (date : List UInt8) (S : Store) : HeaderShown where
  datecreated := strText (date.take 30)
  nextrow := S.log.next % 4294967296
  version := 2
  arch := 64
  flags := 1

/-- The report of a section. -/
def Store.report (g : Globals) (f : Printf) (G : Geometry) (date : List UInt8) (S : Store) : Section → Text
  | .summary => configText f G.cfg (S.header date) ++ architectureText f (S.header date) ++
      offsetsText f G.layout ++ structuresText f
  | .rows => (currentFirst S.log).flatMap (Entry.report g f G.shape.options)
  | .counters => (List.range G.shape.counters).flatMap fun i => (S.counters i).report f i
  | .vars => [VarTable.double, .int].flatMap fun t =>
      (List.range G.shape.vars).flatMap fun i => varReport f t i (S.vars t i)

/-- Numbers of one digit. -/
def oneDigit : Printf where
  int d := [UInt8.ofNat (48 + d.toNat)]
  uint d := [UInt8.ofNat (48 + d)]
  long d := [UInt8.ofNat (48 + d.toNat)]
  float _ := []
  double _ := []
  clock _ _ _ := []

/-! ### The rows -/

section Items
variable {g : Globals} {f : Printf}

/-- For values it makes no difference whether the output is terse, nor how the delimiter is left out. -/
theorem recsText_plain : ∀ {recs : List Rec} {b : Bool},
    (∀ r ∈ recs, r.type ≠ .filename ∧ r.type ≠ .lineno) →
    recsText g f b recs = recsText ⟨true, true, g.sep⟩ f b recs
  | [], b, _ => rfl
  | r :: recs, b, h => by
    have hrec : recText g f r = recText ⟨true, true, g.sep⟩ f r := by
      obtain ⟨hf, hl⟩ := h r (List.mem_cons_self ..)
      unfold recText
      split <;> first | rfl | contradiction
    have ih := fun b => recsText_plain (b := b) fun x hx => h x (List.mem_cons_of_mem r hx)
    simp only [recsText, hrec, ih, Globals.sep]
    cases g.showdelim <;> cases b <;> rfl

theorem Item.type_stored {x : Item} (h : x.isLocation = false) :
    x.stored.type ≠ .filename ∧ x.stored.type ≠ .lineno := by
  cases x with
  | filename s => simp [Item.isLocation] at h
  | text s => simp [Item.stored]
  | value v => cases v <;> simp_all [Item.isLocation, Item.stored, Value.type]

theorem recText_location {x : Item} (h : x.NulFree) (hl : x.isLocation = true) :
    recText g f x.stored = (x.location g f, false) := by
  cases x with
  | filename s => simp [recText, Item.stored, Item.location, strText_nul h]
  | text s => simp [Item.isLocation] at hl
  | value v =>
    cases v with
    | lineno d =>
      have hlt : d.toUInt32.toNat % 256 ^ 4 = d.toUInt32.toNat := Nat.mod_eq_of_lt d.toUInt32.toNat_lt
      simp only [recText, Item.stored, Value.type, Value.bytes, Item.location, ofLe_leBytes, hlt,
        toInt32_int32]
    | _ => simp [Item.isLocation] at hl

/-- ITEMS: a row that is fit to be printed prints its location and its values. -/
theorem GoodRow.recsText_eq {row : List Item} (h : GoodRow row) :
    (recsText g f false (row.map Item.stored)).1 = itemsText g f row := by
  obtain ⟨hn, locs, vals, rfl, hlocs, hvals⟩ := h
  induction locs with
  | nil =>
    have hplain : recsText g f false (vals.map Item.stored) =
        recsText ⟨true, true, g.sep⟩ f false (vals.map Item.stored) := recsText_plain fun r hr => by
      obtain ⟨x, hx, rfl⟩ := List.mem_map.mp hr
      exact Item.type_stored (hvals x hx)
    rw [List.nil_append, hplain, recsText_vals rfl rfl f (by simpa using hn) hvals, itemsText,
      List.filter_eq_nil_iff.mpr fun x hx => by simp [hvals x hx],
      List.filter_eq_self.mpr fun x hx => by simp [hvals x hx]]
    simp
  | cons x locs ih =>
    have hx := hlocs x (by simp)
    have ih := ih (fun y hy => hn y (List.mem_cons_of_mem x hy))
      fun y hy => hlocs y (List.mem_cons_of_mem x hy)
    rw [List.cons_append, List.map_cons, recsText, recText_location (hn x (by simp)) hx]
    simp only [Bool.and_false, Bool.false_eq_true, if_false, List.nil_append, ih]
    simp [itemsText, hx]

end Items

section Rows
variable {G : Geometry} {date : List UInt8} {s : LogState} {S : Store} {c : ℕ → Entry} {g : Globals}
  {f : Printf}

theorem currentFirst_eq {n : ℕ} (hq : S.log.Shows G.numRows n c)
    (hnumber : ∀ k, Retained G.numRows n k → (c k).number = k) :
    currentFirst S.log = (visitOrder 4294967296 G.numRows n).map c := by
  have hfilter : ∀ p : ℕ → Bool, S.log.rows.filter (fun e => p e.number) =
      ((window G.numRows n).filter p).map c := fun p => by
    rw [hq.rows, List.filter_map]
    refine congrArg (List.map c) (List.filter_congr fun k hk => ?_)
    rw [Function.comp, hnumber k (mem_window.mp hk)]
  rw [currentFirst, hq.next_eq, visitOrder_eq_filter (by decide), List.map_append,
    ← hfilter, ← hfilter]

/-- ROW: a kept row prints its line. -/
theorem RowsHold.line_eq (h : RowsHold G s c) {k : ℕ} (hk : Retained G.numRows s.rows.length k) :
    (rowLines G g f s.mem (fun k => (c k).items.map Item.stored) k).flatMap Printed.text =
      (c k).report g f G.shape.options := by
  have hslot : k % G.numRows < G.numRows := Nat.mod_lt _ G.numRows_pos
  have hmapped := h.log.rest.mapped
  have hsize := hmapped.size_ge
  have hprefix := (h.stamped k hk).rowPrefix_eq (hmapped.header.hdrOptions_eq (by omega))
    (hmapped.slot_inBounds hslot) (h.log.rest.id k hk) g f
  simp only [rowLines, Entry.report]
  by_cases hnil : (c k).items = []
  · simp [hnil]
  · have hne : recFormat.total ((c k).items.map Item.stored) ≠ 0 := fun h0 =>
      hnil (by simpa using recFormat.total_eq_zero h0)
    rw [if_neg hne, if_neg hnil, List.flatMap_singleton, rowLine, hprefix, Option.getD_some,
      (h.log.good k hk).recsText_eq, h.number k hk]
    rfl

/-- ROWS: `print_rows` prints the report of the log. -/
theorem StoreHolds.printRows_eq (h : StoreHolds G date s S) {fuel : ℕ} (hfuel : G.rowLen < fuel) :
    (printRows g f fuel G.handle s.mem).map (fun lines => lines.flatMap Printed.text) =
      some (S.report g f G date .rows) := by
  obtain ⟨c, hrows, hq⟩ := h.rows
  rw [hrows.log.rest.printRows_eq g f hfuel, Option.map_some, Store.report,
    currentFirst_eq hq hrows.number, List.flatMap_assoc, List.flatMap_map]
  exact congrArg some (List.flatMap_congr fun k hk => hrows.line_eq (mem_visitOrder.mp hk))

end Rows

/-! ### The tables and the header -/

section Tables
variable {G : Geometry} {date : List UInt8} {s : LogState} {S : Store} {g : Globals} {f : Printf}

/-- COUNTERS: `print_counters` prints the report of the counters. -/
theorem StoreHolds.printCounters_eq (h : StoreHolds G date s S) :
    printCounters f G.handle s.mem = some (S.report g f G date .counters) := by
  have ht := h.mapped.counterTables
  have hn : (toInt32 G.numCounters).toNat = G.numCounters := by
    have hcounters := G.sections.1
    have horder := G.section_order
    have hsize := G.size_lt
    rw [toInt32_of_range (by omega) (by unfold Geometry.numCounters; omega), Int.toNat_natCast]
  have hlines : (List.range G.numCounters).mapM (printCounter f G.handle s.mem) =
      some ((List.range G.numCounters).map fun i => (S.counters i).report f i) := by
    refine mapM_eq_some fun i hi => ?_
    have hi := List.mem_range.mp hi
    exact (h.counters i hi).printCounter_eq (ht.counter_inBounds hi) (ht.label_inBounds hi)
  rw [printCounters, ht.hdrNumCounters_eq, Option.bind_eq_bind, Option.bind_some, hn, hlines]
  rfl

theorem VarHolds.printVar_eq {t : VarTable} {h : Handle} {n i : ℕ} {m : Mem}
    {l : Latch t.Value (Option CStr)} (hc : VarHolds t h i m l) (hv : VarTables h n m) (hi : i < n)
    (hlt : i < 2147483648) : printVar f h m t i = some (varReport f t i l) := by
  obtain ⟨h0, h1⟩ := hv.entry t hi
  obtain ⟨hw, hs⟩ := t.width_size
  obtain ⟨hnul, htext⟩ := hc.varText_eq
  have hflags : m.load32 (t.addr h i + t.width) = some (latchFlags l) := by
    rw [Mem.load32_eq ⟨by omega, by push_cast; omega⟩, hc.flags]
  have hstr : printStr (t.addr h i + t.width + 4) m = some (labelText l.label) := by
    rw [← htext]
    exact cstr_spec hnul (by rw [Mem.get_length]; omega)
      (by rw [Mem.get_length]; exact ⟨by omega, by push_cast; omega⟩) (by rw [Mem.get_length])
  have hvalue : m.load (t.addr h i) t.width = some (leBytes t.width (t.bits l.value)) := by
    rw [Mem.load_eq ⟨by omega, by omega⟩, hc.value]
  have hbits : ofLe (leBytes t.width (t.bits l.value)) = t.bits l.value := by
    rw [ofLe_leBytes, Nat.mod_eq_of_lt (t.bits_lt l.value)]
  simp only [printVar, hflags, latchFlags_used, Option.bind_eq_bind, Option.bind_some, varReport,
    hstr, hvalue, hbits, toInt32_of_range (show (-2147483648 : ℤ) ≤ (i : ℤ) by omega)
      (show (i : ℤ) < 2147483648 by omega)]
  cases l.used with
  | false => rfl
  | true => rfl

/-- VARS: `print_vars` prints the report of the variables. -/
theorem StoreHolds.printVars_eq (h : StoreHolds G date s S) (hn : 1 ≤ G.numVars) :
    printVars f G.handle s.mem = some (S.report g f G date .vars) := by
  have hv := h.mapped.varTables hn
  have hlt : G.numVars < 2147483648 := by
    have hvars := G.sections.2.2.2
    have horder := G.section_order
    have hsize := G.size_lt
    unfold Geometry.numVars
    omega
  have hlines : ∀ t : VarTable, (List.range G.numVars).mapM (printVar f G.handle s.mem t) =
      some ((List.range G.numVars).map fun i => varReport f t i (S.vars t i)) := fun t => by
    refine mapM_eq_some fun i hi => ?_
    have hi := List.mem_range.mp hi
    exact (h.vars t i hi).printVar_eq hv hi (by omega)
  simp only [printVars, hv.hdrNumVars_eq, Option.bind_eq_bind, Option.bind_some, hlines,
    Option.pure_def, Store.report, List.flatMap_cons, List.flatMap_nil, List.append_nil]
  rfl

theorem strText_append_nul (rest : List UInt8) : ∀ d : List UInt8, strText (d ++ 0 :: rest) = strText d
  | [] => by simp [strText]
  | c :: d => by
    have ih := strText_append_nul rest d
    unfold strText at ih ⊢
    rw [List.cons_append, List.takeWhile_cons, List.takeWhile_cons, ih]

/-- The summary of a memmap that was created at `date`, after `next` acquisitions. -/
def Geometry.summary (G : Geometry) (f : Printf) (date : List UInt8) (next : ℕ) : Text :=
  let shown : HeaderShown := ⟨strText (date.take 30), next % 4294967296, 2, 64, 1⟩
  configText f G.cfg shown ++ architectureText f shown ++ offsetsText f G.layout ++ structuresText f

/-- SUMMARY: `print_summary` prints the config, the header and the sections. -/
theorem Mapped.printSummary_eq {m : Mem} {n : ℕ} (hm : Mapped G m) (hh : HeaderHolds date m)
    (hnext : m.word 28 = n % 4294967296) : printSummary f G.ps m = some (G.summary f date n) := by
  have hsize := hm.size_ge
  have hlen : (date.take 30).length ≤ 30 := by simp
  have hload : ∀ a : ℤ, 0 ≤ a → a + 4 ≤ 92 → m.load32 a = some (m.word a) := fun a h0 h1 =>
    Mem.load32_eq ⟨h0, by omega⟩
  obtain ⟨k, hk⟩ : ∃ k, 32 - (date.take 30).length = k + 1 := ⟨31 - (date.take 30).length, by omega⟩
  have hdate := hh.date
  rw [datecreated, hk, List.replicate_succ] at hdate
  have hstr : printStr 60 m = some (strText (date.take 30)) := by
    rw [← strText_append_nul (List.replicate k 0)]
    refine cstr_spec (by simp) ?_ ⟨by omega, ?_⟩ ?_
    all_goals rw [← hdate, Mem.get_length]
    all_goals omega
  simp only [printSummary, hm.header.loadConfig_eq (show 52 ≤ m.size by omega), hstr, hdrNextrow,
    hload 28 (by omega) (by omega), hload 52 (by omega) (by omega), hload 56 (by omega) (by omega),
    hload 24 (by omega) (by omega), hh.version, hh.flags, hm.header.arch, hnext,
    Option.bind_eq_bind, Option.bind_some, Option.pure_def, ← G.layout_eq]
  rfl

theorem StoreHolds.printSummary_eq (h : StoreHolds G date s S) :
    printSummary f G.ps s.mem = some (S.report g f G date .summary) := by
  have hnext : s.mem.word 28 = S.log.next % 4294967296 := by
    obtain ⟨c, hrows, -⟩ := h.rows
    rw [h.next_eq]
    exact hrows.log.nextrow
  exact h.mapped.printSummary_eq h.header hnext

/-- REPORT: every section prints its report. -/
theorem StoreHolds.printSection_eq (h : StoreHolds G date s S) (hn : 1 ≤ G.numVars) {fuel : ℕ}
    (hfuel : G.rowLen < fuel) (sec : Section) :
    printSection g f fuel G.ps G.handle s.mem sec = some (S.report g f G date sec) := by
  cases sec with
  | summary => exact h.printSummary_eq
  | rows => exact h.printRows_eq hfuel
  | counters => exact h.printCounters_eq
  | vars => exact h.printVars_eq hn

theorem StoreHolds.printSections_eq (h : StoreHolds G date s S) (hn : 1 ≤ G.numVars) {fuel : ℕ}
    (hfuel : G.rowLen < fuel) (shown : List Section) :
    printSections g f fuel G.ps G.handle s.mem shown = some (shown.flatMap (S.report g f G date)) := by
  rw [printSections, mapM_eq_some fun sec _ => h.printSection_eq hn hfuel sec]
  rfl

end Tables

end Log2mem
