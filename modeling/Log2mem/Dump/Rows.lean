import Log2mem.Dump.RoundTrip
import Log2mem.Ring.Geometry
import Log2mem.Schemes.Traverse
import Log2mem.Schemes.Wrap

/-! `print_rows`: the scan for the lowest row id, the visit of the slots from there, and one line for
    each row with data.

        lowest id ──▶ slot lowest % num_rows ──▶ next slot ──▶ …        (num_rows slots, wrapping)
                            │ datalen = 0: skip
                            ▼ prefix, records, newline -/

namespace Log2mem
open Schemes

/-- The address of slot `i` in `print_rows`: an `unsigned` product. -/
def dumpRowAddr (rows : ℤ) (i : ℕ) (rowLen : ℕ) : ℤ :=
  rows + toU32 (i * toInt32 (calcRowTotalSize rowLen))

/-- "scan all the rows, looking for the lowest rowid" -/
def lowestRowid (h : Handle) (m : Mem) : Option ℕ := do
  let numRows ← hdrNumRows m
  let rowLen ← hdrRowLen m
  (List.range numRows).foldlM (fun lowest i => do
    let id ← rowId (dumpRowAddr h.rows i rowLen) m
    return if id ≤ lowest then id else lowest) 4294967295

/-- The time of a row under `options & MEMLOG_CLOCKSOURCE_MASK`: `log2mem_ts_to_timeval` and
    `log2mem_ts_to_timespec` split it into 34 bits of seconds and 30 bits of nanoseconds. -/
def clockText (f : Printf) (options ts : ℕ) : Text :=
  match options &&& 12 with
  | 12 => f.uint ts ++ [32]
  | 4 => f.clock (ts / 1073741824 % 17179869184) (ts % 1073741824 / 1000) 6 ++ [32]
  | 8 => f.clock (ts / 1073741824 % 17179869184) (ts % 1073741824) 9 ++ [32]
  | _ => []

/-- What precedes the records of a row: id, time and thread id, unless `g_terse`. -/
def rowPrefix (g : Globals) (f : Printf) (r : ℤ) (m : Mem) : Option Text := do
  if g.terse then return []
  let id ← rowId r m
  let options ← hdrOptions m
  let ts ← if options &&& 12 = 0 then pure 0 else m.load64 (r + 8)
  let tid ← if options &&& optThreadId = 0 then pure []
    else (m.load32 r).map fun tid => [91] ++ f.int (toInt32 tid) ++ [93, 32]      -- "[%i] "
  return f.int (toInt32 id) ++ [32] ++ clockText f options ts ++ tid

/-- A printed line, and the row it was printed for. -/
structure Printed where
  row : ℤ
  text : Text

/-- One row of the visit; a row without data is skipped. -/
def printRow (g : Globals) (f : Printf) (fuel : ℕ) (r : ℤ) (m : Mem) : Option (List Printed) := do
  if (← rowDatalen r m) = 0 then return []
  let start ← rowPrefix g f r m
  let w ← walk g f r fuel .start m
  return [⟨r, start ++ w.out ++ [10]⟩]

/-- `print_rows`; `fuel` bounds the iterations of each record walk. -/
def printRows (g : Globals) (f : Printf) (fuel : ℕ) (h : Handle) (m : Mem) :
    Option (List Printed) := do
  let numRows ← hdrNumRows m
  let rowLen ← hdrRowLen m
  let lowest ← lowestRowid h m
  let lines ← (List.range numRows).mapM fun (i : ℕ) =>
    printRow g f fuel (dumpRowAddr h.rows (toU32 (lowest + i) &&& toU32 (numRows - 1)) rowLen) m
  return lines.flatten

/-! ### The rows of a memmap at rest -/

/-- What `n` acquisitions leave behind once all writers have finished: each retained row in its slot
    under its id, and blank slots where nothing was written. -/
structure AtRest (G : Geometry) (m : Mem) (n : ℕ) (rows : ℕ → List Rec) : Prop where
  mapped : Mapped G m
  id : ∀ k, Retained G.numRows n k → m.word (G.slot (k % G.numRows) + 16) = k % 4294967296
  holds : ∀ k, Retained G.numRows n k → RowHolds G.rowLen m (G.slot (k % G.numRows)) (rows k)
  typed : ∀ k, Retained G.numRows n k → ∀ x ∈ rows k, x.WellTyped
  blank : ∀ j, n ≤ j → j < G.numRows → m.word (G.slot j + 16) = 0 ∧ m.word (G.slot j + 20) = 0

theorem AtRest.start {G : Geometry} {m : Mem} (hm : Mapped G m) (hz : ∀ x, 92 ≤ x → m.byte x = 0) :
    AtRest G m 0 fun _ => [] where
  mapped := hm
  id k hk := absurd hk.1 (Nat.not_lt_zero k)
  holds k hk := absurd hk.1 (Nat.not_lt_zero k)
  typed k hk := absurd hk.1 (Nat.not_lt_zero k)
  blank j _ _ := by
    have hbase := G.slot_base j
    exact ⟨Mem.word_eq_zero fun x hx => hz x (by omega), Mem.word_eq_zero fun x hx => hz x (by omega)⟩

/-- The line of a row holding `recs`. -/
def rowLine (g : Globals) (f : Printf) (m : Mem) (r : ℤ) (recs : List Rec) : Text :=
  (rowPrefix g f r m).getD [] ++ (recsText g f false recs).1 ++ [10]

section Rest
variable {G : Geometry} {m : Mem} {n : ℕ} {rows : ℕ → List Rec}

theorem Geometry.dumpRowAddr_eq (G : Geometry) {j : ℕ} (hj : j < G.numRows) :
    dumpRowAddr G.handle.rows j G.rowLen = G.slot j := by
  have hroom := G.slot_room hj
  have hsize := G.size_lt
  have hrows := G.sections.1
  have hnn : 0 ≤ (j : ℤ) * (24 + G.rowLen) := by positivity
  have hcalc : calcRowTotalSize G.rowLen = 24 + G.rowLen := calcRowTotalSize_eq G.cfg.rowLen
  have hlen := G.rowLen_lt
  unfold slot at hroom ⊢
  rw [dumpRowAddr, hcalc, handle, Layout.handle]
  push_cast
  rw [toInt32_of_range (x := 24 + (G.rowLen : ℤ)) (by omega) (by omega),
    toU32_of_range (by omega) (by omega)]

/-- The scan finds a stored id, and none is lower. -/
theorem foldl_lowest (ids : ℕ → ℕ) : ∀ (js : List ℕ) (a : ℕ),
    let r := js.foldl (fun lowest j => if ids j ≤ lowest then ids j else lowest) a
    r ≤ a ∧ (∀ j ∈ js, r ≤ ids j) ∧ (r = a ∨ ∃ j ∈ js, r = ids j)
  | [], a => ⟨le_refl a, by simp, Or.inl rfl⟩
  | j :: js, a => by
    obtain ⟨h1, h2, h3⟩ := foldl_lowest ids js (if ids j ≤ a then ids j else a)
    simp only [List.foldl_cons]
    refine ⟨h1.trans (by split <;> omega), fun j' hj' => ?_, ?_⟩
    · rcases List.mem_cons.mp hj' with rfl | hj'
      · exact h1.trans (by split <;> omega)
      · exact h2 j' hj'
    · rcases h3 with h3 | ⟨j', hj', h3⟩
      · by_cases hlt : ids j ≤ a
        · exact Or.inr ⟨j, List.mem_cons_self .., h3.trans (if_pos hlt)⟩
        · exact Or.inl (h3.trans (if_neg hlt))
      · exact Or.inr ⟨j', List.mem_cons_of_mem _ hj', h3⟩

theorem lowestRowid_scan {h : Handle} {numRows rowLen : ℕ} (hrows : hdrNumRows m = some numRows)
    (hlen : hdrRowLen m = some rowLen)
    (hin : ∀ j < numRows, m.InBounds (dumpRowAddr h.rows j rowLen) 24) :
    lowestRowid h m = some ((List.range numRows).foldl
      (fun lowest j => if m.word (dumpRowAddr h.rows j rowLen + 16) ≤ lowest
        then m.word (dumpRowAddr h.rows j rowLen + 16) else lowest) 4294967295) := by
  simp only [lowestRowid, hrows, hlen, Option.bind_eq_bind, Option.bind_some]
  refine foldlM_eq_some fun lowest j hj => ?_
  obtain ⟨h0, h1⟩ := hin j (List.mem_range.mp hj)
  rw [rowId, Mem.load32_eq ⟨by omega, by omega⟩]
  rfl

theorem rowPrefix_some {r : ℤ} {options : ℕ} (hopt : hdrOptions m = some options)
    (hin : m.InBounds r 24) (g : Globals) (f : Printf) : ∃ t, rowPrefix g f r m = some t := by
  obtain ⟨h0, h1⟩ := hin
  have hid : rowId r m = some (m.word (r + 16)) := Mem.load32_eq ⟨by omega, by omega⟩
  have hts : m.load64 (r + 8) = some (ofLe (m.get (r + 8) 8)) := by
    rw [Mem.load64, Mem.load_eq ⟨by omega, by omega⟩, Option.map_some]
  have htid : m.load32 r = some (m.word r) := Mem.load32_eq ⟨by omega, by omega⟩
  simp only [rowPrefix, hid, hopt, hts, htid, Option.bind_eq_bind, Option.bind_some, Option.pure_def]
  split
  · exact ⟨_, rfl⟩
  · split <;> split <;> exact ⟨_, rfl⟩

theorem Mapped.slot_inBounds (h : Mapped G m) {j : ℕ} (hj : j < G.numRows) :
    m.InBounds (G.slot j) 24 := by
  have hroom := h.slotRoom hj
  have := hroom.base
  have := hroom.room
  exact ⟨by omega, by omega⟩

theorem Mapped.rowDatalen_eq (h : Mapped G m) {j : ℕ} (hj : j < G.numRows) :
    rowDatalen (G.slot j) m = some (m.word (G.slot j + 20)) := by
  obtain ⟨h0, h1⟩ := h.slot_inBounds hj
  exact Mem.load32_eq ⟨by omega, by omega⟩

/-- The scan returns the lowest id in the slots. -/
theorem Mapped.lowestRowid_spec (h : Mapped G m) : ∃ a, lowestRowid G.handle m = some a ∧
    (∀ j < G.numRows, a ≤ m.word (G.slot j + 16)) ∧ ∃ j < G.numRows, a = m.word (G.slot j + 16) := by
  have hsize := h.size_ge
  have hpos := G.numRows_pos
  have hin : ∀ j < G.numRows, m.InBounds (dumpRowAddr G.handle.rows j G.rowLen) 24 := fun j hj => by
    rw [G.dumpRowAddr_eq hj]
    exact h.slot_inBounds hj
  have hrows : hdrNumRows m = some G.numRows := h.header.hdrNumRows_eq (by omega)
  have hlen : hdrRowLen m = some G.rowLen := h.header.hdrRowLen_eq (by omega)
  have hscan := lowestRowid_scan hrows hlen hin
  obtain ⟨-, h2, h3⟩ := foldl_lowest (fun j => m.word (dumpRowAddr G.handle.rows j G.rowLen + 16))
    (List.range G.numRows) 4294967295
  refine ⟨_, hscan, fun j hj => ?_, ?_⟩
  · rw [← G.dumpRowAddr_eq hj]
    exact h2 j (List.mem_range.mpr hj)
  · rcases h3 with h3 | ⟨j, hj, h3⟩
    · have hle := h2 0 (List.mem_range.mpr hpos)
      have hlt := m.word_lt (G.slot 0 + 16)
      rw [G.dumpRowAddr_eq hpos] at hle
      exact ⟨0, hpos, by omega⟩
    · rw [G.dumpRowAddr_eq (List.mem_range.mp hj)] at h3
      exact ⟨j, List.mem_range.mp hj, h3⟩

theorem Mapped.rowPrefix_some (h : Mapped G m) {j : ℕ} (hj : j < G.numRows) (g : Globals)
    (f : Printf) : ∃ t, rowPrefix g f (G.slot j) m = some t :=
  Log2mem.rowPrefix_some (hdrOptions_room (h.slotRoom hj).head) (h.slot_inBounds hj) g f

theorem RowHolds.printRow_eq (h : Mapped G m) {j : ℕ} (hj : j < G.numRows) {recs : List Rec}
    (hrow : RowHolds G.rowLen m (G.slot j) recs) (hwt : ∀ x ∈ recs, x.WellTyped) (g : Globals)
    (f : Printf) {fuel : ℕ} (hfuel : G.rowLen < fuel) :
    printRow g f fuel (G.slot j) m =
      some (if recFormat.total recs = 0 then [] else [⟨G.slot j, rowLine g f m (G.slot j) recs⟩]) := by
  obtain ⟨t, ht⟩ := h.rowPrefix_some hj g f
  have hle := hrow.le
  have hlen := recFormat.length_le_total recs
  have hw := hrow.walk_eq hwt g f m.size (show recs.length < fuel by omega)
    (by have := hrow.room; omega)
  simp only [printRow, hrow.rowDatalen_eq, Option.bind_eq_bind, Option.bind_some, Option.pure_def]
  split
  · rfl
  · rw [ht, Option.bind_some, show walk g f (G.slot j) fuel .start m = _ from hw, Option.bind_some,
      rowLine, ht, Option.getD_some]

theorem Mapped.printRow_blank (h : Mapped G m) {j : ℕ} (hj : j < G.numRows)
    (hd : m.word (G.slot j + 20) = 0) (g : Globals) (f : Printf) (fuel : ℕ) :
    printRow g f fuel (G.slot j) m = some [] := by
  simp [printRow, h.rowDatalen_eq hj, hd]

end Rest

end Log2mem
