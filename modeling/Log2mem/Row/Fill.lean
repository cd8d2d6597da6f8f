import Log2mem.Row.Push

/-! A push is one step of the greedy fill.

    `RowHolds` is the representation invariant of a row: `datalen` counts the bytes of a chain of
    well-formed records that fits into `row_len`. Every push whose exact record size is an `int` takes
    `RowHolds recs` to `RowHolds (keep recs …)`; a push of any other length is dropped by the space
    test or, having slipped through it, copies past the end of the mapping and faults. -/

namespace Log2mem
open Schemes

/-- A row header of 24 bytes at `r`, behind the memmap's header and inside the mapping. -/
structure HeadRoom (m : Mem) (r : ℤ) : Prop where
  base : 92 ≤ r
  room : r + 24 ≤ m.size

/-- A slot of `24 + rowLen` bytes at `r`, behind the header and inside the mapping. -/
structure SlotRoom (rowLen : ℕ) (m : Mem) (r : ℤ) : Prop where
  cap : m.word 44 = rowLen
  lt : rowLen < 2147483648
  base : 92 ≤ r
  room : r + 24 + rowLen ≤ m.size

/-- The row at `r` stores exactly the records `recs`. -/
structure RowHolds (rowLen : ℕ) (m : Mem) (r : ℤ) (recs : List Rec) : Prop where
  cap : m.word 44 = rowLen
  lt : rowLen < 2147483648
  base : 92 ≤ r
  room : r + 24 + rowLen ≤ m.size
  datalen : m.word (r + 20) = recFormat.total recs
  le : recFormat.total recs ≤ rowLen
  chain : recFormat.Chain m (r + 24) recs

/-- The bytes a push that stores `n` bytes behind `used` may change. -/
def pushArea (r : ℤ) (used n : ℕ) : Set ℤ :=
  Set.Ico (r + 20) (r + 24) ∪ Set.Ico (r + 24 + used) (r + 24 + used + n)

/-- A push whose lengths are not exact: it faults wherever it is tried, and stands for no record
    that could fit. -/
structure Overruns (put : ℤ → Mem → Option Mem) (g : List Rec) : Prop where
  faults : ∀ (m : Mem) (ptr : ℤ), 0 < ptr → m.size < 2147483648 → put ptr m = none
  unfit : g = [] ∨ 2147483648 ≤ recFormat.total g

section Holds
variable {rowLen : ℕ} {m m' : Mem} {r : ℤ} {recs g : List Rec} {totlen : ℤ}
  {put : ℤ → Mem → Option Mem}

/-- `RowHolds` only depends on `row_len`, on `datalen` and on the payload in use. -/
theorem RowHolds.frame {S : Set ℤ} (h : RowHolds rowLen m r recs) (hf : Mem.Frame S m m')
    (h44 : ∀ x ∈ S, x < 44 ∨ 48 ≤ x) (hS : ∀ x ∈ S, x < r + 20 ∨ r + 24 + rowLen ≤ x) :
    RowHolds rowLen m' r recs where
  cap := (hf.word_of_outside h44 (le_refl _) (by omega)).trans h.cap
  lt := h.lt
  base := h.base
  room := by rw [hf.size]; exact h.room
  datalen := (hf.word_of_outside hS (le_refl _) (by omega)).trans h.datalen
  le := h.le
  chain := recFormat.chain_frame hf (fun x _ _ hx => by have := hS x hx; have := h.le; omega) h.chain

theorem SlotRoom.head (h : SlotRoom rowLen m r) : HeadRoom m r :=
  ⟨h.base, by have := h.room; omega⟩

theorem RowHolds.slotRoom (h : RowHolds rowLen m r recs) : SlotRoom rowLen m r :=
  ⟨h.cap, h.lt, h.base, h.room⟩

theorem SlotRoom.empty (h : SlotRoom rowLen m r) (hd : m.word (r + 20) = 0) : RowHolds rowLen m r [] :=
  ⟨h.cap, h.lt, h.base, h.room, hd, Nat.zero_le _, trivial⟩

theorem HeadRoom.rowDatalen_eq (h : HeadRoom m r) : rowDatalen r m = some (m.word (r + 20)) := by
  have := h.base
  have := h.room
  exact Mem.load32_eq ⟨by omega, by omega⟩

theorem HeadRoom.hdrRowLen_eq (h : HeadRoom m r) : hdrRowLen m = some (m.word 44) := by
  have := h.base
  have := h.room
  exact Mem.load32_eq ⟨by omega, by omega⟩

/-- While `datalen` is within `row_len`, the space test compares with the exact room left. -/
theorem SlotRoom.fits_eq (h : SlotRoom rowLen m r) (hd : m.word (r + 20) ≤ rowLen) (totlen : ℤ) :
    fits r totlen m = some (decide (totlen ≤ rowLen - m.word (r + 20))) := by
  have := h.lt
  simp only [fits, h.head.hdrRowLen_eq, h.head.rowDatalen_eq, h.cap, Option.bind_eq_bind,
    Option.bind_some, Option.pure_def]
  rw [toInt32_of_range (by omega) (by omega)]

theorem RowHolds.rowDatalen_eq (h : RowHolds rowLen m r recs) :
    rowDatalen r m = some (recFormat.total recs) := by
  rw [h.slotRoom.head.rowDatalen_eq, h.datalen]

theorem RowHolds.fits_eq (h : RowHolds rowLen m r recs) (totlen : ℤ) :
    fits r totlen m = some (decide (totlen ≤ rowLen - recFormat.total recs)) := by
  rw [h.slotRoom.fits_eq (by rw [h.datalen]; exact h.le), h.datalen]

theorem growDatalen_spec (h44 : m.word 44 = rowLen) (hlt : rowLen < 2147483648) (hbase : 92 ≤ r)
    (hroom : r + 24 + rowLen ≤ m.size) (hd : m.word (r + 20) = recFormat.total recs)
    (hfit : recFormat.total recs + recFormat.total g ≤ rowLen)
    (hc : recFormat.Chain m (r + 24) (recs ++ g)) :
    ∃ m', growDatalen r (recFormat.total g) m = some m' ∧ RowHolds rowLen m' r (recs ++ g) ∧
      Mem.Frame (Set.Ico (r + 20) (r + 24)) m m' := by
  obtain ⟨m', e, f, w⟩ := Mem.store32_spec (m := m) (a := r + 20) ⟨by omega, by omega⟩
    (toU32 (recFormat.total recs + recFormat.total g))
  have hu := toU32_of_range (x := (recFormat.total recs : ℤ) + recFormat.total g) (by omega) (by omega)
  have htot := recFormat.total_append recs g
  refine ⟨m', ?_, ⟨?_, hlt, hbase, ?_, ?_, by omega, ?_⟩, f.ico_mono (by omega) (by omega)⟩
  · simp only [growDatalen, rowDatalen, Option.bind_eq_bind, hd, Option.bind_some,
      Mem.load32_eq (m := m) (a := r + 20) ⟨by omega, by omega⟩, e]
  · exact (f.word_of_Ico (by omega)).trans h44
  · rw [f.size]; exact hroom
  · rw [w]; omega
  · exact recFormat.chain_frame f (fun x h1 _ hx => by have := hx.2; omega) hc

/-- KEPT: a push with room for its records appends them, and changes only its own bytes. -/
theorem pushRecord_kept (hw : Writes totlen put g) (h : RowHolds rowLen m r recs)
    (hfit : recFormat.total g ≤ rowLen - recFormat.total recs) :
    ∃ m', pushRecord r totlen put m = some m' ∧ RowHolds rowLen m' r (recs ++ g) ∧
      Mem.Frame (pushArea r (recFormat.total recs) (recFormat.total g)) m m' := by
  have hle := h.le
  have hbase := h.base
  have hroom := h.room
  have htest : fits r (recFormat.total g) m = some true := by
    rw [h.fits_eq]
    exact congrArg some (decide_eq_true (by omega))
  obtain ⟨m1, e1, f1, c1⟩ := hw.put m (r + 24 + recFormat.total recs) ⟨by omega, by omega⟩
  have hchain : recFormat.Chain m1 (r + 24) (recs ++ g) := by
    rw [recFormat.chain_append]
    exact ⟨recFormat.chain_frame f1 (fun x _ h2 hx => by have := hx.1; omega) h.chain, c1⟩
  obtain ⟨m2, e2, hrow, f2⟩ := growDatalen_spec
    ((f1.word_of_Ico (by omega)).trans h.cap) h.lt hbase (by rw [f1.size]; exact hroom)
    ((f1.word_of_Ico (by omega)).trans h.datalen) (by omega) hchain
  refine ⟨m2, ?_, hrow, ?_⟩
  · rw [hw.totlen]
    simp only [pushRecord, htest, h.rowDatalen_eq, e1, Option.bind_eq_bind, Option.bind_some, if_true, e2]
  · exact (f1.mono fun x hx => Or.inr hx).trans (f2.mono fun x hx => Or.inl hx)

/-- DROPPED: a push the space test refuses leaves the memory alone. -/
theorem pushRecord_dropped (h : RowHolds rowLen m r recs)
    (hfit : ¬ totlen ≤ rowLen - recFormat.total recs) : pushRecord r totlen put m = some m := by
  have htest : fits r totlen m = some false := by
    rw [h.fits_eq]
    exact congrArg some (decide_eq_false hfit)
  simp [pushRecord, htest]

/-- One push is one step of the greedy fill, and changes only the bytes of its records and `datalen`. -/
theorem pushRecord_area (hw : Writes totlen put g) (h : RowHolds rowLen m r recs) :
    ∃ m', pushRecord r totlen put m = some m' ∧ RowHolds rowLen m' r (recFormat.keep rowLen recs g) ∧
      Mem.Frame (pushArea r (recFormat.total recs) (recFormat.total g) ∩
        Set.Ico (r + 20) (r + (24 + rowLen))) m m' := by
  have hle := h.le
  by_cases hfit : recFormat.total g ≤ rowLen - recFormat.total recs
  · obtain ⟨m', e, hrow, f⟩ := pushRecord_kept hw h hfit
    refine ⟨m', e, by rw [recFormat.keep_of_fits hfit]; exact hrow, f.mono fun x hx => ⟨hx, ?_⟩⟩
    rcases hx with hx | hx
    · exact ⟨hx.1, by have := hx.2; omega⟩
    · exact ⟨by have := hx.1; omega, by have := hx.2; omega⟩
  · refine ⟨m, pushRecord_dropped h ?_, by rw [recFormat.keep_of_not_fits hfit]; exact h, .refl ..⟩
    have := hw.totlen
    omega

theorem pushRecord_keep (hw : Writes totlen put g) (h : RowHolds rowLen m r recs) :
    ∃ m', pushRecord r totlen put m = some m' ∧ RowHolds rowLen m' r (recFormat.keep rowLen recs g) ∧
      Mem.Frame (Set.Ico (r + 20) (r + (24 + rowLen))) m m' := by
  obtain ⟨m', e, hrow, f⟩ := pushRecord_area hw h
  exact ⟨m', e, hrow, f.mono Set.inter_subset_right⟩

end Holds

/-! ### Which pushes write, and which overrun -/

theorem putStr_eq_none (type : DataType) {len : Int32} (str : Buf) {ptr : ℤ} {m : Mem}
    (h : m.size < ptr + 8 + toSize len.toInt) : putStr type len str ptr m = none := by
  by_contra hne
  obtain ⟨m', hm'⟩ := Option.ne_none_iff_exists'.mp hne
  simp only [putStr, putHdr, Option.bind_eq_bind, Option.bind_assoc, Option.bind_eq_some_iff] at hm'
  obtain ⟨m1, e1, m2, e2, m3, e3, -⟩ := hm'
  have h1 := (Mem.store_some e1).2.size
  have h2 := (Mem.store_some e2).2.size
  have h3 := (Mem.copy_some e3).2
  omega

theorem putStr_overruns (type : DataType) {len : Int32} (str : Buf) (h : ¬ ExactLen len) :
    Overruns (putStr type len str) (strRecs type len str) := by
  have hlt := len.toInt_lt
  have hle := len.le_toInt
  have hs := toSize_cast len.toInt
  unfold ExactLen at h
  refine ⟨fun m ptr hp hm => putStr_eq_none type str (by omega), ?_⟩
  by_cases h0 : 0 ≤ len.toInt
  · have hlen := strRec_length type str h0
    rw [strRecs, if_pos h0]
    exact Or.inr (by rw [recFormat.total_cons, recFormat.total_nil, size_rec]; omega)
  · rw [strRecs, if_neg h0]
    exact Or.inl rfl

theorem strRecs_of_exact (type : DataType) {len : Int32} (str : Buf) (h : ExactLen len) :
    strRecs type len str = [strRec type len str] := if_pos h.1

/-- Every push either writes its record wherever there is room, or overruns. -/
theorem Push.writes {p : Push} (h : p.Exact) : Writes p.totlen p.put p.recs := by
  cases p with
  | value v => exact putData_writes v.type v.bytes (by have := v.bytes_length_le; omega)
  | string len str => rw [Push.recs, strRecs_of_exact _ _ h]; exact putStr_writes .string str h.1 h.2
  | filename len str =>
    rw [Push.recs, strRecs_of_exact _ _ h]; exact putStr_writes .filename str h.1 h.2

theorem Push.overruns {p : Push} (h : ¬ p.Exact) : Overruns p.put p.recs := by
  cases p with
  | value v => exact absurd trivial h
  | string len str => exact putStr_overruns .string str h
  | filename len str => exact putStr_overruns .filename str h

/-- The records of a push that is not exact never fit, so the greedy fill drops them. -/
theorem Overruns.keep_eq {put : ℤ → Mem → Option Mem} {g : List Rec} (h : Overruns put g)
    {rowLen : ℕ} (hlt : rowLen < 2147483648) (recs : List Rec) :
    recFormat.keep rowLen recs g = recs := by
  rcases h.unfit with rfl | hbig
  · exact recFormat.keep_nil rowLen recs
  · exact recFormat.keep_of_not_fits (by omega)

/-- FILL: on a row holding `recs`, a push of exact length succeeds and is one step of the greedy
    fill. -/
theorem Push.run_spec {p : Push} (hp : p.Exact) {rowLen : ℕ} {m : Mem} {r : ℤ} {recs : List Rec}
    (h : RowHolds rowLen m r recs) :
    ∃ m', p.run r m = some m' ∧ RowHolds rowLen m' r (recFormat.keep rowLen recs p.recs) ∧
      Mem.Frame (Set.Ico (r + 20) (r + (24 + rowLen))) m m' := by
  rw [p.run_eq]
  exact pushRecord_keep (Push.writes hp) h

/-! ### The record group of `log2mem_time_event4` -/

theorem Event.msg_pos {e : Event} {str : Buf} (h : e.msg = some str) : 0 < e.len.toInt := by
  unfold Event.msg at h
  split at h
  · assumption
  · exact absurd h (by simp)

theorem Event.total_recs (e : Event) : (recFormat.total e.recs : ℤ) =
    24 + if e.msg.isSome then e.len.toInt + 9 else 0 := by
  cases hm : e.msg with
  | none => simp [Event.recs, hm, size_rec]
  | some str =>
    have hlen := strRec_length .string str (le_of_lt (e.msg_pos hm))
    simp only [Event.recs, hm, List.cons_append, List.nil_append, recFormat.total_cons,
      recFormat.total_nil, size_rec, leBytes_length, Option.isSome_some, if_true]
    omega

/-- The two `int` records every event starts with. -/
def Event.putInts (e : Event) : ℤ → Mem → Option Mem :=
  putBoth (putData .int (leBytes 4 e.flowid.toUInt32.toNat)) 12
    (putData .int (leBytes 4 e.msgref.toUInt32.toNat))

theorem putInt_writes (d : Int32) :
    Writes 12 (putData .int (leBytes 4 d.toUInt32.toNat)) [⟨.int, leBytes 4 d.toUInt32.toNat⟩] := by
  have hw := putData_writes .int (leBytes 4 d.toUInt32.toNat) (by simp)
  rwa [leBytes_length, show dataTotlen 4 = 12 by decide] at hw

theorem Event.putInts_writes (e : Event) : Writes 24 e.putInts
    [⟨.int, leBytes 4 e.flowid.toUInt32.toNat⟩, ⟨.int, leBytes 4 e.msgref.toUInt32.toNat⟩] :=
  (putInt_writes e.flowid).append (putInt_writes e.msgref) (by simp [size_rec])

theorem Event.put_none {e : Event} (h : e.msg = none) : e.put = e.putInts := by
  funext ptr m
  simp [Event.put, Event.putInts, putBoth, h]

theorem Event.put_some {e : Event} {str : Buf} (h : e.msg = some str) :
    e.put = putBoth e.putInts 24 (putStr .string e.len str) := by
  funext ptr m
  simp [Event.put, Event.putInts, putBoth, h, Option.bind_assoc]

theorem Event.lenNeeded_none {e : Event} (h : e.msg = none) : e.lenNeeded = 24 := by
  rw [Event.lenNeeded, h]
  exact show toInt32 (toSize (2 * 8 + 2 * 4)) = 24 by decide

theorem Event.lenNeeded_some {e : Event} {str : Buf} (h : e.msg = some str) (he : e.Exact) :
    e.lenNeeded = 24 + strTotlen e.len := by
  have hpos := e.msg_pos h
  have hle := he (by simp [h])
  have hone : toInt32 (e.len.toInt + 1) = e.len.toInt + 1 := toInt32_of_range (by omega) (by omega)
  have hsize := toSize_of_range (x := 8 + (e.len.toInt + 1)) (by omega) (by omega)
  have htotlen : strTotlen e.len = 8 + (e.len.toInt + 1) := by
    rw [strTotlen, hone, toInt32_toSize, toInt32_of_range (by omega) (by omega)]
  rw [Event.lenNeeded, h, htotlen]
  simp only
  rw [hone, hsize, toInt32_toSize, show toInt32 (toSize (2 * 8 + 2 * 4)) = 24 by decide,
    toInt32_of_range (by omega) (by omega)]

/-- An event of exact length writes all its records. -/
theorem Event.writes {e : Event} (h : e.Exact) : Writes e.lenNeeded e.put e.recs := by
  have htotal := e.total_recs
  cases hm : e.msg with
  | none =>
    have hrecs : e.recs = [⟨.int, leBytes 4 e.flowid.toUInt32.toNat⟩,
        ⟨.int, leBytes 4 e.msgref.toUInt32.toNat⟩] := by simp [Event.recs, hm]
    rw [e.lenNeeded_none hm, e.put_none hm, hrecs]
    exact e.putInts_writes
  | some str =>
    have hpos := e.msg_pos hm
    have hle := h (by simp [hm])
    simp only [hm, Option.isSome_some, if_true] at htotal
    have hrecs : e.recs = [⟨.int, leBytes 4 e.flowid.toUInt32.toNat⟩,
        ⟨.int, leBytes 4 e.msgref.toUInt32.toNat⟩] ++ [strRec .string e.len str] := by
      simp [Event.recs, hm]
    rw [e.lenNeeded_some hm h, e.put_some hm, hrecs]
    exact e.putInts_writes.append (putStr_writes .string str (le_of_lt hpos) (by omega))
      (by rw [← hrecs]; omega)

/-- An event whose record sizes are not an `int` faults wherever it is tried. -/
theorem Event.overruns {e : Event} (h : ¬ e.Exact) : Overruns e.put e.recs := by
  obtain ⟨hsome, hbig⟩ := Classical.not_imp.mp h
  obtain ⟨str, hm⟩ := Option.isSome_iff_exists.mp hsome
  have hpos := e.msg_pos hm
  have hlt := e.len.toInt_lt
  have htotal := e.total_recs
  simp only [hm, Option.isSome_some, if_true] at htotal
  refine ⟨fun m ptr hp hsz => ?_, Or.inr (by omega)⟩
  by_contra hne
  obtain ⟨m', hm'⟩ := Option.ne_none_iff_exists'.mp hne
  simp only [Event.put, putData, putHdr, Option.bind_eq_bind, Option.bind_assoc, hm,
    Option.bind_eq_some_iff] at hm'
  obtain ⟨m1, e1, m2, e2, m3, e3, m4, e4, m5, e5, m6, e6, h6⟩ := hm'
  have hs1 := (Mem.store_some e1).2.size
  have hs2 := (Mem.store_some e2).2.size
  have hs3 := (Mem.store_some e3).2.size
  have hs4 := (Mem.store_some e4).2.size
  have hs5 := (Mem.store_some e5).2.size
  have hs6 := (Mem.store_some e6).2.size
  have hs := toSize_of_range (le_of_lt hpos) (by omega)
  rw [putStr_eq_none .string str (by omega)] at h6
  exact absurd h6 (by simp)

end Log2mem
