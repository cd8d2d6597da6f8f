import Log2mem.Row.Acquire
import Log2mem.Row.Fill

/-! Initialising a slot, and filling it by a list of pushes.

    Each store of `__log2mem_init_row` touches its own field of `struct log2mem_row`; after the last
    one the row is empty, and every list of pushes then leaves the greedy fill of what was offered.

        r     +4   +8    +16  +20       +24
        │ tid │pad │ ts  │ id │ datalen │ payload … -/

namespace Log2mem
open Schemes

section Slot
variable {rowLen : ℕ} {m m' : Mem} {r : ℤ}

theorem SlotRoom.frame {S : Set ℤ} (h : SlotRoom rowLen m r) (hf : Mem.Frame S m m')
    (hS : ∀ x ∈ S, x < 44 ∨ 48 ≤ x) : SlotRoom rowLen m' r where
  cap := (hf.word_of_outside hS (le_refl _) (by omega)).trans h.cap
  lt := h.lt
  base := h.base
  room := by rw [hf.size]; exact h.room

theorem SlotRoom.frame_ico {lo hi : ℤ} (h : SlotRoom rowLen m r) (hf : Mem.Frame (Set.Ico lo hi) m m')
    (hlo : 48 ≤ lo ∨ hi ≤ 44) : SlotRoom rowLen m' r :=
  h.frame hf (Mem.outside_Ico hlo)

theorem HeadRoom.frame {S : Set ℤ} (h : HeadRoom m r) (hf : Mem.Frame S m m') : HeadRoom m' r :=
  ⟨h.base, by rw [hf.size]; exact h.room⟩

theorem hdrOptions_room (h : HeadRoom m r) : hdrOptions m = some (m.word 32) := by
  have := h.base
  have := h.room
  exact Mem.load32_eq ⟨by omega, by omega⟩

theorem stampTid_spec (h : HeadRoom m r) (env : Env) :
    ∃ m', stampTid r env m = some m' ∧ Mem.Frame (Set.Ico r (r + 4)) m m' := by
  have := h.base
  have := h.room
  simp only [stampTid, hdrOptions_room h, Option.bind_eq_bind, Option.bind_some]
  split
  · obtain ⟨m', e, f, -⟩ := Mem.store32_spec (m := m) (a := r) ⟨by omega, by omega⟩
      env.tid.toUInt32.toNat
    exact ⟨m', e, f⟩
  · exact ⟨m, rfl, .refl ..⟩

theorem stampTs_spec (h : HeadRoom m r) (env : Env) :
    ∃ m', stampTs r env m = some m' ∧ Mem.Frame (Set.Ico (r + 8) (r + 16)) m m' := by
  have := h.base
  have := h.room
  simp only [stampTs, hdrOptions_room h, Option.bind_eq_bind, Option.bind_some]
  split
  · rename_i ts _
    obtain ⟨m', e, f, -⟩ := Mem.store_spec m (r + 8) (leBytes 8 ts)
      ⟨by omega, by rw [leBytes_length]; push_cast; omega⟩
    exact ⟨m', e, f.ico_mono (le_refl _) (by rw [leBytes_length]; push_cast; omega)⟩
  · exact ⟨m, rfl, .refl ..⟩

theorem stampId_spec (h : HeadRoom m r) {rowid : ℕ} (hid : rowid < 4294967296) :
    ∃ m', stampId r rowid m = some m' ∧ m'.word (r + 16) = rowid ∧
      Mem.Frame (Set.Ico (r + 16) (r + 20)) m m' := by
  have := h.base
  have := h.room
  obtain ⟨m', e, f, w⟩ := Mem.store32_spec (m := m) (a := r + 16) ⟨by omega, by omega⟩ rowid
  exact ⟨m', e, by rw [w, Nat.mod_eq_of_lt hid], f.ico_mono (le_refl _) (by omega)⟩

theorem resetDatalen_spec (h : HeadRoom m r) :
    ∃ m', resetDatalen r m = some m' ∧ m'.word (r + 20) = 0 ∧
      Mem.Frame (Set.Ico (r + 20) (r + 24)) m m' := by
  have := h.base
  have := h.room
  obtain ⟨m', e, f, w⟩ := Mem.store32_spec (m := m) (a := r + 20) ⟨by omega, by omega⟩ 0
  exact ⟨m', e, w, f.ico_mono (le_refl _) (by omega)⟩

/-- HEADER: the slot's header is written, `datalen` is 0, and the pushes of the source location are what
    remains to be done. -/
theorem initSlot_eq (h : HeadRoom m r) {rowid : ℕ} (hid : rowid < 4294967296) (env : Env)
    (filename : Option CStr) (lineno : Int32) :
    ∃ m', initSlot r rowid env filename lineno m =
        runPushes r (locationPushes (m.word 32) filename lineno) m' ∧
      m'.word (r + 16) = rowid ∧ m'.word (r + 20) = 0 ∧ Mem.Frame (Set.Ico r (r + 24)) m m' := by
  have hb := h.base
  obtain ⟨m1, e1, f1⟩ := stampTid_spec h env
  have h1 := h.frame f1
  obtain ⟨m2, e2, f2⟩ := stampTs_spec h1 env
  have h2 := h1.frame f2
  obtain ⟨m3, e3, w3, f3⟩ := stampId_spec h2 hid
  have h3 := h2.frame f3
  obtain ⟨m4, e4, w4, f4⟩ := resetDatalen_spec h3
  have hframe : Mem.Frame (Set.Ico r (r + 24)) m m4 :=
    (((f1.ico_mono (le_refl r) (by omega)).trans (f2.ico_mono (by omega) (by omega))).trans
      (f3.ico_mono (by omega) (by omega))).trans (f4.ico_mono (by omega) (by omega))
  have hopt : m4.word 32 = m.word 32 := hframe.word_of_Ico (by omega)
  refine ⟨m4, ?_, by rw [f4.word_of_Ico (by omega), w3], w4, hframe⟩
  simp only [initSlot, e1, e2, e3, e4, hdrOptions_room (h3.frame f4), hopt, Option.bind_eq_bind,
    Option.bind_some]

theorem fetchRowid_some {rowid : ℕ} (h : fetchRowid m = some (m', rowid)) :
    Mem.Frame (Set.Ico 28 32) m m' ∧ rowid < 4294967296 := by
  simp only [fetchRowid, Option.bind_eq_bind, Option.bind_eq_some_iff, Option.pure_def,
    Option.some.injEq, Prod.mk.injEq] at h
  obtain ⟨next, -, m1, hstore, rfl, rfl⟩ := h
  have hf := (Mem.store_some hstore).2
  rw [leBytes_length] at hf
  exact ⟨hf, toU32_lt _⟩

/-- `__log2mem_init_row` gets the row at `r`, whatever it then writes there. -/
def Acquires (h : Handle) (m : Mem) (r : ℤ) : Prop :=
  ∃ m₁ rowid, fetchRowid m = some (m₁, rowid) ∧ rowPtr h rowid m₁ = some r

/-- ACQUIRED: the row's header is written, `datalen` is 0, and the pushes of the source location are what
    remains to be done. -/
theorem Acquires.header {h : Handle} (ha : Acquires h m r) (hr : HeadRoom m r) (env : Env)
    (filename : Option CStr) (lineno : Int32) :
    ∃ m', initRow h env filename lineno m =
        (runPushes r (locationPushes (m.word 32) filename lineno) m').map (fun m'' => (m'', r)) ∧
      m'.word (r + 20) = 0 ∧ Mem.Frame (Set.Ico 28 32 ∪ Set.Ico r (r + 24)) m m' := by
  obtain ⟨m1, rowid, e1, e2⟩ := ha
  obtain ⟨f1, hid⟩ := fetchRowid_some e1
  obtain ⟨m2, e3, -, d2, f2⟩ := initSlot_eq (hr.frame f1) hid env filename lineno
  rw [f1.word_of_Ico (a := 32) (by omega)] at e3
  refine ⟨m2, ?_, d2, (f1.mono Set.subset_union_left).trans (f2.mono Set.subset_union_right)⟩
  rw [← e3]
  cases e : initSlot r rowid env filename lineno m1 <;> simp [initRow, e1, e2, e]

/-- The groups of records a list of pushes offers. -/
def offered (ps : List Push) : List (List Rec) := ps.map Push.recs

/-- A list of pushes of exact length leaves the greedy fill of what was offered. -/
theorem runPushes_spec : ∀ {ps : List Push} {m : Mem} {gs : List (List Rec)},
    (∀ p ∈ ps, p.Exact) → RowHolds rowLen m r (recFormat.fit rowLen gs) →
    ∃ m', runPushes r ps m = some m' ∧
      RowHolds rowLen m' r (recFormat.fit rowLen (gs ++ offered ps)) ∧
      Mem.Frame (Set.Ico (r + 20) (r + (24 + rowLen))) m m'
  | [], m, gs, _, h => ⟨m, rfl, by simpa [offered] using h, .refl ..⟩
  | p :: ps, m, gs, hp, h => by
    obtain ⟨m1, e1, h1, f1⟩ := Push.run_spec (hp p (by simp)) h
    rw [← recFormat.fit_concat] at h1
    obtain ⟨m2, e2, h2, f2⟩ := runPushes_spec (fun q hq => hp q (List.mem_cons_of_mem p hq)) h1
    refine ⟨m2, ?_, ?_, f1.trans f2⟩
    · simp only [runPushes, e1, Option.bind_eq_bind, Option.bind_some, e2]
    · rw [List.append_assoc] at h2
      exact h2

/-- SLOT: initialising a slot leaves the fill of the source location, its id, and changes the slot
    only. -/
theorem initSlot_spec (h : SlotRoom rowLen m r) {rowid : ℕ} (hid : rowid < 4294967296) (env : Env)
    (filename : Option CStr) (lineno : Int32)
    (hloc : ∀ p ∈ locationPushes (m.word 32) filename lineno, p.Exact) :
    ∃ m', initSlot r rowid env filename lineno m = some m' ∧
      RowHolds rowLen m' r
        (recFormat.fit rowLen (offered (locationPushes (m.word 32) filename lineno))) ∧
      m'.word (r + 16) = rowid ∧ Mem.Frame (Set.Ico r (r + (24 + rowLen))) m m' := by
  have hb := h.base
  obtain ⟨m1, e1, w1, d1, f1⟩ := initSlot_eq h.head hid env filename lineno
  have h1 : RowHolds rowLen m1 r (recFormat.fit rowLen []) := (h.frame_ico f1 (by omega)).empty d1
  obtain ⟨m2, e2, h2, f2⟩ := runPushes_spec hloc h1
  refine ⟨m2, e1.trans e2, by simpa using h2, ?_, ?_⟩
  · rw [f2.word_of_Ico (by omega), w1]
  · exact (f1.ico_mono (le_refl r) (by omega)).trans (f2.ico_mono (by omega) (by omega))

end Slot

end Log2mem
