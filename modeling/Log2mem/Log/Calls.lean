import Log2mem.Dump.RoundTrip
import Log2mem.Ring.Geometry

/-! What one logging call does to a memmap, for strings of every length the arithmetic can carry.

    A call that acquires a row leaves the greedy fill of what it pushed in the next slot, and changes
    `nextrow` and that slot only; an append changes only the bytes behind `datalen`, and `datalen`. A
    time event whose message is too long for the `int` arithmetic slips through the space test and
    faults.

        len_needed ≤ avail?   exact: records together, or none
                              wrapped: negative, so always taken ──▶ copy leaves the mapping -/

namespace Log2mem
open Schemes

/-- The push of an optional string argument. -/
def strPushes (str : Option CStr) : List Push :=
  match str with
  | some s => [.string s.strlen s.buf]
  | none => []

theorem strPushes_exact {str : Option CStr} (h : ∀ s ∈ str, s.InRange) :
    ∀ p ∈ strPushes str, p.Exact := by
  intro p hp
  cases str with
  | none => simp [strPushes] at hp
  | some s =>
    rw [strPushes, List.mem_singleton] at hp
    rw [hp]
    exact s.exactLen (h s rfl)

theorem log2memWrite_eq (h : Handle) (env : Env) (str filename : Option CStr) (lineno : Int32)
    (m : Mem) : log2memWrite h env str filename lineno m = do
      let (m, r) ← initRow h env filename lineno m
      return (← runPushes r (strPushes str) m, r) := by
  cases str with
  | none => simp [log2memWrite, strPushes, runPushes]
  | some s =>
    simp only [log2memWrite, strPushes, runPushes_singleton]
    rfl

/-- An append call makes no push and has no item, or makes one push that stores its one item. -/
theorem Append.push_cases {a : Append} (h : a.InRange) :
    (a.pushes = [] ∧ a.items = []) ∨ ∃ p, a.pushes = [p] ∧ p.Exact ∧ p.recs = a.items := by
  have hexact := a.pushes_exact h
  rcases a with (_ | s) | ⟨_ | b, len⟩ | _ | _ | _ | _ | _ | _ | _
  case str.none => exact Or.inl ⟨rfl, rfl⟩
  case str2.none => exact Or.inl ⟨rfl, rfl⟩
  case str.some => exact Or.inr ⟨_, rfl, hexact _ (List.mem_singleton.mpr rfl), s.strRecs_eq h .string⟩
  case str2.some => exact Or.inr ⟨_, rfl, hexact _ (List.mem_singleton.mpr rfl), strRecs_of_exact _ _ h⟩
  all_goals exact Or.inr ⟨_, rfl, hexact _ (List.mem_singleton.mpr rfl), rfl⟩

/-- APPEND: an append keeps or drops its item, and changes only its own bytes of the payload and
    `datalen`. -/
theorem RowHolds.append_spec {rowLen : ℕ} {m : Mem} {r : ℤ} {recs : List Rec} {a : Append}
    (h : RowHolds rowLen m r recs) (ha : a.InRange) :
    ∃ m', a.run (some r) m = some m' ∧ RowHolds rowLen m' r (recFormat.keep rowLen recs a.items) ∧
      Mem.Frame (pushArea r (recFormat.total recs) (recFormat.total a.items) ∩
        Set.Ico (r + 20) (r + (24 + rowLen))) m m' := by
  rcases a.push_cases ha with ⟨hp, hi⟩ | ⟨p, hp, hex, hrec⟩
  · exact ⟨m, by rw [a.run_eq, hp]; rfl, by rw [hi, recFormat.keep_nil]; exact h, .refl ..⟩
  · rw [a.run_eq, hp, runPushes_singleton, p.run_eq, ← hrec]
    exact pushRecord_area (Push.writes hex) h

/-- On an empty row the fused group of a time event is one push of all its records. -/
theorem eventBody_eq {m : Mem} {r : ℤ} {rowLen : ℕ} (h : RowHolds rowLen m r []) (e : Event) :
    eventBody r e m = pushRecord r e.lenNeeded e.put m := by
  have hd := h.rowDatalen_eq
  rw [recFormat.total_nil] at hd
  simp [eventBody, pushRecord, hd]

/-- A message too long for the `int` arithmetic makes `len_needed` negative. -/
theorem Event.lenNeeded_neg {e : Event} (h : ¬ e.Exact) : e.lenNeeded < 0 := by
  obtain ⟨hsome, hbig⟩ := Classical.not_imp.mp h
  obtain ⟨str, hm⟩ := Option.isSome_iff_exists.mp hsome
  have hlt := e.len.toInt_lt
  have hinner := toInt32_emod (e.len.toInt + 1)
  have hsize := toSize_cast (8 + toInt32 (e.len.toInt + 1))
  have hneeded : e.lenNeeded = toInt32 (24 + toSize (8 + toInt32 (e.len.toInt + 1))) := by
    simp only [Event.lenNeeded, hm]
    rw [toInt32_toSize]
    rfl
  have hsum : (24 + (toSize (8 + toInt32 (e.len.toInt + 1)) : ℤ)) % 4294967296 =
      (e.len.toInt + 33) % 4294967296 := by omega
  rw [hneeded, toInt32_congr hsum]
  unfold toInt32
  split <;> omega

section Acquiring
variable {G : Geometry} {m : Mem} {n : ℕ}

theorem frame_acquired {k : ℕ} {m₁ m₂ : Mem} (hf : Mem.Frame (Set.Ico (G.slot (k % G.numRows) + 20)
    (G.slot (k % G.numRows) + (24 + G.rowLen))) m₁ m₂) : Mem.Frame (G.acquired k) m₁ m₂ :=
  hf.mono fun x hx => Or.inr ⟨by have := hx.1; omega, hx.2⟩

/-- WRITE: acquisition `n` leaves the fill of its location and its string in slot `n % num_rows`. -/
theorem Mapped.write_spec (h : Mapped G m) (hn : m.word 28 = n % 4294967296) (env : Env)
    {str filename : Option CStr} (lineno : Int32) (hstr : ∀ s ∈ str, s.InRange)
    (hfile : ∀ s ∈ filename, s.InRange) :
    ∃ m', log2memWrite G.handle env str filename lineno m = some (m', G.slot (n % G.numRows)) ∧
      RowHolds G.rowLen m' (G.slot (n % G.numRows)) (recFormat.fit G.rowLen
        (offered (locationPushes G.cfg.options.toNat filename lineno ++ strPushes str))) ∧
      m'.word (G.slot (n % G.numRows) + 16) = n % 4294967296 ∧
      m'.word 28 = (n + 1) % 4294967296 ∧ Mem.Frame (G.acquired n) m m' := by
  have hbase := G.slot_base (n % G.numRows)
  obtain ⟨m₁, e₁, hrow₁, hid₁, hnext₁, f₁⟩ := h.initRow_spec hn env filename lineno
    (locationPushes_exact hfile)
  obtain ⟨m₂, e₂, hrow₂, f₂⟩ := runPushes_spec (strPushes_exact hstr) hrow₁
  refine ⟨m₂, ?_, ?_, ?_, ?_, f₁.trans (frame_acquired f₂)⟩
  · simp [log2memWrite_eq, e₁, e₂]
  · rw [show offered (locationPushes G.cfg.options.toNat filename lineno ++ strPushes str) = _ from
      List.map_append]
    exact hrow₂
  · rw [f₂.word_of_Ico (by omega), hid₁]
  · rw [f₂.word_of_Ico (by omega), hnext₁]

/-- Acquiring a row without a location leaves it empty. -/
theorem Mapped.emptyRow_spec (h : Mapped G m) (hn : m.word 28 = n % 4294967296) (env : Env) :
    ∃ m', initRow G.handle env none 0 m = some (m', G.slot (n % G.numRows)) ∧
      RowHolds G.rowLen m' (G.slot (n % G.numRows)) [] ∧
      m'.word (G.slot (n % G.numRows) + 16) = n % 4294967296 ∧
      m'.word 28 = (n + 1) % 4294967296 ∧ Mem.Frame (G.acquired n) m m' :=
  h.initRow_spec hn env none 0 (by simp [locationPushes])

/-- EVENT: an event of exact length leaves its records in slot `n % num_rows`, together or not at
    all. -/
theorem Mapped.event_spec (h : Mapped G m) (hn : m.word 28 = n % 4294967296) (env : Env) {e : Event}
    (he : e.Exact) :
    ∃ m', log2memTimeEvent4 G.handle env e m = some (m', G.slot (n % G.numRows)) ∧
      RowHolds G.rowLen m' (G.slot (n % G.numRows)) (recFormat.fit G.rowLen [e.recs]) ∧
      m'.word (G.slot (n % G.numRows) + 16) = n % 4294967296 ∧
      m'.word 28 = (n + 1) % 4294967296 ∧ Mem.Frame (G.acquired n) m m' := by
  have hbase := G.slot_base (n % G.numRows)
  obtain ⟨m₁, e₁, hrow₁, hid₁, hnext₁, f₁⟩ := h.emptyRow_spec hn env
  obtain ⟨m₂, e₂, hrow₂, f₂⟩ := pushRecord_keep (Event.writes he) hrow₁
  rw [← eventBody_eq hrow₁] at e₂
  refine ⟨m₂, by simp [log2memTimeEvent4, e₁, e₂], hrow₂, ?_, ?_, f₁.trans (frame_acquired f₂)⟩
  · rw [f₂.word_of_Ico (by omega), hid₁]
  · rw [f₂.word_of_Ico (by omega), hnext₁]

/-- OVERRUN: an event of any other length faults. -/
theorem Mapped.event_none (h : Mapped G m) (hn : m.word 28 = n % 4294967296) (env : Env) {e : Event}
    (he : ¬ e.Exact) : log2memTimeEvent4 G.handle env e m = none := by
  have hbase := G.slot_base (n % G.numRows)
  obtain ⟨m₁, e₁, hrow₁, -, -, f₁⟩ := h.emptyRow_spec hn env
  have hneg := Event.lenNeeded_neg he
  have htest : fits (G.slot (n % G.numRows)) e.lenNeeded m₁ = some true := by
    rw [hrow₁.fits_eq, recFormat.total_nil]
    exact congrArg some (decide_eq_true (by omega))
  have hfault := (Event.overruns he).faults m₁ (G.slot (n % G.numRows) + 24) (by omega)
    (by rw [f₁.size]; exact h.size_lt)
  have hbody : eventBody (G.slot (n % G.numRows)) e m₁ = none := by
    simp [eventBody, htest, hfault]
  simp [log2memTimeEvent4, e₁, hbody]

end Acquiring

end Log2mem
