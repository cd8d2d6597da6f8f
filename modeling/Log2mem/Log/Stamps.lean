import Log2mem.Log.Refinement

/-! The stamp of a row: its id, the time it was acquired, and the thread.

    `__log2mem_init_row` stores the thread id under `MEMLOG_THREADID` and the time under a clock source;
    what is pushed afterwards starts behind them, and `log2mem_set_ts` replaces the time. `print_rows`
    reads under the same options, so a field left over from the slot's last row is never printed.

        acquire ─▶ │ tid │ ts │ id │ datalen │ ◀─ pushes from +20 on
                            ▲ log2mem_set_ts            -/

namespace Log2mem
open Schemes

/-- `log2mem_set_ts`; nothing for a null row pointer. -/
def log2memSetTs (r : Option ℤ) (ts : UInt64) : Mem → Option Mem :=
  onRow r fun r m => m.store (r + 8) (leBytes 8 ts.toNat)

/-- The time and the thread a row is stamped with. -/
structure Stamp where
  ts : ℕ
  tid : Int32

/-- The stamp of a row acquired under these readings. -/
def Env.stamp (options : ℕ) (env : Env) : Stamp := ⟨(rowTs options env).getD 0, env.tid⟩

/-- The readings a call acquires its row under. -/
def Op.env? : Op → Option Env
  | .write _ _ _ env | .getRow _ _ env | .event4 _ env | .event2 _ _ env | .event3 _ _ _ env => some env
  | .append _ _ => none

/-- The row at `r` has this stamp, as far as the options ask for one. -/
structure Stamped (options : ℕ) (m : Mem) (r : ℤ) (st : Stamp) : Prop where
  tid : options &&& optThreadId ≠ 0 → m.word r = st.tid.toUInt32.toNat
  ts : options &&& 12 ≠ 0 → m.get (r + 8) 8 = leBytes 8 st.ts

/-- What `print_rows` prints before the items of row `k`: id, time and thread id, unless `g_terse`. -/
def stampText (g : Globals) (f : Printf) (options k : ℕ) (st : Stamp) : Text :=
  if g.terse then []
  else f.int (toInt32 (k % 4294967296 : ℕ)) ++ [32] ++
    clockText f options (st.ts % 18446744073709551616) ++
    if options &&& optThreadId = 0 then [] else [91] ++ f.int st.tid.toInt ++ [93, 32]

section Stamps
variable {rowLen options k : ℕ} {m m' : Mem} {r : ℤ} {st : Stamp}

theorem Stamped.frame {S : Set ℤ} (hs : Stamped options m r st) (hf : Mem.Frame S m m')
    (hout : ∀ x ∈ S, x < r ∨ r + 16 ≤ x) : Stamped options m' r st :=
  ⟨fun ho => (hf.word_of_outside hout (le_refl _) (by omega)).trans (hs.tid ho),
    fun ho => (hf.get_of_outside hout (by omega) (by omega)).trans (hs.ts ho)⟩

theorem clock_cases (options : ℕ) :
    options &&& 12 = 0 ∨ options &&& 12 = 4 ∨ options &&& 12 = 8 ∨ options &&& 12 = 12 := by
  have hall : ∀ o < 13, o &&& 12 = o → o = 0 ∨ o = 4 ∨ o = 8 ∨ o = 12 := by decide
  have hle : options &&& 12 ≤ 12 := Nat.and_le_right
  exact hall _ (by omega) (by rw [Nat.and_assoc, Nat.and_self])

/-- Under a clock source a time is read, and under no other. -/
theorem rowTs_isSome (ho : options &&& 12 ≠ 0) (env : Env) :
    rowTs options env = some (env.stamp options).ts := by
  rcases clock_cases options with h | h | h | h
  · exact absurd h ho
  all_goals simp [Env.stamp, rowTs, h]

theorem stampTid_stores (h : HeadRoom m r) (env : Env) : ∃ m₁, stampTid r env m = some m₁ ∧
    (m.word 32 &&& optThreadId ≠ 0 → m₁.word r = env.tid.toUInt32.toNat) ∧
    Mem.Frame (Set.Ico r (r + 4)) m m₁ := by
  have hbase := h.base
  have hroom := h.room
  simp only [stampTid, hdrOptions_room h, Option.bind_eq_bind, Option.bind_some]
  split
  · obtain ⟨m₁, e, f, w⟩ := Mem.store32_spec (m := m) (a := r) ⟨by omega, by omega⟩
      env.tid.toUInt32.toNat
    exact ⟨m₁, e, fun _ => by rw [w, Nat.mod_eq_of_lt (UInt32.toNat_lt _)], f⟩
  · rename_i hno
    exact ⟨m, rfl, fun hyes => absurd hyes hno, .refl ..⟩

theorem stampTs_stores (h : HeadRoom m r) (env : Env) : ∃ m₁, stampTs r env m = some m₁ ∧
    (m.word 32 &&& 12 ≠ 0 → m₁.get (r + 8) 8 = leBytes 8 (env.stamp (m.word 32)).ts) ∧
    Mem.Frame (Set.Ico (r + 8) (r + 16)) m m₁ := by
  have hbase := h.base
  have hroom := h.room
  simp only [stampTs, hdrOptions_room h, Option.bind_eq_bind, Option.bind_some]
  by_cases ho : m.word 32 &&& 12 = 0
  · have hnone : rowTs (m.word 32) env = none := by simp [rowTs, ho]
    rw [hnone]
    exact ⟨m, rfl, fun hyes => absurd ho hyes, .refl ..⟩
  · rw [rowTs_isSome ho env]
    obtain ⟨m₁, e, f, g⟩ := Mem.store_spec m (r + 8) (leBytes 8 (env.stamp (m.word 32)).ts)
      ⟨by omega, by rw [leBytes_length]; push_cast; omega⟩
    rw [leBytes_length] at f g
    exact ⟨m₁, e, fun _ => g, f.ico_mono (le_refl _) (by push_cast; omega)⟩

theorem stamp_spec (h : HeadRoom m r) (env : Env) : ∃ m₁ m₂, stampTid r env m = some m₁ ∧
    stampTs r env m₁ = some m₂ ∧ Stamped (m.word 32) m₂ r (env.stamp (m.word 32)) ∧
    Mem.Frame (Set.Ico r (r + 16)) m m₂ := by
  have hbase := h.base
  obtain ⟨m₁, e₁, w₁, f₁⟩ := stampTid_stores h env
  obtain ⟨m₂, e₂, g₂, f₂⟩ := stampTs_stores (h.frame f₁) env
  have hopt : m₁.word 32 = m.word 32 := f₁.word_of_Ico (by omega)
  rw [hopt] at g₂
  refine ⟨m₁, m₂, e₁, e₂, ⟨fun ho => ?_, g₂⟩,
    (f₁.ico_mono (le_refl r) (by omega)).trans (f₂.ico_mono (by omega) (le_refl _))⟩
  rw [f₂.word_of_Ico (by omega)]
  exact w₁ ho

/-- SLOT: initialising a slot stamps it, and its location is pushed behind the stamp. -/
theorem initSlot_stamped (h : SlotRoom rowLen m r) {rowid : ℕ} (hid : rowid < 4294967296) (env : Env)
    (filename : Option CStr) (lineno : Int32)
    (hloc : ∀ p ∈ locationPushes (m.word 32) filename lineno, p.Exact) :
    ∃ m', initSlot r rowid env filename lineno m = some m' ∧
      Stamped (m.word 32) m' r (env.stamp (m.word 32)) := by
  have hb := h.base
  obtain ⟨m₁, m₂, e₁, e₂, hst, f₂⟩ := stamp_spec h.head env
  have h₂ := h.frame_ico f₂ (Or.inl (by omega))
  obtain ⟨m₃, e₃, -, f₃⟩ := stampId_spec h₂.head hid
  have h₃ := h₂.frame_ico f₃ (Or.inl (by omega))
  obtain ⟨m₄, e₄, d₄, f₄⟩ := resetDatalen_spec h₃.head
  have h₄ := h₃.frame_ico f₄ (Or.inl (by omega))
  have hopt : m₄.word 32 = m.word 32 := by
    rw [f₄.word_of_Ico (by omega), f₃.word_of_Ico (by omega), f₂.word_of_Ico (by omega)]
  have hempty : RowHolds rowLen m₄ r (recFormat.fit rowLen []) := h₄.empty d₄
  obtain ⟨m₅, e₅, -, f₅⟩ := runPushes_spec hloc hempty
  refine ⟨m₅, ?_, ((hst.frame f₃ fun x hx => ?_).frame f₄ fun x hx => ?_).frame f₅ fun x hx => ?_⟩
  · simp only [initSlot, e₁, e₂, e₃, e₄, hdrOptions_room h₄.head, hopt, Option.bind_eq_bind,
      Option.bind_some, e₅]
  · have := hx.1; omega
  · have := hx.1; omega
  · have := hx.1; omega

/-- PREFIX: what `print_rows` prints before the items is the stamp. -/
theorem Stamped.rowPrefix_eq (hst : Stamped options m r st) (hopt : hdrOptions m = some options)
    (hin : m.InBounds r 24) (hid : m.word (r + 16) = k % 4294967296) (g : Globals) (f : Printf) :
    rowPrefix g f r m = some (stampText g f options k st) := by
  obtain ⟨h0, h1⟩ := hin
  have hrow : rowId r m = some (k % 4294967296) := by
    rw [← hid]
    exact Mem.load32_eq ⟨by omega, by omega⟩
  have htid : options &&& optThreadId ≠ 0 → m.load32 r = some st.tid.toUInt32.toNat := fun ho => by
    rw [← hst.tid ho]
    exact Mem.load32_eq ⟨by omega, by omega⟩
  have hts : options &&& 12 ≠ 0 → m.load64 (r + 8) = some (st.ts % 18446744073709551616) := fun ho => by
    rw [Mem.load64, Mem.load_eq ⟨by omega, by omega⟩, Option.map_some, hst.ts ho, ofLe_leBytes]
    rfl
  unfold rowPrefix stampText
  cases g.terse with
  | true => rfl
  | false =>
    simp only [Bool.false_eq_true, if_false, hrow, hopt, Option.bind_eq_bind, Option.bind_some,
      Option.pure_def]
    -- the time and the thread id are read exactly when they are printed
    by_cases hclock : options &&& 12 = 0
    · by_cases hthread : options &&& optThreadId = 0
      · simp [hclock, hthread, clockText]
      · simp [hclock, hthread, clockText, htid hthread, toInt32_int32]
    · by_cases hthread : options &&& optThreadId = 0
      · simp [hclock, hthread, hts hclock]
      · simp [hclock, hthread, hts hclock, htid hthread, toInt32_int32]

end Stamps

section Acquiring
variable {G : Geometry} {m m' : Mem} {n : ℕ}

/-- ACQUIRE: an acquired row is stamped. -/
theorem Mapped.initRow_stamped (h : Mapped G m) (hn : m.word 28 = n % 4294967296) (env : Env)
    (filename : Option CStr) (lineno : Int32)
    (hloc : ∀ p ∈ locationPushes G.cfg.options.toNat filename lineno, p.Exact) {r : ℤ}
    (e : initRow G.handle env filename lineno m = some (m', r)) :
    Stamped G.cfg.options.toNat m' r (env.stamp G.cfg.options.toNat) := by
  have hslot : n % G.numRows < G.numRows := Nat.mod_lt _ G.numRows_pos
  obtain ⟨m₁, e₁, -, f₁⟩ := h.fetchRowid_spec
  have h₁ : Mapped G m₁ := h.frame f₁ fun x hx => by have := hx.2; omega
  have hptr := h₁.rowPtr_eq (m.word_lt 28)
  rw [hn, G.wrapped_slot] at hptr
  have hopt : m₁.word 32 = G.cfg.options.toNat := h₁.header.options
  obtain ⟨m₂, e₂, hst⟩ := initSlot_stamped (h₁.slotRoom hslot) (m.word_lt 28) env filename lineno
    (by rw [hopt]; exact hloc)
  rw [hopt] at hst
  rw [hn] at e₂
  simp only [initRow, e₁, hn, hptr, e₂, Option.bind_eq_bind, Option.bind_some, Option.pure_def,
    Option.some.injEq, Prod.mk.injEq] at e
  rw [← e.1, ← e.2]
  exact hst

/-- CALL: the row a call acquires has the stamp of its readings when the call returns. -/
theorem Mapped.call_stamped {s s' : LogState} (h : Mapped G s.mem)
    (hn : s.mem.word 28 = n % 4294967296) {op : Op} (hop : op.Allowed G.numRows n) {env : Env}
    (henv : op.env? = some env) (e : op.call G.handle s = some s') :
    Stamped G.cfg.options.toNat s'.mem (G.slot (n % G.numRows)) (env.stamp G.cfg.options.toNat) := by
  have hevent : ∀ {ev : Event} {m' : Mem} {r : ℤ}, ev.Exact →
      log2memTimeEvent4 G.handle env ev s.mem = some (m', r) →
      Stamped G.cfg.options.toNat m' (G.slot (n % G.numRows)) (env.stamp G.cfg.options.toNat) := by
    intro ev m' r hev e
    obtain ⟨m₁, e₁, hrow₁, -⟩ := h.emptyRow_spec hn env
    obtain ⟨m₂, e₂, -, f₂⟩ := pushRecord_keep (Event.writes hev) hrow₁
    rw [← eventBody_eq hrow₁] at e₂
    simp only [log2memTimeEvent4, e₁, e₂, Option.bind_eq_bind, Option.bind_some, Option.pure_def,
      Option.some.injEq, Prod.mk.injEq] at e
    rw [← e.1]
    exact (h.initRow_stamped hn env none 0 (by simp [locationPushes]) e₁).frame f₂
      fun x hx => Or.inr (by have := hx.1; omega)
  cases op with
  | write str filename lineno env' =>
    obtain rfl : env' = env := Option.some.inj henv
    have hstr : ∀ x ∈ str, x.InRange := fun x hx => (hop.1 x hx).inRange
    have hfile : ∀ x ∈ filename, x.InRange := fun x hx => (hop.2 x hx).inRange
    obtain ⟨m₁, e₁, hrow₁, -⟩ := h.initRow_spec hn env' filename lineno (locationPushes_exact hfile)
    obtain ⟨m₂, e₂, -, f₂⟩ := runPushes_spec (strPushes_exact hstr) hrow₁
    simp only [Op.call, log2memWrite_eq, e₁, e₂, Option.bind_eq_bind, Option.bind_some,
      Option.pure_def, Option.some.injEq] at e
    rw [← e]
    exact (h.initRow_stamped hn env' filename lineno (locationPushes_exact hfile) e₁).frame f₂
      fun x hx => Or.inr (by have := hx.1; omega)
  | getRow filename lineno env' =>
    obtain rfl : env' = env := Option.some.inj henv
    have hfile : ∀ x ∈ filename, x.InRange := fun x hx => (hop x hx).inRange
    obtain ⟨m₁, e₁, -⟩ := h.initRow_spec hn env' filename lineno (locationPushes_exact hfile)
    simp only [Op.call, log2memGetRow, e₁, Option.bind_eq_bind, Option.bind_some, Option.pure_def,
      Option.some.injEq] at e
    rw [← e]
    exact h.initRow_stamped hn env' filename lineno (locationPushes_exact hfile) e₁
  | event4 ev env' =>
    obtain rfl : env' = env := Option.some.inj henv
    simp only [Op.call, Option.bind_eq_bind, Option.bind_eq_some_iff, Option.pure_def,
      Option.some.injEq] at e
    obtain ⟨⟨m', r⟩, e, rfl⟩ := e
    exact hevent hop.exact e
  | event2 flowid msgid env' =>
    obtain rfl : env' = env := Option.some.inj henv
    simp only [Op.call, Option.bind_eq_bind, Option.bind_eq_some_iff, Option.pure_def,
      Option.some.injEq] at e
    obtain ⟨⟨m', r⟩, e, rfl⟩ := e
    exact hevent (Event.Short.exact (by simp [Event.Short, Event.msg])) e
  | event3 flowid msgid msgstr env' =>
    obtain rfl : env' = env := Option.some.inj henv
    simp only [Op.call, Option.bind_eq_bind, Option.bind_eq_some_iff, Option.pure_def,
      Option.some.injEq] at e
    obtain ⟨⟨m', r⟩, e, rfl⟩ := e
    exact hevent (event3_short flowid msgid hop).exact e
  | append k a => exact absurd henv (by simp [Op.env?])

theorem Mapped.append_stamped {s s' : LogState} {k j : ℕ} {a : Append} {recs : List Rec} {st : Stamp}
    (hrow : RowHolds G.rowLen s.mem (G.slot (k % G.numRows)) recs)
    (hr : s.rows[k]? = some (G.slot (k % G.numRows))) (ha : a.InRange)
    (e : (Op.append k a).call G.handle s = some s') {options : ℕ}
    (hst : Stamped options s.mem (G.slot j) st) : Stamped options s'.mem (G.slot j) st := by
  have hbase := G.slot_base j
  obtain ⟨m', e', -, hf⟩ := hrow.append_spec ha
  simp only [Op.call, hr, e', Option.bind_eq_bind, Option.bind_some, Option.pure_def,
    Option.some.injEq] at e
  rw [← e]
  refine hst.frame (hf.mono Set.inter_subset_right) fun x hx => ?_
  by_cases hj : k % G.numRows = j
  · rw [← hj]
    exact Or.inr (by have := hx.1; omega)
  · have := G.mem_slotBytes_of_ne hj ⟨by have := hx.1; omega, hx.2⟩
    omega

/-- SET: `log2mem_set_ts` on a slot replaces its time. -/
theorem Mapped.setTs_spec (h : Mapped G m) {j : ℕ} (hj : j < G.numRows) (ts : UInt64) :
    ∃ m', log2memSetTs (some (G.slot j)) ts m = some m' ∧
      m'.get (G.slot j + 8) 8 = leBytes 8 ts.toNat ∧
      Mem.Frame (Set.Ico (G.slot j + 8) (G.slot j + 16)) m m' := by
  obtain ⟨h0, h1⟩ := h.slot_inBounds hj
  obtain ⟨m', e, f, g⟩ := Mem.store_spec m (G.slot j + 8) (leBytes 8 ts.toNat)
    ⟨by omega, by rw [leBytes_length]; push_cast; omega⟩
  rw [leBytes_length] at f g
  exact ⟨m', e, g, f.ico_mono (le_refl _) (by push_cast; omega)⟩

end Acquiring

end Log2mem
