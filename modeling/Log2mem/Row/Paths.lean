import Log2mem.Dump.RoundTrip
import Log2mem.Schemes.Agree

/-! The one-shot timing path and the record-by-record path.

    `log2mem_time_event4` tests once for the room of all its records and writes them in a row;
    `log2mem_append_int` and `log2mem_append_str2` test, write and step `datalen` for each. Where the
    combined test passes, every single one does, and two pushes in a row leave the very bytes that one
    push of both records leaves. What is appended later treats equal rows alike.

        get_row ──▶ push int ──▶ push int ──▶ push str        │ datalen stepped three times
           ║           ╚═══════════╩═══════════╝
        get_row ──▶ put int · put int · put str               │ datalen stepped once -/

namespace Log2mem
open Schemes

/-- The rows at `r` are equal: `datalen` and every byte of the payload. -/
structure SameRow (rowLen : ℕ) (r : ℤ) (m m' : Mem) : Prop where
  datalen : m'.word (r + 20) = m.word (r + 20)
  payload : m'.get (r + 24) rowLen = m.get (r + 24) rowLen

/-- Later appends on the row at `r`. -/
def runAppends (r : ℤ) : List Append → Mem → Option Mem
  | [], m => some m
  | a :: as, m => (a.run (some r) m).bind (runAppends r as)

/-- The record-by-record path. -/
def recordByRecord (h : Handle) (env : Env) (flowid msgref : Int32) (str : Option Buf) (len : Int32)
    (m : Mem) : Option (Mem × ℤ) := do
  let (m, r) ← log2memGetRow h env none 0 m
  let m ← log2memAppendInt (some r) flowid m
  let m ← log2memAppendInt (some r) msgref m
  if str.isSome ∧ 0 < len.toInt then return (← log2memAppendStr2 (some r) str len m, r)
  else return (m, r)

/-! ### Writers treat equal rows alike -/

section Uniform
variable {r : ℤ} {put : ℤ → Mem → Option Mem}

/-- What a push reads of the memmap: `row_len` and `row->datalen`. -/
def pushReads (r : ℤ) : Set ℤ := Set.Ico 44 48 ∪ Set.Ico (r + 20) (r + 24)

theorem putHdr_uniform (ptr : ℤ) (type : DataType) (datalen : ℤ) :
    Mem.Uniform ∅ (putHdr ptr type datalen) :=
  (Mem.uniform_store ptr [type.code]).bind (Mem.uniform_store32 (ptr + 4) (toU32 (8 + datalen)))

theorem putData_uniform (type : DataType) (data : List UInt8) (ptr : ℤ) :
    Mem.Uniform ∅ (putData type data ptr) :=
  (putHdr_uniform ptr type data.length).bind (Mem.uniform_store (ptr + 8) data)

theorem putStr_uniform (type : DataType) (len : Int32) (str : Buf) (ptr : ℤ) :
    Mem.Uniform ∅ (putStr type len str ptr) :=
  (putHdr_uniform ptr type (toInt32 (len.toInt + 1))).bind
    ((Mem.uniform_copy (ptr + 8) (toSize len.toInt) str).bind
      (Mem.uniform_store (ptr + 8 + len.toInt) [0]))

theorem Push.put_uniform (p : Push) (ptr : ℤ) : Mem.Uniform ∅ (p.put ptr) := by
  cases p with
  | value v => exact putData_uniform v.type v.bytes ptr
  | string len str => exact putStr_uniform .string len str ptr
  | filename len str => exact putStr_uniform .filename len str ptr

theorem growDatalen_uniform (r totlen : ℤ) :
    Mem.Uniform (Set.Ico (r + 20) (r + 24)) (growDatalen r totlen) :=
  Mem.uniform_load32 (a := r + 20) (Set.Ico_subset_Ico_right (by omega)) fun datalen =>
    (Mem.uniform_store32 (r + 20) (toU32 (datalen + totlen))).mono (Set.empty_subset _)

/-- A push as its loads, its test and its writes. -/
theorem pushRecord_eq (r totlen : ℤ) (put : ℤ → Mem → Option Mem) : pushRecord r totlen put =
    fun m => (m.load32 44).bind fun rowLen => (m.load32 (r + 20)).bind fun datalen =>
      if totlen ≤ toInt32 (rowLen - datalen) then (m.load32 (r + 20)).bind fun datalen =>
        (put (r + 24 + datalen) m).bind (growDatalen r totlen)
      else some m := by
  funext m
  rw [pushRecord, fits]
  simp only [hdrRowLen, rowDatalen, Option.bind_eq_bind, Option.bind_assoc, Option.pure_def,
    Option.bind_some, decide_eq_true_eq]

theorem pushRecord_uniform (hput : ∀ ptr, Mem.Uniform ∅ (put ptr)) (r totlen : ℤ) :
    Mem.Uniform (pushReads r) (pushRecord r totlen put) := by
  have hlen : Set.Ico (44 : ℤ) (44 + 4) ⊆ pushReads r := Set.subset_union_left
  have hused : Set.Ico (r + 20) (r + 20 + 4) ⊆ pushReads r :=
    (Set.Ico_subset_Ico_right (by omega)).trans Set.subset_union_right
  rw [pushRecord_eq]
  refine Mem.uniform_load32 hlen fun rowLen => Mem.uniform_load32 hused fun datalen => ?_
  by_cases hfit : totlen ≤ toInt32 (rowLen - datalen)
  · simp only [if_pos hfit]
    refine Mem.uniform_load32 hused fun datalen' => ?_
    exact ((hput _).mono (Set.empty_subset _)).bind
      ((growDatalen_uniform r totlen).mono Set.subset_union_right)
  · simp only [if_neg hfit]
    exact Mem.uniform_some.mono (Set.empty_subset _)

theorem runPushes_uniform (r : ℤ) (ps : List Push) : Mem.Uniform (pushReads r) (runPushes r ps) := by
  induction ps with
  | nil => exact Mem.uniform_some.mono (Set.empty_subset _)
  | cons p ps ih =>
    have hp : Mem.Uniform (pushReads r) (p.run r) := by
      rw [p.run_eq]
      exact pushRecord_uniform p.put_uniform r p.totlen
    exact hp.bind ih

/-- LATER: whatever is appended to rows that agree, the rows go on to agree, or both calls fault. -/
theorem runAppends_uniform (r : ℤ) (as : List Append) :
    Mem.Uniform (pushReads r) (runAppends r as) := by
  induction as with
  | nil => exact Mem.uniform_some.mono (Set.empty_subset _)
  | cons a as ih =>
    have ha : Mem.Uniform (pushReads r) (a.run (some r)) := by
      have heq : a.run (some r) = runPushes r a.pushes := funext fun m => a.run_eq r m
      rw [heq]
      exact runPushes_uniform r a.pushes
    exact ha.bind ih

end Uniform

/-! ### Two pushes in a row -/

section Both
variable {rowLen : ℕ} {m : Mem} {r : ℤ} {recs g g' : List Rec} {t t' : ℤ}
  {put put' : ℤ → Mem → Option Mem}

theorem RowHolds.pushRecord_room (h : RowHolds rowLen m r recs)
    (hfit : t ≤ rowLen - recFormat.total recs) :
    pushRecord r t put m = (put (r + 24 + recFormat.total recs) m).bind (growDatalen r t) := by
  simp only [pushRecord, h.fits_eq, h.rowDatalen_eq, Option.bind_eq_bind, Option.bind_some, hfit,
    decide_true, if_true]

theorem growDatalen_eq (h : HeadRoom m r) (t : ℤ) :
    growDatalen r t m = m.store32 (r + 20) (toU32 (m.word (r + 20) + t)) := by
  rw [growDatalen, h.rowDatalen_eq]
  rfl

/-- BOTH: two pushes in a row leave the memory that one push of both records leaves. -/
theorem pushRecord_both (hw : Writes t put g) (hw' : Writes t' put' g')
    (hu : ∀ ptr, Mem.Uniform ∅ (put' ptr)) (h : RowHolds rowLen m r recs)
    (hfit : t + t' ≤ rowLen - recFormat.total recs) :
    (pushRecord r t put m).bind (pushRecord r t' put') =
      pushRecord r (t + t') (putBoth put t put') m := by
  have ht := hw.totlen
  have ht' := hw'.totlen
  have hbase := h.base
  have hroom := h.room
  have happ := recFormat.total_append recs g
  -- the first push: its records at `m₁`, its `datalen` at `m₂`
  obtain ⟨m₁, e₁, f₁, -⟩ := hw.put m (r + 24 + recFormat.total recs) ⟨by omega, by omega⟩
  obtain ⟨m₂, e₂, hrow, -⟩ := pushRecord_kept hw h (by omega)
  have hgrow : growDatalen r t m₁ = some m₂ := by
    rw [← e₂, h.pushRecord_room (by omega), e₁, Option.bind_some]
  have hhead₁ : HeadRoom m₁ r := h.slotRoom.head.frame f₁
  have hused₁ : m₁.word (r + 20) = recFormat.total recs :=
    (f₁.word_of_Ico (by omega)).trans h.datalen
  rw [growDatalen_eq hhead₁, Mem.store32] at hgrow
  obtain ⟨-, f₂⟩ := Mem.store_some hgrow
  rw [leBytes_length] at f₂
  -- the second push writes the same bytes at the same place in both
  have haddr : r + 24 + (recFormat.total (recs ++ g) : ℤ) = r + 24 + recFormat.total recs + t := by omega
  have hagree : Mem.Agree (Set.Ico (r + 20) (r + 20 + 4))ᶜ m₂ m₁ :=
    (f₂.agree fun x hx => hx).symm
  obtain ⟨m₃, e₃, f₃, -⟩ := hw'.put m₂ (r + 24 + recFormat.total (recs ++ g))
    ⟨by omega, by have := hrow.room; omega⟩
  have hrel := hu (r + 24 + recFormat.total (recs ++ g)) (Set.empty_subset _) hagree
  rw [e₃] at hrel
  obtain ⟨m₄, e₄, hagree'⟩ := Mem.rel_some hrel
  obtain ⟨m₅, e₅, f₅, -⟩ := hw'.put m₁ (r + 24 + recFormat.total (recs ++ g))
    ⟨by omega, by rw [f₁.size]; omega⟩
  rw [e₄, Option.some.injEq] at e₅
  rw [← e₅] at f₅
  -- the last store of `datalen` covers what is left to differ
  have hused₃ : m₃.word (r + 20) = recFormat.total (recs ++ g) :=
    (f₃.word_of_Ico (by omega)).trans hrow.datalen
  have hused₄ : m₄.word (r + 20) = recFormat.total recs := (f₅.word_of_Ico (by omega)).trans hused₁
  have hsum : (recFormat.total (recs ++ g) : ℤ) + t' = recFormat.total recs + (t + t') := by omega
  rw [e₂, Option.bind_some, hrow.pushRecord_room (by omega), e₃, Option.bind_some,
    growDatalen_eq (hrow.slotRoom.head.frame f₃), h.pushRecord_room hfit, putBoth, e₁, Option.bind_some,
    ← haddr, e₄, Option.bind_some, growDatalen_eq (hhead₁.frame f₅), hused₃, hused₄, hsum,
    hagree'.store32_eq]

/-- On an empty row the event is one push of all its records. -/
theorem RowHolds.eventBody_eq (h : RowHolds rowLen m r []) (e : Event) :
    eventBody r e m = pushRecord r e.lenNeeded e.put m := by
  simp [eventBody, pushRecord, h.fits_eq, h.rowDatalen_eq]

/-- The single pushes of the event's records. -/
def Event.pushes (e : Event) : List Push :=
  [.value (.int e.flowid), .value (.int e.msgref)] ++
    match e.msg with
    | some str => [.string e.len str]
    | none => []

/-- EVENT: where the records of an event fit into an empty row, the event leaves the memory that their
    single pushes leave. -/
theorem RowHolds.eventBody_pushes (h : RowHolds rowLen m r []) {e : Event} (he : e.Exact)
    (hfit : recFormat.total e.recs ≤ rowLen) : eventBody r e m = runPushes r e.pushes m := by
  have htotal := e.total_recs
  have htwo : (24 : ℤ) ≤ rowLen := by
    cases hm : e.msg with
    | none => simp only [hm, Option.isSome_none, Bool.false_eq_true, if_false] at htotal; omega
    | some str =>
      have := e.msg_pos hm
      simp only [hm, Option.isSome_some, if_true] at htotal
      omega
  have hints := pushRecord_both (putInt_writes e.flowid) (putInt_writes e.msgref)
    (putData_uniform .int (leBytes 4 e.msgref.toUInt32.toNat)) h
    (by rw [recFormat.total_nil]; omega)
  have hrun : ∀ d : Int32, (Push.value (.int d)).run r =
      pushRecord r 12 (putData .int (leBytes 4 d.toUInt32.toNat)) := fun d => by
    rw [Push.run_eq, Push.totlen, Push.put, Value.bytes, leBytes_length,
      show dataTotlen 4 = 12 by decide]
    rfl
  cases hm : e.msg with
  | none =>
    simp only [Event.pushes, hm, List.append_nil, runPushes, hrun, Option.bind_eq_bind]
    rw [h.eventBody_eq, e.lenNeeded_none hm, e.put_none hm, Event.putInts,
      show (24 : ℤ) = 12 + 12 by norm_num, ← hints]
    cases pushRecord r 12 (putData .int (leBytes 4 e.flowid.toUInt32.toNat)) m <;> simp
  | some str =>
    have hpos := e.msg_pos hm
    have hle := he (by simp [hm])
    simp only [hm, Option.isSome_some, if_true] at htotal
    have hstr := putStr_writes .string str (le_of_lt hpos) (by omega)
    have hall := pushRecord_both e.putInts_writes hstr (putStr_uniform .string e.len str) h
      (by rw [recFormat.total_nil, hstr.totlen, recFormat.total_cons, recFormat.total_nil, size_rec]
          have := strRec_length .string str (le_of_lt hpos)
          omega)
    have hlast : (Push.string e.len str).run r =
        pushRecord r (strTotlen e.len) (putStr .string e.len str) := rfl
    simp only [Event.pushes, hm, List.cons_append, List.nil_append, runPushes, hrun, hlast,
      Option.bind_eq_bind]
    rw [h.eventBody_eq, e.lenNeeded_some hm he, e.put_some hm, ← hall, Event.putInts,
      show (24 : ℤ) = 12 + 12 by norm_num, ← hints, Option.bind_assoc]
    simp

end Both

/-! ### The two paths -/

section Paths
variable {h : Handle} {m : Mem} {r : ℤ} {rowLen : ℕ}

/-- The record-by-record path is the acquisition and the single pushes. -/
theorem recordByRecord_eq (h : Handle) (env : Env) (e : Event) (m : Mem) :
    recordByRecord h env e.flowid e.msgref e.str e.len m = (initRow h env none 0 m).bind fun x =>
      (runPushes x.2 e.pushes x.1).map fun m' => (m', x.2) := by
  have hrun : ∀ (r : ℤ) (d : Int32), log2memAppendInt (some r) d = (Push.value (.int d)).run r :=
    fun r d => rfl
  simp only [recordByRecord, log2memGetRow, hrun, Option.bind_eq_bind]
  congr 1
  funext ⟨m₀, r⟩
  simp only [Option.map_eq_bind, Option.bind_assoc, runPushes, Event.pushes, List.cons_append,
    List.nil_append, Option.bind_eq_bind]
  by_cases hpos : 0 < e.len.toInt
  · cases hstr : e.str with
    | none => simp [Event.msg, hstr, runPushes]
    | some str =>
      have hlast : log2memAppendStr2 (some r) (some str) e.len = (Push.string e.len str).run r := rfl
      simp [Event.msg, hstr, hpos, hlast, runPushes]
  · simp [Event.msg, hpos, runPushes]

/-- Rows that agree on `row_len`, `datalen` and the payload are equal. -/
theorem sameRow_of_agree {S : Set ℤ} {m m' : Mem} (ha : Mem.Agree S m m') (hr : pushReads r ⊆ S)
    (hpay : Set.Ico (r + 24) (r + 24 + rowLen) ⊆ S) : SameRow rowLen r m m' where
  datalen := ha.word_eq fun x hx => hr (Or.inr ⟨hx.1, by have := hx.2; omega⟩)
  payload := ha.get_eq fun x h0 h1 => hpay ⟨h0, h1⟩

/-- All that acquiring a row leaves alone, and the row's `datalen`: what no clock reading gets to. -/
def commonBytes (r : ℤ) : Set ℤ :=
  (Set.Ico 28 32 ∪ Set.Ico r (r + 24))ᶜ ∪ Set.Ico (r + 20) (r + 20 + 4)

theorem pushReads_subset (hr : 92 ≤ r) : pushReads r ⊆ commonBytes r := by
  rintro x (hx | hx)
  · refine Or.inl fun hc => ?_
    have h1 := hx.1
    have h2 := hx.2
    rcases hc with hc | hc
    · have := hc.2; omega
    · have := hc.1; omega
  · exact Or.inr ⟨hx.1, by have := hx.2; omega⟩

theorem payload_subset (rowLen : ℕ) (hr : 92 ≤ r) : Set.Ico (r + 24) (r + 24 + rowLen) ⊆ commonBytes r := by
  rintro x hx
  refine Or.inl fun hc => ?_
  have h1 := hx.1
  rcases hc with hc | hc
  · have := hc.2; omega
  · have := hc.2; omega

/-- ACQUIRE: the same row acquired at two times is empty, and agrees on all but the clock readings. -/
theorem Acquires.both (ha : Acquires h m r) (hr : SlotRoom rowLen m r) (env env' : Env) :
    ∃ m₀ m₀', initRow h env none 0 m = some (m₀, r) ∧ initRow h env' none 0 m = some (m₀', r) ∧
      RowHolds rowLen m₀ r [] ∧ Mem.Agree (commonBytes r) m₀ m₀' ∧ m₀.word (r + 20) = 0 ∧
      Mem.Frame (Set.Ico 28 32 ∪ Set.Ico r (r + 24)) m m₀ := by
  have hbase := hr.base
  obtain ⟨m₀, e₀, d₀, f₀⟩ := ha.header hr.head env none 0
  obtain ⟨m₀', e₀', d₀', f₀'⟩ := ha.header hr.head env' none 0
  have hrun : ∀ m' : Mem, runPushes r (locationPushes (m.word 32) none 0) m' = some m' := fun _ => rfl
  rw [hrun, Option.map_some] at e₀ e₀'
  have hout : ∀ x ∈ Set.Ico 28 32 ∪ Set.Ico r (r + 24), x < 44 ∨ 48 ≤ x :=
    Mem.outside_union (Or.inr (by omega)) (Or.inl (by omega))
  exact ⟨m₀, m₀', e₀, e₀', (hr.frame f₀ hout).empty d₀,
    ((f₀.agree fun x hx => hx).symm.trans (f₀'.agree fun x hx => hx)).of_word (d₀'.trans d₀.symm), d₀, f₀⟩

/-- PATHS: whatever row is acquired next, with room for `row_len < 2 ^ 31` bytes in the mapping: if the
    records fit, the one-shot event and the record-by-record path leave equal rows, and so do all later
    appends; otherwise the event leaves the row empty and its payload untouched. The two paths may read
    different clocks. -/
theorem time_event_agrees (ha : Acquires h m r) (hr : SlotRoom rowLen m r) (env env' : Env)
    (flowid msgref : Int32) (str : Option Buf) {len : Int32} (h0 : 0 ≤ len.toInt)
    (h1 : len.toInt ≤ 2147483608) :
    ∃ m₁, log2memTimeEvent4 h env ⟨flowid, msgref, str, len⟩ m = some (m₁, r) ∧
      (24 + (if str.isSome ∧ 0 < len.toInt then 9 + len.toInt else 0) ≤ rowLen →
        ∃ m₂, recordByRecord h env' flowid msgref str len m = some (m₂, r) ∧ SameRow rowLen r m₁ m₂ ∧
          ∀ as, Option.Rel (SameRow rowLen r) (runAppends r as m₁) (runAppends r as m₂)) ∧
      (¬ 24 + (if str.isSome ∧ 0 < len.toInt then 9 + len.toInt else 0) ≤ rowLen →
        m₁.word (r + 20) = 0 ∧ m₁.get (r + 24) rowLen = m.get (r + 24) rowLen) := by
  set e : Event := ⟨flowid, msgref, str, len⟩ with he
  have hexact : e.Exact := fun _ => by rw [he]; simp only; omega
  have hneeded : (recFormat.total e.recs : ℤ) =
      24 + if str.isSome ∧ 0 < len.toInt then 9 + len.toInt else 0 := by
    have htotal := e.total_recs
    have hmsg : e.msg.isSome ↔ str.isSome ∧ 0 < len.toInt := by
      by_cases hpos : 0 < len.toInt <;> simp [Event.msg, he, hpos]
    rw [htotal, add_comm (9 : ℤ)]
    simp only [hmsg]
    rfl
  rw [← hneeded]
  obtain ⟨m₀, m₀', e₀, e₀', hempty, hagree, d₀, f₀⟩ := ha.both hr env env'
  have hreads := pushReads_subset hr.base
  have hpay := payload_subset rowLen hr.base
  obtain ⟨m₁, e₁, hkeep, -⟩ := pushRecord_keep (Event.writes hexact) hempty
  rw [← hempty.eventBody_eq] at e₁
  have hevent : log2memTimeEvent4 h env e m = some (m₁, r) := by
    simp [log2memTimeEvent4, e₀, e₁]
  refine ⟨m₁, hevent, fun hfit => ?_, fun hfit => ?_⟩
  · rw [hempty.eventBody_pushes hexact (by exact_mod_cast hfit)] at e₁
    have hrel := runPushes_uniform r e.pushes hreads hagree
    rw [e₁] at hrel
    obtain ⟨m₂, e₂, hsame⟩ := Mem.rel_some hrel
    refine ⟨m₂, ?_, sameRow_of_agree hsame hreads hpay, fun as => ?_⟩
    · have hpath := recordByRecord_eq h env' e m
      rw [e₀', Option.bind_some, e₂] at hpath
      exact hpath
    · exact Mem.rel_imp (runAppends_uniform r as hreads hsame) fun _ _ hl =>
        sameRow_of_agree hl hreads hpay
  · have hlarge : ¬ e.lenNeeded ≤ rowLen - recFormat.total [] := by
      rw [(Event.writes hexact).totlen, recFormat.total_nil]
      push_cast
      omega
    rw [hempty.eventBody_eq, pushRecord_dropped hempty hlarge, Option.some.injEq] at e₁
    rw [← e₁]
    have hbase := hr.base
    exact ⟨d₀, f₀.get_of_outside (Mem.outside_union (Or.inr (by omega)) (Or.inr (le_refl _))) (le_refl _)
      (le_refl _)⟩

end Paths

theorem smallMem_acquires : Acquires smallHandle smallMem 100 := by
  obtain ⟨⟨m₁, rowid⟩, e⟩ : ∃ x, fetchRowid smallMem = some x := Option.isSome_iff_exists.mp (by decide)
  have hptr : (fetchRowid smallMem).bind (fun x => rowPtr smallHandle x.2 x.1) = some 100 := by decide
  exact ⟨m₁, rowid, e, by rwa [e] at hptr⟩

/-- On a row of 64 bytes, an event with a message of 31 bytes agrees with its records one by one. -/
theorem time_event_agrees_small : ∃ m₁ m₂,
    log2memTimeEvent4 smallHandle smallEnv ⟨1, 2, some fun _ => 65, 31⟩ smallMem = some (m₁, 100) ∧
    recordByRecord smallHandle smallEnv 1 2 (some fun _ => 65) 31 smallMem = some (m₂, 100) ∧
    SameRow 64 100 m₁ m₂ := by
  have hroom : SlotRoom 64 smallMem 100 := ⟨by decide, by decide, by decide, by decide⟩
  obtain ⟨m₁, e₁, hfit, -⟩ := time_event_agrees smallMem_acquires hroom smallEnv smallEnv 1 2 (some fun _ => 65)
    (by decide : 0 ≤ (31 : Int32).toInt) (by decide)
  obtain ⟨m₂, e₂, hsame, -⟩ := hfit (by decide)
  exact ⟨m₁, m₂, e₁, e₂, hsame⟩

end Log2mem
