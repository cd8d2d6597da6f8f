import Log2mem.Ring.Isolation

/-! The length arithmetic of the string writers (`__log2mem_push_str`, `log2mem_time_event4`).

    `len + 1` is an `int`, its sum with the header size a `size_t`, the result an `int` again. The space
    test compares that result, so it decides the copy rightly only where every step kept its value.

        len ──+ 1──▶ int ──▶ size_t ──+ 8──▶ size_t ──▶ int totlen ──≤ remain──▶ memcpy(…, len) -/

namespace Log2mem
open Schemes

/-- A row with `datalen` bytes in use, whatever they are. -/
structure RowAt (rowLen datalen : ℕ) (m : Mem) (r : ℤ) : Prop where
  room : SlotRoom rowLen m r
  used : m.word (r + 20) = datalen
  le : datalen ≤ rowLen

/-- No step of the arithmetic on `len` overflows or changes a sign; `base` bytes precede the string's
    record. -/
structure LenKept (base : ℤ) (len : Int32) : Prop where
  inc : len.toInt + 1 < 2147483648
  widen : 0 ≤ len.toInt + 1
  narrow : base + (8 + (len.toInt + 1)) < 2147483648

/-- The string and its record header, behind `base` bytes, fit into `remain` bytes. -/
def StrFits (base : ℤ) (len : Int32) (remain : ℤ) : Prop :=
  0 ≤ len.toInt ∧ base + (8 + len.toInt + 1) ≤ remain

/-- `__log2mem_push_str` is exact on `len`: `totlen` is the integer it stands for, the copy is made only
    when it fits, and the row is left alone otherwise. -/
structure PushStrExact (remain : ℤ) (r : ℤ) (type : DataType) (len : Int32) (str : Buf) (m : Mem) :
    Prop where
  arith : LenKept 0 len
  totlen : strTotlen len = 8 + len.toInt + 1
  copies : fits r (strTotlen len) m = some true → StrFits 0 len remain
  skips : ¬ StrFits 0 len remain → log2memPushStr r type len str m = some m

/-- `log2mem_time_event4` is exact on `len`, once it has its row: without a message the two `int`
    records are all there is to it. -/
structure EventExact (remain : ℤ) (r : ℤ) (e : Event) (m : Mem) : Prop where
  arith : e.msg.isSome → LenKept 24 e.len
  lenNeeded : e.lenNeeded = 24 + if e.msg.isSome then 8 + e.len.toInt + 1 else 0
  copies : e.msg.isSome → fits r e.lenNeeded m = some true → StrFits 24 e.len remain
  skips : e.msg.isSome → ¬ StrFits 24 e.len remain → eventBody r e m = some m
  without : e.msg = none → eventBody r e m = eventBody r { e with str := none } m

section Rows
variable {rowLen datalen : ℕ} {m : Mem} {r : ℤ} {recs : List Rec}

theorem RowAt.fits_eq (h : RowAt rowLen datalen m r) (totlen : ℤ) :
    fits r totlen m = some (decide (totlen ≤ rowLen - datalen)) := by
  rw [h.room.fits_eq (by rw [h.used]; exact h.le), h.used]

theorem RowAt.fits_iff (h : RowAt rowLen datalen m r) (totlen : ℤ) :
    fits r totlen m = some true ↔ totlen ≤ rowLen - datalen := by
  rw [h.fits_eq, Option.some.injEq, decide_eq_true_eq]

theorem RowAt.pushRecord_skip (h : RowAt rowLen datalen m r) {totlen : ℤ}
    (hn : ¬ totlen ≤ rowLen - datalen) (put : ℤ → Mem → Option Mem) :
    pushRecord r totlen put m = some m := by
  simp [pushRecord, h.fits_eq, hn]

theorem RowAt.eventBody_skip (h : RowAt rowLen datalen m r) {e : Event}
    (hn : ¬ e.lenNeeded ≤ rowLen - datalen) : eventBody r e m = some m := by
  simp [eventBody, h.fits_eq, hn]

/-- Where every step of the arithmetic keeps its value, `totlen` is exact. -/
theorem LenKept.strTotlen_eq {len : Int32} (h : LenKept 0 len) : strTotlen len = 8 + len.toInt + 1 := by
  obtain ⟨h1, h2, h3⟩ := h
  have hinc : toInt32 (len.toInt + 1) = len.toInt + 1 := toInt32_of_range (by omega) h1
  rw [strTotlen, toInt32_toSize, hinc, toInt32_of_range (by omega) (by omega)]
  ring

/-- PUSH: a string push is exact on its length exactly when the record's size is an `int`, or the
    length is `-1` and the header alone does not fit. -/
theorem RowAt.pushStrExact_iff (h : RowAt rowLen datalen m r) (type : DataType) (len : Int32)
    (str : Buf) : PushStrExact (rowLen - datalen) r type len str m ↔
      ExactLen len ∨ len.toInt = -1 ∧ rowLen < datalen + 8 := by
  constructor
  · intro hx
    obtain ⟨h1, h2, h3⟩ := hx.arith
    by_cases h0 : 0 ≤ len.toInt
    · exact Or.inl ⟨h0, by omega⟩
    · refine Or.inr ⟨by omega, ?_⟩
      by_contra hroom
      refine h0 (hx.copies ((h.fits_iff _).mpr ?_)).1
      rw [hx.totlen]
      omega
  · intro hlen
    have hkept : LenKept 0 len := by
      rcases hlen with ⟨h0, h1⟩ | ⟨h0, -⟩
      · exact ⟨by omega, by omega, by omega⟩
      · exact ⟨by omega, by omega, by omega⟩
    have hfit : strTotlen len ≤ rowLen - datalen → StrFits 0 len (rowLen - datalen) := by
      intro hle
      rw [hkept.strTotlen_eq] at hle
      rcases hlen with ⟨h0, -⟩ | ⟨h0, h1⟩
      · exact ⟨h0, by omega⟩
      · omega
    refine ⟨hkept, hkept.strTotlen_eq, fun hf => hfit ((h.fits_iff _).mp hf), fun hn => ?_⟩
    exact h.pushRecord_skip (fun hle => hn (hfit hle)) _

/-- EVENT: a time event is exact on its length exactly when it has no message, or the size of its
    records is an `int`. -/
theorem RowAt.eventExact_iff (h : RowAt rowLen datalen m r) (e : Event) :
    EventExact (rowLen - datalen) r e m ↔ e.Exact := by
  constructor
  · intro hx hmsg
    have := (hx.arith hmsg).narrow
    omega
  · intro he
    have hneeded : e.lenNeeded = 24 + if e.msg.isSome then 8 + e.len.toInt + 1 else 0 := by
      rw [(Event.writes he).totlen, e.total_recs]
      split <;> ring
    have hpos : e.msg.isSome → 0 < e.len.toInt := fun hmsg => by
      obtain ⟨str, hstr⟩ := Option.isSome_iff_exists.mp hmsg
      exact e.msg_pos hstr
    have hfit : e.msg.isSome → e.lenNeeded ≤ rowLen - datalen → StrFits 24 e.len (rowLen - datalen) :=
      fun hmsg hle => by
        rw [hneeded, if_pos hmsg] at hle
        exact ⟨le_of_lt (hpos hmsg), hle⟩
    refine ⟨fun hmsg => ?_, hneeded, fun hmsg hf => hfit hmsg ((h.fits_iff _).mp hf), fun hmsg hn => ?_,
      fun hnone => ?_⟩
    · have hle := he hmsg
      have hlt := hpos hmsg
      exact ⟨by omega, by omega, by omega⟩
    · exact h.eventBody_skip fun hle => hn (hfit hmsg hle)
    · have hsame : ({ e with str := none } : Event).msg = none := by simp [Event.msg]
      simp only [eventBody, Event.lenNeeded, Event.put, hnone, hsame]

end Rows

/-- LENGTHS: on every row with `datalen ≤ row_len < 2 ^ 31`, for every length and every source buffer, a
    string push is exact exactly when the size of its record is an `int` (or the length is `-1` and not
    even the header fits), and a time event exactly when it has no message or the size of its records is
    an `int`. -/
theorem string_lengths_exact_iff {rowLen datalen : ℕ} {m : Mem} {r : ℤ}
    (h : RowAt rowLen datalen m r) (type : DataType) (len : Int32) (str : Buf) (e : Event) :
    (PushStrExact (rowLen - datalen) r type len str m ↔
      (0 ≤ len.toInt ∧ len.toInt ≤ 2147483638) ∨ (len.toInt = -1 ∧ rowLen < datalen + 8)) ∧
    (EventExact (rowLen - datalen) r e m ↔ (e.msg.isSome → e.len.toInt ≤ 2147483614)) :=
  ⟨h.pushStrExact_iff type len str, h.eventExact_iff e⟩

theorem fresh_rowAt : ∃ m, RowAt 16 0 m (twoRows.slot 0) := by
  obtain ⟨m, -, hm, hn, hz⟩ := twoRows.created []
  have hblank := (Ring.start hm hn hz).blank 0 (Nat.zero_le _) twoRows.numRows_pos
  exact ⟨m, hm.slotRoom twoRows.numRows_pos, hblank.2, Nat.zero_le _⟩

/-- There a string of 7 bytes is pushed exactly, and a message of 7 bytes is refused exactly. -/
theorem string_lengths_exact_seven : ∃ m, RowAt 16 0 m (twoRows.slot 0) ∧
    PushStrExact 16 (twoRows.slot 0) .string 7 (fun _ => 65) m ∧
    EventExact 16 (twoRows.slot 0) ⟨1, 2, some fun _ => 65, 7⟩ m := by
  obtain ⟨m, h⟩ := fresh_rowAt
  have hiff := string_lengths_exact_iff h .string 7 (fun _ => 65) ⟨1, 2, some fun _ => 65, 7⟩
  exact ⟨m, h, hiff.1.mpr (Or.inl (by decide)), hiff.2.mpr fun _ => by decide⟩

/-- There a length of `-1` passes the space test as 8 bytes, and the copy of `2 ^ 64 - 1` bytes faults. -/
theorem string_lengths_not_exact : ¬ ∀ (rowLen datalen : ℕ) (m : Mem) (r : ℤ) (type : DataType)
    (len : Int32) (str : Buf), RowAt rowLen datalen m r →
    PushStrExact (rowLen - datalen) r type len str m := by
  intro hall
  obtain ⟨m, h⟩ := fresh_rowAt
  have hx := hall 16 0 m _ .string (-1) (fun _ => 65) h
  exact absurd (hx.copies ((h.fits_iff _).mpr (by decide))).1 (by decide)

end Log2mem
