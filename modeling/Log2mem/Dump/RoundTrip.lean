import Log2mem.Row.Slot
import Log2mem.Dump.Walk

/-! Round trip of one row: the record walk of `print_rows` reads back what the writer kept.

    The writer's invariant is a chain of records in the payload; the walk follows that chain record
    by record, and stops exactly where it ends.

        initRow ──▶ append ──▶ append ──▶ …        (anything may happen outside the slot)
           │ RowHolds kept
           ▼
        walk ──▶ kept, in order, and i = datalen -/

namespace Log2mem
open Schemes

/-! ### The walk along a chain -/

/-- The visits of a walk over the records `rs` stored from position `i`. -/
def visitsFrom : ℤ → List Rec → List Visit
  | _, [] => []
  | i, r :: rs => ⟨i, r.type.code, recFormat.size r⟩ :: visitsFrom (i + recFormat.size r) rs

/-- The text of the records `rs`, printed in a loop whose `wantdelim` is `b`. -/
def recsText (g : Globals) (f : Printf) : Bool → List Rec → Text × Bool
  | b, [] => ([], b)
  | b, r :: rs =>
    let (text, b') := recText g f r
    let (rest, b'') := recsText g f b' rs
    ((if g.showdelim && b then g.delim else []) ++ text ++ rest, b'')

/-- The type and the payload bytes found at a visit. -/
def Visit.item (m : Mem) (r : ℤ) (v : Visit) : UInt8 × List UInt8 :=
  (v.type, m.get (r + 24 + v.pos + 8) (v.len - 8))

section Walk
variable {m : Mem} {r : ℤ} (g : Globals) (f : Printf)

/-- One iteration on a stored record reads that record and advances by its size. -/
theorem walkStep_rec {w : Walk} {x : Rec} (hat : x.At m (r + w.i)) (hwt : x.WellTyped) (h0 : 0 ≤ r)
    (hi : 0 ≤ w.i) (hlt : w.i + recFormat.size x < 2147483648)
    (hin : r + w.i + recFormat.size x ≤ m.size) :
    walkStep g f r w m = some
      { i := w.i + recFormat.size x, wantdelim := (recText g f x).2
        visits := w.visits ++ [⟨w.i, x.type.code, recFormat.size x⟩]
        out := w.out ++ (if g.showdelim && w.wantdelim then g.delim else []) ++ (recText g f x).1 } := by
  rw [size_rec] at hlt hin ⊢
  have htype : m.load8 (r + w.i) = some x.type.code := by
    rw [Mem.load8_eq ⟨by omega, by omega⟩, hat.type]
  have hlen : m.load32 (r + w.i + 4) = some (8 + x.payload.length) := by
    rw [Mem.load32_eq ⟨by omega, by omega⟩, hat.len]
  have hdata := printData_spec g f hat hwt (by omega) (by omega)
  simp only [walkStep, htype, hdata, hlen, Option.bind_eq_bind, Option.bind_some, Option.pure_def]
  rw [toInt32_of_range (by omega) (by omega)]

/-- WALK: over a chain that ends at `datalen`, the loop visits exactly the records of the chain. -/
theorem walk_chain (h0 : 0 ≤ r) : ∀ {rs : List Rec} {w : Walk} {fuel : ℕ}, 0 ≤ w.i →
    recFormat.Chain m (r + 24 + w.i) rs → (∀ x ∈ rs, x.WellTyped) →
    (m.word (r + 20) : ℤ) = w.i + recFormat.total rs → w.i + recFormat.total rs < 2147483648 →
    r + 24 + w.i + recFormat.total rs ≤ m.size → rs.length < fuel →
    walk g f r fuel w m = some
      { i := w.i + recFormat.total rs, wantdelim := (recsText g f w.wantdelim rs).2
        visits := w.visits ++ visitsFrom w.i rs, out := w.out ++ (recsText g f w.wantdelim rs).1 }
  | rs, w, 0, _, _, _, _, _, _, hf => absurd hf (by omega)
  | [], w, fuel + 1, hi, _, _, hd, hlt, hin, _ => by
    rw [recFormat.total_nil] at hd hlt hin ⊢
    have hload : rowDatalen r m = some (m.word (r + 20)) := Mem.load32_eq ⟨by omega, by omega⟩
    have hu := toU32_of_range hi (by omega)
    simp only [walk, hload, Option.bind_eq_bind, Option.bind_some]
    rw [if_neg (by omega)]
    simp [visitsFrom, recsText]
  | x :: rs, w, fuel + 1, hi, ⟨hat, hc⟩, hwt, hd, hlt, hin, hf => by
    rw [recFormat.total_cons] at hd hlt hin ⊢
    push_cast at hd hlt hin ⊢
    have hpos := recFormat.size_pos x
    have hload : rowDatalen r m = some (m.word (r + 20)) := Mem.load32_eq ⟨by omega, by omega⟩
    have hu := toU32_of_range hi (by omega)
    have hstep := walkStep_rec g f (w := w) hat (hwt x (by simp)) (by omega) hi (by omega) (by omega)
    simp only [walk, hload, Option.bind_eq_bind, Option.bind_some]
    rw [if_pos (by omega), hstep]
    simp only [Option.bind_some]
    rw [walk_chain h0 (by simp only; omega) (by simpa only [add_assoc] using hc)
      (fun y hy => hwt y (by simp [hy])) (by simp only; omega) (by simp only; omega)
      (by simp only; omega) (by simpa using hf)]
    simp [visitsFrom, recsText, add_assoc]

theorem visits_items : ∀ {rs : List Rec} {i : ℤ}, recFormat.Chain m (r + 24 + i) rs →
    (visitsFrom i rs).map (Visit.item m r) = rs.map fun x => (x.type.code, x.payload)
  | [], _, _ => rfl
  | x :: rs, i, ⟨hat, hc⟩ => by
    have hpay := hat.payload
    rw [visitsFrom, List.map_cons, List.map_cons, visits_items (by rwa [add_assoc] at hc)]
    simp only [Visit.item, size_rec, Nat.add_sub_cancel_left, hpay]

end Walk

/-- WALK: on a row holding `recs`, in any memory that has room for no more than `datalen` bytes, the
    loop ends at `datalen` and has visited exactly `recs`. -/
theorem RowHolds.walk_eq {rowLen : ℕ} {m : Mem} {r : ℤ} {recs : List Rec}
    (h : RowHolds rowLen m r recs) (hwt : ∀ x ∈ recs, x.WellTyped) (g : Globals) (f : Printf)
    {fuel : ℕ} (size : ℕ) (hfuel : recs.length < fuel) (hsize : r + 24 + recFormat.total recs ≤ size) :
    walk g f r fuel .start { m with size := size } = some
      { i := recFormat.total recs, wantdelim := (recsText g f false recs).2
        visits := visitsFrom 0 recs, out := (recsText g f false recs).1 } := by
  have hbase := h.base
  have hle := h.le
  have hlt := h.lt
  have hd : (({ m with size := size } : Mem).word (r + 20) : ℤ) = recFormat.total recs := by
    exact_mod_cast h.datalen
  have hchain : recFormat.Chain { m with size := size } (r + 24 + 0) recs := by
    rw [add_zero]
    exact recFormat.chain_congr (m := m) (fun _ _ _ => rfl) h.chain
  have hw := walk_chain g f (r := r) (by omega) (w := .start) (le_refl _) hchain hwt
    (by rw [hd]; simp [Walk.start]) (by simp only [Walk.start]; omega)
    (by simp only [Walk.start]; omega) hfuel
  rw [hw]
  simp [Walk.start]

/-! ### The items of a row, as the callers name them -/

/-- The item an append call names; a null string names none. -/
def Append.items : Append → List Rec
  | .str (some s) => [⟨.string, s.chars ++ [0]⟩]
  | .str none => []
  | .str2 (some b) len => [⟨.string, (List.range len.toInt.toNat).map b ++ [0]⟩]
  | .str2 none _ => []
  | .int d => [⟨.int, leBytes 4 d.toUInt32.toNat⟩]
  | .uint d => [⟨.uint, leBytes 4 d.toNat⟩]
  | .long d => [⟨.long, leBytes 8 d.toUInt64.toNat⟩]
  | .ulong d => [⟨.ulong, leBytes 8 d.toNat⟩]
  | .float bits => [⟨.float, leBytes 4 bits.toNat⟩]
  | .double bits => [⟨.double, leBytes 8 bits.toNat⟩]
  | .char d => [⟨.char, [d]⟩]

/-- The items of the source location. -/
def locationItems (options : ℕ) (filename : Option CStr) (lineno : Int32) : List Rec :=
  match filename with
  | some s =>
    if options &&& optFileLine ≠ 0 then
      [⟨.filename, s.chars ++ [0]⟩, ⟨.lineno, leBytes 4 lineno.toUInt32.toNat⟩]
    else []
  | none => []

/-- A string of at most `2 ^ 31 - 10` bytes. -/
def CStr.InRange (s : CStr) : Prop := s.chars.length ≤ 2147483638

/-- Every string length of the call is in `0 … 2 ^ 31 - 10`. -/
def Append.InRange : Append → Prop
  | .str (some s) => s.InRange
  | .str2 (some _) len => ExactLen len
  | _ => True

theorem CStr.strlen_toInt {s : CStr} (h : s.InRange) : s.strlen.toInt = s.chars.length := by
  unfold CStr.InRange at h
  exact Int32.toInt_ofNat_of_lt (by omega)

theorem CStr.exactLen {s : CStr} (h : s.InRange) : ExactLen s.strlen := by
  have := s.strlen_toInt h
  unfold CStr.InRange at h
  unfold ExactLen
  omega

theorem CStr.strRecs_eq {s : CStr} (h : s.InRange) (type : DataType) :
    strRecs type s.strlen s.buf = [⟨type, s.chars ++ [0]⟩] := by
  rw [strRecs_of_exact _ _ (s.exactLen h), strRec, s.strlen_toInt h, Int.toNat_natCast]
  exact congrArg (fun bs => [(⟨type, bs ++ [0]⟩ : Rec)]) (Mem.range_map_getD s.chars)

theorem Append.pushes_exact {a : Append} (h : a.InRange) : ∀ p ∈ a.pushes, p.Exact := by
  intro p hp
  rcases a with (_ | s) | ⟨_ | b, len⟩ | _ | _ | _ | _ | _ | _ | _ <;>
    simp only [Append.pushes, List.not_mem_nil, List.mem_singleton] at hp <;> subst hp
  · exact s.exactLen h
  · exact h
  all_goals exact trivial

/-- The pushes of an append offer its items one by one. -/
theorem Append.offered_eq {a : Append} (h : a.InRange) :
    offered a.pushes = a.items.map fun x => [x] := by
  rcases a with (_ | s) | ⟨_ | b, len⟩ | _ | _ | _ | _ | _ | _ | _
  case str.some => simp [offered, Append.pushes, Append.items, Push.recs, s.strRecs_eq h]
  case str2.some =>
    simp [offered, Append.pushes, Append.items, Push.recs, strRecs_of_exact _ _ h, strRec]
  all_goals rfl

theorem locationPushes_exact {options : ℕ} {filename : Option CStr} {lineno : Int32}
    (h : ∀ s ∈ filename, s.InRange) : ∀ p ∈ locationPushes options filename lineno, p.Exact := by
  intro p hp
  cases filename with
  | none => exact absurd hp (by simp [locationPushes])
  | some s =>
    simp only [locationPushes] at hp
    split at hp
    · rcases List.mem_cons.mp hp with rfl | hp
      · exact s.exactLen (h s rfl)
      · rw [List.mem_singleton.mp hp]; trivial
    · exact absurd hp (by simp)

theorem offered_location (options : ℕ) {filename : Option CStr} (lineno : Int32)
    (h : ∀ s ∈ filename, s.InRange) : offered (locationPushes options filename lineno) =
      (locationItems options filename lineno).map fun x => [x] := by
  cases filename with
  | none => rfl
  | some s =>
    simp only [locationPushes, locationItems]
    split
    · simp [offered, Push.recs, s.strRecs_eq (h s rfl), Value.type, Value.bytes]
    · rfl

theorem wellTyped_fit {rowLen : ℕ} {ps : List Push} :
    ∀ x ∈ recFormat.fit rowLen (offered ps), x.WellTyped := by
  intro x hx
  obtain ⟨g, hg, hxg⟩ := recFormat.mem_of_mem_fit hx
  obtain ⟨p, -, rfl⟩ := List.mem_map.mp hg
  exact p.wellTyped x hxg

/-! ### The life of one row -/

/-- The life of the row acquired in `m₀`: its appends so far, and the memory after them. Whatever
    else happens in between leaves `row_len` and the slot alone. -/
inductive Life (rowLen : ℕ) (r : ℤ) (m₀ : Mem) : List Append → Mem → Prop
  | acquired : Life rowLen r m₀ [] m₀
  | append {as : List Append} {m m' : Mem} (a : Append) : Life rowLen r m₀ as m → a.InRange →
      a.run (some r) m = some m' → Life rowLen r m₀ (as ++ [a]) m'
  | elsewhere {as : List Append} {m m' : Mem} (S : Set ℤ) : Life rowLen r m₀ as m →
      Mem.Frame S m m' → (∀ x ∈ S, x < 44 ∨ 48 ≤ x) → (∀ x ∈ S, x < r ∨ r + 24 + rowLen ≤ x) →
      Life rowLen r m₀ as m'

section Life
variable {rowLen : ℕ} {r : ℤ} {m₀ m : Mem} {as : List Append} {ps : List Push}

/-- The invariant of a row's life: it holds the greedy fill of the items offered. -/
theorem Life.rowHolds (h : RowHolds rowLen m₀ r (recFormat.fit rowLen (offered ps)))
    (hl : Life rowLen r m₀ as m) :
    RowHolds rowLen m r (recFormat.fit rowLen (offered (ps ++ as.flatMap Append.pushes))) := by
  induction hl with
  | acquired => simpa using h
  | append a _ ha hrun ih =>
    obtain ⟨m', hm', hrow, -⟩ := runPushes_spec (a.pushes_exact ha) ih
    rw [a.run_eq, hm', Option.some.injEq] at hrun
    subst hrun
    simpa [offered, List.flatMap_append] using hrow
  | elsewhere S _ hf h44 hS ih =>
    exact ih.frame hf h44 fun x hx => (hS x hx).imp (fun h => by omega) id

theorem Life.inRange (hl : Life rowLen r m₀ as m) : ∀ a ∈ as, a.InRange := by
  induction hl with
  | acquired => simp
  | append a _ ha _ ih =>
    intro b hb
    rcases List.mem_append.mp hb with hb | hb
    · exact ih b hb
    · rw [List.mem_singleton.mp hb]; exact ha
  | elsewhere _ _ _ _ _ ih => exact ih

theorem offered_appends : ∀ {as : List Append}, (∀ a ∈ as, a.InRange) →
    offered (as.flatMap Append.pushes) = (as.flatMap Append.items).map fun x => [x]
  | [], _ => rfl
  | a :: as, h => by
    have ha := a.offered_eq (h a (by simp))
    have has := offered_appends fun b hb => h b (List.mem_cons_of_mem a hb)
    simp only [offered] at ha has ⊢
    simp [ha, has]

end Life

theorem initRow_rowHolds {h : Handle} {env : Env} {filename : Option CStr} {lineno : Int32}
    {m m₀ : Mem} {r : ℤ} {rowLen : ℕ} (hinit : initRow h env filename lineno m = some (m₀, r))
    (hroom : SlotRoom rowLen m r) (hfile : ∀ s ∈ filename, s.InRange) :
    RowHolds rowLen m₀ r
      (recFormat.fit rowLen (offered (locationPushes (m.word 32) filename lineno))) := by
  simp only [initRow, Option.bind_eq_bind, Option.bind_eq_some_iff] at hinit
  obtain ⟨⟨m1, rowid⟩, hfetch, r', -, m2, hslot, he⟩ := hinit
  simp only [Option.pure_def, Option.some.injEq, Prod.mk.injEq] at he
  obtain ⟨rfl, rfl⟩ := he
  obtain ⟨hframe, hid⟩ := fetchRowid_some hfetch
  have hroom1 := hroom.frame_ico hframe (by omega)
  have hopt : m1.word 32 = m.word 32 := hframe.word_of_Ico (by omega)
  obtain ⟨m3, e3, hrow, -⟩ := initSlot_spec hroom1 hid env filename lineno
    (locationPushes_exact hfile)
  rw [hopt] at hrow
  rw [e3, Option.some.injEq] at hslot
  exact hslot ▸ hrow

/-- ROUND TRIP: whatever was appended to an acquired row, `datalen` counts the bytes of the greedy
    fill of the items offered, the next append succeeds, and the walk of `print_rows` visits exactly
    those items, in order, ending at `datalen`. It does so in any memory that has room for no more
    than those bytes, so nothing at or past `datalen` is read. -/
theorem row_round_trip {h : Handle} {env : Env} {filename : Option CStr} {lineno : Int32}
    {m m₀ m₁ : Mem} {r : ℤ} {rowLen : ℕ} {as : List Append}
    (hinit : initRow h env filename lineno m = some (m₀, r)) (hroom : SlotRoom rowLen m r)
    (hfile : ∀ s ∈ filename, s.InRange) (hlife : Life rowLen r m₀ as m₁) :
    let items := locationItems (m.word 32) filename lineno ++ as.flatMap Append.items
    let kept := recFormat.fit rowLen (items.map fun x => [x])
    m₁.word (r + 20) = recFormat.total kept ∧ recFormat.total kept ≤ rowLen ∧
    (∀ a : Append, a.InRange → ∃ m₂, a.run (some r) m₁ = some m₂) ∧
    ∀ (g : Globals) (f : Printf) (fuel size : ℕ), kept.length < fuel →
      r + 24 + recFormat.total kept ≤ size →
      ∃ w, walk g f r fuel .start { m₁ with size := size } = some w ∧
        w.i = recFormat.total kept ∧
        w.visits.map (Visit.item m₁ r) = kept.map fun x => (x.type.code, x.payload) := by
  intro items kept
  have hrow := hlife.rowHolds (initRow_rowHolds hinit hroom hfile)
  have hoff : offered (locationPushes (m.word 32) filename lineno ++ as.flatMap Append.pushes) =
      items.map fun x => [x] := by
    have h1 := offered_location (m.word 32) lineno hfile
    have h2 := offered_appends hlife.inRange
    simp only [offered] at h1 h2 ⊢
    rw [List.map_append, h1, h2, ← List.map_append]
  have hwt : ∀ x ∈ kept, x.WellTyped := fun x hx => wellTyped_fit x (by rw [hoff]; exact hx)
  rw [hoff] at hrow
  refine ⟨hrow.datalen, hrow.le, fun a ha => ?_, fun g f fuel size hfuel hsize => ?_⟩
  · obtain ⟨m₂, hm₂, -⟩ := runPushes_spec (a.pushes_exact ha) hrow
    exact ⟨m₂, by rw [a.run_eq, hm₂]⟩
  · refine ⟨_, hrow.walk_eq hwt g f size hfuel hsize, rfl, ?_⟩
    exact visits_items (by rw [add_zero]; exact hrow.chain)

/-- A mapping of 200 bytes with one row of 64 bytes at 100, under `MEMLOG_FILELINE`. -/
def smallMem : Mem :=
  ⟨200, fun a => if a = 32 then 1 else if a = 40 then 1 else if a = 44 then 64 else 0⟩

def smallHandle : Handle := ⟨92, 100, 188, 200, 200⟩

def smallEnv : Env := ⟨1, 2, 3, 4, 5, 6⟩

/-- The file name `a.c`. -/
def smallFile : CStr := ⟨[97, 46, 99], by decide⟩

/-- A tool that prints no numbers. -/
def quiet : Printf := ⟨fun _ => [], fun _ => [], fun _ => [], fun _ => [], fun _ => [], fun _ _ _ => []⟩

/-- On a row of 64 bytes, the location `a.c:7` and the value 5 are read back. -/
theorem row_round_trip_small : ∃ m₀ m₁ w,
    initRow smallHandle smallEnv (some smallFile) 7 smallMem = some (m₀, 100) ∧
    (Append.int 5).run (some 100) m₀ = some m₁ ∧
    walk ⟨true, true, [44]⟩ quiet 100 4 .start { m₁ with size := 160 } = some w ∧
    w.visits.map (Visit.item m₁ 100) =
      [(1, [97, 46, 99, 0]), (10, [7, 0, 0, 0]), (4, [5, 0, 0, 0])] := by
  obtain ⟨⟨m₀, r⟩, hinit⟩ : ∃ x, initRow smallHandle smallEnv (some smallFile) 7 smallMem = some x :=
    Option.isSome_iff_exists.mp (by decide)
  have hr : r = 100 := by
    have : (initRow smallHandle smallEnv (some smallFile) 7 smallMem).map Prod.snd = some 100 := by
      decide
    simpa [hinit] using this
  subst hr
  have hroom : SlotRoom 64 smallMem 100 := ⟨by decide, by decide, by decide, by decide⟩
  have hfile : ∀ s ∈ some smallFile, s.InRange := by
    intro s hs
    rw [Option.mem_some_iff] at hs
    subst hs
    unfold CStr.InRange
    decide
  obtain ⟨m₁, hrun⟩ := (row_round_trip hinit hroom hfile .acquired).2.2.1 (.int 5) trivial
  obtain ⟨-, -, -, hwalk⟩ := row_round_trip hinit hroom hfile (.append (.int 5) .acquired trivial hrun)
  obtain ⟨w, hw, -, hv⟩ := hwalk ⟨true, true, [44]⟩ quiet 4 160 (by decide) (by decide)
  exact ⟨m₀, m₁, w, hinit, hrun, hw, hv⟩

end Log2mem
