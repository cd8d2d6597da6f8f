import Log2mem.Dump.RoundTrip
import Log2mem.Schemes.Slice
import Log2mem.Schemes.Strides
import Log2mem.Schemes.Traverse

/-! The record walk of `print_rows` over a row whose bytes are arbitrary.

    The walk of a row is safe when it ends on the slot taken alone, so that it reads nothing outside,
    and every record it visits lies in the payload with a stride that moves ahead. That is the case
    exactly when the records tile `datalen`.

        slot      0        24                                  24 + row_len
                  │ header │ rec at 0 │ rec at len │ … │ ≥ datalen │
        walk               i = 0 ─────▶ i = len ──────▶ … -/

namespace Log2mem
open Schemes

/-! ### Data of any type -/

/-- The data at `a` is all there for the type: a terminated string, the bytes of a value, anything for
    an unknown type. `g_terse` passes over the source location without reading it. -/
def Readable (g : Globals) (type : UInt8) (a : ℤ) (m : Mem) : Prop :=
  match DataType.ofCode type with
  | some .filename => g.terse = true ∨ m.Terminated a
  | some .lineno => g.terse = true ∨ m.InBounds a 4
  | some .string => m.Terminated a
  | some .uint | some .int | some .float => m.InBounds a 4
  | some .ulong | some .long | some .double => m.InBounds a 8
  | some .char => m.InBounds a 1
  | none => True

/-- The `switch` returns exactly on readable data. -/
theorem printData_iff {g : Globals} {f : Printf} {type : UInt8} {a : ℤ} {m : Mem} :
    (∃ x, printData g f type a m = some x) ↔ Readable g type a m := by
  unfold printData Readable
  cases DataType.ofCode type with
  | none => simp
  | some t =>
    cases t with
    | filename =>
      cases g.terse with
      | true => simp
      | false => exact (bind_some_iff _).trans (Mem.cstr_size_iff.trans (by simp))
    | lineno =>
      cases g.terse with
      | true => simp
      | false => exact (bind_some_iff _).trans (Mem.load32_some_iff.trans (by simp))
    | string => exact (bind_some_iff _).trans Mem.cstr_size_iff
    | uint | int | float => exact (bind_some_iff _).trans Mem.load32_some_iff
    | ulong | long | double => exact (bind_some_iff _).trans Mem.load64_some_iff
    | char => exact (bind_some_iff _).trans Mem.load8_some_iff

/-! ### The walk on a slot taken alone -/

/-- `hdr->len` of the record at `p`, on a slot taken alone. -/
def strideAt (slot : Mem) (p : ℕ) : ℕ := slot.word (24 + p + 4)

/-- The record at `p` lies in the payload: its header, the `hdr->len` bytes it announces, and what a
    reader of its type loads; its end is an `int`. -/
structure RecordIn (g : Globals) (rowLen : ℕ) (slot : Mem) (p : ℕ) : Prop where
  header : p + 8 ≤ rowLen
  data : p + strideAt slot p ≤ rowLen
  int : p + strideAt slot p < 2147483648
  readable : Readable g (slot.byte (24 + p)) (24 + p + 8) slot

/-- The records of a slot tile its `datalen`. -/
def RowTiled (g : Globals) (rowLen : ℕ) (slot : Mem) : Prop :=
  Tiles (strideAt slot) (RecordIn g rowLen slot) (slot.word 20) 0

/-- A visited record lies in the payload, header and announced data, and `i` moves ahead from it. -/
structure Visit.Inside (rowLen : ℕ) (v : Visit) : Prop where
  start : 0 ≤ v.pos
  header : v.pos + 8 ≤ rowLen
  data : v.pos + v.len ≤ rowLen
  ahead : v.pos < toInt32 (v.pos + v.len)

/-- The walk of a slot taken alone ends, and stays inside. -/
def WalkSafe (g : Globals) (f : Printf) (rowLen : ℕ) (slot : Mem) : Prop :=
  ∃ fuel w, walk g f 0 fuel .start slot = some w ∧ ∀ v ∈ w.visits, v.Inside rowLen

section Walk
variable {g : Globals} {f : Printf} {rowLen : ℕ} {slot m : Mem} {w w' : Walk} {p : ℕ}

theorem walkStep_some (hp : w.i = p) (hhdr : slot.InBounds (24 + p) 8)
    (hdata : Readable g (slot.byte (24 + p)) (24 + p + 8) slot) :
    ∃ w', walkStep g f 24 w slot = some w' ∧
      w'.i = toInt32 (p + strideAt slot p) ∧
      w'.visits = w.visits ++ [⟨p, slot.byte (24 + p), strideAt slot p⟩] := by
  obtain ⟨h0, h1⟩ := hhdr
  have htype : slot.load8 (24 + w.i) = some (slot.byte (24 + p)) := by
    rw [hp]
    exact Mem.load8_eq ⟨h0, by omega⟩
  have hlen : slot.load32 (24 + w.i + 4) = some (strideAt slot p) := by
    rw [hp]
    exact Mem.load32_eq ⟨by omega, by omega⟩
  obtain ⟨⟨text, wantdelim⟩, hx⟩ := printData_iff (f := f).mpr hdata
  have hdata : printData g f (slot.byte (24 + p)) (24 + w.i + 8) slot = some (text, wantdelim) := by
    rw [hp]
    exact hx
  refine ⟨⟨toInt32 (w.i + strideAt slot p), wantdelim,
    w.visits ++ [⟨w.i, slot.byte (24 + p), strideAt slot p⟩],
    w.out ++ (if g.showdelim && w.wantdelim then g.delim else []) ++ text⟩, ?_, ?_, ?_⟩
  · simp only [walkStep, htype, hdata, hlen, Option.bind_eq_bind, Option.bind_some, Option.pure_def]
  · rw [hp]
  · rw [hp]

theorem walkStep_inv (hp : w.i = p) (h : walkStep g f 24 w slot = some w') :
    slot.InBounds (24 + p) 8 ∧ Readable g (slot.byte (24 + p)) (24 + p + 8) slot ∧
      w'.i = toInt32 (p + strideAt slot p) ∧
      w'.visits = w.visits ++ [⟨p, slot.byte (24 + p), strideAt slot p⟩] := by
  simp only [walkStep, Option.bind_eq_bind, Option.bind_eq_some_iff, Option.pure_def,
    Option.some.injEq] at h
  obtain ⟨type, htype, ⟨text, wantdelim⟩, hx, len, hlen, rfl⟩ := h
  rw [hp] at htype hx hlen
  obtain ⟨h8, rfl⟩ := Mem.load8_some htype
  obtain ⟨⟨-, h32⟩, rfl⟩ := Mem.load32_some hlen
  refine ⟨⟨h8.1, by omega⟩, printData_iff.mp ⟨_, hx⟩, ?_, ?_⟩
  · simp only [hp, strideAt]
  · simp only [hp, strideAt]

theorem walk_visits {r : ℤ} : ∀ {fuel : ℕ} {w : Walk}, walk g f r fuel w m = some w' →
    ∀ v ∈ w.visits, v ∈ w'.visits
  | 0, _, h, _, _ => absurd h (by simp [walk])
  | fuel + 1, w, h, v, hv => by
    rw [walk] at h
    obtain ⟨d, -, h⟩ := Option.bind_eq_some_iff.mp h
    split at h
    · obtain ⟨w₁, hstep, hrest⟩ := Option.bind_eq_some_iff.mp h
      refine walk_visits hrest v ?_
      simp only [walkStep, Option.bind_eq_bind, Option.bind_eq_some_iff, Option.pure_def,
        Option.some.injEq] at hstep
      obtain ⟨_, -, _, -, _, -, rfl⟩ := hstep
      exact List.mem_append_left _ hv
    · rw [Option.pure_def, Option.some.injEq] at h
      rw [← h]
      exact hv

theorem rowDatalen_slot (hsize : slot.size = 24 + rowLen) :
    rowDatalen 0 slot = some (slot.word 20) := by
  rw [rowDatalen, zero_add]
  exact Mem.load32_eq ⟨by omega, by omega⟩

theorem toU32_pos (hp : p < 2147483648) : toU32 (p : ℤ) = p := by
  rw [toU32_natCast]
  exact Nat.mod_eq_of_lt (by omega)

/-- A tiled slot is walked to its end, within `datalen` bodies of the loop. -/
theorem walk_of_tiles (hsize : slot.size = 24 + rowLen)
    (ht : Tiles (strideAt slot) (RecordIn g rowLen slot) (slot.word 20) p) :
    ∀ (fuel : ℕ) (w : Walk), w.i = p → p < 2147483648 → slot.word 20 - p < fuel →
      (∀ v ∈ w.visits, v.Inside rowLen) →
      ∃ w', walk g f 0 fuel w slot = some w' ∧ ∀ v ∈ w'.visits, v.Inside rowLen := by
  induction ht with
  | @done p hd =>
    intro fuel w hw hp hfuel hin
    obtain ⟨n, rfl⟩ : ∃ n, fuel = n + 1 := ⟨fuel - 1, by omega⟩
    refine ⟨w, ?_, hin⟩
    rw [walk, rowDatalen_slot hsize, Option.bind_eq_bind, Option.bind_some, hw, toU32_pos hp,
      if_neg (by omega)]
    rfl
  | @stride p hd hok hpos _ ih =>
    intro fuel w hw hp hfuel hin
    obtain ⟨n, rfl⟩ : ∃ n, fuel = n + 1 := ⟨fuel - 1, by omega⟩
    obtain ⟨hhdr, hdata, hint, hread⟩ := hok
    obtain ⟨w₁, hstep, hi, hvisits⟩ := walkStep_some (f := f) hw
      ⟨by omega, by omega⟩ hread
    have hnext : toInt32 ((p : ℤ) + strideAt slot p) = ((p + strideAt slot p : ℕ) : ℤ) := by
      rw [toInt32_of_range (by omega) (by omega)]
      push_cast
      rfl
    have hin₁ : ∀ v ∈ w₁.visits, v.Inside rowLen := by
      intro v hv
      rw [hvisits] at hv
      rcases List.mem_append.mp hv with hv | hv
      · exact hin v hv
      · rw [List.mem_singleton.mp hv]
        exact ⟨by simp, by simp only; omega, by simp only; omega, by simp only [hnext]; omega⟩
    obtain ⟨w', hw', hin'⟩ := ih n w₁ (hi.trans hnext) hint (by omega) hin₁
    refine ⟨w', ?_, hin'⟩
    rw [walk, rowDatalen_slot hsize, Option.bind_eq_bind, Option.bind_some, hw, toU32_pos hp,
      if_pos hd, zero_add, hstep]
    exact hw'

/-- A walk that ends and stays inside has met a tiling. -/
theorem tiles_of_walk (hsize : slot.size = 24 + rowLen) : ∀ {fuel : ℕ} {w : Walk} {p : ℕ}, w.i = p →
    p < 2147483648 → walk g f 0 fuel w slot = some w' → (∀ v ∈ w'.visits, v.Inside rowLen) →
    Tiles (strideAt slot) (RecordIn g rowLen slot) (slot.word 20) p
  | 0, _, _, _, _, h, _ => absurd h (by simp [walk])
  | fuel + 1, w, p, hw, hp, h, hin => by
    rw [walk, rowDatalen_slot hsize, Option.bind_eq_bind, Option.bind_some, hw, toU32_pos hp,
      zero_add] at h
    split at h
    · rename_i hd
      obtain ⟨w₁, hstep, hrest⟩ := Option.bind_eq_some_iff.mp h
      obtain ⟨-, hread, hi, hvisits⟩ := walkStep_inv hw hstep
      have hlast : (⟨p, slot.byte (24 + p), strideAt slot p⟩ : Visit) ∈ w'.visits :=
        walk_visits hrest _ (by rw [hvisits]; simp)
      obtain ⟨-, hhdr, hdata, hahead⟩ := hin _ hlast
      simp only at hhdr hdata hahead
      -- a stride that wraps would not move ahead
      have hlen := slot.word_lt (24 + p + 4)
      have hnowrap : 0 < strideAt slot p ∧ p + strideAt slot p < 2147483648 := by
        unfold strideAt at hahead ⊢
        unfold toInt32 at hahead
        split at hahead <;> omega
      have hnext : toInt32 ((p : ℤ) + strideAt slot p) = ((p + strideAt slot p : ℕ) : ℤ) := by
        rw [toInt32_of_range (by omega) (by omega)]
        push_cast
        rfl
      exact .stride hd ⟨by omega, by omega, hnowrap.2, hread⟩ hnowrap.1
        (tiles_of_walk hsize (hi.trans hnext) hnowrap.2 hrest hin)
    · exact .done (by omega)

/-- WALK: the walk of a slot ends and stays inside exactly when its records tile `datalen`. -/
theorem walkSafe_iff (hsize : slot.size = 24 + rowLen) :
    WalkSafe g f rowLen slot ↔ RowTiled g rowLen slot := by
  constructor
  · rintro ⟨fuel, w, hw, hin⟩
    exact tiles_of_walk hsize rfl (by omega) hw hin
  · intro ht
    obtain ⟨w, hw, hin⟩ := walk_of_tiles (f := f) hsize ht (slot.word 20 + 1) .start rfl (by omega)
      (by omega) (by simp [Walk.start])
    exact ⟨_, w, hw, hin⟩

theorem RowTiled.datalen_le (h : RowTiled g rowLen slot) : slot.word 20 ≤ rowLen :=
  h.le_of_fits (fun _ hq => hq.data) (Nat.zero_le _)

/-! ### The same walk inside the file -/

theorem printData_of_slice {r b : ℤ} {n : ℕ} (hin : m.InBounds r n) {type : UInt8} {x : Text × Bool}
    (h : printData g f type b (m.slice r n) = some x) : printData g f type (r + b) m = some x := by
  have hstr : ∀ s, printStr b (m.slice r n) = some s → printStr (r + b) m = some s := fun s hs => by
    have hbase := hin.1
    have hroom := hin.2
    exact Mem.cstr_of_slice hin (by rw [Mem.slice_size]; omega) hs
  unfold printData at h ⊢
  cases hc : DataType.ofCode type with
  | none => simpa only [hc] using h
  | some t =>
    simp only [hc] at h ⊢
    cases t with
    | filename =>
      simp only at h ⊢
      split at h
      · rw [if_pos ‹_›]
        exact h
      · rw [if_neg ‹_›]
        exact bind_mono hstr h
    | lineno =>
      simp only at h ⊢
      split at h
      · rw [if_pos ‹_›]
        exact h
      · rw [if_neg ‹_›]
        exact bind_mono (fun _ => Mem.load32_of_slice hin) h
    | string => exact bind_mono hstr h
    | uint | int | float => exact bind_mono (fun _ => Mem.load32_of_slice hin) h
    | ulong | long | double => exact bind_mono (fun _ => Mem.load64_of_slice hin) h
    | char => exact bind_mono (fun _ => Mem.load8_of_slice hin) h

theorem walkStep_of_slice {r : ℤ} {n : ℕ} (hin : m.InBounds r n)
    (h : walkStep g f (0 + 24) w (m.slice r n) = some w') : walkStep g f (r + 24) w m = some w' := by
  have hassoc : ∀ b : ℤ, r + 24 + w.i + b = r + (0 + 24 + w.i + b) := fun b => by ring
  have hzero : r + 24 + w.i = r + (0 + 24 + w.i) := by ring
  simp only [walkStep, Option.bind_eq_bind] at h
  obtain ⟨type, htype, h⟩ := Option.bind_eq_some_iff.mp h
  obtain ⟨x, hx, h⟩ := Option.bind_eq_some_iff.mp h
  obtain ⟨len, hlen, h⟩ := Option.bind_eq_some_iff.mp h
  simp only [walkStep, hassoc, Option.bind_eq_bind]
  rw [hzero, Mem.load8_of_slice hin htype, Option.bind_some, printData_of_slice hin hx, Option.bind_some,
    Mem.load32_of_slice hin hlen, Option.bind_some]
  exact h

/-- A walk that ends on the slot alone ends the same way in the file. -/
theorem walk_of_slice {r : ℤ} {n : ℕ} (hin : m.InBounds r n) : ∀ {fuel : ℕ} {w : Walk},
    walk g f 0 fuel w (m.slice r n) = some w' → walk g f r fuel w m = some w'
  | 0, _, h => absurd h (by simp [walk])
  | fuel + 1, w, h => by
    rw [walk] at h ⊢
    obtain ⟨datalen, hd, h⟩ := Option.bind_eq_some_iff.mp h
    rw [rowDatalen, zero_add] at hd
    rw [rowDatalen, Mem.load32_of_slice hin hd, Option.bind_eq_bind, Option.bind_some]
    split at h
    · obtain ⟨w₁, hstep, hrest⟩ := Option.bind_eq_some_iff.mp h
      rw [if_pos ‹_›, walkStep_of_slice hin hstep, Option.bind_eq_bind, Option.bind_some]
      exact walk_of_slice hin hrest
    · rw [if_neg ‹_›]
      exact h

end Walk

/-! ### Rows that the library wrote -/

theorem Rec.At.slice {m : Mem} {r b : ℤ} {x : Rec} (h : x.At m (r + b)) (n : ℕ) :
    x.At (m.slice r n) b where
  type := h.type
  len := by
    rw [Mem.slice_word, ← add_assoc]
    exact h.len
  payload := by
    rw [Mem.slice_get, ← add_assoc]
    exact h.payload

theorem RowHolds.tiled {rowLen : ℕ} {m : Mem} {r : ℤ} {recs : List Rec} (h : RowHolds rowLen m r recs)
    (hwt : ∀ x ∈ recs, x.WellTyped) (g : Globals) : RowTiled g rowLen (m.slice r (24 + rowLen)) := by
  have hle := h.le
  have hlt := h.lt
  have htiles : Tiles (strideAt (m.slice r (24 + rowLen))) (RecordIn g rowLen (m.slice r (24 + rowLen)))
      (0 + recFormat.total recs) 0 := by
    refine recFormat.tiles_of_chain (a := r + 24) (by simpa using h.chain) fun q x hx hat hend => ?_
    have hat : x.At (m.slice r (24 + rowLen)) (24 + q) := by
      rw [add_assoc] at hat
      exact Rec.At.slice hat _
    have hsize : recFormat.size x = 8 + x.payload.length := rfl
    have hlen : strideAt (m.slice r (24 + rowLen)) q = recFormat.size x := hat.len
    have hdata := printData_spec g quiet hat (hwt x hx) (by omega)
      (by rw [Mem.slice_size]; push_cast; omega)
    refine ⟨hlen, by omega, by omega, by omega, ?_⟩
    rw [hat.type]
    exact printData_iff.mp ⟨_, hdata⟩
  rw [Nat.zero_add, ← h.datalen] at htiles
  rw [RowTiled, Mem.slice_word]
  exact htiles

end Log2mem
