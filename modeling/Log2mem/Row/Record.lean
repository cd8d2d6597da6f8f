import Log2mem.Layout.Create
import Log2mem.Schemes.Records

/-! The records of a row: what one push writes into the payload.

    A record is an 8-byte `struct log2mem_data_hdr` (type byte, three bytes of padding that nothing
    writes, length word) followed by the payload. The length word counts the header.

        ptr    +1 +2 +3   +4 … +7       +8
        │ type │ padding │ 8 + datalen │ payload … │ -/

namespace Log2mem
open Schemes

/-- A readable source buffer, `memcpy`'s view of a `const char*`. -/
abbrev Buf := ℕ → UInt8

/-- The `MEMLOG_DATATYPE_…` identifiers. -/
inductive DataType where
  | filename | string | uint | int | ulong | long | float | double | char | lineno
  deriving DecidableEq

/-- The identifier stored in the header. -/
def DataType.code : DataType → UInt8
  | .filename => 1
  | .string => 2
  | .uint => 3
  | .int => 4
  | .ulong => 5
  | .long => 6
  | .float => 7
  | .double => 8
  | .char => 9
  | .lineno => 10

/-- One stored record. -/
structure Rec where
  type : DataType
  payload : List UInt8
  deriving DecidableEq

/-- The memory image of a record. -/
structure Rec.At (m : Mem) (a : ℤ) (r : Rec) : Prop where
  type : m.byte a = r.type.code
  len : m.word (a + 4) = 8 + r.payload.length
  payload : m.get (a + 8) r.payload.length = r.payload

/-- The image of a record only depends on the record's own bytes. -/
theorem Rec.At.local_bytes {m m' : Mem} {a : ℤ} {r : Rec}
    (hx : ∀ x, a ≤ x → x < a + (8 + r.payload.length : ℕ) → m'.byte x = m.byte x) (h : r.At m a) :
    r.At m' a := by
  have hget : ∀ (b : ℤ) (n : ℕ), a ≤ b → b + n ≤ a + 8 + r.payload.length →
      m'.get b n = m.get b n := fun b n h0 h1 =>
    List.map_congr_left fun i hi => hx _ (by omega) (by
      have := List.mem_range.mp hi
      omega)
  refine ⟨?_, ?_, ?_⟩
  · rw [hx a (le_refl a) (by omega), h.type]
  · rw [Mem.word, hget (a + 4) 4 (by omega) (by omega)]
    exact h.len
  · rw [hget (a + 8) _ (by omega) (by omega), h.payload]

/-- Records as a self-delimiting format: `hdr->len` bytes each. -/
def recFormat : Format Rec where
  size r := 8 + r.payload.length
  At := Rec.At
  size_pos _ := by omega
  local_bytes := Rec.At.local_bytes

/-- `MEMLOG_PUT_HDR`. -/
def putHdr (ptr : ℤ) (type : DataType) (datalen : ℤ) (m : Mem) : Option Mem := do
  let m ← m.store ptr [type.code]
  m.store32 (ptr + 4) (toU32 (8 + datalen))

/-- The record `__log2mem_push` writes at `ptr`. -/
def putData (type : DataType) (data : List UInt8) (ptr : ℤ) (m : Mem) : Option Mem := do
  let m ← putHdr ptr type data.length m
  m.store (ptr + 8) data

/-- The record `__log2mem_push_str` writes at `ptr`: `len` bytes and "a null char". -/
def putStr (type : DataType) (len : Int32) (str : Buf) (ptr : ℤ) (m : Mem) : Option Mem := do
  let m ← putHdr ptr type (toInt32 (len.toInt + 1)) m
  let m ← m.copy (ptr + 8) (toSize len.toInt) str
  m.store (ptr + 8 + len.toInt) [0]

/-- `totlen` of `__log2mem_push`. -/
def dataTotlen (datalen : ℕ) : ℤ := toInt32 (toSize (8 + datalen))

/-- `totlen` of `__log2mem_push_str`: `len + 1` is an `int`, the sum a `size_t`, the result an `int`. -/
def strTotlen (len : Int32) : ℤ := toInt32 (toSize (8 + toInt32 (len.toInt + 1)))

/-- The record a string push is meant to store. -/
def strRec (type : DataType) (len : Int32) (str : Buf) : Rec :=
  ⟨type, (List.range len.toInt.toNat).map str ++ [0]⟩

/-- What a string push stores: a negative length names no string. -/
def strRecs (type : DataType) (len : Int32) (str : Buf) : List Rec :=
  if 0 ≤ len.toInt then [strRec type len str] else []

/-! ### What the writers store -/

/-- `put` writes the records `g` wherever there is room for them, and asks for exactly that room. -/
structure Writes (totlen : ℤ) (put : ℤ → Mem → Option Mem) (g : List Rec) : Prop where
  totlen : totlen = recFormat.total g
  lt : recFormat.total g < 2147483648
  put : ∀ (m : Mem) (ptr : ℤ), m.InBounds ptr (recFormat.total g) → ∃ m', put ptr m = some m' ∧
    Mem.Frame (Set.Ico ptr (ptr + recFormat.total g)) m m' ∧ recFormat.Chain m' ptr g

/-- One writer, and a second one `n` bytes behind it. -/
def putBoth (first : ℤ → Mem → Option Mem) (n : ℤ) (second : ℤ → Mem → Option Mem) (ptr : ℤ) (m : Mem) :
    Option Mem := (first ptr m).bind (second (ptr + n))

theorem Writes.append {t t' : ℤ} {put put' : ℤ → Mem → Option Mem} {g g' : List Rec}
    (h : Writes t put g) (h' : Writes t' put' g') (hlt : recFormat.total (g ++ g') < 2147483648) :
    Writes (t + t') (putBoth put t put') (g ++ g') := by
  have htotal := recFormat.total_append g g'
  refine ⟨by rw [h.totlen, h'.totlen, htotal]; push_cast; rfl, hlt, fun m ptr ⟨h0, h1⟩ => ?_⟩
  obtain ⟨m1, e1, f1, c1⟩ := h.put m ptr ⟨h0, by omega⟩
  obtain ⟨m2, e2, f2, c2⟩ := h'.put m1 (ptr + recFormat.total g) ⟨by omega, by rw [f1.size]; omega⟩
  refine ⟨m2, ?_, ?_, ?_⟩
  · rw [putBoth, e1, Option.bind_some, h.totlen, e2]
  · exact (f1.ico_mono (le_refl ptr) (by omega)).trans (f2.ico_mono (by omega) (by omega))
  · rw [recFormat.chain_append]
    exact ⟨recFormat.chain_frame f2 (fun x _ h2 hx => by have := hx.1; omega) c1, c2⟩

theorem size_rec (r : Rec) : recFormat.size r = 8 + r.payload.length := rfl

theorem strRec_length (type : DataType) {len : Int32} (str : Buf) (h : 0 ≤ len.toInt) :
    ((strRec type len str).payload.length : ℤ) = len.toInt + 1 := by
  simp only [strRec, List.length_append, List.length_map, List.length_range, List.length_singleton]
  omega

theorem putHdr_spec (m : Mem) (ptr : ℤ) (h : m.InBounds ptr 8) (type : DataType) (datalen : ℤ) :
    ∃ m', putHdr ptr type datalen m = some m' ∧ Mem.Frame (Set.Ico ptr (ptr + 8)) m m' ∧
      m'.byte ptr = type.code ∧ m'.word (ptr + 4) = toU32 (8 + datalen) := by
  obtain ⟨h0, h1⟩ := h
  obtain ⟨m1, e1, f1, g1⟩ := Mem.store_spec m ptr [type.code]
    ⟨by omega, by simp only [List.length_singleton]; omega⟩
  obtain ⟨m2, e2, f2, g2⟩ := Mem.store32_spec (m := m1) (a := ptr + 4)
    ⟨by omega, by rw [f1.size]; omega⟩ (toU32 (8 + datalen))
  refine ⟨m2, ?_, ?_, ?_, ?_⟩
  · simp only [putHdr, e1, e2, Option.bind_eq_bind, Option.bind_some]
  · exact (f1.ico_mono (le_refl ptr) (by rw [List.length_singleton]; omega)).trans
      (f2.ico_mono (by omega) (by omega))
  · rw [f2.byte ptr fun hx => by have := hx.1; omega]
    rw [List.length_singleton, Mem.get_one] at g1
    exact List.singleton_inj.mp g1
  · rw [g2]
    exact Nat.mod_eq_of_lt (toU32_lt _)

theorem putData_writes (type : DataType) (data : List UInt8) (hlen : data.length < 2147483640) :
    Writes (dataTotlen data.length) (putData type data) [⟨type, data⟩] := by
  have htotal : recFormat.total [⟨type, data⟩] = 8 + data.length := rfl
  refine ⟨?_, by rw [htotal]; omega, fun m ptr ⟨h0, h1⟩ => ?_⟩
  · rw [dataTotlen, toInt32_toSize, htotal, toInt32_of_range (by omega) (by omega)]
    push_cast
    rfl
  · rw [htotal] at h1 ⊢
    obtain ⟨m1, e1, f1, ht, hl⟩ := putHdr_spec m ptr ⟨h0, by omega⟩ type data.length
    obtain ⟨m2, e2, f2, hg⟩ := Mem.store_spec m1 (ptr + 8) data
      ⟨by omega, by rw [f1.size]; omega⟩
    refine ⟨m2, ?_, ?_, ?_⟩
    · simp only [putData, e1, e2, Option.bind_eq_bind, Option.bind_some]
    · exact (f1.ico_mono (le_refl ptr) (by omega)).trans
        (f2.ico_mono (by omega) (by omega))
    · rw [recFormat.chain_singleton]
      refine ⟨?_, ?_, hg⟩
      · rw [f2.byte ptr fun hx => by have := hx.1; omega, ht]
      · have hu := toU32_of_range (x := 8 + (data.length : ℤ)) (by omega) (by omega)
        rw [f2.word_of_Ico (by omega), hl]
        simp only
        omega

/-- A string of at most `2 ^ 31 - 10` bytes is written as one record, NUL included. -/
theorem putStr_writes (type : DataType) {len : Int32} (str : Buf) (h0 : 0 ≤ len.toInt)
    (h1 : len.toInt ≤ 2147483638) :
    Writes (strTotlen len) (putStr type len str) [strRec type len str] := by
  have hlen := strRec_length type str h0
  have htotal : (recFormat.total [strRec type len str] : ℤ) = len.toInt + 9 := by
    rw [recFormat.total_cons, recFormat.total_nil, size_rec]; push_cast; omega
  have hone : toInt32 (len.toInt + 1) = len.toInt + 1 := toInt32_of_range (by omega) (by omega)
  refine ⟨?_, by omega, fun m ptr ⟨hp0, hp1⟩ => ?_⟩
  · rw [strTotlen, toInt32_toSize, hone, htotal, toInt32_of_range (by omega) (by omega)]
    ring
  · have hsz : (toSize len.toInt : ℤ) = len.toInt := toSize_of_range h0 (by omega)
    rw [htotal] at hp1 ⊢
    obtain ⟨m1, e1, f1, ht, hl⟩ := putHdr_spec m ptr ⟨hp0, by omega⟩ type
      (toInt32 (len.toInt + 1))
    obtain ⟨m2, e2, f2, hg2⟩ := Mem.copy_spec (m := m1) (a := ptr + 8) (n := toSize len.toInt)
      ⟨by omega, by rw [f1.size]; omega⟩ str
    obtain ⟨m3, e3, f3, hg3⟩ := Mem.store_spec m2 (ptr + 8 + len.toInt) [0]
      ⟨by omega, by rw [f2.size, f1.size]; simp only [List.length_singleton]; omega⟩
    rw [List.length_singleton] at f3 hg3
    refine ⟨m3, ?_, ?_, ?_⟩
    · simp only [putStr, e1, e2, e3, Option.bind_eq_bind, Option.bind_some]
    · exact ((f1.ico_mono (le_refl ptr) (by omega)).trans
        (f2.ico_mono (by omega) (by omega))).trans (f3.ico_mono (by omega) (by omega))
    · rw [recFormat.chain_singleton]
      refine ⟨?_, ?_, ?_⟩
      · rw [f3.byte ptr fun hx => by have := hx.1; omega,
          f2.byte ptr fun hx => by have := hx.1; omega, ht]
        rfl
      · have hu := toU32_of_range (x := 8 + (len.toInt + 1)) (by omega) (by omega)
        rw [f3.word_of_Ico (by omega), f2.word_of_Ico (by omega), hl, hone]
        omega
      · have hn : (strRec type len str).payload.length = toSize len.toInt + 1 := by omega
        rw [hn, m3.get_add, f3.get_of_Ico (by omega), hg2, hsz, hg3]
        simp only [strRec]
        congr 3
        omega

end Log2mem
