import Log2mem.Row.Slot

/-! The record walk of `print_rows`: reading one row back.

    `while (i < r->datalen)` reads the header at `i`, prints the data by its type, and advances by
    `hdr->len`. Every load is checked, so a walk that returns has read nothing outside the memory it
    was given; a walk that never ends runs out of fuel.

        i = 0 ──▶ hdr at i ──▶ [delim] data ──▶ i += hdr->len ──▶ … ──▶ i ≥ datalen -/

namespace Log2mem
open Schemes

/-- Bytes written to standard output. -/
abbrev Text := List UInt8

/-- The globals set by the command line: `g_terse`, `g_showdelim` and `g_delim`. -/
structure Globals where
  terse : Bool
  showdelim : Bool
  delim : Text

/-- The number and time conversions of the C library that `print_rows` uses. -/
structure Printf where
  /-- `%i` and `%d` -/
  int : ℤ → Text
  /-- `%u` and `%lu` -/
  uint : ℕ → Text
  /-- `%ld` -/
  long : ℤ → Text
  /-- `%f` of the `float` with these bits -/
  float : ℕ → Text
  /-- `%f` of the `double` with these bits -/
  double : ℕ → Text
  /-- `localtime_r` and `%02d:%02d:%02d.%0Nlu` of seconds and their fraction in `N` digits -/
  clock : ℕ → ℕ → ℕ → Text

/-- The data type with this identifier; the `switch` has no case for any other byte. -/
def DataType.ofCode (c : UInt8) : Option DataType :=
  [.filename, .string, .uint, .int, .ulong, .long, .float, .double, .char, .lineno].find?
    fun t => t.code = c

/-- `printf("%s", s)`: the bytes up to the first NUL. -/
def printStr (a : ℤ) (m : Mem) : Option Text := m.cstr (m.size + 1) a

/-- The `switch (hdr->type)`: what is printed for the data at `data`, and `wantdelim` afterwards. -/
def printData (g : Globals) (f : Printf) (type : UInt8) (data : ℤ) (m : Mem) :
    Option (Text × Bool) :=
  match DataType.ofCode type with
  | some .filename => do
    if g.terse then return ([], false)
    else return ([40] ++ (← printStr data m) ++ [58], false)      -- "(%s:"
  | some .lineno => do
    if g.terse then return ([], false)
    else return (f.int (toInt32 (← m.load32 data)) ++ [41, 32], false)      -- "%d) "
  | some .string => return (← printStr data m, true)
  | some .uint => return (f.uint (← m.load32 data), true)
  | some .int => return (f.int (toInt32 (← m.load32 data)), true)
  | some .ulong => return (f.uint (← m.load64 data), true)
  | some .long => return (f.long (Int64.ofNat (← m.load64 data)).toInt, true)
  | some .float => return (f.float (← m.load32 data), true)
  | some .double => return (f.double (← m.load64 data), true)
  | some .char => return ([← m.load8 data], true)
  | none => return ([], true)

/-- A record the walk has visited: its position, and the header found there. -/
structure Visit where
  pos : ℤ
  type : UInt8
  len : ℕ
  deriving DecidableEq

/-- The state of the `while` loop, with the visited records and the text printed so far. -/
structure Walk where
  i : ℤ
  wantdelim : Bool
  visits : List Visit
  out : Text

/-- `int i = 0; int wantdelim = 0;` -/
def Walk.start : Walk := ⟨0, false, [], []⟩

/-- The body of the loop. -/
def walkStep (g : Globals) (f : Printf) (rowdata : ℤ) (w : Walk) (m : Mem) : Option Walk := do
  let data := rowdata + w.i + 8
  let delim := if g.showdelim && w.wantdelim then g.delim else []
  let type ← m.load8 (rowdata + w.i)
  let (text, wantdelim) ← printData g f type data m
  let len ← m.load32 (rowdata + w.i + 4)
  return { i := toInt32 (w.i + len), wantdelim
           visits := w.visits ++ [⟨w.i, type, len⟩], out := w.out ++ delim ++ text }

/-- The loop, for at most `fuel` iterations; `i < r->datalen` compares as `unsigned`. -/
def walk (g : Globals) (f : Printf) (r : ℤ) : ℕ → Walk → Mem → Option Walk
  | 0, _, _ => none
  | fuel + 1, w, m => do
    let datalen ← rowDatalen r m
    if toU32 w.i < datalen then walk g f r fuel (← walkStep g f (r + 24) w m) m else return w

/-! ### Well-typed records -/

/-- The payload a reader of this type needs: its width, or a terminated string. -/
def Rec.WellTyped (r : Rec) : Prop :=
  match r.type with
  | .filename | .string => 0 ∈ r.payload
  | .uint | .int | .float | .lineno => r.payload.length = 4
  | .ulong | .long | .double => r.payload.length = 8
  | .char => r.payload.length = 1

/-- The text of a string payload. -/
def strText (payload : List UInt8) : Text := payload.takeWhile (· ≠ 0)

/-- What `print_rows` prints for a stored record, and `wantdelim` afterwards. -/
def recText (g : Globals) (f : Printf) (r : Rec) : Text × Bool :=
  match r.type with
  | .filename => (if g.terse then [] else [40] ++ strText r.payload ++ [58], false)
  | .lineno => (if g.terse then [] else f.int (toInt32 (ofLe r.payload)) ++ [41, 32], false)
  | .string => (strText r.payload, true)
  | .uint => (f.uint (ofLe r.payload), true)
  | .int => (f.int (toInt32 (ofLe r.payload)), true)
  | .ulong => (f.uint (ofLe r.payload), true)
  | .long => (f.long (Int64.ofNat (ofLe r.payload)).toInt, true)
  | .float => (f.float (ofLe r.payload), true)
  | .double => (f.double (ofLe r.payload), true)
  | .char => (r.payload, true)

theorem strText_nul {s rest : List UInt8} (h : 0 ∉ s) : strText (s ++ 0 :: rest) = s := by
  rw [strText, List.takeWhile_append_of_pos fun b hb => by
    have : b ≠ 0 := fun h0 => h (h0 ▸ hb)
    simpa using this]
  simp

theorem toInt32_int32 (d : Int32) : toInt32 (d.toUInt32.toNat : ℕ) = d.toInt := by
  have hlt : d.toUInt32.toNat < 4294967296 := d.toUInt32.toNat_lt
  have hd : d.toInt = if 2 * d.toUInt32.toNat < 2 ^ 32 then (d.toUInt32.toNat : ℤ)
      else (d.toUInt32.toNat : ℤ) - (2 ^ 32 : ℕ) := BitVec.toInt_eq_toNat_cond d.toBitVec
  rw [hd, toInt32]
  split <;> split <;> omega

theorem Push.wellTyped (p : Push) : ∀ r ∈ p.recs, r.WellTyped := by
  have hstr : ∀ (t : DataType) (len : Int32) (str : Buf), t = .string ∨ t = .filename →
      ∀ r ∈ strRecs t len str, r.WellTyped := fun t len str ht r hr => by
    unfold strRecs at hr
    split at hr
    · rw [List.mem_singleton.mp hr]
      rcases ht with rfl | rfl <;> simp [Rec.WellTyped, strRec]
    · exact absurd hr (by simp)
  cases p with
  | value v =>
    intro r hr
    rw [List.mem_singleton.mp hr]
    cases v <;> simp [Rec.WellTyped, Value.type, Value.bytes]
  | string len str => exact hstr _ len str (Or.inl rfl)
  | filename len str => exact hstr _ len str (Or.inr rfl)

theorem Event.wellTyped (e : Event) : ∀ r ∈ e.recs, r.WellTyped := by
  intro r hr
  cases hm : e.msg with
  | none =>
    simp only [Event.recs, hm, List.append_nil, List.mem_cons, List.not_mem_nil, or_false] at hr
    rcases hr with rfl | rfl <;> simp [Rec.WellTyped]
  | some str =>
    simp only [Event.recs, hm, List.cons_append, List.nil_append, List.mem_cons, List.not_mem_nil,
      or_false] at hr
    rcases hr with rfl | rfl | rfl <;> simp [Rec.WellTyped, strRec]

theorem DataType.ofCode_code (t : DataType) : DataType.ofCode t.code = some t := by
  cases t <;> decide

/-! ### Reading one record -/

theorem cstr_spec {m : Mem} : ∀ {payload : List UInt8} {a : ℤ} {n : ℕ}, 0 ∈ payload →
    payload.length ≤ n → m.InBounds a payload.length → m.get a payload.length = payload →
    m.cstr n a = some (strText payload)
  | [], _, _, h, _, _, _ => absurd h (by simp)
  | c :: cs, a, 0, _, hn, _, _ => absurd hn (by simp)
  | c :: cs, a, n + 1, h0, hn, ⟨h1, h2⟩, hg => by
    rw [List.length_cons] at hn h2
    have hlen : (c :: cs).length = 1 + cs.length := by rw [List.length_cons, Nat.add_comm]
    rw [hlen, m.get_add, m.get_one, List.singleton_append, List.cons.injEq, Nat.cast_one] at hg
    obtain ⟨hc, hg⟩ := hg
    rw [Mem.cstr, Mem.load8_eq ⟨h1, by omega⟩, hc]
    simp only [Option.bind_eq_bind, Option.bind_some]
    by_cases hz : c = 0
    · rw [if_pos hz, hz]
      simp [strText]
    · have hmem : 0 ∈ cs := (List.mem_cons.mp h0).resolve_left fun h => hz h.symm
      rw [if_neg hz, cstr_spec hmem (by omega) ⟨by omega, by omega⟩ hg]
      simp [strText, hz]

/-- Spec of the `switch` on a stored record: everything read lies in the record's payload. -/
theorem printData_spec {m : Mem} {a : ℤ} {r : Rec} (g : Globals) (f : Printf) (hat : r.At m a)
    (hwt : r.WellTyped) (h0 : 0 ≤ a) (h1 : a + 8 + r.payload.length ≤ m.size) :
    printData g f r.type.code (a + 8) m = some (recText g f r) := by
  obtain ⟨-, -, hpay⟩ := hat
  have hstr : 0 ∈ r.payload → printStr (a + 8) m = some (strText r.payload) := fun hz =>
    cstr_spec hz (by omega) ⟨by omega, by omega⟩ hpay
  have h32 : r.payload.length = 4 → m.load32 (a + 8) = some (ofLe r.payload) := fun hl => by
    rw [hl] at hpay
    rw [Mem.load32_eq ⟨by omega, by omega⟩, Mem.word, hpay]
  have h64 : r.payload.length = 8 → m.load64 (a + 8) = some (ofLe r.payload) := fun hl => by
    rw [hl] at hpay
    rw [Mem.load64, Mem.load_eq ⟨by omega, by omega⟩, hpay, Option.map_some]
  have h8 : r.payload.length = 1 → m.load8 (a + 8) = some (m.byte (a + 8)) ∧
      [m.byte (a + 8)] = r.payload := fun hl => by
    rw [hl, m.get_one] at hpay
    exact ⟨Mem.load8_eq ⟨by omega, by omega⟩, hpay⟩
  obtain ⟨type, payload⟩ := r
  simp only [printData, DataType.ofCode_code, recText]
  cases type with
  | filename => cases g.terse <;> simp [hstr hwt]
  | lineno => cases g.terse <;> simp [h32 hwt]
  | string => simp [hstr hwt]
  | uint => simp [h32 hwt]
  | int => simp [h32 hwt]
  | float => simp [h32 hwt]
  | ulong => simp [h64 hwt]
  | long => simp [h64 hwt]
  | double => simp [h64 hwt]
  | char =>
    obtain ⟨hload, hbyte⟩ := h8 hwt
    simp [hload, hbyte]

end Log2mem
