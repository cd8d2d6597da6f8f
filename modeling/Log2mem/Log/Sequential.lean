import Log2mem.Dump.Order
import Log2mem.Log.Calls
import Log2mem.Log.Items

/-! Sequential runs of the logging API, on the memmap and on the abstract log side by side.

    `Op.call` makes the call on the memory; `Op.log` says what it means for the log. The invariant
    relates the two: slot `k % num_rows` stores exactly the items of row `k`, for the last `num_rows`
    rows.

        memory   ──call──▶ memory'
          │ LogHolds         │ LogHolds
        queue    ──log───▶ queue' -/

namespace Log2mem
open Schemes

/-- A call of the logging API; `append k` goes to the row pointer the `k`-th acquisition returned. -/
inductive Op where
  | write (str filename : Option CStr) (lineno : Int32) (env : Env)
  | getRow (filename : Option CStr) (lineno : Int32) (env : Env)
  | event4 (e : Event) (env : Env)
  | event2 (flowid msgid : Int32) (env : Env)
  | event3 (flowid msgid : Int32) (msgstr : CStr) (env : Env)
  | append (k : ℕ) (a : Append)

/-- The memory, and the row pointers returned so far. -/
structure LogState where
  mem : Mem
  rows : List ℤ

/-- The call on the memory. -/
def Op.call (h : Handle) (s : LogState) : Op → Option LogState
  | .write str filename lineno env => do
    let (m, r) ← log2memWrite h env str filename lineno s.mem
    return ⟨m, s.rows ++ [r]⟩
  | .getRow filename lineno env => do
    let (m, r) ← log2memGetRow h env filename lineno s.mem
    return ⟨m, s.rows ++ [r]⟩
  | .event4 e env => do
    let (m, r) ← log2memTimeEvent4 h env e s.mem
    return ⟨m, s.rows ++ [r]⟩
  | .event2 flowid msgid env => do
    let (m, r) ← log2memTimeEvent2 h env flowid msgid s.mem
    return ⟨m, s.rows ++ [r]⟩
  | .event3 flowid msgid msgstr env => do
    let (m, r) ← log2memTimeEvent3 h env flowid msgid msgstr s.mem
    return ⟨m, s.rows ++ [r]⟩
  | .append k a => do
    let r ← s.rows[k]?
    return ⟨← a.run (some r) s.mem, s.rows⟩

/-! ### What a call means for the log -/

/-- The items of the source location, under `MEMLOG_FILELINE`. -/
def locationItem (options : ℕ) (filename : Option CStr) (lineno : Int32) : List Item :=
  match filename with
  | some s => if options &&& optFileLine ≠ 0 then [.filename s.chars, .value (.lineno lineno)] else []
  | none => []

/-- The item of an optional string argument. -/
def strItem (str : Option CStr) : List Item :=
  match str with
  | some s => [.text s.chars]
  | none => []

/-- The items of a time event. -/
def Event.logged (e : Event) : List Item :=
  [.value (.int e.flowid), .value (.int e.msgref)] ++
    match e.msg with
    | some str => [.text ((List.range e.len.toInt.toNat).map str)]
    | none => []

/-- The item of an append call. -/
def Append.logged : Append → List Item
  | .str s => strItem s
  | .str2 (some b) len => [.text ((List.range len.toInt.toNat).map b)]
  | .str2 none _ => []
  | .int d => [.value (.int d)]
  | .uint d => [.value (.uint d)]
  | .long d => [.value (.long d)]
  | .ulong d => [.value (.ulong d)]
  | .float bits => [.value (.float bits)]
  | .double bits => [.value (.double bits)]
  | .char d => [.value (.char d)]

/-- The time event a call stands for. -/
def Op.event? : Op → Option Event
  | .event4 e _ => some e
  | .event2 flowid msgid _ => some ⟨flowid, msgid, none, 0⟩
  | .event3 flowid msgid msgstr _ => some ⟨flowid, msgid, some msgstr.buf, msgstr.strlen⟩
  | _ => none

/-- The groups of items a new row is offered; `group` says how the items of a time event go together. -/
def Op.groups (group : List Item → List (List Item)) (options : ℕ) : Op → List (List Item)
  | .write str filename lineno _ => oneByOne (locationItem options filename lineno ++ strItem str)
  | .getRow filename lineno _ => oneByOne (locationItem options filename lineno)
  | .append _ _ => []
  | op => (op.event?.map fun e => group e.logged).getD []

/-- The effect of a call on a log of `cap` rows of `rowLen` bytes. -/
def Op.log (group : List Item → List (List Item)) (cap rowLen options : ℕ) (q : Queue (List Item)) :
    Op → Queue (List Item)
  | .append k a => q.modify k fun row => offers rowLen row (oneByOne a.logged)
  | op => q.push cap (offers rowLen [] (op.groups group options))

/-! ### Which calls are considered -/

/-- At most `2 ^ 31 - 40` bytes. -/
def CStr.Short (s : CStr) : Prop := s.chars.length ≤ 2147483608

/-- `len` bytes of a buffer, NUL-free and at most `2 ^ 31 - 40` of them. -/
def ShortBuf (b : Buf) (len : Int32) : Prop :=
  0 ≤ len.toInt ∧ len.toInt ≤ 2147483608 ∧ ∀ i < len.toInt.toNat, b i ≠ 0

def Append.Short : Append → Prop
  | .str s => ∀ x ∈ s, x.Short
  | .str2 (some b) len => ShortBuf b len
  | _ => True

def Event.Short (e : Event) : Prop := ∀ b ∈ e.msg, ShortBuf b e.len

/-- Strings are short and NUL-free, and appends go to rows whose slot has not been acquired again. -/
def Op.Allowed (cap n : ℕ) : Op → Prop
  | .write str filename _ _ => (∀ s ∈ str, s.Short) ∧ ∀ s ∈ filename, s.Short
  | .getRow filename _ _ => ∀ s ∈ filename, s.Short
  | .event4 e _ => e.Short
  | .event2 _ _ _ => True
  | .event3 _ _ s _ => s.Short
  | .append k a => Retained cap n k ∧ a.Short

/-- The number of rows a call acquires. -/
def Op.acquires : Op → ℕ
  | .append _ _ => 0
  | _ => 1

/-- The calls of a run are allowed, from `n` acquisitions on. -/
def AllAllowed (cap : ℕ) : ℕ → List Op → Prop
  | _, [] => True
  | n, op :: ops => op.Allowed cap n ∧ AllAllowed cap (n + op.acquires) ops

/-! ### Groups of pushes and of items -/

theorem CStr.Short.inRange {s : CStr} (h : s.Short) : s.InRange := by
  unfold CStr.Short at h
  unfold CStr.InRange
  omega

/-- The groups a list of items stands for in the store. -/
def storedGroups (groups : List (List Item)) : List (List Rec) := groups.map fun g => g.map Item.stored

theorem offered_location_items (options : ℕ) {filename : Option CStr} (lineno : Int32)
    (h : ∀ s ∈ filename, s.InRange) : offered (locationPushes options filename lineno) =
      storedGroups (oneByOne (locationItem options filename lineno)) := by
  rw [offered_location _ _ h, storedGroups, oneByOne]
  cases filename with
  | none => rfl
  | some s =>
    simp only [locationItems, locationItem]
    split <;> simp [Item.stored, Value.type, Value.bytes]

theorem Append.Short.inRange {a : Append} (h : a.Short) : a.InRange := by
  rcases a with (_ | s) | ⟨_ | b, len⟩ | _ | _ | _ | _ | _ | _ | _
  case str.some => exact (h s rfl).inRange
  case str2.some =>
    obtain ⟨h0, h1, -⟩ := h
    exact ⟨h0, by omega⟩
  all_goals exact trivial

theorem offered_write_items (options : ℕ) {str filename : Option CStr} (lineno : Int32)
    (hstr : ∀ s ∈ str, s.InRange) (hfile : ∀ s ∈ filename, s.InRange) :
    offered (locationPushes options filename lineno ++ strPushes str) =
      storedGroups (oneByOne (locationItem options filename lineno ++ strItem str)) := by
  have hloc := offered_location_items options lineno hfile
  simp only [offered, storedGroups, oneByOne] at hloc ⊢
  rw [List.map_append, List.map_append, List.map_append, hloc]
  cases str with
  | none => rfl
  | some s => simp [strPushes, strItem, Push.recs, s.strRecs_eq (hstr s rfl), Item.stored]

/-- The item of an append call is what the call stores. -/
theorem Append.items_stored (a : Append) : a.items = a.logged.map Item.stored := by
  rcases a with (_ | s) | ⟨_ | b, len⟩ | _ | _ | _ | _ | _ | _ | _ <;> rfl

theorem Append.offers_logged (a : Append) (rowLen : ℕ) (row : List Item) :
    offers rowLen row (oneByOne a.logged) = offer rowLen row a.logged := by
  have hnil : row = offer rowLen row [] := by simp [offer]
  rcases a with (_ | s) | ⟨_ | b, len⟩ | _ | _ | _ | _ | _ | _ | _ <;> first | rfl | exact hnil

theorem Event.Short.exact {e : Event} (h : e.Short) : e.Exact := fun hs => by
  obtain ⟨b, hb⟩ := Option.isSome_iff_exists.mp hs
  have := (h b hb).2.1
  omega

theorem Event.recs_items (e : Event) : e.recs = e.logged.map Item.stored := by
  cases hm : e.msg <;>
    simp [Event.recs, Event.logged, hm, Item.stored, strRec, Value.type, Value.bytes]

/-- The row contents of the log are fit to be stored and printed. -/
structure GoodRow (row : List Item) : Prop where
  nulFree : ∀ x ∈ row, x.NulFree
  location : LocationFirst row

theorem GoodRow.nil : GoodRow [] := ⟨by simp, [], [], rfl, by simp, by simp⟩

theorem GoodRow.offers {rowLen : ℕ} : ∀ {groups : List (List Item)} {row : List Item}, GoodRow row →
    (∀ g ∈ groups, ∀ x ∈ g, x.NulFree ∧ x.isLocation = false) → GoodRow (offers rowLen row groups)
  | [], row, h, _ => h
  | g :: groups, row, h, hg => by
    show GoodRow (Log2mem.offers rowLen (offer rowLen row g) groups)
    refine GoodRow.offers ?_
      fun g' hg' => hg g' (List.mem_cons_of_mem _ hg')
    have hgood := hg g (List.mem_cons_self ..)
    unfold offer
    split
    · obtain ⟨locs, vals, rfl, hlocs, hvals⟩ := h.location
      refine ⟨fun x hx => ?_, locs, vals ++ g, by simp, hlocs, fun x hx => ?_⟩
      · rcases List.mem_append.mp hx with hx | hx
        · exact h.nulFree x hx
        · exact (hgood x hx).1
      · rcases List.mem_append.mp hx with hx | hx
        · exact hvals x hx
        · exact (hgood x hx).2
    · exact h

theorem GoodRow.location_offers {rowLen : ℕ} {items : List Item} (hn : ∀ x ∈ items, x.NulFree)
    (hl : ∀ x ∈ items, x.isLocation = true) : GoodRow (Log2mem.offers rowLen [] (oneByOne items)) := by
  have hmem : ∀ (groups : List (List Item)) (row : List Item), (∀ g ∈ groups, ∀ x ∈ g, x ∈ items) →
      (∀ x ∈ row, x ∈ items) → ∀ x ∈ Log2mem.offers rowLen row groups, x ∈ items := by
    intro groups
    induction groups with
    | nil => exact fun row _ h => h
    | cons g groups ih =>
      intro row hg hrow
      refine ih _ (fun g' hg' => hg g' (List.mem_cons_of_mem _ hg')) fun x hx => ?_
      unfold offer at hx
      split at hx
      · rcases List.mem_append.mp hx with hx | hx
        · exact hrow x hx
        · exact hg g (List.mem_cons_self ..) x hx
      · exact hrow x hx
  have hall := hmem (oneByOne items) [] (by simp [oneByOne]) (by simp)
  exact ⟨fun x hx => hn x (hall x hx), _, [], (List.append_nil _).symm, fun x hx => hl x (hall x hx),
    by simp⟩

end Log2mem
