import Log2mem.Dump.RoundTrip
import Log2mem.Schemes.Queue

/-! The log as its users see it: rows of items, of which the last `num_rows` rows are kept.

    An item is what one argument of the API stands for. A row takes a group of items if their encoded
    sizes still fit, and is rendered as the text of its items other than the source location, joined by
    the delimiter. Nothing here mentions bytes in memory; `Item.stored` is the link to the stored records.

        write / get_row / time_event ──▶ push a row        append ──▶ offer a group to row k -/

namespace Log2mem
open Schemes

/-- One logged item. -/
inductive Item where
  | filename (s : List UInt8)
  | text (s : List UInt8)
  | value (v : Value)

/-- Source location items are not part of the terse output. -/
def Item.isLocation : Item → Bool
  | .filename _ | .value (.lineno _) => true
  | _ => false

/-- The bytes an item takes in a row: a header, and the payload with the NUL of a string. -/
def Item.size : Item → ℕ
  | .filename s | .text s => 8 + (s.length + 1)
  | .value v => 8 + v.bytes.length

/-- The text of an item that is not a source location. -/
def Item.show (f : Printf) : Item → Text
  | .text s => s
  | .value (.uint d) => f.uint d.toNat
  | .value (.int d) => f.int d.toInt
  | .value (.ulong d) => f.uint d.toNat
  | .value (.long d) => f.long d.toInt
  | .value (.float bits) => f.float bits.toNat
  | .value (.double bits) => f.double bits.toNat
  | .value (.char d) => [d]
  | .filename _ | .value (.lineno _) => []

/-- Room taken by the items of a row. -/
def sizes (row : List Item) : ℕ := (row.map Item.size).sum

/-- A row of `rowLen` bytes takes a group of items whole, or not at all. -/
def offer (rowLen : ℕ) (row group : List Item) : List Item :=
  if sizes row + sizes group ≤ rowLen then row ++ group else row

/-- A row is offered several groups in order. -/
def offers (rowLen : ℕ) (row : List Item) (groups : List (List Item)) : List Item :=
  groups.foldl (offer rowLen) row

/-- Items offered one by one. -/
def oneByOne (items : List Item) : List (List Item) := items.map fun x => [x]

/-- Items offered together. -/
def together (items : List Item) : List (List Item) := [items]

/-- The line of a row: nothing for an empty row. -/
def renderRow (f : Printf) (delim : Text) (row : List Item) : Text :=
  if row = [] then []
  else delim.intercalate ((row.filter fun x => !x.isLocation).map (Item.show f)) ++ [10]

/-- The rendering of the rows kept, oldest first. -/
def render (f : Printf) (delim : Text) (q : Queue (List Item)) : Text :=
  q.rows.flatMap (renderRow f delim)

/-! ### Items and stored records -/

/-- The record an item is stored as. -/
def Item.stored : Item → Rec
  | .filename s => ⟨.filename, s ++ [0]⟩
  | .text s => ⟨.string, s ++ [0]⟩
  | .value v => ⟨v.type, v.bytes⟩

/-- A string item without a NUL inside. -/
def Item.NulFree : Item → Prop
  | .filename s | .text s => 0 ∉ s
  | .value _ => True

theorem Item.size_stored (x : Item) : recFormat.size x.stored = x.size := by
  cases x <;> simp [Item.stored, Item.size, Log2mem.size_rec]

theorem total_stored : ∀ row : List Item, recFormat.total (row.map Item.stored) = sizes row
  | [] => rfl
  | x :: row => by
    have ih := total_stored row
    simp only [sizes] at ih ⊢
    rw [List.map_cons, recFormat.total_cons, x.size_stored, ih, List.map_cons, List.sum_cons]

/-- Offering a group is one step of the greedy fill of the stored records. -/
theorem offer_stored (rowLen : ℕ) (row group : List Item) :
    (offer rowLen row group).map Item.stored =
      recFormat.keep rowLen (row.map Item.stored) (group.map Item.stored) := by
  have hrow := total_stored row
  have hgroup := total_stored group
  by_cases hempty : sizes group = 0
  · have hnil : group = [] := by
      have := recFormat.total_eq_zero (hgroup.trans hempty)
      simpa using this
    subst hnil
    simp [offer]
  · by_cases hfit : sizes row + sizes group ≤ rowLen
    · rw [offer, if_pos hfit, recFormat.keep_of_fits (by omega), List.map_append]
    · rw [offer, if_neg hfit, recFormat.keep_of_not_fits (by omega)]

theorem offers_stored (rowLen : ℕ) (groups : List (List Item)) :
    (offers rowLen [] groups).map Item.stored =
      recFormat.fit rowLen (groups.map fun g => g.map Item.stored) := by
  induction groups using List.reverseRecOn with
  | nil => rfl
  | append_singleton gs g ih =>
    rw [List.map_append, List.map_singleton, recFormat.fit_concat, ← ih, ← offer_stored, offers,
      List.foldl_append, List.foldl_cons, List.foldl_nil]
    rfl

/-! ### The terse text of stored items -/

theorem toInt_int64 (d : Int64) : (Int64.ofNat d.toUInt64.toNat).toInt = d.toInt := by
  have hd : d.toInt = (d.toUInt64.toNat : ℤ).bmod (2 ^ 64) := BitVec.toInt_eq_toNat_bmod d.toBitVec
  rw [hd]
  exact Int64.toInt_ofNat'

theorem recText_stored {g : Globals} (hg : g.terse = true) (f : Printf) {x : Item} (h : x.NulFree) :
    recText g f x.stored = (x.show f, !x.isLocation) := by
  cases x with
  | filename s => simp [recText, Item.stored, Item.show, Item.isLocation, hg]
  | text s => simp [recText, Item.stored, Item.show, Item.isLocation, strText_nul h]
  | value v =>
    cases v with
    | lineno d => simp [recText, Item.stored, Value.type, Item.show, Item.isLocation, hg]
    | uint d =>
      have := Nat.mod_eq_of_lt d.toNat_lt
      simp_all [recText, Item.stored, Value.type, Value.bytes, Item.show, Item.isLocation]
    | int d =>
      have hlt : d.toUInt32.toNat % 256 ^ 4 = d.toUInt32.toNat := Nat.mod_eq_of_lt d.toUInt32.toNat_lt
      simp only [recText, Item.stored, Value.type, Value.bytes, Item.show, Item.isLocation, ofLe_leBytes,
        hlt, toInt32_int32, Bool.not_false]
    | ulong d =>
      have hlt : d.toNat % 256 ^ 8 = d.toNat := Nat.mod_eq_of_lt d.toNat_lt
      simp only [recText, Item.stored, Value.type, Value.bytes, Item.show, Item.isLocation, ofLe_leBytes,
        hlt, Bool.not_false]
    | long d =>
      have hlt : d.toUInt64.toNat % 256 ^ 8 = d.toUInt64.toNat := Nat.mod_eq_of_lt d.toUInt64.toNat_lt
      simp only [recText, Item.stored, Value.type, Value.bytes, Item.show, Item.isLocation, ofLe_leBytes,
        hlt, toInt_int64, Bool.not_false]
    | float bits =>
      have hlt : bits.toNat % 256 ^ 4 = bits.toNat := Nat.mod_eq_of_lt bits.toNat_lt
      simp only [recText, Item.stored, Value.type, Value.bytes, Item.show, Item.isLocation, ofLe_leBytes,
        hlt, Bool.not_false]
    | double bits =>
      have hlt : bits.toNat % 256 ^ 8 = bits.toNat := Nat.mod_eq_of_lt bits.toNat_lt
      simp only [recText, Item.stored, Value.type, Value.bytes, Item.show, Item.isLocation, ofLe_leBytes,
        hlt, Bool.not_false]
    | char d => simp [recText, Item.stored, Value.type, Value.bytes, Item.show, Item.isLocation]

/-- The source location, if any, is at the start of the row. -/
def LocationFirst (row : List Item) : Prop :=
  ∃ locs vals : List Item, row = locs ++ vals ∧ (∀ x ∈ locs, x.isLocation = true) ∧
    ∀ x ∈ vals, x.isLocation = false

section Terse
variable {g : Globals} (hg : g.terse = true) (hd : g.showdelim = true) (f : Printf)
include hg hd

theorem recsText_vals : ∀ {vals : List Item} {b : Bool}, (∀ x ∈ vals, x.NulFree) →
    (∀ x ∈ vals, x.isLocation = false) →
    (recsText g f b (vals.map Item.stored)).1 =
      (if b && !vals.isEmpty then g.delim else []) ++ g.delim.intercalate (vals.map (Item.show f))
  | [], b, _, _ => by simp [recsText, List.intercalate]
  | [x], b, hn, hl => by
    rw [List.map_singleton, recsText, recText_stored hg f (hn x (by simp))]
    cases b <;> simp [recsText, hd, List.intercalate]
  | x :: y :: vals, b, hn, hl => by
    have ih := recsText_vals (b := true) (fun z hz => hn z (List.mem_cons_of_mem x hz))
      (fun z hz => hl z (List.mem_cons_of_mem x hz))
    rw [List.map_cons, recsText, recText_stored hg f (hn x (by simp)), hl x (by simp)]
    simp only [Bool.not_false, ih]
    cases b <;> simp [hd, List.intercalate]

/-- A row with its location first prints its items joined by the delimiter. -/
theorem recsText_row {row : List Item} (hn : ∀ x ∈ row, x.NulFree) (hl : LocationFirst row) :
    (recsText g f false (row.map Item.stored)).1 =
      g.delim.intercalate ((row.filter fun x => !x.isLocation).map (Item.show f)) := by
  obtain ⟨locs, vals, rfl, hlocs, hvals⟩ := hl
  induction locs with
  | nil =>
    rw [List.nil_append, recsText_vals hg hd f (by simpa using hn) hvals,
      List.filter_eq_self.mpr fun x hx => by simp [hvals x hx]]
    simp
  | cons x locs ih =>
    have hx := hlocs x (by simp)
    have hshow : x.show f = [] := by
      cases x with
      | filename s => rfl
      | text s => simp [Item.isLocation] at hx
      | value v => cases v <;> first | rfl | simp [Item.isLocation] at hx
    rw [List.cons_append, List.map_cons, recsText, recText_stored hg f (hn x (by simp)), hx, hshow]
    simp only [Bool.not_true, Bool.and_false, Bool.false_eq_true, if_false, List.nil_append]
    rw [ih (fun y hy => hn y (by simp only [List.cons_append, List.mem_cons]; exact Or.inr hy))
      (fun y hy => hlocs y (by simp [hy])), List.filter_cons_of_neg (by simp [hx])]

end Terse

end Log2mem
