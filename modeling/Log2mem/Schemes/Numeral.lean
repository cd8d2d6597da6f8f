import Mathlib.Data.List.TakeWhile
import Mathlib.Data.Nat.Notation
import Mathlib.Algebra.Order.Group.Nat
import Mathlib.Tactic.Ring

/-! Decimal numerals read into a machine word.

    The accumulator `10 * v + digit` is kept modulo `2 ^ 32`, so that a long numeral wraps; its residue
    modulo any power of two up to `2 ^ 32` is still the residue of the numeral's value.

        "4294967298" ──10 * v + c, wrapping──▶ 2 ──% n──▶ 2 % n = 4294967298 % n -/

namespace Schemes

/-- `'0' ≤ c ≤ '9'`. -/
def isDigit (c : UInt8) : Bool := 48 ≤ c && c ≤ 57

/-- The value of a numeral, most significant digit first; the empty numeral is 0. -/
def decimal (d : List UInt8) : ℕ := d.foldl (fun v c => 10 * v + (c.toNat - 48)) 0

/-- The wrapping accumulator. -/
def decimal32 (idx : UInt32) (d : List UInt8) : UInt32 :=
  d.foldl (fun v c => 10 * v + (c.toUInt32 - 48)) idx

theorem isDigit_iff {c : UInt8} : isDigit c = true ↔ 48 ≤ c.toNat ∧ c.toNat ≤ 57 := by
  rw [isDigit, Bool.and_eq_true, decide_eq_true_eq, decide_eq_true_eq, UInt8.le_iff_toNat_le,
    UInt8.le_iff_toNat_le]
  rfl

/-- WRAP: the accumulator holds the value modulo `2 ^ 32`. -/
theorem decimal32_toNat {d : List UInt8} (hd : ∀ c ∈ d, isDigit c = true) :
    (decimal32 0 d).toNat = decimal d % 4294967296 := by
  suffices h : ∀ (idx : UInt32) (v : ℕ), idx.toNat = v % 4294967296 →
      (decimal32 idx d).toNat = d.foldl (fun v c => 10 * v + (c.toNat - 48)) v % 4294967296 from
    h 0 0 rfl
  induction d with
  | nil => exact fun idx v h => h
  | cons c d ih =>
    intro idx v h
    obtain ⟨h0, h1⟩ := isDigit_iff.mp (hd c (List.mem_cons_self ..))
    rw [decimal32, List.foldl_cons, List.foldl_cons, ← decimal32]
    refine ih (fun c hc => hd c (List.mem_cons_of_mem _ hc)) _ _ ?_
    have hsub : (c.toUInt32 - 48).toNat = c.toNat - 48 := by
      rw [UInt32.toNat_sub_of_le _ _ (by rw [UInt32.le_iff_toNat_le]; simpa using h0)]
      simp
    rw [UInt32.toNat_add, UInt32.toNat_mul, hsub, h]
    simp [Nat.mul_mod, Nat.add_mod]

/-- MASK: modulo a power of two the wrap is not seen. -/
theorem decimal32_mod {d : List UInt8} (hd : ∀ c ∈ d, isDigit c = true) {n b : ℕ} (hb : b ≤ 32)
    (hn : n = 2 ^ b) : (decimal32 0 d).toNat % n = decimal d % n := by
  have hdvd : n ∣ 4294967296 := by
    rw [hn]
    exact pow_dvd_pow 2 hb
  rw [decimal32_toNat hd, Nat.mod_mod_of_dvd _ hdvd]

/-- A text starts with one longest run of characters of a kind. -/
theorem span_unique {α : Type*} {p : α → Bool} {d : List α} (rest : List α) (hd : ∀ c ∈ d, p c = true)
    (hrest : ∀ c ∈ rest.head?, p c = false) :
    (d ++ rest).takeWhile p = d ∧ (d ++ rest).dropWhile p = rest := by
  rw [List.takeWhile_append_of_pos hd, List.dropWhile_append_of_pos hd]
  cases rest with
  | nil => simp
  | cons c rest =>
    have hc := hrest c (by simp)
    simp [hc]

end Schemes
