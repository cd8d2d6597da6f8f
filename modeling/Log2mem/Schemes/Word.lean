import Mathlib.Tactic.Ring
import Mathlib.Tactic.Linarith
import Mathlib.Data.Nat.Bitwise

/-! Fixed-width machine words over the unbounded integers.

    A C conversion to a narrower type keeps the low bits. `toInt32`, `toU32` and `toSize` are the
    conversions to `int`, `unsigned int` and a 64-bit `size_t`; `leBytes` and `ofLe` are the
    little-endian byte images of an unsigned word, mutually inverse up to the width kept.

        exact integer ──toSize──▶ [0, 2⁶⁴) ──toU32──▶ [0, 2³²) ──toInt32──▶ [-2³¹, 2³¹) -/

namespace Schemes

/-- Conversion to a 32-bit `int`: the low 32 bits, read as two's complement. -/
def toInt32 (x : ℤ) : ℤ :=
  if x % 4294967296 < 2147483648 then x % 4294967296 else x % 4294967296 - 4294967296

/-- Conversion to a 32-bit `unsigned int`. -/
def toU32 (x : ℤ) : ℕ := (x % 4294967296).toNat

/-- Conversion to a 64-bit `size_t`. -/
def toSize (x : ℤ) : ℕ := (x % 18446744073709551616).toNat

theorem toInt32_ge (x : ℤ) : -2147483648 ≤ toInt32 x := by
  unfold toInt32; split <;> omega

theorem toInt32_lt (x : ℤ) : toInt32 x < 2147483648 := by
  unfold toInt32; split <;> omega

theorem toInt32_of_range {x : ℤ} (h0 : -2147483648 ≤ x) (h1 : x < 2147483648) : toInt32 x = x := by
  unfold toInt32; split <;> omega

/-- `toInt32` only depends on the residue modulo `2 ^ 32`. -/
theorem toInt32_congr {x y : ℤ} (h : x % 4294967296 = y % 4294967296) : toInt32 x = toInt32 y := by
  unfold toInt32; rw [h]

theorem toInt32_emod (x : ℤ) : toInt32 x % 4294967296 = x % 4294967296 := by
  unfold toInt32; split <;> omega

theorem toU32_lt (x : ℤ) : toU32 x < 4294967296 := by
  unfold toU32; omega

theorem toU32_cast (x : ℤ) : (toU32 x : ℤ) = x % 4294967296 := by
  unfold toU32; omega

theorem toU32_of_range {x : ℤ} (h0 : 0 ≤ x) (h1 : x < 4294967296) : (toU32 x : ℤ) = x := by
  rw [toU32_cast]; omega

@[simp] theorem toU32_natCast (n : ℕ) : toU32 (n : ℤ) = n % 4294967296 := by
  unfold toU32; omega

theorem toSize_cast (x : ℤ) : (toSize x : ℤ) = x % 18446744073709551616 := by
  unfold toSize; omega

theorem toSize_of_range {x : ℤ} (h0 : 0 ≤ x) (h1 : x < 18446744073709551616) :
    (toSize x : ℤ) = x := by
  rw [toSize_cast]; omega

@[simp] theorem toInt32_toSize (x : ℤ) : toInt32 (toSize x) = toInt32 x :=
  toInt32_congr (by rw [toSize_cast]; omega)

@[simp] theorem toInt32_toU32 (x : ℤ) : toInt32 (toU32 x) = toInt32 x :=
  toInt32_congr (by rw [toU32_cast]; omega)

/-! ### Little-endian byte images -/

/-- The `n` low bytes of `v`, least significant first. -/
def leBytes : ℕ → ℕ → List UInt8
  | 0, _ => []
  | n + 1, v => UInt8.ofNat (v % 256) :: leBytes n (v / 256)

/-- The unsigned value of a little-endian byte string. -/
def ofLe : List UInt8 → ℕ
  | [] => 0
  | b :: bs => b.toNat + 256 * ofLe bs

@[simp] theorem leBytes_length : ∀ n v, (leBytes n v).length = n
  | 0, _ => rfl
  | n + 1, v => by rw [leBytes, List.length_cons, leBytes_length n]

@[simp] theorem ofLe_leBytes : ∀ n v, ofLe (leBytes n v) = v % 256 ^ n
  | 0, v => by simp [leBytes, ofLe, Nat.mod_one]
  | n + 1, v => by
    rw [leBytes, ofLe, ofLe_leBytes n]
    have hb : (UInt8.ofNat (v % 256)).toNat = v % 256 := by simp
    rw [hb, Nat.pow_succ, Nat.mul_comm (256 ^ n), Nat.mod_mul]

theorem leBytes_ofLe : ∀ bs : List UInt8, leBytes bs.length (ofLe bs) = bs
  | [] => rfl
  | b :: bs => by
    have hb := b.toNat_lt
    have hmod : (b.toNat + 256 * ofLe bs) % 256 = b.toNat := by omega
    have hdiv : (b.toNat + 256 * ofLe bs) / 256 = ofLe bs := by omega
    rw [List.length_cons, ofLe, leBytes, hmod, hdiv, leBytes_ofLe bs, UInt8.ofNat_toNat]

theorem ofLe_lt : ∀ bs : List UInt8, ofLe bs < 256 ^ bs.length
  | [] => by simp [ofLe]
  | b :: bs => by
    have hb := b.toNat_lt
    have hbs := ofLe_lt bs
    rw [ofLe, List.length_cons, Nat.pow_succ]
    omega

/-! ### Power-of-two masks -/

/-- Masking with one less than a power of two is reduction modulo it. -/
theorem and_mask {n : ℕ} (hn : ∃ b, n = 2 ^ b) (x : ℕ) : x &&& (n - 1) = x % n := by
  obtain ⟨b, rfl⟩ := hn
  exact Nat.and_two_pow_sub_one_eq_mod x b

end Schemes
