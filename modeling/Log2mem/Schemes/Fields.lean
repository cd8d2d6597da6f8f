import Mathlib.Data.Prod.Lex
import Mathlib.Tactic.Ring
import Mathlib.Tactic.Linarith

/-! Two fields in one word: a high field above a low field of `b` values.

    Division and remainder take the fields apart again, and words are ordered as the pairs are ordered
    lexicographically.

        join b hi lo = hi b + lo        │ hi │ lo < b │ -/

namespace Schemes

/-- The word of two fields. -/
def join (b hi lo : ℕ) : ℕ := hi * b + lo

section Join
variable {b hi lo hi' lo' : ℕ}

theorem join_div (h : lo < b) : join b hi lo / b = hi := by
  rw [join, Nat.mul_comm, Nat.mul_add_div (by omega), Nat.div_eq_of_lt h, Nat.add_zero]

theorem join_mod (h : lo < b) : join b hi lo % b = lo := by
  rw [join, Nat.mul_comm, Nat.mul_add_mod, Nat.mod_eq_of_lt h]

theorem join_lt {c : ℕ} (h : lo < b) (hc : hi < c) : join b hi lo < c * b := by
  have hle : (hi + 1) * b ≤ c * b := Nat.mul_le_mul_right b hc
  rw [Nat.add_mul, Nat.one_mul] at hle
  rw [join]
  omega

/-- A smaller high field makes the smaller word. -/
theorem join_lt_of_hi (h : lo < b) (hhi : hi < hi') : join b hi lo < join b hi' lo' := by
  have hlt := join_lt h hhi
  rw [join] at hlt ⊢
  rw [join]
  omega

/-- ORDER: words are ordered as their fields are ordered lexicographically. -/
theorem join_lt_join (h : lo < b) (h' : lo' < b) :
    join b hi lo < join b hi' lo' ↔ toLex (hi, lo) < toLex (hi', lo') := by
  rw [Prod.Lex.toLex_lt_toLex]
  constructor
  · intro hlt
    rcases Nat.lt_trichotomy hi hi' with hhi | rfl | hhi
    · exact Or.inl hhi
    · refine Or.inr ⟨rfl, ?_⟩
      rw [join, join] at hlt
      exact Nat.lt_of_add_lt_add_left hlt
    · have hback : join b hi' lo' < join b hi lo := join_lt_of_hi h' hhi
      exact absurd hback (Nat.lt_asymm hlt)
  · rintro (hhi | ⟨rfl, hlo⟩)
    · exact join_lt_of_hi h hhi
    · exact Nat.add_lt_add_left hlo _

end Join

end Schemes
