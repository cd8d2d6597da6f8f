import Mathlib.Data.List.Lemmas
import Log2mem.Schemes.Window

/-! Reading a ring back by the lowest stored number, when numbers wrap.

    Item `k` is stored in slot `k % N` under the number `k % M`, `N` dividing `M`. A reader that starts
    at the lowest stored number and visits the `N` slots from there meets the retained items from
    `wrapPoint` on first, and the older ones after them: oldest first only if no multiple of `M`
    separates the retained items.

        n - N ……… wrapPoint ……… n         visited:  [wrapPoint, n) then [n - N, wrapPoint) -/

namespace Schemes

/-- Where the visit of a ring starts: the last multiple of `M` below `n`, or the oldest item. -/
def wrapPoint (M N n : ℕ) : ℕ := max (n - N) ((n - 1) / M * M)

/-- The order in which the retained items are visited. -/
def visitOrder (M N n : ℕ) : List ℕ :=
  List.range' (wrapPoint M N n) (n - wrapPoint M N n) ++
    List.range' (n - N) (wrapPoint M N n - (n - N))

section Wrap
variable {M N n : ℕ}

theorem le_wrapPoint (M N n : ℕ) : n - N ≤ wrapPoint M N n := le_max_left ..

theorem wrapPoint_le (M N n : ℕ) : wrapPoint M N n ≤ n := by
  have := Nat.div_mul_le_self (n - 1) M
  exact max_le (Nat.sub_le ..) (by omega)

theorem window_eq (M N n : ℕ) : window N n =
    List.range' (n - N) (wrapPoint M N n - (n - N)) ++
      List.range' (wrapPoint M N n) (n - wrapPoint M N n) := by
  have h1 := le_wrapPoint M N n
  have h2 := wrapPoint_le M N n
  have hmin : min n N = (wrapPoint M N n - (n - N)) + (n - wrapPoint M N n) := by omega
  rw [window, hmin, ← List.range'_append_1, Nat.add_sub_cancel' h1]

theorem wrapPoint_eq_zero (hNM : N ≤ M) (hn : n < N) : wrapPoint M N n = 0 := by
  rw [wrapPoint, Nat.div_eq_of_lt (by omega)]
  omega

/-- The `N` rounds of the visit meet the newer items, then the older ones, or nothing where the ring is
    not full. -/
theorem flatMap_rounds {α : Type*} (hNM : N ≤ M) (f : ℕ → List α) :
    (List.range N).flatMap (fun i => if wrapPoint M N n + i < n then f (wrapPoint M N n + i)
      else if N ≤ n then f (wrapPoint M N n + i - N) else []) = (visitOrder M N n).flatMap f := by
  have hlo := le_wrapPoint M N n
  have hhi := wrapPoint_le M N n
  have hshort : n < N → wrapPoint M N n = 0 := wrapPoint_eq_zero hNM
  rw [visitOrder]
  generalize wrapPoint M N n = w at hlo hhi hshort ⊢
  have hrounds : List.range N = List.range (n - w) ++ (List.range (N - (n - w))).map fun i => n - w + i := by
    rw [← List.range_add]
    congr 1
    omega
  rw [hrounds, List.flatMap_append, List.flatMap_append, List.flatMap_map]
  congr 1
  · rw [List.range'_eq_map_range, List.flatMap_map]
    exact List.flatMap_congr fun i hi => if_pos (by have := List.mem_range.mp hi; omega)
  · by_cases hfull : N ≤ n
    · rw [List.range'_eq_map_range, List.flatMap_map, show N - (n - w) = w - (n - N) by omega]
      refine List.flatMap_congr fun i hi => ?_
      have hi := List.mem_range.mp hi
      rw [if_neg (by omega), if_pos hfull]
      congr 1
      omega
    · have hempty : w - (n - N) = 0 := by
        have := hshort (by omega)
        omega
      rw [hempty, List.range'_zero, List.flatMap_nil]
      refine List.flatMap_eq_nil_iff.mpr fun i _ => ?_
      rw [if_neg (by omega), if_neg hfull]

theorem mem_visitOrder {k : ℕ} : k ∈ visitOrder M N n ↔ Retained N n k := by
  rw [← mem_window, visitOrder, window_eq M, List.mem_append, List.mem_append, or_comm]

/-- Retained items on the same side of `wrapPoint` carry the same wrap count. -/
theorem div_eq_of_same_side (hM : 0 < M) (hNM : N ≤ M) {k k' : ℕ} (hk : Retained N n k)
    (hk' : Retained N n k') : k / M = k' / M ↔ (k < wrapPoint M N n ↔ k' < wrapPoint M N n) := by
  obtain ⟨h1, h2⟩ := hk
  obtain ⟨h3, h4⟩ := hk'
  have hlast := Nat.div_add_mod' (n - 1) M
  have hmod := Nat.mod_lt (n - 1) hM
  -- each side of the wrap point lies within one multiple of `M`
  have hside : ∀ x, x < n → n ≤ x + N →
      (¬ x < wrapPoint M N n → x / M = (n - 1) / M) ∧
      (x < wrapPoint M N n → x / M + 1 = (n - 1) / M) := fun x hx hx' => by
    unfold wrapPoint
    generalize (n - 1) / M = q at hlast ⊢
    refine ⟨fun hge => ?_, fun hlt => ?_⟩
    · rw [not_lt, max_le_iff] at hge
      exact Nat.div_eq_of_lt_le hge.2 (by rw [Nat.succ_mul]; omega)
    · have hlt : x < q * M := (lt_max_iff.mp hlt).resolve_left (by omega)
      obtain ⟨p, rfl⟩ : ∃ p, q = p + 1 := Nat.exists_eq_add_one.mpr (by
        by_contra h0
        rw [Nat.eq_zero_of_not_pos h0, Nat.zero_mul] at hlt
        omega)
      have hpm : (p + 1) * M = p * M + M := Nat.succ_mul p M
      rw [Nat.div_eq_of_lt_le (k := p) (by omega) hlt]
  obtain ⟨ha, hb⟩ := hside k h1 h2
  obtain ⟨hc, hd⟩ := hside k' h3 h4
  by_cases hkw : k < wrapPoint M N n <;> by_cases hkw' : k' < wrapPoint M N n
  · exact iff_of_true (Nat.succ_injective ((hb hkw).trans (hd hkw').symm)) (iff_of_true hkw hkw')
  · refine iff_of_false (fun h => ?_) (fun h => hkw' (h.mp hkw))
    exact Nat.succ_ne_self _ ((h ▸ hb hkw).trans (hc hkw').symm)
  · refine iff_of_false (fun h => ?_) (fun h => hkw (h.mpr hkw'))
    exact Nat.succ_ne_self _ ((h ▸ hd hkw').trans (ha hkw).symm)
  · exact iff_of_true ((ha hkw).trans (hc hkw').symm) (iff_of_false hkw hkw')

/-- The lowest stored number is that of the item at `wrapPoint`. -/
theorem wrapPoint_lowest (hM : 0 < M) (hNM : N ≤ M) {k : ℕ} (hk : Retained N n k) :
    wrapPoint M N n % M ≤ k % M := by
  obtain ⟨h1, h2⟩ := hk
  by_cases hlast : n - N ≤ (n - 1) / M * M
  · rw [wrapPoint, max_eq_right hlast, Nat.mul_mod_left]
    exact Nat.zero_le _
  · have hw : wrapPoint M N n = n - N := max_eq_left (by omega)
    have hdiv : k / M = (n - N) / M :=
      (div_eq_of_same_side hM hNM ⟨h1, h2⟩ ⟨by omega, by omega⟩).mpr (by rw [hw]; omega)
    have hk' := Nat.div_add_mod k M
    have ho := Nat.div_add_mod (n - N) M
    rw [hdiv] at hk'
    rw [hw]
    omega

/-- Filtering keeps the order exactly when one side of the wrap point is filtered out. -/
theorem filter_visitOrder_iff {p : ℕ → Bool} :
    (visitOrder M N n).filter p = (window N n).filter p ↔
      (∀ k ∈ window N n, p k → k < wrapPoint M N n) ∨
      (∀ k ∈ window N n, p k → ¬ k < wrapPoint M N n) := by
  have hlo := le_wrapPoint M N n
  have hhi := wrapPoint_le M N n
  have hside : ∀ k ∈ window N n, n - N ≤ k ∧ k < n := fun k hk => by
    obtain ⟨h1, h2⟩ := mem_window.mp hk
    omega
  rw [visitOrder, window_eq M, List.filter_append, List.filter_append]
  rw [window_eq M] at hside
  generalize hA : List.range' (n - N) (wrapPoint M N n - (n - N)) = A at *
  generalize hB : List.range' (wrapPoint M N n) (n - wrapPoint M N n) = B at *
  have hmemA : ∀ k ∈ A, k < wrapPoint M N n := fun k hk => by
    rw [← hA, List.mem_range'_1] at hk; omega
  have hmemB : ∀ k ∈ B, ¬ k < wrapPoint M N n := fun k hk => by
    rw [← hB, List.mem_range'_1] at hk; omega
  constructor
  · intro h
    cases ha : A.filter p with
    | nil =>
      refine Or.inr fun k hk hp hlt => ?_
      rcases List.mem_append.mp hk with hk | hk
      · exact absurd (List.mem_filter.mpr ⟨hk, hp⟩) (by rw [ha]; exact List.not_mem_nil)
      · exact hmemB k hk hlt
    | cons a as =>
      cases hb : B.filter p with
      | nil =>
        refine Or.inl fun k hk hp => ?_
        rcases List.mem_append.mp hk with hk | hk
        · exact hmemA k hk
        · exact absurd (List.mem_filter.mpr ⟨hk, hp⟩) (by rw [hb]; exact List.not_mem_nil)
      | cons b bs =>
        rw [ha, hb, List.cons_append, List.cons_append, List.cons.injEq] at h
        have hain : a ∈ A := (List.mem_filter.mp (ha ▸ List.mem_cons_self ..)).1
        have hbin : b ∈ B := (List.mem_filter.mp (hb ▸ List.mem_cons_self ..)).1
        exact absurd (hmemA a hain) (h.1 ▸ hmemB b hbin)
  · rintro (h | h)
    · have hb : B.filter p = [] := List.filter_eq_nil_iff.mpr fun k hk hp =>
        hmemB k hk (h k (List.mem_append_right _ hk) hp)
      rw [hb, List.nil_append, List.append_nil]
    · have ha : A.filter p = [] := List.filter_eq_nil_iff.mpr fun k hk hp =>
        h k (List.mem_append_left _ hk) hp (hmemA k hk)
      rw [ha, List.nil_append, List.append_nil]

theorem visitOrder_eq_filter (hM : 0 < M) :
    visitOrder M N n = (window N n).filter (fun k => k / M = (n - 1) / M) ++
      (window N n).filter (fun k => !decide (k / M = (n - 1) / M)) := by
  have hold : ∀ k ∈ List.range' (n - N) (wrapPoint M N n - (n - N)), ¬ k / M = (n - 1) / M := by
    intro k hk
    obtain ⟨h0, h1⟩ := List.mem_range'_1.mp hk
    have hlt : k < (n - 1) / M * M := by
      unfold wrapPoint at h1
      omega
    exact Nat.ne_of_lt ((Nat.div_lt_iff_lt_mul hM).mpr hlt)
  have hnew : ∀ k ∈ List.range' (wrapPoint M N n) (n - wrapPoint M N n), k / M = (n - 1) / M := by
    intro k hk
    obtain ⟨h0, h1⟩ := List.mem_range'_1.mp hk
    have hle : (n - 1) / M * M ≤ k := le_trans (le_max_right ..) h0
    refine le_antisymm (Nat.div_le_div_right (by omega)) ((Nat.le_div_iff_mul_le hM).mpr hle)
  rw [window_eq M N n, List.filter_append, List.filter_append,
    List.filter_eq_nil_iff.mpr fun k hk => by simpa using hold k hk,
    List.filter_eq_self.mpr fun k hk => by simpa using hnew k hk,
    List.filter_eq_self.mpr fun k hk => by simpa using hold k hk,
    List.filter_eq_nil_iff.mpr fun k hk => by simpa using hnew k hk, List.nil_append,
    List.append_nil]
  rfl

end Wrap

end Schemes
