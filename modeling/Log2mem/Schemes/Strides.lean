import Log2mem.Schemes.Records

/-! Walks whose strides are read from the data.

    At position `p` the data says how far the next stride goes, and nothing about the data is known in
    advance. `Tiles` is what makes such a walk end: every position before `d` that is met is
    acceptable, every stride moves ahead, and some stride reaches `d`. Records stored end to end by a
    `Format` are the model case.

        p ──len p──▶ p + len p ──▶ … ──▶ ≥ d -/

namespace Schemes

/-- The strides `len` from `p` reach `d`, over positions that are all `ok`. -/
inductive Tiles (len : ℕ → ℕ) (ok : ℕ → Prop) (d : ℕ) : ℕ → Prop
  | done {p : ℕ} : d ≤ p → Tiles len ok d p
  | stride {p : ℕ} : p < d → ok p → 0 < len p → Tiles len ok d (p + len p) → Tiles len ok d p

namespace Tiles

variable {len : ℕ → ℕ} {ok : ℕ → Prop} {d p : ℕ}

theorem le_of_fits {n : ℕ} (h : Tiles len ok d p) (hfit : ∀ q, ok q → q + len q ≤ n) (hp : p ≤ n) :
    d ≤ n := by
  induction h with
  | done hd => exact hd.trans hp
  | stride _ hq _ _ ih => exact ih (hfit _ hq)

end Tiles

/-- Records stored end to end tile their total, when each one's size is its stride. -/
theorem Format.tiles_of_chain {ρ : Type*} (F : Format ρ) {m : Mem} {a : ℤ} {len : ℕ → ℕ}
    {ok : ℕ → Prop} : ∀ {rs : List ρ} {p : ℕ}, F.Chain m (a + p) rs →
    (∀ (q : ℕ) (r : ρ), r ∈ rs → F.At m (a + q) r → q + F.size r ≤ p + F.total rs →
      len q = F.size r ∧ ok q) →
    Tiles len ok (p + F.total rs) p
  | [], p, _, _ => .done (by simp)
  | r :: rs, p, ⟨hr, hrs⟩, hrec => by
    rw [F.total_cons] at hrec ⊢
    have hpos := F.size_pos r
    obtain ⟨hlen, hok⟩ := hrec p r (List.mem_cons_self ..) hr (by omega)
    have hrest : Tiles len ok (p + F.size r + F.total rs) (p + F.size r) := by
      refine tiles_of_chain F (a := a) (by push_cast; rw [← add_assoc]; exact hrs) ?_
      intro q r' hr' hat hle
      exact hrec q r' (List.mem_cons_of_mem _ hr') hat (by omega)
    rw [← Nat.add_assoc]
    refine .stride (by omega) hok (by omega) ?_
    rw [hlen]
    exact hrest

end Schemes
