import Mathlib.Data.List.Induction
import Log2mem.Schemes.Memory

/-! Self-delimiting records laid end to end in memory, and the greedy fill of a bounded area.

    A `Format` says how many bytes a record takes and what it means for one to be stored at an
    address; that meaning may only depend on the record's own bytes. `Chain` stores a list of records
    back to back. `fit` is the greedy rule: a group of records is kept iff it still fits, and is
    dropped whole otherwise, a later smaller group having its own chance.

        a            a + size r₀        a + size r₀ + size r₁
        │ r₀         │ r₁               │ …            ≤ a + cap -/

namespace Schemes

/-- A record format: sizes, and the images that store a record at an address. -/
structure Format (ρ : Type*) where
  size : ρ → ℕ
  At : Mem → ℤ → ρ → Prop
  size_pos : ∀ r, 0 < size r
  local_bytes : ∀ {m m' : Mem} {a : ℤ} {r : ρ},
    (∀ x, a ≤ x → x < a + size r → m'.byte x = m.byte x) → At m a r → At m' a r

namespace Format

variable {ρ : Type*} (F : Format ρ)

/-- Bytes taken by a list of records. -/
def total (rs : List ρ) : ℕ := (rs.map F.size).sum

/-- The records `rs` are stored back to back from `a`. -/
def Chain (m : Mem) : ℤ → List ρ → Prop
  | _, [] => True
  | a, r :: rs => F.At m a r ∧ Chain m (a + F.size r) rs

/-- Keep the group `g` when it still fits into `cap`, drop it whole otherwise. -/
def keep (cap : ℕ) (kept g : List ρ) : List ρ :=
  if F.total g ≤ cap - F.total kept then kept ++ g else kept

/-- The greedy fill: offer the groups in order. -/
def fit (cap : ℕ) (groups : List (List ρ)) : List ρ := groups.foldl (F.keep cap) []

@[simp] theorem total_nil : F.total [] = 0 := rfl

@[simp] theorem total_cons (r : ρ) (rs : List ρ) : F.total (r :: rs) = F.size r + F.total rs := by
  simp [total]

@[simp] theorem total_append (rs ss : List ρ) : F.total (rs ++ ss) = F.total rs + F.total ss := by
  simp [total]

theorem total_eq_zero {rs : List ρ} (h : F.total rs = 0) : rs = [] := by
  cases rs with
  | nil => rfl
  | cons r rs =>
    have := F.size_pos r
    rw [total_cons] at h
    omega

theorem length_le_total : ∀ rs : List ρ, rs.length ≤ F.total rs
  | [] => le_refl 0
  | r :: rs => by
    have hpos := F.size_pos r
    have ih := length_le_total rs
    rw [List.length_cons, total_cons]
    omega

theorem chain_append (m : Mem) : ∀ (rs ss : List ρ) (a : ℤ),
    F.Chain m a (rs ++ ss) ↔ F.Chain m a rs ∧ F.Chain m (a + F.total rs) ss
  | [], ss, a => by simp [Chain]
  | r :: rs, ss, a => by
    rw [List.cons_append, Chain, Chain, chain_append m rs ss, total_cons, and_assoc]
    push_cast
    rw [← add_assoc]

@[simp] theorem chain_singleton (m : Mem) (a : ℤ) (r : ρ) : F.Chain m a [r] ↔ F.At m a r := by
  simp [Chain]

theorem chain_congr {m m' : Mem} : ∀ {rs : List ρ} {a : ℤ},
    (∀ x, a ≤ x → x < a + F.total rs → m'.byte x = m.byte x) → F.Chain m a rs → F.Chain m' a rs
  | [], _, _, _ => trivial
  | r :: rs, a, hx, ⟨hr, hrs⟩ => by
    rw [total_cons] at hx
    refine ⟨F.local_bytes (fun x h1 h2 => hx x h1 (by omega)) hr,
      chain_congr (fun x h1 h2 => hx x (by omega) (by omega)) hrs⟩

/-- A change outside the chain's bytes leaves the chain. -/
theorem chain_frame {S : Set ℤ} {m m' : Mem} (h : Mem.Frame S m m') {rs : List ρ} {a : ℤ}
    (hd : ∀ x, a ≤ x → x < a + F.total rs → x ∉ S) (hc : F.Chain m a rs) : F.Chain m' a rs :=
  F.chain_congr (fun x h1 h2 => h.byte x (hd x h1 h2)) hc

/-- Where an image determines its record, the bytes of a chain determine its records. -/
theorem chain_unique (hu : ∀ {m : Mem} {a : ℤ} {r r' : ρ}, F.At m a r → F.At m a r' → r = r') {m : Mem} :
    ∀ {rs rs' : List ρ} {a : ℤ}, F.Chain m a rs → F.Chain m a rs' → F.total rs = F.total rs' → rs = rs'
  | [], rs', _, _, _, ht => (F.total_eq_zero ht.symm).symm
  | r :: rs, [], _, _, _, ht => F.total_eq_zero ht
  | r :: rs, r' :: rs', a, ⟨hr, hrs⟩, ⟨hr', hrs'⟩, ht => by
    have hhead : r = r' := hu hr hr'
    subst hhead
    rw [total_cons, total_cons] at ht
    rw [chain_unique hu hrs hrs' (Nat.add_left_cancel ht)]

/-! ### The greedy rule -/

theorem keep_of_fits {cap : ℕ} {kept g : List ρ} (h : F.total g ≤ cap - F.total kept) :
    F.keep cap kept g = kept ++ g := if_pos h

theorem keep_of_not_fits {cap : ℕ} {kept g : List ρ} (h : ¬ F.total g ≤ cap - F.total kept) :
    F.keep cap kept g = kept := if_neg h

@[simp] theorem keep_nil (cap : ℕ) (kept : List ρ) : F.keep cap kept [] = kept := by
  simp [keep]

@[simp] theorem fit_nil (cap : ℕ) : F.fit cap [] = [] := rfl

@[simp] theorem fit_concat (cap : ℕ) (gs : List (List ρ)) (g : List ρ) :
    F.fit cap (gs ++ [g]) = F.keep cap (F.fit cap gs) g := by
  simp [fit]

theorem mem_of_mem_fit {cap : ℕ} {r : ρ} : ∀ {gs : List (List ρ)}, r ∈ F.fit cap gs →
    ∃ g ∈ gs, r ∈ g := by
  intro gs
  induction gs using List.reverseRecOn with
  | nil => intro h; simp at h
  | append_singleton gs g ih =>
    intro h
    rw [fit_concat, keep] at h
    split at h
    · rcases List.mem_append.mp h with h | h
      · obtain ⟨g', hg', hr⟩ := ih h
        exact ⟨g', List.mem_append_left _ hg', hr⟩
      · exact ⟨g, by simp, h⟩
    · obtain ⟨g', hg', hr⟩ := ih h
      exact ⟨g', List.mem_append_left _ hg', hr⟩

end Format

end Schemes
