import Log2mem.Schemes.Memory

/-! One area of a memory taken alone, and how far reading a string goes.

    `slice a n` is a memory of `n` bytes of its own: a reader that returns on it has not left the area,
    and returns the same on the whole memory, since every load agrees. A string is read exactly when
    a NUL is found before the memory ends.

        m         │ … │ a ········· a + n │ … │
        m.slice       │ 0 ········· n     │ -/

namespace Schemes

namespace Mem

/-- The `n` bytes from `a` as a memory of their own. -/
def slice (m : Mem) (a : ℤ) (n : ℕ) : Mem := { size := n, byte := fun x => m.byte (a + x) }

/-- A NUL stands at or behind `a`. -/
def Terminated (m : Mem) (a : ℤ) : Prop := ∃ k : ℕ, m.InBounds a (k + 1) ∧ m.byte (a + k) = 0

/-- A table of `n` entries of `w` bytes from `base`, unless it is empty. -/
def TableIn (m : Mem) (base : ℤ) (n w : ℕ) : Prop := n = 0 ∨ m.InBounds base (n * w)

theorem tableIn_iff {m : Mem} {base : ℤ} {n w : ℕ} :
    m.TableIn base n w ↔ ∀ i < n, m.InBounds (base + (i : ℤ) * w) w := by
  constructor
  · rintro (rfl | ⟨h0, h1⟩) i hi
    · exact absurd hi (by omega)
    · have hle : (i + 1) * w ≤ n * w := Nat.mul_le_mul_right w hi
      have hnn : 0 ≤ (i : ℤ) * w := by positivity
      have hcast : ((i + 1) * w : ℤ) ≤ n * w := by exact_mod_cast hle
      push_cast at h1
      exact ⟨by omega, by linarith⟩
  · intro h
    rcases Nat.eq_zero_or_pos n with hn | hn
    · exact Or.inl hn
    · obtain ⟨k, rfl⟩ : ∃ k, n = k + 1 := ⟨n - 1, by omega⟩
      obtain ⟨h0, -⟩ := h 0 hn
      obtain ⟨-, h1⟩ := h k (by omega)
      refine Or.inr ⟨by simpa using h0, ?_⟩
      push_cast
      linarith

section Slice
variable {m : Mem} {a b : ℤ} {n k : ℕ}

@[simp] theorem slice_size (m : Mem) (a : ℤ) (n : ℕ) : (m.slice a n).size = n := rfl

@[simp] theorem slice_byte (m : Mem) (a : ℤ) (n : ℕ) (b : ℤ) :
    (m.slice a n).byte b = m.byte (a + b) := rfl

@[simp] theorem slice_get (m : Mem) (a : ℤ) (n : ℕ) (b : ℤ) (k : ℕ) :
    (m.slice a n).get b k = m.get (a + b) k :=
  List.map_congr_left fun i _ => by rw [slice_byte, add_assoc]

@[simp] theorem slice_word (m : Mem) (a : ℤ) (n : ℕ) (b : ℤ) :
    (m.slice a n).word b = m.word (a + b) := by
  rw [word, slice_get, word]

theorem InBounds.of_slice (h : m.InBounds a n) (hb : (m.slice a n).InBounds b k) :
    m.InBounds (a + b) k := by
  obtain ⟨h0, h1⟩ := h
  obtain ⟨hb0, hb1⟩ := hb
  rw [slice_size] at hb1
  exact ⟨by omega, by omega⟩

theorem load_some {v : List UInt8} (h : m.load a n = some v) : m.InBounds a n ∧ v = m.get a n := by
  unfold load at h
  split at h
  · exact ⟨‹_›, (Option.some.inj h).symm⟩
  · exact absurd h (by simp)

theorem load8_some {v : UInt8} (h : m.load8 a = some v) : m.InBounds a 1 ∧ v = m.byte a := by
  unfold load8 at h
  split at h
  · exact ⟨‹_›, (Option.some.inj h).symm⟩
  · exact absurd h (by simp)

theorem load32_some {v : ℕ} (h : m.load32 a = some v) : m.InBounds a 4 ∧ v = m.word a := by
  unfold load32 at h
  split at h
  · exact ⟨‹_›, (Option.some.inj h).symm⟩
  · exact absurd h (by simp)

theorem load32_some_iff {m : Mem} {a : ℤ} : (∃ v, m.load32 a = some v) ↔ m.InBounds a 4 :=
  ⟨fun ⟨_, h⟩ => (load32_some h).1, fun h => ⟨_, load32_eq h⟩⟩

theorem load_some_iff {m : Mem} {a : ℤ} {n : ℕ} : (∃ v, m.load a n = some v) ↔ m.InBounds a n :=
  ⟨fun ⟨_, h⟩ => (load_some h).1, fun h => ⟨_, load_eq h⟩⟩

theorem load64_some_iff {m : Mem} {a : ℤ} : (∃ v, m.load64 a = some v) ↔ m.InBounds a 8 := by
  rw [← load_some_iff]
  constructor
  · rintro ⟨v, hv⟩
    obtain ⟨bs, hbs, -⟩ := Option.map_eq_some_iff.mp hv
    exact ⟨bs, hbs⟩
  · rintro ⟨bs, hbs⟩
    exact ⟨ofLe bs, by rw [load64, hbs]; rfl⟩

theorem load8_some_iff {m : Mem} {a : ℤ} : (∃ v, m.load8 a = some v) ↔ m.InBounds a 1 :=
  ⟨fun ⟨_, h⟩ => (load8_some h).1, fun h => ⟨_, load8_eq h⟩⟩

theorem load8_of_slice (h : m.InBounds a n) {v : UInt8} (hv : (m.slice a n).load8 b = some v) :
    m.load8 (a + b) = some v := by
  obtain ⟨hb, rfl⟩ := load8_some hv
  rw [load8_eq (h.of_slice hb), slice_byte]

theorem load32_of_slice (h : m.InBounds a n) {v : ℕ} (hv : (m.slice a n).load32 b = some v) :
    m.load32 (a + b) = some v := by
  obtain ⟨hb, rfl⟩ := load32_some hv
  rw [load32_eq (h.of_slice hb), slice_word]

theorem load64_of_slice (h : m.InBounds a n) {v : ℕ} (hv : (m.slice a n).load64 b = some v) :
    m.load64 (a + b) = some v := by
  obtain ⟨bs, hbs, rfl⟩ := Option.map_eq_some_iff.mp hv
  obtain ⟨hb, rfl⟩ := load_some hbs
  rw [load64, load_eq (h.of_slice hb), slice_get, Option.map_some]

/-- A string read inside the area is read there in the memory. -/
theorem cstr_of_slice (h : m.InBounds a n) : ∀ {k k' : ℕ} {b : ℤ} {s : List UInt8}, k ≤ k' →
    (m.slice a n).cstr k b = some s → m.cstr k' (a + b) = some s
  | 0, _, _, _, _, hs => absurd hs (by simp [cstr])
  | k + 1, 0, _, _, hk, _ => absurd hk (by omega)
  | k + 1, k' + 1, b, s, hk, hs => by
    simp only [cstr, Option.bind_eq_bind, Option.bind_eq_some_iff] at hs
    obtain ⟨c, hc, hs⟩ := hs
    rw [cstr, load8_of_slice h hc, Option.bind_eq_bind, Option.bind_some]
    by_cases hz : c = 0
    · rw [if_pos hz] at hs ⊢
      exact hs
    · rw [if_neg hz] at hs ⊢
      obtain ⟨t, ht, hts⟩ := Option.bind_eq_some_iff.mp hs
      have hrest := cstr_of_slice h (show k ≤ k' by omega) ht
      rw [← add_assoc] at hrest
      rw [Option.bind_eq_bind, hrest, Option.bind_some]
      exact hts

end Slice

/-! ### Terminated strings -/

theorem cstr_some_iff {m : Mem} : ∀ {n : ℕ} {a : ℤ}, (∃ s, m.cstr n a = some s) ↔
    ∃ k < n, m.InBounds a (k + 1) ∧ m.byte (a + k) = 0
  | 0, _ => by simp [cstr]
  | n + 1, a => by
    constructor
    · rintro ⟨s, hs⟩
      simp only [cstr, Option.bind_eq_bind, Option.bind_eq_some_iff] at hs
      obtain ⟨c, hc, hs⟩ := hs
      obtain ⟨ha, rfl⟩ := load8_some hc
      by_cases hz : m.byte a = 0
      · exact ⟨0, by omega, ha, by simpa using hz⟩
      · rw [if_neg hz] at hs
        obtain ⟨t, ht, -⟩ := Option.bind_eq_some_iff.mp hs
        obtain ⟨k, hk, ⟨-, h1⟩, h0⟩ := cstr_some_iff.mp ⟨t, ht⟩
        have hnext : a + 1 + (k : ℤ) = a + (k + 1 : ℕ) := by push_cast; ring
        exact ⟨k + 1, by omega, ⟨ha.1, by omega⟩, by rw [← hnext, h0]⟩
    · rintro ⟨k, hk, ⟨h0, h1⟩, hbyte⟩
      rw [cstr, load8_eq ⟨h0, by omega⟩, Option.bind_eq_bind, Option.bind_some]
      by_cases hz : m.byte a = 0
      · exact ⟨[], if_pos hz⟩
      · have hne : k ≠ 0 := by
          rintro rfl
          exact hz (by simpa using hbyte)
        obtain ⟨k, rfl⟩ : ∃ k', k = k' + 1 := ⟨k - 1, by omega⟩
        have hnext : a + 1 + (k : ℤ) = a + (k + 1 : ℕ) := by push_cast; ring
        obtain ⟨t, ht⟩ := (cstr_some_iff (m := m) (n := n) (a := a + 1)).mpr
          ⟨k, by omega, ⟨by omega, by omega⟩, by rw [hnext, hbyte]⟩
        rw [if_neg hz, Option.bind_eq_bind, ht]
        exact ⟨_, rfl⟩

/-- Reading for as long as the memory goes on, a string is read exactly when it is terminated. -/
theorem cstr_size_iff {m : Mem} {a : ℤ} : (∃ s, m.cstr (m.size + 1) a = some s) ↔ m.Terminated a := by
  rw [cstr_some_iff]
  constructor
  · rintro ⟨k, -, hk⟩
    exact ⟨k, hk⟩
  · rintro ⟨k, hin, hbyte⟩
    refine ⟨k, ?_, hin, hbyte⟩
    obtain ⟨h0, h1⟩ := hin
    omega

end Mem

end Schemes
