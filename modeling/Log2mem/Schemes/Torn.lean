import Log2mem.Schemes.Memory
import Log2mem.Schemes.Runs

/-! A list of stores into zeroed memory that stops half way.

    The patches lie apart, so each byte is written once; nothing is assumed about the order in which
    the bytes arrive. What is there at any moment is torn: every byte is still 0 or already what it is in
    the end. So no word is ever larger than in the end.

        zeros ──patch──▶ ──patch──▶ … ──▶ m          every patch is there
        zeros ──byte──▶ ──byte──▶ m' ┄┄▶ m           every byte of m' is 0 or there -/

namespace Schemes

/-- Bytes to be stored, and where. -/
structure Patch where
  addr : ℤ
  bytes : List UInt8

/-- The addresses it covers. -/
def Patch.range (p : Patch) : Set ℤ := Set.Ico p.addr (p.addr + p.bytes.length)

/-- One of the patches puts the byte `b` at `x`. -/
def Patch.Puts (patches : List Patch) (x : ℤ) (b : UInt8) : Prop :=
  ∃ p ∈ patches, p.addr ≤ x ∧ p.bytes[(x - p.addr).toNat]? = some b

instance (patches : List Patch) (x : ℤ) (b : UInt8) : Decidable (Patch.Puts patches x b) :=
  inferInstanceAs (Decidable (∃ p ∈ patches, _ ∧ _))

/-- Every patch is there. -/
def Patch.Arrived (patches : List Patch) (m : Mem) : Prop :=
  ∀ p ∈ patches, m.get p.addr p.bytes.length = p.bytes

instance (patches : List Patch) (m : Mem) : Decidable (Patch.Arrived patches m) :=
  inferInstanceAs (Decidable (∀ p ∈ patches, _ = _))

/-- One ends before the other starts. -/
def Patch.Apart (p q : Patch) : Prop :=
  p.addr + p.bytes.length ≤ q.addr ∨ q.addr + q.bytes.length ≤ p.addr

theorem Patch.Apart.not_mem {p q : Patch} (h : p.Apart q) {x : ℤ} (hp : x ∈ p.range) : x ∉ q.range :=
  fun hq => by
    obtain ⟨h0, h1⟩ := hp
    obtain ⟨h2, h3⟩ := hq
    rcases h with h | h <;> omega

namespace Mem

/-- The patches one after the other. -/
def storeAll (patches : List Patch) (m : Mem) : Option Mem :=
  patches.foldlM (fun m p => m.store p.addr p.bytes) m

/-- Cut to `n` bytes, or extended with zeros. -/
def resize (n : ℕ) (m : Mem) : Mem := ⟨n, fun x => if x < m.size then m.byte x else 0⟩

/-- `m'` is on its way to `m`: every byte is still 0, or already what it is there. -/
structure Torn (m m' : Mem) : Prop where
  size : m'.size = m.size
  byte : ∀ x, m'.byte x = 0 ∨ m'.byte x = m.byte x

/-! ### Stores in order -/

section Ordered
variable {patches : List Patch} {m m' : Mem}

theorem storeAll_cons (s : Patch) :
    storeAll (s :: patches) m = (m.store s.addr s.bytes).bind (storeAll patches) := rfl

theorem storeAll_frame : ∀ {patches : List Patch} {m : Mem}, storeAll patches m = some m' →
    Frame {x | ∃ s ∈ patches, x ∈ s.range} m m'
  | [], m, h => by
    rw [← Option.some.inj (h : some m = some m')]
    exact .refl _ _
  | s :: patches, m, h => by
    obtain ⟨m₁, e₁, e₂⟩ := Option.bind_eq_some_iff.mp (storeAll_cons s ▸ h)
    have f₁ : Frame {x | ∃ t ∈ s :: patches, x ∈ t.range} m m₁ :=
      (store_some e₁).2.mono fun x hx => ⟨s, List.mem_cons_self .., hx⟩
    have f₂ : Frame {x | ∃ t ∈ s :: patches, x ∈ t.range} m₁ m' :=
      (storeAll_frame e₂).mono fun x ⟨t, ht, hx⟩ => ⟨t, List.mem_cons_of_mem _ ht, hx⟩
    exact f₁.trans f₂

/-- Disjoint patches are all there in the end. -/
theorem storeAll_get : ∀ {patches : List Patch} {m : Mem},
    patches.Pairwise Patch.Apart → storeAll patches m = some m' → Patch.Arrived patches m'
  | [], _, _, _ => by simp [Patch.Arrived]
  | s :: patches, m, hd, h => by
    obtain ⟨hhead, htail⟩ := List.pairwise_cons.mp hd
    obtain ⟨m₁, e₁, e₂⟩ := Option.bind_eq_some_iff.mp (storeAll_cons s ▸ h)
    refine List.forall_mem_cons.mpr ⟨?_, storeAll_get htail e₂⟩
    obtain ⟨m₂, e₃, -, g⟩ := store_spec m s.addr s.bytes (store_some e₁).1
    rw [e₁, Option.some.injEq] at e₃
    have hkept : m'.get s.addr s.bytes.length = m₁.get s.addr s.bytes.length :=
      (storeAll_frame e₂).get_eq fun x h0 h1 ⟨t, ht, hx⟩ =>
        (hhead t ht).not_mem ⟨h0, h1⟩ hx
    rw [hkept, e₃, g]

theorem storeAll_puts (hd : patches.Pairwise Patch.Apart)
    (h : storeAll patches m = some m') {x : ℤ} {b : UInt8} (hb : Patch.Puts patches x b) :
    m'.byte x = b := by
  obtain ⟨s, hs, h0, hi⟩ := hb
  obtain ⟨hlt, -⟩ := List.getElem?_eq_some_iff.mp hi
  have hget := m'.getElem?_get s.addr hlt
  rw [storeAll_get hd h s hs, hi, Option.some.injEq, show s.addr + ((x - s.addr).toNat : ℤ) = x by omega]
    at hget
  exact hget.symm

end Ordered

/-! ### Stores byte by byte -/

/-- Storing in order is one way for the bytes to arrive: a system with a step for each byte of the patches
    gets from the memory before to the memory after. -/
theorem storeAll_run {σ α : Type*} {step : σ → α → Option σ} {ok : σ → α → Prop} (img : Mem → σ) :
    ∀ {patches : List Patch} {m m' : Mem}, (∀ x b, Patch.Puts patches x b → ∀ m m' : Mem,
      m.store x [b] = some m' → Run step ok (img m) (img m')) →
    storeAll patches m = some m' → Run step ok (img m) (img m')
  | [], m, m', _, h => by
    rw [← Option.some.inj (h : some m = some m')]
    exact .refl
  | p :: patches, m, m', hbyte, h => by
    obtain ⟨m₁, e₁, e₂⟩ := Option.bind_eq_some_iff.mp (storeAll_cons p ▸ h)
    have hrest : Run step ok (img m₁) (img m') := storeAll_run img (fun x b ⟨q, hq, hx⟩ =>
      hbyte x b ⟨q, List.mem_cons_of_mem _ hq, hx⟩) e₂
    refine Run.trans ?_ hrest
    obtain ⟨h0, h1⟩ := (store_some e₁).1
    rw [store_eq ⟨h0, h1⟩, Option.some.injEq] at e₁
    have hprefix : ∀ n ≤ p.bytes.length, Run step ok (img m)
        (img (m.put p.addr n fun i => p.bytes.getD i 0)) := fun n => by
      induction n with
      | zero => exact fun _ => by rw [put_zero]; exact .refl
      | succ n ih =>
        intro hn
        have hput : Patch.Puts (p :: patches) (p.addr + n) (p.bytes.getD n 0) :=
          ⟨p, List.mem_cons_self .., by omega, by
            rw [show (p.addr + (n : ℤ) - p.addr).toNat = n by omega, List.getD_eq_getElem?_getD,
              List.getElem?_eq_getElem (by omega), Option.getD_some]⟩
        exact (ih (by omega)).trans (hbyte _ _ hput _ _ (store_put ⟨h0, by push_cast; omega⟩ _))
    rw [← e₁]
    exact hprefix _ (le_refl _)

/-! ### Torn memory -/

section Torn
variable {m m' m'' : Mem}

theorem store_one {x : ℤ} {b : UInt8} (h : m.store x [b] = some m') (y : ℤ) :
    m'.byte y = if y = x then b else m.byte y := by
  obtain ⟨hin, hf⟩ := store_some h
  rw [store_eq hin, Option.some.injEq] at h
  by_cases hy : y = x
  · rw [if_pos hy, hy, ← h]
    simp [put]
  · rw [if_neg hy]
    refine hf.byte y fun ⟨h0, h1⟩ => hy ?_
    rw [List.length_singleton] at h1
    omega

/-- STEP: a byte of the end arrives. -/
theorem Torn.store (h : Torn m m') {x : ℤ} {b : UInt8} (hb : m.byte x = b)
    (hs : m'.store x [b] = some m'') : Torn m m'' := by
  refine ⟨(store_some hs).2.size.trans h.size, fun y => ?_⟩
  rw [store_one hs]
  split
  · rename_i hy
    rw [hy]
    exact Or.inr hb.symm
  · exact h.byte y

theorem Torn.zero (h : Torn m m') {x : ℤ} (hx : m.byte x = 0) : m'.byte x = 0 := by
  rcases h.byte x with h | h
  · exact h
  · exact h.trans hx

/-- ARRIVED: once every patch is there, so is everything. -/
theorem Torn.eq_of_arrived {patches : List Patch} {n : ℕ} (hd : patches.Pairwise Patch.Apart)
    (h : storeAll patches ⟨n, fun _ => 0⟩ = some m) (ht : Torn m m') (harrived : Patch.Arrived patches m') :
    m' = m := by
  have hbyte : ∀ x, m'.byte x = m.byte x := fun x => by
    by_cases hx : ∃ s ∈ patches, x ∈ s.range
    · obtain ⟨s, hs, h0, h1⟩ := hx
      have hlt : (x - s.addr).toNat < s.bytes.length := by omega
      have hget := m'.getElem?_get s.addr hlt
      rw [harrived s hs, ← storeAll_get hd h s hs, m.getElem?_get s.addr hlt, Option.some.injEq,
        show s.addr + ((x - s.addr).toNat : ℤ) = x by omega] at hget
      exact hget.symm
    · have hzero : m.byte x = 0 := (storeAll_frame h).byte x hx
      rw [ht.zero hzero, hzero]
  obtain ⟨size, byte⟩ := m
  obtain ⟨size', byte'⟩ := m'
  obtain rfl : size' = size := ht.size
  rw [show byte' = byte from funext hbyte]

theorem ofLe_map_le {ι : Type*} {f g : ι → UInt8} : ∀ {l : List ι}, (∀ i ∈ l, f i = 0 ∨ f i = g i) →
    ofLe (l.map f) ≤ ofLe (l.map g)
  | [], _ => le_refl _
  | i :: l, h => by
    have ih := ofLe_map_le fun j hj => h j (List.mem_cons_of_mem i hj)
    have hi : (f i).toNat ≤ (g i).toNat := by
      rcases h i (List.mem_cons_self ..) with h | h <;> rw [h]
      exact Nat.zero_le _
    simp only [List.map_cons, ofLe]
    omega

/-- A word is never larger than in the end. -/
theorem Torn.word_le (h : Torn m m') (a : ℤ) : m'.word a ≤ m.word a :=
  ofLe_map_le fun i _ => h.byte (a + i)

end Torn

end Mem

end Schemes
