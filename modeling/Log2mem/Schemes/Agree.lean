import Mathlib.Data.Set.Basic
import Log2mem.Schemes.Memory

/-! Two memories that agree on some bytes, and writers that keep them so.

    A writer is uniform over a footprint `T` if it treats any two memories alike that agree on `T`: it
    faults in both or in none, and whatever bytes they agreed on before, they agree on afterwards. The
    checked stores are uniform over no bytes at all, a load adds the bytes it reads.

        m  ──w──▶ w m
        ║ S        ║ S          T ⊆ S
        m' ──w──▶ w m'                 -/

namespace Schemes
namespace Mem

/-- The memories have one size and agree on the bytes of `S`. -/
structure Agree (S : Set ℤ) (m m' : Mem) : Prop where
  size : m'.size = m.size
  byte : ∀ x ∈ S, m'.byte x = m.byte x

section Agree
variable {S T : Set ℤ} {m m' m'' : Mem}

theorem Agree.symm (h : Agree S m m') : Agree S m' m := ⟨h.size.symm, fun x hx => (h.byte x hx).symm⟩

theorem Agree.trans (h : Agree S m m') (h' : Agree S m' m'') : Agree S m m'' :=
  ⟨h'.size.trans h.size, fun x hx => (h'.byte x hx).trans (h.byte x hx)⟩

theorem Agree.mono (h : Agree S m m') (hT : T ⊆ S) : Agree T m m' :=
  ⟨h.size, fun x hx => h.byte x (hT hx)⟩

/-- A memory agrees with what was made of it, outside the frame. -/
theorem Frame.agree (h : Frame S m m') (hd : ∀ x ∈ T, x ∉ S) : Agree T m m' :=
  ⟨h.size, fun x hx => h.byte x (hd x hx)⟩

theorem Agree.eq (h : Agree Set.univ m m') : m' = m := by
  obtain ⟨size, byte⟩ := m
  obtain ⟨size', byte'⟩ := m'
  obtain ⟨hsize, hbyte⟩ := h
  have hb : byte' = byte := funext fun x => hbyte x trivial
  simp only at hsize
  rw [hsize, hb]

theorem Agree.inBounds_iff (h : Agree S m m') (a : ℤ) (n : ℕ) : m'.InBounds a n ↔ m.InBounds a n := by
  unfold InBounds
  rw [h.size]

theorem Agree.get_eq (h : Agree S m m') {a : ℤ} {n : ℕ} (hS : ∀ x, a ≤ x → x < a + n → x ∈ S) :
    m'.get a n = m.get a n :=
  List.map_congr_left fun i hi => h.byte _ (hS _ (by omega) (by have := List.mem_range.mp hi; omega))

theorem Agree.word_eq (h : Agree S m m') {a : ℤ} (hS : Set.Ico a (a + 4) ⊆ S) : m'.word a = m.word a := by
  rw [word, h.get_eq (n := 4) (fun x h0 h1 => hS ⟨h0, by simpa using h1⟩), word]

theorem Agree.of_get (h : Agree S m m') {a : ℤ} {n : ℕ} (hg : m'.get a n = m.get a n) :
    Agree (S ∪ Set.Ico a (a + n)) m m' := by
  refine ⟨h.size, ?_⟩
  rintro x (hx | ⟨h0, h1⟩)
  · exact h.byte x hx
  · obtain ⟨i, rfl⟩ := Int.le.dest h0
    exact List.map_inj_left.mp hg i (List.mem_range.mpr (by omega))

theorem Agree.of_word (h : Agree S m m') {a : ℤ} (hw : m'.word a = m.word a) :
    Agree (S ∪ Set.Ico a (a + 4)) m m' := by
  have hg : m'.get a 4 = m.get a 4 := by rw [get_four, get_four, hw]
  exact h.of_get hg

theorem Agree.put (h : Agree S m m') (a : ℤ) (n : ℕ) (f : ℕ → UInt8) :
    Agree (S ∪ Set.Ico a (a + n)) (m.put a n f) (m'.put a n f) := by
  refine ⟨h.size, fun x hx => ?_⟩
  show (if a ≤ x ∧ x < a + n then f (x - a).toNat else m'.byte x) =
    if a ≤ x ∧ x < a + n then f (x - a).toNat else m.byte x
  split
  · rfl
  · rename_i hout
    exact h.byte x (hx.resolve_right hout)

end Agree

/-- A copy over all the bytes that two memories do not agree on leaves one memory. -/
theorem Agree.copy_eq {m m' : Mem} {a : ℤ} {n : ℕ} (h : Agree (Set.Ico a (a + n))ᶜ m m')
    (f : ℕ → UInt8) : m'.copy a n f = m.copy a n f := by
  have hput := h.put a n f
  rw [Set.compl_union_self] at hput
  simp only [copy, h.inBounds_iff, hput.eq]

theorem Agree.store32_eq {m m' : Mem} {a : ℤ} (h : Agree (Set.Ico a (a + 4))ᶜ m m') (v : ℕ) :
    m'.store32 a v = m.store32 a v := by
  rw [store32, store32, store, store, leBytes_length]
  exact h.copy_eq _

theorem rel_some {α : Type*} {R : α → α → Prop} {a : α} {o : Option α} (h : Option.Rel R (some a) o) :
    ∃ b, o = some b ∧ R a b := by
  cases o with
  | none => nomatch h
  | some b =>
    cases h with
    | some hab => exact ⟨b, rfl, hab⟩

theorem rel_none {α : Type*} {R : α → α → Prop} {o : Option α} (h : Option.Rel R none o) : o = none := by
  cases o with
  | none => rfl
  | some b => nomatch h

theorem rel_imp {α : Type*} {R Q : α → α → Prop} {o o' : Option α} (h : Option.Rel R o o')
    (hRQ : ∀ a b, R a b → Q a b) : Option.Rel Q o o' := by
  cases h with
  | some hab => exact .some (hRQ _ _ hab)
  | none => exact .none

/-- A writer that treats alike any two memories that agree on `T`. -/
def Uniform (T : Set ℤ) (w : Mem → Option Mem) : Prop :=
  ∀ ⦃S m m'⦄, T ⊆ S → Agree S m m' → Option.Rel (Agree S) (w m) (w m')

section Uniform
variable {S T : Set ℤ} {w w' : Mem → Option Mem}

theorem Uniform.mono (h : Uniform S w) (hT : S ⊆ T) : Uniform T w :=
  fun _ _ _ hS ha => h (hT.trans hS) ha

theorem uniform_some : Uniform ∅ some := fun _ _ _ _ ha => .some ha

/-- One uniform writer after the other. -/
theorem Uniform.bind (h : Uniform T w) (h' : Uniform T w') : Uniform T fun m => (w m).bind w' := by
  intro S m m' hS ha
  show Option.Rel (Agree S) ((w m).bind w') ((w m').bind w')
  have hrel := h hS ha
  cases hm : w m with
  | none =>
    rw [hm] at hrel
    rw [rel_none hrel]
    exact .none
  | some u =>
    rw [hm] at hrel
    obtain ⟨u', hm', hu⟩ := rel_some hrel
    rw [hm']
    exact h' hS hu

theorem uniform_copy (a : ℤ) (n : ℕ) (f : ℕ → UInt8) : Uniform ∅ fun m => m.copy a n f := by
  intro S m m' _ ha
  have hin := ha.inBounds_iff a n
  show Option.Rel (Agree S) (if m.InBounds a n then some (m.put a n f) else none)
    (if m'.InBounds a n then some (m'.put a n f) else none)
  by_cases hm : m.InBounds a n
  · rw [if_pos hm, if_pos (hin.mpr hm)]
    exact .some ((ha.put a n f).mono Set.subset_union_left)
  · rw [if_neg hm, if_neg fun hm' => hm (hin.mp hm')]
    exact .none

theorem uniform_store (a : ℤ) (bs : List UInt8) : Uniform ∅ fun m => m.store a bs := uniform_copy ..

theorem uniform_store32 (a : ℤ) (v : ℕ) : Uniform ∅ fun m => m.store32 a v := uniform_store ..

theorem uniform_load32 {a : ℤ} {k : ℕ → Mem → Option Mem} (hT : Set.Ico a (a + 4) ⊆ T)
    (h : ∀ v, Uniform T (k v)) : Uniform T fun m => (m.load32 a).bind fun v => k v m := by
  intro S m m' hS ha
  have hload : m'.load32 a = m.load32 a := by
    simp only [load32, ha.inBounds_iff, ha.word_eq (hT.trans hS)]
  show Option.Rel (Agree S) ((m.load32 a).bind fun v => k v m) ((m'.load32 a).bind fun v => k v m')
  rw [hload]
  cases m.load32 a with
  | none => exact .none
  | some v => exact h v hS ha

end Uniform

end Mem
end Schemes
