import Mathlib.Data.Int.ConditionallyCompleteOrder
import Mathlib.Order.Interval.Set.Basic
import Log2mem.Schemes.Word

/-! A bounds-checked byte memory.

    A mapping of `size` bytes starting at address 0; an access that leaves `[0, size)` faults
    (`none`), as a store or load outside a memory mapping ends the process. `put` is the unchecked
    update behind every store, `Frame S` says that two memories differ inside `S` only, and the
    read-after-write rules are stated for `put` once and used for words and byte strings alike.

        copy / store / store32 ──checked──▶ put ──Frame──▶ get, word unchanged elsewhere -/

namespace Schemes

/-- A memory mapping. Addresses are integers, so that a negative offset can be told apart. -/
structure Mem where
  size : ℕ
  byte : ℤ → UInt8

namespace Mem

/-- The `n` bytes from `a` lie inside the mapping. -/
def InBounds (m : Mem) (a : ℤ) (n : ℕ) : Prop := 0 ≤ a ∧ a + n ≤ m.size

instance (m : Mem) (a : ℤ) (n : ℕ) : Decidable (m.InBounds a n) :=
  inferInstanceAs (Decidable (_ ∧ _))

/-- The `n` bytes from `a` replaced by `f 0, f 1, …`. -/
def put (m : Mem) (a : ℤ) (n : ℕ) (f : ℕ → UInt8) : Mem :=
  { m with byte := fun x => if a ≤ x ∧ x < a + n then f (x - a).toNat else m.byte x }

/-- `memcpy`: copy `n` bytes of the source buffer `f` to `a`. -/
def copy (m : Mem) (a : ℤ) (n : ℕ) (f : ℕ → UInt8) : Option Mem :=
  if m.InBounds a n then some (m.put a n f) else none

/-- Store a byte string. -/
def store (m : Mem) (a : ℤ) (bs : List UInt8) : Option Mem :=
  m.copy a bs.length (fun i => bs.getD i 0)

/-- Store an unsigned 32-bit word. -/
def store32 (m : Mem) (a : ℤ) (v : ℕ) : Option Mem := m.store a (leBytes 4 v)

/-- The `n` bytes from `a`. -/
def get (m : Mem) (a : ℤ) (n : ℕ) : List UInt8 := (List.range n).map fun i : ℕ => m.byte (a + i)

/-- The unsigned 32-bit word at `a`. -/
def word (m : Mem) (a : ℤ) : ℕ := ofLe (m.get a 4)

/-- Load `n` bytes. -/
def load (m : Mem) (a : ℤ) (n : ℕ) : Option (List UInt8) :=
  if m.InBounds a n then some (m.get a n) else none

/-- Load one byte. -/
def load8 (m : Mem) (a : ℤ) : Option UInt8 := if m.InBounds a 1 then some (m.byte a) else none

/-- Load an unsigned 32-bit word. -/
def load32 (m : Mem) (a : ℤ) : Option ℕ := if m.InBounds a 4 then some (m.word a) else none

/-- Load an unsigned 64-bit word. -/
def load64 (m : Mem) (a : ℤ) : Option ℕ := (m.load a 8).map ofLe

/-- Read a NUL-terminated string: the bytes before the first NUL, giving up after `n` bytes. -/
def cstr (m : Mem) : ℕ → ℤ → Option (List UInt8)
  | 0, _ => none
  | n + 1, a => do
    let c ← m.load8 a
    if c = 0 then return [] else return c :: (← m.cstr n (a + 1))

/-! ### Checked accesses inside the mapping -/

theorem copy_eq {m : Mem} {a : ℤ} {n : ℕ} (h : m.InBounds a n) (f : ℕ → UInt8) :
    m.copy a n f = some (m.put a n f) := if_pos h

theorem store_eq {m : Mem} {a : ℤ} {bs : List UInt8} (h : m.InBounds a bs.length) :
    m.store a bs = some (m.put a bs.length fun i => bs.getD i 0) := if_pos h

theorem load32_eq {m : Mem} {a : ℤ} (h : m.InBounds a 4) : m.load32 a = some (m.word a) := if_pos h

theorem load8_eq {m : Mem} {a : ℤ} (h : m.InBounds a 1) : m.load8 a = some (m.byte a) := if_pos h

theorem load_eq {m : Mem} {a : ℤ} {n : ℕ} (h : m.InBounds a n) : m.load a n = some (m.get a n) :=
  if_pos h

@[simp] theorem get_length (m : Mem) (a : ℤ) (n : ℕ) : (m.get a n).length = n := by simp [get]

theorem getElem?_get (m : Mem) (a : ℤ) {n i : ℕ} (h : i < n) : (m.get a n)[i]? = some (m.byte (a + i)) := by
  simp [get, h]

theorem word_lt (m : Mem) (a : ℤ) : m.word a < 4294967296 := by
  have h := ofLe_lt (m.get a 4)
  rw [get_length] at h
  exact h

theorem get_four (m : Mem) (a : ℤ) : m.get a 4 = leBytes 4 (m.word a) := by
  have h := leBytes_ofLe (m.get a 4)
  rw [get_length] at h
  exact h.symm

theorem word_eq_zero {m : Mem} {a : ℤ} (h : ∀ x, a ≤ x → m.byte x = 0) : m.word a = 0 := by
  have hget : m.get a 4 = List.replicate 4 0 :=
    List.eq_replicate_iff.mpr ⟨m.get_length a 4, fun b hb => by
      obtain ⟨i, -, rfl⟩ := List.mem_map.mp hb
      exact h _ (by omega)⟩
  rw [word, hget]
  rfl

/-! ### Frames -/

/-- `m'` is `m` with changes inside `S` only. -/
structure Frame (S : Set ℤ) (m m' : Mem) : Prop where
  size : m'.size = m.size
  byte : ∀ x, x ∉ S → m'.byte x = m.byte x

theorem Frame.refl (S : Set ℤ) (m : Mem) : Frame S m m := ⟨rfl, fun _ _ => rfl⟩

theorem Frame.mono {S T : Set ℤ} {m m' : Mem} (h : Frame S m m') (hST : S ⊆ T) : Frame T m m' :=
  ⟨h.size, fun x hx => h.byte x fun hS => hx (hST hS)⟩

theorem Frame.ico_mono {lo hi a b : ℤ} {m m' : Mem} (h : Frame (Set.Ico a b) m m') (h1 : lo ≤ a)
    (h2 : b ≤ hi) : Frame (Set.Ico lo hi) m m' := h.mono (Set.Ico_subset_Ico h1 h2)

theorem Frame.trans {S : Set ℤ} {m m' m'' : Mem} (h : Frame S m m') (h' : Frame S m' m'') :
    Frame S m m'' :=
  ⟨h'.size.trans h.size, fun x hx => (h'.byte x hx).trans (h.byte x hx)⟩

theorem frame_put (m : Mem) (a : ℤ) (n : ℕ) (f : ℕ → UInt8) :
    Frame (Set.Ico a (a + n)) m (m.put a n f) :=
  ⟨rfl, fun _ hx => if_neg hx⟩

/-- Bytes outside the frame are read back unchanged. -/
theorem Frame.get_eq {S : Set ℤ} {m m' : Mem} (h : Frame S m m') {a : ℤ} {n : ℕ}
    (hd : ∀ x, a ≤ x → x < a + n → x ∉ S) : m'.get a n = m.get a n := by
  refine List.map_congr_left fun i hi => h.byte _ (hd _ (by omega) ?_)
  have := List.mem_range.mp hi
  omega

theorem Frame.word_eq {S : Set ℤ} {m m' : Mem} (h : Frame S m m') {a : ℤ}
    (hd : ∀ x, a ≤ x → x < a + 4 → x ∉ S) : m'.word a = m.word a := by
  rw [word, h.get_eq (n := 4) (by simpa using hd), word]

/-- What lies in an interval that keeps clear of the frame is read back unchanged. -/
theorem Frame.get_of_outside {S : Set ℤ} {m m' : Mem} (h : Frame S m m') {lo hi a : ℤ} {n : ℕ}
    (hS : ∀ x ∈ S, x < lo ∨ hi ≤ x) (h1 : lo ≤ a) (h2 : a + n ≤ hi) : m'.get a n = m.get a n :=
  h.get_eq fun x hx hx' hxS => by
    have := hS x hxS
    omega

theorem Frame.word_of_outside {S : Set ℤ} {m m' : Mem} (h : Frame S m m') {lo hi a : ℤ}
    (hS : ∀ x ∈ S, x < lo ∨ hi ≤ x) (h1 : lo ≤ a) (h2 : a + 4 ≤ hi) : m'.word a = m.word a := by
  rw [word, h.get_of_outside hS h1 (by exact_mod_cast h2), word]

theorem outside_Ico {a b lo hi : ℤ} (h : hi ≤ a ∨ b ≤ lo) : ∀ x ∈ Set.Ico a b, x < lo ∨ hi ≤ x := by
  rintro x ⟨h1, h2⟩
  omega

theorem outside_union {a b a' b' lo hi : ℤ} (h : hi ≤ a ∨ b ≤ lo) (h' : hi ≤ a' ∨ b' ≤ lo) :
    ∀ x ∈ Set.Ico a b ∪ Set.Ico a' b', x < lo ∨ hi ≤ x := by
  rintro x (hx | hx)
  · exact outside_Ico h x hx
  · exact outside_Ico h' x hx

theorem Frame.get_of_Ico {lo hi : ℤ} {m m' : Mem} (h : Frame (Set.Ico lo hi) m m') {a : ℤ} {n : ℕ}
    (hd : a + n ≤ lo ∨ hi ≤ a) : m'.get a n = m.get a n :=
  h.get_of_outside (outside_Ico hd) (le_refl _) (le_refl _)

theorem Frame.word_of_Ico {lo hi : ℤ} {m m' : Mem} (h : Frame (Set.Ico lo hi) m m') {a : ℤ}
    (hd : a + 4 ≤ lo ∨ hi ≤ a) : m'.word a = m.word a := by
  rw [word, h.get_of_Ico (by exact_mod_cast hd), word]

/-! ### Reading back what was written -/

@[simp] theorem get_put (m : Mem) (a : ℤ) (n : ℕ) (f : ℕ → UInt8) :
    (m.put a n f).get a n = (List.range n).map f := by
  refine List.map_congr_left fun i hi => ?_
  have hi := List.mem_range.mp hi
  have hin : a ≤ a + (i : ℤ) ∧ a + (i : ℤ) < a + n := by omega
  show (if a ≤ a + (i : ℤ) ∧ a + (i : ℤ) < a + n then f (a + (i : ℤ) - a).toNat else _) = f i
  rw [if_pos hin]
  congr 1
  omega

theorem range_map_getD (bs : List UInt8) :
    (List.range bs.length).map (fun i => bs.getD i 0) = bs := by
  refine List.ext_getElem (by simp) fun i h1 h2 => ?_
  simp [List.getD_eq_getElem?_getD, List.getElem?_eq_getElem h2]

/-- Spec of a store: it succeeds inside the mapping, changes nothing else, and is read back. -/
theorem store_spec (m : Mem) (a : ℤ) (bs : List UInt8) (h : m.InBounds a bs.length) :
    ∃ m', m.store a bs = some m' ∧ Frame (Set.Ico a (a + bs.length)) m m' ∧
      m'.get a bs.length = bs :=
  ⟨_, store_eq h, frame_put .., by rw [get_put, range_map_getD]⟩

theorem store32_spec {m : Mem} {a : ℤ} (h : m.InBounds a 4) (v : ℕ) :
    ∃ m', m.store32 a v = some m' ∧ Frame (Set.Ico a (a + 4)) m m' ∧
      m'.word a = v % 4294967296 := by
  obtain ⟨m', hs, hf, hg⟩ := store_spec m a (leBytes 4 v) (by simpa using h)
  rw [leBytes_length] at hf hg
  exact ⟨m', hs, hf, by rw [word, hg, ofLe_leBytes]; rfl⟩

theorem copy_spec {m : Mem} {a : ℤ} {n : ℕ} (h : m.InBounds a n) (f : ℕ → UInt8) :
    ∃ m', m.copy a n f = some m' ∧ Frame (Set.Ico a (a + n)) m m' ∧
      m'.get a n = (List.range n).map f :=
  ⟨_, copy_eq h f, frame_put .., get_put ..⟩

theorem copy_some {m m' : Mem} {a : ℤ} {n : ℕ} {f : ℕ → UInt8} (h : m.copy a n f = some m') :
    m.InBounds a n := by
  by_contra hn
  rw [copy, if_neg hn] at h
  exact absurd h (by simp)

theorem store_some {m m' : Mem} {a : ℤ} {bs : List UInt8} (h : m.store a bs = some m') :
    m.InBounds a bs.length ∧ Frame (Set.Ico a (a + bs.length)) m m' := by
  have hin := copy_some h
  rw [store_eq hin, Option.some.injEq] at h
  rw [← h]
  exact ⟨hin, frame_put ..⟩

@[simp] theorem put_zero (m : Mem) (a : ℤ) (f : ℕ → UInt8) : m.put a 0 f = m := by
  unfold put
  congr 1
  funext x
  exact if_neg (by omega)

/-- A copy can be made byte by byte. -/
theorem store_put {m : Mem} {a : ℤ} {n : ℕ} (h : m.InBounds a (n + 1)) (f : ℕ → UInt8) :
    (m.put a n f).store (a + n) [f n] = some (m.put a (n + 1) f) := by
  obtain ⟨h0, h1⟩ := h
  have hin : (m.put a n f).InBounds (a + n) [f n].length :=
    ⟨by omega, by rw [(frame_put m a n f).size, List.length_singleton]; push_cast at h1; omega⟩
  rw [store_eq hin, Option.some.injEq]
  unfold put
  congr 1
  funext x
  rw [List.length_singleton]
  push_cast
  by_cases hx : x = a + n
  · rw [if_pos (by omega), if_pos (by omega), hx]
    simp
  · by_cases hlt : a ≤ x ∧ x < a + n
    · rw [if_neg (by omega), if_pos hlt, if_pos (by omega)]
    · rw [if_neg (by omega), if_neg hlt, if_neg (by omega)]

theorem store_within (m : Mem) (a : ℤ) (pre old post new : List UInt8) (h : old.length = new.length) :
    ((m.store a (pre ++ old ++ post)).bind fun m => m.store (a + pre.length) new) =
      m.store a (pre ++ new ++ post) := by
  have hlen : (pre ++ old ++ post).length = (pre ++ new ++ post).length := by simp [h]
  by_cases hin : m.InBounds a (pre ++ new ++ post).length
  · have hlens : (pre ++ new ++ post).length = pre.length + new.length + post.length := by simp [Nat.add_assoc]
    obtain ⟨h0, h1⟩ := hin
    rw [store_eq (by rw [hlen]; exact ⟨h0, h1⟩), store_eq ⟨h0, h1⟩, Option.bind_some,
      store_eq ⟨by omega, by rw [(frame_put ..).size]; omega⟩, Option.some.injEq, hlen, hlens]
    unfold put
    congr 1
    funext x
    simp only [List.getD_eq_getElem?_getD, List.getElem?_append]
    grind
  · have hnone : ∀ bs : List UInt8, ¬ m.InBounds a bs.length → m.store a bs = none := fun bs hb => if_neg hb
    rw [hnone _ hin, hnone _ (by rw [hlen]; exact hin), Option.bind_none]

theorem get_one (m : Mem) (a : ℤ) : m.get a 1 = [m.byte a] := by simp [get]

theorem get_add (m : Mem) (a : ℤ) (n k : ℕ) : m.get a (n + k) = m.get a n ++ m.get (a + n) k := by
  simp only [get, List.range_add, List.map_append, List.map_map]
  congr 1
  refine List.map_congr_left fun i _ => ?_
  simp only [Function.comp]
  congr 1
  push_cast
  ring

theorem get_succ (m : Mem) (a : ℤ) (n : ℕ) : m.get a (n + 1) = m.get a n ++ [m.byte (a + n)] := by
  rw [m.get_add, m.get_one]

end Mem

end Schemes
