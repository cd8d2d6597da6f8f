import Mathlib.Logic.Function.Basic
import Log2mem.Schemes.Window

/-! A bounded queue that forgets its oldest entries.

    Entries are numbered in the order they are pushed, from 0; the queue keeps the last `cap` of them
    and remembers how many it has forgotten, so that an entry can still be changed under its number.

        forgotten = 3     │ 3 │ 4 │ 5 │ ◀── push: 3 is forgotten -/

namespace Schemes

/-- The entries kept, oldest first, and the number of entries forgotten before them. -/
structure Queue (α : Type*) where
  forgotten : ℕ
  rows : List α

namespace Queue

variable {α : Type*}

def empty : Queue α := ⟨0, []⟩

/-- Add an entry; the oldest ones beyond `cap` are forgotten. -/
def push (cap : ℕ) (q : Queue α) (a : α) : Queue α :=
  { forgotten := q.forgotten + (q.rows.length + 1 - cap)
    rows := (q.rows ++ [a]).drop (q.rows.length + 1 - cap) }

/-- Change entry `k`, if it is still kept. -/
def modify (q : Queue α) (k : ℕ) (f : α → α) : Queue α :=
  if k < q.forgotten then q else { q with rows := q.rows.modify (k - q.forgotten) f }

/-- How many entries were pushed: the number of the next one. -/
def next (q : Queue α) : ℕ := q.forgotten + q.rows.length

/-- After `n` pushes the queue shows the last `cap` of the entries `c 0, …, c (n - 1)`. -/
structure Shows (cap n : ℕ) (c : ℕ → α) (q : Queue α) : Prop where
  forgotten : q.forgotten = n - cap
  rows : q.rows = (window cap n).map c

theorem shows_empty (cap : ℕ) (c : ℕ → α) : Shows cap 0 c (empty : Queue α) :=
  ⟨(Nat.zero_sub _).symm, by simp [empty, window]⟩

variable {cap n k : ℕ} {c : ℕ → α} {q : Queue α}

theorem Shows.next_eq (h : Shows cap n c q) : q.next = n := by
  rw [next, h.forgotten, h.rows, List.length_map, window_length]
  omega

/-- Pushing moves the window on by one. -/
theorem Shows.push (h : Shows cap n c q) (a : α) :
    Shows cap (n + 1) (Function.update c n a) (q.push cap a) := by
  have hlen : q.rows.length = min n cap := by rw [h.rows, List.length_map, window_length]
  have hmap : (window cap n).map c = (window cap n).map (Function.update c n a) :=
    List.map_congr_left fun k hk => by
      have := (mem_window.mp hk).1
      rw [Function.update_of_ne (by omega)]
  have hsnoc : window cap n ++ [n] = List.range' (n - cap) (min n cap + 1) := by
    rw [window, List.range'_concat]
    congr 2
    omega
  refine ⟨?_, ?_⟩
  · simp only [Queue.push, h.forgotten, hlen]
    omega
  · simp only [Queue.push, hlen]
    rw [h.rows, hmap, show [a] = [n].map (Function.update c n a) by simp, ← List.map_append, hsnoc,
      ← List.map_drop, List.drop_range', window]
    congr 2 <;> omega

theorem Shows.modify (h : Shows cap n c q) (hk : Retained cap n k) (f : α → α) :
    Shows cap n (Function.update c k (f (c k))) (q.modify k f) := by
  obtain ⟨hlt, hret⟩ := hk
  rw [Queue.modify, if_neg (by rw [h.forgotten]; omega)]
  refine ⟨h.forgotten, ?_⟩
  simp only [h.forgotten, h.rows]
  refine List.ext_getElem (by simp) fun i h1 h2 => ?_
  rw [List.length_map, window_length] at h2
  rw [List.getElem_modify]
  simp only [List.getElem_map, window, List.getElem_range', Nat.one_mul]
  split
  · rename_i he
    have hi : n - cap + i = k := by omega
    rw [hi, Function.update_self]
  · rw [Function.update_of_ne (by omega)]

end Queue

end Schemes
