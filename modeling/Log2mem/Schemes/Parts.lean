import Log2mem.Schemes.Agree
import Log2mem.Schemes.Threads

/-! Systems made of parts that share one memory.

    Two rules. RELY: what each part is known by is kept by the part itself, as long as it only relies on
    what the other parts guarantee. LOCAL: an access that reads bytes of `T` only does the same in any
    memory that agrees on `T`, so a part that keeps to its own bytes does not see the others.

        part i:  I i ──▶ I i        │  guar i : what it changes
        part j:  I j ══════▶ I j    │  I j relies on  guar i, i ≠ j -/

namespace Schemes

section Parts
variable {σ α ι : Type*}

/-- Parts of a system, each with what it is known by and what it guarantees the others. -/
structure Parts (step : σ → α → Option σ) (ok : σ → α → Prop) (part : α → ι) (I : ι → σ → Prop)
    (guar : ι → σ → σ → Prop) : Prop where
  own : ∀ s a t, I (part a) s → ok s a → step s a = some t → I (part a) t ∧ guar (part a) s t
  rely : ∀ i j s t, i ≠ j → guar i s t → I j s → I j t

variable {step : σ → α → Option σ} {ok : σ → α → Prop} {part : α → ι} {I : ι → σ → Prop}
  {guar : ι → σ → σ → Prop} {s t : σ}

/-- STEP: an action keeps what every part is known by. -/
theorem Parts.step_ok (h : Parts step ok part I guar) {a : α} (hI : ∀ i, I i s) (hok : ok s a)
    (hs : step s a = some t) (i : ι) : I i t := by
  obtain ⟨hown, hguar⟩ := h.own s a t (hI _) hok hs
  by_cases hi : part a = i
  · rw [← hi]
    exact hown
  · exact h.rely _ i s t hi hguar (hI i)

/-- RUN: so does every run. -/
theorem Parts.run (h : Parts step ok part I guar) (hI : ∀ i, I i s) (hrun : Run step ok s t) (i : ι) :
    I i t :=
  hrun.invariant (I := fun u => ∀ i, I i u) hI (fun _ _ _ hu hok hs => h.step_ok hu hok hs) i

end Parts

namespace Mem
variable {β : Type*} {T : Set ℤ}

theorem Agree.frame {m m' : Mem} (h : Agree T m m') : Frame Tᶜ m m' :=
  ⟨h.size, fun x hx => h.byte x (not_not.mp hx)⟩

theorem store32_frame {m m' : Mem} {a : ℤ} {v : ℕ} (h : m.store32 a v = some m') :
    Frame (Set.Ico a (a + 4)) m m' := by
  obtain ⟨-, f⟩ := store_some h
  rwa [leBytes_length] at f

/-- An access with a result that reads bytes of `T` only: in a memory that agrees on `T` it has the same
    result, and the memories go on to agree. -/
def Local (T : Set ℤ) (f : Mem → Option (Mem × β)) : Prop :=
  ∀ ⦃m m' x⦄, Agree T m m' → f m = some x → ∃ n, f m' = some (n, x.2) ∧ Agree T x.1 n

theorem local_none : Local T fun _ => (none : Option (Mem × β)) := fun _ _ _ _ h => nomatch h

theorem local_pure (b : β) : Local T fun m => some (m, b) := fun m m' x ha h => by
  rw [Option.some.injEq] at h
  subst h
  exact ⟨m', rfl, ha⟩

/-- A uniform writer, with a result. -/
theorem Uniform.returns {w : Mem → Option Mem} {S : Set ℤ} (hw : Uniform S w) (hS : S ⊆ T) (b : β) :
    Local T fun m => (w m).bind fun n => some (n, b) := fun m m' x ha h => by
  obtain ⟨n, hn, hx⟩ := Option.bind_eq_some_iff.mp h
  rw [Option.some.injEq] at hx
  subst hx
  obtain ⟨n', hn', hag⟩ := rel_some (hn ▸ hw hS ha)
  exact ⟨n', congrArg (Option.bind · fun n => some (n, b)) hn', hag⟩

/-- What a load of agreed bytes leads to. -/
theorem local_load32 {a : ℤ} {k : ℕ → Mem → Option (Mem × β)} (hT : Set.Ico a (a + 4) ⊆ T)
    (hk : ∀ v, Local T (k v)) : Local T fun m => (m.load32 a).bind fun v => k v m := fun m m' x ha h => by
  have hload : m'.load32 a = m.load32 a := by
    simp only [load32, ha.inBounds_iff, ha.word_eq hT]
  obtain ⟨v, hv, hx⟩ := Option.bind_eq_some_iff.mp h
  obtain ⟨n, hn, hag⟩ := hk v ha hx
  exact ⟨n, Option.bind_eq_some_iff.mpr ⟨v, hload.trans hv, hn⟩, hag⟩

end Mem

/-- THREADS: local operations make local steps. -/
theorem Threads.step_local {α : Type*} {micro : Mem → α → Option (Mem × List α)} {T : Set ℤ} {m : Mem}
    {s t : Threads Mem α} {k : ℕ} (hl : ∀ a ∈ s.todo.flatten, Mem.Local T fun m => micro m a)
    (ha : Mem.Agree T s.shared m) (hs : Threads.step micro s k = some t) :
    ∃ n, Threads.step micro ⟨m, s.todo⟩ k = some ⟨n, t.todo⟩ ∧ Mem.Agree T t.shared n := by
  unfold Threads.step at hs
  split at hs
  · rename_i a as hk
    obtain ⟨⟨s', new⟩, hmicro, rfl⟩ := Option.map_eq_some_iff.mp hs
    have hmem : a ∈ s.todo.flatten :=
      List.mem_flatten.mpr ⟨a :: as, List.mem_of_getElem? hk, List.mem_cons_self ..⟩
    obtain ⟨n, hn, hag⟩ := hl a hmem ha hmicro
    exact ⟨n, by simp only [Threads.step, hk, hn, Option.map_some], hag⟩
  · exact absurd hs (by simp)

/-- THREADS: so they make the same runs in every memory that looks the same to them. -/
theorem Threads.run_local {α : Type*} {micro : Mem → α → Option (Mem × List α)} {T : Set ℤ} {m : Mem}
    {s t : Threads Mem α} {I : Mem → Prop} {V : α → Prop} (hk : Threads.Keeps micro I V)
    (hl : ∀ a, V a → Mem.Local T fun m => micro m a) (hI : I s.shared) (hV : s.Holds V)
    (ha : Mem.Agree T s.shared m) (hrun : Threads.Reaches micro s t) :
    ∃ n, Threads.Reaches micro ⟨m, s.todo⟩ ⟨n, t.todo⟩ ∧ Mem.Agree T t.shared n := by
  induction hrun with
  | refl => exact ⟨m, .refl, ha⟩
  | tail hrun _ hs ih =>
    obtain ⟨n, hreach, hag⟩ := ih
    have hops := (hk.run hI hV hrun).2
    obtain ⟨n', hn, hag'⟩ := Threads.step_local (fun a hop => hl a (hops a hop)) hag hs
    exact ⟨n', hreach.tail trivial hn, hag'⟩

theorem Threads.step_frame {α : Type*} {micro : Mem → α → Option (Mem × List α)} {S : Set ℤ}
    {s t : Threads Mem α} {k : ℕ} (hf : ∀ a ∈ s.todo.flatten, ∀ m new, micro s.shared a = some (m, new) →
      Mem.Frame S s.shared m) (hs : Threads.step micro s k = some t) : Mem.Frame S s.shared t.shared := by
  obtain ⟨before, after, a, as, m, new, htodo, hmicro, rfl⟩ := Threads.step_some hs
  exact hf a (by simp [htodo]) m new hmicro

end Schemes
