import Log2mem.Row.Paths
import Log2mem.Schemes.Parts
import Log2mem.System.Holds
import Log2mem.Tables.Racing

/-! What the accesses to a memmap read and what they write.

    The accesses come in three kinds. Each reads bytes of its own sections and of the header only, and
    writes bytes of its own sections only; `nextrow` belongs to the rows.

        0      28     32    92          counters │ rows │ labels │ double vars, int vars
        header │nextrow│ config │           C        R       C          V
        rows   reads everything to 256, R     writes nextrow, R
        counters  reads the config, C         writes C
        vars      reads the config, V         writes V                                  -/

namespace Log2mem
open Schemes

/-- The kinds of accesses. -/
inductive Part where
  | rows
  | counters
  | vars
  deriving DecidableEq

/-- The bytes that an access of this kind may read or write. -/
def Geometry.seen (G : Geometry) : Part → Set ℤ
  | .rows => {x | x < 256 ∨ G.layout.rowsOff ≤ x ∧ x < G.layout.counterLabelsOff}
  | .counters => Set.Ico 32 92 ∪ counterBytes G.handle G.numCounters
  | .vars => Set.Ico 32 92 ∪ {x | G.layout.doubleVarsOff ≤ x}

/-- The bytes that it may write. -/
def Geometry.written (G : Geometry) : Part → Set ℤ
  | .rows => Set.Ico 28 32 ∪ Set.Ico G.layout.rowsOff G.layout.counterLabelsOff
  | .counters => counterBytes G.handle G.numCounters
  | .vars => {x | G.layout.doubleVarsOff ≤ x}

/-- APART: what one kind of accesses writes, the others do not see. -/
theorem Geometry.written_apart (G : Geometry) {i j : Part} (hij : i ≠ j) :
    ∀ x ∈ G.written i, x ∉ G.seen j := by
  obtain ⟨haside, hfront⟩ := G.counterBytes_aside
  have horder := G.section_order
  intro x hx
  cases i <;> cases j <;> first | exact absurd rfl hij | skip
  case rows.counters =>
    rintro (hs | hs)
    · have := hs.1
      have := hs.2
      rcases hx with ⟨h0, h1⟩ | ⟨h0, h1⟩ <;> omega
    · obtain ⟨h2, -, h3⟩ := haside x hs
      rcases hx with ⟨h0, h1⟩ | ⟨h0, h1⟩ <;> omega
  case rows.vars =>
    rintro (⟨h2, h3⟩ | h2)
    · rcases hx with ⟨h0, h1⟩ | ⟨h0, h1⟩ <;> omega
    · have h2 : G.layout.doubleVarsOff ≤ x := h2
      rcases hx with ⟨h0, h1⟩ | ⟨h0, h1⟩ <;> omega
  case counters.rows =>
    obtain ⟨h2, -, h3⟩ := haside x hx
    rintro (h0 | ⟨h0, h1⟩) <;> omega
  case counters.vars =>
    have h1 := hfront x hx
    obtain ⟨h2, -, -⟩ := haside x hx
    rintro (⟨h3, h4⟩ | h3)
    · omega
    · exact absurd h3 (not_le.mpr h1)
  case vars.rows =>
    have hx : G.layout.doubleVarsOff ≤ x := hx
    rintro (h0 | ⟨h0, h1⟩) <;> omega
  case vars.counters =>
    have hx : G.layout.doubleVarsOff ≤ x := hx
    rintro (⟨h0, h1⟩ | h0)
    · omega
    · have := hfront x h0
      omega

theorem Geometry.config_seen (G : Geometry) (i : Part) : Set.Ico (32 : ℤ) 92 ⊆ G.seen i := by
  cases i with
  | rows => exact fun x hx => Or.inl (by have := hx.2; omega)
  | counters | vars => exact Set.subset_union_left

/-! ### The counters -/

section Counters
variable {G : Geometry} {m m' : Mem} {op : CounterOp} {new : List CounterOp} {i : ℕ}

theorem Geometry.counter_seen (G : Geometry) {idx : ℤ} (h : 0 ≤ idx ∧ idx < G.numCounters) :
    Set.Ico (counterAddr G.handle idx) (counterAddr G.handle idx + 8) ⊆
      counterBytes G.handle G.numCounters := fun x hx => by
  refine Or.inl ⟨?_, ?_⟩
  all_goals
    have := hx.1
    have := hx.2
    simp only [counterAddr] at *
    omega

theorem Geometry.label_seen (G : Geometry) {idx : ℤ} (h : 0 ≤ idx ∧ idx < G.numCounters) :
    Set.Ico (labelAddr G.handle idx) (labelAddr G.handle idx + 64) ⊆
      counterBytes G.handle G.numCounters := fun x hx => by
  refine Or.inr ⟨?_, ?_⟩
  all_goals
    have := hx.1
    have := hx.2
    simp only [labelAddr] at *
    omega

/-- An access to the counters writes counters and labels only. -/
theorem counterMicro_frame (hop : op.InTable G.numCounters)
    (hs : counterMicro G.handle m op = some (m', new)) : Mem.Frame (G.written .counters) m m' := by
  cases op with
  | call c =>
    cases c with
    | incr =>
      simp only [counterMicro, Option.pure_def, Option.some.injEq, Prod.mk.injEq] at hs
      exact hs.1 ▸ .refl ..
    | add | label =>
      simp only [counterMicro, Option.bind_eq_bind, Option.bind_eq_some_iff, Option.pure_def,
        Option.some.injEq, Prod.mk.injEq] at hs
      obtain ⟨_, -, rfl, -⟩ := hs
      exact .refl ..
  | fetchAdd idx valueToAdd =>
    simp only [counterMicro, Option.bind_eq_bind, Option.bind_eq_some_iff, Option.pure_def,
      Option.some.injEq, Prod.mk.injEq] at hs
    obtain ⟨v, -, m₁, hm, rfl, -⟩ := hs
    exact (Mem.store32_frame hm).mono ((Set.Ico_subset_Ico_right (by omega)).trans (G.counter_seen hop))
  | putChar idx i c =>
    simp only [counterMicro, Option.bind_eq_bind, Option.bind_eq_some_iff, Option.pure_def,
      Option.some.injEq, Prod.mk.injEq] at hs
    obtain ⟨m₁, hm, rfl, -⟩ := hs
    have hi := hop.2
    exact (Mem.store_some hm).2.mono ((Set.Ico_subset_Ico (by omega)
      (by rw [List.length_singleton]; omega)).trans (G.label_seen hop.1))
  | putUsed idx =>
    simp only [counterMicro, Option.bind_eq_bind, Option.bind_eq_some_iff, Option.pure_def,
      Option.some.injEq, Prod.mk.injEq] at hs
    obtain ⟨m₁, hm, rfl, -⟩ := hs
    exact (Mem.store32_frame hm).mono
      ((Set.Ico_subset_Ico (by omega) (by omega)).trans (G.counter_seen hop))

/-- It reads the config, counters and labels only. -/
theorem counterMicro_local (hop : op.InTable G.numCounters) :
    Mem.Local (G.seen .counters) fun m => counterMicro G.handle m op := by
  have hconfig := G.config_seen .counters
  have hseen : counterBytes G.handle G.numCounters ⊆ G.seen .counters := Set.subset_union_right
  cases op with
  | call c =>
    cases c with
    | incr => exact Mem.local_pure _
    | add | label =>
      exact Mem.local_load32 ((Set.Ico_subset_Ico (by omega) (by omega)).trans hconfig) fun _ =>
        Mem.local_pure _
  | fetchAdd idx valueToAdd =>
    refine Mem.local_load32 ?_ fun v => (Mem.uniform_store32 _ _).returns (Set.empty_subset _) _
    exact (Set.Ico_subset_Ico_right (by omega)).trans ((G.counter_seen hop).trans hseen)
  | putChar => exact (Mem.uniform_store _ _).returns (Set.empty_subset _) _
  | putUsed => exact (Mem.uniform_store32 _ _).returns (Set.empty_subset _) _

end Counters

/-! ### The variables -/

section Vars
variable {G : Geometry} {m m' : Mem} {op : VarOp} {new : List VarOp} {calls : List VarCall} {c : VarCall}

theorem Geometry.var_seen (G : Geometry) (hn : 1 ≤ G.numVars) (c : VarCall) {lo hi : ℤ}
    (hlo : c.table.addr G.handle (c.slot G.numVars : ℕ) ≤ lo) :
    Set.Ico lo hi ⊆ {x | G.layout.doubleVarsOff ≤ x} := fun x hx => by
  have hroom := (G.var_room c.table (Nat.mod_lt c.id.toNat hn)).1
  have := hx.1
  show G.layout.doubleVarsOff ≤ x
  exact hroom.trans (hlo.trans this)

theorem varMicro_frame (hn : 1 ≤ G.numVars) (hop : op.From G.numVars calls)
    (hs : varMicro G.handle m op = some (m', new)) : Mem.Frame (G.written .vars) m m' := by
  obtain ⟨c, -, hc⟩ := hop
  cases op with
  | call d =>
    simp only [varMicro, Option.bind_eq_bind, Option.bind_eq_some_iff, Option.pure_def,
      Option.some.injEq, Prod.mk.injEq] at hs
    obtain ⟨_, -, rfl, -⟩ := hs
    exact .refl ..
  | testFlags | loadFlags =>
    simp only [varMicro, Option.bind_eq_bind, Option.bind_eq_some_iff, Option.pure_def,
      Option.some.injEq, Prod.mk.injEq] at hs
    obtain ⟨_, -, rfl, -⟩ := hs
    exact .refl ..
  | putValue t idx value =>
    obtain ⟨rfl, rfl, -⟩ := hc
    simp only [varMicro, Option.bind_eq_bind, Option.bind_eq_some_iff, Option.pure_def,
      Option.some.injEq, Prod.mk.injEq] at hs
    obtain ⟨m₁, hm, rfl, -⟩ := hs
    exact (Mem.store_some hm).2.mono (G.var_seen hn c (le_refl _))
  | storeFlags t idx flags =>
    obtain ⟨rfl, rfl, -⟩ := hc
    simp only [varMicro, Option.bind_eq_bind, Option.bind_eq_some_iff, Option.pure_def,
      Option.some.injEq, Prod.mk.injEq] at hs
    obtain ⟨m₁, hm, rfl, -⟩ := hs
    exact (Mem.store32_frame hm).mono (G.var_seen hn c (by omega))
  | putChar t idx i ch =>
    obtain ⟨rfl, rfl, -⟩ := hc
    simp only [varMicro, Option.bind_eq_bind, Option.bind_eq_some_iff, Option.pure_def,
      Option.some.injEq, Prod.mk.injEq] at hs
    obtain ⟨m₁, hm, rfl, -⟩ := hs
    exact (Mem.store_some hm).2.mono (G.var_seen hn c (by omega))

theorem varMicro_local (hn : 1 ≤ G.numVars) (hop : op.From G.numVars calls) :
    Mem.Local (G.seen .vars) fun m => varMicro G.handle m op := by
  have hconfig := G.config_seen .vars
  have hseen : {x | G.layout.doubleVarsOff ≤ x} ⊆ G.seen .vars := Set.subset_union_right
  obtain ⟨c, -, hc⟩ := hop
  cases op with
  | call d =>
    exact Mem.local_load32 ((Set.Ico_subset_Ico (by omega) (by omega)).trans hconfig) fun _ =>
      Mem.local_pure _
  | testFlags t idx value src =>
    obtain ⟨-, rfl, rfl, -⟩ := hc
    exact Mem.local_load32 ((G.var_seen hn c (by omega)).trans hseen) fun _ => Mem.local_pure _
  | loadFlags t idx bits =>
    obtain ⟨rfl, rfl, -⟩ := hc
    exact Mem.local_load32 ((G.var_seen hn c (by omega)).trans hseen) fun _ => Mem.local_pure _
  | putValue => exact (Mem.uniform_store _ _).returns (Set.empty_subset _) _
  | storeFlags => exact (Mem.uniform_store32 _ _).returns (Set.empty_subset _) _
  | putChar => exact (Mem.uniform_store _ _).returns (Set.empty_subset _) _

end Vars

/-! ### The rows -/

section Rows
variable {G : Geometry} {m m' n : Mem} {o : Owner} {k : ℕ}

theorem stampTid_uniform (r : ℤ) (env : Env) : Mem.Uniform (Set.Ico 32 36) (stampTid r env) := by
  have heq : stampTid r env = fun m => (m.load32 32).bind fun options =>
      if options &&& optThreadId ≠ 0 then m.store32 r env.tid.toUInt32.toNat else some m := rfl
  rw [heq]
  refine Mem.uniform_load32 (Set.Ico_subset_Ico_right (by omega)) fun options => ?_
  by_cases h : options &&& optThreadId ≠ 0
  · simp only [if_pos h]
    exact (Mem.uniform_store32 _ _).mono (Set.empty_subset _)
  · simp only [if_neg h]
    exact Mem.uniform_some.mono (Set.empty_subset _)

theorem stampTs_uniform (r : ℤ) (env : Env) : Mem.Uniform (Set.Ico 32 36) (stampTs r env) := by
  have heq : stampTs r env = fun m => (m.load32 32).bind fun options =>
      (rowTs options env).elim some (fun ts m => m.store (r + 8) (leBytes 8 ts)) m := by
    funext m
    unfold stampTs hdrOptions
    congr
    funext options
    cases rowTs options env <;> rfl
  rw [heq]
  refine Mem.uniform_load32 (Set.Ico_subset_Ico_right (by omega)) fun options => ?_
  cases rowTs options env with
  | some ts => exact (Mem.uniform_store _ _).mono (Set.empty_subset _)
  | none => exact Mem.uniform_some.mono (Set.empty_subset _)

theorem Event.putInts_uniform (e : Event) (ptr : ℤ) : Mem.Uniform ∅ (e.putInts ptr) :=
  (putData_uniform .int (leBytes 4 e.flowid.toUInt32.toNat) ptr).bind
    (putData_uniform .int (leBytes 4 e.msgref.toUInt32.toNat) (ptr + 12))

theorem Event.put_uniform (e : Event) (ptr : ℤ) : Mem.Uniform ∅ (e.put ptr) := by
  cases hmsg : e.msg with
  | none =>
    rw [Event.put_none hmsg]
    exact e.putInts_uniform ptr
  | some str =>
    rw [Event.put_some hmsg]
    exact (e.putInts_uniform ptr).bind (putStr_uniform .string e.len str (ptr + 24))

theorem Job.put_uniform (j : Job) (ptr : ℤ) : Mem.Uniform ∅ (j.put ptr) := by
  cases j with
  | push p => exact p.put_uniform ptr
  | event e => exact e.put_uniform ptr

/-- The next access of an owner reads the config and `datalen` of its own slot only. -/
theorem Owner.step_local {T : Set ℤ} (hconfig : Set.Ico (32 : ℤ) 92 ⊆ T)
    (hlen : Set.Ico (o.row + 20) (o.row + 20 + 4) ⊆ T) :
    Mem.Local T fun m => (o.step m).map Prod.swap := by
  have hoptions : Set.Ico (32 : ℤ) 36 ⊆ T := (Set.Ico_subset_Ico_right (by omega)).trans hconfig
  cases hpc : o.pc with
  | stampTid =>
    simp only [Owner.step, hpc, Option.bind_eq_bind, Option.pure_def, Option.map_bind]
    exact (stampTid_uniform o.row o.env).returns hoptions _
  | stampTs =>
    simp only [Owner.step, hpc, Option.bind_eq_bind, Option.pure_def, Option.map_bind]
    exact (stampTs_uniform o.row o.env).returns hoptions _
  | stampId =>
    simp only [Owner.step, hpc, Option.bind_eq_bind, Option.pure_def, Option.map_bind]
    exact (Mem.uniform_store32 (o.row + 16) o.rowid).returns (Set.empty_subset _) _
  | reset =>
    simp only [Owner.step, hpc, Option.bind_eq_bind, Option.pure_def, Option.map_bind]
    exact (Mem.uniform_store32 (o.row + 20) 0).returns (Set.empty_subset _) _
  | location =>
    simp only [Owner.step, hpc, Option.bind_eq_bind, Option.pure_def, Option.map_bind]
    exact Mem.local_load32 (a := 32) hoptions fun _ => Mem.local_pure _
  | ready =>
    cases htd : o.todo with
    | nil =>
      simp only [Owner.step, hpc, htd, Option.map_none]
      exact Mem.local_none
    | cons j js =>
      simp only [Owner.step, hpc, htd, fits, hdrRowLen, rowDatalen, Option.bind_eq_bind, Option.pure_def,
        Option.map_bind, Option.bind_assoc, Option.bind_some, Function.comp]
      refine Mem.local_load32 (a := 44) ((Set.Ico_subset_Ico (by omega) (by omega)).trans hconfig)
        fun rowLen => Mem.local_load32 (a := o.row + 20) hlen fun datalen => ?_
      by_cases hfit : j.totlen ≤ toInt32 (rowLen - datalen)
      · simp only [hfit, decide_true, if_true]
        exact Mem.local_pure _
      · simp only [hfit, decide_false, Bool.false_eq_true, if_false]
        exact Mem.local_pure _
  | addr j | load j =>
    simp only [Owner.step, hpc, Option.bind_eq_bind, Option.pure_def, Option.map_bind]
    exact Mem.local_load32 (a := o.row + 20) hlen fun _ => Mem.local_pure _
  | write j off =>
    simp only [Owner.step, hpc, Option.bind_eq_bind, Option.pure_def, Option.map_bind]
    exact (j.put_uniform _).returns (Set.empty_subset _) _
  | store j d =>
    simp only [Owner.step, hpc, Option.bind_eq_bind, Option.pure_def, Option.map_bind]
    exact (Mem.uniform_store32 (o.row + 20) _).returns (Set.empty_subset _) _
  | finished =>
    simp only [Owner.step, hpc, Option.map_none]
    exact Mem.local_none

theorem Geometry.slot_section (G : Geometry) {j : ℕ} (hj : j < G.numRows) :
    G.slotBytes j ⊆ Set.Ico G.layout.rowsOff G.layout.counterLabelsOff := fun x hx => by
  have hend := G.slot_end hj
  have hstart : 0 ≤ (j : ℤ) * (24 + G.rowLen) := by positivity
  have h0 := hx.1
  have h1 := hx.2
  refine ⟨?_, by omega⟩
  unfold Geometry.slot at h0
  omega

/-- What the owners of rows do not see keeps clear of the header and the slots. -/
theorem Geometry.rows_clear (G : Geometry) : G.Clear (G.seen .rows)ᶜ := fun x hx => by
  have hx : ¬ (x < 256 ∨ G.layout.rowsOff ≤ x ∧ x < G.layout.counterLabelsOff) := hx
  omega

theorem Ring.agree {os : List Owner} (hr : Ring G ⟨m, os⟩) (ha : Mem.Agree (G.seen .rows) m m') :
    Ring G ⟨m', os⟩ := by
  have hf := ha.frame
  have hclear := G.rows_clear
  have hmod : ∀ k, k % G.numRows < G.numRows := fun k => Nat.mod_lt _ G.numRows_pos
  refine ⟨hr.mapped.frame hf fun x hx => by have := hclear x hx; omega, ?_, hr.owner,
    fun k o hk hret => ?_, hr.lapped, fun j hj hN => ?_⟩
  · rw [← hr.nextrow]
    exact hf.word_eq fun x _ _ hx => by have := hclear x hx; omega
  · have hrow := (hr.owner k o hk).2
    refine (hr.held k o hk hret).frame hf (fun x hx => by have := hclear x hx; omega) ?_
    rw [hrow]
    exact hclear.slot (hmod k)
  · obtain ⟨hid, hlen⟩ := hr.blank j hj hN
    exact ⟨(hf.word_of_outside (hclear.slot hN) (by omega) (by omega)).trans hid,
      (hf.word_of_outside (hclear.slot hN) (by omega) (by omega)).trans hlen⟩

theorem Ring.step_frame {s s' : State} {a : Act} (hr : Ring G s) (hs : step G.handle s a = some s') :
    Mem.Frame (G.written .rows) s.mem s'.mem := by
  cases a with
  | acquire start env =>
    obtain ⟨m, e, f, -⟩ := hr.acquire start env
    rw [e, Option.some.injEq] at hs
    subst hs
    exact f.mono Set.subset_union_left
  | advance k =>
    obtain ⟨o, o', m, hk, hst, rfl⟩ := step_advance hs
    obtain ⟨hid, hrow⟩ := hr.owner k o hk
    have hslot : k % G.numRows < G.numRows := Nat.mod_lt _ G.numRows_pos
    have hret := hr.retained hk (Owner.step_some hr.mapped hrow hst).2.1
    obtain ⟨-, -, -, f⟩ := Owner.step_ok hr.mapped hslot hrow (by omega) (hr.held k o hk hret) hst
    exact f.mono ((G.slot_section hslot).trans Set.subset_union_right)
  | append k a =>
    obtain ⟨o, -, -, -, rfl⟩ := step_append hs
    exact .refl ..
  | finish k =>
    obtain ⟨o, -, -, -, rfl⟩ := step_finish hs
    exact .refl ..

/-- A step of the ring does the same in any memory that looks the same to it. -/
theorem Ring.step_local {os : List Owner} {t : State} {a : Act} (hr : Ring G ⟨m, os⟩)
    (ha : Mem.Agree (G.seen .rows) m m') (hs : step G.handle ⟨m, os⟩ a = some t) :
    ∃ n, step G.handle ⟨m', os⟩ a = some ⟨n, t.owners⟩ ∧ Mem.Agree (G.seen .rows) t.mem n := by
  cases a with
  | acquire start env =>
    obtain ⟨m₁, e₁, f₁, w₁⟩ := hr.acquire start env
    obtain ⟨n₁, e₂, f₂, w₂⟩ := (hr.agree ha).acquire start env
    rw [e₁, Option.some.injEq] at hs
    subst hs
    refine ⟨n₁, e₂, ?_⟩
    have hrest : Mem.Agree (G.seen .rows \ Set.Ico 28 32) m₁ n₁ :=
      ((f₁.agree fun x hx => hx.2).symm.trans (ha.mono Set.sdiff_subset)).trans (f₂.agree fun x hx => hx.2)
    refine (hrest.of_word (a := 28) (by rw [w₁, w₂])).mono fun x hx => ?_
    by_cases h : x ∈ Set.Ico (28 : ℤ) 32
    · exact Or.inr h
    · exact Or.inl ⟨hx, h⟩
  | advance k =>
    obtain ⟨o, o', m₁, hk, hst, rfl⟩ := step_advance hs
    have hslot : k % G.numRows < G.numRows := Nat.mod_lt _ G.numRows_pos
    have hrow := (hr.owner k o hk).2
    have hlen : Set.Ico (o.row + 20) (o.row + 20 + 4) ⊆ G.seen .rows := fun x hx => by
      have h0 := hx.1
      have h1 := hx.2
      exact Or.inr (G.slot_section hslot ⟨by omega, by omega⟩)
    have hswapped : (o.step m).map Prod.swap = some (m₁, o') := congrArg (Option.map Prod.swap) hst
    obtain ⟨n, hn, hag⟩ := Owner.step_local (G.config_seen .rows) hlen ha hswapped
    obtain ⟨⟨o₂, n₂⟩, hstep, hswap⟩ := Option.map_eq_some_iff.mp hn
    obtain ⟨rfl, rfl⟩ := Prod.mk.inj hswap
    refine ⟨n₂, ?_, hag⟩
    simp only [step, show os[k]? = some o from hk, hstep, Option.bind_eq_bind, Option.bind_some,
      Option.pure_def]
  | append k a =>
    obtain ⟨o, hk, hpc, htd, rfl⟩ := step_append hs
    refine ⟨m', ?_, ha⟩
    simp only [step, show os[k]? = some o from hk, Option.bind_eq_bind, Option.bind_some,
      Owner.idle_iff.mpr ⟨hpc, htd⟩, if_true, Option.pure_def]
  | finish k =>
    obtain ⟨o, hk, hpc, htd, rfl⟩ := step_finish hs
    refine ⟨m', ?_, ha⟩
    simp only [step, show os[k]? = some o from hk, Option.bind_eq_bind, Option.bind_some,
      Owner.idle_iff.mpr ⟨hpc, htd⟩, if_true, Option.pure_def]

end Rows

end Log2mem
