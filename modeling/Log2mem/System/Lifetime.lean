import Log2mem.Init.Once
import Log2mem.System.Creation
import Log2mem.System.Snapshot

/-! A process from its first call to the moment it is stopped: initialisation, creation and use together.

    The calls race through `log2mem_init`, the one that is let in creates the file store by store, and a
    call that has loaded `g_log2mem` goes on to the memmap it points to. The file itself keeps nothing
    apart: that nobody writes to a file that is still being zeroed, and that no file in use is zeroed
    again, is up to `g_log2mem` and its lock.

        call 0   lock ─ create ══ ftruncate ══ memset ══ populate ══▶ assign ─ unlock ─ used ─▶ rows …
        call 1     lock ↻ ↻ ↻ ↻ ↻ ↻ ↻ ↻ ↻ ↻ ↻ ↻ ↻ ↻ ↻ ↻ ↻ ↻ ↻ ↻ ↻ ↻ ↻ ↻ ↻ retest ─ used ─▶ counters …
        file     old    │        refused, or an empty memmap         │    whole at any instant            -/

namespace Log2mem
open Schemes

/-- The calls, where the creation of the file stands, and what is done to the file by calls that have loaded
    `g_log2mem`. -/
structure Lifetime where
  init : InitState
  phase : CreatePhase
  program : Program

/-- Some thread goes on. -/
inductive LifeAct where
  /-- `log2mem_init(filename, userconfig, configsize)` is called -/
  | init (userconfig : ℕ → UInt8) (configsize : ℕ)
  /-- an API function is called -/
  | api
  /-- the next access of call `k` to `g_log2mem` or its lock; it enters, or leaves, `__log2mem_create` -/
  | access (k : ℕ) (os : Os)
  /-- call `k` goes on inside `__log2mem_create` -/
  | create (k : ℕ) (a : CreateAct)
  /-- call `k`, which has loaded `g_log2mem`, goes on on the memmap -/
  | move (k : ℕ) (mv : Move)

/-- The exact size of the memmap is an `int`, and it has variables. -/
structure Config.Sized (ps : PageSize) (config : Config) : Prop where
  fits : FitsInt ps (normalise config)
  numVars : 1 ≤ (normalise config).numVars.toNat

/-- The geometry of its memmap. -/
def Config.Sized.geometry {ps : PageSize} {config : Config} (h : config.Sized ps) : Geometry :=
  .of ps config h.fits

namespace Lifetime

/-- The file, as its creation sees it. -/
def creation (s : Lifetime) : Creation := ⟨s.phase, s.program.mem⟩

/-- The header is there: `__log2mem_create` may return. -/
def Populated (config : Config) (date : List UInt8) (s : Lifetime) : Prop :=
  s.phase = .populating ∧ Patch.Arrived (headerPatches (normalise config) date) s.program.mem

instance (config : Config) (date : List UInt8) (s : Lifetime) : Decidable (s.Populated config date) :=
  inferInstanceAs (Decidable (_ ∧ _))

/-- An access of call `k`: `__log2mem_create` starts with opening the file, and returns once it is
    populated. -/
def access (ps : PageSize) (date : ℕ → List UInt8) (s : Lifetime) (k : ℕ) (os : Os) : Option Lifetime := do
  let c ← s.init.calls[k]?
  let init ← initStep ps s.init (.advance k os (date k))
  match c.pc with
  | .create => some { s with init, phase := .opened }
  | .creating => if s.Populated c.config (date k) then some { s with init } else none
  | _ => some { s with init }

/-- One step; call `k` reads the clock at `date k`. -/
def step (ps : PageSize) (date : ℕ → List UInt8) (s : Lifetime) : LifeAct → Option Lifetime
  | .init userconfig configsize =>
    (initStep ps s.init (.init userconfig configsize)).map fun init => { s with init }
  | .api => (initStep ps s.init .api).map fun init => { s with init }
  | .access k os => s.access ps date k os
  | .create k a => do
    let c ← s.init.calls[k]?
    match c.pc with
    | .creating =>
      let u ← s.creation.step ps c.config (date k) a
      return { s with phase := u.phase, program := { s.program with mem := u.file } }
    | _ => none
  | .move k mv => do
    let c ← s.init.calls[k]?
    match c.pc with
    | .used (some i) => (s.program.step i.handle mv).map fun program => { s with program }
    | _ => none

/-- Every config is sized, and no acquisition overtakes by a full ring an owner that is still writing. -/
def Ok (ps : PageSize) (s : Lifetime) : LifeAct → Prop
  | .init userconfig configsize => (copyConfig userconfig configsize).Sized ps
  | .api => defaultConfig.Sized ps
  | .move _ mv => s.program.Timely (s.program.mem.word 40) mv
  | _ => True

/-- No call was made, and the file is as it was left. -/
def start (old : Mem) (counters : List (List CounterCall)) (vars : List (List VarCall)) : Lifetime :=
  ⟨.start, .opened, .start old counters vars⟩

end Lifetime

/-! ### What a step does -/

section Steps
variable {ps : PageSize} {date : ℕ → List UInt8} {s t : Lifetime} {k : ℕ} {c : InitCall}

/-- ACCESS: one call moves; the file is opened as `__log2mem_create` is entered, and populated when it
    returns. -/
theorem Lifetime.access_some {os : Os} (hs : s.access ps date k os = some t) :
    ∃ c shared pc, s.init.calls[k]? = some c ∧ c.step ps os (date k) k s.init.shared = some (shared, pc) ∧
      t.init = ⟨shared, s.init.calls.set k { c with pc }⟩ ∧ t.program = s.program ∧
      (c.pc = .create → t.phase = .opened) ∧ (c.pc ≠ .create → t.phase = s.phase) ∧
      (c.pc = .creating → s.Populated c.config (date k)) := by
  simp only [Lifetime.access, Option.bind_eq_bind, Option.bind_eq_some_iff] at hs
  obtain ⟨c, hk, init, hinit, hs⟩ := hs
  obtain ⟨c', shared, pc, hk', hst, rfl⟩ := initStep_advance hinit
  obtain rfl : c = c' := Option.some.inj (hk.symm.trans hk')
  refine ⟨c, shared, pc, hk, hst, ?_⟩
  cases hc : c.pc with
  | create =>
    simp only [hc, Option.some.injEq] at hs
    subst hs
    simp
  | creating =>
    simp only [hc] at hs
    split at hs
    · rename_i hpop
      obtain rfl := Option.some.inj hs
      simp [hpop]
    · exact absurd hs (by simp)
  | _ =>
    simp only [hc, Option.some.injEq] at hs
    subst hs
    simp

/-- CREATE: the call inside `__log2mem_create` changes the file. -/
theorem Lifetime.create_some {a : CreateAct} (hs : s.step ps date (.create k a) = some t) :
    ∃ c u, s.init.calls[k]? = some c ∧ c.pc = .creating ∧
      s.creation.step ps c.config (date k) a = some u ∧
      t = { s with phase := u.phase, program := { s.program with mem := u.file } } := by
  simp only [Lifetime.step, Option.bind_eq_bind, Option.bind_eq_some_iff] at hs
  obtain ⟨c, hk, hs⟩ := hs
  refine ⟨c, ?_⟩
  cases hc : c.pc with
  | creating =>
    simp only [hc, Option.bind_eq_some_iff, Option.pure_def, Option.some.injEq] at hs
    obtain ⟨u, hu, rfl⟩ := hs
    exact ⟨u, hk, rfl, hu, rfl⟩
  | _ => simp [hc] at hs

/-- MOVE: a call that has found `g_log2mem` set is at work on the memmap. -/
theorem Lifetime.move_some {mv : Move} (hs : s.step ps date (.move k mv) = some t) :
    ∃ c i program, s.init.calls[k]? = some c ∧ c.pc = .used (some i) ∧
      s.program.step i.handle mv = some program ∧ t = { s with program } := by
  simp only [Lifetime.step, Option.bind_eq_bind, Option.bind_eq_some_iff] at hs
  obtain ⟨c, hk, hs⟩ := hs
  refine ⟨c, ?_⟩
  cases hc : c.pc with
  | used g =>
    cases g with
    | none => simp [hc] at hs
    | some i =>
      simp only [hc] at hs
      obtain ⟨program, hp, rfl⟩ := Option.map_eq_some_iff.mp hs
      exact ⟨i, program, hk, rfl, hp, rfl⟩
  | _ => simp [hc] at hs

theorem InitCall.step_creates {os : Os} {d : List UInt8} {x shared : InitShared} {pc : InitPc}
    (h : c.step ps os d k x = some (shared, pc)) (hc : c.pc ≠ .create) : shared.creates = x.creates := by
  unfold InitCall.step at h
  cases hpc : c.pc with
  | create => exact absurd hpc hc
  | creating =>
    simp only [hpc, Option.bind_eq_bind, Option.bind_eq_some_iff, Option.pure_def, Option.some.injEq,
      Prod.mk.injEq] at h
    obtain ⟨_, -, rfl, -⟩ := h
    rfl
  | used g => simp [hpc] at h
  | _ =>
    simp only [hpc, Option.some.injEq, Prod.mk.injEq] at h
    obtain ⟨rfl, -⟩ := h
    rfl

end Steps

/-! ### The stages of a lifetime -/

section Stages
variable (ps : PageSize) (date : ℕ → List UInt8) (old : Mem) (counters : List (List CounterCall))
  (vars : List (List VarCall))

/-- No creation was entered: the file is as it was left. -/
structure Lifetime.Before (s : Lifetime) : Prop where
  creates : s.init.shared.creates = []
  phase : s.phase = .opened
  program : s.program = .start old counters vars

/-- Call `k` is creating the file, and nobody else has touched it. -/
structure Lifetime.During (s : Lifetime) (k : ℕ) (c : InitCall) : Prop where
  call : s.init.calls[k]? = some c
  pc : c.pc = .creating
  creates : s.init.shared.creates = [k]
  file : ∀ h m₀, create ⟨true, true⟩ ps (date k) c.config = some (h, m₀) → s.creation.Ok old m₀
  program : s.program = .start s.program.mem counters vars

/-- The memmap that call `i.creator` has created is about to be published, or in use. -/
structure Lifetime.After (s : Lifetime) (i : Inst) (c : InitCall) (m₀ : Mem) : Prop where
  call : s.init.calls[i.creator]? = some c
  creates : s.init.shared.creates = [i.creator]
  created : create ⟨true, true⟩ ps (date i.creator) c.config = some (i.handle, m₀)
  published : s.init.shared.g = some i ∨ c.pc = .assign i ∧ s.program = .start m₀ counters vars
  run : Run (Program.step i.handle) (Program.Timely (normalise c.config).numRows.toNat)
    (.start m₀ counters vars) s.program

/-- The invariant of every lifetime. -/
structure Lifetime.Alive (s : Lifetime) : Prop where
  once : Once ps s.init
  sized : ∀ (k : ℕ) (c : InitCall), s.init.calls[k]? = some c → c.config.Sized ps
  stage : s.Before old counters vars ∨ (∃ k c, s.During ps date old counters vars k c) ∨
    ∃ i c m₀, s.After ps date counters vars i c m₀

end Stages

section Steps
variable {ps : PageSize} {date : ℕ → List UInt8} {old : Mem} {counters : List (List CounterCall)}
  {vars : List (List VarCall)} {s t : Lifetime} {j k : ℕ} {c d : InitCall} {i : Inst} {m₀ : Mem}

theorem Lifetime.Alive.call (h : s.Alive ps date old counters vars) (hsized : d.config.Sized ps)
    (honce : Once ps ⟨s.init.shared, s.init.calls ++ [d]⟩) :
    Lifetime.Alive ps date old counters vars { s with init := ⟨s.init.shared, s.init.calls ++ [d]⟩ } := by
  have hold : ∀ {j : ℕ} {e : InitCall}, s.init.calls[j]? = some e →
      (s.init.calls ++ [d])[j]? = some e := fun hj => by
    rw [List.getElem?_append_left (lt_of_getElem?_some hj)]
    exact hj
  refine ⟨honce, fun j e hj => ?_, ?_⟩
  · rcases getElem?_concat_some hj with hj | ⟨-, rfl⟩
    · exact h.sized j e hj
    · exact hsized
  · rcases h.stage with hb | ⟨j, e, hd⟩ | ⟨i, e, m₀, ha⟩
    · exact Or.inl ⟨hb.creates, hb.phase, hb.program⟩
    · exact Or.inr (Or.inl ⟨j, e, hold hd.call, hd.pc, hd.creates, hd.file, hd.program⟩)
    · exact Or.inr (Or.inr ⟨i, e, m₀, hold ha.call, ha.creates, ha.created, ha.published, ha.run⟩)

/-- BEFORE: the first creation is entered, or there is still none. -/
theorem Lifetime.Before.access {os : Os} (h : s.Before old counters vars)
    (hs : s.access ps date k os = some t) :
    t.Before old counters vars ∨ ∃ k c, t.During ps date old counters vars k c := by
  obtain ⟨c, shared, pc, hk, hst, hinit, hprog, hopen, hphase, -⟩ := Lifetime.access_some hs
  by_cases hc : c.pc = .create
  · have hcreates : shared.creates = [k] ∧ pc = .creating := by
      simp only [InitCall.step, hc, Option.some.injEq, Prod.mk.injEq] at hst
      obtain ⟨rfl, rfl⟩ := hst
      exact ⟨by simp only [h.creates, List.nil_append], rfl⟩
    refine Or.inr ⟨k, { c with pc }, ?_, hcreates.2, by rw [hinit]; exact hcreates.1, fun _ m₀ _ => ?_, ?_⟩
    · rw [hinit]
      exact getElem?_set_self_some hk
    · simp only [Creation.Ok, Lifetime.creation, hopen hc, hprog, h.program]
      rfl
    · rw [hprog, h.program]
      rfl
  · refine Or.inl ⟨?_, (hphase hc).trans h.phase, hprog.trans h.program⟩
    rw [hinit]
    exact (InitCall.step_creates hst hc).trans h.creates

/-- DURING: the creating call returns with the memmap `__log2mem_create` ends in; the others wait. -/
theorem Lifetime.During.access {os : Os} (h : s.During ps date old counters vars j d)
    (honce : Once ps s.init) (hs : s.access ps date k os = some t) :
    t.During ps date old counters vars j d ∨ ∃ i c m₀, t.After ps date counters vars i c m₀ := by
  obtain ⟨c, shared, pc, hk, hst, hinit, hprog, -, hphase, hpop⟩ := Lifetime.access_some hs
  have hpc := honce.pcs k c hk
  by_cases hkj : k = j
  · subst hkj
    obtain rfl : c = d := Option.some.inj (hk.symm.trans h.call)
    obtain ⟨hpopulating, harrived⟩ := hpop h.pc
    simp only [InitCall.step, h.pc, Option.bind_eq_bind, Option.bind_eq_some_iff, Option.pure_def,
      Option.some.injEq, Prod.mk.injEq] at hst
    obtain ⟨⟨handle, m⟩, hc, rfl, rfl⟩ := hst
    have hcreate := create_willing hc
    have hfile := h.file handle m hcreate
    simp only [Creation.Ok, Lifetime.creation, hpopulating] at hfile
    have hm : s.program.mem = m := hfile.eq_of_arrived (headerPatches_apart _ _) (create_patches hc) harrived
    have hstart : t.program = .start m counters vars := by rw [hprog, h.program, hm]
    refine Or.inr ⟨⟨k, handle⟩, { c with pc := .assign ⟨k, handle⟩ }, m, ?_, ?_, hcreate,
      Or.inr ⟨rfl, hstart⟩, ?_⟩
    · rw [hinit]
      exact getElem?_set_self_some hk
    · rw [hinit]
      exact h.creates
    · rw [hstart]
      exact .refl
  · have hne : c.pc ≠ .create := fun hc => by
      rw [hc] at hpc
      exact absurd (hpc.2.symm.trans h.creates) (by simp)
    refine Or.inl ⟨?_, h.pc, ?_, fun h' m₀ hc => ?_, ?_⟩
    · rw [hinit, List.getElem?_set_ne hkj]
      exact h.call
    · rw [hinit]
      exact (InitCall.step_creates hst hne).trans h.creates
    · have hfile := h.file h' m₀ hc
      rwa [Lifetime.creation, ← hphase hne, ← hprog] at hfile
    · rw [hprog]
      exact h.program

/-- AFTER: the memmap is published, and no call creates it again. -/
theorem Lifetime.After.access {os : Os} (h : s.After ps date counters vars i d m₀) (honce : Once ps s.init)
    (hs : s.access ps date k os = some t) : ∃ c, t.After ps date counters vars i c m₀ := by
  obtain ⟨c, shared, pc, hk, hst, hinit, hprog, -, -, -⟩ := Lifetime.access_some hs
  have hpc := honce.pcs k c hk
  have hne : c.pc ≠ .create := fun hc => by
    rw [hc] at hpc
    exact absurd (hpc.2.symm.trans h.creates) (by simp)
  have hcreates : t.init.shared.creates = [i.creator] := by
    rw [hinit]
    exact (InitCall.step_creates hst hne).trans h.creates
  have hkept : s.init.shared.g = some i → t.init.shared.g = some i := fun hg => by
    have hstep : initStep ps s.init (.advance k os (date k)) = some t.init := by
      rw [hinit]
      simp [initStep, hk, hst]
    rcases honce.g_step hstep with he | ⟨hnone, -⟩
    · exact he.trans hg
    · exact absurd (hnone.symm.trans hg) (by simp)
  have hrun := h.run
  rw [← hprog] at hrun
  by_cases hkj : k = i.creator
  · subst hkj
    obtain rfl : c = d := Option.some.inj (hk.symm.trans h.call)
    refine ⟨{ c with pc }, by rw [hinit]; exact getElem?_set_self_some hk, hcreates, h.created, Or.inl ?_, hrun⟩
    rcases h.published with hg | ⟨hassign, -⟩
    · exact hkept hg
    · simp only [InitCall.step, hassign, Option.some.injEq, Prod.mk.injEq] at hst
      obtain ⟨rfl, -⟩ := hst
      rw [hinit]
  · refine ⟨d, ?_, hcreates, h.created, ?_, hrun⟩
    · rw [hinit, List.getElem?_set_ne hkj]
      exact h.call
    · rw [hprog]
      exact h.published.imp_left hkept

/-- Once `g_log2mem` is set, it points to the memmap that was created. -/
theorem Lifetime.After.set (h : s.After ps date counters vars i d m₀) (honce : Once ps s.init)
    (hset : s.init.shared.g ≠ none) : s.init.shared.g = some i := by
  rcases h.published with hg | ⟨hassign, -⟩
  · exact hg
  · have hnone := honce.pcs _ d h.call
    rw [hassign] at hnone
    exact absurd hnone.1 hset

/-- STEP: initialisation, creation and use keep the invariant. -/
theorem Lifetime.Alive.step_ok {a : LifeAct} (h : s.Alive ps date old counters vars) (hok : s.Ok ps a)
    (hs : s.step ps date a = some t) : t.Alive ps date old counters vars := by
  cases a with
  | init userconfig configsize =>
    obtain rfl := Option.some.inj hs
    exact h.call hok (h.once.start_call rfl trivial)
  | api =>
    obtain rfl := Option.some.inj hs
    exact h.call hok (h.once.start_call rfl trivial)
  | access k os =>
    obtain ⟨c, shared, pc, hk, hst, hinit, -⟩ := Lifetime.access_some hs
    refine ⟨by rw [hinit]; exact h.once.advance hk hst, fun j e hj => ?_, ?_⟩
    · rw [hinit] at hj
      rcases getElem?_set_some hj with ⟨-, rfl⟩ | ⟨-, hj⟩
      · exact h.sized k c hk
      · exact h.sized j e hj
    · rcases h.stage with hb | ⟨j, d, hd⟩ | ⟨i, d, m₀, ha⟩
      · exact (hb.access hs).imp_right Or.inl
      · exact Or.inr ((hd.access h.once hs).imp_left fun hd => ⟨j, d, hd⟩)
      · obtain ⟨c, ha⟩ := ha.access h.once hs
        exact Or.inr (Or.inr ⟨i, c, m₀, ha⟩)
  | create k a =>
    obtain ⟨c, u, hk, hc, hu, rfl⟩ := Lifetime.create_some hs
    have hpc := h.once.pcs k c hk
    rw [hc] at hpc
    obtain ⟨hg, hcreates⟩ := hpc
    refine ⟨h.once, h.sized, ?_⟩
    rcases h.stage with hb | ⟨j, d, hd⟩ | ⟨i, d, m₀, ha⟩
    · exact absurd (hb.creates.symm.trans hcreates) (by simp)
    · obtain rfl : k = j := by simpa using hcreates.symm.trans hd.creates
      obtain rfl : c = d := Option.some.inj (hk.symm.trans hd.call)
      refine Or.inr (Or.inl ⟨k, c, hk, hc, hcreates, fun h' m₀ hcr => (hd.file h' m₀ hcr).step hcr hu, ?_⟩)
      rw [hd.program]
      rfl
    · obtain rfl : k = i.creator := by simpa using hcreates.symm.trans ha.creates
      obtain rfl : c = d := Option.some.inj (hk.symm.trans ha.call)
      rcases ha.published with hset | ⟨hassign, -⟩
      · exact absurd (hg.symm.trans hset) (by simp)
      · exact absurd (hc.symm.trans hassign) (by simp)
  | move k mv =>
    obtain ⟨c, i, program, hk, hc, hp, rfl⟩ := Lifetime.move_some hs
    have hpc := h.once.pcs k c hk
    rw [hc] at hpc
    obtain ⟨hg, -⟩ := hpc
    have hmade := h.once.made i hg.symm
    refine ⟨h.once, h.sized, ?_⟩
    rcases h.stage with hb | ⟨j, d, hd⟩ | ⟨i', d, m₀, ha⟩
    · exact absurd (hb.creates.symm.trans hmade.1) (by simp)
    · have hnone := h.once.pcs j d hd.call
      rw [hd.pc] at hnone
      exact absurd (hnone.1.symm.trans hg.symm) (by simp)
    · have hset := ha.set h.once (by rw [← hg]; simp)
      obtain rfl : i = i' := Option.some.inj (hg.trans hset)
      have hsized := h.sized _ d ha.call
      have hm := Program.mapped_run (G := hsized.geometry) hsized.numVars ha.created ha.run
      have hrows : s.program.mem.word 40 = (normalise d.config).numRows.toNat := hm.header.numRows
      have htimely : s.program.Timely (normalise d.config).numRows.toNat mv := hrows ▸ hok
      exact Or.inr (Or.inr ⟨i, d, m₀, ha.call, ha.creates, ha.created, Or.inl hset,
        ha.run.tail htimely hp⟩)

/-- RUN: the invariant holds at any moment. -/
theorem Lifetime.Alive.run
    (hrun : Run (Lifetime.step ps date) (Lifetime.Ok ps) (.start old counters vars) s) :
    s.Alive ps date old counters vars :=
  hrun.invariant ⟨Once.start, by simp [Lifetime.start, InitState.start], Or.inl ⟨rfl, rfl, rfl⟩⟩
    fun _ _ _ h hok hs => h.step_ok hok hs

/-! ### The file at any moment -/

/-- What a file that nobody uses shows once its old header is gone. -/
def Lifetime.Unused (ps : PageSize) (old : Mem) (s : Lifetime) : Prop :=
  s.phase = .populating ∨ old.size = 0 ∨ s.program.mem.word 56 = 0 →
    log2memAttach ps s.program.mem = none ∨ ShownEmpty ps s.program.mem

theorem Lifetime.Before.unused (h : s.Before old counters vars) : s.Unused ps old := by
  rintro (hphase | hempty | hzero)
  · exact absurd (h.phase.symm.trans hphase) (by simp)
  · refine Or.inl ?_
    rw [h.program]
    simp [log2memAttach, Program.start, hempty]
  · exact Or.inl (log2memAttach_refuses (by omega))

theorem Lifetime.During.unused (h : s.During ps date old counters vars k d) (hsized : d.config.Sized ps) :
    s.Unused ps old := fun hgone => by
  obtain ⟨h', m₀, hc⟩ := create_fits hsized.fits (date k)
  exact (h.file h' m₀ hc).readable hsized.fits hc hgone

end Steps

/-- LIFE: stop a process at any moment of its life. `__log2mem_create` was entered at most once. As long as
    `g_log2mem` is not set no call has done anything to the file; before the creation it is as it was left,
    and once its old header is gone it is refused or shows an empty memmap. From then on everything that is
    done to the file is a run of a program on the one memmap that was created, through the right handle, and
    the tool attaches to it with the same sections and prints every one of them. -/
theorem life_readable {ps : PageSize} {date : ℕ → List UInt8} {old : Mem}
    {counters : List (List CounterCall)} {vars : List (List VarCall)} {s : Lifetime}
    (hrun : Run (Lifetime.step ps date) (Lifetime.Ok ps) (.start old counters vars) s) :
    s.init.shared.creates.length ≤ 1 ∧
    (s.init.shared.g = none → s.program = .start s.program.mem counters vars ∧
      (s.init.shared.creates = [] → s.program.mem = old) ∧ s.Unused ps old) ∧
    ∀ i, s.init.shared.g = some i → ∃ (G : Geometry) (c : InitCall) (m₀ : Mem),
      G.ps = ps ∧ G.config = c.config ∧ s.init.calls[i.creator]? = some c ∧
      create ⟨true, true⟩ ps (date i.creator) c.config = some (i.handle, m₀) ∧
      Run (Program.step i.handle) (Program.Timely G.numRows) (.start m₀ counters vars) s.program ∧
      log2memAttach ps s.program.mem = some i.handle ∧
      ∀ (g : Globals) (f : Printf) (fuel : ℕ), G.rowLen < fuel → ∀ shown,
        ∃ text, printSections g f fuel ps i.handle s.program.mem shown = some text := by
  have h := Lifetime.Alive.run hrun
  rcases h.stage with hb | ⟨k, d, hd⟩ | ⟨i, d, m₀, ha⟩
  · refine ⟨by simp [hb.creates], fun _ => ⟨by rw [hb.program]; rfl, fun _ => by rw [hb.program]; rfl,
      hb.unused⟩, fun i hi => ?_⟩
    exact absurd (hb.creates.symm.trans (h.once.made i hi).1) (by simp)
  · refine ⟨by simp [hd.creates], fun _ => ⟨hd.program, fun hnil => ?_, hd.unused (h.sized k d hd.call)⟩,
      fun i hi => ?_⟩
    · exact absurd (hnil.symm.trans hd.creates) (by simp)
    · have hunset := h.once.pcs k d hd.call
      rw [hd.pc] at hunset
      exact absurd (hunset.1.symm.trans hi) (by simp)
  · have hsized := h.sized _ d ha.call
    refine ⟨by simp [ha.creates], fun hnone => ?_, fun i' hi => ?_⟩
    · rcases ha.published with hset | ⟨-, hstart⟩
      · exact absurd (hnone.symm.trans hset) (by simp)
      · have hmem : s.program.mem = m₀ := by rw [hstart]; rfl
        refine ⟨by rw [hmem, hstart], fun hnil => absurd (hnil.symm.trans ha.creates) (by simp), fun _ => ?_⟩
        rw [hmem]
        exact torn_readable hsized.fits ha.created ⟨rfl, fun _ => Or.inr rfl⟩
    · obtain rfl : i = i' := Option.some.inj ((ha.set h.once (by rw [hi]; simp)).symm.trans hi)
      obtain ⟨hattach, -, hprinted⟩ :=
        Program.printed (G := hsized.geometry) hsized.numVars ha.created ha.run
      exact ⟨hsized.geometry, d, m₀, rfl, rfl, ha.call, ha.created, ha.run, hattach,
        fun g f fuel hfuel => (hprinted g f fuel hfuel).1⟩

/-! ### Whatever a program can do, it can do in its lifetime -/

section Lives
variable {ps : PageSize} (date : ℕ → List UInt8) (counters : List (List CounterCall))
  (vars : List (List VarCall)) {c : InitCall} {x : InitShared} {h : Handle} {m₀ : Mem}

/-- A creation goes on inside the call that has entered it. -/
theorem Lifetime.creation_reach (x : InitShared) {u v : Creation} (hc : c.pc = .creating)
    (hrun : Run (Creation.step ps c.config (date 0)) (fun _ _ => True) u v) :
    Run (Lifetime.step ps date) (Lifetime.Ok ps) ⟨⟨x, [c]⟩, u.phase, .start u.file counters vars⟩
      ⟨⟨x, [c]⟩, v.phase, .start v.file counters vars⟩ := by
  let img (u : Creation) : Lifetime := ⟨⟨x, [c]⟩, u.phase, .start u.file counters vars⟩
  refine hrun.map img fun t a u _ _ hs => .single (a := .create 0 a) trivial ?_
  have hcreation : (img t).creation.step ps c.config (date 0) a = some u := hs
  simp only [Lifetime.step, img, List.getElem?_cons_zero, hc, Option.bind_eq_bind,
    Option.bind_some] at hcreation ⊢
  rw [hcreation]
  rfl

/-- A program goes on in a call that has loaded `g_log2mem`. -/
theorem Lifetime.program_reach {G : Geometry} (x : InitShared) {i : Inst} (hc : c.pc = .used (some i))
    {phase : CreatePhase} {p q : Program}
    (hmapped : ∀ t, Run (Program.step i.handle) (Program.Timely G.numRows) p t → Mapped G t.mem)
    (hrun : Run (Program.step i.handle) (Program.Timely G.numRows) p q) :
    Run (Lifetime.step ps date) (Lifetime.Ok ps) ⟨⟨x, [c]⟩, phase, p⟩ ⟨⟨x, [c]⟩, phase, q⟩ := by
  let img (p : Program) : Lifetime := ⟨⟨x, [c]⟩, phase, p⟩
  refine hrun.map img fun t mv u ht hok hs => .single (a := .move 0 mv) ?_ ?_
  · have hrows : t.mem.word 40 = G.numRows := (hmapped t ht).header.numRows
    show t.Timely (t.mem.word 40) mv
    rw [hrows]
    exact hok
  · simp only [Lifetime.step, img, List.getElem?_cons_zero, hc, Option.bind_eq_bind, Option.bind_some, hs,
      Option.map_some]

theorem Lifetime.access_reach (x' : InitShared) (pc : InitPc) {phase : CreatePhase} {p : Program}
    (hst : c.step ps ⟨true, true⟩ (date 0) 0 x = some (x', pc)) (hne : c.pc ≠ .create)
    (hpop : c.pc = .creating → Lifetime.Populated c.config (date 0) ⟨⟨x, [c]⟩, phase, p⟩) :
    Run (Lifetime.step ps date) (Lifetime.Ok ps) ⟨⟨x, [c]⟩, phase, p⟩ ⟨⟨x', [{ c with pc }]⟩, phase, p⟩ := by
  refine .single (a := .access 0 ⟨true, true⟩) trivial ?_
  have hinit : initStep ps ⟨x, [c]⟩ (.advance 0 ⟨true, true⟩ (date 0)) = some ⟨x', [{ c with pc }]⟩ := by
    simp [initStep, hst]
  simp only [Lifetime.step, Lifetime.access, List.getElem?_cons_zero, Option.bind_eq_bind, Option.bind_some,
    hinit]
  cases hc : c.pc with
  | create => exact absurd hc hne
  | creating => simp only [if_pos (hpop hc)]
  | _ => rfl

/-- The first call of a process enters `__log2mem_create`. -/
theorem Lifetime.enters {userconfig : ℕ → UInt8} {configsize : ℕ}
    (hsized : (copyConfig userconfig configsize).Sized ps) (old : Mem) :
    Run (Lifetime.step ps date) (Lifetime.Ok ps) (.start old counters vars)
      ⟨⟨⟨none, true, none, [0]⟩, [⟨.init userconfig configsize, .creating⟩]⟩, .opened,
        .start old counters vars⟩ := by
  refine .trans (.single (a := .init userconfig configsize) hsized rfl) ?_
  refine (Lifetime.access_reach _ ⟨none, false, none, []⟩ .lock rfl (by simp) (by simp)).trans ?_
  refine (Lifetime.access_reach _ ⟨none, true, none, []⟩ .retest rfl (by simp) (by simp)).trans ?_
  refine (Lifetime.access_reach _ ⟨none, true, none, []⟩ .create rfl (by simp) (by simp)).trans ?_
  exact .single (a := .access 0 ⟨true, true⟩) trivial rfl

/-- It leaves it with the memmap, and publishes it. -/
theorem Lifetime.publishes {e : InitEntry}
    (hc : create ⟨true, true⟩ ps (date 0) (InitCall.config ⟨e, .creating⟩) = some (h, m₀)) :
    Run (Lifetime.step ps date) (Lifetime.Ok ps)
      ⟨⟨⟨none, true, none, [0]⟩, [⟨e, .creating⟩]⟩, .populating, .start m₀ counters vars⟩
      ⟨⟨⟨some ⟨0, h⟩, false, some m₀, [0]⟩, [⟨e, .used (some ⟨0, h⟩)⟩]⟩, .populating,
        .start m₀ counters vars⟩ := by
  have hstep : InitCall.step ps ⟨true, true⟩ (date 0) 0 ⟨e, .creating⟩ ⟨none, true, none, [0]⟩ =
      some (⟨none, true, some m₀, [0]⟩, .assign ⟨0, h⟩) := by
    simp only [InitCall.step, hc, Option.bind_eq_bind, Option.bind_some, Option.pure_def]
  refine (Lifetime.access_reach _ _ _ hstep (by simp) fun _ =>
    ⟨rfl, Mem.storeAll_get (headerPatches_apart _ _) (create_patches hc)⟩).trans ?_
  refine (Lifetime.access_reach _ ⟨some ⟨0, h⟩, true, some m₀, [0]⟩ .unlock rfl (by simp)
    (by simp)).trans ?_
  refine (Lifetime.access_reach _ ⟨some ⟨0, h⟩, false, some m₀, [0]⟩ .ready rfl (by simp)
    (by simp)).trans ?_
  exact Lifetime.access_reach _ _ _ rfl (by simp) (by simp)

/-- LIVES: whatever a program can do to a memmap that was just created, it can do in the life of a process,
    whatever was in the file before. -/
theorem Lifetime.lives {G : Geometry} {userconfig : ℕ → UInt8} {configsize : ℕ} {p : Program}
    (hconfig : copyConfig userconfig configsize = G.config) (hv : 1 ≤ G.numVars)
    (hc : create ⟨true, true⟩ G.ps (date 0) G.config = some (h, m₀))
    (hrun : Run (Program.step h) (Program.Timely G.numRows) (.start m₀ counters vars) p) (old : Mem) :
    ∃ s, Run (Lifetime.step G.ps date) (Lifetime.Ok G.ps) (.start old counters vars) s ∧ s.program = p ∧
      s.init.shared.g = some ⟨0, h⟩ := by
  have hsized : (copyConfig userconfig configsize).Sized G.ps := by
    rw [hconfig]
    exact ⟨G.cfg_eq ▸ G.fits, G.cfg_eq ▸ hv⟩
  rw [← hconfig] at hc
  have henter := Lifetime.enters date counters vars hsized old
  have hcreate := Lifetime.creation_reach date counters vars ⟨none, true, none, [0]⟩
    (c := ⟨.init userconfig configsize, .creating⟩) rfl (creation_runs hc old)
  have hpublish := Lifetime.publishes (e := .init userconfig configsize) date counters vars hc
  rw [hconfig] at hc
  have hmapped : ∀ t, Run (Program.step h) (Program.Timely G.numRows) (.start m₀ counters vars) t →
      Mapped G t.mem := fun t ht => Program.mapped_run hv hc ht
  exact ⟨_, ((henter.trans hcreate).trans hpublish).trans
    (Lifetime.program_reach (i := ⟨0, h⟩) date _ rfl hmapped hrun), rfl, rfl⟩

end Lives

/-- A process that has created its memmap over 100 bytes of an older file, stepped a counter, set a variable
    and logged a row: the file is attached to. -/
theorem life_readable_busy : ∃ (s : Lifetime) (i : Inst), s.program.owners.length = 1 ∧
    s.init.shared.g = some i ∧ s.init.shared.creates.length ≤ 1 ∧
    log2memAttach twoRows.ps s.program.mem = some i.handle := by
  obtain ⟨m₀, hc, -⟩ := twoRows.created []
  obtain ⟨p, hrun, hlen, -, -⟩ := busy_run hc
  obtain ⟨s, hlife, rfl, hg⟩ := Lifetime.lives (fun _ => []) _ _
    (copyConfig_image twoRows.config) (by decide) hc hrun
    ⟨100, fun _ => 7⟩
  obtain ⟨hcreates, -, hset⟩ := life_readable hlife
  obtain ⟨G, c, m₁, -, -, -, -, -, hattach, -⟩ := hset _ hg
  exact ⟨s, _, hlen, hg, hcreates, hattach⟩

end Log2mem
