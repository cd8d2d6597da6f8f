import Log2mem.System.Footprint

/-! A whole program at work on one memmap: owners of rows, threads that call the counters, threads that
    set variables, and every memory access of theirs in any order.

    The sections keep the kinds of accesses apart, so each kind runs as if it were alone: whatever the
    others do, its accesses make the same run as on a memmap of its own, and leave the same bytes there.
    What holds of every run of one kind holds of it in every run of all.

        one run      r₀  c₀  r₁  v₀  c₁  r₂ …
        rows alone   r₀ ──── r₁ ──────── r₂        the same owners, nextrow and rows
        counters     ──  c₀ ───────  c₁            the same counters and labels
        vars         ──────────  v₀                the same variables                    -/

namespace Log2mem
open Schemes

/-- A memmap, the owners of its rows, and what the other threads have still to do. -/
structure Program where
  mem : Mem
  owners : List Owner
  counters : List (List CounterOp)
  vars : List (List VarOp)

/-- Some thread moves. -/
inductive Move where
  | row (a : Act)
  | counter (k : ℕ)
  | var (k : ℕ)

def Move.part : Move → Part
  | row _ => .rows
  | counter _ => .counters
  | var _ => .vars

namespace Program

/-- What the owners of rows see. -/
def onRows (s : Program) : State := ⟨s.mem, s.owners⟩

/-- What the threads that call the counters see. -/
def onCounters (s : Program) : Threads Mem CounterOp := ⟨s.mem, s.counters⟩

/-- What the threads that set variables see. -/
def onVars (s : Program) : Threads Mem VarOp := ⟨s.mem, s.vars⟩

/-- One step; `none` is a move that is not possible, or a fault. -/
def step (h : Handle) (s : Program) : Move → Option Program
  | .row a => (Log2mem.step h s.onRows a).map fun t => { s with mem := t.mem, owners := t.owners }
  | .counter k => (Threads.step (counterMicro h) s.onCounters k).map fun t =>
      { s with mem := t.shared, counters := t.todo }
  | .var k => (Threads.step (varMicro h) s.onVars k).map fun t => { s with mem := t.shared, vars := t.todo }

/-- No acquisition overtakes by a full ring an owner that is still writing. -/
def Timely (numRows : ℕ) (s : Program) : Move → Prop
  | .row a => Log2mem.Timely numRows s.onRows a
  | _ => True

instance (numRows : ℕ) (s : Program) : ∀ a, Decidable (Timely numRows s a)
  | .row a => inferInstanceAs (Decidable (Log2mem.Timely numRows s.onRows a))
  | .counter _ | .var _ => .isTrue trivial

/-- No row is acquired yet, and every thread is about to make its calls. -/
def start (m : Mem) (counters : List (List CounterCall)) (vars : List (List VarCall)) : Program :=
  ⟨m, [], (counterThreads m counters).todo, (varThreads m vars).todo⟩

/-- The owners are those of `r`, and so are the bytes they see. -/
def LikeRows (G : Geometry) (s : Program) (r : State) : Prop :=
  r.owners = s.owners ∧ Mem.Agree (G.seen .rows) s.mem r.mem

/-- The threads that call the counters have left to do what they have in `p`, and see the same bytes. -/
def LikeCounters (G : Geometry) (s : Program) (p : Threads Mem CounterOp) : Prop :=
  p.todo = s.counters ∧ Mem.Agree (G.seen .counters) s.mem p.shared

/-- The threads that set variables have left to do what they have in `q`, and see the same bytes. -/
def LikeVars (G : Geometry) (s : Program) (q : Threads Mem VarOp) : Prop :=
  q.todo = s.vars ∧ Mem.Agree (G.seen .vars) s.mem q.shared

/-- A part is as in a run of its own from `m₀`. -/
def Alone (G : Geometry) (m₀ : Mem) (counters : List (List CounterCall)) (vars : List (List VarCall)) :
    Part → Program → Prop
  | .rows, s => ∃ r, Run (Log2mem.step G.handle) (Log2mem.Timely G.numRows) ⟨m₀, []⟩ r ∧ s.LikeRows G r
  | .counters, s => ∃ p, Threads.Reaches (counterMicro G.handle) (counterThreads m₀ counters) p ∧
      s.LikeCounters G p
  | .vars, s => ∃ q, Threads.Reaches (varMicro G.handle) (varThreads m₀ vars) q ∧ s.LikeVars G q

/-- What a part guarantees the others: it writes no bytes and moves no threads of theirs. -/
structure Guarantee (G : Geometry) (i : Part) (s t : Program) : Prop where
  frame : Mem.Frame (G.written i) s.mem t.mem
  owners : i ≠ .rows → t.owners = s.owners
  counters : i ≠ .counters → t.counters = s.counters
  vars : i ≠ .vars → t.vars = s.vars

end Program

section Parts
variable {G : Geometry} {m₀ : Mem} {counters : List (List CounterCall)} {vars : List (List VarCall)}
  {s t : Program}

/-- RELY: a part goes on as if alone where another part moves. -/
theorem Program.Alone.rely {i j : Part} (hij : i ≠ j) (hg : Program.Guarantee G i s t)
    (h : Program.Alone G m₀ counters vars j s) : Program.Alone G m₀ counters vars j t := by
  have hsame : ∀ {m : Mem}, Mem.Agree (G.seen j) s.mem m → Mem.Agree (G.seen j) t.mem m := fun ha =>
    (hg.frame.agree fun x hx hw => G.written_apart hij x hw hx).symm.trans ha
  cases j with
  | rows =>
    obtain ⟨r, hrun, hown, ha⟩ := h
    exact ⟨r, hrun, hown.trans (hg.owners hij).symm, hsame ha⟩
  | counters =>
    obtain ⟨p, hrun, htodo, ha⟩ := h
    exact ⟨p, hrun, htodo.trans (hg.counters hij).symm, hsame ha⟩
  | vars =>
    obtain ⟨q, hrun, htodo, ha⟩ := h
    exact ⟨q, hrun, htodo.trans (hg.vars hij).symm, hsame ha⟩

/-- ROWS: a move of an owner. -/
theorem Program.Alone.row {a : Act} (hm : Mapped G m₀) (hn : m₀.word 28 = 0)
    (hz : ∀ x, 92 ≤ x → m₀.byte x = 0) (h : Program.Alone G m₀ counters vars .rows s)
    (hok : Log2mem.Timely G.numRows s.onRows a) (hs : s.step G.handle (.row a) = some t) :
    Program.Alone G m₀ counters vars .rows t ∧ Program.Guarantee G .rows s t := by
  obtain ⟨⟨m, os⟩, hrun, rfl, ha⟩ := h
  obtain ⟨u, hu, rfl⟩ := Option.map_eq_some_iff.mp hs
  have hr : Ring G ⟨m, s.owners⟩ :=
    hrun.invariant (Ring.start hm hn hz) fun t a u hr hok hs => hr.step_ok hok hs
  have hr' : Ring G s.onRows := hr.agree ha.symm
  obtain ⟨n, hn, hag⟩ := hr'.step_local ha hu
  refine ⟨⟨_, hrun.tail ?_ hn, rfl, hag⟩,
    ⟨hr'.step_frame hu, fun h => absurd rfl h, fun _ => rfl, fun _ => rfl⟩⟩
  cases a with
  | acquire => exact hok
  | advance | append | finish => trivial

/-- COUNTERS: a move of a thread that calls the counters. -/
theorem Program.Alone.counter {k : ℕ} (hm : Mapped G m₀)
    (h : Program.Alone G m₀ counters vars .counters s) (hs : s.step G.handle (.counter k) = some t) :
    Program.Alone G m₀ counters vars .counters t ∧ Program.Guarantee G .counters s t := by
  obtain ⟨⟨m, todo⟩, hrun, rfl, ha⟩ := h
  obtain ⟨u, hu, rfl⟩ := Option.map_eq_some_iff.mp hs
  have hops : s.onCounters.Holds (CounterOp.InTable G.numCounters) :=
    (counterMicro_keeps.run hm.counterTables (holds_counterThreads m₀ counters) hrun).2
  obtain ⟨n, hn, hag⟩ := Threads.step_local (fun a hop => counterMicro_local (hops a hop)) ha hu
  have hframe : Mem.Frame (G.written .counters) s.mem u.shared :=
    Threads.step_frame (fun a hop _ _ he => counterMicro_frame (hops a hop) he) hu
  exact ⟨⟨_, hrun.tail trivial hn, rfl, hag⟩, ⟨hframe, fun _ => rfl, fun h => absurd rfl h, fun _ => rfl⟩⟩

theorem Mapped.raced_fresh (hm : Mapped G m₀) (hv : 1 ≤ G.numVars) (hz : ∀ x, 92 ≤ x → m₀.byte x = 0)
    (calls : List VarCall) : Raced G.handle G.numVars calls m₀ :=
  .fresh (hm.varTables hv) ((hm.varTables hv).fresh hz)

/-- VARS: a move of a thread that sets variables. -/
theorem Program.Alone.var {k : ℕ} (hm : Mapped G m₀) (hv : 1 ≤ G.numVars)
    (hz : ∀ x, 92 ≤ x → m₀.byte x = 0) (h : Program.Alone G m₀ counters vars .vars s)
    (hs : s.step G.handle (.var k) = some t) :
    Program.Alone G m₀ counters vars .vars t ∧ Program.Guarantee G .vars s t := by
  obtain ⟨⟨m, todo⟩, hrun, rfl, ha⟩ := h
  obtain ⟨u, hu, rfl⟩ := Option.map_eq_some_iff.mp hs
  have hfresh := hm.raced_fresh hv hz vars.flatten
  have hops : s.onVars.Holds (VarOp.From G.numVars vars.flatten) :=
    (varMicro_keeps.run hfresh (from_varThreads G.numVars m₀ vars) hrun).2
  obtain ⟨n, hn, hag⟩ := Threads.step_local (fun a hop => varMicro_local hv (hops a hop)) ha hu
  have hframe : Mem.Frame (G.written .vars) s.mem u.shared :=
    Threads.step_frame (fun a hop _ _ he => varMicro_frame hv (hops a hop) he) hu
  exact ⟨⟨_, hrun.tail trivial hn, rfl, hag⟩, ⟨hframe, fun _ => rfl, fun _ => rfl, fun h => absurd rfl h⟩⟩

/-- The kinds of accesses are parts of the whole. -/
theorem program_parts (hm : Mapped G m₀) (hv : 1 ≤ G.numVars) (hn : m₀.word 28 = 0)
    (hz : ∀ x, 92 ≤ x → m₀.byte x = 0) : Parts (Program.step G.handle) (Program.Timely G.numRows)
      Move.part (Program.Alone G m₀ counters vars) (Program.Guarantee G) where
  own s a t h hok hs := by
    cases a with
    | row a => exact h.row hm hn hz hok hs
    | counter k => exact h.counter hm hs
    | var k => exact h.var hm hv hz hs
  rely i j s t hij hg h := h.rely hij hg

theorem Program.Alone.start (G : Geometry) (m : Mem) (counters : List (List CounterCall))
    (vars : List (List VarCall)) (i : Part) :
    Program.Alone G m counters vars i (Program.start m counters vars) := by
  have hsame : ∀ T, Mem.Agree T m m := fun T => ⟨rfl, fun _ _ => rfl⟩
  cases i with
  | rows => exact ⟨_, .refl, rfl, hsame _⟩
  | counters | vars => exact ⟨_, .refl, rfl, hsame _⟩

end Parts

/-! ### What a part can do alone, it can do among the others -/

section Among
variable {G : Geometry} {s : Program}

/-- Owners of rows. -/
theorem Program.LikeRows.run {r r' : State} (hr : Ring G r) (hl : s.LikeRows G r)
    (hrun : Run (Log2mem.step G.handle) (Log2mem.Timely G.numRows) r r') : Ring G r' ∧
      ∃ t, Run (Program.step G.handle) (Program.Timely G.numRows) s t ∧ t.LikeRows G r' ∧
        t.counters = s.counters ∧ t.vars = s.vars := by
  induction hrun with
  | refl => exact ⟨hr, s, .refl, hl, rfl, rfl⟩
  | tail _ hok hs ih =>
    rename_i r₁ r₂ a _
    obtain ⟨hr₁, t, ht, ⟨hown, ha⟩, hc, hv⟩ := ih
    obtain ⟨n, hn, hag⟩ := hr₁.step_local ha.symm hs
    rw [hown] at hn
    refine ⟨hr₁.step_ok hok hs, ⟨n, r₂.owners, t.counters, t.vars⟩, ht.tail (a := .row a) ?_ ?_,
      ⟨rfl, hag.symm⟩, hc, hv⟩
    · cases a with
      | acquire =>
        simp only [Log2mem.Timely, hown] at hok
        exact hok
      | advance | append | finish => trivial
    · exact congrArg (Option.map _) hn

/-- Threads that call the counters make their runs in the midst of the others. -/
theorem Program.counters_reach {h : Handle} {N : ℕ} {p : Threads Mem CounterOp}
    (hrun : Threads.Reaches (counterMicro h) s.onCounters p) :
    Run (Program.step h) (Program.Timely N) s { s with mem := p.shared, counters := p.todo } :=
  hrun.map (fun p => { s with mem := p.shared, counters := p.todo }) fun _ k _ _ _ hs =>
    .single (a := .counter k) trivial (congrArg (Option.map _) hs)

theorem Program.vars_reach {h : Handle} {N : ℕ} {q : Threads Mem VarOp}
    (hrun : Threads.Reaches (varMicro h) s.onVars q) :
    Run (Program.step h) (Program.Timely N) s { s with mem := q.shared, vars := q.todo } :=
  hrun.map (fun q => { s with mem := q.shared, vars := q.todo }) fun _ k _ _ _ hs =>
    .single (a := .var k) trivial (congrArg (Option.map _) hs)

end Among

/-- ALONE: in every run of a program on a fresh memmap, with rows, counters and variables in use at once
    and no owner of a row overtaken as it writes, each of the three kinds of accesses is where a run of
    that kind alone can be: its threads have the same left to do, and the bytes it reads and writes are
    the same. Whatever it could go on to do alone, it can do among the others, and leaves them alone. -/
theorem each_as_alone {G : Geometry} {os : Os} {date : List UInt8} {h : Handle} {m₀ : Mem}
    {counters : List (List CounterCall)} {vars : List (List VarCall)} {s : Program}
    (hv : 1 ≤ G.numVars) (hc : create os G.ps date G.config = some (h, m₀))
    (hrun : Run (Program.step h) (Program.Timely G.numRows) (.start m₀ counters vars) s) :
    (∃ r, Run (step h) (Timely G.numRows) ⟨m₀, []⟩ r ∧ s.LikeRows G r ∧
      ∀ r', Run (step h) (Timely G.numRows) r r' →
        ∃ t, Run (Program.step h) (Program.Timely G.numRows) s t ∧ t.LikeRows G r' ∧
          t.counters = s.counters ∧ t.vars = s.vars) ∧
    (∃ p, Threads.Reaches (counterMicro h) (counterThreads m₀ counters) p ∧ s.LikeCounters G p ∧
      ∀ p', Threads.Reaches (counterMicro h) p p' →
        ∃ t, Run (Program.step h) (Program.Timely G.numRows) s t ∧ t.LikeCounters G p' ∧
          t.owners = s.owners ∧ t.vars = s.vars) ∧
    ∃ q, Threads.Reaches (varMicro h) (varThreads m₀ vars) q ∧ s.LikeVars G q ∧
      ∀ q', Threads.Reaches (varMicro h) q q' →
        ∃ t, Run (Program.step h) (Program.Timely G.numRows) s t ∧ t.LikeVars G q' ∧
          t.owners = s.owners ∧ t.counters = s.counters := by
  obtain ⟨rfl, hm, hn, hz⟩ := G.of_create hc
  have halone := (program_parts hm hv hn hz).run (Program.Alone.start G m₀ counters vars) hrun
  refine ⟨?_, ?_, ?_⟩
  · obtain ⟨r, hr, hl⟩ := halone .rows
    have hring : Ring G r := hr.invariant (Ring.start hm hn hz) fun t a u hr hok hs => hr.step_ok hok hs
    exact ⟨r, hr, hl, fun r' hgo => (hl.run hring hgo).2⟩
  · obtain ⟨⟨m, todo⟩, hp, rfl, ha⟩ := halone .counters
    obtain ⟨ht, hops⟩ := counterMicro_keeps.run hm.counterTables (holds_counterThreads m₀ counters) hp
    refine ⟨_, hp, ⟨rfl, ha⟩, fun p' hgo => ?_⟩
    obtain ⟨n, hreach, hag⟩ := Threads.run_local counterMicro_keeps (fun a hop => counterMicro_local hop)
      ht hops ha.symm hgo
    exact ⟨_, Program.counters_reach (s := s) hreach, ⟨rfl, hag.symm⟩, rfl, rfl⟩
  · obtain ⟨⟨m, todo⟩, hq, rfl, ha⟩ := halone .vars
    have hfresh := hm.raced_fresh hv hz vars.flatten
    obtain ⟨ht, hops⟩ := varMicro_keeps.run hfresh (from_varThreads G.numVars m₀ vars) hq
    refine ⟨_, hq, ⟨rfl, ha⟩, fun q' hgo => ?_⟩
    obtain ⟨n, hreach, hag⟩ := Threads.run_local varMicro_keeps (fun a hop => varMicro_local hv hop)
      ht hops ha.symm hgo
    exact ⟨_, Program.vars_reach (s := s) hreach, ⟨rfl, hag.symm⟩, rfl, rfl⟩

theorem busy_run {m₀ : Mem} (hc : create ⟨true, true⟩ twoRows.ps [] twoRows.config =
    some (twoRows.handle, m₀)) : ∃ s, Run (Program.step twoRows.handle) (Program.Timely twoRows.numRows)
      (.start m₀ [[.incr 5]] [[.intSet 4 7]]) s ∧
      s.owners.length = 1 ∧ s.counters = [[]] ∧ s.vars = [[]] := by
  obtain ⟨-, hm, hn, hz⟩ := twoRows.of_create hc
  have hv : 1 ≤ twoRows.numVars := by decide
  -- the counter
  obtain ⟨m₁, e₁, -, f₁⟩ := hm.counterAdd_spec 5 1
  have hw₁ : Mem.Frame (twoRows.written .counters) m₀ m₁ :=
    f₁.mono ((Set.Ico_subset_Ico_right (by unfold Geometry.counter; omega)).trans
      (twoRows.counter_seen ⟨by omega, by exact_mod_cast twoRows.counterOf_lt 5⟩))
  have hm₁ : Mapped twoRows m₁ := hm.frame hw₁ fun x hx => by
    have := (twoRows.counterBytes_aside.1 x hx).1
    omega
  have run₁ := Program.counters_reach (N := twoRows.numRows)
    (s := .start m₀ [[.incr 5]] [[.intSet 4 7]]) (CounterCall.reaches (c := .incr 5) e₁)
  -- the variable
  obtain ⟨m₂, e₂, -, -, -, f₂⟩ := (hm₁.varTables hv).varSet_spec .int (rfl : (4 : UInt32).toNat % 1 = 0) 7
  have hw₂ : Mem.Frame (twoRows.written .vars) m₁ m₂ :=
    f₂.mono (twoRows.var_seen hv (.intSet 4 7) (le_refl _))
  have run₂ := Program.vars_reach (N := twoRows.numRows)
    (s := ⟨m₁, [], [[]], [[.call (.intSet 4 7)]]⟩) (VarCall.reaches (c := .intSet 4 7) e₂)
  -- the row, on the memmap that looks to its owner as it was
  obtain ⟨r, hr, hlen, -, -⟩ := exists_quiet hc ⟨1, 2, 3, 4, 5, 6⟩ 120 1
  have hlike : Program.LikeRows twoRows ⟨m₂, [], [[]], [[]]⟩ ⟨m₀, []⟩ :=
    ⟨rfl, ((hw₁.agree fun x hx hw => twoRows.written_apart (by decide) x hw hx).trans
      (hw₂.agree fun x hx hw => twoRows.written_apart (by decide) x hw hx)).symm⟩
  obtain ⟨-, t, run₃, ⟨hown, -⟩, hcs, hvs⟩ := hlike.run (Ring.start hm hn hz) hr
  exact ⟨t, (run₁.trans run₂).trans run₃, hown ▸ hlen, hcs, hvs⟩

/-- Alone, the thread of the counter has finished as well, so has that of the variable, and one row is
    owned. -/
theorem each_as_alone_busy : ∃ m₀ s r p q, create ⟨true, true⟩ twoRows.ps [] twoRows.config =
    some (twoRows.handle, m₀) ∧ Program.LikeRows twoRows s r ∧ r.owners.length = 1 ∧
    s.LikeCounters twoRows p ∧ p.Finished ∧ s.LikeVars twoRows q ∧ q.Finished := by
  obtain ⟨m₀, hc, -⟩ := twoRows.created []
  obtain ⟨s, hrun, hlen, hcs, hvs⟩ := busy_run hc
  obtain ⟨⟨r, -, hr, -⟩, ⟨p, -, hp, -⟩, q, -, hq, -⟩ := each_as_alone (by decide) hc hrun
  refine ⟨m₀, s, r, p, q, hc, hr, by rw [hr.1, hlen], hp, ?_, hq, ?_⟩
  · simp [Threads.Finished, hp.1, hcs]
  · simp [Threads.Finished, hq.1, hvs]

end Log2mem
