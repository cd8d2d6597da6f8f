import Log2mem.Dump.Headings
import Log2mem.System.Program
import Log2mem.System.Report

/-! The file at any instant: what the tool shows of a memmap whose program was stopped or killed between
    any two accesses.

    The file is attached to with the same sections and every section is printed. A slot shows the records
    its owner has completed so far under its id. Only between the first store of a header and `datalen = 0`
    is a row shown that never was: the records of the row before, all of them, under a header that is
    already the next row's in the fields stored so far. What a counter shows and what is still to be added
    to it make up the sum of the amounts, and a variable shows nothing that no call has put there.

        program   … write record │ datalen += totlen …          tool
        killed here ─────────────┘  the record does not count ──▶ prints the records before it
        program   … id = rowid │ datalen = 0 …
        killed here ───────────┘  ──▶ prints the records of the row before under the new id -/

namespace Log2mem
open Schemes

/-- What is in the slot of an acquisition that is retained. -/
structure RowShown (G : Geometry) (s : State) (k : ℕ) (o : Owner) : Prop where
  /-- the id, of the row before until it is stored, zero in a blank slot -/
  id : s.mem.word (G.slot (k % G.numRows) + 16) = o.pc.shownId k (G.numberBefore k) % 4294967296
  /-- the thread id and the time, where the options ask for them: likewise, each from its own store on -/
  stamp : Stamped G.cfg.options.toNat s.mem (G.slot (k % G.numRows))
    (o.shownStamp G.cfg.options.toNat (s.stampBefore G k))
  /-- what is printed of the three before the items -/
  header : ∀ (g : Globals) (f : Printf), rowPrefix g f (G.slot (k % G.numRows)) s.mem =
    some (stampText g f G.cfg.options.toNat (o.pc.shownId k (G.numberBefore k))
      (o.shownStamp G.cfg.options.toNat (s.stampBefore G k)))
  /-- before `datalen = 0`: the records of the row before, all of them, or nothing -/
  heading : o.pc.heading = true →
    (k < G.numRows → s.slotRecs G (k % G.numRows) = []) ∧
    (G.numRows ≤ k → ∃ p, s.owners[k - G.numRows]? = some p ∧ p.pc = .finished ∧
      s.slotRecs G (k % G.numRows) = G.fill p.done)
  /-- after it: the id, and the records of the groups completed so far -/
  current : o.pc.heading = false →
    s.mem.word (G.slot (k % G.numRows) + 16) = k % 4294967296 ∧
    s.slotRecs G (k % G.numRows) = G.fill o.done ∧
    G.fill o.done <+: G.fill (o.promised G.cfg.options.toNat)

section Rows
variable {G : Geometry} {s : State} {m m' : Mem} {os : List Owner} {k : ℕ} {o : Owner}

theorem Whole.agree (hw : Whole G ⟨m, os⟩) (ha : Mem.Agree (G.seen .rows) m m') : Whole G ⟨m', os⟩ where
  ring := hw.ring.agree ha
  heading k o hk hret hpc := by
    have hclear := G.rows_clear
    exact (hw.heading k o hk hret hpc).frame ha.frame (fun x hx => by have := hclear x hx; omega)
      (hclear.slot (Nat.mod_lt _ G.numRows_pos))

theorem Headed.agree (h : Headed G ⟨m, os⟩) (ha : Mem.Agree (G.seen .rows) m m') : Headed G ⟨m', os⟩ where
  whole := h.whole.agree ha
  stamp k o hk hret := (h.stamp k o hk hret).frame ha.frame fun x hx => by
    have := G.rows_clear.slot (Nat.mod_lt k G.numRows_pos) x hx
    omega
  blank j hj hj' := (h.blank j hj hj').frame ha.frame fun x hx => by
    have := G.rows_clear.slot hj' x hx
    omega

/-- ROW: the records in a slot are all of the row before, or a prefix of what will be there; the header is
    the owner's as far as it has been stored. -/
theorem Headed.rowShown (h : Headed G s) (hk : Retained G.numRows s.owners.length k)
    (ho : s.owners[k]? = some o) : RowShown G s k o where
  id := h.id hk ho
  stamp := h.stamp k o ho hk.2
  header := h.rowPrefix_eq hk ho
  heading hpc := by
    have hw := h.whole
    have hin : s.slotRecs G (k % G.numRows) = s.before G k := by
      rw [State.slotRecs_retained G hk]
      simp only [State.inSlot, ho, hpc, if_true]
    rw [hin, State.before]
    refine ⟨fun hlt => if_neg (by omega), fun hN => ?_⟩
    have hpos := G.numRows_pos
    have hlt : k - G.numRows < s.owners.length := by have := hk.1; omega
    have hget := List.getElem?_eq_getElem hlt
    refine ⟨_, hget, hw.ring.lapped _ _ hget (by have := hk.1; omega), ?_⟩
    simp only [if_pos hN, State.kept, hget]
  current hpc := by
    have hw := h.whole
    obtain ⟨hid, hrow⟩ := hw.ring.owner k o ho
    have hst := (hw.ring.held k o ho hk.2).stored hpc
    rw [hid, hrow] at hst
    refine ⟨hst.id, ?_, o.fill_promised G _⟩
    rw [State.slotRecs_retained G hk]
    simp only [State.inSlot, ho, hpc, Bool.false_eq_true, if_false]

/-- The header of a memmap besides its config and `nextrow` is left alone by every run of the rows. -/
theorem Ring.header_run {date : List UInt8} {r r' : State} (hr : Ring G r) (hh : HeaderHolds date r.mem)
    (hrun : Run (step G.handle) (Timely G.numRows) r r') : Ring G r' ∧ HeaderHolds date r'.mem := by
  refine hrun.invariant (I := fun r => Ring G r ∧ HeaderHolds date r.mem) ⟨hr, hh⟩
    fun t a u ht hok hs => ⟨ht.1.step_ok hok hs, ht.2.frame (ht.1.step_frame hs) fun x hx => ?_⟩
  have hbase := G.section_order.1
  rcases hx with ⟨h0, h1⟩ | ⟨h0, h1⟩ <;> omega

end Rows

section Tables
variable {G : Geometry} {m : Mem} {counters : List (List CounterCall)} {p : Threads Mem CounterOp} {i : ℕ}

/-- PENDING: at any instant, what a counter holds and what is still to be added make up the sum. -/
theorem counterValue_pending (ht : CounterTables G.handle G.numCounters m) (hi : i < G.numCounters)
    (hrun : Threads.Reaches (counterMicro G.handle) (counterThreads m counters) p) :
    counterValue G.handle i p.shared + p.pending (fun b => (b.amount G.numCounters i : ZMod 4294967296)) =
      counterValue G.handle i m + tally G.numCounters i counters.flatten := by
  have hkeep := Threads.Keeps.conserved (counterValue G.handle i)
    (fun b => (b.amount G.numCounters i : ZMod 4294967296)) counterMicro_keeps
    (fun m op m' new ht hop e => ?_) ht (holds_counterThreads m counters) hrun
  · rwa [pending_counterThreads] at hkeep
  · obtain ⟨m₁, new₁, e₁, -, -, -, hvalue⟩ := counterMicro_spec ht hi hop
    rw [e₁, Option.some.injEq, Prod.mk.injEq] at e
    rw [← e.1, ← e.2]
    exact hvalue

theorem Mapped.printCounters (hm : Mapped G m) (f : Printf) :
    ∃ text, printCounters f G.handle m = some text := by
  have ht := hm.counterTables
  have hle : (toInt32 G.numCounters).toNat ≤ G.numCounters := by
    have hcounters := G.sections.1
    have horder := G.section_order
    have hsize := G.size_lt
    rw [toInt32_of_range (by omega) (by unfold Geometry.numCounters; omega), Int.toNat_natCast]
  exact printCounters_some ht.hdrNumCounters_eq (fun i hi => ht.counter_inBounds (by omega))
    fun i hi _ => ht.label_inBounds (by omega)

end Tables

section Parts
variable {G : Geometry} {date : List UInt8} {m₀ : Mem} {counters : List (List CounterCall)}
  {vars : List (List VarCall)} {s : Program} {i : ℕ}

/-- ROWS: among the others as well, slots are whole and stamped, records have types, and the header of the
    memmap is left alone. -/
theorem Program.Alone.headed (hm : Mapped G m₀) (hn : m₀.word 28 = 0) (hz : ∀ x, 92 ≤ x → m₀.byte x = 0)
    (hh : HeaderHolds date m₀) (h : Program.Alone G m₀ counters vars .rows s) :
    Headed G s.onRows ∧ (∀ o ∈ s.owners, o.Typed) ∧ HeaderHolds date s.mem := by
  obtain ⟨⟨m, os⟩, hrun, rfl, ha⟩ := h
  have hstart := Ring.start hm hn hz
  have hheaded : Headed G ⟨m, s.owners⟩ :=
    hrun.invariant (Headed.start hstart hz) fun t a u hh hok hs => hh.step_ok hok hs
  refine ⟨hheaded.agree ha.symm, typed_run hrun, ?_⟩
  refine (hstart.header_run hh hrun).2.frame ha.symm.frame fun x hx => ?_
  have hx : ¬ (x < 256 ∨ G.layout.rowsOff ≤ x ∧ x < G.layout.counterLabelsOff) := hx
  omega

/-- COUNTERS: so do a counter and what is still to be added to it make up the sum. -/
theorem Program.Alone.pending (hm : Mapped G m₀) (hz : ∀ x, 92 ≤ x → m₀.byte x = 0)
    (h : Program.Alone G m₀ counters vars .counters s) (hi : i < G.numCounters) :
    counterValue G.handle i s.mem +
      s.onCounters.pending (fun b => (b.amount G.numCounters i : ZMod 4294967296)) =
      tally G.numCounters i counters.flatten := by
  obtain ⟨⟨m, todo⟩, hrun, rfl, ha⟩ := h
  have hroom := (G.counter_room hi).1
  have hzero : counterValue G.handle i m₀ = 0 := by
    unfold Geometry.counter at hroom
    rw [counterValue, Mem.word_eq_zero fun x hx => hz x (by omega), Nat.cast_zero]
  have hsame : counterValue G.handle i s.mem = counterValue G.handle i m := by
    have hseen : Set.Ico (counterAddr G.handle i) (counterAddr G.handle i + 4) ⊆ G.seen .counters :=
      (Set.Ico_subset_Ico_right (by omega)).trans ((G.counter_seen ⟨by omega, by exact_mod_cast hi⟩).trans
        Set.subset_union_right)
    rw [counterValue, counterValue, ha.word_eq hseen]
  have hpending := counterValue_pending hm.counterTables hi hrun
  rw [hzero, zero_add] at hpending
  rw [hsame]
  exact hpending

/-- VARS: and a variable holds nothing that no call has put there. -/
theorem Program.Alone.raced (hm : Mapped G m₀) (hv : 1 ≤ G.numVars) (hz : ∀ x, 92 ≤ x → m₀.byte x = 0)
    (h : Program.Alone G m₀ counters vars .vars s) (t : VarTable) (hi : i < G.numVars) :
    RacedSlot G.handle G.numVars vars.flatten t i s.mem := by
  obtain ⟨⟨m, todo⟩, hrun, -, ha⟩ := h
  have hfresh := hm.raced_fresh hv hz vars.flatten
  obtain ⟨hraced, -⟩ := varMicro_keeps.run hfresh (from_varThreads G.numVars m₀ vars) hrun
  refine (hraced.slots t i hi).frame ha.symm.frame fun x hx => Or.inl ?_
  have hroom := (G.var_room t hi).1
  have hx : ¬ (x ∈ Set.Ico (32 : ℤ) 92 ∨ G.layout.doubleVarsOff ≤ x) := hx
  unfold Geometry.var at hroom
  omega

end Parts

section Files
variable {G : Geometry} {os : Os} {date : List UInt8} {h : Handle} {m₀ : Mem}
  {counters : List (List CounterCall)} {vars : List (List VarCall)} {s : Program}

theorem Program.mapped_run (hv : 1 ≤ G.numVars) (hc : create os G.ps date G.config = some (h, m₀))
    (hrun : Run (Program.step h) (Program.Timely G.numRows) (.start m₀ counters vars) s) :
    Mapped G s.mem := by
  obtain ⟨rfl, hm₀, hn, hz⟩ := G.of_create hc
  have halone := (program_parts hm₀ hv hn hz).run (Program.Alone.start G m₀ counters vars) hrun
  exact ((halone .rows).headed hm₀ hn hz (StoreHolds.start hv hc).2.header).1.whole.ring.mapped

/-- The file of a program is attached to at any instant and every section of it printed, with no read outside
    it. -/
theorem Program.printed (hv : 1 ≤ G.numVars) (hc : create os G.ps date G.config = some (h, m₀))
    (hrun : Run (Program.step h) (Program.Timely G.numRows) (.start m₀ counters vars) s) :
    log2memAttach G.ps s.mem = some h ∧
    (∀ g f, DumpSafe g f (fileConfig s.mem) h s.mem) ∧
    ∀ (g : Globals) (f : Printf) (fuel : ℕ), G.rowLen < fuel →
      (∀ shown, ∃ text, printSections g f fuel G.ps h s.mem shown = some text) ∧
      printSummary f G.ps s.mem = some (G.summary f date s.owners.length) ∧
      ∃ start, lowestRowid h s.mem = some start ∧
        printRows g f fuel h s.mem = some ((List.range G.numRows).flatMap fun i =>
          slotLines G g f s.mem (s.onRows.slotRecs G) ((start + i) % G.numRows)) := by
  have hh := (StoreHolds.start hv hc).2.header
  obtain ⟨rfl, hm₀, hn, hz⟩ := G.of_create hc
  have halone := (program_parts hm₀ hv hn hz).run (Program.Alone.start G m₀ counters vars) hrun
  obtain ⟨⟨hw, -, -⟩, ht, hheader⟩ := (halone .rows).headed hm₀ hn hz hh
  have hm : Mapped G s.mem := hw.ring.mapped
  have hraced : Raced G.handle G.numVars vars.flatten s.mem :=
    ⟨hm.varTables hv, fun t i hi => (halone .vars).raced hm₀ hv hz t hi⟩
  have hsize := hm.size_ge
  refine ⟨hm.attach_eq, fun g f => ?_, fun g f fuel hfuel => ?_⟩
  · have hsafe := (hm.dumpable (fun j hj => ⟨_, hw.slotRecs hj, State.slotRecs_typed G ht j⟩)
      (fun t i hi _ => hraced.terminated t hi) g).safe (f := f) (by omega)
    rwa [hm.fileHandle_eq] at hsafe
  have hsummary := hm.printSummary_eq (f := f) hheader hw.ring.nextrow
  obtain ⟨start, hstart, hrows⟩ := hm.printRows_slots (fun j hj => hw.slotRecs hj)
    (fun j _ => State.slotRecs_typed G ht j) g f hfuel
  refine ⟨fun shown => ?_, hsummary, start, hstart, hrows⟩
  have hall : ∀ sec ∈ shown, ∃ text, printSection g f fuel G.ps G.handle s.mem sec = some text :=
    fun sec _ => by
      cases sec with
      | summary => exact ⟨_, hsummary⟩
      | rows => exact ⟨_, by rw [printSection, hrows, Option.map_some]⟩
      | counters => exact hm.printCounters f
      | vars => exact hraced.printVars f
  obtain ⟨texts, htexts⟩ := mapM_some_iff.mpr hall
  exact ⟨texts.flatten, by rw [printSections, htexts]; rfl⟩

end Files

/-- SNAPSHOT: stop a program at any instant of any run, with rows, counters and variables in use at once
    and no owner of a row overtaken as it writes. The tool attaches to the file with the same sections and
    prints every section of it, reading inside the file only. The summary is that of the program, with the
    acquisitions made so far; `print_rows` prints each slot once, from the one with the lowest id on, with
    the records its owner has completed so far, or with all those of the row before until `datalen = 0`; of
    id, time and thread id it prints those the owner has stored so far, and for the others those of the row
    before, so that past the store of the id and before `datalen = 0` it prints the records of the row before
    under the new header; what each counter holds and what is still to be added to it make up the sum of the amounts of all calls;
    and flags, value and text of each variable are those of calls addressed to it. -/
theorem snapshot_readable {G : Geometry} {os : Os} {date : List UInt8} {h : Handle} {m₀ : Mem}
    {counters : List (List CounterCall)} {vars : List (List VarCall)} {s : Program}
    (hv : 1 ≤ G.numVars) (hc : create os G.ps date G.config = some (h, m₀))
    (hrun : Run (Program.step h) (Program.Timely G.numRows) (.start m₀ counters vars) s) :
    log2memAttach G.ps s.mem = some h ∧
    (∀ g f, DumpSafe g f (fileConfig s.mem) h s.mem) ∧
    (∀ (g : Globals) (f : Printf) (fuel : ℕ), G.rowLen < fuel →
      (∀ shown, ∃ text, printSections g f fuel G.ps h s.mem shown = some text) ∧
      printSummary f G.ps s.mem = some (G.summary f date s.owners.length) ∧
      ∃ start, lowestRowid h s.mem = some start ∧
        printRows g f fuel h s.mem = some ((List.range G.numRows).flatMap fun i =>
          slotLines G g f s.mem (s.onRows.slotRecs G) ((start + i) % G.numRows))) ∧
    (∀ (k : ℕ) (o : Owner), Retained G.numRows s.owners.length k → s.owners[k]? = some o →
      RowShown G s.onRows k o) ∧
    (∀ j < G.numRows, s.owners.length ≤ j → s.onRows.slotRecs G j = []) ∧
    (∀ i < G.numCounters, counterValue h i s.mem +
        s.onCounters.pending (fun b => (b.amount G.numCounters i : ZMod 4294967296)) =
      tally G.numCounters i counters.flatten) ∧
    ∀ (t : VarTable) (i : ℕ), i < G.numVars → RacedSlot h G.numVars vars.flatten t i s.mem := by
  obtain ⟨hattach, hsafe, hprinted⟩ := Program.printed hv hc hrun
  have hh := (StoreHolds.start hv hc).2.header
  obtain ⟨rfl, hm₀, hn, hz⟩ := G.of_create hc
  have halone := (program_parts hm₀ hv hn hz).run (Program.Alone.start G m₀ counters vars) hrun
  obtain ⟨hheaded, -⟩ := (halone .rows).headed hm₀ hn hz hh
  exact ⟨hattach, hsafe, hprinted, fun k o hk ho => hheaded.rowShown hk ho,
    fun j hj hle => State.slotRecs_blank G hle hj, fun i hi => (halone .counters).pending hm₀ hz hi,
    fun t i hi => (halone .vars).raced hm₀ hv hz t hi⟩

/-- A ring of one row, stamped with the thread id and the tick count. -/
def stampedRow : Geometry :=
  .of page4096 ⟨14, 1, 1, 16, 1⟩ (by decide)

/-- Thread 6 logs a row `x` and has finished it when thread 7 takes over the slot and comes as far as
    `datalen = 0`. Meanwhile a counter is stepped, and a variable is about to get its flags. -/
def tornMoves : List Move :=
  [.row (.acquire (.row none 0) ⟨6, 1, 0, 0, 0, 0⟩), .counter 0, .var 0] ++
    List.replicate 5 (.row (.advance 0)) ++ [.row (.append 0 (.char 120)), .counter 0, .var 0] ++
    List.replicate 5 (.row (.advance 0)) ++
    [.row (.finish 0), .counter 0, .var 0, .row (.acquire (.row none 0) ⟨7, 2, 0, 0, 0, 0⟩)] ++
    List.replicate 3 (.row (.advance 1))

/-- Stopped there, the slot shows the row of thread 6 under id, time and thread id of the one after it. -/
theorem snapshot_readable_torn : ∃ (m₀ : Mem) (s : Program),
    create ⟨true, true⟩ stampedRow.ps [] stampedRow.config = some (stampedRow.handle, m₀) ∧
    exec (Program.step stampedRow.handle) (.start m₀ [[.incr 5]] [[.intSet 4 7]]) tornMoves = some s ∧
    log2memAttach stampedRow.ps s.mem = some stampedRow.handle ∧
    rowPrefix ⟨false, true, [32]⟩ oneDigit (stampedRow.slot 0) s.mem = some (ascii "1 2 [7] ") ∧
    s.onRows.slotRecs stampedRow 0 = [⟨.char, [120]⟩] ∧
    toInt32 (s.mem.word (counterAddr stampedRow.handle 0)) = 1 := by
  have hexec : ((create ⟨true, true⟩ stampedRow.ps [] stampedRow.config).any fun x =>
      decide (AllOk (Program.step x.1) (Program.Timely stampedRow.numRows)
        (.start x.2 [[.incr 5]] [[.intSet 4 7]]) tornMoves) &&
      (exec (Program.step x.1) (.start x.2 [[.incr 5]] [[.intSet 4 7]]) tornMoves).any fun s =>
        decide (s.owners.length = 2 ∧ s.owners.map Owner.done = [[[⟨.char, [120]⟩]], []] ∧
          s.counters.all List.isEmpty ∧ ∀ o ∈ s.owners[1]?, o.pc.heading ∧ o.pc.idStored ∧ o.pc.tsStored ∧
            o.pc.tidStored ∧ o.env.rdtsc = 2 ∧ o.env.tid = 7)) = true := by
    decide +kernel
  obtain ⟨⟨h, m₀⟩, hc, hend⟩ := (Option.any_eq_true ..).mp hexec
  obtain ⟨rfl, -⟩ := stampedRow.of_create hc
  rw [Bool.and_eq_true, decide_eq_true_eq] at hend
  obtain ⟨hok, hend⟩ := hend
  obtain ⟨s, hs, hstopped⟩ := (Option.any_eq_true ..).mp hend
  obtain ⟨hlen, hdone, hcounters, hlast⟩ := of_decide_eq_true hstopped
  obtain ⟨hattach, -, -, hrows, -, hsum, -⟩ := snapshot_readable (by decide) hc (Run.of_exec hs hok)
  have hN : stampedRow.numRows = 1 := by decide
  obtain ⟨o, ho⟩ : ∃ o, s.owners[1]? = some o := Option.isSome_iff_exists.mp (by simp [hlen])
  obtain ⟨hheading, hid, hts, htid, hrdtsc, hthread⟩ := hlast o ho
  have hshown := hrows 1 o (by rw [hN, hlen]; decide) ho
  have hstamp : ∀ prev, o.shownStamp stampedRow.cfg.options.toNat prev = ⟨2, 7⟩ := fun prev => by
    rw [show stampedRow.cfg.options.toNat = 14 by decide]
    simp [Owner.shownStamp, hts, htid, Env.stamp, rowTs, hrdtsc, hthread]
  refine ⟨m₀, s, hc, hs, hattach, ?_, ?_, ?_⟩
  · have hheader := hshown.header ⟨false, true, [32]⟩ oneDigit
    rw [hstamp, Pc.shownId, hid, if_pos rfl, hN] at hheader
    exact hheader.trans (by decide)
  · obtain ⟨p, hp, -, hrecs⟩ := (hshown.heading hheading).2 hN.le
    have hfirst := congrArg (fun os => os[0]?) hdone
    rw [hN] at hp hrecs
    simp only [List.getElem?_map, show s.owners[0]? = some p from hp, Option.map_some,
      List.getElem?_cons_zero, Option.some.injEq] at hfirst
    rw [hfirst] at hrecs
    exact hrecs.trans (by decide)
  · have hsum := hsum 0 (by decide)
    have hnone : s.onCounters.Finished := fun todo htodo => by
      simpa using List.all_eq_true.mp hcounters todo htodo
    have htally : tally stampedRow.numCounters 0 [[CounterCall.incr 5]].flatten = 1 := by decide
    rw [hnone.pending, add_zero, htally] at hsum
    exact toInt32_of_zmod hsum

end Log2mem
