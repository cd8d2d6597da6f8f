import Log2mem.Log.Sequential
import Log2mem.Tables.Vars

/-! Every call of the API changes the entry it addresses and nothing else.

    The invariant of a memmap under arbitrary calls: the header is in place, `nextrow` counts the
    acquisitions, and every slot stores some records. It is kept by changes aside from the header and
    the rows, and by changes of one slot that leave records there. From it every call succeeds inside
    its entry, except a time event whose message is too long for the `int` arithmetic.

        header │ counters │ rows           │ labels │ double vars │ int vars
        nextrow  value·used  one slot        text     one struct    one struct -/

namespace Log2mem
open Schemes

/-- A call of the API: on the counters, on the variables, or one of the logging calls. -/
inductive Call where
  | counterAdd (counterid valueToAdd : Int32)
  | counterIncr (counterid : Int32)
  | counterLabel (counterid : Int32) (src : CStr)
  | varDoubleInit (id : UInt32) (value : UInt64) (src : Option CStr)
  | varDoubleSet (id : UInt32) (d : UInt64)
  | varIntInit (id : UInt32) (value : Int32) (src : Option CStr)
  | varIntSet (id : UInt32) (d : Int32)
  | log (op : Op)

/-- A call that returns no row pointer. -/
def LogState.onMem (s : LogState) (m : Option Mem) : Option LogState := m.map fun m => ⟨m, s.rows⟩

/-- The call on the memory. -/
def Call.run (h : Handle) (s : LogState) : Call → Option LogState
  | .counterAdd counterid valueToAdd => s.onMem (log2memCounterAdd h counterid valueToAdd s.mem)
  | .counterIncr counterid => s.onMem (log2memCounterIncr h counterid s.mem)
  | .counterLabel counterid src => s.onMem (log2memCounterLabel h counterid src s.mem)
  | .varDoubleInit id value src => s.onMem (log2memVarDoubleInit h id value src s.mem)
  | .varDoubleSet id d => s.onMem (log2memVarDoubleSet h id d s.mem)
  | .varIntInit id value src => s.onMem (log2memVarIntInit h id value src s.mem)
  | .varIntSet id d => s.onMem (log2memVarIntSet h id d s.mem)
  | .log op => op.call h s

/-- The entry a call addresses. -/
def Call.entry (G : Geometry) (s : LogState) : Call → Set ℤ
  | .counterAdd counterid _ | .counterIncr counterid =>
    Set.Ico (G.counter (G.counterOf counterid)) (G.counter (G.counterOf counterid) + 4)
  | .counterLabel counterid _ =>
    Set.Ico (G.label (G.counterOf counterid)) (G.label (G.counterOf counterid) + 63) ∪
      Set.Ico (G.counter (G.counterOf counterid) + 4) (G.counter (G.counterOf counterid) + 8)
  | .varDoubleInit id _ _ | .varDoubleSet id _ => G.varBytes .double (G.varOf id)
  | .varIntInit id _ _ | .varIntSet id _ => G.varBytes .int (G.varOf id)
  | .log (.append k a) =>
    pushArea (G.slot (k % G.numRows)) (s.mem.word (G.slot (k % G.numRows) + 20))
      (recFormat.total a.items) ∩ G.slotBytes (k % G.numRows)
  | .log _ => G.acquired s.rows.length

/-- The lengths of strings are in `0 … 2 ^ 31 - 10`. -/
def Op.InRange : Op → Prop
  | .write str filename _ _ => (∀ s ∈ str, s.InRange) ∧ ∀ s ∈ filename, s.InRange
  | .getRow filename _ _ => ∀ s ∈ filename, s.InRange
  | .event4 e _ => e.str.isSome → ExactLen e.len
  | .event2 _ _ _ => True
  | .event3 _ _ s _ => s.InRange
  | .append _ a => a.InRange

def Call.InRange : Call → Prop
  | .log op => op.InRange
  | _ => True

/-- An append is given a row pointer that was returned before. -/
def Call.Legal (s : LogState) : Call → Prop
  | .log (.append k _) => k < s.rows.length
  | _ => True

/-- No message of a time event is too long for the `int` arithmetic. -/
def Call.Exact : Call → Prop
  | .log op => ∀ e ∈ op.event?, e.Exact
  | _ => True

/-- The call succeeds and changes bytes of its entry only, all of them in the mapping. -/
def Isolated (G : Geometry) (h : Handle) (s : LogState) (c : Call) : Prop :=
  ∃ s', c.run h s = some s' ∧ Mem.Frame (c.entry G s) s.mem s'.mem ∧
    ∀ x ∈ c.entry G s, 0 ≤ x ∧ x < s.mem.size

/-! ### Aside from the header and the rows -/

/-- Addresses of the tables. -/
def Geometry.Aside (G : Geometry) (S : Set ℤ) : Prop :=
  ∀ x ∈ S, 256 ≤ x ∧ x < G.layout.size ∧ (x < G.layout.rowsOff ∨ G.layout.counterLabelsOff ≤ x)

namespace Geometry
variable (G : Geometry)

theorem section_order : 256 ≤ G.layout.rowsOff ∧ G.layout.rowsOff ≤ G.layout.counterLabelsOff ∧
    G.layout.counterLabelsOff ≤ G.layout.doubleVarsOff ∧ G.layout.doubleVarsOff ≤ G.layout.size := by
  obtain ⟨h1, h2, h3, h4, h5⟩ := G.sections
  have hrows : 0 ≤ (G.numRows : ℤ) * (24 + G.rowLen) := by positivity
  omega

theorem counter_aside {i : ℕ} (h : i < G.numCounters) :
    G.Aside (Set.Ico (G.counter i) (G.counter i + 8)) := by
  rintro x ⟨h0, h1⟩
  have hroom := G.counter_room h
  have horder := G.section_order
  omega

theorem label_aside {i : ℕ} (h : i < G.numCounters) :
    G.Aside (Set.Ico (G.label i) (G.label i + 63)) := by
  rintro x ⟨h0, h1⟩
  have hroom := G.label_room h
  have horder := G.section_order
  omega

theorem var_aside (t : VarTable) {i : ℕ} (h : i < G.numVars) : G.Aside (G.varBytes t i) := by
  rintro x ⟨h0, h1⟩
  have hroom := G.var_room t h
  have horder := G.section_order
  omega

theorem aligned : G.layout.countersOff % 8 = 0 ∧ G.layout.rowsOff % 8 = 0 ∧
    G.layout.counterLabelsOff % 8 = 0 ∧ G.layout.doubleVarsOff % 8 = 0 ∧
    G.layout.intVarsOff % 8 = 0 := by
  rw [G.sound.exact]
  exact exact_aligned G.ps G.cfg

end Geometry

theorem Geometry.Aside.mono {G : Geometry} {S T : Set ℤ} (h : G.Aside T) (hST : S ⊆ T) : G.Aside S :=
  fun x hx => h x (hST hx)

theorem Geometry.Aside.union {G : Geometry} {S T : Set ℤ} (hS : G.Aside S) (hT : G.Aside T) :
    G.Aside (S ∪ T) := by
  rintro x (hx | hx)
  · exact hS x hx
  · exact hT x hx

/-! ### The invariant -/

/-- A memmap under arbitrary calls. -/
structure Stable (G : Geometry) (s : LogState) : Prop where
  mapped : Mapped G s.mem
  nextrow : s.mem.word 28 = s.rows.length % 4294967296
  ptr : ∀ (k : ℕ) (r : ℤ), s.rows[k]? = some r → r = G.slot (k % G.numRows)
  holds : ∀ j < G.numRows, ∃ recs, RowHolds G.rowLen s.mem (G.slot j) recs

section Calls
variable {G : Geometry} {s : LogState} {m' : Mem}

/-- Changes aside from the header and the rows keep the memmap. -/
theorem Stable.aside {S : Set ℤ} (h : Stable G s) (hf : Mem.Frame S s.mem m') (hS : G.Aside S) :
    Stable G ⟨m', s.rows⟩ := by
  refine ⟨h.mapped.frame hf fun x hx => ?_, ?_, h.ptr, fun j hj => ?_⟩
  · have := hS x hx
    omega
  · rw [hf.word_eq fun x _ _ hx => by have := hS x hx; omega]
    exact h.nextrow
  · obtain ⟨recs, hrow⟩ := h.holds j hj
    have hend := G.slot_end hj
    have hstart : G.layout.rowsOff ≤ G.slot j := by
      have : 0 ≤ (j : ℤ) * (24 + G.rowLen) := by positivity
      unfold Geometry.slot
      omega
    refine ⟨recs, hrow.frame hf (fun x hx => ?_) fun x hx => ?_⟩
    · have := hS x hx
      omega
    · have := hS x hx
      omega

/-- Changes of `nextrow` and of one slot that leave records there keep the memmap. -/
theorem Stable.in_slot {k : ℕ} {recs : List Rec} (h : Stable G s) (hf : Mem.Frame (G.acquired k) s.mem m')
    (hrow : RowHolds G.rowLen m' (G.slot (k % G.numRows)) recs) :
    Mapped G m' ∧ ∀ j < G.numRows, ∃ recs, RowHolds G.rowLen m' (G.slot j) recs := by
  have hout : ∀ x ∈ G.acquired k, x < 32 ∨ 92 ≤ x := by
    rintro x (hx | hx)
    · exact Or.inl hx.2
    · have := G.le_of_mem_slotBytes hx
      omega
  refine ⟨h.mapped.frame hf hout, fun j hj => ?_⟩
  by_cases he : k % G.numRows = j
  · exact ⟨recs, he ▸ hrow⟩
  · obtain ⟨recs', hrow'⟩ := h.holds j hj
    refine ⟨recs', hrow'.frame hf (fun x hx => ?_) ?_⟩
    · have := hout x hx
      omega
    · rintro x (hx | hx)
      · have := G.slot_base j
        have := hx.2
        omega
      · have := G.mem_slotBytes_of_ne he hx
        omega

theorem Stable.on_table {S T : Set ℤ} (h : Stable G s) {o : Option Mem}
    (ho : ∃ m', o = some m' ∧ Mem.Frame S s.mem m') (hST : S ⊆ T) (hT : G.Aside T) :
    ∃ s', s.onMem o = some s' ∧ Stable G s' ∧ Mem.Frame S s.mem s'.mem := by
  obtain ⟨m', rfl, hf⟩ := ho
  exact ⟨⟨m', s.rows⟩, rfl, h.aside hf (hT.mono hST), hf⟩

theorem Stable.acquired {recs : List Rec} (h : Stable G s)
    (hrow : RowHolds G.rowLen m' (G.slot (s.rows.length % G.numRows)) recs)
    (hnext : m'.word 28 = (s.rows.length + 1) % 4294967296)
    (hf : Mem.Frame (G.acquired s.rows.length) s.mem m') :
    Stable G ⟨m', s.rows ++ [G.slot (s.rows.length % G.numRows)]⟩ := by
  obtain ⟨hmapped, hholds⟩ := h.in_slot hf hrow
  refine ⟨hmapped, by simpa using hnext, fun k r hk => ?_, hholds⟩
  rcases getElem?_concat_some hk with hk | ⟨rfl, rfl⟩
  · exact h.ptr k r hk
  · rfl

theorem Stable.event (h : Stable G s) (env : Env) {e : Event} (he : e.Exact) :
    ∃ m', log2memTimeEvent4 G.handle env e s.mem = some (m', G.slot (s.rows.length % G.numRows)) ∧
      Stable G ⟨m', s.rows ++ [G.slot (s.rows.length % G.numRows)]⟩ ∧
      Mem.Frame (G.acquired s.rows.length) s.mem m' := by
  obtain ⟨m', e', hrow, -, hnext, hf⟩ := h.mapped.event_spec h.nextrow env he
  exact ⟨m', e', h.acquired hrow hnext hf, hf⟩

theorem Stable.log (h : Stable G s) {op : Op} (hr : op.InRange) (hl : (Call.log op).Legal s)
    (he : (Call.log op).Exact) :
    ∃ s', op.call G.handle s = some s' ∧ Stable G s' ∧
      Mem.Frame ((Call.log op).entry G s) s.mem s'.mem := by
  cases op with
  | write str filename lineno env =>
    obtain ⟨m', e, hrow, -, hnext, hf⟩ := h.mapped.write_spec h.nextrow env lineno hr.1 hr.2
    exact ⟨_, by simp [Op.call, e], h.acquired hrow hnext hf, hf⟩
  | getRow filename lineno env =>
    obtain ⟨m', e, hrow, -, hnext, hf⟩ := h.mapped.initRow_spec h.nextrow env filename lineno
      (locationPushes_exact hr)
    exact ⟨_, by simp [Op.call, log2memGetRow, e], h.acquired hrow hnext hf, hf⟩
  | event4 e env =>
    obtain ⟨m', e', hstable, hf⟩ := h.event env (he e rfl)
    exact ⟨_, by simp [Op.call, e'], hstable, hf⟩
  | event2 flowid msgid env =>
    obtain ⟨m', e', hstable, hf⟩ := h.event env (he _ rfl)
    exact ⟨_, by simp [Op.call, log2memTimeEvent2, e'], hstable, hf⟩
  | event3 flowid msgid msgstr env =>
    obtain ⟨m', e', hstable, hf⟩ := h.event env (he _ rfl)
    exact ⟨_, by simp [Op.call, log2memTimeEvent3, e'], hstable, hf⟩
  | append k a =>
    have hget := List.getElem?_eq_getElem hl
    have hptr := h.ptr k _ hget
    have hslot : k % G.numRows < G.numRows := Nat.mod_lt _ G.numRows_pos
    have hbase := G.slot_base (k % G.numRows)
    obtain ⟨recs, hrow⟩ := h.holds _ hslot
    obtain ⟨m', e, hrow', hf⟩ := hrow.append_spec hr
    have hacq : Mem.Frame (G.acquired k) s.mem m' := frame_acquired (hf.mono Set.inter_subset_right)
    obtain ⟨hmapped, hholds⟩ := h.in_slot hacq hrow'
    refine ⟨⟨m', s.rows⟩, by simp [Op.call, hget, hptr, e], ⟨hmapped, ?_, h.ptr, hholds⟩, ?_⟩
    · rw [hf.word_eq fun x _ _ hx => by have := hx.2.1; omega]
      exact h.nextrow
    · rw [Call.entry, hrow.datalen]
      refine hf.mono fun x hx => ⟨hx.1, ?_, hx.2.2⟩
      have := hx.2.1
      omega

/-- CALL: every call of exact length keeps the memmap and changes its entry only. -/
theorem Stable.call (h : Stable G s) (hv : 1 ≤ G.numVars) {c : Call} (hr : c.InRange) (hl : c.Legal s)
    (he : c.Exact) : ∃ s', c.run G.handle s = some s' ∧ Stable G s' ∧
      Mem.Frame (c.entry G s) s.mem s'.mem := by
  have hvar : ∀ id, G.varOf id < G.numVars := fun id => Nat.mod_lt _ hv
  have hadd : ∀ counterid valueToAdd, ∃ s',
      s.onMem (log2memCounterAdd G.handle counterid valueToAdd s.mem) = some s' ∧ Stable G s' ∧
      Mem.Frame (Set.Ico (G.counter (G.counterOf counterid)) (G.counter (G.counterOf counterid) + 4))
        s.mem s'.mem := fun counterid valueToAdd => by
    obtain ⟨m', e, -, hf⟩ := h.mapped.counterAdd_spec counterid valueToAdd
    exact h.on_table ⟨m', e, hf⟩ (Set.Ico_subset_Ico_right (by omega))
      (G.counter_aside (G.counterOf_lt counterid))
  have hinit : ∀ t id value src, ∃ s', s.onMem (varInit t G.handle id value src s.mem) = some s' ∧
      Stable G s' ∧ Mem.Frame (G.varBytes t (G.varOf id)) s.mem s'.mem := fun t id value src => by
    obtain ⟨m', e, hf⟩ := h.mapped.varInit_spec hv t id value src
    exact h.on_table ⟨m', e, hf⟩ (le_refl _) (G.var_aside t (hvar id))
  have hset : ∀ t id value, ∃ s', s.onMem (varSet t G.handle id value s.mem) = some s' ∧
      Stable G s' ∧ Mem.Frame (G.varBytes t (G.varOf id)) s.mem s'.mem := fun t id value => by
    obtain ⟨m', e, hf⟩ := h.mapped.varSet_spec hv t id value
    exact h.on_table ⟨m', e, hf⟩ (le_refl _) (G.var_aside t (hvar id))
  cases c with
  | counterAdd counterid valueToAdd => exact hadd counterid valueToAdd
  | counterIncr counterid => exact hadd counterid 1
  | counterLabel counterid src =>
    obtain ⟨m', e, -, -, hf⟩ := h.mapped.counterLabel_spec counterid src
    have hlt := G.counterOf_lt counterid
    exact h.on_table ⟨m', e, hf⟩
      (Set.union_subset_union_right _ (Set.Ico_subset_Ico_left (by omega)))
      ((G.label_aside hlt).union (G.counter_aside hlt))
  | varDoubleInit id value src => exact hinit .double id value.toNat src
  | varDoubleSet id d => exact hset .double id d.toNat
  | varIntInit id value src => exact hinit .int id value.toUInt32.toNat src
  | varIntSet id d => exact hset .int id d.toUInt32.toNat
  | log op => exact h.log hr hl he

theorem Stable.entry_mapped (h : Stable G s) (hv : 1 ≤ G.numVars) (c : Call) :
    ∀ x ∈ c.entry G s, 0 ≤ x ∧ x < s.mem.size := by
  have hsize := h.mapped.size
  have hge := h.mapped.size_ge
  have haside : ∀ {S : Set ℤ}, G.Aside S → ∀ x ∈ S, 0 ≤ x ∧ x < s.mem.size := fun hS x hx => by
    have := hS x hx
    omega
  have hslot : ∀ k, ∀ x ∈ G.slotBytes (k % G.numRows), 0 ≤ x ∧ x < s.mem.size := fun k x hx => by
    have hbase := G.slot_base (k % G.numRows)
    have hroom := G.slot_room (Nat.mod_lt k G.numRows_pos)
    obtain ⟨h0, h1⟩ := hx
    omega
  have hacq : ∀ k, ∀ x ∈ G.acquired k, 0 ≤ x ∧ x < s.mem.size := by
    rintro k x (hx | hx)
    · obtain ⟨h0, h1⟩ := hx
      omega
    · exact hslot k x hx
  have hcounter : ∀ counterid, G.Aside (Set.Ico (G.counter (G.counterOf counterid))
      (G.counter (G.counterOf counterid) + 4)) := fun counterid =>
    (G.counter_aside (G.counterOf_lt counterid)).mono (Set.Ico_subset_Ico_right (by omega))
  have hvar : ∀ t id, G.Aside (G.varBytes t (G.varOf id)) := fun t id =>
    G.var_aside t (Nat.mod_lt _ hv)
  cases c with
  | counterAdd counterid _ => exact haside (hcounter counterid)
  | counterIncr counterid => exact haside (hcounter counterid)
  | counterLabel counterid _ =>
    have hlt := G.counterOf_lt counterid
    exact haside ((G.label_aside hlt).union
      ((G.counter_aside hlt).mono (Set.Ico_subset_Ico_left (by omega))))
  | varDoubleInit id _ _ => exact haside (hvar .double id)
  | varDoubleSet id _ => exact haside (hvar .double id)
  | varIntInit id _ _ => exact haside (hvar .int id)
  | varIntSet id _ => exact haside (hvar .int id)
  | log op =>
    cases op with
    | append k a => exact fun x hx => hslot k x hx.2
    | _ => exact hacq _

/-- OVERRUN: a time event of any other length faults. -/
theorem Stable.overrun (h : Stable G s) {c : Call} (he : ¬ c.Exact) : c.run G.handle s = none := by
  have hnone : ∀ (e : Event) (env : Env), ¬ e.Exact →
      log2memTimeEvent4 G.handle env e s.mem = none := fun e env hn =>
    h.mapped.event_none h.nextrow env hn
  cases c with
  | log op =>
    have he : ¬ ∀ e ∈ op.event?, e.Exact := he
    push Not at he
    obtain ⟨e, hmem, hn⟩ := he
    cases op with
    | event4 e' env =>
      obtain rfl : e' = e := Option.some.inj hmem
      simp [Call.run, Op.call, hnone _ env hn]
    | event2 flowid msgid env =>
      rw [← Option.some.inj hmem] at hn
      simp [Call.run, Op.call, log2memTimeEvent2, hnone _ env hn]
    | event3 flowid msgid msgstr env =>
      rw [← Option.some.inj hmem] at hn
      simp [Call.run, Op.call, log2memTimeEvent3, hnone _ env hn]
    | _ => simp [Op.event?] at hmem
  | _ => exact absurd trivial he

/-- STEP: whatever call was made, what it left is a memmap again. -/
theorem Stable.step (h : Stable G s) (hv : 1 ≤ G.numVars) {c : Call} {s' : LogState} (hr : c.InRange)
    (hs : c.run G.handle s = some s') : Stable G s' := by
  by_cases he : c.Exact
  · have hl : c.Legal s := by
      cases c with
      | log op =>
        cases op with
        | append k a =>
          obtain ⟨r, hk, -⟩ := Option.bind_eq_some_iff.mp hs
          exact (List.getElem?_eq_some_iff.mp hk).1
        | _ => trivial
      | _ => trivial
    obtain ⟨s'', e, hstable, -⟩ := h.call hv hr hl he
    rw [hs, Option.some.injEq] at e
    exact e ▸ hstable
  · rw [h.overrun he] at hs
    exact absurd hs (by simp)

theorem Stable.start {m : Mem} (hm : Mapped G m) (hn : m.word 28 = 0) (hz : ∀ x, 92 ≤ x → m.byte x = 0) :
    Stable G ⟨m, []⟩ := by
  refine ⟨hm, by simpa using hn, by simp, fun j hj => ⟨[], ?_⟩⟩
  have hroom := hm.slotRoom hj
  have hblank := (Ring.start hm hn hz).blank j (Nat.zero_le _) hj
  exact ⟨hroom.cap, hroom.lt, hroom.base, hroom.room, hblank.2, Nat.zero_le _, trivial⟩

end Calls

/-- ISOLATION: the sections are aligned, and after every run of calls, a call changes bytes of its entry
    only, all of them in the mapping, exactly when it is no time event with a message of `2 ^ 31 - 33`
    bytes or more. -/
theorem call_isolated_iff {G : Geometry} {os : Os} {date : List UInt8} {h : Handle} {m₀ : Mem}
    {s : LogState} (hv : 1 ≤ G.numVars) (hc : create os G.ps date G.config = some (h, m₀))
    (hrun : Run (fun s c => Call.run h s c) (fun _ c => c.InRange) ⟨m₀, []⟩ s) :
    (G.layout.countersOff % 8 = 0 ∧ G.layout.rowsOff % 8 = 0 ∧ G.layout.counterLabelsOff % 8 = 0 ∧
      G.layout.doubleVarsOff % 8 = 0 ∧ G.layout.intVarsOff % 8 = 0) ∧
    ∀ c : Call, c.InRange → c.Legal s → (Isolated G h s c ↔ c.Exact) := by
  obtain ⟨rfl, hm, hn, hz⟩ := G.of_create hc
  have hstable : Stable G s :=
    hrun.invariant (Stable.start hm hn hz) fun t c u ht hr hs => ht.step hv hr hs
  refine ⟨G.aligned, fun c hr hl => ⟨fun ⟨s', hs, _⟩ => ?_, fun he => ?_⟩⟩
  · by_contra he
    rw [hstable.overrun he] at hs
    exact absurd hs (by simp)
  · obtain ⟨s', hs, -, hf⟩ := hstable.call hv hr hl he
    exact ⟨s', hs, hf, hstable.entry_mapped hv c⟩

/-- A row is acquired, the counter is labelled `hi`, and the variable is set. -/
def someCalls : List Call :=
  [.log (.getRow none 0 smallEnv), .counterLabel (-1) ⟨[104, 105], by decide⟩,
    .varIntSet 0 5]

/-- After these, an append of the string `msg` to the row is isolated, and so is a step of counter `-1`, which
    is the only one. -/
theorem call_isolated_append : ∃ m₀ s, create ⟨true, true⟩ twoRows.ps [] twoRows.config =
      some (twoRows.handle, m₀) ∧ exec (Call.run twoRows.handle) ⟨m₀, []⟩ someCalls = some s ∧
    Isolated twoRows twoRows.handle s (.log (.append 0 (.str (some ⟨[109, 115, 103], by decide⟩)))) ∧
    Isolated twoRows twoRows.handle s (.counterIncr (-1)) := by
  obtain ⟨m₀, hc, hm, hn, hz⟩ := twoRows.created []
  have hv : 1 ≤ twoRows.numVars := by decide
  have hrow : Call.InRange (.log (.getRow none 0 smallEnv)) := by
    simp [Call.InRange, Op.InRange]
  have hexact : Call.Exact (.log (.getRow none 0 smallEnv)) := by
    simp [Call.Exact, Op.event?]
  obtain ⟨s₁, e₁, h₁, -⟩ := (Stable.start hm hn hz).call hv hrow trivial hexact
  obtain ⟨s₂, e₂, h₂, -⟩ := h₁.call hv (c := .counterLabel (-1) ⟨[104, 105], by decide⟩) trivial trivial
    trivial
  obtain ⟨s₃, e₃, -⟩ := h₂.call hv (c := .varIntSet 0 5) trivial trivial trivial
  have hrows : s₃.rows.length = 1 := by
    obtain ⟨⟨m, r⟩, -, hs⟩ := Option.bind_eq_some_iff.mp e₁
    cases hs
    obtain ⟨m₂, -, rfl⟩ := Option.map_eq_some_iff.mp e₂
    obtain ⟨m₃, -, rfl⟩ := Option.map_eq_some_iff.mp e₃
    rfl
  have hrun : Run (fun s c => Call.run twoRows.handle s c) (fun _ c => c.InRange) ⟨m₀, []⟩ s₃ := by
    refine .tail (.tail (.tail .refl ?_ e₁) ?_ e₂) ?_ e₃
    exacts [hrow, trivial, trivial]
  obtain ⟨-, hiff⟩ := call_isolated_iff hv hc hrun
  refine ⟨m₀, s₃, hc, ?_, (hiff _ ?_ ?_).mpr ?_, (hiff (.counterIncr (-1)) trivial trivial).mpr trivial⟩
  · simp only [someCalls, exec, e₁, e₂, e₃, Option.bind_some]
  · simp [Call.InRange, Op.InRange, Append.InRange, CStr.InRange]
  · simp [Call.Legal, hrows]
  · simp [Call.Exact, Op.event?]

/-- A message of `2 ^ 31 - 28` bytes: `len_needed` is negative, so the space test lets it pass. -/
def longEvent : Event := ⟨1, 2, some fun _ => 65, 2147483620⟩

/-- A time event with this message leaves the mapping. -/
theorem call_not_isolated : ¬ ∀ (G : Geometry) (os : Os) (date : List UInt8) (h : Handle) (m₀ : Mem)
    (s : LogState) (c : Call), 1 ≤ G.numVars → create os G.ps date G.config = some (h, m₀) →
    Run (fun s c => Call.run h s c) (fun _ c => c.InRange) ⟨m₀, []⟩ s → c.InRange → c.Legal s →
    Isolated G h s c := by
  intro hall
  obtain ⟨m₀, hc, hm, hn, hz⟩ := twoRows.created []
  have hrange : (Call.log (.event4 longEvent smallEnv)).InRange := fun _ => by
    unfold ExactLen
    decide
  obtain ⟨s', hs, -⟩ := hall _ _ _ _ _ _ _ (by decide) hc .refl hrange trivial
  have hlong : ¬ (Call.log (.event4 longEvent smallEnv)).Exact := fun h =>
    absurd (h longEvent rfl rfl) (by decide)
  rw [(Stable.start hm hn hz).overrun hlong] at hs
  exact absurd hs (by simp)

end Log2mem
