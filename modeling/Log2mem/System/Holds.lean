import Log2mem.Dump.Safety
import Log2mem.Schemes.Simulates
import Log2mem.System.Store
import Log2mem.Tool.Names

/-! The memmap holds the store, and every request keeps it so.

    The log is the window of the last `num_rows` acquisitions, each row in its slot under its number and
    its stamp; counters and variables are in their tables. A request changes the section it is about, and the
    other sections are framed.

        store:   S ──request──▶ Store.step S
                 │ StoreHolds      │ StoreHolds
        memmap:  m ──call─────▶ m'                   -/

namespace Log2mem
open Schemes

/-- The sizes of a memmap. -/
def Geometry.shape (G : Geometry) : Shape where
  counters := G.numCounters
  vars := G.numVars
  rows := G.numRows
  rowLen := G.rowLen
  options := G.cfg.options.toNat

/-- The header of a memmap besides its config: the creation time, the version and the byte order. -/
structure HeaderHolds (date : List UInt8) (m : Mem) : Prop where
  date : m.get 60 32 = datecreated date
  version : m.word 52 = 2
  flags : m.word 24 = 1

/-- The rows of the log, as the acquisitions since creation have left them. -/
structure RowsHold (G : Geometry) (s : LogState) (c : ℕ → Entry) : Prop where
  log : LogHolds G s fun k => (c k).items
  number : ∀ k, Retained G.numRows s.rows.length k → (c k).number = k
  stamped : ∀ k, Retained G.numRows s.rows.length k →
    Stamped G.cfg.options.toNat s.mem (G.slot (k % G.numRows)) (c k).stamp

/-- The memmap, created at `date`, holds the store. -/
structure StoreHolds (G : Geometry) (date : List UInt8) (s : LogState) (S : Store) : Prop where
  header : HeaderHolds date s.mem
  rows : ∃ c, RowsHold G s c ∧ S.log.Shows G.numRows s.rows.length c
  counters : ∀ i < G.numCounters, CounterHolds G.handle i s.mem (S.counters i).value (S.counters i).label
  vars : ∀ (t : VarTable) (i : ℕ), i < G.numVars → VarHolds t G.handle i s.mem (S.vars t i)

/-! ### Frames -/

section Frames
variable {G : Geometry} {date : List UInt8} {m m' : Mem} {s : LogState} {c : ℕ → Entry} {S : Set ℤ}

theorem HeaderHolds.frame (h : HeaderHolds date m) (hf : Mem.Frame S m m')
    (hS : ∀ x ∈ S, 28 ≤ x ∧ x < 32 ∨ 92 ≤ x) : HeaderHolds date m' := by
  refine ⟨?_, ?_, ?_⟩
  · rw [hf.get_eq fun x h0 h1 hx => by have := hS x hx; push_cast at h1; omega, h.date]
  · rw [hf.word_eq fun x h0 h1 hx => by have := hS x hx; omega, h.version]
  · rw [hf.word_eq fun x h0 h1 hx => by have := hS x hx; omega, h.flags]

/-- Neither in the header nor in a slot. -/
def Geometry.Clear (G : Geometry) (S : Set ℤ) : Prop :=
  ∀ x ∈ S, 256 ≤ x ∧ (x < G.layout.rowsOff ∨ G.layout.counterLabelsOff ≤ x)

theorem Geometry.Aside.clear (h : G.Aside S) : G.Clear S := fun x hx => ⟨(h x hx).1, (h x hx).2.2⟩

theorem Geometry.Clear.header (h : G.Clear S) : ∀ x ∈ S, 28 ≤ x ∧ x < 32 ∨ 92 ≤ x :=
  fun x hx => Or.inr (by have := h x hx; omega)

theorem Geometry.Clear.slot (h : G.Clear S) {j : ℕ} (hj : j < G.numRows) :
    ∀ x ∈ S, x < G.slot j ∨ G.slot j + 24 + G.rowLen ≤ x := by
  have hend := G.slot_end hj
  have hstart : G.layout.rowsOff ≤ G.slot j := by
    have : 0 ≤ (j : ℤ) * (24 + G.rowLen) := by positivity
    unfold Geometry.slot
    omega
  intro x hx
  have := h x hx
  omega

/-- The rows at rest are kept by changes elsewhere. -/
theorem AtRest.clear {n : ℕ} {rows : ℕ → List Rec} (h : AtRest G m n rows) (hf : Mem.Frame S m m')
    (hS : G.Clear S) : AtRest G m' n rows := by
  have hmod : ∀ k, k % G.numRows < G.numRows := fun k => Nat.mod_lt _ G.numRows_pos
  have hword : ∀ {j : ℕ}, j < G.numRows → ∀ d ≤ 20, m'.word (G.slot j + (d : ℕ)) = m.word (G.slot j + (d : ℕ)) :=
    fun hj d hd => hf.word_of_outside (hS.slot hj) (by omega) (by omega)
  refine ⟨h.mapped.frame hf fun x hx => by have := hS x hx; omega, fun k hk => ?_, fun k hk => ?_,
    h.typed, fun j hj hj' => ?_⟩
  · rw [← h.id k hk]
    exact hword (hmod k) 16 (by omega)
  · refine (h.holds k hk).frame hf (fun x hx => by have := hS x hx; omega) fun x hx => ?_
    have := hS.slot (hmod k) x hx
    omega
  · obtain ⟨hid, hlen⟩ := h.blank j hj hj'
    exact ⟨(hword hj' 16 (by omega)).trans hid, (hword hj' 20 (by omega)).trans hlen⟩

theorem RowsHold.clear (h : RowsHold G s c) (hf : Mem.Frame S s.mem m') (hS : G.Clear S) :
    RowsHold G ⟨m', s.rows⟩ c := by
  have hmod : ∀ k, k % G.numRows < G.numRows := fun k => Nat.mod_lt _ G.numRows_pos
  refine ⟨⟨h.log.rest.clear hf hS, ?_, h.log.ptr, h.log.good⟩, h.number, fun k hk => ?_⟩
  · rw [hf.word_eq fun x _ _ hx => by have := hS x hx; omega]
    exact h.log.nextrow
  · exact (h.stamped k hk).frame hf fun x hx => by have := hS.slot (hmod k) x hx; omega

theorem Geometry.counterBytes_aside (G : Geometry) : G.Aside (counterBytes G.handle G.numCounters) ∧
    ∀ x ∈ counterBytes G.handle G.numCounters, x < G.layout.doubleVarsOff := by
  have hheader := G.sound.header
  have hcounters := G.sound.counters
  have hlabels := G.sound.labels
  have horder := G.section_order
  constructor
  all_goals
    rintro x (⟨h0, h1⟩ | ⟨h0, h1⟩)
    all_goals
      simp only [Geometry.handle, Layout.handle, Geometry.numCounters] at h0 h1
      omega

theorem CounterHolds.elsewhere {i : ℕ} {v : ℤ} {l : Option CStr} (hc : CounterHolds G.handle i m v l)
    (hi : i < G.numCounters) (hf : Mem.Frame S m m')
    (hS : ∀ x ∈ S, x ∉ counterBytes G.handle G.numCounters) : CounterHolds G.handle i m' v l := by
  refine hc.frame hf (fun x hx => ?_) fun x hx => ?_
  all_goals
    have hout := hS x hx
    simp only [counterBytes, Set.mem_union, Set.mem_Ico, not_or, not_and, not_lt] at hout
    simp only [counterAddr, labelAddr]
    omega

theorem VarHolds.elsewhere {t : VarTable} {i : ℕ} {l : Latch t.Value (Option CStr)}
    (hc : VarHolds t G.handle i m l) (hi : i < G.numVars) (hf : Mem.Frame S m m')
    (hS : ∀ x ∈ S, x < G.layout.doubleVarsOff) : VarHolds t G.handle i m' l := by
  have hroom := G.var_room t hi
  exact hc.frame_of hf fun x hx => Or.inl (lt_of_lt_of_le (hS x hx) hroom.1)

theorem Geometry.acquired_apart (G : Geometry) (k : ℕ) : ∀ x ∈ G.acquired k,
    (28 ≤ x ∧ x < 32 ∨ 92 ≤ x) ∧ x < G.layout.doubleVarsOff ∧
      x ∉ counterBytes G.handle G.numCounters := by
  have hheader := G.sound.header
  have hcounters := G.sound.counters
  have horder := G.section_order
  have hslot : k % G.numRows < G.numRows := Nat.mod_lt _ G.numRows_pos
  have hbase := G.slot_base (k % G.numRows)
  have hend := G.slot_end hslot
  have hstart : G.layout.rowsOff ≤ G.slot (k % G.numRows) := by
    have : 0 ≤ ((k % G.numRows : ℕ) : ℤ) * (24 + G.rowLen) := by positivity
    unfold Geometry.slot
    omega
  rintro x (⟨h0, h1⟩ | ⟨h0, h1⟩)
  all_goals
    refine ⟨by omega, by omega, ?_⟩
    rintro (⟨h2, h3⟩ | ⟨h2, h3⟩)
    all_goals
      simp only [Geometry.handle, Layout.handle, Geometry.numCounters] at h2 h3
      omega

end Frames

/-! ### Rows -/

section Rows
variable {G : Geometry} {s s' : LogState} {c c' : ℕ → Entry} {n : ℕ} {op : Op} {m' : Mem}

/-- What a call of the log leaves of the rows. -/
def Op.rows (sh : Shape) (n : ℕ) (op : Op) (c : ℕ → Entry) : ℕ → Entry :=
  match op, op.env? with
  | .append k a, _ => Function.update c k ((c k).append sh.rowLen a)
  | op, some env => Function.update c n
      ⟨n, env.stamp sh.options, offers sh.rowLen [] (op.groups together sh.options)⟩
  | _, none => c

theorem Op.rows_acquire {sh : Shape} {env : Env} (henv : op.env? = some env) : op.rows sh n c =
    Function.update c n
      ⟨n, env.stamp sh.options, offers sh.rowLen [] (op.groups together sh.options)⟩ := by
  cases op with
  | append k a => exact absurd henv (by simp [Op.env?])
  | _ =>
    obtain rfl := Option.some.inj henv
    rfl

theorem Op.append_or_env (op : Op) : (∃ k a, op = .append k a) ∨ ∃ env, op.env? = some env := by
  cases op with
  | append k a => exact Or.inl ⟨k, a, rfl⟩
  | _ => exact Or.inr ⟨_, rfl⟩

theorem Op.acquires_env {env : Env} (henv : op.env? = some env) : op.acquires = 1 := by
  cases op with
  | append k a => exact absurd henv (by simp [Op.env?])
  | _ => rfl

/-- Whatever the queue shows, it shows after a call of the log. -/
theorem Op.onLog_shows {log : Queue Entry} {sh : Shape} (hq : log.Shows sh.rows n c)
    (hop : op.Allowed sh.rows n) :
    (op.onLog sh log).Shows sh.rows (n + op.acquires) (op.rows sh n c) := by
  have hpush := fun a => hq.push a
  cases op with
  | append k a => exact hq.modify hop.1 (·.append sh.rowLen a)
  | _ =>
    simp only [Op.onLog, Op.env?, hq.next_eq]
    exact hpush _

theorem items_update (c : ℕ → Entry) (k : ℕ) (e : Entry) :
    (fun j => (Function.update c k e j).items) = Function.update (fun j => (c j).items) k e.items :=
  Function.comp_update Entry.items c k e

/-- The acquisition whose row a call changes. -/
def Op.target (n : ℕ) : Op → ℕ
  | .append k _ => k
  | _ => n

theorem Op.target_env {env : Env} (henv : op.env? = some env) : op.target n = n := by
  cases op with
  | append k a => exact absurd henv (by simp [Op.env?])
  | _ => rfl

/-- The call succeeds, leaves the items its meaning for the rows leaves, and changes `nextrow` and the
    slot of its row at most. -/
def Op.Kept (G : Geometry) (s : LogState) (c : ℕ → Entry) (op : Op) : Prop :=
  ∃ s', op.call G.handle s = some s' ∧ s'.rows.length = s.rows.length + op.acquires ∧
    LogHolds G s' (fun j => (op.rows G.shape s.rows.length c j).items) ∧
    Mem.Frame (G.acquired (op.target s.rows.length)) s.mem s'.mem

theorem LogHolds.acquired {env : Env} (henv : op.env? = some env)
    (e : op.call G.handle s = some ⟨m', s.rows ++ [G.slot (s.rows.length % G.numRows)]⟩)
    (h : LogHolds G ⟨m', s.rows ++ [G.slot (s.rows.length % G.numRows)]⟩
      (Function.update (fun k => (c k).items) s.rows.length
        (offers G.rowLen [] (op.groups together G.cfg.options.toNat))))
    (hf : Mem.Frame (G.acquired s.rows.length) s.mem m') : op.Kept G s c := by
  refine ⟨_, e, ?_, ?_, (Op.target_env henv).symm ▸ hf⟩
  · rw [Op.acquires_env henv, List.length_append, List.length_singleton]
  · rw [Op.rows_acquire henv, items_update]
    exact h

theorem LogHolds.event_kept (h : LogHolds G s fun k => (c k).items) {env : Env} {e : Event}
    (henv : op.env? = some env) (he : e.Short)
    (hcall : op.call G.handle s = do
      let (m, r) ← log2memTimeEvent4 G.handle env e s.mem
      return ⟨m, s.rows ++ [r]⟩)
    (hgroups : op.groups together G.cfg.options.toNat = together e.logged) : op.Kept G s c := by
  obtain ⟨m', e', h'⟩ := h.event env he
  obtain ⟨m₁, e₁, -, -, -, hf⟩ := h.rest.mapped.event_spec h.nextrow env he.exact
  obtain ⟨rfl, -⟩ := Prod.mk.inj (Option.some.inj (e'.symm.trans e₁))
  rw [← hgroups] at h'
  exact LogHolds.acquired henv (by simp [hcall, e']) h' hf

/-- Every allowed call of the log is kept. -/
theorem LogHolds.kept (h : LogHolds G s fun k => (c k).items)
    (hop : op.Allowed G.numRows s.rows.length) : op.Kept G s c := by
  have hmapped := h.rest.mapped
  cases op with
  | write str filename lineno env =>
    obtain ⟨m', e, h'⟩ := h.write str lineno env hop.1 hop.2
    obtain ⟨m₁, e₁, -, -, -, hf⟩ := hmapped.write_spec h.nextrow env lineno
      (fun x hx => (hop.1 x hx).inRange) fun x hx => (hop.2 x hx).inRange
    obtain ⟨rfl, -⟩ := Prod.mk.inj (Option.some.inj (e.symm.trans e₁))
    exact LogHolds.acquired rfl (by simp [Op.call, e]) h' hf
  | getRow filename lineno env =>
    obtain ⟨m', e, h'⟩ := h.write none lineno env (by simp) hop
    have hnone : ∀ x ∈ (none : Option CStr), x.InRange := by simp
    obtain ⟨m₁, e₁, -, -, -, hf⟩ := hmapped.write_spec h.nextrow env lineno hnone
      fun x hx => (hop x hx).inRange
    obtain ⟨rfl, -⟩ := Prod.mk.inj (Option.some.inj (e.symm.trans e₁))
    have hget : log2memGetRow G.handle env filename lineno s.mem =
        some (m', G.slot (s.rows.length % G.numRows)) := by
      rw [← e, log2memWrite_eq]
      simp [log2memGetRow, strPushes, runPushes]
    refine LogHolds.acquired rfl (by simp [Op.call, hget]) ?_ hf
    simpa [strItem, Op.groups] using h'
  | event4 ev env => exact h.event_kept rfl hop rfl rfl
  | event2 flowid msgid env => exact h.event_kept rfl (by simp [Event.Short, Event.msg]) rfl rfl
  | event3 flowid msgid msgstr env => exact h.event_kept rfl (event3_short flowid msgid hop) rfl rfl
  | append k a =>
    obtain ⟨r, m', hr, e, h'⟩ := h.append hop.1 hop.2
    obtain rfl := h.ptr k r hr
    obtain ⟨m₁, e₁, -, hf⟩ := (h.rest.holds k hop.1).append_spec hop.2.inRange
    obtain rfl := Option.some.inj (e.symm.trans e₁)
    refine ⟨⟨m', s.rows⟩, by simp [Op.call, hr, e], rfl, ?_,
      frame_acquired (hf.mono Set.inter_subset_right)⟩
    simp only [Op.rows, items_update]
    exact h'

/-- LOG: every allowed call keeps the rows of the log. -/
theorem RowsHold.call (h : RowsHold G s c) (hop : op.Allowed G.numRows s.rows.length) :
    ∃ s', op.call G.handle s = some s' ∧ s'.rows.length = s.rows.length + op.acquires ∧
      RowsHold G s' (op.rows G.shape s.rows.length c) ∧
      Mem.Frame (G.acquired (op.target s.rows.length)) s.mem s'.mem := by
  obtain ⟨s', e, hlen, hlog, hf⟩ := h.log.kept hop
  refine ⟨s', e, hlen, ?_, hf⟩
  rcases op.append_or_env with ⟨k, a, rfl⟩ | ⟨env, henv⟩
  · have hrows : ∀ j, (Op.rows G.shape s.rows.length (.append k a) c j).number = (c j).number ∧
        (Op.rows G.shape s.rows.length (.append k a) c j).stamp = (c j).stamp := fun j => by
      by_cases hj : j = k
      · simp [Op.rows, hj, Entry.append]
      · simp [Op.rows, hj]
    have hr := List.getElem?_eq_getElem hop.1.1
    rw [h.log.ptr k _ hr] at hr
    refine ⟨hlog, fun j hj => ?_, fun j hj => ?_⟩
    all_goals
      rw [hlen] at hj
      simp only [Op.acquires, Nat.add_zero] at hj
    · rw [(hrows j).1]
      exact h.number j hj
    · rw [(hrows j).2]
      exact Mapped.append_stamped (h.log.rest.holds k hop.1) hr hop.2.inRange e (h.stamped j hj)
  · have hold : ∀ j, Retained G.numRows s'.rows.length j → j ≠ s.rows.length →
        Retained G.numRows s.rows.length j ∧ s.rows.length % G.numRows ≠ j % G.numRows := fun j hj hne => by
      have hlast : Retained G.numRows s'.rows.length s.rows.length := by
        have := G.numRows_pos
        rw [hlen, Op.acquires_env henv]
        exact ⟨by omega, by omega⟩
      have hslot : s.rows.length % G.numRows ≠ j % G.numRows :=
        fun he => hne (hj.slot_inj hlast he.symm)
      rw [hlen, Op.acquires_env henv] at hj
      exact ⟨⟨by have := hj.1; omega, by have := hj.2; omega⟩, hslot⟩
    rw [Op.rows_acquire henv] at hlog ⊢
    rw [Op.target_env henv] at hf
    refine ⟨hlog, fun j hj => ?_, fun j hj => ?_⟩
    all_goals by_cases hne : j = s.rows.length
    · simp [hne]
    · rw [Function.update_of_ne hne]
      exact h.number j (hold j hj hne).1
    · rw [hne, Function.update_self]
      exact h.log.rest.mapped.call_stamped h.log.nextrow hop henv e
    · obtain ⟨hret, hslot⟩ := hold j hj hne
      rw [Function.update_of_ne hne]
      refine (h.stamped j hret).frame hf fun x hx => ?_
      rcases hx with hx | hx
      · have := G.slot_base (j % G.numRows)
        have := hx.2
        omega
      · have := G.mem_slotBytes_of_ne hslot hx
        omega

/-- TIME: `log2mem_set_ts` replaces the time of a row that is kept. -/
theorem RowsHold.setTs {k : ℕ} (h : RowsHold G s c) (hk : Retained G.numRows s.rows.length k) (ts : UInt64) :
    ∃ m', (s.rows[k]?).bind (fun r => log2memSetTs (some r) ts s.mem) = some m' ∧
      RowsHold G ⟨m', s.rows⟩ (Function.update c k ((c k).setTs ts)) ∧
      Mem.Frame (G.acquired k) s.mem m' := by
  have hmod : ∀ k, k % G.numRows < G.numRows := fun k => Nat.mod_lt _ G.numRows_pos
  have hbase := G.slot_base (k % G.numRows)
  have hr := List.getElem?_eq_getElem hk.1
  rw [h.log.ptr k _ hr] at hr
  obtain ⟨m', e, hts, hf⟩ := h.log.rest.mapped.setTs_spec (hmod k) ts
  have hrow := (h.log.rest.holds k hk).frame hf (fun x hx => Or.inr (by have := hx.1; omega)) fun x hx =>
    Or.inl (by have := hx.2; omega)
  have hacquired : Mem.Frame (G.acquired k) s.mem m' := hf.mono fun x hx =>
    Or.inr ⟨by have := hx.1; omega, by have := hx.2; omega⟩
  have hrest := h.log.rest.update (Or.inl rfl) hk hacquired
    (by rw [hf.word_of_Ico (by omega)]; exact h.log.rest.id k hk) hrow (h.log.rest.typed k hk)
  rw [Function.update_eq_self] at hrest
  have hlog : LogHolds G ⟨m', s.rows⟩ fun j => (c j).items :=
    ⟨hrest, by rw [hf.word_of_Ico (by omega)]; exact h.log.nextrow, h.log.ptr, h.log.good⟩
  refine ⟨m', by rw [hr, Option.bind_some, e], ⟨?_, fun j hj => ?_, fun j hj => ?_⟩, hacquired⟩
  · rwa [items_update, show ((c k).setTs ts).items = (c k).items from rfl,
      Function.update_eq_self k fun j => (c j).items]
  · by_cases hjk : j = k
    · rw [hjk, Function.update_self]
      exact h.number k hk
    · rw [Function.update_of_ne hjk]
      exact h.number j hj
  · by_cases hjk : j = k
    · rw [hjk, Function.update_self]
      exact ⟨fun ho => (hf.word_of_Ico (by omega)).trans ((h.stamped k hk).tid ho), fun _ => hts⟩
    · rw [Function.update_of_ne hjk]
      refine (h.stamped j hj).frame hf fun x hx => ?_
      have := G.mem_slotBytes_of_ne (fun he => hjk (Retained.slot_inj hj hk he.symm))
        (show x ∈ G.slotBytes (k % G.numRows) from ⟨by have := hx.1; omega, by have := hx.2; omega⟩)
      omega

end Rows

section Steps
variable {G : Geometry} {date : List UInt8} {s : LogState} {S : Store} {m' : Mem} {f : Sscanf}

theorem StoreHolds.mapped (h : StoreHolds G date s S) : Mapped G s.mem :=
  let ⟨_, hrows, _⟩ := h.rows
  hrows.log.rest.mapped

theorem StoreHolds.next_eq (h : StoreHolds G date s S) : S.log.next = s.rows.length :=
  let ⟨_, _, hq⟩ := h.rows
  hq.next_eq

/-- TABLES: a change elsewhere that leaves these counters and variables. -/
theorem StoreHolds.on_tables (h : StoreHolds G date s S) {T : Set ℤ} (hf : Mem.Frame T s.mem m')
    (hT : G.Clear T) {counters : ℕ → Counter} {vars : (t : VarTable) → ℕ → Latch t.Value (Option CStr)}
    (hc : ∀ i < G.numCounters, CounterHolds G.handle i m' (counters i).value (counters i).label)
    (hv : ∀ (t : VarTable) (i : ℕ), i < G.numVars → VarHolds t G.handle i m' (vars t i)) :
    StoreHolds G date ⟨m', s.rows⟩ { S with counters, vars } :=
  let ⟨c, hrows, hq⟩ := h.rows
  ⟨h.header.frame hf hT.header, ⟨c, hrows.clear hf hT, hq⟩, hc, hv⟩

/-- LOG: a change of `nextrow` and of one slot that leaves these rows. -/
theorem StoreHolds.on_rows (h : StoreHolds G date s S) {s' : LogState} {k : ℕ}
    (hf : Mem.Frame (G.acquired k) s.mem s'.mem) {c : ℕ → Entry} {log : Queue Entry}
    (hrows : RowsHold G s' c) (hq : log.Shows G.numRows s'.rows.length c) :
    StoreHolds G date s' { S with log } :=
  ⟨h.header.frame hf fun x hx => (G.acquired_apart k x hx).1, ⟨c, hrows, hq⟩,
    fun i hi => (h.counters i hi).elsewhere hi hf fun x hx => (G.acquired_apart k x hx).2.2,
    fun t i hi => (h.vars t i hi).elsewhere hi hf fun x hx => (G.acquired_apart k x hx).2.1⟩

theorem StoreHolds.counter (h : StoreHolds G date s S) (c : CounterCall) :
    ∃ s', (Request.counter c).call f G.handle s = some s' ∧
      StoreHolds G date s' (S.step f G.shape (.counter c)) := by
  obtain ⟨m', e, hf, -, hcells⟩ := c.run_spec h.mapped.counterTables h.counters
  refine ⟨⟨m', s.rows⟩, by simp [Request.call, LogState.onMem, e], ?_⟩
  exact h.on_tables hf G.counterBytes_aside.1.clear hcells fun t i hi =>
    (h.vars t i hi).elsewhere hi hf G.counterBytes_aside.2

theorem StoreHolds.log (h : StoreHolds G date s S) {op : Op} (hop : op.Allowed G.numRows S.log.next) :
    ∃ s', (Request.log op).call f G.handle s = some s' ∧
      StoreHolds G date s' (S.step f G.shape (.log op)) := by
  obtain ⟨c, hrows, hq⟩ := h.rows
  rw [hq.next_eq] at hop
  obtain ⟨s', e, hlen, hrows', hf⟩ := hrows.call hop
  have hshows : (op.onLog G.shape S.log).Shows G.shape.rows (s.rows.length + op.acquires)
      (op.rows G.shape s.rows.length c) := Op.onLog_shows hq hop
  rw [← hlen] at hshows
  exact ⟨s', e, h.on_rows hf hrows' hshows⟩

theorem StoreHolds.setTs (h : StoreHolds G date s S) {k : ℕ} (hk : Retained G.numRows S.log.next k)
    (ts : UInt64) : ∃ s', (Request.setTs k ts).call f G.handle s = some s' ∧
      StoreHolds G date s' (S.step f G.shape (.setTs k ts)) := by
  obtain ⟨c, hrows, hq⟩ := h.rows
  rw [hq.next_eq] at hk
  obtain ⟨m', e, hrows', hf⟩ := hrows.setTs hk ts
  refine ⟨⟨m', s.rows⟩, ?_, h.on_rows hf hrows' (hq.modify hk (·.setTs ts))⟩
  obtain ⟨r, hr, e⟩ := Option.bind_eq_some_iff.mp e
  simp [Request.call, hr, e, LogState.onMem]

/-- A change of one variable, to what the latches are. -/
theorem StoreHolds.on_var (h : StoreHolds G date s S) {t : VarTable} {i : ℕ} (hi : i < G.numVars)
    (hf : Mem.Frame (G.varBytes t i) s.mem m')
    {vars : (t : VarTable) → ℕ → Latch t.Value (Option CStr)}
    (hv : ∀ (t : VarTable) (i : ℕ), i < G.numVars → VarHolds t G.handle i m' (vars t i)) :
    StoreHolds G date ⟨m', s.rows⟩ { S with vars } := by
  refine h.on_tables hf (G.var_aside t hi).clear (fun j hj => (h.counters j hj).elsewhere hj hf
    fun x hx hin => ?_) hv
  have := (G.var_room t hi).1
  have := G.counterBytes_aside.2 x hin
  have := hx.1
  omega

theorem StoreHolds.var (h : StoreHolds G date s S) (hn : 1 ≤ G.numVars) (c : VarCall) :
    ∃ s', (Request.var c).call f G.handle s = some s' ∧
      StoreHolds G date s' (S.step f G.shape (.var c)) := by
  have hv := h.mapped.varTables hn
  obtain ⟨m', e, -, hcells⟩ := c.run_spec hv h.vars
  refine ⟨⟨m', s.rows⟩, by simp [Request.call, LogState.onMem, e], ?_⟩
  exact h.on_var (hv.mod_lt rfl) (VarCall.frame hv e) hcells

/-- The call an operation of the tool by index is. -/
def indexCall : (t : VarTable) → UInt32 → t.Value → VarCall
  | .double, idx, val => .doubleSet idx val
  | .int, idx, val => .intSet idx val

/-- The tool by index makes this call, on the memmap as well as on the store. -/
theorem call_index (h : Handle) (s : LogState) (t : VarTable) (idx : UInt32) (val : t.Value) :
    (Request.tool (.index t idx val)).call f h s = (Request.var (indexCall t idx val)).call f h s := by
  cases t <;> simp [Request.call, SetOp.run, indexCall, VarCall.run, VarTable.set, Function.comp_def]

theorem step_index (sh : Shape) (t : VarTable) (idx : UInt32) (val : t.Value) :
    S.step f sh (.tool (.index t idx val)) = S.step f sh (.var (indexCall t idx val)) := by
  have hlatch : ∀ (t' : VarTable) (i : ℕ) (l : Latch t'.Value (Option CStr)),
      SetOp.latch f sh.vars i t' (.index t idx val) l = (indexCall t idx val).latch sh.vars i t' l := by
    intro t' i l
    by_cases hi : idx.toNat % sh.vars = i
    all_goals cases t <;> cases t' <;>
      simp [SetOp.latch, SetOp.stores, VarCall.latch, VarCall.addressed, indexCall, hi]
  simp only [Store.step, hlatch]

theorem VarHolds.varText_eq {t : VarTable} {h : Handle} {i : ℕ} {m : Mem}
    {l : Latch t.Value (Option CStr)} (hc : VarHolds t h i m l) :
    0 ∈ m.get (t.addr h i + t.width + 4) 64 ∧ varText t h i m = labelText l.label := by
  rw [varText, hc.text]
  cases l.label with
  | none => exact ⟨by decide, by decide⟩
  | some src =>
    rw [← textBytes_eq]
    exact strText_textBytes src

/-- The variables the tool looks up by name. -/
theorem VarHolds.named_iff {t : VarTable} {h : Handle} {i : ℕ} {m : Mem}
    {l : Latch t.Value (Option CStr)} (hc : VarHolds t h i m l) (label : Text) :
    Named h m label t i ↔ l.used = true ∧ labelText l.label = label := by
  rw [Named, VarUsed, hc.flags, latchFlags_used, hc.varText_eq.2]
  cases l.used with
  | false => simp
  | true => simp [show eUsed ≠ 0 by decide]

theorem StoreHolds.named (h : StoreHolds G date s S) (hn : 1 ≤ G.numVars) {label p : Text}
    (hlabel : 0 ∉ label) : ∃ s', (Request.tool (.name label p)).call f G.handle s = some s' ∧
      StoreHolds G date s' (S.step f G.shape (.tool (.name label p))) := by
  have hv := h.mapped.varTables hn
  obtain ⟨w, e, hf, hvalue⟩ := setNamed_spec (f := f) (p := p) (w := ⟨s.mem, []⟩) hlabel hv
    fun t i hi => (h.vars t i hi).varText_eq.1
  have haside : G.Aside (valueBytes G.handle G.numVars) := by
    rintro x ⟨t, i, hi, h0, h1⟩
    obtain ⟨hw, hs⟩ := t.width_size
    exact G.var_aside t hi x ⟨h0, by rw [Geometry.var]; omega⟩
  refine ⟨⟨w.mem, s.rows⟩, by simp [Request.call, SetOp.run, e, LogState.onMem], ?_⟩
  refine h.on_tables hf.frame haside.clear (fun i hi => (h.counters i hi).elsewhere hi hf.frame
    fun x hx hin => ?_) fun t i hi => ?_
  · obtain ⟨t, j, hj, h0, -⟩ := hx
    have hroom := (G.var_room t hj).1
    have := G.counterBytes_aside.2 x hin
    rw [Geometry.var] at hroom
    omega
  · have hhold := h.vars t i hi
    have hold : varValue t G.handle i s.mem = leBytes t.width (t.bits (S.vars t i).value) := hhold.value
    have hnew := hvalue t i hi
    simp only [hhold.named_iff label] at hnew
    show VarHolds t G.handle i w.mem (SetOp.latch f G.shape.vars i t (.name label p) (S.vars t i))
    rw [SetOp.latch, SetOp.stores]
    split at hnew
    · rename_i hnamed
      rw [if_pos hnamed]
      cases hscan : f.scan t p with
      | none => exact hhold.of_values hf hi (by rw [hnew, scanned, hscan, hold])
      | some value =>
        have hstep : (S.vars t i).step (.set value) = { S.vars t i with value } := by
          rw [Latch.step, ← hnamed.2.1]
        show VarHolds t G.handle i w.mem ((S.vars t i).step (.set value))
        rw [hstep]
        exact hhold.of_values hf hi (by rw [hnew, scanned, hscan])
    · rename_i hnamed
      rw [if_neg hnamed]
      exact hhold.of_values hf hi (by rw [hnew, hold])

/-- STEP: every allowed request succeeds, and does to the memmap what it means for the store. -/
theorem StoreHolds.step (hn : 1 ≤ G.numVars) : Simulates (Request.call f G.handle)
    (Store.step f G.shape) (Request.Allowed G.shape) (StoreHolds G date) := by
  intro s S a h hok
  cases a with
  | counter c => exact h.counter c
  | var c => exact h.var hn c
  | log op => exact h.log hok
  | setTs k ts => exact h.setTs hok ts
  | tool op =>
    cases op with
    | index t idx val =>
      rw [call_index, step_index]
      exact h.var hn _
    | name label p => exact h.named hn hok

end Steps

/-! ### Creation -/

theorem populate_header {m m' : Mem} {config : Config} {date : List UInt8}
    (h : populate config date m = some m') : HeaderHolds date m' := by
  have hcfg : config.bytes.length = 20 := by simp [Config.bytes]
  simp only [populate_fields, Option.bind_eq_bind, Option.bind_eq_some_iff] at h
  obtain ⟨m1, -, m2, e2, m3, e3, m4, e4, m5, e5, m6, e6, e7⟩ := h
  have hword : ∀ {m m' : Mem} {a : ℤ} {v : ℕ}, m.store32 a v = some m' → m'.word a = v % 4294967296 :=
    fun {m m' a v} e => by
      obtain ⟨m₁, e₁, -, w⟩ := Mem.store32_spec (m := m) (a := a) (Mem.store_some e).1 v
      rw [e, Option.some.injEq] at e₁
      rw [e₁, w]
  have f3 : Mem.Frame (Set.Ico 24 28) m2 m3 := (Mem.store_some e3).2
  have f4 : Mem.Frame (Set.Ico 56 60) m3 m4 := (Mem.store_some e4).2
  have f5 : Mem.Frame (Set.Ico 32 52) m4 m5 := by
    have := (Mem.store_some e5).2
    rwa [hcfg] at this
  have f6 : Mem.Frame (Set.Ico 28 32) m5 m6 := (Mem.store_some e6).2
  obtain ⟨hin7, f7⟩ := Mem.store_some e7
  obtain ⟨m₇, e₇, -, g7⟩ := Mem.store_spec m6 60 (datecreated date) hin7
  rw [e7, Option.some.injEq] at e₇
  subst e₇
  rw [datecreated_length] at g7 f7
  refine ⟨g7, ?_, ?_⟩
  · rw [f7.word_of_Ico (by omega), f6.word_of_Ico (by omega), f5.word_of_Ico (by omega),
      f4.word_of_Ico (by omega), f3.word_of_Ico (by omega), hword e2]
  · rw [f7.word_of_Ico (by omega), f6.word_of_Ico (by omega), f5.word_of_Ico (by omega),
      f4.word_of_Ico (by omega), hword e3]

theorem StoreHolds.start {G : Geometry} {os : Os} {date : List UInt8} {h : Handle} {m : Mem}
    (hn : 1 ≤ G.numVars) (hc : create os G.ps date G.config = some (h, m)) :
    h = G.handle ∧ StoreHolds G date ⟨m, []⟩ .empty := by
  obtain ⟨rfl, hm, hnext, hz⟩ := G.of_create hc
  have hlog : LogHolds G ⟨m, []⟩ fun _ => [] := .start hm hnext hz
  have hfresh := (hm.varTables hn).fresh hz
  refine ⟨rfl, ?_, ⟨fun _ => ⟨0, ⟨0, 0⟩, []⟩, ⟨hlog, fun k hk => absurd hk.1 (Nat.not_lt_zero k),
    fun k hk => absurd hk.1 (Nat.not_lt_zero k)⟩, Queue.shows_empty ..⟩,
    fun i hi => hm.counterTables.fresh hz hi, fun t i hi => hfresh.holds t hi⟩
  simp only [create] at hc
  split at hc
  · exact absurd hc (by simp)
  · split at hc
    · exact absurd hc (by simp)
    · obtain ⟨m', hm', he⟩ := Option.bind_eq_some_iff.mp hc
      simp only [Option.pure_def, Option.some.injEq, Prod.mk.injEq] at he
      rw [he.2] at hm'
      exact populate_header hm'

end Log2mem
