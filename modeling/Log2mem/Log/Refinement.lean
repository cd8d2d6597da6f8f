import Log2mem.Log.Calls
import Log2mem.Log.Sequential

/-! The memmap and the dump tool together refine a bounded log.

    Every allowed sequence of calls succeeds on the memory, and what `print_rows` then prints in terse
    mode, over section offsets recomputed from the header's config, is the rendering of the abstract
    queue after the same calls. The items of one time event are kept together or not at all.

        calls ──▶ memmap ──attach offsets, print_rows -t──▶ text
          └─────▶ queue of the last num_rows rows ──render──▶ the same text -/

namespace Log2mem
open Schemes

/-- The memory stores the rows `c` of the log, the last `num_rows` of them. -/
structure LogHolds (G : Geometry) (s : LogState) (c : ℕ → List Item) : Prop where
  rest : AtRest G s.mem s.rows.length fun k => (c k).map Item.stored
  nextrow : s.mem.word 28 = s.rows.length % 4294967296
  ptr : ∀ (k : ℕ) (r : ℤ), s.rows[k]? = some r → r = G.slot (k % G.numRows)
  good : ∀ k, Retained G.numRows s.rows.length k → GoodRow (c k)

theorem Item.wellTyped (x : Item) : x.stored.WellTyped := by
  cases x with
  | filename s => simp [Rec.WellTyped, Item.stored]
  | text s => simp [Rec.WellTyped, Item.stored]
  | value v => cases v <;> simp [Rec.WellTyped, Item.stored, Value.type, Value.bytes]

section Update
variable {G : Geometry} {m m' : Mem} {n n' k : ℕ} {rows : ℕ → List Rec} {recs : List Rec}

/-- A row may be added or changed in its own slot: the other retained rows are left alone. -/
theorem AtRest.update (h : AtRest G m n rows) (hn : n' = n ∨ (n' = n + 1 ∧ k = n))
    (hk : Retained G.numRows n' k) (hf : Mem.Frame (G.acquired k) m m')
    (hid : m'.word (G.slot (k % G.numRows) + 16) = k % 4294967296)
    (hrow : RowHolds G.rowLen m' (G.slot (k % G.numRows)) recs) (ht : ∀ x ∈ recs, x.WellTyped) :
    AtRest G m' n' (Function.update rows k recs) := by
  have hout : ∀ {j : ℕ}, k % G.numRows ≠ j → ∀ x ∈ G.acquired k,
      x < G.slot j ∨ G.slot j + 24 + G.rowLen ≤ x := fun {j} hne x hx => by
    rcases hx with hx | hx
    · have := G.slot_base j
      have := hx.2
      omega
    · exact G.mem_slotBytes_of_ne hne hx
  have hold : ∀ k', Retained G.numRows n' k' → k' ≠ k →
      Retained G.numRows n k' ∧ k % G.numRows ≠ k' % G.numRows := fun k' hk' hne => by
    refine ⟨⟨?_, ?_⟩, fun he => hne (Retained.slot_inj hk' hk he.symm)⟩
    · have := hk'.1
      omega
    · have := hk'.2
      omega
  refine ⟨h.mapped.frame hf fun x hx => ?_, fun k' hk' => ?_, fun k' hk' => ?_, fun k' hk' x hx => ?_,
    fun j hj hj' => ?_⟩
  · rcases hx with hx | hx
    · have := hx.2; omega
    · have := G.le_of_mem_slotBytes hx; omega
  · by_cases he : k' = k
    · rw [he]; exact hid
    · obtain ⟨hret, hne⟩ := hold k' hk' he
      rw [hf.word_of_outside (hout hne) (by omega) (by omega)]
      exact h.id k' hret
  · by_cases he : k' = k
    · rw [he, Function.update_self]; exact hrow
    · obtain ⟨hret, hne⟩ := hold k' hk' he
      rw [Function.update_of_ne he]
      refine (h.holds k' hret).frame hf (fun x hx => ?_) fun x hx => ?_
      · rcases hx with hx | hx
        · have := hx.2; omega
        · have := G.le_of_mem_slotBytes hx; omega
      · have := hout hne x hx
        omega
  · by_cases he : k' = k
    · rw [he, Function.update_self] at hx; exact ht x hx
    · rw [Function.update_of_ne he] at hx
      exact h.typed k' (hold k' hk' he).1 x hx
  · have hne : k % G.numRows ≠ j := fun he => by
      have := Nat.mod_le k G.numRows
      have := hk.1
      omega
    have hw16 : m'.word (G.slot j + 16) = m.word (G.slot j + 16) :=
      hf.word_of_outside (hout hne) (by omega) (by omega)
    have hw20 : m'.word (G.slot j + 20) = m.word (G.slot j + 20) :=
      hf.word_of_outside (hout hne) (by omega) (by omega)
    rw [hw16, hw20]
    exact h.blank j (by omega) hj'

end Update

section Calls
variable {G : Geometry} {s : LogState} {c : ℕ → List Item} {m' : Mem}

/-- An acquisition and the groups offered to its row add a row to the log. -/
theorem LogHolds.new_row (h : LogHolds G s c) {groups : List (List Item)}
    (hrow : RowHolds G.rowLen m' (G.slot (s.rows.length % G.numRows))
      (recFormat.fit G.rowLen (storedGroups groups)))
    (hid : m'.word (G.slot (s.rows.length % G.numRows) + 16) = s.rows.length % 4294967296)
    (hnext : m'.word 28 = (s.rows.length + 1) % 4294967296)
    (hf : Mem.Frame (G.acquired s.rows.length) s.mem m')
    (hgood : GoodRow (offers G.rowLen [] groups)) :
    LogHolds G ⟨m', s.rows ++ [G.slot (s.rows.length % G.numRows)]⟩
      (Function.update c s.rows.length (offers G.rowLen [] groups)) := by
  have hpos := G.numRows_pos
  rw [storedGroups, ← offers_stored] at hrow
  have hrest := h.rest.update (Or.inr ⟨rfl, rfl⟩ : s.rows.length + 1 = _ ∨ _) ⟨by omega, by omega⟩ hf
    hid hrow fun x hx => by
      obtain ⟨y, -, rfl⟩ := List.mem_map.mp hx
      exact y.wellTyped
  refine ⟨?_, by simpa using hnext, fun k r hk => ?_, fun k hk => ?_⟩
  · simp only [List.length_append, List.length_singleton]
    convert hrest using 2 with k
    by_cases he : k = s.rows.length
    · subst he; simp
    · simp [he]
  · rcases getElem?_concat_some hk with hk | ⟨rfl, rfl⟩
    · exact h.ptr k r hk
    · rfl
  · simp only [List.length_append, List.length_singleton] at hk
    by_cases he : k = s.rows.length
    · rw [he, Function.update_self]; exact hgood
    · rw [Function.update_of_ne he]
      exact h.good k ⟨by have := hk.1; omega, by have := hk.2; omega⟩

theorem Event.logged_good {e : Event} (h : e.Short) :
    ∀ x ∈ e.logged, x.NulFree ∧ x.isLocation = false := by
  intro x hx
  cases hm : e.msg with
  | none =>
    simp only [Event.logged, hm, List.append_nil, List.mem_cons, List.not_mem_nil, or_false] at hx
    rcases hx with rfl | rfl <;> exact ⟨trivial, rfl⟩
  | some b =>
    simp only [Event.logged, hm, List.cons_append, List.nil_append, List.mem_cons, List.not_mem_nil,
      or_false] at hx
    rcases hx with rfl | rfl | rfl
    · exact ⟨trivial, rfl⟩
    · exact ⟨trivial, rfl⟩
    · refine ⟨fun h0 => ?_, rfl⟩
      obtain ⟨i, hi, hb⟩ := List.mem_map.mp h0
      exact (h b hm).2.2 i (List.mem_range.mp hi) hb

theorem strItem_good (str : Option CStr) :
    ∀ x ∈ strItem str, x.NulFree ∧ x.isLocation = false := by
  intro x hx
  cases str with
  | none => simp [strItem] at hx
  | some s =>
    rw [strItem, List.mem_singleton] at hx
    rw [hx]
    exact ⟨s.nul_free, rfl⟩

theorem Append.logged_good {a : Append} (h : a.Short) :
    ∀ x ∈ a.logged, x.NulFree ∧ x.isLocation = false := by
  intro x hx
  rcases a with s | ⟨_ | b, len⟩ | _ | _ | _ | _ | _ | _ | _
  case str => exact strItem_good s x hx
  case str2.none => simp [Append.logged] at hx
  case str2.some =>
    rw [Append.logged, List.mem_singleton] at hx
    rw [hx]
    refine ⟨fun h0 => ?_, rfl⟩
    obtain ⟨i, hi, hb⟩ := List.mem_map.mp h0
    exact h.2.2 i (List.mem_range.mp hi) hb
  all_goals
    rw [Append.logged, List.mem_singleton] at hx
    rw [hx]
    exact ⟨trivial, rfl⟩

theorem mem_oneByOne {items g : List Item} (hg : g ∈ oneByOne items) {x : Item} (hx : x ∈ g) :
    x ∈ items := by
  obtain ⟨y, hy, rfl⟩ := List.mem_map.mp hg
  rw [List.mem_singleton.mp hx]
  exact hy

theorem locationItem_good (options : ℕ) (filename : Option CStr) (lineno : Int32) (rowLen : ℕ) :
    GoodRow (offers rowLen [] (oneByOne (locationItem options filename lineno))) := by
  refine GoodRow.location_offers (fun x hx => ?_) fun x hx => ?_ <;>
  · cases filename with
    | none => simp [locationItem] at hx
    | some s =>
      simp only [locationItem] at hx
      split at hx
      · simp only [List.mem_cons, List.not_mem_nil, or_false] at hx
        rcases hx with rfl | rfl <;> first | exact s.nul_free | exact trivial | rfl
      · simp at hx

theorem oneByOne_append (a b : List Item) : oneByOne (a ++ b) = oneByOne a ++ oneByOne b := by
  simp [oneByOne]

theorem offers_append (rowLen : ℕ) (row : List Item) (gs gs' : List (List Item)) :
    offers rowLen row (gs ++ gs') = offers rowLen (offers rowLen row gs) gs' := by
  simp [offers]

theorem LogHolds.write (h : LogHolds G s c) (str : Option CStr) {filename : Option CStr}
    (lineno : Int32) (env : Env) (hstr : ∀ x ∈ str, x.Short) (hfile : ∀ x ∈ filename, x.Short) :
    ∃ m', log2memWrite G.handle env str filename lineno s.mem =
        some (m', G.slot (s.rows.length % G.numRows)) ∧
      LogHolds G ⟨m', s.rows ++ [G.slot (s.rows.length % G.numRows)]⟩
        (Function.update c s.rows.length (offers G.rowLen []
          (oneByOne (locationItem G.cfg.options.toNat filename lineno ++ strItem str)))) := by
  have hstr' : ∀ x ∈ str, x.InRange := fun x hx => (hstr x hx).inRange
  have hfile' : ∀ x ∈ filename, x.InRange := fun x hx => (hfile x hx).inRange
  obtain ⟨m', e, hrow, hid, hnext, hf⟩ := h.rest.mapped.write_spec h.nextrow env lineno hstr' hfile'
  rw [offered_write_items _ lineno hstr' hfile'] at hrow
  refine ⟨m', e, h.new_row hrow hid hnext hf ?_⟩
  rw [oneByOne_append, offers_append]
  exact (locationItem_good ..).offers fun g hg x hx => strItem_good str x (mem_oneByOne hg hx)

theorem LogHolds.event (h : LogHolds G s c) {e : Event} (env : Env) (he : e.Short) :
    ∃ m', log2memTimeEvent4 G.handle env e s.mem =
        some (m', G.slot (s.rows.length % G.numRows)) ∧
      LogHolds G ⟨m', s.rows ++ [G.slot (s.rows.length % G.numRows)]⟩
        (Function.update c s.rows.length (offers G.rowLen [] (together e.logged))) := by
  obtain ⟨m', e', hrow, hid, hnext, hf⟩ := h.rest.mapped.event_spec h.nextrow env he.exact
  refine ⟨m', e', h.new_row ?_ hid hnext hf ?_⟩
  · simpa [storedGroups, together, ← e.recs_items] using hrow
  · refine GoodRow.nil.offers fun g hg x hx => ?_
    rw [together, List.mem_singleton] at hg
    subst hg
    exact Event.logged_good he x hx

theorem LogHolds.append (h : LogHolds G s c) {k : ℕ} {a : Append}
    (hk : Retained G.numRows s.rows.length k) (ha : a.Short) :
    ∃ r m', s.rows[k]? = some r ∧ a.run (some r) s.mem = some m' ∧
      LogHolds G ⟨m', s.rows⟩
        (Function.update c k (offers G.rowLen (c k) (oneByOne a.logged))) := by
  have hget := List.getElem?_eq_getElem hk.1
  have hptr := h.ptr k _ hget
  have hbase := G.slot_base (k % G.numRows)
  obtain ⟨m', e, hrow, hf⟩ := (h.rest.holds k hk).append_spec ha.inRange
  have hf : Mem.Frame (Set.Ico (G.slot (k % G.numRows) + 20) (G.slot (k % G.numRows) + (24 + G.rowLen)))
      s.mem m' := hf.mono Set.inter_subset_right
  have hgood : GoodRow (offers G.rowLen (c k) (oneByOne a.logged)) := (h.good k hk).offers
    fun g hg y hy => Append.logged_good ha y (mem_oneByOne hg hy)
  rw [a.items_stored, ← offer_stored, ← a.offers_logged] at hrow
  have hrest := h.rest.update (Or.inl rfl) hk (frame_acquired hf)
    (by rw [hf.word_of_Ico (by omega)]; exact h.rest.id k hk) hrow fun y hy => by
      obtain ⟨z, -, rfl⟩ := List.mem_map.mp hy
      exact z.wellTyped
  refine ⟨G.slot (k % G.numRows), m', by rw [hget, hptr], e, ?_, ?_, h.ptr, fun k' hk' => ?_⟩
  · convert hrest using 2 with k'
    by_cases he : k' = k
    · subst he; simp
    · simp [he]
  · rw [hf.word_of_Ico (by omega)]
    exact h.nextrow
  · by_cases he : k' = k
    · rw [he, Function.update_self]; exact hgood
    · rw [Function.update_of_ne he]; exact h.good k' hk'

theorem event3_short (flowid msgid : Int32) {msgstr : CStr} (h : msgstr.Short) :
    Event.Short ⟨flowid, msgid, some msgstr.buf, msgstr.strlen⟩ := by
  intro b hb
  have hlen := msgstr.strlen_toInt h.inRange
  have hle : msgstr.chars.length ≤ 2147483608 := h
  have hbuf : b = msgstr.buf := by
    simp only [Event.msg] at hb
    split at hb
    · exact (Option.some.inj hb).symm
    · exact absurd hb (by simp)
  refine ⟨by simp only; omega, by simp only; omega, fun i hi h0 => ?_⟩
  have hi : i < msgstr.chars.length := by simp only at hi; omega
  rw [hbuf, CStr.buf, List.getD_eq_getElem _ _ hi] at h0
  exact msgstr.nul_free (h0 ▸ List.getElem_mem hi)

/-- CALL: every allowed call succeeds, and means for the memory what it means for the log. -/
theorem LogHolds.call (h : LogHolds G s c) {q : Queue (List Item)} {op : Op}
    (hq : q.Shows G.numRows s.rows.length c) (hop : op.Allowed G.numRows s.rows.length) :
    ∃ s' c', op.call G.handle s = some s' ∧ LogHolds G s' c' ∧
      s'.rows.length = s.rows.length + op.acquires ∧
      (op.log together G.numRows G.rowLen G.cfg.options.toNat q).Shows G.numRows s'.rows.length c' := by
  have hevent : ∀ (e : Event) (env : Env), e.Short → ∃ m' c',
      log2memTimeEvent4 G.handle env e s.mem = some (m', G.slot (s.rows.length % G.numRows)) ∧
      LogHolds G ⟨m', s.rows ++ [G.slot (s.rows.length % G.numRows)]⟩ c' ∧
      (q.push G.numRows (offers G.rowLen [] (together e.logged))).Shows G.numRows
        (s.rows.length + 1) c' := fun e env he => by
    obtain ⟨m', e', h'⟩ := h.event env he
    exact ⟨m', _, e', h', hq.push _⟩
  cases op with
  | write str filename lineno env =>
    obtain ⟨m', e, h'⟩ := h.write str lineno env hop.1 hop.2
    exact ⟨_, _, by simp [Op.call, e], h', by simp [Op.acquires],
      by simpa [Op.log, Op.groups] using hq.push _⟩
  | getRow filename lineno env =>
    obtain ⟨m', e, h'⟩ := h.write none lineno env (by simp) hop
    have e' : log2memGetRow G.handle env filename lineno s.mem =
        some (m', G.slot (s.rows.length % G.numRows)) := by
      rw [← e]
      simp [log2memWrite, log2memGetRow]
    refine ⟨_, _, by simp [Op.call, e'], h', by simp [Op.acquires], ?_⟩
    simpa [Op.log, Op.groups, strItem] using hq.push _
  | event4 e env =>
    obtain ⟨m', c', e', h', hq'⟩ := hevent e env hop
    exact ⟨_, c', by simp [Op.call, e'], h', by simp [Op.acquires],
      by simpa [Op.log, Op.groups, Op.event?] using hq'⟩
  | event2 flowid msgid env =>
    obtain ⟨m', c', e', h', hq'⟩ := hevent ⟨flowid, msgid, none, 0⟩ env (by simp [Event.Short, Event.msg])
    exact ⟨_, c', by simp [Op.call, log2memTimeEvent2, e'], h', by simp [Op.acquires],
      by simpa [Op.log, Op.groups, Op.event?] using hq'⟩
  | event3 flowid msgid msgstr env =>
    obtain ⟨m', c', e', h', hq'⟩ := hevent _ env (event3_short flowid msgid hop)
    exact ⟨_, c', by simp [Op.call, log2memTimeEvent3, e'], h', by simp [Op.acquires],
      by simpa [Op.log, Op.groups, Op.event?] using hq'⟩
  | append k a =>
    obtain ⟨r, m', hk, e, h'⟩ := h.append hop.1 hop.2
    exact ⟨_, _, by simp [Op.call, hk, e], h', by simp [Op.acquires],
      by simpa [Op.log] using
        hq.modify hop.1 fun row => offers G.rowLen row (oneByOne a.logged)⟩

/-- The log after a list of calls. -/
def runLog (group : List Item → List (List Item)) (cap rowLen options : ℕ) (ops : List Op) :
    Queue (List Item) := ops.foldl (Op.log group cap rowLen options) .empty

/-- RUN: every allowed list of calls succeeds, and leaves the memory showing the log. -/
theorem LogHolds.run : ∀ {ops : List Op} {s : LogState} {c : ℕ → List Item} {q : Queue (List Item)},
    LogHolds G s c → q.Shows G.numRows s.rows.length c → AllAllowed G.numRows s.rows.length ops →
    ∃ s' c', exec (Op.call G.handle) s ops = some s' ∧ LogHolds G s' c' ∧
      s'.rows.length = s.rows.length + (ops.map Op.acquires).sum ∧
      (ops.foldl (Op.log together G.numRows G.rowLen G.cfg.options.toNat) q).Shows G.numRows
        s'.rows.length c'
  | [], s, c, q, h, hq, _ => ⟨s, c, rfl, h, by simp, hq⟩
  | op :: ops, s, c, q, h, hq, ⟨hop, hops⟩ => by
    obtain ⟨s₁, c₁, e₁, h₁, hlen₁, hq₁⟩ := h.call hq hop
    obtain ⟨s₂, c₂, e₂, h₂, hlen₂, hq₂⟩ := LogHolds.run h₁ hq₁ (hlen₁ ▸ hops)
    refine ⟨s₂, c₂, by rw [exec, e₁, Option.bind_some, e₂], h₂, ?_, hq₂⟩
    rw [hlen₂, hlen₁, List.map_cons, List.sum_cons, Nat.add_assoc]

theorem LogHolds.start {m : Mem} (hm : Mapped G m) (hn : m.word 28 = 0)
    (hz : ∀ x, 92 ≤ x → m.byte x = 0) : LogHolds G ⟨m, []⟩ fun _ => [] where
  rest := .start hm hz
  nextrow := by simpa using hn
  ptr := by simp
  good k hk := absurd hk.1 (Nat.not_lt_zero k)

/-- Up to `2 ^ 32` acquisitions the visit is the window. -/
theorem visitOrder_eq_window {N n : ℕ} (h : n ≤ 4294967296) :
    visitOrder 4294967296 N n = window N n := by
  have hw : wrapPoint 4294967296 N n = n - N := by
    rw [wrapPoint, Nat.div_eq_of_lt (by omega), Nat.zero_mul, Nat.max_zero]
  rw [visitOrder, window_eq 4294967296, hw, Nat.sub_self, List.range'_zero, List.append_nil,
    List.nil_append]

/-- What the dump tool prints for a log in memory is its rendering. -/
theorem LogHolds.printed (h : LogHolds G s c) {q : Queue (List Item)}
    (hq : q.Shows G.numRows s.rows.length c) (hn : s.rows.length ≤ 4294967296) {g : Globals}
    (hg : g.terse = true) (hd : g.showdelim = true) (f : Printf) {fuel : ℕ} (hfuel : G.rowLen < fuel) :
    calculateSectionPointers G.ps s.mem = some G.handle ∧
    ∃ lines, printRows g f fuel G.handle s.mem = some lines ∧
      lines.flatMap Printed.text = render f g.delim q := by
  have hsize := h.rest.mapped.size_ge
  refine ⟨?_, _, h.rest.printRows_eq g f hfuel, ?_⟩
  · simp only [calculateSectionPointers, h.rest.mapped.header.loadConfig_eq (show 52 ≤ s.mem.size by omega),
      Option.bind_eq_bind, Option.bind_some, Geometry.handle, G.layout_eq]
    rfl
  · rw [visitOrder_eq_window hn, render, hq.rows, List.flatMap_assoc, List.flatMap_map]
    refine List.flatMap_congr fun k hk => ?_
    have hgood := h.good k (mem_window.mp hk)
    have hprefix : rowPrefix g f (G.slot (k % G.numRows)) s.mem = some [] := by simp [rowPrefix, hg]
    simp only [rowLines, renderRow]
    by_cases hnil : c k = []
    · simp [hnil]
    · have hne : recFormat.total ((c k).map Item.stored) ≠ 0 := fun h0 =>
        hnil (by simpa using recFormat.total_eq_zero h0)
      rw [if_neg hne, if_neg hnil, List.flatMap_singleton, rowLine, hprefix, Option.getD_some,
        List.nil_append, recsText_row hg hd f hgood.nulFree hgood.location]

end Calls

/-- REFINEMENT: every run of at most `2 ^ 32` acquisitions from creation succeeds, and over the section
    offsets recomputed from the stored config `print_rows` then prints the log the same calls build, a
    time event's records being kept together or not at all. -/
theorem dump_refines_log {G : Geometry} {os : Os} {date : List UInt8} {h : Handle} {m₀ : Mem}
    {ops : List Op} (hc : create os G.ps date G.config = some (h, m₀))
    (hops : AllAllowed G.numRows 0 ops) (hn : (ops.map Op.acquires).sum ≤ 4294967296) :
    ∃ s, exec (Op.call h) ⟨m₀, []⟩ ops = some s ∧
      calculateSectionPointers G.ps s.mem = some h ∧
      ∀ (g : Globals) (f : Printf) (fuel : ℕ), g.terse = true → g.showdelim = true →
        G.rowLen < fuel → ∃ lines, printRows g f fuel h s.mem = some lines ∧
          lines.flatMap Printed.text = render f g.delim
            (runLog together G.numRows G.rowLen G.cfg.options.toNat ops) := by
  obtain ⟨rfl, hm, hnext, hz⟩ := G.of_create hc
  obtain ⟨s, c, hs, hlog, hlen, hq⟩ := (LogHolds.start hm hnext hz).run
    (Queue.shows_empty G.numRows fun _ => []) hops
  have hle : s.rows.length ≤ 4294967296 := by
    rw [hlen]
    simpa using hn
  refine ⟨s, hs, (hlog.printed hq hle (g := ⟨true, true, []⟩) rfl rfl quiet
    (Nat.lt_succ_self _)).1, fun g f fuel hg hd hfuel => ?_⟩
  exact (hlog.printed hq hle hg hd f hfuel).2

/-- The string of the one character `c`. -/
def oneChar (c : UInt8) (h : c ≠ 0) : CStr := ⟨[c], by simpa using h.symm⟩

/-- The strings `a`, `b`, `c`, and the character `d` behind `c`. -/
def smallOps : List Op :=
  [.write (some (oneChar 97 (by decide))) none 0 smallEnv,
    .write (some (oneChar 98 (by decide))) none 0 smallEnv,
    .write (some (oneChar 99 (by decide))) none 0 smallEnv, .append 2 (.char 100)]

/-- On a ring of two rows `b` and `c` are kept, and there is no room for `d` behind `c`. -/
theorem dump_refines_log_small : ∃ m₀ s lines,
    create ⟨true, true⟩ twoRows.ps [] twoRows.config = some (twoRows.handle, m₀) ∧
    exec (Op.call twoRows.handle) ⟨m₀, []⟩ smallOps = some s ∧
    printRows ⟨true, true, [44]⟩ quiet 17 twoRows.handle s.mem = some lines ∧
    lines.flatMap Printed.text = [98, 10, 99, 10] := by
  obtain ⟨m₀, hc, -⟩ := twoRows.created []
  have hshort : ∀ c (h : c ≠ 0), ∀ x ∈ some (oneChar c h), x.Short := fun c h x hx => by
    rw [Option.mem_some_iff] at hx
    subst hx
    show 1 ≤ 2147483608
    omega
  have hnone : ∀ x ∈ (none : Option CStr), x.Short := by simp
  have hops : AllAllowed twoRows.numRows 0 smallOps :=
    ⟨⟨hshort _ _, hnone⟩, ⟨hshort _ _, hnone⟩, ⟨hshort _ _, hnone⟩, ⟨by decide, trivial⟩, trivial⟩
  obtain ⟨s, hs, -, hprint⟩ := dump_refines_log hc hops (by decide)
  obtain ⟨lines, hl, ht⟩ := hprint ⟨true, true, [44]⟩ quiet 17 rfl rfl (by decide)
  exact ⟨m₀, s, lines, hc, hs, hl, ht.trans (by decide)⟩

/-- A time event alone on a row of 16 bytes stores nothing, although its flow id would fit: kept item by
    item, it would print a line. -/
theorem dump_not_item_by_item : ¬ ∀ (G : Geometry) (os : Os) (date : List UInt8) (h : Handle)
    (m₀ : Mem) (ops : List Op), create os G.ps date G.config = some (h, m₀) →
    AllAllowed G.numRows 0 ops → (ops.map Op.acquires).sum ≤ 4294967296 →
    ∃ s, exec (Op.call h) ⟨m₀, []⟩ ops = some s ∧ calculateSectionPointers G.ps s.mem = some h ∧
      ∀ (g : Globals) (f : Printf) (fuel : ℕ), g.terse = true → g.showdelim = true →
        G.rowLen < fuel → ∃ lines, printRows g f fuel h s.mem = some lines ∧
          lines.flatMap Printed.text = render f g.delim
            (runLog oneByOne G.numRows G.rowLen G.cfg.options.toNat ops) := by
  intro hall
  obtain ⟨m₀, hc, hm, hnext, hz⟩ := twoRows.created []
  have hops : AllAllowed twoRows.numRows 0 [.event2 1 2 smallEnv] := ⟨trivial, trivial⟩
  obtain ⟨s, hs, -, hprint⟩ := hall _ _ _ _ _ _ hc hops (by decide)
  obtain ⟨s', c, hs', hlog, hlen, hq⟩ := (LogHolds.start hm hnext hz).run
    (Queue.shows_empty twoRows.numRows fun _ => []) hops
  rw [hs, Option.some.injEq] at hs'
  subst hs'
  obtain ⟨lines, hl, ht⟩ := hprint ⟨true, true, [44]⟩ quiet 17 rfl rfl (by decide)
  obtain ⟨-, lines', hl', ht'⟩ := hlog.printed hq (by rw [hlen]; simp [Op.acquires])
    (g := ⟨true, true, [44]⟩) rfl rfl quiet (show twoRows.rowLen < 17 by decide)
  rw [hl, Option.some.injEq] at hl'
  rw [← hl', ht] at ht'
  exact absurd ht' (by decide)

end Log2mem
