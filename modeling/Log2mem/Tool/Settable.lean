import Log2mem.Tool.Agreement

/-! The names that reach their variables.

    An argument `--NAME=N` is compared with the typed options first, and only then looked up among the
    texts, which keep 63 bytes of a name. So a name that starts like a typed option never gets to the
    search, a longer name is not found, and one of 63 bytes is shared with every longer name that it
    starts. What a name sets is one set of slots, for every value, and it is compared with the slots that
    are registered under it.

        --double3=N ──▶ slot 3 of the double variables        --internal=N ──▶ rejected
        --speed=N ──texts──▶ used slots whose text is "speed"                         -/

namespace Log2mem
open Schemes

/-- The fixed options that start with two dashes. -/
def fixedOptions : List Text := [ascii "--help", ascii "--version", optDouble, optInt, optString]

/-- An argument gives a name a value: in one, or in two when it is not itself a fixed option. -/
def GivesName (argv : List CStr) (i : ℕ) (name value : Text) : Prop :=
  argAt argv i = labelArg name value ∨
    ascii "--" ++ name ∉ fixedOptions ∧ argAt argv i = ascii "--" ++ name ∧
      ∃ arg, argv[i + 1]? = some arg ∧ arg.chars = value

/-- Exactly the variables of a set take a value of their table. -/
def Updates (h : Handle) (n : ℕ) (S : VarTable → ℕ → Prop) (val : (t : VarTable) → t.Value)
    (m m' : Mem) : Prop :=
  ∀ (t : VarTable) (i : ℕ), i < n →
    (S t i → varValue t h i m' = leBytes t.width (t.bits (val t))) ∧
    (¬ S t i → varValue t h i m' = varValue t h i m)

/-- Wherever an argument gives the name a value that converts for the variables registered under it,
    exactly those take what it converts to, and nothing else of the memmap changes. -/
def SetsRegistered (f : Sscanf) (h : Handle) (n : ℕ) (calls : List VarCall) (m : Mem) (name : Text) :
    Prop :=
  ∀ (env : ToolEnv) (argv : List CStr) (s : ArgState) (out value : Text) (val : (t : VarTable) → t.Value),
    env.sscanf = f → GivesName argv s.i name value →
    (∀ t i, i < n → Registered n calls name t i → f.scan t value = some (val t)) →
    ∃ s' w, parseArg env argv (some h) s ⟨m, out⟩ = .done s' w ∧ ValuesOnly h n m w.mem ∧
      Updates h n (Registered n calls name) val m w.mem

/-- What follows the dashes of a typed option. -/
def VarTable.word : VarTable → Text
  | double => ascii "double"
  | int => ascii "int"

section Dispatch
variable {name value : Text} {argv : List CStr} {argi : ℕ} {t : VarTable}

theorem VarTable.option_eq (t : VarTable) : t.option = ascii "--" ++ t.word := by cases t <;> rfl

theorem dashes_ne {x s : Text} (hs : s.take 2 ≠ ascii "--") : ascii "--" ++ x ≠ s := by
  rintro rfl
  exact hs rfl

theorem branch_dashes (x : Text) : branch (ascii "--" ++ x) =
    if x = ascii "help" then .help else if x = ascii "version" then .version
    else if ascii "double" <+: x then .setDouble else if ascii "int" <+: x then .setInt
    else if ascii "string" <+: x then .setString else if x ≠ [] then .setByName else .filename := by
  have hdouble : optDouble = ascii "--" ++ ascii "double" := rfl
  have hint : optInt = ascii "--" ++ ascii "int" := rfl
  have hstring : optString = ascii "--" ++ ascii "string" := rfl
  have hhelp : ascii "--help" = ascii "--" ++ ascii "help" := rfl
  have hversion : ascii "--version" = ascii "--" ++ ascii "version" := rfl
  have htwo : (ascii "--").length = 2 := rfl
  have hlen : 2 < (ascii "--" ++ x).length ↔ x ≠ [] := by
    rw [List.length_append, htwo, ← List.length_pos_iff]
    omega
  have hh : ascii "--" ++ x ≠ ascii "-h" := dashes_ne (by decide)
  simp only [branch, hdouble, hint, hstring, hhelp, hversion, List.prefix_append_right_inj,
    List.append_cancel_left_eq, List.prefix_append, true_and, hlen, hh, false_or]
  -- the eight short options
  iterate 8 rw [if_neg (dashes_ne (by decide))]

/-- A prefix without a `=` does not reach behind one. -/
theorem prefix_label_iff {p : Text} (hp : 61 ∉ p) : p <+: name ++ 61 :: value ↔ p <+: name := by
  refine ⟨fun h => ?_, fun h => h.trans (List.prefix_append ..)⟩
  rcases List.prefix_or_prefix_of_prefix h (List.prefix_append name (61 :: value)) with h' | ⟨q, rfl⟩
  · exact h'
  · rw [List.prefix_append_right_inj] at h
    cases q with
    | nil => simp
    | cons c q =>
      obtain ⟨rest, hrest⟩ := h
      rw [List.cons_append, List.cons.injEq] at hrest
      exact absurd (List.mem_append_right name (by rw [hrest.1]; exact List.mem_cons_self ..)) hp

theorem label_ne {p : Text} (hp : 61 ∉ p) : name ++ 61 :: value ≠ p := by
  rintro rfl
  exact hp (by simp)

theorem branch_labelArg (name value : Text) : branch (labelArg name value) =
    if ascii "double" <+: name then .setDouble else if ascii "int" <+: name then .setInt
    else if ascii "string" <+: name then .setString else .setByName := by
  have hdouble : ascii "double" <+: name ++ 61 :: value ↔ ascii "double" <+: name :=
    prefix_label_iff (by decide)
  have hint : ascii "int" <+: name ++ 61 :: value ↔ ascii "int" <+: name := prefix_label_iff (by decide)
  have hstring : ascii "string" <+: name ++ 61 :: value ↔ ascii "string" <+: name :=
    prefix_label_iff (by decide)
  have hne : name ++ 61 :: value ≠ [] := by simp
  rw [labelArg, List.append_assoc, branch_dashes, if_neg (label_ne (by decide)),
    if_neg (label_ne (by decide))]
  simp only [hdouble, hint, hstring, if_pos hne]

/-- A name that starts like no typed option is looked up, in either form. -/
theorem branch_name (value : Text) (hword : ∀ t : VarTable, ¬ t.word <+: name)
    (hstring : ¬ ascii "string" <+: name) (hne : name ≠ []) :
    branch (labelArg name value) = .setByName ∧
      (ascii "--" ++ name ∉ fixedOptions → branch (ascii "--" ++ name) = .setByName) := by
  have hdouble : ¬ ascii "double" <+: name := hword .double
  have hint : ¬ ascii "int" <+: name := hword .int
  refine ⟨by rw [branch_labelArg, if_neg hdouble, if_neg hint, if_neg hstring], fun hfixed => ?_⟩
  have hhelp : name ≠ ascii "help" := by
    rintro rfl
    exact hfixed (by decide)
  have hversion : name ≠ ascii "version" := by
    rintro rfl
    exact hfixed (by decide)
  rw [branch_dashes, if_neg hhelp, if_neg hversion, if_neg hdouble, if_neg hint, if_neg hstring,
    if_pos hne]

/-- A name that is looked up is the label, in either form. -/
theorem GivesName.nameArg (hgive : GivesName argv argi name value) (h61 : 61 ∉ name) :
    ∃ next, nameArg argv argi = .ok (name, value, next) := by
  rcases hgive with harg | ⟨-, harg, arg, hnext, rfl⟩
  · obtain ⟨htake, hdrop⟩ := label_whole (v := value) h61
    exact ⟨argi, by rw [nameArg_labelArg harg, htake, hdrop]⟩
  · refine ⟨argi + 1, ?_⟩
    have hdrop : (argAt argv argi).drop 2 = name := by rw [harg]; rfl
    simp [Log2mem.nameArg, hdrop, h61, hnext]

theorem GivesName.indexForm (hgive : GivesName argv argi name value) {opening d closing : Text}
    (ho : opening = [] ∨ opening = [91]) (hc : closing = [] ∨ closing = [93])
    (hd : ∀ c ∈ d, isDigit c = true) (hname : name = t.word ++ opening ++ d ++ closing) :
    t.option <+: argAt argv argi ∧ ∃ next, IndexForm argv argi t.option d value next := by
  have heq : ascii "--" ++ name = t.option ++ opening ++ d ++ closing := by
    rw [hname, t.option_eq]
    simp only [List.append_assoc]
  have hoption : t.option <+: ascii "--" ++ name := by
    rw [heq, List.append_assoc, List.append_assoc]
    exact List.prefix_append ..
  rcases hgive with harg | ⟨-, harg, hnext⟩
  · rw [harg, labelArg]
    exact ⟨hoption.trans (List.prefix_append ..), argi, hd, opening, closing, ho, hc,
      Or.inl ⟨by rw [harg, labelArg, heq], rfl⟩⟩
  · obtain ⟨arg, harg', hvalue⟩ := hnext
    exact ⟨harg ▸ hoption, argi + 1, hd, opening, closing, ho, hc,
      Or.inr ⟨harg.trans heq, arg, harg', hvalue.symm, rfl⟩⟩

theorem word_of_indexForm {d' value' : Text} {next : ℕ} (h61 : 61 ∉ name)
    (harg : argAt argv argi = labelArg name value)
    (hform : IndexForm argv argi t.option d' value' next) : ∃ opening closing : Text,
      (opening = [] ∨ opening = [91]) ∧ (closing = [] ∨ closing = [93]) ∧
      name = t.word ++ opening ++ d' ++ closing := by
  obtain ⟨hd, opening, closing, ho, hc, hcase⟩ := hform
  refine ⟨opening, closing, ho, hc, ?_⟩
  have hno : ∀ c ∈ t.word ++ opening ++ d' ++ closing, decide (c ≠ 61) = true := by
    intro c hmem
    refine decide_eq_true fun h => ?_
    rw [h] at hmem
    simp only [List.mem_append] at hmem
    rcases hmem with ((hw | hopen) | hdig) | hclose
    · cases t <;> exact absurd hw (by decide)
    · rcases ho with rfl | rfl <;> exact absurd hopen (by decide)
    · exact absurd (hd _ hdig) (by decide)
    · rcases hc with rfl | rfl <;> exact absurd hclose (by decide)
  have hname : ∀ c ∈ name, decide (c ≠ 61) = true := fun c hc => decide_eq_true fun h => h61 (h ▸ hc)
  have hcut := (span_unique (61 :: value) hname (by simp)).1
  rcases hcase with ⟨heq, -⟩ | ⟨heq, -⟩
  · have hsplit : name ++ 61 :: value = t.word ++ opening ++ d' ++ closing ++ 61 :: value' := by
      rw [harg, labelArg, t.option_eq] at heq
      simp only [List.append_assoc, List.append_cancel_left_eq] at heq ⊢
      exact heq
    rw [hsplit, (span_unique (61 :: value') hno (by simp)).1] at hcut
    exact hcut.symm
  · have hsplit : name ++ 61 :: value = t.word ++ opening ++ d' ++ closing := by
      rw [harg, labelArg, t.option_eq] at heq
      simp only [List.append_assoc, List.append_cancel_left_eq] at heq ⊢
      exact heq
    exact absurd (hno 61 (by rw [← hsplit]; simp)) (by decide)

end Dispatch

/-! ### What a name sets -/

section Sets
variable {f : Sscanf} {h : Handle} {n : ℕ} {calls : List VarCall} {m m₀ m₁ : Mem} {name : Text}
  {S R : VarTable → ℕ → Prop}

/-- UNIQUE: two values tell what set took them. -/
theorem Updates.subset (hS₀ : Updates h n S VarTable.zero m m₀) (hS₁ : Updates h n S VarTable.one m m₁)
    (hR₀ : Updates h n R VarTable.zero m m₀) (hR₁ : Updates h n R VarTable.one m m₁) {t : VarTable} {i : ℕ}
    (hi : i < n) (hs : S t i) : R t i := by
  by_contra hr
  have hzero := ((hS₀ t i hi).1 hs).symm.trans ((hR₀ t i hi).2 hr)
  have hone := ((hS₁ t i hi).1 hs).symm.trans ((hR₁ t i hi).2 hr)
  exact t.one_ne_zero (hone.trans hzero.symm)

/-- A name that sets its variables does so alone in a command line. -/
theorem SetsRegistered.run (hset : SetsRegistered f h n calls m name) (h0 : 0 ∉ name) (v : CStr)
    {val : (t : VarTable) → t.Value} (hscan : ∀ t, f.scan t v.chars = some (val t)) : ∃ argv s' w,
      argAt argv 1 = labelArg name v.chars ∧
      parseArg ⟨f, fun t _ => t.zero⟩ argv (some h) (.start .start) ⟨m, []⟩ = .done s' w ∧
      Updates h n (Registered n calls name) val m w.mem := by
  have harg : 0 ∉ labelArg name v.chars := by
    have hdash : 0 ∉ ascii "--" := by decide
    have hv := v.nul_free
    simp [labelArg, h0, hdash, hv]
  obtain ⟨s', w, e, -, hup⟩ := hset ⟨f, fun t _ => t.zero⟩ [v, ⟨_, harg⟩] (.start .start) [] v.chars val rfl
    (Or.inl rfl) fun t _ _ _ => hscan t
  exact ⟨_, s', w, rfl, e, hup⟩

/-- So the slots it sets are those registered under it. -/
theorem SetsRegistered.iff (hset : SetsRegistered f h n calls m name) (h0 : 0 ∉ name)
    (hzero : ∀ t, f.scan t (ascii "0") = some t.zero) (hone : ∀ t, f.scan t (ascii "1") = some t.one)
    (hS : ∀ (argv : List CStr) (v : Text) (val : (t : VarTable) → t.Value) (s' : ArgState) (w : World),
      (∀ t, f.scan t v = some (val t)) → argAt argv 1 = labelArg name v →
      parseArg ⟨f, fun t _ => t.zero⟩ argv (some h) (.start .start) ⟨m, []⟩ = .done s' w →
      Updates h n S val m w.mem) {t : VarTable} {i : ℕ} (hi : i < n) :
    Registered n calls name t i ↔ S t i := by
  obtain ⟨argv₀, s₀, w₀, harg₀, e₀, hup₀⟩ := hset.run h0 ⟨ascii "0", by decide⟩ hzero
  obtain ⟨argv₁, s₁, w₁, harg₁, e₁, hup₁⟩ := hset.run h0 ⟨ascii "1", by decide⟩ hone
  have hS₀ := hS argv₀ _ _ s₀ w₀ hzero harg₀ e₀
  have hS₁ := hS argv₁ _ _ s₁ w₁ hone harg₁ e₁
  exact ⟨fun hreg => hup₀.subset hup₁ hS₀ hS₁ hi hreg, fun hs => hS₀.subset hS₁ hup₀ hup₁ hi hs⟩

/-- A typed option with an index sets its slot, and a slot in use changes its value only. -/
theorem parseArg_word (env : ToolEnv) {argv : List CStr} {s : ArgState} (out : Text)
    {value d opening closing : Text} {t : VarTable} {val : t.Value} (hv : VarTables h n m)
    (ho : opening = [] ∨ opening = [91]) (hc : closing = [] ∨ closing = [93]) (hd : ∀ c ∈ d, isDigit c = true)
    (hname : name = t.word ++ opening ++ d ++ closing) (hgive : GivesName argv s.i name value)
    (hscan : env.sscanf.scan t value = some val) : ∃ s' w,
      parseArg env argv (some h) s ⟨m, out⟩ = .done s' w ∧
      (VarUsed h m t (decimal d % n) → ValuesOnly h n m w.mem) ∧ ∀ (t' : VarTable) (i : ℕ), i < n →
        varValue t' h i w.mem = if t = t' ∧ decimal d % n = i then leBytes t.width (t.bits val)
          else varValue t' h i m := by
  obtain ⟨hoption, next, hform⟩ := hgive.indexForm ho hc hd hname
  obtain ⟨m', e, hf, hvalue⟩ := parseArg_index env out hv hoption hform
  rw [hscan, Option.getD_some] at hvalue
  exact ⟨_, _, e, hf, hvalue⟩

/-- A name that is looked up sets the slots in use whose text it is. -/
theorem parseArg_lookup (env : ToolEnv) {argv : List CStr} {s : ArgState} (out : Text) {value : Text}
    (hl : Latched h n (m, calls)) (hword : ∀ t : VarTable, ¬ t.word <+: name)
    (hstring : ¬ ascii "string" <+: name) (hne : name ≠ []) (h61 : 61 ∉ name)
    (hgive : GivesName argv s.i name value) : ∃ s' w,
      parseArg env argv (some h) s ⟨m, out⟩ = .done s' w ∧ ValuesOnly h n m w.mem ∧
      ∀ (t : VarTable) (i : ℕ), i < n → varValue t h i w.mem =
        if Named h m name t i then scanned env.sscanf t value (varValue t h i m)
        else varValue t h i m := by
  obtain ⟨hone, htwo⟩ := branch_name value hword hstring hne
  have hbranch : branch (argAt argv s.i) = .setByName := by
    rcases hgive with harg | ⟨hfixed, harg, -⟩
    · rw [harg]
      exact hone
    · rw [harg]
      exact htwo hfixed
  obtain ⟨next, hname⟩ := hgive.nameArg h61
  obtain ⟨w, e, hf, hvalue⟩ := parseArg_name env out hl.1 hl.textsEnd hbranch hname
  refine ⟨_, w, e, hf, fun t i hi => ?_⟩
  rw [hvalue t i hi]
  simp only [hne, ne_eq, not_false_eq_true, true_and]

/-- A name that starts like a typed option has to be accepted as one, and its slot is the one set. -/
theorem SetsRegistered.of_word (hset : SetsRegistered f h n calls m name)
    (hzero : ∀ t, f.scan t (ascii "0") = some t.zero) (hone : ∀ t, f.scan t (ascii "1") = some t.one)
    (hv : VarTables h n m) (h0 : 0 ∉ name) (h61 : 61 ∉ name) {t : VarTable} (hword : t.word <+: name) :
    ∃ opening d closing : Text, (opening = [] ∨ opening = [91]) ∧ (closing = [] ∨ closing = [93]) ∧
      (∀ c ∈ d, isDigit c = true) ∧ name = t.word ++ opening ++ d ++ closing ∧
      ∀ (t' : VarTable) (i : ℕ), i < n → (Registered n calls name t' i ↔ t = t' ∧ decimal d % n = i) := by
  obtain ⟨argv, s', w, harg, e, -⟩ := hset.run h0 ⟨ascii "0", by decide⟩ hzero
  have hoption : t.option <+: argAt argv 1 := by
    rw [harg, labelArg, t.option_eq, List.append_assoc, List.prefix_append_right_inj]
    exact hword.trans (List.prefix_append ..)
  rw [parseArg_some, readArg_index hoption] at e
  cases hp : processSetVarArg argv 1 t.option with
  | error e' => simp [ArgState.start, hp, Except.map] at e
  | ok x =>
    obtain ⟨d, hform, -⟩ := IndexForm.of_process hoption hp
    obtain ⟨opening, closing, ho, hc, hname⟩ := word_of_indexForm h61 harg hform
    refine ⟨opening, d, closing, ho, hc, hform.1, hname, fun t' i hi => ?_⟩
    refine hset.iff h0 hzero hone (S := fun t' i => t = t' ∧ decimal d % n = i) ?_ hi
    intro argv v val s' w hscan harg e
    obtain ⟨s₁, w₁, e₁, -, hvalue⟩ := parseArg_word ⟨f, fun t _ => t.zero⟩ [] (s := .start .start) hv ho hc
      hform.1 hname (Or.inl harg) (hscan t)
    rw [e₁, Outcome.done.injEq] at e
    rw [← e.2]
    intro t' i hi
    rw [hvalue t' i hi]
    refine ⟨fun hs => ?_, fun hs => if_neg hs⟩
    obtain ⟨rfl, rfl⟩ := hs
    exact if_pos ⟨rfl, rfl⟩

/-- A name that is looked up is the text of the slots registered under it, and of no others. -/
theorem SetsRegistered.named_iff (hset : SetsRegistered f h n calls m name)
    (hzero : ∀ t, f.scan t (ascii "0") = some t.zero) (hone : ∀ t, f.scan t (ascii "1") = some t.one)
    (hl : Latched h n (m, calls)) (hne : name ≠ []) (h0 : 0 ∉ name) (h61 : 61 ∉ name)
    (hword : ∀ t : VarTable, ¬ t.word <+: name) (hstring : ¬ ascii "string" <+: name) {t : VarTable}
    {i : ℕ} (hi : i < n) : Registered n calls name t i ↔ Named h m name t i := by
  refine hset.iff h0 hzero hone (S := Named h m name) ?_ hi
  intro argv v val s' w hscan harg e t i hi
  obtain ⟨s₁, w₁, e₁, -, hvalue⟩ := parseArg_lookup ⟨f, fun t _ => t.zero⟩ [] (s := .start .start) hl hword
    hstring hne h61 (Or.inl harg)
  rw [e₁, Outcome.done.injEq] at e
  rw [← e.2, hvalue t i hi]
  refine ⟨fun hn => ?_, fun hn => if_neg hn⟩
  rw [if_pos hn, scanned, hscan t]

end Sets

end Log2mem
