import Log2mem.Schemes.Numeral
import Log2mem.Dump.Attach
import Log2mem.Tables.Latched

/-! The command line of `log2mem-dump`: which branch an argument takes, and how an argument that sets a
    variable is taken apart (`process_set_var_arg`, `set_var_by_name`).

    An argument is compared with the fixed options, then with the prefixes of the typed options, then it
    is a name, and what is left is the file. Taking an argument apart only moves the shared index; it
    touches no variable, and either succeeds or ends the program.

        --int[3]=v ─▶ idx 3, v            --int3 v ─▶ idx 3, v, index + 1
        --name=v   ─▶ label name, v       --name v ─▶ label name, v, index + 1   -/

namespace Log2mem
open Schemes

/-- `OPT_DOUBLE`. -/
def optDouble : Text := ascii "--double"

/-- `OPT_STRING`. -/
def optString : Text := ascii "--string"

/-- `OPT_INT`. -/
def optInt : Text := ascii "--int"

/-- How the program ends before its time. -/
inductive Exit where
  | help
  | version
  /-- `die(msg, msg2)` -/
  | die (msg msg2 : Text)
  /-- `main` returns after `log2mem_attach` has failed -/
  | notAttached (filename strerr : Text)

/-- The status the program exits with. -/
def Exit.status : Exit → ℕ
  | help => 0
  | version => 1
  | die .. => 1
  | notAttached .. => 1

/-- What `help` prints. -/
def usage : Text :=
  ascii "usage: log2mem-dump [MEMMAP-FILE] [OPTIONS]\n" ++
  ascii "\n" ++
  ascii "Options\n" ++
  ascii "  -s\t\t\tshow memmap summary\n" ++
  ascii "  -c\t\t\tshow counters\n" ++
  ascii "  -r\t\t\tshow rows\n" ++
  ascii "  -v\t\t\tshow variables\n" ++
  ascii "  -a\t\t\tshow all data sections\n" ++
  ascii "  -F DELIM \t\tuse DELIM as output delimiter for data values\n" ++
  ascii "  -z\t\t\tsuppress delimiter\n" ++
  ascii "  -t\t\t\tterse, only print data values\n" ++
  ascii "  " ++ optDouble ++ ascii "[I]=N\t\tset var double[I] to value N\n" ++
  ascii "  " ++ optInt ++ ascii "[I]=N\t\tset var int[I] to value N\n" ++
  ascii "  --NAME=N\t\tset var with name NAME to value N\n" ++
  ascii "  --version\t\tversion info\n"

/-- What is printed as the program ends; `PACKAGE_VERSION` comes from the build. -/
def Exit.text (packageVersion : Text) : Exit → Text
  | help => usage
  | version => ascii "log2mem version: " ++ packageVersion ++ [10]
  | die msg msg2 => msg ++ msg2 ++ [10]
  | notAttached filename strerr => ascii "failed to attach to memmap file '" ++ filename ++
      ascii "', error: " ++ strerr ++ [10]

/-- `argv[i]`, for an index below `argc`. -/
def argAt (argv : List CStr) (i : ℕ) : Text := ((argv[i]?).map CStr.chars).getD []

/-- The branches of `parse_args`. -/
inductive Branch where
  | help
  | show (bits : UInt32)
  | delim
  | noDelim
  | terse
  | version
  | setDouble
  | setInt
  | setString
  | setByName
  | filename
  deriving DecidableEq

def eSummary : UInt32 := 1
def eCounters : UInt32 := 2
def eRows : UInt32 := 4
def eVars : UInt32 := 8

/-- The comparisons of `parse_args`, in order. -/
def branch (arg : Text) : Branch :=
  if arg = ascii "-h" ∨ arg = ascii "--help" then .help
  else if arg = ascii "-s" then .show eSummary
  else if arg = ascii "-c" then .show eCounters
  else if arg = ascii "-r" then .show eRows
  else if arg = ascii "-v" then .show eVars
  else if arg = ascii "-a" then .show (~~~eSummary)
  else if arg = ascii "-F" then .delim
  else if arg = ascii "-z" then .noDelim
  else if arg = ascii "-t" then .terse
  else if arg = ascii "--version" then .version
  else if optDouble <+: arg then .setDouble
  else if optInt <+: arg then .setInt
  else if optString <+: arg then .setString
  else if ascii "--" <+: arg ∧ 2 < arg.length then .setByName
  else .filename

/-- `if (*ptr == c) ptr++`. -/
def skip (c : UInt8) (ptr : Text) : Text := if ptr.head? = some c then ptr.tail else ptr

/-- The loop over the digits: `*idx = (10 * *idx) + (*ptr - '0')`. -/
def takeDigits (idx : UInt32) : Text → UInt32 × Text
  | [] => (idx, [])
  | c :: ptr => if isDigit c then takeDigits (10 * idx + (c.toUInt32 - 48)) ptr else (idx, c :: ptr)

/-- `process_set_var_arg`: the index, the value and the argument index left behind. -/
def processSetVarArg (argv : List CStr) (argi : ℕ) ( optionprefix : Text) :
    Except Exit (UInt32 × Text × ℕ) :=
  let firstarg := argAt argv argi
  let ptr := skip 91 (firstarg.drop optionprefix.length)
  let (idx, ptr) := takeDigits 0 ptr
  match skip 93 ptr with
  | [] =>
    match argv[argi + 1]? with
    | none => .error (.die (ascii "missing argument to ") firstarg)
    | some next => .ok (idx, next.chars, argi + 1)
  | c :: value =>
    if c = 61 then .ok (idx, value, argi)
    else .error (.die (ascii "expected numeric digits, ") firstarg)

/-- The part of `set_var_by_name` before the parse-only test: the label, the value and the argument index
    left behind. -/
def nameArg (argv : List CStr) (argi : ℕ) : Except Exit (Text × Text × ℕ) :=
  let firstptr := argAt argv argi
  let firstarg := firstptr.drop 2
  if 61 ∈ firstarg then
    .ok (firstarg.takeWhile (· ≠ 61), (firstarg.dropWhile (· ≠ 61)).tail, argi)
  else
    match argv[argi + 1]? with
    | none => .error (.die (ascii "missing argument after ") firstptr)
    | some next => .ok (firstarg, next.chars, argi + 1)

/-! ### Numeric arguments -/

section Digits
variable {idx : UInt32} {d rest : Text}

theorem takeDigits_eq (ptr : Text) :
    takeDigits idx ptr = (decimal32 idx (ptr.takeWhile isDigit), ptr.dropWhile isDigit) := by
  induction ptr generalizing idx with
  | nil => rfl
  | cons c ptr ih =>
    by_cases hc : isDigit c = true
    · rw [takeDigits, if_pos hc, ih, List.takeWhile_cons_of_pos hc, List.dropWhile_cons_of_pos hc]
      rfl
    · rw [takeDigits, if_neg hc, List.takeWhile_cons_of_neg hc, List.dropWhile_cons_of_neg hc]
      rfl

theorem skip_eq (c : UInt8) (ptr : Text) : skip c ptr = ptr ∨ ptr = c :: skip c ptr := by
  cases ptr with
  | nil => exact Or.inl rfl
  | cons x ptr =>
    by_cases hx : x = c
    · exact Or.inr (by simp [skip, hx])
    · exact Or.inl (by simp [skip, hx])

@[simp] theorem skip_cons (c : UInt8) (ptr : Text) : skip c (c :: ptr) = ptr := by simp [skip]

theorem skip_of_head {c : UInt8} {ptr : Text} (h : ptr.head? ≠ some c) : skip c ptr = ptr := if_neg h

end Digits

/-- A numeric argument: the prefix, digits that may stand in brackets, and the value behind a `=` or in
    the next argument. -/
def IndexForm (argv : List CStr) (argi : ℕ) ( optionprefix d value : Text) (next : ℕ) : Prop :=
  (∀ c ∈ d, isDigit c = true) ∧ ∃ opening closing : Text, (opening = [] ∨ opening = [91]) ∧
    (closing = [] ∨ closing = [93]) ∧
    ((argAt argv argi = optionprefix ++ opening ++ d ++ closing ++ 61 :: value ∧ next = argi) ∨
      (argAt argv argi = optionprefix ++ opening ++ d ++ closing ∧
        ∃ arg, argv[argi + 1]? = some arg ∧ value = arg.chars ∧ next = argi + 1))

section Forms
variable {argv : List CStr} {argi next : ℕ} { optionprefix d value : Text}

/-- What the prefix, the brackets and the digits leave of an argument. -/
theorem processSetVarArg_tail (rest : Text) {opening closing : Text} (hd : ∀ c ∈ d, isDigit c = true)
    (ho : opening = [] ∨ opening = [91]) (hc : closing = [] ∨ closing = [93])
    (hrest : rest = [] ∨ rest.head? = some 61)
    (harg : argAt argv argi = optionprefix ++ opening ++ d ++ closing ++ rest) :
    takeDigits 0 (skip 91 ((argAt argv argi).drop optionprefix.length)) =
      (decimal32 0 d, closing ++ rest) ∧ skip 93 (closing ++ rest) = rest := by
  have hhead : ∀ c ∈ (closing ++ rest).head?, isDigit c = false ∧ c ≠ 91 := by
    have hfirst : ∀ c ∈ (closing ++ rest).head?, c = 93 ∨ c = 61 := by
      intro c hmem
      rcases hc with rfl | rfl
      · rcases hrest with rfl | hr
        · simp at hmem
        · rw [List.nil_append, hr, Option.mem_some_iff] at hmem
          exact Or.inr hmem.symm
      · rw [List.singleton_append, List.head?_cons, Option.mem_some_iff] at hmem
        exact Or.inl hmem.symm
    intro c hmem
    rcases hfirst c hmem with rfl | rfl <;> decide
  constructor
  · have hskip : skip 91 ((argAt argv argi).drop optionprefix.length) = d ++ (closing ++ rest) := by
      rw [harg, List.append_assoc, List.append_assoc, List.append_assoc, List.drop_left]
      rcases ho with rfl | rfl
      · refine skip_of_head fun h91 => ?_
        cases d with
        | nil => exact (hhead 91 (by simpa using h91)).2 rfl
        | cons c d =>
          have hdig := hd c (List.mem_cons_self ..)
          rw [List.nil_append, List.cons_append, List.head?_cons, Option.some.injEq] at h91
          rw [h91] at hdig
          exact absurd hdig (by decide)
      · exact skip_cons 91 _
    obtain ⟨htake, hdrop⟩ := span_unique _ hd fun c hc => (hhead c hc).1
    rw [hskip, takeDigits_eq, htake, hdrop]
  · rcases hc with rfl | rfl
    · refine skip_of_head ?_
      rcases hrest with rfl | hr
      · simp
      · simp [hr]
    · exact skip_cons 93 rest

/-- ACCEPTED: an argument of the form gives its digits' value, wrapped, and its value. -/
theorem IndexForm.process (h : IndexForm argv argi optionprefix d value next) :
    processSetVarArg argv argi optionprefix = .ok (decimal32 0 d, value, next) := by
  obtain ⟨hd, opening, closing, ho, hc, ⟨harg, rfl⟩ | ⟨harg, arg, hnext, rfl, rfl⟩⟩ := h
  · obtain ⟨hdigits, hskip⟩ := processSetVarArg_tail (61 :: value) hd ho hc (Or.inr rfl) harg
    simp [processSetVarArg, hdigits, hskip]
  · obtain ⟨hdigits, hskip⟩ := processSetVarArg_tail [] hd ho hc (Or.inl rfl)
      (by rw [List.append_nil]; exact harg)
    rw [List.append_nil] at hdigits hskip
    simp [processSetVarArg, hdigits, hskip, hnext]

/-- REJECTED: what is accepted has the form. -/
theorem IndexForm.of_process {idx : UInt32} (hoption : optionprefix <+: argAt argv argi)
    (h : processSetVarArg argv argi optionprefix = .ok (idx, value, next)) :
    ∃ d, IndexForm argv argi optionprefix d value next ∧ idx = decimal32 0 d := by
  obtain ⟨rest, hrest⟩ := hoption
  have hdrop : (argAt argv argi).drop optionprefix.length = rest := by rw [← hrest, List.drop_left]
  set ptr := skip 91 rest with hptr
  have hopen : ∃ opening : Text, (opening = [] ∨ opening = [91]) ∧ rest = opening ++ ptr := by
    rcases skip_eq 91 rest with h91 | h91
    · exact ⟨[], Or.inl rfl, by rw [hptr, h91]; rfl⟩
    · exact ⟨[91], Or.inr rfl, h91⟩
  obtain ⟨opening, ho, hopening⟩ := hopen
  have hclose : ∃ closing : Text, (closing = [] ∨ closing = [93]) ∧
      ptr.dropWhile isDigit = closing ++ skip 93 (ptr.dropWhile isDigit) := by
    rcases skip_eq 93 (ptr.dropWhile isDigit) with h93 | h93
    · exact ⟨[], Or.inl rfl, by rw [h93]; rfl⟩
    · exact ⟨[93], Or.inr rfl, h93⟩
  obtain ⟨closing, hc, hclosing⟩ := hclose
  have harg : argAt argv argi = optionprefix ++ opening ++ ptr.takeWhile isDigit ++ closing ++
      skip 93 (ptr.dropWhile isDigit) := by
    rw [List.append_assoc, ← hclosing, List.append_assoc, List.takeWhile_append_dropWhile,
      List.append_assoc, ← hopening, hrest]
  have hd : ∀ c ∈ ptr.takeWhile isDigit, isDigit c = true := fun c hc => List.mem_takeWhile_imp hc
  simp only [processSetVarArg, hdrop, ← hptr, takeDigits_eq] at h
  cases hs : skip 93 (ptr.dropWhile isDigit) with
  | nil =>
    rw [hs] at h harg
    rw [List.append_nil] at harg
    cases hn : argv[argi + 1]? with
    | none => simp [hn] at h
    | some arg =>
      simp only [hn, Except.ok.injEq, Prod.mk.injEq] at h
      obtain ⟨hidx, hvalue, hnext⟩ := h
      exact ⟨_, ⟨hd, opening, closing, ho, hc, Or.inr ⟨harg, arg, hn, hvalue.symm, hnext.symm⟩⟩, hidx.symm⟩
  | cons c tail =>
    rw [hs] at h harg
    by_cases h61 : c = 61
    · simp only [if_pos h61, Except.ok.injEq, Prod.mk.injEq] at h
      obtain ⟨hidx, hvalue, hnext⟩ := h
      rw [h61, hvalue] at harg
      exact ⟨_, ⟨hd, opening, closing, ho, hc, Or.inl ⟨harg, hnext.symm⟩⟩, hidx.symm⟩
    · simp [h61] at h

end Forms

end Log2mem
