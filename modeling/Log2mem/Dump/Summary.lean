import Log2mem.Dump.Attach
import Log2mem.Tool.Passes

/-! `print_summary`, and what the tool prints in all.

    The summary shows the header as it is stored and the sections as they are recomputed from the config
    in it. `parse_args` prints the sections asked for in one fixed order, whatever their order on the
    command line.

        config, nextrow, version, arch ─── header ──▶ first two blocks
        log2mem_calculate_layout(config) ───────────▶ third block
        sizeof of the structs ──────────────────────▶ last block -/

namespace Log2mem
open Schemes

/-- The names printed for the options, in the order of the `if`s and of the `switch`. -/
def optionNames (options : ℕ) : List Text :=
  (if options &&& optFileLine ≠ 0 then [ascii "MEMLOG_FILE_LINE"] else []) ++
  (if options &&& optThreadId ≠ 0 then [ascii "MEMLOG_THREADID"] else []) ++
  match options &&& 12 with
  | 12 => [ascii "MEMLOG_RDTSC"]
  | 4 => [ascii "MEMLOG_GETTIMEOFDAY"]
  | 8 => [ascii "MEMLOG_CLOCKGETTIME"]
  | _ => []

/-- A line `"name: value\n"`. -/
def summaryLine (name : String) (value : Text) : Text := ascii name ++ value ++ [10]

/-- What is shown of the header besides the config. -/
structure HeaderShown where
  datecreated : Text
  nextrow : ℕ
  version : ℕ
  arch : ℕ
  flags : ℕ

/-- "Memmap configuration": counts are printed with `%d`. -/
def configText (f : Printf) (c : Config) (s : HeaderShown) : Text :=
  ascii "Memmap configuration\n--------------------\n" ++
  summaryLine "created: " s.datecreated ++
  summaryLine "options: " ([44].intercalate (optionNames c.options.toNat)) ++
  summaryLine "number of counters: " (f.int (toInt32 c.numCounters.toNat)) ++
  summaryLine "number of rows: " (f.int (toInt32 c.numRows.toNat)) ++
  summaryLine "number of vars " (f.int (toInt32 c.numVars.toNat)) ++
  summaryLine "row data size: " (f.int (toInt32 c.rowLen.toNat)) ++
  summaryLine "row total size: " (f.uint (calcRowTotalSize c.rowLen.toNat)) ++
  summaryLine "next rowid: " (f.int (toInt32 s.nextrow))

/-- "Memmap architecture" -/
def architectureText (f : Printf) (s : HeaderShown) : Text :=
  ascii "\nMemmap architecture\n-------------------\n" ++
  summaryLine "version: " (f.int (toInt32 s.version)) ++
  summaryLine "arch: " (f.int (toInt32 s.arch)) ++
  summaryLine "endian: " (ascii (if s.flags &&& 1 ≠ 0 then "little" else "big"))

/-- "Section offsets & size": the `int` offsets are printed with `%u`. -/
def offsetsText (f : Printf) (L : Layout) : Text :=
  ascii "\nSection offsets & size\n----------------------\n" ++
  summaryLine "header: " (f.uint 0) ++
  summaryLine "counters: " (f.uint (toU32 L.countersOff)) ++
  summaryLine "rows: " (f.uint (toU32 L.rowsOff)) ++
  summaryLine "labels: " (f.uint (toU32 L.counterLabelsOff)) ++
  summaryLine "double_vars: " (f.uint (toU32 L.doubleVarsOff)) ++
  summaryLine "int_vars: " (f.uint (toU32 L.intVarsOff)) ++
  summaryLine "memmap size: " (f.uint (toU32 L.size))

/-- "Fixed structure sizes" -/
def structuresText (f : Printf) : Text :=
  ascii "\nFixed structure sizes\n---------------------\n" ++
  summaryLine "MEMLOG_MM_HEADER_SIZE: " (f.int 256) ++
  summaryLine "MEMLOG_LABEL_LEN: " (f.int labelLen) ++
  summaryLine "sizeof(log2mem_mm_header): " (f.uint 92) ++
  summaryLine "sizeof(log2mem_data_hdr): " (f.uint 8) ++
  summaryLine "sizeof(log2mem_row): " (f.uint 24) ++
  summaryLine "sizeof(log2mem_counter): " (f.uint 8) ++
  summaryLine "sizeof(log2mem_var_double): " (f.uint VarTable.double.size) ++
  summaryLine "sizeof(log2mem_var_int): " (f.uint VarTable.int.size)

/-- `print_summary`. -/
def printSummary (f : Printf) (ps : PageSize) (m : Mem) : Option Text := do
  let config ← loadConfig m
  let datecreated ← printStr 60 m
  let nextrow ← hdrNextrow m
  let version ← m.load32 52
  let arch ← m.load32 56
  let flags ← m.load32 24
  let shown : HeaderShown := { datecreated, nextrow, version, arch, flags }
  return configText f config shown ++ architectureText f shown ++
    offsetsText f (calculateLayout ps config) ++ structuresText f

/-- One of the calls at the end of `parse_args`. -/
def printSection (g : Globals) (f : Printf) (fuel : ℕ) (ps : PageSize) (h : Handle) (m : Mem) :
    Section → Option Text
  | .summary => printSummary f ps m
  | .rows => (printRows g f fuel h m).map fun lines => lines.flatMap Printed.text
  | .counters => printCounters f h m
  | .vars => printVars f h m

/-- What the second pass prints for the sections asked for. -/
def printSections (g : Globals) (f : Printf) (fuel : ℕ) (ps : PageSize) (h : Handle) (m : Mem)
    (shown : List Section) : Option Text := do
  let texts ← shown.mapM (printSection g f fuel ps h m)
  return texts.flatten

end Log2mem
