import Log2mem.Schemes.Word
import Log2mem.Schemes.Memory
import Log2mem.Schemes.Records
import Log2mem.Schemes.Lookup
import Log2mem.Schemes.Traverse
import Log2mem.Schemes.Slice
import Log2mem.Schemes.Strides
import Log2mem.Schemes.Masked
import Log2mem.Schemes.Runs
import Log2mem.Schemes.Fair
import Log2mem.Schemes.Simulates
import Log2mem.Schemes.Window
import Log2mem.Schemes.Smear
import Log2mem.Schemes.Wrap
import Log2mem.Schemes.Queue
import Log2mem.Schemes.Fields
import Log2mem.Schemes.Agree
import Log2mem.Layout.Config
import Log2mem.Layout.Rounding
import Log2mem.Layout.Sections
import Log2mem.Layout.Masks
import Log2mem.Layout.Create
import Log2mem.Row.Record
import Log2mem.Row.Push
import Log2mem.Row.Acquire
import Log2mem.Row.Fill
import Log2mem.Row.Slot
import Log2mem.Dump.Walk
import Log2mem.Dump.RoundTrip
import Log2mem.Ring.Geometry
import Log2mem.Dump.Rows
import Log2mem.Ring.Steps
import Log2mem.Ring.Invariant
import Log2mem.Ring.Progress
import Log2mem.Ring.Isolation
import Log2mem.Ring.WaitFree
import Log2mem.Ring.Lapped
import Log2mem.Dump.Order
import Log2mem.Log.Calls
import Log2mem.Log.Items
import Log2mem.Log.Sequential
import Log2mem.Log.Refinement
import Log2mem.Log.Stamps
import Log2mem.Tables.Counters
import Log2mem.Tables.Vars
import Log2mem.Api.Isolation
import Log2mem.Dump.Tiling
import Log2mem.Dump.Attach
import Log2mem.Dump.Safety
import Log2mem.Init.Steps
import Log2mem.Init.Once
import Log2mem.Init.Attach
import Log2mem.Init.Liveness
import Log2mem.Row.Timestamp
import Log2mem.Row.Lengths
import Log2mem.Row.Paths
import Log2mem.Dump.Location
import Log2mem.Schemes.Threads
import Log2mem.Tables.Tally
import Log2mem.Schemes.Latch
import Log2mem.Tables.Latched
import Log2mem.Tables.Racing
import Log2mem.Tables.Labelled
import Log2mem.Dump.Reported
import Log2mem.Schemes.Numeral
import Log2mem.Tool.Args
import Log2mem.Tool.SetVar
import Log2mem.Tool.ByName
import Log2mem.Tool.Texts
import Log2mem.Tool.Names
import Log2mem.Tool.ByIndex
import Log2mem.Tool.Passes
import Log2mem.Tool.AllOrNone
import Log2mem.Dump.Summary
import Log2mem.Tool.Agreement
import Log2mem.Tool.Settable
import Log2mem.System.Store
import Log2mem.System.Holds
import Log2mem.System.Report
import Log2mem.System.Session
import Log2mem.Schemes.Parts
import Log2mem.Dump.Instant
import Log2mem.Dump.Headings
import Log2mem.Schemes.Torn
import Log2mem.System.Creation
import Log2mem.System.Footprint
import Log2mem.System.Program
import Log2mem.System.Snapshot
import Log2mem.System.Lifetime
