import Unixprog.Library.Words
import Unixprog.Library.Fills
import Unixprog.Library.Runs
import Unixprog.Library.Buffers
import Unixprog.Library.CStrings
import Unixprog.Library.Tokens
import Unixprog.Library.ProcMaps
import Unixprog.Library.Patches
import Unixprog.Library.Traps
import Unixprog.Library.X86
import Unixprog.Library.Sweeps
import Unixprog.Library.Plays
import Unixprog.Library.Aborts
import Unixprog.Library.Mirrors
import Unixprog.Library.Yields
import Unixprog.Library.Avoids
import Unixprog.Library.Interleavings
import Unixprog.Library.Histories
import Unixprog.Sdb.Session
import Unixprog.Sdb.Load
import Unixprog.Sdb.Debugger
import Unixprog.Sdb.Effects
import Unixprog.Sdb.Lifecycle
import Unixprog.Sdb.Overlay
import Unixprog.Sdb.Bookkeeping
import Unixprog.Sdb.Order
import Unixprog.Sdb.Restart
import Unixprog.Sdb.Cpu
import Unixprog.Sdb.Transparency
import Unixprog.Sdb.Returns
import Unixprog.Sdb.Continue
import Unixprog.Sdb.Step
import Unixprog.Sdb.Recursion
import Unixprog.Sdb.Depth
import Unixprog.Sdb.Main
import Unixprog.Sdb.Script
import Unixprog.Sdb.Admission
import Unixprog.Sdb.Deletion
import Unixprog.Sdb.Registers
import Unixprog.Sdb.Mappings
import Unixprog.Sdb.Text
import Unixprog.Sdb.Output
import Unixprog.Sdb.Sections
import Unixprog.Sdb.FailedLoads
import Unixprog.Sdb.Control
import Unixprog.Sdb.Typed
import Unixprog.Sdb.Kills
import Unixprog.Sdb.Disassembly
import Unixprog.Libmini.Asm
import Unixprog.Libmini.Jump
import Unixprog.Libmini.Mask
import Unixprog.Libmini.Checkpoints
import Unixprog.Libmini.SigSet
import Unixprog.Logger.Calls
import Unixprog.Logger.Wrappers
import Unixprog.Logger.Invisible
import Unixprog.Logger.Records
import Unixprog.Logger.Binding
import Unixprog.Logger.Journal
import Unixprog.Logger.Descriptors
import Unixprog.Logger.Shared
import Unixprog.Logger.Previews
import Unixprog.Hw1.Scan
import Unixprog.Hw1.Listing
import Unixprog.Hw1.Prints
import Unixprog.Hw1.Rows
import Unixprog.Hw1.StatLine
import Unixprog.Hw1.Links
import Unixprog.Hw1.OpenFiles
import Unixprog.Hw1.MapLines
import Unixprog.Hw1.MappedFiles
import Unixprog.Hw1.MappedNames
import Unixprog.Hw1.Filters
import Unixprog.Hw1.Blocks
import Unixprog.Hw1.Sizes
import Unixprog.Hw1.CommandLine
import Unixprog.Hw1.Table
import Unixprog.Libmini.Perror
import Unixprog.Library.Branches
import Unixprog.Hw2.Handover
import Unixprog.Hw2.Environment
import Unixprog.Libmini.Convention
import Unixprog.Libmini.Sleep
import Unixprog.Libmini.Signals
import Unixprog.Library.Guided
import Unixprog.Library.Paths
import Unixprog.Logger.Denoted
