import OsLabs.Schemes.Bytes
import OsLabs.Schemes.CStr
import OsLabs.Schemes.Loop
import OsLabs.Schemes.Walk
import OsLabs.Schemes.Refines
import OsLabs.Schemes.Pool
import OsLabs.Schemes.Stock
import OsLabs.Schemes.Tiling
import OsLabs.Schemes.Coalesce
import OsLabs.Schemes.Arena
import OsLabs.Schemes.Checked
import OsLabs.Schemes.Lexing
import OsLabs.Schemes.Contents
import OsLabs.Schemes.Text
import OsLabs.Schemes.Paged
import OsLabs.Schemes.Ring
import OsLabs.Schemes.Scanning
import OsLabs.Schemes.Tokens
import OsLabs.Ssfs.Disk
import OsLabs.Ssfs.Support
import OsLabs.Ssfs.Ops
import OsLabs.Ssfs.Layout
import OsLabs.Ssfs.Write
import OsLabs.Ssfs.Entries
import OsLabs.Ssfs.Invariant
import OsLabs.Ssfs.Atomic
import OsLabs.Ssfs.Extend
import OsLabs.Ssfs.Landing
import OsLabs.Ssfs.Isolation
import OsLabs.Ssfs.Reach
import OsLabs.Ssfs.Names
import OsLabs.Ssfs.Lengths
import OsLabs.Ssfs.Alloc
import OsLabs.Ssfs.Release
import OsLabs.Ssfs.Bounds
import OsLabs.Ssfs.Directory
import OsLabs.Ssfs.Info
import OsLabs.Ssfs.Store
import OsLabs.Ssfs.Refine
import OsLabs.Ssfs.Recall
import OsLabs.Ssfs.Account
import OsLabs.Ssfs.Remount
import OsLabs.Ssfs.Crash
import OsLabs.Mm.Heap
import OsLabs.Mm.Linked
import OsLabs.Mm.Find
import OsLabs.Mm.Merge
import OsLabs.Mm.Split
import OsLabs.Mm.Chain
import OsLabs.Mm.Runs
import OsLabs.Mm.Sizes
import OsLabs.Mm.Data
import OsLabs.Mm.Plan
import OsLabs.Vm.Isa
import OsLabs.Vm.Encoding
import OsLabs.Vm.Machine
import OsLabs.Vm.Paging
import OsLabs.Vm.Virtual
import OsLabs.Vm.Swap
import OsLabs.Vm.Program
import OsLabs.Vm.ZigProgram
import OsLabs.Vm.Sources
import OsLabs.Vm.Agree
import OsLabs.Vm.Runs
import OsLabs.Vm.Lockstep
import OsLabs.Vm.Alike
import OsLabs.Vm.Flat
import OsLabs.Vm.Portable
import OsLabs.Vm.Fac
import OsLabs.Vm.FacZig
import OsLabs.Sh.Line
import OsLabs.Sh.Fetch
import OsLabs.Sh.Token
import OsLabs.Sh.Lexer
import OsLabs.Sh.Parse
import OsLabs.Sh.Commands
import OsLabs.Sh.Meaning
import OsLabs.Sh.Argv
import OsLabs.Sh.Inside
import OsLabs.Sh.Heard
import OsLabs.Sh.Session
import OsLabs.Sh.Lists
import OsLabs.Sh.Free
import OsLabs.Sh.SearchPath
