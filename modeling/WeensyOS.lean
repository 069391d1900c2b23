import WeensyOS.Lib.ByteMemory
import WeensyOS.Lib.Loop
import WeensyOS.Lib.Tiling
import WeensyOS.Kernel.ProgramBreak
import WeensyOS.CMalloc.Model
import WeensyOS.CMalloc.MergeSort
import WeensyOS.Lib.SelectionSort
import WeensyOS.Lib.Walk
import WeensyOS.CMalloc.Blocks
import WeensyOS.CMalloc.Malloc
import WeensyOS.CMalloc.Realloc
import WeensyOS.CMalloc.Defrag
import WeensyOS.CMalloc.HeapInfo
import WeensyOS.CMalloc.Report
import WeensyOS.Lib.Allocator
import WeensyOS.CMalloc.Contract
import WeensyOS.CMalloc.Runs
import WeensyOS.CMalloc.Requests
import WeensyOS.Lib.BlockHeap
import WeensyOS.Lib.Coalesce
import WeensyOS.Lib.Inventory
import WeensyOS.RustMalloc.Blocks
import WeensyOS.RustMalloc.Malloc
import WeensyOS.RustMalloc.Calls
import WeensyOS.RustMalloc.HeapInfo
import WeensyOS.RustMalloc.Contract
import WeensyOS.RustMalloc.Runs
import WeensyOS.RustMalloc.Requests
import WeensyOS.CMalloc.FirstFit
import WeensyOS.Malloc.Defrag
import WeensyOS.CMalloc.CheckedInfo
import WeensyOS.Lib.FirstFit
import WeensyOS.CMalloc.Totals
import WeensyOS.RustMalloc.Totals
import WeensyOS.Lib.Runs
import WeensyOS.Lib.BreakSharing
import WeensyOS.CMalloc.Sharing
import WeensyOS.RustMalloc.Sharing
import WeensyOS.Malloc.Sharing
import WeensyOS.Kernel.VirtualMemory
import WeensyOS.Kernel.PageTable
import WeensyOS.Kernel.Permissions
import WeensyOS.Kernel.Mapping
import WeensyOS.Kernel.RangeMapping
import WeensyOS.Kernel.Process
import WeensyOS.RustKernel.Process
import WeensyOS.Kernel.BreakCalls
import WeensyOS.Kernel.Exceptions
import WeensyOS.Kernel.Ownership
import WeensyOS.Kernel.HeapSteps
import WeensyOS.Kernel.KernelTables
import WeensyOS.Kernel.Isolation
import WeensyOS.Kernel.HeapMemory
import WeensyOS.Kernel.Consistency
import WeensyOS.Kernel.TableWalks
import WeensyOS.Malloc.Sorts
import WeensyOS.Kernel.Scheduling
import WeensyOS.Shared.Numbuf
import WeensyOS.Shared.Scanner
import WeensyOS.Shared.Directive
import WeensyOS.Shared.Integers
import WeensyOS.Shared.StringPrinter
import WeensyOS.Shared.Console
import WeensyOS.Shared.ConsoleBounds
import WeensyOS.Shared.Verbatim
import WeensyOS.Kernel.MapFailure
import WeensyOS.CMalloc.Leaks
import WeensyOS.Kernel.Loader
import WeensyOS.Kernel.VirtualStores
import WeensyOS.Kernel.SegmentPages
import WeensyOS.Kernel.SegmentLoad
import WeensyOS.Kernel.ProgramLoad
import WeensyOS.Kernel.SegmentBytes
import WeensyOS.Kernel.MappingCall
import WeensyOS.Kernel.PanicCall
import WeensyOS.Kernel.ConsistentRuns
import WeensyOS.Kernel.ProcessFree
import WeensyOS.Kernel.Programs
import WeensyOS.Kernel.Boot
import WeensyOS.Kernel.TrapFrame
import WeensyOS.Kernel.ExceptionRuns
import WeensyOS.Kernel.Screens
import WeensyOS.Lib.Lockstep
import WeensyOS.RustKernel.Exceptions
import WeensyOS.Kernel.Keyboard
