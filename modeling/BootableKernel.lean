import BootableKernel.Lib.LinkedList
import BootableKernel.Lib.Radix
import BootableKernel.Lib.Spans
import BootableKernel.Lib.FreeList
import BootableKernel.Memory.PMM
import BootableKernel.Memory.Handout
import BootableKernel.Lib.LeastFirst
import BootableKernel.Memory.Sequence
import BootableKernel.Memory.Paging
import BootableKernel.Memory.PageTables
import BootableKernel.Memory.Boot
import BootableKernel.Memory.Mmu
import BootableKernel.Memory.VMM
import BootableKernel.Memory.Blockchain
import BootableKernel.Memory.Reentry
import BootableKernel.Memory.Runs
import BootableKernel.Memory.Frames
import BootableKernel.Memory.Permissions
import BootableKernel.Memory.Supply
import BootableKernel.Memory.Access
import BootableKernel.Memory.Translation
import BootableKernel.Memory.Mapping
import BootableKernel.Memory.Undo
import BootableKernel.Memory.Rights
import BootableKernel.Memory.Stores
import BootableKernel.Memory.Stages
import BootableKernel.Memory.Tlb
import BootableKernel.Memory.Sections
import BootableKernel.Memory.Allocation
import BootableKernel.Memory.History
import BootableKernel.Memory.Isolation
import BootableKernel.Memory.Contents
import BootableKernel.Lib.Buffer
import BootableKernel.Lib.Terminal
import BootableKernel.VGA.Font
import BootableKernel.VGA.Copy
import BootableKernel.VGA.Screen
import BootableKernel.VGA.Refinement
import BootableKernel.Lib.Stack
import BootableKernel.Lib.Countdown
import BootableKernel.Machine.Cpu
import BootableKernel.Machine.Syscall
import BootableKernel.Machine.Vector
import BootableKernel.Machine.Exceptions
import BootableKernel.Machine.Memcpy
import BootableKernel.Machine.IsrStubs
import BootableKernel.Machine.Descriptors
import BootableKernel.Machine.Cpuid
import BootableKernel.VGA.Bounds
import BootableKernel.VGA.Format
import BootableKernel.VGA.Directives
import BootableKernel.Lib.Positional
import BootableKernel.VGA.Itoa
import BootableKernel.VGA.Gcvt
import BootableKernel.VGA.Serial
import BootableKernel.Boot.Vesa
import BootableKernel.VGA.Pitch
import BootableKernel.Syscalls.Handlers
import BootableKernel.Syscalls.Effects
import BootableKernel.Syscalls.Mmap
import BootableKernel.Syscalls.Anonymous
import BootableKernel.Syscalls.Results
import BootableKernel.Syscalls.Writev
import BootableKernel.Lib.Slots
import BootableKernel.Devices.Pic
import BootableKernel.Devices.Keyboard
import BootableKernel.Lib.Records
import BootableKernel.Lib.Links
import BootableKernel.Lib.Arena
import BootableKernel.Lib.ObjectStore
import BootableKernel.Heap.Liballoc
import BootableKernel.Heap.Blocks
import BootableKernel.Heap.Place
import BootableKernel.Heap.Search
import BootableKernel.Heap.Grow
import BootableKernel.Heap.Malloc
import BootableKernel.Heap.Startup
import BootableKernel.Heap.Limits
import BootableKernel.Heap.Supplies
import BootableKernel.Heap.Free
import BootableKernel.Heap.Calls
import BootableKernel.Heap.Fuel
import BootableKernel.Heap.Runs
import BootableKernel.Heap.Clients
import BootableKernel.VGA.Init
import BootableKernel.VGA.FrameBuffer
import BootableKernel.Lib.Reflection
import BootableKernel.Os.Bounce
import BootableKernel.Lib.Priority
import BootableKernel.Devices.Controllers
import BootableKernel.Devices.Service
import BootableKernel.Devices.Requests
import BootableKernel.Devices.Interrupts
