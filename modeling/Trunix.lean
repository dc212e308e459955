import Trunix.Lib.Bytes
import Trunix.Lib.Run
import Trunix.Lib.Spans
import Trunix.Lib.Tailq
import Trunix.Lib.Rounds
import Trunix.Vm
import Trunix.Queue
import Trunix.Slist
import Trunix.Mem.Blocks
import Trunix.Mem.Pages
import Trunix.Mem.PagesRun
import Trunix.Mem.Heap
import Trunix.Boot.Memmap
import Trunix.Boot.Init
import Trunix.Mem.Init
import Trunix.Kernel.Store
import Trunix.Kernel.Paging
import Trunix.Kernel.Elf
import Trunix.Kernel.Load
import Trunix.Kernel.Proc
import Trunix.Kernel.Exec
import Trunix.Kernel.Grows
import Trunix.Kernel.Fork
import Trunix.Kernel.Copy
import Trunix.Kernel.Mmap
import Trunix.Kernel.Boot
import Trunix.Kernel.Astray
import Trunix.Kernel.Sched
import Trunix.Kernel.Effect
import Trunix.Kernel.Tables
import Trunix.Kernel.Image
import Trunix.Kernel.Contained
import Trunix.Kernel.Arranged
import Trunix.Kernel.Cover
import Trunix.Kernel.Ledger
import Trunix.Kernel.Leaks
import Trunix.Kernel.FreeUvm
import Trunix.Kernel.Slots
import Trunix.Kernel.Preempt
import Trunix.Kernel.Resume
import Trunix.Lib.Swap
import Trunix.Libc.Itoa
import Trunix.Libc.Stdio
import Trunix.Libc.Streams
import Trunix.Libc.Malloc
import Trunix.Kernel.Strings
import Trunix.Kernel.Ramdisk
import Trunix.Kernel.Archive
import Trunix.Kernel.Supply
import Trunix.Kernel.Bounds
import Trunix.Kernel.Half
import Trunix.Kernel.RoundRobin
import Trunix.Kernel.Refusals
import Trunix.Kernel.Cleared
import Trunix.Kernel.Anon
import Trunix.Kernel.Directory
import Trunix.Kernel.Clone
import Trunix.Lib.Logged
import Trunix.Kernel.Syscall
import Trunix.Drivers.Console
import Trunix.Kernel.Twice
import Trunix.Kernel.InPlace
import Trunix.Boot.Regions
import Trunix.Mem.BestFit
import Trunix.Mem.InitList
import Trunix.Mem.Coalesce
import Trunix.Mem.Free
import Trunix.Mem.HeapRun
import Trunix.Kernel.Scan
import Trunix.Kernel.Descriptors
import Trunix.Kernel.Inherit
import Trunix.Kernel.Overrun
import Trunix.Kernel.Transfer
import Trunix.Kernel.Devices
import Trunix.Lib.Copy
import Trunix.Kernel.Move
import Trunix.Kernel.Strlcpy
import Trunix.Kernel.Compare
import Trunix.Libc.Directives
import Trunix.Kernel.Serial
import Trunix.Kernel.Formats
import Trunix.Lib.Stores
import Trunix.Drivers.Pixels
import Trunix.Drivers.Text
import Trunix.Kernel.Header
import Trunix.Libc.Digits
import Trunix.Kernel.Numerals
import Trunix.Kernel.Identity
import Trunix.Libc.Free
import Trunix.Lib.Memories
import Trunix.Kernel.Spaces
import Trunix.Kernel.Program
import Trunix.Kernel.Offspring
import Trunix.Kernel.Growing
import Trunix.Kernel.Isolation
import Trunix.Drivers.Terminal
import Trunix.Drivers.Tty
import Trunix.Lib.Programs
import Trunix.Kernel.Ram
import Trunix.Kernel.RamFork
import Trunix.Kernel.RamBoot
import Trunix.Kernel.Upper
import Trunix.Kernel.Rootfs
import Trunix.Kernel.Kmain
import Trunix.Lib.Sharing
import Trunix.Kernel.TimeSharing
