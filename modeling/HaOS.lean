import HaOS.Lib.Radix
import HaOS.Lib.Chain
import HaOS.Lib.Run
import HaOS.Lib.Walk
import HaOS.Alloc.Blocks
import HaOS.Alloc.Refine
import HaOS.Alloc.Sizes
import HaOS.Alloc.Growth
import HaOS.Alloc.Merge
import HaOS.Alloc.Account
import HaOS.Fat.Open
import HaOS.Fat.Access
import HaOS.Fat.Read
import HaOS.Fat.Cursor
import HaOS.Fat.SeekHeap
import HaOS.Fat.Path
import HaOS.Fat.Search
import HaOS.Fat.Bounds
import HaOS.Fat.Lookup
import HaOS.Disk.Drive
import HaOS.Disk.Write
import HaOS.Paging.Frames
import HaOS.Paging.Map
import HaOS.Paging.Loader
import HaOS.Paging.Usage
import HaOS.Paging.Refine
import HaOS.Paging.Rounds
import HaOS.Paging.Handoff
import HaOS.Paging.Leak
import HaOS.Paging.RoundTrip
import HaOS.Paging.Coverage
import HaOS.Paging.Memory
import HaOS.Paging.Rights
import HaOS.Paging.Stacks
import HaOS.Paging.Exhaust
import HaOS.Paging.Identity
import HaOS.Paging.Window
import HaOS.Paging.Bitmap
import HaOS.Paging.Creation
import HaOS.Paging.Rename
import HaOS.Paging.Fill
import HaOS.Paging.Boot
import HaOS.Paging.BootCall
import HaOS.Paging.Marks
import HaOS.Paging.Agree
import HaOS.Elf.Segments
import HaOS.Elf.Load
import HaOS.Fat.Gpt
import HaOS.Elf.Balance
import HaOS.Print.Format
import HaOS.Print.Printf
import HaOS.Print.Numbers
import HaOS.Print.Scan
import HaOS.Cpu.Switch
import HaOS.Cpu.Create
import HaOS.Task.List
import HaOS.Task.Rotation
import HaOS.Task.Resources
import HaOS.Task.LifeCycle
import HaOS.Term.Screen
import HaOS.Term.Line
import HaOS.Term.Split
import HaOS.Term.Scroll
import HaOS.Fat.Whole
import HaOS.Fat.Clusters
import HaOS.Fat.Stores
import HaOS.Lib.Prog
import HaOS.Lib.Tlb
import HaOS.Lib.Fields
import HaOS.Paging.Code
import HaOS.Paging.Coherence
import HaOS.Paging.Stale
import HaOS.Irq.Pic
import HaOS.Irq.Deliver
import HaOS.Cpu.Idt
import HaOS.Cpu.Gdt
import HaOS.Cpu.Stubs
import HaOS.Cpu.Syscall
import HaOS.Sys.Kernel
import HaOS.Sys.Session
import HaOS.Shell.Editor
import HaOS.Shell.Command
import HaOS.Shell.Output
import HaOS.Shell.Console
