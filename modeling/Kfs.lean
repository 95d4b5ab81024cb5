import Kfs.Multiboot.Bounds
import Kfs.Multiboot.Decode
import Kfs.Pmm.Search
import Kfs.Klib.Utoa
import Kfs.Vga.Debug
import Kfs.Keyboard.Shift
import Kfs.Shell.Echo
import Kfs.Shell.SegRange
import Kfs.Stack.Dump
import Kfs.Paging.Access
import Kfs.Paging.Dump
import Kfs.System.Integrity
import Kfs.System.Ownership
import Kfs.System.Mappings
import Kfs.System.Window
import Kfs.System.Code
import Kfs.System.Brk
import Kfs.System.Free
import Kfs.System.Lazy
import Kfs.System.Demand
import Kfs.Cpu
import Kfs.Heap.Few
import Kfs.Idt
import Kfs.Idt.Access
import Kfs.Idt.Calls
import Kfs.Klib.Strings
import Kfs.Kmain
import Kfs.Kmain.Boot
import Kfs.Kmain.Runs
import Kfs.Lib.Wp
import Kfs.Paging.Describe
import Kfs.Shell.Commands
import Kfs.Shell.Ends
import Kfs.Shell.Reports
import Kfs.Shell.Typing
