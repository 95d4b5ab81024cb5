import Kfs.Idt.Access
import Kfs.Klib
import Kfs.Paging.Describe
import Kfs.Shell
import Kfs.Stack

/-!
# The commands of the shell

The fourteen commands of `kernel/src/shell.rs` and `dispatch`, over the whole kernel: the processor
with the machine, the heaps and the other statics that the commands read.  `Sys.calls` are the calls
of the screen driver so far.  A report of `koops!` is such a call, so `exec` appends those of the
function that it runs.

`kpanic!` and `fatal_fault` stop the model with the lines they print.  `machine`, which ends them,
prints the stack too: this is left out, as it depends on how deep the compiled calls go.
-/

namespace Kfs.Shell

open Lib Mem Paging Multiboot Vga

/-! ## The state -/

/-- The keyboard controller: what port 0x64 answers to the polls to come, and whether the reset that
the command 0xFE asks for takes place. -/
structure Controller where
  status : List U8
  obeys : Bool

structure Sys where
  world : World
  kernel : Heap
  virtual : Heap
  ram : Ram
  /-- `WINDOW` of `mem.rs`. -/
  window : U32 × U32
  controller : Controller
  calls : List Call

/-- A piece of a command. -/
abbrev Cmd (α : Type) : Type := Prog Sys Halt α

def say (calls : List Call) : Cmd Unit := Prog.modify fun s => { s with calls := s.calls ++ calls }

/-- The bytes of a text. -/
def text (s : String) : Call := .print (Klib.bytes s.toList)

def printk (s : String) : Cmd Unit := say [text s]

def printAll (lines : List String) : Cmd Unit := say (lines.map text)

/-- What `oops` prints, as the report number `n`. -/
def oopsCalls (n : Nat) (why : String) : List Call :=
  [.setColor .yellow .black,
    text ("kernel oops " ++ toString (BitVec.ofNat 32 n : U32).toNat ++ ": " ++ why ++ "\n"),
    .setColor .white .black]

/-- The reports that are new in `w'`, in order, from number `n` on. -/
def reportCalls (w w' : World) : List Call :=
  let oopses := w'.machine.oops.take (w'.machine.oops.length - w.machine.oops.length)
  let faults := w'.reports.take (w'.reports.length - w.reports.length)
  ((oopses.reverse.map Oops.message ++ faults.reverse).zipIdx
    (w.machine.oops.length + w.reports.length + 1)).flatMap fun (why, n) => oopsCalls n why

/-- Run what the processor does, with its reports on the screen. -/
def exec {α : Type} (x : Exec α) : Cmd α where
  run s :=
    match x.run s.world with
    | .ok (a, w) => .ok (a, { s with world := w, calls := s.calls ++ reportCalls s.world w })
    | .error why => .error why

/-- Run a kernel function. -/
def call {α : Type} (k : Kernel α) : Cmd α := exec (lift k)

/-! ## Columns and numbers -/

/-- `{:width$}` of a text. -/
def padText (width : Nat) (s : String) : String :=
  s ++ String.ofList (List.replicate (width - s.length) ' ')

/-- `{:width$}` of a number. -/
def padNumber (width n : Nat) : String :=
  let s := toString n
  String.ofList (List.replicate (width - s.length) ' ') ++ s

/-- `{:#width$x}` with leading zeros, for `digits` digits. -/
def hexDigits (digits n : Nat) : String := "0x" ++ Stack.hexPadded digits n

/-! ## The heaps -/

def Sys.heap (s : Sys) : Side → Heap
  | .kernel => s.kernel
  | .virtual => s.virtual

def Sys.setHeap (s : Sys) (h : Heap) : Side → Sys
  | .kernel => { s with kernel := h }
  | .virtual => { s with virtual := h }

def alloc (side : Side) (size : U32) : Cmd U32 := do
  let s ← Prog.gets id
  let (pointer, h) ← call ((s.heap side).alloc size)
  Prog.modify fun s => s.setHeap h side
  pure pointer

def free (side : Side) (pointer : U32) : Cmd Unit := do
  let s ← Prog.gets id
  call ((s.heap side).free pointer)

def sizeOf (side : Side) (pointer : U32) : Cmd U32 := do
  let s ← Prog.gets id
  call ((s.heap side).size pointer)

def brk (side : Side) (delta : U32) : Cmd U32 := do
  let s ← Prog.gets id
  let (was, h) ← call ((s.heap side).moveBrk delta)
  Prog.modify fun s => s.setHeap h side
  pure was

def stats (side : Side) : Cmd Heap.Stats := do
  let s ← Prog.gets id
  call (s.heap side).stats

def kmalloc : U32 → Cmd U32 := alloc .kernel
def kfree : U32 → Cmd Unit := free .kernel
def ksize : U32 → Cmd U32 := sizeOf .kernel
def kbrk : U32 → Cmd U32 := brk .kernel
def vmalloc : U32 → Cmd U32 := alloc .virtual
def vfree : U32 → Cmd Unit := free .virtual
def vsize : U32 → Cmd U32 := sizeOf .virtual
def vbrk : U32 → Cmd U32 := brk .virtual

/-! ## `mem`, `space`, `pages`, `stack` and `gdt` -/

/-- What `report` prints about a heap. -/
def reportLines (h : Heap) (st : Heap.Stats) : List String :=
  [h.name ++ ": " ++ hex h.base ++ ".." ++ hex h.brk ++ ", ceiling " ++ hex h.limit ++ ", " ++
      toString ((h.brk - h.base) / 1024).toNat ++ " kb mapped\n",
    "  " ++ toString st.used.toNat ++ " bytes used, " ++ toString st.free.toNat ++ " free, " ++
      toString st.live.toNat ++ " of " ++ toString st.blocks.toNat ++ " blocks live, " ++
      (if h.backing = .contiguous then "physically contiguous" else "physically scattered") ++
      "\n"] ++
  if h.backing = .contiguous then
    ["  physical " ++ hex h.physBase ++ ".." ++ hex h.physEnd ++ "\n"]
  else []

def report (side : Side) : Cmd Unit := do
  let s ← Prog.gets id
  let st ← stats side
  printAll (reportLines (s.heap side) st)

/-- The lines of `cmd_mem` about the memory of the machine. -/
def ramLines (ram : Ram) (p : Pmm) : List String :=
  ["ram: " ++ toString (ram.usable / 1024).toNat ++ " kb usable in " ++ toString ram.count ++
      " regions, from the " ++ ram.source ++ "\n"] ++
  (ram.regions.map fun r => "  " ++ hex r.base ++ ".." ++ hex r.finish ++ "  " ++
    toString ((r.finish - r.base) / 1024).toNat ++ " kb\n") ++
  ["frames: " ++ toString p.freeFrames.toNat ++ " of " ++ toString p.totalFrames.toNat ++
    " free, " ++ toString p.usedFrames.toNat ++ " used, largest free run " ++
    toString p.largestRun ++ " frames of " ++ toString (PAGE_SIZE / 1024).toNat ++ " kb\n"]

/-- The lines of `cmd_mem` about the kernel's image. -/
def imageLines (image : Image) (codeEnd : U32) : List String :=
  ["kernel: " ++ hex image.start ++ ".." ++ hex image.finish ++ ", code to " ++ hex codeEnd ++
      ", read only to " ++ hex image.readonlyEnd ++ "\n",
    "        physical " ++ hex (kernelPhys image.start) ++ ".." ++ hex (kernelPhys image.finish) ++
      ", " ++ toString ((image.finish - image.start) / 1024).toNat ++ " kb\n"]

/-- The line of `cmd_mem` about the block that `mem::init` carved. -/
def carvedLine (window : U32 × U32) : String :=
  "carved: " ++ hex window.1 ++ ".." ++ hex window.2 ++ " physical, kept for kmalloc\n"

def cmdMem (B : Build) : Cmd Unit := do
  let s ← Prog.gets id
  printAll (ramLines s.ram s.world.machine.pmm ++ imageLines B.layout.image B.codeEnd ++
    [carvedLine s.window])
  report .kernel
  report .virtual

def cmdSpace : Cmd Unit :=
  printAll (" range                  owner   region        contents\n" ::
    LAYOUT.map fun r => " " ++ hex r.base ++ ".." ++ hex r.last ++ " " ++
      padText 7 r.space.name ++ " " ++ padText 13 r.name ++ " " ++ r.holds ++ "\n")

def rowLine (r : Row) : String :=
  " " ++ hex r.virt ++ ".." ++ hex r.last ++ " " ++ hex r.phys ++ "  " ++
    padNumber 5 r.pages.toNat ++ "  " ++ r.rights ++ "\n"

/-- The lines that `dump` prints. -/
def pagesLines (d : Dump) : List String :=
  ["cr3 " ++ hex d.directory ++ ", paging " ++ (if d.paging then "on" else "off") ++
      ", write protect " ++ (if d.writeProtect then "on" else "off") ++ "\n",
    " virtual                  physical      pages  rights\n"] ++ d.rows.map rowLine

def cmdPages : Cmd Unit := do
  let d ← call dump
  printAll (pagesLines d)

def cmdStack (B : Build) : Cmd Unit := do
  let s ← Prog.gets id
  let lines ← call ((Stack.print B.stackBottom B.stackTop s.world.cpu.esp 256).toProg load8)
  printAll lines

def segType (descriptor : U64) : String :=
  match descriptor.getLsbD 43, descriptor.getLsbD 41, descriptor.getLsbD 42 with
  | true, true, false => "code rx"
  | true, true, true => "code rx c"
  | true, false, _ => "code x"
  | false, true, false => "data rw"
  | false, true, true => "data rw dn"
  | false, false, _ => "data r"

/-- The row of `cmd_gdt` for a segment.  The last column names the registers that hold it. -/
def segmentLine (cpu : Cpu) (segment : Gdt.Segment) : String :=
  " " ++ hexDigits 2 segment.selector.toNat ++ " " ++ padText 13 segment.name ++ " " ++
  (match segRange segment.descriptor with
    | none => padText 23 "-"
    | some (lo, hi) => hex lo ++ ".." ++ hex hi ++ " ") ++
  (if segment.descriptor = 0 then "-    -       "
    else toString ((segment.descriptor >>> 45) &&& 3).toNat ++ "    " ++
      padText 8 (segType segment.descriptor)) ++
  String.join ([("cs", cpu.cs.setWidth 16), ("ss", cpu.ss), ("ds", cpu.ds)].map fun (name, held) =>
    if held &&& ~~~3 = segment.selector &&& ~~~3 then " " ++ name else "") ++ "\n"

def gdtLines (cpu : Cpu) : List String :=
  ["gdtr: base " ++ hex cpu.gdtr.base ++ " limit " ++ hexDigits 4 cpu.gdtr.limit.toNat ++ " " ++
      toString ((cpu.gdtr.limit.toNat + 1) / 8) ++ " entries, " ++
      (if cpu.gdtr.base = Gdt.BASE ∧ cpu.gdtr.limit = Gdt.LIMIT then "as declared"
        else "DOES NOT MATCH THE SOURCE") ++ "\n",
    " sel  segment       range                   ring type     in use\n"] ++
  Gdt.SEGMENTS.map (segmentLine cpu)

def cmdGdt : Cmd Unit := do
  let s ← Prog.gets id
  printAll (gdtLines s.world.cpu)

/-! ## `virt` -/

def summaryLine (addr : U32) (r : Option (U32 × String)) : String :=
  " " ++ hex addr ++ "  " ++ padNumber 4 (dirIndex addr) ++ " " ++ padNumber 5 (tableIndex addr) ++
    " " ++ padNumber 6 (offset addr).toNat ++ " " ++
  match r with
  | some (phys, rights) => hex phys ++ "  " ++ rights ++ "\n"
  | none => "nothing      not mapped\n"

def summarize (addr : U32) : Cmd Unit := do
  let r ← call (summary addr)
  printk (summaryLine addr r)

def describeAll (addr : U32) : Cmd Unit := do
  let d ← call (describe addr)
  printAll (d.lines addr)

/-- The addresses that `virt` shows of its own accord. -/
def LANDMARKS (B : Build) : List U32 :=
  [Gdt.BASE, 0x000B8000, B.layout.image.start, B.layout.image.finish, KHEAP_BASE, VMALLOC_BASE,
    TABLE_WINDOW]

def virtHeading : String := " address     dir  table offset physical    rights\n"

def virtHint : String := "name one address for the full walk, as in `virt 0xc0101000`\n"

def cmdVirt (B : Build) (args : List Char) : Cmd Unit :=
  if args = [] then do
    printk virtHeading
    Prog.runAll summarize (LANDMARKS B)
    printk virtHint
  else
    match Klib.parseU32 args with
    | some addr => describeAll addr
    | none => printk (String.ofList args ++ ": not an address, try `virt 0xc0101000`\n")

/-! ## `alloc` -/

def failed (why : String) : Cmd Unit := printk ("alloc: FAILED, " ++ why ++ "\n")

/-- The first loop of `pattern`, from `i` on. -/
def patternWrite (pointer : U32) : Nat → Nat → Kernel Unit :=
  Prog.forRange fun i => store8 (pointer + BitVec.ofNat 32 i) (BitVec.ofNat 8 i)

/-- The second loop of `pattern`, from `i` on. -/
def patternRead (pointer : U32) : Nat → Nat → Kernel Bool
  | _, 0 => pure true
  | i, n + 1 => do
    let b ← load8 (pointer + BitVec.ofNat 32 i)
    if b ≠ BitVec.ofNat 8 i then pure false else patternRead pointer (i + 1) n

def pattern (pointer : U32) (size : Nat) : Cmd Bool :=
  call do
    patternWrite pointer 0 size
    patternRead pointer 0 size

/-- `translate(addr).unwrap_or(0)`. -/
def physical (addr : U32) : Cmd U32 := do
  let r ← call (translate addr)
  pure (r.getD 0)

/-- What a part of `cmd_alloc` answers: a value for the next part and the count of the checks so
far, or the reason for which the command ends. -/
abbrev Tested (α : Type) : Type := Except String (α × Nat)

/-- The next part, if the one before came through. -/
def andThen {α β : Type} (x : Cmd (Tested α)) (f : α → Nat → Cmd (Tested β)) :
    Cmd (Tested β) := do
  match ← x with
  | .ok (a, checks) => f a checks
  | .error why => pure (.error why)

def testSmall (checks : Nat) : Cmd (Tested U32) := do
  let small ← kmalloc 64
  if small = 0 then pure (.error "kmalloc(64) returned nothing")
  else
    let size ← ksize small
    let phys ← physical small
    printk ("kmalloc(64)   -> " ++ hex small ++ ", ksize " ++ toString size.toNat ++
      ", physical " ++ hex phys ++ "\n")
    let size ← ksize small
    if size < 64 then pure (.error "ksize is smaller than the request")
    else if ← pattern small 64 then pure (.ok (small, checks + 3))
    else pure (.error "what kmalloc gave back does not hold bytes")

def testBig (checks : Nat) : Cmd (Tested U32) := do
  let big ← kmalloc 5000
  if big = 0 then pure (.error "kmalloc(5000) returned nothing")
  else
    let first ← physical big
    let second ← physical (big + 4096)
    printk ("kmalloc(5000) -> " ++ hex big ++ ", physical " ++ hex first ++ " then " ++
      hex second ++ "\n")
    if second ≠ first + 4096 then pure (.error "the kmalloc block is not physically contiguous")
    else if ← pattern big 5000 then pure (.ok (big, checks + 3))
    else pure (.error "the big block does not hold bytes")

def testFree (small big : U32) (checks : Nat) : Cmd (Tested Unit) := do
  let before ← stats .kernel
  kfree small
  kfree big
  let after ← stats .kernel
  printk ("kfree both    -> used bytes " ++ toString before.used.toNat ++ " then " ++
    toString after.used.toNat ++ "\n")
  if after.used ≥ before.used then pure (.error "kfree did not give the bytes back")
  else pure (.ok ((), checks + 1))

/-- The loop of `cmd_alloc` over the pages: `scattered` and `previous` after `n` pages from
`page`. -/
def frames (pages : U32) : Nat → Nat → Bool → U32 → Cmd Bool
  | _, 0, scattered, _ => pure scattered
  | page, n + 1, scattered, previous => do
    let phys ← physical (pageOf pages + BitVec.ofNat 32 page * 4096)
    printk (" " ++ hex phys)
    frames pages (page + 1) n (scattered || (decide (page > 0) && phys ≠ previous + 4096)) phys

def testVirtual (checks : Nat) : Cmd (Tested Unit) := do
  let pages ← vmalloc (3 * 4096)
  if pages = 0 then pure (.error "vmalloc(12288) returned nothing")
  else
    let size ← vsize pages
    printk ("vmalloc(12288)-> " ++ hex pages ++ ", vsize " ++ toString size.toNat ++ "\n")
    printk "  frames"
    let scattered ← frames pages 0 3 false 0
    printk (", physically " ++ (if scattered then "scattered" else "in a row this time") ++ "\n")
    if ← pattern pages (3 * 4096) then
      vfree pages
      pure (.ok ((), checks + 3))
    else pure (.error "the vmalloc range does not hold bytes")

/-- The break up and down again: the two ends of `cmd_alloc` differ in the heap, the distance and
the texts. -/
def testBrk (side : Side) (delta : U32) (name refused kept : String) (checks : Nat) :
    Cmd (Tested Unit) := do
  let was ← brk side delta
  if was = 0 then pure (.error refused)
  else
    let now ← brk side 0
    printk (name ++ "(+" ++ toString delta.toNat ++ ")   -> break was " ++ hex was ++ ", now " ++
      hex now ++ "\n")
    let back ← brk side (-delta)
    if back = 0 then pure (.error kept)
    else
      let now ← brk side 0
      printk (name ++ "(-" ++ toString delta.toNat ++ ")   -> break " ++ hex now ++ "\n")
      pure (.ok ((), checks + 2))

def testKbrk : Nat → Cmd (Tested Unit) :=
  testBrk .kernel 4096 "kbrk" "kbrk could not grow the heap" "kbrk could not give the page back"

def testVbrk : Nat → Cmd (Tested Unit) :=
  testBrk .virtual 8192 "vbrk" "vbrk could not grow the vmalloc area"
    "vbrk could not give the pages back"

/-- The parts of `cmd_alloc` in order. -/
def selfTest : Cmd (Tested Unit) :=
  andThen (testSmall 0) fun small checks =>
  andThen (testBig checks) fun big checks =>
  andThen (testFree small big checks) fun _ checks =>
  andThen (testVirtual checks) fun _ checks =>
  andThen (testKbrk checks) fun _ checks =>
  testVbrk checks

def cmdAlloc : Cmd Unit := do
  match ← selfTest with
  | .ok (_, checks) => printk ("alloc: " ++ toString checks ++ " checks passed\n")
  | .error why => failed why

/-! ## `user`, `fault` and `panic` -/

def cmdUser : Cmd Unit := do
  call (unmapFree USER_DEMO)
  match ← call (mapNew USER_DEMO USER_PAGE) with
  | none => printk "user: no free frame\n"
  | some frame =>
    printk ("mapped " ++ hex USER_DEMO ++ " -> frame " ++ hex frame ++ " in user space\n")
    describeAll USER_DEMO
    call (store32 USER_DEMO 0x42424242)
    let readBack ← call (load32 USER_DEMO)
    printk ("wrote " ++ hex 0x42424242 ++ ", read back " ++ hex readBack ++ "\n")
    let _ ← call (protect USER_DEMO USER_READONLY)
    let entry ← call (entryOf USER_DEMO)
    printk ("now read only: table entry " ++ hex (entry.getD 0) ++ ", " ++
      rights (entry.getD 0) ++ "\n")
    printk "a user page in kernel space is refused:\n"
    let _ ← call (mapPage (KHEAP_BASE + 0x01000000) frame USER_PAGE)
    call (unmapFree USER_DEMO)
    let left ← call (translate USER_DEMO)
    printk ("unmapped " ++ hex USER_DEMO ++ ", translate says " ++
      (if left.isSome then "still mapped" else "nothing there") ++ "\n")

/-- `fuel` bounds how often the instruction that faults is tried. -/
def cmdFault (B : Build) (fuel : Nat) (args : List Char) : Cmd Unit :=
  if args = [] ∨ args = "demand".toList then do
    printk ("reading " ++ hex DEMAND_BASE ++ ", which is not mapped yet\n")
    let value ← exec (Idt.access B false (load32 DEMAND_BASE) fuel)
    printk ("the handler mapped it, the read returned " ++ hex value ++ "\n")
  else if args = "ro".toList then do
    printk ("writing to " ++ hex B.layout.image.start ++ ", the kernel's own read only code\n")
    exec (Idt.access B true (store32 B.layout.image.start 0) fuel)
  else if args = "kernel".toList then do
    printk ("writing to " ++ hex (KHEAP_BASE + 0x01800000) ++ ", kernel space with no page\n")
    exec (Idt.access B true (store32 (KHEAP_BASE + 0x01800000) 0) fuel)
  else printk "fault: say demand, ro or kernel\n"

def koops (why : String) : Cmd Unit :=
  exec (Prog.modify fun w => { w with reports := why :: w.reports })

def kpanic (why : String) : Cmd Unit := do
  let s ← Prog.gets id
  let w := s.world
  Prog.stop (.panicked ["\nKERNEL PANIC: " ++ why ++ "\n",
    Idt.machineLine w.machine.cr0 w.cpu.cr2 w.machine.cr3 (Idt.oopsCount w)])

def cmdPanic (args : List Char) : Cmd Unit :=
  if args = [] ∨ args = "oops".toList then
    koops "the shell asked for a panic it can walk away from"
  else if args = "fatal".toList then kpanic "the shell asked for a panic with no way back"
  else printk "panic: say oops or fatal\n"

/-! ## `reboot` and `halt` -/

def cmdHalt : Cmd Unit := do
  printk "halted\n"
  Prog.stop .halted

/-- `while inb(0x64) & 0x02 != 0 {}`.  When the answers are used up, the loop is still waiting. -/
def waitInput : Cmd Unit where
  run s :=
    match s.controller.status.dropWhile fun b => b &&& 2 ≠ 0 with
    | [] => .error (.stopped .spins)
    | _ :: rest => .ok ((), { s with controller := { s.controller with status := rest } })

/-- `outb(0x64, 0xfe)`. -/
def pulse : Cmd Unit := do
  let s ← Prog.gets id
  if s.controller.obeys then Prog.stop .reset

def cmdReboot (B : Build) : Cmd Unit := do
  printk "rebooting\n"
  Prog.forRange (fun _ => do
    waitInput
    pulse) 0 10
  exec (setCpu fun cpu => { cpu with idtr := { limit := 0, base := 0 } })
  exec (Idt.exception B 3 none)
  cmdHalt

/-! ## `dispatch` -/

inductive Command where
  | mem | space | pages | virt | alloc | user | fault | panic | stack | gdt | clear | reboot | halt
  | help
  deriving DecidableEq, Repr

namespace Command

def name : Command → String
  | mem => "mem"
  | space => "space"
  | pages => "pages"
  | virt => "virt"
  | alloc => "alloc"
  | user => "user"
  | fault => "fault"
  | panic => "panic"
  | stack => "stack"
  | gdt => "gdt"
  | clear => "clear"
  | reboot => "reboot"
  | halt => "halt"
  | help => "help"

/-- The field `help` of the table. -/
def helpText : Command → String
  | mem => "physical memory, frames and both heaps"
  | space => "the kernel and user address space layout"
  | pages => "every mapping in the page directory"
  | virt => "translate an address: virt [addr]"
  | alloc => "exercise kmalloc, vmalloc, kbrk and vbrk"
  | user => "map, use and drop a user space page"
  | fault => "make a page fault: fault [demand|ro|kernel]"
  | panic => "panic on purpose: panic [oops|fatal]"
  | stack => "hex dump of the live kernel stack"
  | gdt => "the descriptor table, read back from the CPU"
  | clear => "blank the screen"
  | reboot => "restart the machine through the 8042"
  | halt => "stop this processor for good"
  | help => "this list"

end Command

/-- `CMDS`, in the order of the source. -/
def CMDS : List Command :=
  [.mem, .space, .pages, .virt, .alloc, .user, .fault, .panic, .stack, .gdt, .clear, .reboot, .halt,
    .help]

def cmdHelp : Cmd Unit :=
  printAll (CMDS.map fun c => "  " ++ padText 6 c.name ++ "  " ++ c.helpText ++ "\n")

def cmdClear : Cmd Unit := say [.clear]

def Command.run (B : Build) (fuel : Nat) (args : List Char) : Command → Cmd Unit
  | .mem => cmdMem B
  | .space => cmdSpace
  | .pages => cmdPages
  | .virt => cmdVirt B args
  | .alloc => cmdAlloc
  | .user => cmdUser
  | .fault => cmdFault B fuel args
  | .panic => cmdPanic args
  | .stack => cmdStack B
  | .gdt => cmdGdt
  | .clear => cmdClear
  | .reboot => cmdReboot B
  | .halt => cmdHalt
  | .help => cmdHelp

/-- The name and the arguments in a line. -/
def parse (line : List Char) : List Char × List Char :=
  let line := Klib.trim line
  match line.findIdx? (· == ' ') with
  | some i => (line.take i, Klib.trim (line.drop (i + 1)))
  | none => (line, [])

def dispatch (B : Build) (fuel : Nat) (line : List Char) : Cmd Unit :=
  let (name, args) := parse line
  if name = [] then pure ()
  else
    match CMDS.find? fun c => c.name.toList == name with
    | some c => c.run B fuel args
    | none => printk (String.ofList name ++ ": no such command, try `help`\n")

end Kfs.Shell
