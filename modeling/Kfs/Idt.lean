import Kfs.Boot
import Kfs.Cpu

/-!
# Exceptions

The functions of `kernel/src/idt.rs` and `fatal_fault` of `kernel/src/panic.rs`, with the stubs of
the assembly as lists of instructions.  A stub brings the stack into the shape of `Frame`, calls
`fault_entry` with a pointer to it, and takes the frame down again.

`Build` is what the compiler and the linker fix: the addresses of the statics, and what a call of
compiled code leaves in the scratch registers and below the stack pointer.  That is arbitrary, so
what holds for every `Build` does not depend on it.

`machine` prints the stack after its first line.  This is left out: it depends on how deep the
compiled calls go.
-/

namespace Kfs

open Lib Mem Paging

/-- What a call of compiled code leaves behind: the registers that a caller must save, the flags,
and the bytes of its own frames below the stack pointer. -/
structure Clobber where
  eax : U32
  ecx : U32
  edx : U32
  eflags : U32
  scratch : ByteMem

structure Build where
  layout : Layout
  stackBottom : U32
  stackTop : U32
  /-- `kernel_code_end`. -/
  codeEnd : U32
  /-- `TABLE` of `idt.rs`, in `.bss`. -/
  idtTable : U32
  /-- `isr_table`, in `.rodata`. -/
  isrTable : U32
  /-- The address of each stub. -/
  isr : Nat → U32
  /-- The address behind the call in `isr_common`. -/
  returnTo : U32
  /-- `.hang`, the address behind the call of `kmain`. -/
  hang : U32
  leaves : World → Clobber
  start_aligned : layout.image.start.toNat % 4096 = 0
  readonly_aligned : layout.image.readonlyEnd.toNat % 4096 = 0
  stack_size : stackTop.toNat = stackBottom.toNat + 16384
  stack_aligned : stackBottom.toNat % 16 = 0
  stack_bss : layout.image.readonlyEnd.toNat ≤ stackBottom.toNat ∧
    stackTop.toNat ≤ layout.image.finish.toNat
  idt_aligned : idtTable.toNat % 4 = 0
  idt_bss : layout.image.readonlyEnd.toNat ≤ idtTable.toNat ∧
    idtTable.toNat + 2048 ≤ layout.image.finish.toNat
  isr_aligned : isrTable.toNat % 4 = 0
  isr_rodata : layout.image.start.toNat ≤ isrTable.toNat ∧
    isrTable.toNat + 128 ≤ layout.image.readonlyEnd.toNat
  tables_apart : ∀ t ∈ [layout.bootDirectory, layout.bootLowTable, layout.kernelTable],
    (t.toNat + 4096 ≤ stackBottom.toNat ∨ stackTop.toNat ≤ t.toNat) ∧
    (t.toNat + 4096 ≤ idtTable.toNat ∨ idtTable.toNat + 2048 ≤ t.toNat)
  idt_apart : idtTable.toNat + 2048 ≤ stackBottom.toNat ∨ stackTop.toNat ≤ idtTable.toNat
  isr_inj : ∀ v w, v < 32 → w < 32 → isr v = isr w → v = w

namespace Idt

abbrev VECTORS : Nat := 32
abbrev SLOTS : Nat := 256
abbrev PAGE_FAULT : U32 := 14
abbrev INTERRUPT_GATE : U8 := 0x8E

structure Frame where
  edi : U32
  esi : U32
  ebp : U32
  esp : U32
  ebx : U32
  edx : U32
  ecx : U32
  eax : U32
  vector : U32
  error : U32
  eip : U32
  cs : U32
  eflags : U32
  deriving DecidableEq, Repr

def NAMES : List String :=
  ["divide by zero", "debug", "non maskable interrupt", "breakpoint", "overflow",
    "bound range exceeded", "invalid opcode", "device not available", "double fault",
    "coprocessor segment overrun", "invalid task state segment", "segment not present",
    "stack segment fault", "general protection fault", "page fault", "reserved",
    "floating point error", "alignment check", "machine check", "simd floating point error",
    "virtualisation error", "control protection fault", "reserved", "reserved", "reserved",
    "reserved", "reserved", "reserved", "hypervisor injection", "vmm communication",
    "security fault", "reserved"]

def name (vector : U32) : String := (NAMES[vector.toNat]?).getD "interrupt"

/-! ## The table -/

def gate (handler : U32) : U64 :=
  (handler.setWidth 64 &&& 0xFFFF#64) ||| (Gdt.KERNEL_CODE.setWidth 64 <<< 16) |||
    (INTERRUPT_GATE.setWidth 64 <<< 40) ||| ((handler.setWidth 64 >>> 16) <<< 48)

/-- `install`, which answers what it loads with `lidt`. -/
def install (B : Build) : Kernel Dtr := do
  Prog.forRange (fun vector => do
    let handler ← load32 (ptrAdd B.isrTable vector)
    store64 (B.idtTable + BitVec.ofNat 32 (8 * vector)) (gate handler)) 0 VECTORS
  pure { limit := BitVec.ofNat 16 (SLOTS * 8 - 1), base := B.idtTable }

/-! ## `fault_entry` -/

/-- The fields of the frame at `pointer`. -/
def readFrame (pointer : U32) : Kernel Frame := do
  let edi ← load32 (ptrAdd pointer 0)
  let esi ← load32 (ptrAdd pointer 1)
  let ebp ← load32 (ptrAdd pointer 2)
  let esp ← load32 (ptrAdd pointer 3)
  let ebx ← load32 (ptrAdd pointer 4)
  let edx ← load32 (ptrAdd pointer 5)
  let ecx ← load32 (ptrAdd pointer 6)
  let eax ← load32 (ptrAdd pointer 7)
  let vector ← load32 (ptrAdd pointer 8)
  let error ← load32 (ptrAdd pointer 9)
  let eip ← load32 (ptrAdd pointer 10)
  let cs ← load32 (ptrAdd pointer 11)
  let eflags ← load32 (ptrAdd pointer 12)
  pure ⟨edi, esi, ebp, esp, ebx, edx, ecx, eax, vector, error, eip, cs, eflags⟩

/-- `{:#06x}`. -/
def hex16 (x : U32) : String :=
  let digits := Nat.toDigits 16 x.toNat
  "0x" ++ String.ofList (List.replicate (4 - digits.length) '0' ++ digits)

/-- The line of `fatal_fault` for a page fault. -/
def accessLine (cr2 error : U32) : String :=
  "  cr2 " ++ hex cr2 ++ ", a " ++ (if error &&& 4 ≠ 0 then "user" else "kernel") ++ " " ++
    (if error &&& 2 ≠ 0 then "write" else "read") ++ ", the page was " ++
    (if error &&& 1 ≠ 0 then "present: the rights said no" else "not present") ++ "\n"

/-- The first line of `machine`, with the control registers and the count of the reports. -/
def machineLine (cr0 cr2 cr3 : U32) (oops : Nat) : String :=
  "  cr0 " ++ hex cr0 ++ " cr2 " ++ hex cr2 ++ " cr3 " ++ hex cr3 ++ ", " ++ toString oops ++
    " recovered before this one\n"

/-- The lines that `fatal_fault` prints. -/
def faultLines (f : Frame) (cr0 cr2 cr3 : U32) (oops : Nat) : List String :=
  ["\nKERNEL PANIC: " ++ name f.vector ++ " (vector " ++ toString f.vector.toNat ++ ")\n"] ++
  (if f.vector = PAGE_FAULT then [accessLine cr2 f.error] else []) ++
  ["  error " ++ hex f.error ++ " eip " ++ hex f.eip ++ " cs " ++ hex16 f.cs ++ " eflags " ++
      hex f.eflags ++ "\n",
    "  eax " ++ hex f.eax ++ " ecx " ++ hex f.ecx ++ " edx " ++ hex f.edx ++ " ebx " ++
      hex f.ebx ++ "\n",
    "  esi " ++ hex f.esi ++ " edi " ++ hex f.edi ++ " ebp " ++ hex f.ebp ++ " esp " ++
      hex f.esp ++ "\n",
    machineLine cr0 cr2 cr3 oops]

/-- `oops_count`: the static counts the reports in 32 bits. -/
def oopsCount (w : World) : Nat :=
  (BitVec.ofNat 32 (w.machine.oops.length + w.reports.length)).toNat

def fatalFault (pointer : U32) : Exec Unit := do
  let frame ← lift (readFrame pointer)
  let w ← Prog.gets id
  Prog.stop (.panicked
    (faultLines frame w.machine.cr0 w.cpu.cr2 w.machine.cr3 (oopsCount w)))

def demandReport (addr eip : U32) : String :=
  "page fault at " ++ hex addr ++ ", demand paged, eip " ++ hex eip

def faultEntry (pointer : U32) : Exec Unit := do
  let vector ← lift (load32 (ptrAdd pointer 8))
  if vector = PAGE_FAULT then
    let cpu ← getCpu
    let error ← lift (load32 (ptrAdd pointer 9))
    if ← lift (handleFault cpu.cr2 error) then
      let eip ← lift (load32 (ptrAdd pointer 10))
      Prog.modify fun w => { w with reports := demandReport cpu.cr2 eip :: w.reports }
    else fatalFault pointer
  else fatalFault pointer

/-! ## The stubs -/

inductive Instr where
  | pushl (x : U32)
  | pusha
  | pushEsp
  | callFaultEntry
  | addEsp (n : U32)
  | popa
  | iret
  deriving DecidableEq, Repr

def isrCommon : List Instr :=
  [.pusha, .pushEsp, .callFaultEntry, .addEsp 4, .popa, .addEsp 8, .iret]

def isrPlain (vector : Nat) : List Instr :=
  .pushl 0 :: .pushl (BitVec.ofNat 32 vector) :: isrCommon

def isrError (vector : Nat) : List Instr := .pushl (BitVec.ofNat 32 vector) :: isrCommon

/-- The vectors whose stub is an `isr_error`. -/
def ERROR_STUBS : List Nat := [8, 10, 11, 12, 13, 14, 17, 21, 30]

def stub (vector : Nat) : List Instr :=
  if vector ∈ ERROR_STUBS then isrError vector else isrPlain vector

/-- The call returns with what compiled code leaves: other values in the scratch registers, and
other bytes on the stack below the return address. -/
def scribble (B : Build) (w : World) : World :=
  let left := B.leaves w
  { w with
    cpu := { w.cpu with eax := left.eax, ecx := left.ecx, edx := left.edx, eflags := left.eflags }
    machine :=
      { w.machine with
        mem := fun a =>
          if B.stackBottom.toNat ≤ a + 0xC0000000 ∧ a + 0xC0000000 < w.cpu.esp.toNat then
            left.scratch a
          else w.machine.mem a } }

def callFaultEntry (B : Build) : Exec Unit := do
  push B.returnTo
  let cpu ← getCpu
  let pointer ← lift (load32 (cpu.esp + 4))
  faultEntry pointer
  Prog.modify (scribble B)
  let _ ← pop

def step (B : Build) : Instr → Exec Unit
  | .pushl x => push x
  | .pusha => Kfs.pusha
  | .pushEsp => do
    let cpu ← getCpu
    push cpu.esp
  | .callFaultEntry => callFaultEntry B
  | .addEsp n => setCpu fun cpu => { cpu with esp := cpu.esp + n }
  | .popa => Kfs.popa
  | .iret => Kfs.iret

/-- The exception `vector`, from the instruction that raises it to the one that goes on. -/
def exception (B : Build) (vector : Nat) (error : Option U32) : Exec Unit := do
  raise vector error
  let cpu ← getCpu
  match (List.range VECTORS).find? fun v => B.isr v == cpu.eip with
  | some v => Prog.runAll (step B) (stub v)
  | none => Prog.stop (.stopped (.fault cpu.eip))

end Idt

end Kfs
