import Kfs.Gdt

/-!
# The processor

The registers, the stack and the way into an exception handler, as far as the stubs of `idt.rs`
use them.  Everything runs in ring 0, so an exception does not change the stack: the processor
pushes EFLAGS, CS, EIP and, for some vectors, an error code below the stack pointer, and goes to
the address in the gate.  DS stands for the data segment registers that `gdt::install` loads
alike.

A gate that cannot be used is an exception of its own.  `escalate` is the table by which the
processor combines the two, with the shutdown that restarts the machine as its last resort.  Left
out are the descriptor of the code segment, which is flat and marked as accessed already, and faults
on the reads of the gate and the pushes themselves: these stop the model.
-/

namespace Kfs

open Lib

/-- The registers that `lidt` and `lgdt` load. -/
structure Dtr where
  limit : U16
  base : U32
  deriving DecidableEq, Repr

structure Cpu where
  eax : U32
  ecx : U32
  edx : U32
  ebx : U32
  esp : U32
  ebp : U32
  esi : U32
  edi : U32
  eip : U32
  cs : U32
  eflags : U32
  cr2 : U32
  ss : U16
  ds : U16
  idtr : Dtr
  gdtr : Dtr
  deriving DecidableEq, Repr

/-- The processor, the machine around it and the reports of `fault_entry` on the screen. -/
structure World where
  cpu : Cpu
  machine : Machine
  reports : List String

/-- Why the processor does not go on: a kernel function stopped, a panic printed its lines, the
processor shut down, the `halt` command stopped it, or the keyboard controller reset it. -/
inductive Halt where
  | stopped (why : Stop)
  | panicked (lines : List String)
  | shutdown
  | halted
  | reset
  deriving DecidableEq, Repr

abbrev Exec (α : Type) : Type := Prog World Halt α

/-- A kernel function on the machine. -/
def lift {α : Type} (k : Kernel α) : Exec α where
  run w :=
    match k.run w.machine with
    | .ok (a, m) => .ok (a, { w with machine := m })
    | .error why => .error (.stopped why)

theorem lift_ok {α : Type} {k : Kernel α} {w : World} {a : α} {m : Machine}
    (h : k.run w.machine = .ok (a, m)) : (lift k).run w = .ok (a, { w with machine := m }) := by
  rw [lift]
  dsimp only
  rw [h]

theorem lift_error {α : Type} {k : Kernel α} {w : World} {why : Stop}
    (h : k.run w.machine = .error why) : (lift k).run w = .error (.stopped why) := by
  rw [lift]
  dsimp only
  rw [h]

/-- A function that returned has changed the machine only. -/
theorem lift_inv {α : Type} {k : Kernel α} {w w' : World} {a : α}
    (h : (lift k).run w = .ok (a, w')) :
    ∃ m, k.run w.machine = .ok (a, m) ∧ w' = { w with machine := m } := by
  rw [lift] at h
  dsimp only at h
  cases hk : k.run w.machine with
  | error why =>
    rw [hk] at h
    cases h
  | ok r =>
    rw [hk] at h
    cases h
    exact ⟨r.2, rfl, rfl⟩

def getCpu : Exec Cpu := Prog.gets World.cpu

def setCpu (f : Cpu → Cpu) : Exec Unit := Prog.modify fun w => { w with cpu := f w.cpu }

/-! ## Segments -/

/-- The accessed bit, in the high word of a descriptor. -/
abbrev SEGMENT_ACCESSED : U32 := 0x100

/-- Load a segment register.  The processor sets the accessed bit of the descriptor in the table, if
it is not set yet.  What else it looks at in the descriptor is left out. -/
def loadSegment (selector : U16) (set : Cpu → Cpu) : Exec Unit := do
  let cpu ← getCpu
  let high := cpu.gdtr.base + (selector &&& 0xFFF8).setWidth 32 + 4
  let word ← lift (load32 high)
  if word &&& SEGMENT_ACCESSED = 0 then lift (store32 high (word ||| SEGMENT_ACCESSED))
  setCpu set

/-- The `asm!` of `gdt::install`. -/
def Gdt.reload : Exec Unit := do
  setCpu fun cpu => { cpu with gdtr := { limit := LIMIT, base := BASE } }
  loadSegment KERNEL_DATA fun cpu => { cpu with ds := KERNEL_DATA }
  loadSegment KERNEL_STACK fun cpu => { cpu with ss := KERNEL_STACK }
  loadSegment KERNEL_CODE fun cpu => { cpu with cs := KERNEL_CODE.setWidth 32 }

/-! ## The stack -/

def push (x : U32) : Exec Unit := do
  let cpu ← getCpu
  lift (store32 (cpu.esp - 4) x)
  setCpu fun cpu => { cpu with esp := cpu.esp - 4 }

def pushAll : List U32 → Exec Unit
  | [] => pure ()
  | x :: xs => do
    push x
    pushAll xs

def pop : Exec U32 := do
  let cpu ← getCpu
  let x ← lift (load32 cpu.esp)
  setCpu fun cpu => { cpu with esp := cpu.esp + 4 }
  pure x

/-! ## Exceptions -/

abbrev DOUBLE_FAULT : Nat := 8
abbrev GENERAL_PROTECTION : Nat := 13
abbrev NOT_PRESENT : Nat := 11

/-- The vectors with which the processor pushes an error code. -/
def WITH_ERROR : List Nat := [8, 10, 11, 12, 13, 14, 17, 21, 29, 30]

/-- What is raised when the exception `next` comes up on the way into the handler of `vector`. -/
def escalate (vector : Nat) (next : Nat × U32) : Option (Nat × U32) :=
  if vector = DOUBLE_FAULT then none
  else if vector ∈ [0, 10, 11, 12, 13, 14, 20, 21] then some (DOUBLE_FAULT, 0)
  else some next

/-- The flags that an interrupt gate clears: TF, IF, NT, RF and VM. -/
abbrev CLEARED : U32 := 0x00034300

/-- The way through the gate of `vector`.  It answers the exception that comes up instead, if the
table has no gate there (the type is another one) or the gate is not present. -/
def enter (vector : Nat) (error : Option U32) : Exec (Option (Nat × U32)) := do
  let cpu ← getCpu
  let code := BitVec.ofNat 32 (8 * vector + 2)
  if cpu.idtr.limit.toNat < 8 * vector + 7 then pure (some (GENERAL_PROTECTION, code))
  else
    let low ← lift (load32 (cpu.idtr.base + BitVec.ofNat 32 (8 * vector)))
    let high ← lift (load32 (cpu.idtr.base + BitVec.ofNat 32 (8 * vector + 4)))
    if (high >>> 8) &&& 0x1F ≠ 0x0E then pure (some (GENERAL_PROTECTION, code))
    else if high.getLsbD 15 = false then pure (some (NOT_PRESENT, code))
    else
      pushAll ([cpu.eflags, cpu.cs, cpu.eip] ++ error.toList)
      setCpu fun cpu =>
        { cpu with
          eip := (high &&& 0xFFFF0000) ||| (low &&& 0xFFFF)
          cs := low >>> 16
          eflags := cpu.eflags &&& ~~~CLEARED }
      pure none

/-- Raise the exception `vector`.  Two exceptions can come up instead before the processor shuts
down, so three attempts are enough. -/
def raiseFrom : Nat → Nat → Option U32 → Exec Unit
  | 0, _, _ => Prog.stop .shutdown
  | attempts + 1, vector, error => do
    match ← enter vector error with
    | none => pure ()
    | some next =>
      match escalate vector next with
      | none => Prog.stop .shutdown
      | some (vector, error) => raiseFrom attempts vector (some error)

def raise (vector : Nat) (error : Option U32) : Exec Unit := raiseFrom 3 vector error

def iret : Exec Unit := do
  let eip ← pop
  let cs ← pop
  let eflags ← pop
  setCpu fun cpu => { cpu with eip := eip, cs := cs, eflags := eflags }

/-- `pusha`.  The stack pointer that it pushes is the one before its first push. -/
def pusha : Exec Unit := do
  let cpu ← getCpu
  pushAll [cpu.eax, cpu.ecx, cpu.edx, cpu.ebx, cpu.esp, cpu.ebp, cpu.esi, cpu.edi]

/-- `popa`.  It drops the stack pointer that `pusha` pushed. -/
def popa : Exec Unit := do
  let edi ← pop
  let esi ← pop
  let ebp ← pop
  let _ ← pop
  let ebx ← pop
  let edx ← pop
  let ecx ← pop
  let eax ← pop
  setCpu fun cpu =>
    { cpu with
      edi := edi, esi := esi, ebp := ebp, ebx := ebx, edx := edx, ecx := ecx, eax := eax }

end Kfs
