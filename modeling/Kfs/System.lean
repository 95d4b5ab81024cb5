import Kfs.Heap.Client
import Kfs.Pmm.BootSet

/-!
# The memory of the kernel as one system

`memInit` is `mem::init`, from the loader's map to the two heaps.  After it the kernel runs, and
memory changes by the calls of the two heaps, by page faults and by the shell's `user` command:
these are the constructors of `Op`.  What the commands print is returned by their models; the
screen itself is not part of the machine.
-/

namespace Kfs

open Lib Mem Multiboot Paging Machine

/-! ## `mem::init` -/

/-- The two heaps of `heap.rs` with their clients. -/
structure Heaps where
  kernel : Heap.Client
  virtual : Heap.Client

/-- `heap::init`: the statics, with the window of the kernel's heap. -/
def heapInit (window : U32 × U32) : Heaps where
  kernel := ⟨kernelHeap.attach window, []⟩
  virtual := ⟨virtualHeap, []⟩

/-- `pmm::carve` on the allocator's statics. -/
def carve (size : U32) : Kernel (Option (U32 × U32)) where
  run s := .ok ((s.pmm.carve size).1, { s with pmm := (s.pmm.carve size).2 })

/-- `mem::init`, with what the linker fixes about the image.  It returns the map that it keeps in
`RAM`, and the heaps. -/
def memInit (L : Layout) (magic info : U32) : Kernel (Ram × Heaps) := do
  match ← probe magic info with
  | .error why => Prog.stop (.panic why)
  | .ok ram =>
    if L.image.finish > KERNEL_WINDOW_END then
      Prog.stop (.panic
        ("the kernel image ends at " ++ hex L.image.finish ++ ", past its 4 mb window"))
    else
      Prog.modify fun s => { s with pmm := s.pmm.init ram }
      Prog.modify fun s => { s with pmm := s.pmm.reserve 0 BIOS_END }
      Prog.modify fun s => { s with pmm := s.pmm.reserve loadPhys (kernelPhys L.image.finish) }
      Paging.init L.image L.kernelTable
      match ← carve (Pmm.heapWant ram) with
      | none => Prog.stop (.panic "no contiguous physical block left for the kernel heap")
      | some window => pure (ram, heapInit window)

/-! ## The `user` command -/

abbrev USER_DEMO : U32 := 0x00C00000

/-- `if let Some(frame) = unmap_page(addr) { free_frame(frame) }`. -/
def unmapFree (addr : U32) : Kernel Unit := do
  match ← unmapPage addr with
  | some frame => freeFrame frame
  | none => pure ()

/-- What `cmd_user` prints once the page is mapped. -/
structure UserReport where
  frame : U32
  readBack : U32
  entry : U32
  stillMapped : Bool
  deriving DecidableEq, Repr

/-- `cmd_user`.  It answers nothing when there is no free frame. -/
def cmdUser : Kernel (Option UserReport) := do
  unmapFree USER_DEMO
  match ← mapNew USER_DEMO USER_PAGE with
  | none => pure none
  | some frame =>
    store32 USER_DEMO 0x42424242
    let readBack ← load32 USER_DEMO
    let _ ← protect USER_DEMO USER_READONLY
    let entry ← entryOf USER_DEMO
    let _ ← mapPage (KHEAP_BASE + 0x01000000) frame USER_PAGE
    unmapFree USER_DEMO
    let left ← translate USER_DEMO
    pure (some ⟨frame, readBack, entry.getD 0, left.isSome⟩)

/-! ## Steps -/

inductive Op where
  | kernel (call : Heap.Call)
  | virtual (call : Heap.Call)
  | fault (addr error : U32)
  | user
  deriving DecidableEq, Repr

namespace Op

def kmalloc (size : U32) : Op := .kernel (.alloc size)
def kfree (pointer : U32) : Op := .kernel (.free pointer)
def kbrk (delta : U32) : Op := .kernel (.brk delta)
def vmalloc (size : U32) : Op := .virtual (.alloc size)
def vfree (pointer : U32) : Op := .virtual (.free pointer)
def vbrk (delta : U32) : Op := .virtual (.brk delta)

def step (hs : Heaps) : Op → Kernel Heaps
  | .kernel call => do
    let c ← call.step hs.kernel
    pure { hs with kernel := c }
  | .virtual call => do
    let c ← call.step hs.virtual
    pure { hs with virtual := c }
  | .fault addr error => do
    let _ ← handleFault addr error
    pure hs
  | .user => do
    let _ ← cmdUser
    pure hs

end Op

/-- The kernel after some steps. -/
def runOps (hs : Heaps) (ops : List Op) : Kernel Heaps := ops.foldlM Op.step hs

section

variable {hs hs' : Heaps} {s t : Machine}

theorem runOps_nil (hs : Heaps) (s : Machine) : (runOps hs []).run s = .ok (hs, s) := rfl

theorem runOps_cons {op : Op} (h : (op.step hs).run s = .ok (hs', t)) (ops : List Op) :
    (runOps hs (op :: ops)).run s = (runOps hs' ops).run t := by
  rw [runOps, List.foldlM_cons, Prog.bind_ok h]
  rfl

/-- A run of one step ends where the step does. -/
theorem runOps_one {op : Op} {hs1 : Heaps} {s1 : Machine}
    (h : (op.step hs).run s = .ok (hs1, s1)) (hrun : (runOps hs [op]).run s = .ok (hs', t)) :
    hs' = hs1 ∧ t = s1 := by
  rw [runOps_cons h, runOps_nil] at hrun
  cases hrun
  exact ⟨rfl, rfl⟩

theorem Op.kernel_run (hs : Heaps) {call : Heap.Call} {c : Heap.Client}
    (h : (call.step hs.kernel).run s = .ok (c, t)) :
    ((Op.kernel call).step hs).run s = .ok ({ hs with kernel := c }, t) := by
  rw [step, Prog.bind_ok h, Prog.run_pure]

/-- A call that leaves the heap's record and the list of allocations. -/
theorem Op.kernel_same (hs : Heaps) {call : Heap.Call}
    (h : (call.step hs.kernel).run s = .ok (hs.kernel, t)) :
    ((Op.kernel call).step hs).run s = .ok (hs, t) :=
  Op.kernel_run hs h

theorem Op.kernel_virtual {call : Heap.Call}
    (h : ((Op.kernel call).step hs).run s = .ok (hs', t)) : hs'.virtual = hs.virtual := by
  rw [step] at h
  obtain ⟨c, u, _, hlast⟩ := Prog.bind_eq_ok.mp h
  cases hlast
  rfl

theorem Op.virtual_run (hs : Heaps) {call : Heap.Call} {c : Heap.Client}
    (h : (call.step hs.virtual).run s = .ok (c, t)) :
    ((Op.virtual call).step hs).run s = .ok ({ hs with virtual := c }, t) := by
  rw [step, Prog.bind_ok h, Prog.run_pure]

end

/-- The state that `mem::init` leaves, from a machine in which the loader put the kernel. -/
def Booted (L : Layout) (ram : Ram) (hs : Heaps) (s : Machine) : Prop :=
  ∃ s0 magic info, Loaded L s0 ∧ s0.pmm = Pmm.zero ∧
    (memInit L magic info).run (bootAsm L s0) = .ok ((ram, hs), s)

end Kfs
