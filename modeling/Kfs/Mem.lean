import Kfs.Lib.Word

/-!
# The address-space map

The constants and the pure functions of `kernel/src/mem.rs`.  Addresses are 32-bit words and
the arithmetic wraps, as the release build's does.
-/

namespace Kfs

abbrev U8 := BitVec 8
abbrev U16 := BitVec 16
abbrev U32 := BitVec 32
abbrev U64 := BitVec 64

namespace Mem

abbrev PAGE_SIZE : U32 := 4096
abbrev PAGE_SHIFT : Nat := 12
abbrev ENTRIES : Nat := 1024

abbrev LOW_WINDOW_END : U32 := 0x00400000

abbrev KERNEL_SPACE : U32 := 0xC0000000

/-- `KERNEL_SPACE + TABLE_SPAN`. -/
abbrev KERNEL_WINDOW_END : U32 := 0xC0400000

abbrev USER_BASE : U32 := LOW_WINDOW_END
abbrev USER_END : U32 := KERNEL_SPACE

abbrev DEMAND_BASE : U32 := 0x00800000
abbrev DEMAND_END : U32 := 0x00900000

abbrev KHEAP_BASE : U32 := 0xD0000000
abbrev KHEAP_LIMIT : U32 := 0xD2000000

abbrev VMALLOC_BASE : U32 := 0xE0000000
abbrev VMALLOC_LIMIT : U32 := 0xF0000000

abbrev TABLE_WINDOW : U32 := 0xFFC00000

abbrev BIOS_END : U32 := 0x00100000

inductive Space where
  | low
  | user
  | kernel
  deriving DecidableEq, Repr

def Space.name : Space → String
  | low => "kernel"
  | user => "user"
  | kernel => "kernel"

def spaceOf (addr : U32) : Space :=
  if addr < LOW_WINDOW_END then .low
  else if addr < KERNEL_SPACE then .user
  else .kernel

def isKernel (addr : U32) : Bool := spaceOf addr != .user

def isDemand (addr : U32) : Bool := decide (addr ≥ DEMAND_BASE) && decide (addr < DEMAND_END)

def kernelPhys (addr : U32) : U32 := addr - KERNEL_SPACE

def pageOf (addr : U32) : U32 := addr &&& ~~~(PAGE_SIZE - 1)

/-- A row of the address-space map. -/
structure Named where
  name : String
  base : U32
  last : U32
  space : Space
  holds : String

def LAYOUT : List Named :=
  [⟨"low window", 0, LOW_WINDOW_END - 1, .low, "identity: gdt, vga, kernel image"⟩,
    ⟨"user space", USER_BASE, DEMAND_BASE - 1, .user, "free for user pages"⟩,
    ⟨"user demand", DEMAND_BASE, DEMAND_END - 1, .user, "paged in by the fault handler"⟩,
    ⟨"user space", DEMAND_END, USER_END - 1, .user, "free for user pages"⟩,
    ⟨"kernel image", KERNEL_SPACE, KERNEL_WINDOW_END - 1, .kernel,
      "ram 0..4mb, kernel code read only"⟩,
    ⟨"kernel heap", KHEAP_BASE, KHEAP_LIMIT - 1, .kernel, "kmalloc, contiguous physical"⟩,
    ⟨"vmalloc", VMALLOC_BASE, VMALLOC_LIMIT - 1, .kernel, "vmalloc, scattered frames"⟩,
    ⟨"page tables", TABLE_WINDOW, 0xFFFFFFFF, .kernel, "the directory mapped into itself"⟩]

/-- The bounds of the kernel image that the linker exports, as virtual addresses.  `code_end` is
printed and nothing else, so it is left out. -/
structure Image where
  start : U32
  readonlyEnd : U32
  finish : U32
  deriving DecidableEq, Repr

/-! ## What the functions mean on numbers -/

theorem isKernel_eq_false_iff (addr : U32) :
    isKernel addr = false ↔ 0x00400000 ≤ addr.toNat ∧ addr.toNat < 0xC0000000 := by
  unfold isKernel spaceOf
  split_ifs with h1 h2
  · simp only [bne, Bool.not_eq_false', beq_iff_eq, reduceCtorEq, false_iff]
    bv_omega
  · simp only [bne_self_eq_false, true_iff]
    bv_omega
  · simp only [bne, Bool.not_eq_false', beq_iff_eq, reduceCtorEq, false_iff]
    bv_omega

theorem isDemand_iff (addr : U32) :
    isDemand addr = true ↔ 0x00800000 ≤ addr.toNat ∧ addr.toNat < 0x00900000 := by
  simp only [isDemand, Bool.and_eq_true, decide_eq_true_eq]
  constructor <;> intro h <;> bv_omega

/-- `page_of` rounds down to the page. -/
theorem toNat_pageOf (addr : U32) : (pageOf addr).toNat = 4096 * (addr.toNat / 4096) :=
  Lib.Word.toNat_and_high (k := 12) addr (by decide) (by decide)

end Mem

end Kfs
