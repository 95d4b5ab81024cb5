import Kfs.Paging.Region

/-!
# The segment descriptors

`SEGMENTS`, `flat` and `install` of `kernel/src/gdt.rs`.  The loads of the segment registers that
end `install` are `reload`; with them the processor marks three of the descriptors as accessed.
All segments begin at 0 and have no end, so the model addresses memory linearly.
-/

namespace Kfs.Gdt

open Lib

abbrev BASE : U32 := 0x800

abbrev KERNEL_CODE : U16 := 0x08
abbrev KERNEL_DATA : U16 := 0x10
abbrev KERNEL_STACK : U16 := 0x18

structure Segment where
  name : String
  selector : U16
  descriptor : U64

abbrev KERNEL_EXEC : U8 := 0x9A
abbrev KERNEL_RW : U8 := 0x92
abbrev USER_EXEC : U8 := 0xFA
abbrev USER_RW : U8 := 0xF2

def flat (access : U8) : U64 := 0xFFFF#64 ||| (access.setWidth 64 <<< 40) ||| (0xCF#64 <<< 48)

def SEGMENTS : List Segment :=
  [⟨"null", 0x00, 0⟩,
    ⟨"kernel code", KERNEL_CODE, flat KERNEL_EXEC⟩,
    ⟨"kernel data", KERNEL_DATA, flat KERNEL_RW⟩,
    ⟨"kernel stack", KERNEL_STACK, flat KERNEL_RW⟩,
    ⟨"user code", 0x20 ||| 3, flat USER_EXEC⟩,
    ⟨"user data", 0x28 ||| 3, flat USER_RW⟩,
    ⟨"user stack", 0x30 ||| 3, flat USER_RW⟩]

abbrev LIMIT : U16 := 7 * 8 - 1

/-- The descriptor of entry `i`. -/
def descriptor (i : Nat) : U64 := ((SEGMENTS[i]?).map Segment.descriptor).getD 0

/-- The descriptor of entry `i` once the kernel has loaded its three segments. -/
def held (i : Nat) : U64 :=
  if 1 ≤ i ∧ i ≤ 3 then descriptor i ||| (1#64 <<< 40) else descriptor i

/-- The loop of `install`. -/
def install : Kernel Unit :=
  Prog.forRange (fun i => store64 (BASE + BitVec.ofNat 32 (8 * i)) (descriptor i)) 0
    SEGMENTS.length

end Kfs.Gdt
