import Kfs.Lib.ByteMem
import Kfs.Lib.Prog
import Kfs.Panic
import Kfs.Pmm

/-!
# The machine under the kernel

Physical memory, the two control registers that paging uses, the statics of the frame allocator
and the reports on the screen.  `walk` is the processor's two-level walk of physical memory from
CR3, and every load and store of the kernel goes through it.  A store needs the write bit at both
levels once CR0.WP is set, in ring 0 too.

The processor's translation cache is left out: the source follows every change of an entry with
`invlpg` or a reload of CR3.  The accessed and dirty bits that the processor sets by itself are
left out too.
-/

namespace Kfs

open Lib

structure Machine where
  mem : ByteMem
  cr0 : U32
  cr3 : U32
  pmm : Pmm
  oops : List Oops

/-- A kernel function: it reads and writes the machine, and may not return. -/
abbrev Kernel (α : Type) : Type := Prog Machine Stop α

/-- The frame number that an entry or CR3 holds. -/
def frameNo (e : U32) : Nat := e.toNat / 4096

/-- Bit 0 of an entry. -/
def present (e : U32) : Bool := e.getLsbD 0

/-- Bit 1 of an entry. -/
def writable (e : U32) : Bool := e.getLsbD 1

namespace Machine

/-- Bit 2 of an entry. -/
def user (e : U32) : Bool := e.getLsbD 2

/-- Entry `i` of the page directory. -/
def dirWord (s : Machine) (i : Nat) : U32 := s.mem.read32 (4096 * frameNo s.cr3 + 4 * i)

/-- Entry `j` of the page table in directory slot `i`. -/
def tabWord (s : Machine) (i j : Nat) : U32 :=
  s.mem.read32 (4096 * frameNo (s.dirWord i) + 4 * j)

/-- The table entry that maps page `p`, when both levels are present. -/
def leaf (s : Machine) (p : Nat) : Option U32 :=
  if present (s.dirWord (p / 1024)) then
    let pte := s.tabWord (p / 1024) (p % 1024)
    if present pte then some pte else none
  else none

/-- The hardware walk: the directory entry and the table entry of an address. -/
def walk (s : Machine) (v : U32) : Option (U32 × U32) :=
  let pde := s.dirWord (v.toNat / 2 ^ 22)
  if present pde then
    let pte := s.mem.read32 (4096 * frameNo pde + 4 * (v.toNat / 2 ^ 12 % 1024))
    if present pte then some (pde, pte) else none
  else none

/-- The physical address of `v`, or nothing when a level is absent. -/
def translation (s : Machine) (v : U32) : Option Nat :=
  (s.walk v).map fun e => 4096 * frameNo e.2 + v.toNat % 4096

/-- CR0.WP is set. -/
def writeProtect (s : Machine) : Bool := s.cr0.getLsbD 16

end Machine

/-! ## Loads and stores -/

/-- The physical address behind `v` for one byte, or the fault the processor raises. -/
def resolve (write : Bool) (v : U32) : Kernel Nat where
  run s :=
    match s.walk v with
    | none => .error (.fault v)
    | some (pde, pte) =>
      if write = true ∧ s.writeProtect = true ∧ ¬(writable pde = true ∧ writable pte = true) then
        .error (.fault v)
      else .ok (4096 * frameNo pte + v.toNat % 4096, s)

def load8 (v : U32) : Kernel U8 := do
  let a ← resolve false v
  Prog.gets fun s => s.mem a

def load32 (v : U32) : Kernel U32 := do
  let a0 ← resolve false v
  let a1 ← resolve false (v + 1#32)
  let a2 ← resolve false (v + 2#32)
  let a3 ← resolve false (v + 3#32)
  Prog.gets fun s => ByteMem.ofBytes (s.mem a0) (s.mem a1) (s.mem a2) (s.mem a3)

def store8 (v : U32) (b : U8) : Kernel Unit := do
  let a ← resolve true v
  Prog.modify fun s => { s with mem := s.mem.write8 a b }

/-- A store of four bytes.  All four are translated before the first is written. -/
def store32 (v : U32) (x : U32) : Kernel Unit := do
  let a0 ← resolve true v
  let a1 ← resolve true (v + 1#32)
  let a2 ← resolve true (v + 2#32)
  let a3 ← resolve true (v + 3#32)
  Prog.modify fun s =>
    { s with
      mem := (((s.mem.write8 a0 (ByteMem.byteOf x 0)).write8 a1 (ByteMem.byteOf x 1)).write8 a2
        (ByteMem.byteOf x 2)).write8 a3 (ByteMem.byteOf x 3) }

/-- `koops!`. -/
def koops (o : Oops) : Kernel Unit := Prog.modify fun s => { s with oops := o :: s.oops }

/-- `pmm::alloc_frame` on the allocator's statics. -/
def allocFrame : Kernel (Option U32) where
  run s := .ok (s.pmm.allocFrame.1, { s with pmm := s.pmm.allocFrame.2 })

/-- `pmm::free_frame` on the allocator's statics. -/
def freeFrame (phys : U32) : Kernel Unit :=
  Prog.modify fun s => { s with pmm := s.pmm.freeFrame phys }

/-! ## Pages and the walk -/

namespace Machine

theorem walk_eq (s : Machine) (v : U32) :
    s.walk v = (s.leaf (v.toNat / 4096)).map fun e => (s.dirWord (v.toNat / 4096 / 1024), e) := by
  have hdir : v.toNat / 2 ^ 22 = v.toNat / 4096 / 1024 := by
    rw [Nat.div_div_eq_div_mul]
    rfl
  rw [walk, leaf, tabWord, hdir]
  dsimp only
  split
  · split <;> simp_all
  · simp_all

theorem walk_of_leaf {s : Machine} {v e : U32} (h : s.leaf (v.toNat / 4096) = some e) :
    s.walk v = some (s.dirWord (v.toNat / 4096 / 1024), e) := by
  rw [walk_eq, h]
  rfl

/-- A page is mapped only if its table is. -/
theorem present_of_leaf {s : Machine} {p : Nat} {e : U32} (h : s.leaf p = some e) :
    present (s.dirWord (p / 1024)) = true ∧ s.tabWord (p / 1024) (p % 1024) = e ∧
      present e = true := by
  unfold leaf at h
  split at h
  · rename_i hdir
    dsimp only at h
    split at h
    · rename_i htab
      rw [← Option.some.inj h]
      exact ⟨hdir, rfl, htab⟩
    · cases h
  · cases h

theorem leaf_eq_some {s : Machine} {p : Nat} (hdir : present (s.dirWord (p / 1024)) = true)
    (htab : present (s.tabWord (p / 1024) (p % 1024)) = true) :
    s.leaf p = some (s.tabWord (p / 1024) (p % 1024)) := by
  rw [leaf, if_pos hdir]
  exact if_pos htab

theorem leaf_eq_none_of_dir {s : Machine} {p : Nat}
    (hdir : present (s.dirWord (p / 1024)) = false) : s.leaf p = none := by
  simp [leaf, hdir]

theorem leaf_eq_none_of_tab {s : Machine} {p : Nat}
    (htab : present (s.tabWord (p / 1024) (p % 1024)) = false) : s.leaf p = none := by
  simp [leaf, htab]

end Machine

/-! ## Runs of the accesses -/

theorem resolve_read {s : Machine} {v e : U32} (h : s.leaf (v.toNat / 4096) = some e) :
    (resolve false v).run s = .ok (4096 * frameNo e + v.toNat % 4096, s) := by
  simp [resolve, Machine.walk_of_leaf h]

/-- Ring 0 may write page `p`, whose table entry is `e`. -/
def Machine.MayWrite (s : Machine) (p : Nat) (e : U32) : Prop :=
  writable (s.dirWord (p / 1024)) = true ∧ writable e = true

theorem resolve_write {s : Machine} {v e : U32} (h : s.leaf (v.toNat / 4096) = some e)
    (hw : s.MayWrite (v.toNat / 4096) e) :
    (resolve true v).run s = .ok (4096 * frameNo e + v.toNat % 4096, s) := by
  obtain ⟨hdir, htab⟩ := hw
  simp [resolve, Machine.walk_of_leaf h, hdir, htab]

/-- The four bytes of an aligned word lie in one page. -/
theorem word_in_page {v : U32} (hv : v.toNat % 4 = 0) {i : Nat} (hi : i < 4) :
    (v + BitVec.ofNat 32 i).toNat / 4096 = v.toNat / 4096 ∧
      (v + BitVec.ofNat 32 i).toNat % 4096 = v.toNat % 4096 + i := by
  have hlt := v.isLt
  have hsum : (v + BitVec.ofNat 32 i).toNat = v.toNat + i := by
    rw [BitVec.toNat_add, BitVec.toNat_ofNat]
    omega
  rw [hsum]
  omega

theorem load8_of_leaf {s : Machine} {v e : U32} (h : s.leaf (v.toNat / 4096) = some e) :
    (load8 v).run s = .ok (s.mem (4096 * frameNo e + v.toNat % 4096), s) := by
  rw [load8, Prog.bind_ok (resolve_read h), Prog.run_gets]

theorem store8_of_leaf {s : Machine} {v e : U32} (b : U8)
    (h : s.leaf (v.toNat / 4096) = some e) (hw : s.MayWrite (v.toNat / 4096) e) :
    (store8 v b).run s
      = .ok ((), { s with mem := s.mem.write8 (4096 * frameNo e + v.toNat % 4096) b }) := by
  rw [store8, Prog.bind_ok (resolve_write h hw), Prog.run_modify]

private theorem resolve_read_word {s : Machine} {v e : U32} (hv : v.toNat % 4 = 0)
    (h : s.leaf (v.toNat / 4096) = some e) {i : Nat} (hi : i < 4) :
    (resolve false (v + BitVec.ofNat 32 i)).run s
      = .ok (4096 * frameNo e + v.toNat % 4096 + i, s) := by
  obtain ⟨hdiv, hmod⟩ := word_in_page hv hi
  rw [resolve_read (e := e) (by rw [hdiv]; exact h), hmod, Nat.add_assoc]

private theorem resolve_write_word {s : Machine} {v e : U32} (hv : v.toNat % 4 = 0)
    (h : s.leaf (v.toNat / 4096) = some e) (hw : s.MayWrite (v.toNat / 4096) e) {i : Nat}
    (hi : i < 4) :
    (resolve true (v + BitVec.ofNat 32 i)).run s
      = .ok (4096 * frameNo e + v.toNat % 4096 + i, s) := by
  obtain ⟨hdiv, hmod⟩ := word_in_page hv hi
  rw [resolve_write (e := e) (by rw [hdiv]; exact h) (by rw [hdiv]; exact hw), hmod,
    Nat.add_assoc]

/-- An aligned load from a mapped page reads the word of the frame. -/
theorem load32_of_leaf {s : Machine} {v e : U32} (hv : v.toNat % 4 = 0)
    (h : s.leaf (v.toNat / 4096) = some e) :
    (load32 v).run s = .ok (s.mem.read32 (4096 * frameNo e + v.toNat % 4096), s) := by
  rw [load32, Prog.bind_ok (resolve_read h),
    Prog.bind_ok (resolve_read_word hv h (i := 1) (by decide)),
    Prog.bind_ok (resolve_read_word hv h (i := 2) (by decide)),
    Prog.bind_ok (resolve_read_word hv h (i := 3) (by decide)), Prog.run_gets]
  rfl

/-- An aligned store to a page that ring 0 may write changes the word of the frame. -/
theorem store32_of_leaf {s : Machine} {v e : U32} (x : U32) (hv : v.toNat % 4 = 0)
    (h : s.leaf (v.toNat / 4096) = some e) (hw : s.MayWrite (v.toNat / 4096) e) :
    (store32 v x).run s
      = .ok ((), { s with mem := s.mem.write32 (4096 * frameNo e + v.toNat % 4096) x }) := by
  rw [store32, Prog.bind_ok (resolve_write h hw),
    Prog.bind_ok (resolve_write_word hv h hw (i := 1) (by decide)),
    Prog.bind_ok (resolve_write_word hv h hw (i := 2) (by decide)),
    Prog.bind_ok (resolve_write_word hv h hw (i := 3) (by decide)), Prog.run_modify,
    ByteMem.write8_bytes]

theorem resolve_unmapped {s : Machine} {v : U32} (hnone : s.leaf (v.toNat / 4096) = none)
    (write : Bool) : (resolve write v).run s = .error (.fault v) := by
  unfold resolve
  simp only [Machine.walk_eq, hnone, Option.map_none]

theorem load32_unmapped {s : Machine} {v : U32} (hnone : s.leaf (v.toNat / 4096) = none) :
    (load32 v).run s = .error (.fault v) := by
  rw [load32, Prog.bind_error (resolve_unmapped hnone false)]

theorem store32_unmapped {s : Machine} {v : U32} (hnone : s.leaf (v.toNat / 4096) = none)
    (x : U32) : (store32 v x).run s = .error (.fault v) := by
  rw [store32, Prog.bind_error (resolve_unmapped hnone true)]

/-- An access that returned found its page, and left the machine alone. -/
theorem resolve_inv {s t : Machine} {write : Bool} {v : U32} {a : Nat}
    (h : (resolve write v).run s = .ok (a, t)) :
    t = s ∧ ∃ e, s.leaf (v.toNat / 4096) = some e ∧ a = 4096 * frameNo e + v.toNat % 4096 := by
  cases hleaf : s.leaf (v.toNat / 4096) with
  | none => simp [resolve, Machine.walk_eq, hleaf] at h
  | some e =>
    simp only [resolve, Machine.walk_of_leaf hleaf] at h
    split at h
    · cases h
    · simp only [Except.ok.injEq, Prod.mk.injEq] at h
      exact ⟨h.2.symm, e, rfl, h.1.symm⟩

/-- An aligned store that returned wrote the word of the frame. -/
theorem store32_inv {s t : Machine} {v x : U32} (hv : v.toNat % 4 = 0)
    (h : (store32 v x).run s = .ok ((), t)) :
    ∃ e, s.leaf (v.toNat / 4096) = some e ∧
      t = { s with mem := s.mem.write32 (4096 * frameNo e + v.toNat % 4096) x } := by
  simp only [store32, Prog.bind_eq_ok] at h
  obtain ⟨a0, s0, h0, a1, s1, h1, a2, s2, h2, a3, s3, h3, hw⟩ := h
  obtain ⟨rfl, e, hleaf, rfl⟩ := resolve_inv h0
  -- the other three bytes are in the same page
  have hbyte : ∀ {i a : Nat} {u w : Machine}, i < 4 → u = s0 →
      (resolve true (v + BitVec.ofNat 32 i)).run u = .ok (a, w) →
      w = s0 ∧ a = 4096 * frameNo e + v.toNat % 4096 + i := by
    intro i a u w hi hu hr
    obtain ⟨hdiv, hmod⟩ := word_in_page hv hi
    obtain ⟨hwu, e', hleaf', ha⟩ := resolve_inv hr
    rw [hdiv, hu, hleaf] at hleaf'
    rw [Option.some.inj hleaf', ha, hmod, hwu, hu, Nat.add_assoc]
    exact ⟨rfl, rfl⟩
  obtain ⟨hs1, ha1⟩ := hbyte (i := 1) (by decide) rfl h1
  obtain ⟨hs2, ha2⟩ := hbyte (i := 2) (by decide) hs1 h2
  obtain ⟨hs3, ha3⟩ := hbyte (i := 3) (by decide) hs2 h3
  rw [Prog.run_modify, hs3, ha1, ha2, ha3, ByteMem.write8_bytes] at hw
  cases hw
  exact ⟨e, hleaf, rfl⟩

end Kfs
