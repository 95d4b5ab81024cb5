import Kfs.Paging.Runs

/-!
# From the boot loader to the tables of `paging::init`

`Layout` is what `linker.ld` fixes about the image: where the three static tables lie.  `bootAsm`
is the part of `boot.asm` that builds the first directory and turns paging on.  `init_run` says
what `paging::init` makes of it: the kernel window gets a table of its own, and from then on the
tables have the shape `Paged`.
-/

namespace Kfs

open Lib Mem Paging Machine

/-- The addresses the linker gives the image and its three page-aligned tables in `.bss`. -/
structure Layout where
  image : Image
  bootDirectory : U32
  bootLowTable : U32
  kernelTable : U32
  start_ge : 0xC0100000 ≤ image.start.toNat
  start_le : image.start.toNat ≤ image.readonlyEnd.toNat
  finish_aligned : image.finish.toNat % 4096 = 0
  inBss : ∀ t ∈ [bootDirectory, bootLowTable, kernelTable], t.toNat % 4096 = 0 ∧
    image.readonlyEnd.toNat ≤ t.toNat ∧ t.toNat + 4096 ≤ image.finish.toNat
  dir_ne_low : bootDirectory ≠ bootLowTable
  dir_ne_kernel : bootDirectory ≠ kernelTable
  low_ne_kernel : bootLowTable ≠ kernelTable

/-- `load_phys`: the linker starts the image at `KERNEL_LOAD`. -/
abbrev loadPhys : U32 := 0x00100000

namespace Layout

variable (L : Layout)

/-- The image stays in its 4 MB window, which `mem::init` checks. -/
def Fits : Prop := L.image.finish ≤ KERNEL_WINDOW_END

def dirFrame : Nat := frameNo (kernelPhys L.bootDirectory)
def lowFrame : Nat := frameNo (kernelPhys L.bootLowTable)
def kernelFrame : Nat := frameNo (kernelPhys L.kernelTable)

/-- Frame `k` holds a part of the image. -/
def InImage (k : Nat) : Prop :=
  loadPhys.toNat < 4096 * k + 4096 ∧ 4096 * k < (kernelPhys L.image.finish).toNat

variable {L}

/-- A table of the image, as a virtual and as a physical address. -/
theorem table_addr {t : U32} (ht : t ∈ [L.bootDirectory, L.bootLowTable, L.kernelTable]) :
    t.toNat = 0xC0000000 + 4096 * frameNo (kernelPhys t) ∧
      (kernelPhys t).toNat = 4096 * frameNo (kernelPhys t) ∧
      0x100 ≤ frameNo (kernelPhys t) ∧ L.InImage (frameNo (kernelPhys t)) := by
  obtain ⟨hal, hge, hle⟩ := L.inBss t ht
  have hstart := L.start_ge
  have hread := L.start_le
  have hphys : (kernelPhys t).toNat = t.toNat - 0xC0000000 := by
    rw [kernelPhys]
    bv_omega
  have hend : (kernelPhys L.image.finish).toNat = L.image.finish.toNat - 0xC0000000 := by
    rw [kernelPhys]
    bv_omega
  have hload : loadPhys.toNat = 0x100000 := rfl
  rw [InImage, frameNo, hphys, hend, hload]
  omega

theorem dir_addr : L.bootDirectory.toNat = 0xC0000000 + 4096 * L.dirFrame ∧
    (kernelPhys L.bootDirectory).toNat = 4096 * L.dirFrame ∧ 0x100 ≤ L.dirFrame ∧
    L.InImage L.dirFrame := table_addr (by simp)

theorem low_addr : L.bootLowTable.toNat = 0xC0000000 + 4096 * L.lowFrame ∧
    (kernelPhys L.bootLowTable).toNat = 4096 * L.lowFrame ∧ 0x100 ≤ L.lowFrame ∧
    L.InImage L.lowFrame := table_addr (by simp)

theorem kernel_addr : L.kernelTable.toNat = 0xC0000000 + 4096 * L.kernelFrame ∧
    (kernelPhys L.kernelTable).toNat = 4096 * L.kernelFrame ∧ 0x100 ≤ L.kernelFrame ∧
    L.InImage L.kernelFrame := table_addr (by simp)

theorem frames_ne : L.dirFrame ≠ L.lowFrame ∧ L.dirFrame ≠ L.kernelFrame ∧
    L.lowFrame ≠ L.kernelFrame := by
  have hd := L.dir_addr.1
  have hl := L.low_addr.1
  have hk := L.kernel_addr.1
  refine ⟨fun h => L.dir_ne_low ?_, fun h => L.dir_ne_kernel ?_, fun h => L.low_ne_kernel ?_⟩ <;>
    (apply BitVec.eq_of_toNat_eq; omega)

/-- The kernel's own table lies in the first 4 MB. -/
theorem Fits.kernelFrame_lt (h : L.Fits) : L.kernelFrame < 1024 := by
  have hk := L.kernel_addr.1
  have hle := (L.inBss L.kernelTable (by simp)).2.2
  have hfin : L.image.finish.toNat ≤ 0xC0400000 := h
  omega

end Layout

/-- An image of 128 KB with its three tables behind the read-only part. -/
def smallLayout : Layout where
  image := ⟨0xC0101000, 0xC0110000, 0xC0120000⟩
  bootDirectory := 0xC0110000
  bootLowTable := 0xC0111000
  kernelTable := 0xC0112000
  start_ge := by decide
  start_le := by decide
  finish_aligned := by decide
  inBss t ht := by
    simp only [List.mem_cons, List.not_mem_nil, or_false] at ht
    rcases ht with rfl | rfl | rfl <;> decide
  dir_ne_low := by bv_omega
  dir_ne_kernel := by bv_omega
  low_ne_kernel := by bv_omega

theorem smallLayout_fits : smallLayout.Fits := by
  show (0xC0120000 : U32) ≤ KERNEL_WINDOW_END
  decide

/-! ## `boot.asm` -/

/-- The loop `.identity`: `ecx` words from `edx` on, the entries going up a page at a time. -/
def identity : Nat → U32 → U32 → ByteMem → ByteMem
  | 0, _, _, m => m
  | ecx + 1, edx, eax, m => identity ecx (edx + 4) (eax + 4096) (m.write32 edx.toNat eax)

/-- `_start` up to the jump into the higher half.  Paging is off, so the stores are physical. -/
def bootAsm (L : Layout) (s : Machine) : Machine :=
  let low := kernelPhys L.bootLowTable
  let edx := kernelPhys L.bootDirectory
  let m := identity 1024 low 3 s.mem
  let m := m.write32 edx.toNat (low + 3)
  let m := m.write32 (edx + 768 * 4).toNat (low + 3)
  let m := m.write32 (edx + 1023 * 4).toNat (edx + 3)
  { s with mem := m, cr3 := edx, cr0 := s.cr0 ||| 0x80000000 }

theorem identity_other (n : Nat) : ∀ (edx eax : U32) (m : ByteMem) (a : Nat),
    edx.toNat + 4 * n ≤ 2 ^ 32 → a < edx.toNat ∨ edx.toNat + 4 * n ≤ a →
    identity n edx eax m a = m a := by
  induction n with
  | zero => intros; rfl
  | succ n ih =>
    intro edx eax m a hle ha
    rw [identity]
    by_cases hn : n = 0
    · subst hn
      exact ByteMem.write32_other _ _ (by omega)
    · have hedx : (edx + 4).toNat = edx.toNat + 4 := by bv_omega
      rw [ih _ _ _ _ (by omega) (by omega)]
      exact ByteMem.write32_other _ _ (by omega)

theorem read32_identity (n : Nat) : ∀ (edx eax : U32) (m : ByteMem) (i : Nat),
    edx.toNat + 4 * n ≤ 2 ^ 32 → i < n →
    (identity n edx eax m).read32 (edx.toNat + 4 * i) = eax + BitVec.ofNat 32 (4096 * i) := by
  induction n with
  | zero => intros; omega
  | succ n ih =>
    intro edx eax m i hle hi
    rw [identity]
    by_cases hn : n = 0
    · have hi0 : i = 0 := by omega
      subst hn hi0
      rw [identity]
      simp
    · have hedx : (edx + 4).toNat = edx.toNat + 4 := by bv_omega
      cases i with
      | zero =>
        rw [ByteMem.read32_congr fun p _ _ => identity_other n _ _ _ p (by omega) (by omega)]
        simp
      | succ i =>
        have h := ih (edx + 4) (eax + 4096) (m.write32 edx.toNat eax) i (by omega) (by omega)
        rw [hedx] at h
        rw [show edx.toNat + 4 * (i + 1) = edx.toNat + 4 + 4 * i from by omega, h,
          show 4096 * (i + 1) = 4096 + 4096 * i from by omega, BitVec.ofNat_add,
          BitVec.add_assoc]
        rfl

/-- The words of the loader's zeroed `.bss` that `boot.asm` relies on: the directory is empty. -/
def Loaded (L : Layout) (s : Machine) : Prop :=
  ∀ a, a / 4096 = L.dirFrame → s.mem a = 0

/-- The tables `boot.asm` leaves: the first 4 MB at 0 and at `KERNEL_SPACE`, and the directory in
its own last entry. -/
structure BootTables (L : Layout) (s : Machine) : Prop where
  cr3 : frameNo s.cr3 = L.dirFrame
  dirLow : (s.dirWord 0).toNat = 4096 * L.lowFrame + 3
  dirKernel : (s.dirWord 768).toNat = 4096 * L.lowFrame + 3
  dirSelf : (s.dirWord 1023).toNat = 4096 * L.dirFrame + 3
  dirElse : ∀ i, i < 1024 → i ≠ 0 → i ≠ 768 → i ≠ 1023 → s.dirWord i = 0
  low : ∀ j, j < 1024 → (s.mem.read32 (4096 * L.lowFrame + 4 * j)).toNat = 4096 * j + 3

/-- `boot.asm` writes its two tables only. -/
theorem bootAsm_mem {L : Layout} (s : Machine) {a : Nat} (hd : a / 4096 ≠ L.dirFrame)
    (hl : a / 4096 ≠ L.lowFrame) : (bootAsm L s).mem a = s.mem a := by
  have hdir := L.dir_addr.2.1
  have hlow := L.low_addr.2.1
  have hdlt := (kernelPhys L.bootDirectory).isLt
  have hllt := (kernelPhys L.bootLowTable).isLt
  rw [bootAsm]
  dsimp only
  rw [ByteMem.write32_other _ _ (by bv_omega), ByteMem.write32_other _ _ (by bv_omega),
    ByteMem.write32_other _ _ (by omega), identity_other 1024 _ _ _ _ (by omega) (by omega)]

theorem bootAsm_pmm (L : Layout) (s : Machine) : (bootAsm L s).pmm = s.pmm := by
  rw [bootAsm]

theorem bootAsm_tables {L : Layout} {s : Machine} (h : Loaded L s) :
    BootTables L (bootAsm L s) := by
  obtain ⟨hdl, _, _⟩ := L.frames_ne
  have hd := L.dir_addr.2.1
  have hl := L.low_addr.2.1
  have hdlt := (kernelPhys L.bootDirectory).isLt
  have hllt := (kernelPhys L.bootLowTable).isLt
  have h768 : (kernelPhys L.bootDirectory + 768 * 4).toNat = 4096 * L.dirFrame + 4 * 768 := by
    bv_omega
  have h1023 : (kernelPhys L.bootDirectory + 1023 * 4).toNat = 4096 * L.dirFrame + 4 * 1023 := by
    bv_omega
  have hlow3 : (kernelPhys L.bootLowTable + 3).toNat = 4096 * L.lowFrame + 3 := by bv_omega
  have hdir3 : (kernelPhys L.bootDirectory + 3).toNat = 4096 * L.dirFrame + 3 := by bv_omega
  have hmem : (bootAsm L s).mem
      = (((identity 1024 (kernelPhys L.bootLowTable) 3 s.mem).write32 (4096 * L.dirFrame)
            (kernelPhys L.bootLowTable + 3)).write32 (4096 * L.dirFrame + 4 * 768)
            (kernelPhys L.bootLowTable + 3)).write32 (4096 * L.dirFrame + 4 * 1023)
            (kernelPhys L.bootDirectory + 3) := by
    rw [bootAsm]
    dsimp only
    rw [h1023, h768, hd]
  -- the words of the directory, from the last store to the first
  have hword : ∀ i, i < 1024 → (bootAsm L s).dirWord i
      = if i = 1023 then kernelPhys L.bootDirectory + 3
        else if i = 768 then kernelPhys L.bootLowTable + 3
        else if i = 0 then kernelPhys L.bootLowTable + 3 else 0 := by
    intro i hi
    rw [dirWord, hmem, show frameNo (bootAsm L s).cr3 = L.dirFrame from rfl]
    by_cases h1 : i = 1023
    · rw [if_pos h1, h1, ByteMem.read32_write32_same]
    rw [if_neg h1, ByteMem.read32_write32_other _ _ (by omega)]
    by_cases h2 : i = 768
    · rw [if_pos h2, h2, ByteMem.read32_write32_same]
    rw [if_neg h2, ByteMem.read32_write32_other _ _ (by omega)]
    by_cases h3 : i = 0
    · rw [if_pos h3, h3, Nat.mul_zero, Nat.add_zero, ByteMem.read32_write32_same]
    rw [if_neg h3, ByteMem.read32_write32_other _ _ (by omega)]
    have hzero : ∀ p, 4096 * L.dirFrame + 4 * i ≤ p → p < 4096 * L.dirFrame + 4 * i + 4 →
        identity 1024 (kernelPhys L.bootLowTable) 3 s.mem p = (fun _ => 0) p := by
      intro p hp1 hp2
      rw [identity_other 1024 _ _ _ _ (by omega) (by omega)]
      exact h p (by omega)
    rw [ByteMem.read32_congr hzero]
    rfl
  refine ⟨rfl, ?_, ?_, ?_, ?_, ?_⟩
  · rw [hword 0 (by decide)]
    exact hlow3
  · rw [hword 768 (by decide)]
    exact hlow3
  · rw [hword 1023 (by decide)]
    exact hdir3
  · intro i hi h0 h768 h1023
    rw [hword i hi, if_neg h1023, if_neg h768, if_neg h0]
  · intro j hj
    rw [hmem, ByteMem.read32_write32_other _ _ (by omega),
      ByteMem.read32_write32_other _ _ (by omega), ByteMem.read32_write32_other _ _ (by omega),
      ← hl, read32_identity 1024 _ _ _ j (by omega) hj, BitVec.toNat_add, BitVec.toNat_ofNat,
      show (3 : U32).toNat = 3 from rfl]
    omega

/-! ## `paging::init` -/

/-- An entry made of a frame and the bits `PRESENT` and `WRITABLE`. -/
theorem entry_bits {w : U32} {k : Nat} (h : w.toNat = 4096 * k + 3) :
    frameNo w = k ∧ present w = true ∧ writable w = true := by
  refine ⟨?_, ?_, ?_⟩
  · rw [frameNo]
    omega
  · rw [present, ← BitVec.testBit_toNat, h, Nat.testBit_zero, decide_eq_true_eq]
    omega
  · rw [writable, ← BitVec.testBit_toNat, h, Nat.testBit_succ, Nat.testBit_zero,
      decide_eq_true_eq]
    omega

/-- The identity table in slot 0: the first 4 MB, one page each, all of them writable. -/
theorem leaf_identity {s : Machine} {f : Nat} (hdir : (s.dirWord 0).toNat = 4096 * f + 3)
    (hlow : ∀ j, j < 1024 → (s.mem.read32 (4096 * f + 4 * j)).toNat = 4096 * j + 3) {p : Nat}
    (hp : p < 1024) : ∃ e, s.leaf p = some e ∧ frameNo e = p ∧ writable e = true := by
  obtain ⟨hf, hpres, _⟩ := entry_bits hdir
  have hdiv : p / 1024 = 0 := by omega
  have hmod : p % 1024 = p := by omega
  have hentry : (s.tabWord 0 p).toNat = 4096 * p + 3 := by
    rw [tabWord, hf]
    exact hlow p hp
  obtain ⟨hef, hep, hew⟩ := entry_bits hentry
  refine ⟨s.tabWord 0 p, ?_, hef, hew⟩
  rw [leaf_eq_some (by rw [hdiv]; exact hpres) (by rw [hdiv, hmod]; exact hep), hdiv, hmod]

/-- The tables `paging::init` leaves.  The kernel window has its own table, with the image's
code and constants read only. -/
structure InitTables (L : Layout) (s : Machine) : Prop where
  cr3 : frameNo s.cr3 = L.dirFrame
  writeProtect : s.writeProtect = true
  dirLow : (s.dirWord 0).toNat = 4096 * L.lowFrame + 3
  dirKernel : (s.dirWord 768).toNat = 4096 * L.kernelFrame + 3
  dirSelf : (s.dirWord 1023).toNat = 4096 * L.dirFrame + 3
  dirElse : ∀ i, i < 1024 → i ≠ 0 → i ≠ 768 → i ≠ 1023 → s.dirWord i = 0
  low : ∀ j, j < 1024 → (s.mem.read32 (4096 * L.lowFrame + 4 * j)).toNat = 4096 * j + 3
  kernel : ∀ j, j < 1024 →
    s.mem.read32 (4096 * L.kernelFrame + 4 * j) = kernelEntry L.image j

theorem BootTables.withPmm {L : Layout} {s : Machine} (h : BootTables L s) (p : Pmm) :
    BootTables L { s with pmm := p } :=
  ⟨h.cr3, h.dirLow, h.dirKernel, h.dirSelf, h.dirElse, h.low⟩

theorem BootTables.selfMapped {L : Layout} {s : Machine} (h : BootTables L s) :
    s.SelfMapped := by
  obtain ⟨hf, hp, hw⟩ := entry_bits h.dirSelf
  exact ⟨by rw [hf, h.cr3], hp, hw⟩

/-- `paging::init` returns, changes the kernel's table and one entry of the directory, and sets
CR0.WP. -/
theorem init_run {L : Layout} (hfits : L.Fits) {s : Machine} (h : BootTables L s) :
    ∃ t, (Paging.init L.image L.kernelTable).run s = .ok ((), t) ∧ InitTables L t ∧
      t.pmm = s.pmm ∧ t.oops = s.oops ∧
      (∀ a, a / 4096 ≠ L.dirFrame → a / 4096 ≠ L.kernelFrame → t.mem a = s.mem a) := by
  obtain ⟨hdl, hdk, hlk⟩ := L.frames_ne
  have hklt := hfits.kernelFrame_lt
  obtain ⟨hkaddr, hkphys, _, _⟩ := L.kernel_addr
  have hpage : L.kernelTable.toNat / 4096 = 768 * 1024 + L.kernelFrame := by omega
  have hdiv : (768 * 1024 + L.kernelFrame) / 1024 = 768 := by omega
  have hmod : (768 * 1024 + L.kernelFrame) % 1024 = L.kernelFrame := by omega
  obtain ⟨hbf, hbp, hbw⟩ := entry_bits h.dirKernel
  have hentry : (s.tabWord 768 L.kernelFrame).toNat = 4096 * L.kernelFrame + 3 := by
    rw [tabWord, hbf]
    exact h.low _ hklt
  obtain ⟨hef, hep, hew⟩ := entry_bits hentry
  have hleaf : s.leaf (L.kernelTable.toNat / 4096) = some (s.tabWord 768 L.kernelFrame) := by
    rw [hpage, leaf_eq_some (by rw [hdiv]; exact hbp) (by rw [hdiv, hmod]; exact hep), hdiv, hmod]
  have hfill := fillPage_run (s := s) (kernelEntry L.image) (by omega) hleaf
    (by rw [hpage]; exact ⟨by rw [hdiv]; exact hbw, hew⟩)
    (by rw [hef, h.cr3]; exact hdk.symm) (by rw [hpage, hdiv, hef, hbf]; exact hlk.symm)
  rw [hef] at hfill
  -- the machine after the loop: the directory is untouched
  let u : Machine :=
    { s with mem := s.mem.fill32 (4096 * L.kernelFrame) (kernelEntry L.image) 1024 }
  have humem : ∀ a, a / 4096 ≠ L.kernelFrame → u.mem a = s.mem a := fun a ha =>
    ByteMem.fill32_other _ _ (by omega)
  have hudir : ∀ {i}, i < 1024 → u.dirWord i = s.dirWord i := fun hi =>
    dirWord_congr (t := u) (s := s) rfl (fun a ha => humem a (by rw [ha, h.cr3]; exact hdk)) hi
  have huself : u.SelfMapped := by
    obtain ⟨h1, h2, h3⟩ := h.selfMapped
    refine ⟨?_, ?_, ?_⟩ <;> rw [hudir (by decide)] <;> assumption
  have hstore := store32_directory huself (i := 768) (by decide)
    (kernelPhys L.kernelTable ||| KERNEL_PAGE)
  have hword : (kernelPhys L.kernelTable ||| KERNEL_PAGE).toNat = 4096 * L.kernelFrame + 3 := by
    rw [Word.toNat_or_of_aligned (k := 12) (by rw [hkphys]; omega) (by decide), hkphys]
    rfl
  let t : Machine :=
    { u with
      mem := u.mem.write32 (4096 * frameNo u.cr3 + 4 * 768)
        (kernelPhys L.kernelTable ||| KERNEL_PAGE)
      cr0 := u.cr0 ||| WRITE_PROTECT }
  have htmem : ∀ a, a / 4096 ≠ L.dirFrame → t.mem a = u.mem a := by
    intro a ha
    refine ByteMem.write32_other _ _ ?_
    have hcr3 : frameNo u.cr3 = L.dirFrame := h.cr3
    rw [hcr3]
    omega
  have htdir : ∀ {i}, i < 1024 → t.dirWord i
      = if i = 768 then kernelPhys L.kernelTable ||| KERNEL_PAGE else s.dirWord i := by
    intro i hi
    show (u.mem.write32 (4096 * frameNo u.cr3 + 4 * 768) _).read32 (4096 * frameNo u.cr3 + 4 * i)
      = _
    split
    · rename_i hi'
      rw [hi', ByteMem.read32_write32_same]
    · rename_i hi'
      rw [ByteMem.read32_write32_other _ _ (by omega)]
      exact hudir hi
  refine ⟨t, ?_, ?_, rfl, rfl, fun a hda hka => by rw [htmem a hda, humem a hka]⟩
  · rw [Paging.init, Prog.bind_ok hfill]
    exact Prog.bind_ok hstore
  · refine ⟨h.cr3, ?_, ?_, ?_, ?_, fun i hi h0 h768 h1023 => ?_, fun j hj => ?_, fun j hj => ?_⟩
    · show (u.cr0 ||| WRITE_PROTECT).getLsbD 16 = true
      have hbit : WRITE_PROTECT.getLsbD 16 = true := by decide
      rw [BitVec.getLsbD_or, hbit, Bool.or_true]
    · rw [htdir (by decide), if_neg (by decide)]
      exact h.dirLow
    · rw [htdir (by decide), if_pos rfl]
      exact hword
    · rw [htdir (by decide), if_neg (by decide)]
      exact h.dirSelf
    · rw [htdir hi, if_neg h768]
      exact h.dirElse i hi h0 h768 h1023
    · rw [read32_frame_congr (m := s.mem) hj fun a ha => by
        rw [htmem a (by omega), humem a (by omega)]]
      exact h.low j hj
    · rw [read32_frame_congr (m := u.mem) hj fun a ha => htmem a (by omega)]
      exact ByteMem.read32_fill32 _ _ _ hj

/-- Only three entries of the directory are present. -/
theorem InitTables.slot {L : Layout} {s : Machine} (h : InitTables L s) {i : Nat} (hi : i < 1024)
    (hp : present (s.dirWord i) = true) : i = 0 ∨ i = 768 ∨ i = 1023 := by
  by_contra hne
  rw [h.dirElse i hi (by omega) (by omega) (by omega)] at hp
  exact absurd hp (by decide)

/-- The shape of the tables after `paging::init`, when no frame of the image is free. -/
theorem InitTables.paged {L : Layout} {s : Machine} (h : InitTables L s)
    (hfree : ∀ k, L.InImage k → k ∉ s.pmm.frames) : s.Paged := by
  obtain ⟨hdl, hdk, hlk⟩ := L.frames_ne
  obtain ⟨h0f, h0p, h0w⟩ := entry_bits h.dirLow
  obtain ⟨hkf, hkp, hkw⟩ := entry_bits h.dirKernel
  obtain ⟨hsf, hsp, hsw⟩ := entry_bits h.dirSelf
  have hcase : ∀ {i}, i < 1024 → present (s.dirWord i) = true → i = 0 ∨ i = 768 ∨ i = 1023 :=
    h.slot
  refine ⟨by rw [hsf, h.cr3], hsp, fun i hi hp => ?_, fun i j hi hj hpi hpj heq => ?_,
    fun k hk => ?_⟩
  · rcases hcase hi hp with rfl | rfl | rfl <;> assumption
  · rcases hcase hi hpi with rfl | rfl | rfl <;> rcases hcase hj hpj with rfl | rfl | rfl <;>
      first
        | rfl
        | (exfalso; omega)
  · obtain ⟨i, hi, hp, rfl⟩ := hk
    rcases hcase hi hp with rfl | rfl | rfl
    · rw [h0f]
      exact hfree _ L.low_addr.2.2.2
    · rw [hkf]
      exact hfree _ L.kernel_addr.2.2.2
    · rw [hsf]
      exact hfree _ L.dir_addr.2.2.2

end Kfs
