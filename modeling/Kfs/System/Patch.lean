import Kfs.Paging.Region
import Kfs.System.Code

/-!
# Memory that the allocators do not know

The kernel's own variables, its stack and the tables of the processor lie in frames of the image and
of the first megabyte.  Neither of the heaps, nor the free frames, nor a page of theirs ever gets to
these frames (`Own`), so their bytes can change without any effect on the invariant of the system:
`Heaps.Inv.patch`.  In the other direction the system leaves these bytes alone: `Heaps.Inv.own_mem`.
-/

namespace Kfs

open Lib Mem Paging Machine

/-- The pages that the system maps and unmaps. -/
abbrev systemPages : Set Nat := kernelPages ∪ virtualPages ∪ userPages

/-- The machine with the bytes in `Z` replaced. -/
def Machine.patch (s : Machine) (Z : Nat → Bool) (m : ByteMem) : Machine :=
  { s with mem := fun a => if Z a then m a else s.mem a }

/-- A machine that differs in the bytes of `Z` only is a patch. -/
theorem Machine.patch_eq {s : Machine} {Z : Nat → Bool} {m : ByteMem}
    (h : ∀ a, Z a = false → m a = s.mem a) : s.patch Z m = { s with mem := m } := by
  have hmem : (fun a => if Z a then m a else s.mem a) = m := by
    funext a
    cases hz : Z a with
    | true => rw [if_pos rfl]
    | false => rw [if_neg (by decide), h a hz]
  rw [patch, hmem]

/-- The bytes of `Z` are in frames that the system at boot neither had nor could get. -/
def Machine.Own (s0 : Machine) (window : U32 × U32) (Z : Nat → Bool) : Prop :=
  ∀ a, Z a = true → ¬s0.Mine systemPages (windowFrames window) (a / 4096)

variable {L : Layout} {ram : Multiboot.Ram} {s s0 : Machine} {hs hs0 : Heaps}
  {window : U32 × U32} {bk bv : List Block} {Z : Nat → Bool}

/-- No table lies in the patch. -/
theorem Machine.Own.sameTables (hZ : s.Own window Z) (m : ByteMem) :
    SameTables s (s.patch Z m) where
  cr3 := rfl
  mem a ha := by
    refine if_neg fun hz => ?_
    exact hZ a hz (Or.inr (Or.inl ha))

theorem Machine.Own.mine (hZ : s.Own window Z) (hs : s.Paged) (m : ByteMem) {R D : Set Nat}
    {k : Nat} : (s.patch Z m).Mine R D k ↔ s.Mine R D k := by
  have hsame := hZ.sameTables m
  unfold Mine
  rw [hsame.isTable_iff hs, behind_congr fun p hp _ => hsame.leaf hs (by omega)]
  exact Iff.rfl

theorem InitTables.patch (h : InitTables L s)
    (hZ : ∀ a, Z a = true → a / 4096 ≠ L.dirFrame ∧ a / 4096 ≠ L.lowFrame ∧
      a / 4096 ≠ L.kernelFrame) (m : ByteMem) : InitTables L (s.patch Z m) := by
  have hmem : ∀ a, (a / 4096 = L.dirFrame ∨ a / 4096 = L.lowFrame ∨ a / 4096 = L.kernelFrame) →
      (s.patch Z m).mem a = s.mem a := by
    intro a ha
    refine if_neg fun hz => ?_
    obtain ⟨h1, h2, h3⟩ := hZ a hz
    omega
  have hdir : ∀ {i}, i < 1024 → (s.patch Z m).dirWord i = s.dirWord i := fun hi =>
    dirWord_congr (t := s.patch Z m) (s := s) rfl (fun a ha => hmem a (Or.inl (ha.trans h.cr3))) hi
  refine ⟨h.cr3, h.writeProtect, ?_, ?_, ?_, fun i hi h0 h768 h1023 => ?_, fun j hj => ?_,
    fun j hj => ?_⟩
  · rw [hdir (by decide)]
    exact h.dirLow
  · rw [hdir (by decide)]
    exact h.dirKernel
  · rw [hdir (by decide)]
    exact h.dirSelf
  · rw [hdir hi]
    exact h.dirElse i hi h0 h768 h1023
  · rw [read32_frame_congr (m := s.mem) hj fun a ha => hmem a (Or.inr (Or.inl ha))]
    exact h.low j hj
  · rw [read32_frame_congr (m := s.mem) hj fun a ha => hmem a (Or.inr (Or.inr ha))]
    exact h.kernel j hj

theorem Started.patch (h0 : Started L ram hs s window) (hZ : s.Own window Z) (m : ByteMem) :
    Started L ram hs (s.patch Z m) window := by
  refine ⟨h0.fits, h0.reported, h0.heaps, h0.tables.patch (fun a hz => ?_) m, h0.pmm, h0.carved⟩
  have hnot : ¬s.IsTable (a / 4096) := fun ht => hZ a hz (Or.inr (Or.inl ht))
  rw [h0.isTable] at hnot
  omega

namespace Heaps.Inv

/-- Nobody got to the frames since boot. -/
theorem own (hi : hs.Inv s0 window s bk bv) (hZ : s0.Own window Z) : s.Own window Z :=
  fun a hz hm => hZ a hz ((hi.confined.mine _).mp hm)

/-- The system leaves the bytes alone. -/
theorem own_mem (hi : hs.Inv s0 window s bk bv) (hZ : s0.Own window Z) {a : Nat}
    (ha : Z a = true) : s.mem a = s0.mem a := hi.confined.mem a (hZ a ha)

/-- The invariant does not see bytes that the system does not know. -/
theorem patch (hi : hs.Inv s0 window s bk bv) (hs0 : s0.Paged) (hZ : s0.Own window Z)
    (m : ByteMem) : hs.Inv (s0.patch Z m) window (s.patch Z m) bk bv := by
  have hZs := hi.own hZ
  have hpaged := hi.kernel.inv.paged
  have hsame := hZs.sameTables m
  have hsame0 := hZ.sameTables m
  let D : Set Nat := { k | ¬s.Mine systemPages (windowFrames window) k }
  have hconf : Confined ∅ D s (s.patch Z m) := by
    refine confined_mem hpaged fun a ha => if_neg fun hz => ha ⟨?_, fun ht => ?_⟩
    · exact Or.inr (Or.inr (Or.inl (hZs a hz)))
    · exact hZs a hz (Or.inr (Or.inl ht))
  -- the frames behind the pages of the system are not in the patch
  have hfar : ∀ {P : Set Nat}, P ⊆ systemPages → ∀ k, s.Behind P k →
      k ∉ D ∧ ¬s.Behind ∅ k := by
    rintro P hP k ⟨p, hp, hlt, e, he, hk⟩
    refine ⟨fun hD => hD (Or.inr (Or.inr (Or.inr ⟨p, hP hp, hlt, e, he, hk⟩))), not_behind_empty⟩
  have hK : kernelPages ⊆ systemPages := fun _ hp => Or.inl (Or.inl hp)
  have hV : virtualPages ⊆ systemPages := fun _ hp => Or.inl (Or.inr hp)
  have hU : userPages ⊆ systemPages := fun _ hp => Or.inr hp
  obtain ⟨hkok, hkclear, hkleaf, _⟩ := hi.kernel.elsewhere hi.kernel_clear hconf
    (fun _ _ => Set.notMem_empty _) (by rw [hi.kernel_range]; exact hfar hK) fun k hk => by
      have hspare := hi.kernel.inv.spare k hk
      rw [hi.kernel_window] at hk
      exact Machine.not_mine.mpr ⟨hspare.1, hspare.2, fun hD => hD (Or.inr (Or.inr (Or.inl hk))),
        not_behind_empty⟩
  obtain ⟨hvok, hvclear, hvleaf, _⟩ := hi.virtual_elsewhere hconf
    (fun _ _ => Set.notMem_empty _) (hfar hV)
  obtain ⟨huser, hubehind, _⟩ := hi.user.elsewhere hconf (fun _ _ => Set.notMem_empty _) (hfar hU)
  have hvbehind : ∀ k, (s.patch Z m).Behind virtualPages k ↔ s.Behind virtualPages k := fun k =>
    behind_congr fun p _ hp => hvleaf p hp
  refine ⟨hkok, hvok, hi.kernel_heap, hi.virtual_heap, hkclear, hvclear, huser, fun k hk => ?_,
    fun k hk => hi.user_window k ((hubehind k).mp hk),
    fun k hk => hi.virtual_window k ((hvbehind k).mp hk), ?_⟩
  · rw [hvbehind]
    exact hi.user_apart k ((hubehind k).mp hk)
  · have hdir : ∀ {i}, i < 1024 → (s.patch Z m).dirWord i = s.dirWord i := fun h =>
      hsame.dirWord hpaged h
    have hdir0 : ∀ {i}, i < 1024 → (s0.patch Z m).dirWord i = s0.dirWord i := fun h =>
      hsame0.dirWord hs0 h
    have hc := hi.confined
    refine ⟨hc.cr3, hc.cr0, hconf.paged, hc.total, hc.counted, fun i h hp => ?_,
      fun i h hp hp' => ?_, fun p hlt hp => ?_, fun k => ?_, fun a ha => ?_⟩
    · rw [hdir0 h] at hp ⊢
      rw [hdir h, hc.dir i h hp]
    · rw [hdir0 h] at hp
      rw [hdir h] at hp' ⊢
      exact hc.fresh i h hp hp'
    · rw [hsame.leaf hpaged (by omega), hsame0.leaf hs0 (by omega), hc.leaf p hlt hp]
    · rw [hZs.mine hpaged, hZ.mine hs0, hc.mine]
    · rw [hZ.mine hs0] at ha
      show (if Z a then m a else s.mem a) = if Z a then m a else s0.mem a
      rw [hc.mem a ha]

end Heaps.Inv

/-! ## The first megabyte and the image -/

/-- The bytes of the first megabyte, and those of the image outside of its three tables. -/
def Layout.reserved (L : Layout) (a : Nat) : Bool :=
  decide (a < 0x100000 ∨ (a + 0xC0000000 < L.image.finish.toNat ∧ a / 4096 ≠ L.dirFrame ∧
    a / 4096 ≠ L.lowFrame ∧ a / 4096 ≠ L.kernelFrame))

/-- They are out of reach of the system. -/
theorem Started.own_reserved (h0 : Started L ram hs s window) : s.Own window L.reserved := by
  intro a ha hmine
  have hfits := h0.fits
  have hfin : L.image.finish.toNat ≤ 0xC0400000 := hfits
  obtain ⟨_, hge, hle⟩ := L.inBss L.bootDirectory (by simp)
  have hstart := L.start_ge
  have hread := L.start_le
  have hphys : (kernelPhys L.image.finish).toNat = L.image.finish.toNat - 0xC0000000 := by
    rw [kernelPhys]
    bv_omega
  have hload : loadPhys.toNat = 0x100000 := rfl
  have hdir := L.dir_addr.2.2.1
  have hlow := L.low_addr.2.2.1
  have hkernel := L.kernel_addr.2.2.1
  have hres := of_decide_eq_true ha
  -- the allocator reserved the frame before it carved the block
  have hused : a / 4096 ∉ (Pmm.bootReserve ram loadPhys L.image.finish).frames := by
    rw [Pmm.mem_bootReserve hfits.imageFits, Pmm.Touches, Pmm.Touches, hphys, hload]
    rintro ⟨_, h1, h2⟩
    omega
  rcases hmine with hfree | htab | hwin | hbehind
  · rw [h0.pmm, Pmm.mem_bootCarve hfits.imageFits] at hfree
    rw [Pmm.mem_bootReserve hfits.imageFits] at hused
    exact hused ⟨hfree.1, hfree.2.1, hfree.2.2.1⟩
  · rcases h0.isTable.mp htab with h | h | h <;> omega
  · obtain ⟨b, n, hb⟩ := h0.block
    rw [mem_windowFrames hb] at hwin
    exact hused (hb.run _ hwin.1 hwin.2)
  · exact h0.not_behind (fun _ hp => hp) hbehind

/-- Outside of its read-only part the image may be written. -/
theorem writable_kernelEntry (image : Image) {j : Nat} (hj : j < 1024)
    (h : image.readonlyEnd.toNat ≤ 0xC0000000 + 4096 * j) :
    writable (kernelEntry image j) = true := by
  have hphys : (BitVec.ofNat 32 j * PAGE_SIZE).toNat = 4096 * j := by
    rw [BitVec.toNat_mul, BitVec.toNat_ofNat, show PAGE_SIZE.toNat = 4096 from rfl]
    omega
  have hvirt : (KERNEL_SPACE + BitVec.ofNat 32 j * PAGE_SIZE).toNat = 0xC0000000 + 4096 * j := by
    rw [BitVec.toNat_add, hphys, show KERNEL_SPACE.toNat = 0xC0000000 from rfl]
    omega
  rw [kernelEntry, if_neg (by rw [BitVec.lt_def, hvirt]; omega),
    writable,
    Word.getLsbD_or_of_aligned (k := 12) (by omega) _ (by decide)]
  decide

/-- In every state that is reached, the variables of the image are where the linker put them. -/
theorem Heaps.Inv.region (hi : hs.Inv s0 window s bk bv) (h0 : Started L ram hs0 s0 window)
    (hal : L.image.readonlyEnd.toNat % 4096 = 0) {lo hi' : Nat}
    (hlo : L.image.readonlyEnd.toNat ≤ lo) (hhi : hi' ≤ L.image.finish.toNat)
    (hapart : ∀ a, lo ≤ a → a < hi' → L.reserved (a - 0xC0000000) = true) :
    s.Region 0xC0000000 lo hi' := by
  have hfin : L.image.finish.toNat ≤ 0xC0400000 := h0.fits
  have hstart := L.start_ge
  have hread := L.start_le
  have hpaged := hi.kernel.inv.paged
  have hown := hi.own h0.own_reserved
  refine ⟨hpaged.selfMapped, by omega, fun a h1 h2 => ?_, fun a h1 h2 ht =>
    hown _ (hapart a h1 h2) (Or.inr (Or.inl ht))⟩
  obtain ⟨j, hj, hpage⟩ : ∃ j, j < 1024 ∧ a / 4096 = 0xC0000 + j :=
    ⟨a / 4096 - 0xC0000, by omega, by omega⟩
  have hnot : 0xC0000 + j ∉ systemPages := by
    rw [Set.mem_union, Set.mem_union, mem_kernelPages, mem_virtualPages, mem_userPages]
    omega
  have hleaf : s.leaf (a / 4096) = some (kernelEntry L.image j) := by
    rw [hpage, hi.confined.leaf _ (by omega) hnot, h0.tables.leaf_kernel hj]
  obtain ⟨_, hframe, _⟩ := kernelEntry_bits L.image hj
  refine ⟨_, hleaf, by rw [hframe]; omega, ?_, writable_kernelEntry _ hj (by omega)⟩
  exact hpaged.dirWritable _ (by omega) (present_of_leaf hleaf).1

/-- The first megabyte, with the table of segments and the text buffer, is where it was too. -/
theorem Heaps.Inv.low_region (hi : hs.Inv s0 window s bk bv) (h0 : Started L ram hs0 s0 window) :
    s.Region 0 0 0x100000 := by
  have hpaged := hi.kernel.inv.paged
  have hown := hi.own h0.own_reserved
  refine ⟨hpaged.selfMapped, by decide, fun a h1 h2 => ?_, fun a h1 h2 ht =>
    hown a (decide_eq_true (Or.inl h2)) (Or.inr (Or.inl ht))⟩
  obtain ⟨e, he, hframe, hw⟩ :=
    leaf_identity h0.tables.dirLow h0.tables.low (p := a / 4096) (by omega)
  have hnot : a / 4096 ∉ systemPages := by
    rw [Set.mem_union, Set.mem_union, mem_kernelPages, mem_virtualPages, mem_userPages]
    omega
  have hleaf : s.leaf (a / 4096) = some e := by rw [hi.confined.leaf _ (by omega) hnot, he]
  exact ⟨e, hleaf, by omega, hpaged.dirWritable _ (by omega) (present_of_leaf hleaf).1, hw⟩

end Kfs
