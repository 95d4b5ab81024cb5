import Kfs.System.Top

/-!
# Who can write the kernel's code

`paging::init` maps the code and the constants of the image read only in the kernel window, and
sets CR0.WP.  The frames of the image are behind other pages too: slot 0 of the directory still
has the table of `boot.asm`, which maps the first 4 MB to themselves, all of them writable.  This is
the only other way to the code.  The frames behind the heaps, behind user pages and behind the
table window were free at boot, or belong to the carved block, or hold one of the three tables of
the image, and none of these is a frame of the code.
-/

namespace Kfs

open Lib Mem Paging Machine

/-- The linker starts the image, and ends its read-only part, at a page. -/
def Layout.Aligned (L : Layout) : Prop :=
  L.image.start.toNat % 4096 = 0 ∧ L.image.readonlyEnd.toNat % 4096 = 0

/-- The physical address is one of the code and the constants of the image. -/
def Layout.Code (L : Layout) (a : Nat) : Prop :=
  (kernelPhys L.image.start).toNat ≤ a ∧ a < (kernelPhys L.image.readonlyEnd).toNat

/-- Ring 0 may write the address under CR0.WP. -/
def Machine.MayStore (s : Machine) (v : U32) : Prop :=
  ∃ pde pte, s.walk v = some (pde, pte) ∧ writable pde = true ∧ writable pte = true

variable {L : Layout} {ram : Multiboot.Ram} {s s0 : Machine} {hs hs0 : Heaps}
  {window : U32 × U32} {bk bv : List Block}

/-! ## The frames of the code -/

theorem Layout.Fits.code_addr (hfits : L.Fits) :
    (kernelPhys L.image.start).toNat = L.image.start.toNat - 0xC0000000 ∧
      (kernelPhys L.image.readonlyEnd).toNat = L.image.readonlyEnd.toNat - 0xC0000000 ∧
      L.image.readonlyEnd.toNat ≤ 0xC0400000 := by
  have hfin : L.image.finish ≤ KERNEL_WINDOW_END := hfits
  obtain ⟨_, hge, hle⟩ := L.inBss L.bootDirectory (by simp)
  have hstart := L.start_ge
  have hread := L.start_le
  rw [kernelPhys, kernelPhys]
  bv_omega

/-- A frame of the code is one of the image, below its tables. -/
theorem Layout.Fits.code_frame (hfits : L.Fits) {a : Nat} (ha : L.Code a) :
    L.InImage (a / 4096) ∧ a / 4096 < L.dirFrame ∧ a / 4096 < L.lowFrame ∧
      a / 4096 < L.kernelFrame := by
  obtain ⟨h1, h2, h3⟩ := hfits.code_addr
  obtain ⟨h4, h5⟩ := ha
  have hstart := L.start_ge
  have hread := L.start_le
  have hdir := L.inBss L.bootDirectory (by simp)
  have hlow := L.inBss L.bootLowTable (by simp)
  have hkernel := L.inBss L.kernelTable (by simp)
  have hdir' := L.dir_addr.1
  have hlow' := L.low_addr.1
  have hkernel' := L.kernel_addr.1
  have himage := L.dir_addr.2.2.2
  refine ⟨⟨?_, ?_⟩, by omega, by omega, by omega⟩
  · rw [show loadPhys.toNat = 0x100000 from rfl]
    omega
  · have := himage.2
    omega

/-- The frames that the system had at boot are not those of the code. -/
theorem Started.code_far (h0 : Started L ram hs s window) {a : Nat}
    (hmine : s.Mine (kernelPages ∪ virtualPages ∪ userPages) (windowFrames window) (a / 4096)) :
    ¬L.Code a := by
  intro ha
  obtain ⟨himage, hdir, hlow, hkernel⟩ := h0.fits.code_frame ha
  rcases hmine with hfree | htab | hwin | hbehind
  · exact h0.image_used himage hfree
  · rcases h0.isTable.mp htab with h | h | h <;> omega
  · exact h0.window_not_image hwin himage
  · exact h0.not_behind (fun _ hp => hp) hbehind

/-! ## The two windows of the image -/

/-- The entry of the kernel window for page `j`. -/
theorem kernelEntry_bits (image : Image) {j : Nat} (hj : j < 1024) :
    present (kernelEntry image j) = true ∧ frameNo (kernelEntry image j) = j ∧
      (writable (kernelEntry image j) = true →
        ¬(image.start.toNat ≤ 0xC0000000 + 4096 * j ∧
          0xC0000000 + 4096 * j < image.readonlyEnd.toNat)) := by
  have hphys : (BitVec.ofNat 32 j * PAGE_SIZE).toNat = 4096 * j := by
    rw [BitVec.toNat_mul, BitVec.toNat_ofNat, show PAGE_SIZE.toNat = 4096 from rfl]
    omega
  have hvirt : (KERNEL_SPACE + BitVec.ofNat 32 j * PAGE_SIZE).toNat = 0xC0000000 + 4096 * j := by
    rw [BitVec.toNat_add, hphys, show KERNEL_SPACE.toNat = 0xC0000000 from rfl]
    omega
  have haligned : (BitVec.ofNat 32 j * PAGE_SIZE).toNat % 2 ^ 12 = 0 := by omega
  rw [kernelEntry]
  split
  · refine ⟨?_, ?_, fun hw => ?_⟩
    · rw [present, Word.getLsbD_or_of_aligned haligned _ (by decide)]
      decide
    · rw [frameNo, Word.toNat_or_of_aligned haligned (by decide), hphys,
        show KERNEL_READONLY.toNat = 1 from rfl]
      omega
    · rw [writable, Word.getLsbD_or_of_aligned haligned _ (by decide)] at hw
      exact absurd hw (by decide)
  · rename_i hrange
    rw [ge_iff_le, BitVec.le_def, BitVec.lt_def, hvirt] at hrange
    refine ⟨?_, ?_, fun _ => hrange⟩
    · rw [present, Word.getLsbD_or_of_aligned haligned _ (by decide)]
      decide
    · rw [frameNo, Word.toNat_or_of_aligned haligned (by decide), hphys,
        show KERNEL_PAGE.toNat = 3 from rfl]
      omega

theorem InitTables.leaf_kernel (h : InitTables L s) {j : Nat} (hj : j < 1024) :
    s.leaf (0xC0000 + j) = some (kernelEntry L.image j) := by
  obtain ⟨hf, hpres, _⟩ := entry_bits h.dirKernel
  have hdiv : (0xC0000 + j) / 1024 = 768 := by omega
  have hmod : (0xC0000 + j) % 1024 = j := by omega
  have hentry : s.tabWord 768 j = kernelEntry L.image j := by
    rw [tabWord, hf]
    exact h.kernel j hj
  rw [leaf_eq_some (by rw [hdiv]; exact hpres)
    (by rw [hdiv, hmod, hentry]; exact (kernelEntry_bits _ hj).1), hdiv, hmod, hentry]

/-! ## Every way to the code -/

namespace Heaps.Inv

/-- A frame behind a page other than those of the two windows of the image. -/
theorem mine_of_leaf (hi : hs.Inv s0 window s bk bv) (h0 : Started L ram hs0 s0 window) {p : Nat}
    {e : U32} (hp : p < 1024 * 1024) (hlow : 1024 ≤ p) (hkernel : p < 0xC0000 ∨ 0xC0400 ≤ p)
    (he : s.leaf p = some e) :
    s0.Mine (kernelPages ∪ virtualPages ∪ userPages) (windowFrames window) (frameNo e) := by
  refine (hi.confined.mine _).mp ?_
  obtain ⟨hdir, htab, hpres⟩ := present_of_leaf he
  by_cases hwindow : p < 1023 * 1024
  · by_cases hR : p ∈ kernelPages ∪ virtualPages ∪ userPages
    · exact Or.inr (Or.inr (Or.inr ⟨p, hR, hwindow, e, he, rfl⟩))
    · rw [hi.confined.leaf p hwindow hR, h0.leaf_none hwindow (by omega) (by omega)] at he
      cases he
  · -- the entries of the table window are those of the directory
    have hpaged := hi.kernel.inv.paged
    have hself : s.tabWord 1023 (p % 1024) = s.dirWord (p % 1024) := by
      rw [tabWord, hpaged.self]
      rfl
    rw [show p / 1024 = 1023 from by omega, hself] at htab
    exact Or.inr (Or.inl ⟨p % 1024, by omega, by rw [htab]; exact hpres, by rw [htab]⟩)

theorem writes_code_iff (hi : hs.Inv s0 window s bk bv) (h0 : Started L ram hs0 s0 window)
    (hal : L.Aligned) {v : U32} {a : Nat} (hv : s.MayStore v) (ha : s.translation v = some a) :
    L.Code a ↔ L.Code v.toNat := by
  obtain ⟨pde, pte, hwalk, _, hw⟩ := hv
  have hlt := v.isLt
  obtain ⟨hcode1, hcode2, hcode3⟩ := h0.fits.code_addr
  obtain ⟨hal1, hal2⟩ := hal
  have hread := L.start_le
  have hstart := L.start_ge
  rw [translation, hwalk, Option.map_some, Option.some.injEq] at ha
  dsimp only at ha
  have hleaf : s.leaf (v.toNat / 4096) = some pte := by
    rw [walk_eq] at hwalk
    cases hl : s.leaf (v.toNat / 4096) with
    | none =>
      rw [hl] at hwalk
      cases hwalk
    | some e =>
      rw [hl] at hwalk
      cases hwalk
      rfl
  have houtside : v.toNat / 4096 < 1024 ∨ 0xC0000 ≤ v.toNat / 4096 ∧ v.toNat / 4096 < 0xC0400 →
      v.toNat / 4096 ∉ kernelPages ∪ virtualPages ∪ userPages := by
    rintro hp ((hm | hm) | hm)
    · rw [mem_kernelPages] at hm
      omega
    · rw [mem_virtualPages] at hm
      omega
    · rw [mem_userPages] at hm
      omega
  by_cases hlow : v.toNat / 4096 < 1024
  · -- the identity window
    obtain ⟨e, he, hframe, _⟩ := leaf_identity h0.tables.dirLow h0.tables.low hlow
    rw [hi.confined.leaf _ (by omega) (houtside (Or.inl hlow)), he] at hleaf
    cases hleaf
    rw [show a = v.toNat from by omega]
  · have hnot : ¬L.Code v.toNat := fun hc => by
      have := hc.2
      omega
    refine iff_of_false (fun hc => ?_) hnot
    by_cases hkernel : 0xC0000 ≤ v.toNat / 4096 ∧ v.toNat / 4096 < 0xC0400
    · -- the kernel window
      obtain ⟨j, hj⟩ : ∃ j, v.toNat / 4096 = 0xC0000 + j := ⟨v.toNat / 4096 - 0xC0000, by omega⟩
      rw [hi.confined.leaf _ (by omega) (houtside (Or.inr hkernel)), hj,
        h0.tables.leaf_kernel (by omega)] at hleaf
      cases hleaf
      obtain ⟨_, hframe, hrange⟩ := kernelEntry_bits L.image (j := j) (by omega)
      have := hrange hw
      obtain ⟨hc1, hc2⟩ := hc
      rw [hframe] at ha
      omega
    · refine h0.code_far ?_ hc
      rw [← ha, show (4096 * frameNo pte + v.toNat % 4096) / 4096 = frameNo pte from by omega]
      exact hi.mine_of_leaf h0 (by omega) (by omega) (by omega) hleaf

end Heaps.Inv

/-- From boot on, whatever the kernel does: an address that ring 0 may write leads to the code of
the kernel exactly if it is the address of the code in the low window.  The growth of the kernel's
heap must not wrap around. -/
theorem code_written_iff (hb : Booted L ram hs s) (hal : L.Aligned) (hw : hs.NoWrap)
    (ops : List Op) :
    ∃ hs' t, (runOps hs ops).run s = .ok (hs', t) ∧ t.writeProtect = true ∧
      ∀ v a, t.MayStore v → t.translation v = some a → (¬L.Code a ↔ ¬L.Code v.toNat) := by
  obtain ⟨window, h0⟩ := hb.start
  obtain ⟨hs', t, hrun, bk, bv, hi⟩ := (h0.inv hw).run ops
  refine ⟨hs', t, hrun, ?_, fun v a hv ha => not_congr (hi.writes_code_iff h0 hal hv ha)⟩
  rw [writeProtect, hi.confined.cr0]
  exact h0.tables.writeProtect

theorem code_written_iff_plain : ∃ hs s, Booted smallLayout (Multiboot.ramOf plainEntries) hs s ∧
    smallLayout.Aligned ∧ hs.NoWrap ∧
    ∃ hs' t, (runOps hs [.kmalloc 100, .vmalloc 100, .user]).run s = .ok (hs', t) ∧
      ∀ v a, t.MayStore v → t.translation v = some a →
        (¬smallLayout.Code a ↔ ¬smallLayout.Code v.toNat) := by
  obtain ⟨hs, s, hb, hend⟩ := exists_booted_plain
  have hal : smallLayout.Aligned := ⟨by decide, by decide⟩
  obtain ⟨hs', t, hrun, _, hiff⟩ := code_written_iff hb hal (Or.inl hend)
    [.kmalloc 100, .vmalloc 100, .user]
  exact ⟨hs, s, hb, hal, Or.inl hend, hs', t, hrun, hiff⟩

/-- Right after boot the kernel can write its code, through the low window. -/
theorem code_writable : ∃ hs s, Booted smallLayout (Multiboot.ramOf plainEntries) hs s ∧
    s.MayStore 0x101000 ∧ s.translation 0x101000 = some 0x101000 ∧ smallLayout.Code 0x101000 := by
  obtain ⟨hs, s, hb, _⟩ := exists_booted_plain
  obtain ⟨window, h0⟩ := hb.start
  obtain ⟨_, _, hpde⟩ := entry_bits h0.tables.dirLow
  obtain ⟨e, he, hframe, hw⟩ :=
    leaf_identity h0.tables.dirLow h0.tables.low (p := 0x101) (by decide)
  have hwalk := walk_of_leaf (v := 0x101000) he
  refine ⟨hs, s, hb, ⟨_, _, hwalk, hpde, hw⟩, ?_, by decide, by decide⟩
  rw [translation, hwalk, Option.map_some, hframe]
  rfl

end Kfs
