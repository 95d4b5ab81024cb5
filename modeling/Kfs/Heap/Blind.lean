import Kfs.Heap.Wrap
import Kfs.Heap.Laws

/-!
# A heap that loses its own pages

A heap that wraps around gets frames for its pages that are not its own, its own page table among
them.  Three things can happen then, and none of them needs an error of a client.

* The page with the table is new, and `grow` writes the header of the new room into it.  If this is
  at its start, the entry of the heap's first page is gone (`brk_blinds`), and the way back down
  cannot read the first header any more (`shrink_blind`).
* The page with the table is in the payload of an allocation, and the client writes to it.  Then a
  page in the middle of the heap is gone, and an allocation that cuts a block there faults
  (`alloc_gapped`).
* The frame belongs to another heap, and a store to the payload frees a block there
  (`Inv.free_behind`).
-/

namespace Kfs

open Lib Mem Paging Machine

namespace Heap

open Blocks

variable {h : Heap} {A k n : Nat} {s t u : Machine}

/-! ## One block -/

theorem Wrapped.withBrk (hw : Wrapped h A s k n t) (brk : U32) :
    Wrapped { h with brk := brk } A s k n t :=
  ⟨hw.paged, hw.pmm, hw.slot, hw.dir, hw.leaf⟩

/-- The heap is one block of `n` pages, from the base to the break. -/
structure Filled (h : Heap) (A : Nat) (s : Machine) (k n : Nat) (used : Bool) (t : Machine) :
    Prop where
  pos : 1 ≤ n
  brk : h.brk.toNat = 4096 * (A + n)
  wrapped : Wrapped h A s k n t
  view : ∃ w, View A (A + 1) w t ∧ Header w h.base.toNat (lone n pos used)

/-- `take` of all of the block. -/
theorem take_whole (hw : h.Wraps A) (hle : n ≤ 1024) (hn : 1 ≤ n) {w : ByteMem}
    (hview : View A (A + 1) w u) (hb : Header w h.base.toNat (lone n hn false)) {need : U32}
    (hneed : need.toNat = 4096 * n - 8) :
    ∃ t, (take h.base need).run u = .ok (h.base + HEADER, t) ∧ Wrote A (A + 1) u t ∧
      ∃ w', View A (A + 1) w' t ∧ Header w' h.base.toNat (lone n hn true) := by
  have hbound := hw.bounds
  have hbase := hw.base
  have hsize : (BitVec.ofNat 32 (lone n hn false).size).toNat = 4096 * n - 8 := by
    rw [BitVec.toNat_ofNat, show (lone n hn false).size = 4096 * n - 8 from rfl]
    omega
  have hwhole : ¬(BitVec.ofNat 32 (lone n hn false).size ≥ need + HEADER + SMALLEST) := by
    rw [ge_iff_le, BitVec.le_def, BitVec.toNat_add, BitVec.toNat_add, hneed, hsize,
      show HEADER.toNat = 8 from rfl]
    omega
  obtain ⟨t, hhead, hwrote, hview'⟩ := run_writeHeader hview h.base
    (BitVec.ofNat 32 (lone n hn true).size) true (by omega) (by omega) (by omega)
  refine ⟨t, ?_, hwrote, _, hview', header_putHeader _ _ (lone n hn true)⟩
  rw [take, Prog.bind_ok (run_sizeAt hview (by omega) (by omega) (by omega) hb), if_neg hwhole]
  exact (Prog.bind_ok hhead).trans (Prog.run_pure _ _)

/-- The first allocation, of `n` pages but for the header. -/
theorem Call.step_whole (hu : h.Unused A s k) (hn : 1 ≤ n) (hle : n ≤ 1024) :
    ∃ top t, ((Call.alloc (BitVec.ofNat 32 (4096 * n - 8))).step ⟨h, []⟩).run s
        = .ok (⟨{ h with brk := top }, [⟨h.base + HEADER, BitVec.ofNat 32 (4096 * n - 8),
            BitVec.ofNat 32 (4096 * n - 8)⟩]⟩, t) ∧
      Filled { h with brk := top } A s k n true t := by
  have hw := hu.wraps
  have hbound := hw.bounds
  have hbase := hw.base
  have hroom := hw.room
  have hwant : (BitVec.ofNat 32 (4096 * n - 8)).toNat = 4096 * n - 8 := by
    rw [BitVec.toNat_ofNat]
    omega
  have hzero : BitVec.ofNat 32 (4096 * n - 8) ≠ 0 := fun hz => by
    have := congrArg BitVec.toNat hz
    rw [hwant, show (0 : U32).toNat = 0 from rfl] at this
    omega
  have hsmall : ¬(BitVec.ofNat 32 (4096 * n - 8) > h.limit - h.base - HEADER) := by bv_omega
  have hneed : (roundUp (BitVec.ofNat 32 (4096 * n - 8))).toNat = 4096 * n - 8 := by
    rw [toNat_roundUp (by omega), hwant]
    omega
  have hpages : ((roundUp (BitVec.ofNat 32 (4096 * n - 8)) + HEADER + PAGE_SIZE - 1)
      / PAGE_SIZE).toNat = n := by
    have hsum : (roundUp (BitVec.ofNat 32 (4096 * n - 8)) + HEADER + PAGE_SIZE - 1).toNat
        = 4096 * n + 4095 := by bv_omega
    rw [BitVec.toNat_udiv, show PAGE_SIZE.toNat = 4096 from rfl, hsum]
    omega
  obtain ⟨top, t1, w1, htop, hwrap, hview1, hhead1, halloc⟩ :=
    alloc_takes hu hn hle hzero hsmall rfl (by omega) hpages
  obtain ⟨t, htake, hwrote, w, hview, hhead⟩ := take_whole hw hle hn hview1 hhead1 hneed
  exact ⟨top, t, step_first hw (halloc htake) hview hhead (by omega), hn, htop,
    (hwrap.wrote hview1.owned hwrote).withBrk top, w, hview, hhead⟩

/-! ## A header in the table -/

/-- The only block is the last one. -/
theorem run_lastBlock_one (hw : h.Wraps A) (hle : n ≤ 1024) (hn : 1 ≤ n)
    (hbrk : h.brk.toNat = 4096 * (A + n)) {w : ByteMem} (hview : View A (A + 1) w t) {used : Bool}
    (hb : Header w h.base.toNat (lone n hn used)) :
    (h.lastBlock h.brk).run t = .ok (some h.base, t) := by
  have hbound := hw.bounds
  have hbase := hw.base
  have hgo : h.base + HEADER ≤ h.brk := by
    rw [BitVec.le_def, BitVec.toNat_add, hbase, hbrk, show HEADER.toNat = 8 from rfl]
    omega
  have hnext : h.base + (HEADER + BitVec.ofNat 32 (lone n hn used).size) = h.brk := by
    apply BitVec.eq_of_toNat_eq
    rw [BitVec.toNat_add, BitVec.toNat_add, BitVec.toNat_ofNat, hbase, hbrk,
      show HEADER.toNat = 8 from rfl, show (lone n hn used).size = 4096 * n - 8 from rfl]
    omega
  have hstop : ¬(h.brk + HEADER ≤ h.brk) := by
    rw [BitVec.le_def, BitVec.toNat_add, hbrk, show HEADER.toNat = 8 from rfl]
    omega
  rw [lastBlock, show PASSES = (2 ^ 32 - 2) + 1 + 1 from rfl, lastFrom, if_pos hgo,
    Prog.bind_ok (run_sizeAt hview (by omega) (by omega) (by omega) hb), hnext, lastFrom,
    if_neg hstop, Prog.run_pure]

/-- One more page, behind the first block. -/
theorem grow_next (hw : h.Wraps A) (hnone : ∀ p, A ≤ p → p < A + 1024 → s.leaf p = none)
    {used : Bool} (hf : Filled h A s k n used u) (hle : n + 1 ≤ 1024) :
    ∃ t, (growLoop h 1 h.brk).run u = .ok (h.brk + PAGE_SIZE, t) ∧ Wrapped h A s k (n + 1) t ∧
      ∃ w, View A (A + 1) w t ∧ Header w h.base.toNat (lone n hf.pos used) := by
  have hbound := hw.bounds
  have hslot := hw.slot
  have hpos := hf.pos
  have hpage := hf.brk
  obtain ⟨w, hview, hb⟩ := hf.view
  have hfree : u.leaf (A + n) = none := by
    rw [hf.wrapped.leaf _ (by omega), if_neg (by omega)]
    exact hnone _ (by omega) (by omega)
  obtain ⟨t, hrun, hmap⟩ := growLoop_wraps_pass hw hf.wrapped.paged hpage (by omega) hfree
    (Or.inl hf.wrapped.slot.1) 0
  rw [Nat.zero_add] at hrun
  have hstop : (growLoop h 0 (h.brk + PAGE_SIZE)).run t = .ok (h.brk + PAGE_SIZE, t) := rfl
  refine ⟨t, hrun.trans hstop, hf.wrapped.next hw (by omega) hpage hmap, w, ?_, hb⟩
  have hp : h.brk.toNat / 4096 = A + n := by omega
  have hdir : dirIndex h.brk = A / 1024 := by
    rw [dirIndex_eq, hp]
    omega
  have hindex := page_eq_index h.brk
  cases hmap with
  | done _ _ ht =>
    cases ht with
    | fresh l hp' =>
      rw [hdir, hf.wrapped.slot.1] at hp'
      cases hp'
    | here hd => exact hview.setEntry _ (by omega) hd (tableIndex_lt _) (by omega)

/-- The table is the frame of the new page, so the header of the new room takes the entry of the
first page. -/
theorem brk_blinds (hw : h.Wraps A) (hnone : ∀ p, A ≤ p → p < A + 1024 → s.leaf p = none)
    (hf : Filled h A s k n true u) (hn : 2 ≤ n) (hle : n + 1 ≤ 1024)
    (hown : (h.physBase.toNat / 4096 + n) % 2 ^ 20 = k) :
    ∃ t, (h.moveBrk 0x1000).run u = .ok ((h.brk, { h with brk := h.brk + PAGE_SIZE }), t) ∧
      t.leaf A = none := by
  have hbound := hw.bounds
  have hslot := hw.slot
  have hbrk := hf.brk
  obtain ⟨t1, hloop, hwrap, w, hview, hb⟩ := grow_next hw hnone hf hle
  have hi : A / 1024 < 1023 := by omega
  have hdir := hwrap.slot.1
  have hframe : frameNo (t1.dirWord (A / 1024)) = (h.physBase.toNat / 4096 + n) % 2 ^ 20 :=
    hwrap.slot.2.trans hown.symm
  have hleaf : t1.leaf (A + n) = some (h.wrappedEntry n) := by
    rw [hwrap.leaf _ (by omega), if_pos (by omega), Nat.add_sub_cancel_left]
  -- the two words of the header
  let t2 := t1.setEntry (A / 1024) 0 4088
  have hs2 : t2.Paged := hwrap.paged.setEntry 4088 hi hdir (by decide)
  have hdir2 : t2.dirWord (A / 1024) = t1.dirWord (A / 1024) :=
    dirWord_setEntry 4088 hwrap.paged hi hdir (by decide) (by omega)
  have hleaf2 : t2.leaf (A + n) = some (h.wrappedEntry n) := by
    rw [leaf_setEntry 4088 hwrap.paged hi hdir (by decide) (by omega), if_neg (by omega), hleaf]
  have hfirst := store32_wraps hw (j := 0) (by omega) hleaf hwrap.paged hframe (by decide)
    (v := h.brk) (by omega) 4088
  have hsecond := store32_wraps hw (i := A / 1024) (j := 1) (by omega) hleaf2 hs2
    (by rw [hdir2]; exact hframe) (by decide) (v := h.brk + 4) (by bv_omega) 0
  have hlast := run_lastBlock_one hw (by omega) hf.pos hbrk hview hb
  have hbase := hw.base
  have husedAt : (usedAt h.base).run t1 = .ok (true, t1) :=
    run_usedAt hview (by omega) (by omega) (by omega) hb
  have hsize : h.brk + PAGE_SIZE - h.brk - HEADER = 4088 := by
    bv_omega
  have hhead : (writeHeader h.brk 4088 false).run t1 = .ok ((), t2.setEntry (A / 1024) 1 0) := by
    rw [writeHeader, Prog.bind_ok hfirst]
    exact hsecond
  have htail : (h.growTail h.brk (h.brk + PAGE_SIZE)).run t1
      = .ok ((), t2.setEntry (A / 1024) 1 0) := by
    rw [growTail, Prog.bind_ok hlast]
    dsimp only
    rw [Prog.bind_ok husedAt, if_pos rfl, hsize]
    exact hhead
  have hgrow : (h.grow (pagesOf 0x1000)).run u = .ok ((true, { h with brk := h.brk + PAGE_SIZE }),
      t2.setEntry (A / 1024) 1 0) := by
    have hmoved : ¬(h.brk + PAGE_SIZE = h.brk) := by bv_omega
    rw [grow, show (pagesOf 0x1000).toNat = 1 from by decide, Prog.bind_ok hloop, if_neg hmoved,
      Prog.bind_ok htail, Prog.run_pure]
  refine ⟨t2.setEntry (A / 1024) 1 0, ?_, ?_⟩
  · exact moveBrk_up (by decide) (by decide) hgrow
  · rw [leaf_setEntry 0 hs2 hi (by rw [hdir2]; exact hdir) (by decide) (by omega),
      if_neg (by omega), leaf_setEntry 4088 hwrap.paged hi hdir (by decide) (by omega),
      if_pos (by omega)]
    rfl

/-! ## A heap that cannot read its first header -/

section Blind

variable (hbase : h.base.toNat = 4096 * A) (hblind : t.leaf A = none)

include hbase hblind

theorem sizeAt_blind : (sizeAt h.base).run t = .error (.fault h.base) := by
  refine load32_unmapped ?_
  rw [hbase, Nat.mul_div_cancel_left _ (by decide)]
  exact hblind

theorem shrink_blind (hgo : h.base + HEADER ≤ h.brk) {pages : U32}
    (hspan : (if pages * PAGE_SIZE ≤ h.brk - h.base then pages * PAGE_SIZE
      else h.brk - h.base) ≠ 0) :
    (h.shrink pages).run t = .error (.fault h.base) := by
  have hlast : (h.lastBlock h.brk).run t = .error (.fault h.base) := by
    rw [lastBlock, show PASSES = (2 ^ 32 - 1) + 1 from rfl, lastFrom, if_pos hgo,
      Prog.bind_error (sizeAt_blind hbase hblind)]
  rw [shrink]
  dsimp only
  rw [if_neg hspan, Prog.bind_error hlast]

end Blind

theorem moveBrk_down_error {delta : U32} (hneg : delta.msb = true) {e : Stop}
    (hrun : (h.shrink (pagesOf delta)).run s = .error e) :
    (h.moveBrk delta).run s = .error e := by
  have hzero : delta ≠ 0 := fun hz => by
    rw [hz] at hneg
    exact absurd hneg (by decide)
  rw [pagesOf, hneg] at hrun
  rw [moveBrk, if_neg hzero, hneg]
  exact Prog.bind_error hrun

/-! ## A client that writes to the table -/

/-- The heap is one block, and page `g` of its range is not mapped. -/
structure Gapped (h : Heap) (A n : Nat) (used : Bool) (g : Nat) (t : Machine) : Prop where
  pos : 1 ≤ n
  brk : h.brk.toNat = 4096 * (A + n)
  view : ∃ w, View A (A + 1) w t ∧ Header w h.base.toNat (lone n pos used)
  gap : t.leaf (A + g) = none

/-- A byte of zero, written to page `m` of the range, whose frame is the table. -/
theorem store8_gap (hw : h.Wraps A) (hf : Filled h A s k n true u) (hle : n ≤ 1024) {m g : Nat}
    (hm : m < n) (hg : 1 ≤ g) (hgn : g < 1024)
    (hown : (h.physBase.toNat / 4096 + m) % 2 ^ 20 = k) {v : U32}
    (hv : v.toNat = 4096 * (A + m) + 4 * g) :
    ∃ t, (store8 v 0).run u = .ok ((), t) ∧ Gapped h A n true g t := by
  have hbound := hw.bounds
  have hslot := hw.slot
  have hu := hf.wrapped.paged
  have hdir := hf.wrapped.slot.1
  obtain ⟨w, hview, hb⟩ := hf.view
  have hpage : v.toNat / 4096 = A + m := by omega
  have hleaf : u.leaf (v.toNat / 4096) = some (h.wrappedEntry m) := by
    rw [hpage, hf.wrapped.leaf _ (by omega), if_pos (by omega), Nat.add_sub_cancel_left]
  have hmay : u.MayWrite (v.toNat / 4096) (h.wrappedEntry m) := by
    refine ⟨hu.dirWritable _ (by omega) (present_of_leaf hleaf).1, ?_⟩
    rw [wrappedEntry, writable_entry, hw.flags]
    decide
  have haddr : 4096 * frameNo (h.wrappedEntry m) + v.toNat % 4096
      = 4096 * frameNo (u.dirWord (A / 1024)) + 4 * g := by
    rw [frameNo_wrappedEntry hw, hown, hf.wrapped.slot.2]
    omega
  -- the byte as a word of the table
  let a := 4096 * frameNo (u.dirWord (A / 1024)) + 4 * g
  let x := ByteMem.read32 (u.mem.write8 a 0) a
  have hx : present x = false := present_write8_zero _ _
  have hstore : (store8 v 0).run u = .ok ((), u.setEntry (A / 1024) g x) := by
    rw [store8_of_leaf 0 hleaf hmay, haddr, ByteMem.write8_eq_write32]
    rfl
  refine ⟨_, hstore, hf.pos, hf.brk, ⟨w, hview.setEntry x (by omega) hdir hgn (by omega), hb⟩, ?_⟩
  rw [leaf_setEntry x hu (by omega) hdir hgn (by omega), if_pos (by omega), hx]
  rfl

section Gapped

variable {g : Nat} {used : Bool}

/-- A store to the first page leaves the gap. -/
theorem Gapped.wrote (hg : Gapped h A n used g u) (hgap : A + g < 1024 * 1024) {w : ByteMem}
    {used' : Bool} (ho : u.Paged ∧ u.Owned A (A + 1)) (hwrote : Wrote A (A + 1) u t)
    (hview : View A (A + 1) w t) (hb : Header w h.base.toNat (lone n hg.pos used')) :
    Gapped h A n used' g t :=
  ⟨hg.pos, hg.brk, ⟨w, hview, hb⟩, by rw [hwrote.leaf ho.1 ho.2 hgap]; exact hg.gap⟩

/-- The block that a walk finds. -/
theorem Gapped.shows (hw : h.Wraps A) (hle : n ≤ 1024) (hg : Gapped h A n used g t) :
    h.Shows t [lone n hg.pos used] := by
  have hbound := hw.bounds
  have hbase := hw.base
  have hpos := hg.pos
  have hbrk := hg.brk
  obtain ⟨w, hview, hb⟩ := hg.view
  have hsize : (BitVec.ofNat 32 (lone n hg.pos used).size).toNat = 4096 * n - 8 := by
    rw [BitVec.toNat_ofNat, show (lone n hg.pos used).size = 4096 * n - 8 from rfl]
    omega
  have hnext : h.base + (HEADER + BitVec.ofNat 32 (lone n hg.pos used).size) = h.brk := by
    apply BitVec.eq_of_toNat_eq
    rw [BitVec.toNat_add, BitVec.toNat_add, hsize, hbase, hbrk, show HEADER.toNat = 8 from rfl]
    omega
  unfold Shows
  rw [seenFrom, BitVec.ofNat_toNat, BitVec.setWidth_eq]
  refine .next (run_sizeAt hview (by omega) (by omega) (by omega) hb)
    (run_usedAt hview (by omega) (by omega) (by omega) hb) (by omega) (by omega) (by omega) ?_
  rw [hnext]
  exact .done

/-- The free of the block. -/
theorem free_gapped (hw : h.Wraps A) (hle : n ≤ 1024) (hg : Gapped h A n true g u)
    (hgn : g < 1024) :
    ∃ t, (h.free (h.base + HEADER)).run u = .ok ((), t) ∧ Gapped h A n false g t := by
  have hbound := hw.bounds
  have hbase := hw.base
  have hpos := hg.pos
  have hbrk := hg.brk
  obtain ⟨w, hview, hb⟩ := hg.view
  have hpointer : (h.base + HEADER).toNat = 4096 * A + 8 := by
    rw [BitVec.toNat_add, hbase, show HEADER.toNat = 8 from rfl]
    omega
  have hzero : ¬(h.base + HEADER = 0) := fun hz => by
    rw [hz] at hpointer
    exact absurd hpointer (Nat.succ_ne_zero _).symm
  have hgo : h.base + HEADER ≤ h.brk := by
    rw [BitVec.le_def]
    omega
  obtain ⟨t, hhead, hwrote, hview'⟩ := run_writeHeader hview h.base
    (BitVec.ofNat 32 (lone n hg.pos true).size) false (by omega) (by omega) (by omega)
  refine ⟨t, ?_, hg.wrote (by omega) ⟨hview.paged, hview.owned⟩ hwrote hview'
    (header_putHeader _ _ (lone n hg.pos false))⟩
  rw [free, if_neg hzero, Prog.bind_ok (run_findBlock_first hgo u)]
  dsimp only
  rw [Prog.bind_ok (run_usedAt hview (by omega) (by omega) (by omega) hb),
    show (lone n hg.pos true).used = true from rfl, if_pos rfl,
    Prog.bind_ok (run_sizeAt hview (by omega) (by omega) (by omega) hb)]
  exact hhead

/-- An allocation that ends right below the gap. -/
theorem alloc_gapped (hw : h.Wraps A) (hle : n ≤ 1024) (hg : Gapped h A n false g t) (hg1 : 1 ≤ g)
    (hgn : g < n) {want : U32} (hwant : want.toNat = 4096 * g - 8) :
    (h.alloc want).run t = .error (.fault (h.base + HEADER + roundUp want)) := by
  have hbound := hw.bounds
  have hbase := hw.base
  have hroom := hw.room
  have hbrk := hg.brk
  obtain ⟨w, hview, hb⟩ := hg.view
  have hzero : want ≠ 0 := fun hz => by
    rw [hz, show (0 : U32).toNat = 0 from rfl] at hwant
    omega
  have hsmall : ¬want > h.limit - h.base - HEADER := by bv_omega
  have hneed : (roundUp want).toNat = 4096 * g - 8 := by
    rw [toNat_roundUp (by omega), hwant]
    omega
  have hfit : (h.firstFit (roundUp want)).run t = .ok (some h.base, t) :=
    run_firstFit_one hbase hview hb rfl
      (show h.brk.toNat = h.base.toNat + (8 + (4096 * n - 8)) from by omega) (by omega)
      (show (roundUp want).toNat ≤ 4096 * n - 8 from by omega)
  have hcut : BitVec.ofNat 32 (lone n hg.pos false).size ≥ roundUp want + HEADER + SMALLEST := by
    rw [ge_iff_le, BitVec.le_def, BitVec.toNat_add, BitVec.toNat_add, BitVec.toNat_ofNat, hneed,
      show (lone n hg.pos false).size = 4096 * n - 8 from rfl, show HEADER.toNat = 8 from rfl]
    omega
  obtain ⟨u, hhead, hwrote, _⟩ := run_writeHeader hview h.base (roundUp want) true
    (by omega) (by omega) (by omega)
  have hgap : u.leaf ((h.base + HEADER + roundUp want).toNat / 4096) = none := by
    have hpage : (h.base + HEADER + roundUp want).toNat / 4096 = A + g := by
      rw [BitVec.toNat_add, BitVec.toNat_add, hbase, hneed, show HEADER.toNat = 8 from rfl]
      omega
    rw [hpage, hwrote.leaf hview.paged hview.owned (by omega)]
    exact hg.gap
  have htake : (take h.base (roundUp want)).run t
      = .error (.fault (h.base + HEADER + roundUp want)) := by
    rw [take, Prog.bind_ok (run_sizeAt hview (by omega) (by omega) (by omega) hb), if_pos hcut,
      Prog.bind_ok hhead, writeHeader, Prog.bind_error (Prog.bind_error (store32_unmapped hgap _))]
  rw [alloc, if_neg hzero, if_neg hsmall]
  dsimp only
  rw [Prog.bind_ok hfit]
  dsimp only
  rw [Prog.bind_error htake]

end Gapped

/-! ## A page with two names -/

/-- A byte of zero, written to the flag of the first block through another page with the same frame,
frees the block. -/
theorem Inv.free_behind {b : Block} {ys : List Block} (hi : Inv h s (b :: ys)) (hb : b.used = true)
    {e e' : U32} (hleaf : s.leaf (h.base.toNat / 4096) = some e) {v : U32}
    (hleaf' : s.leaf (v.toNat / 4096) = some e') (hmay : s.MayWrite (v.toNat / 4096) e')
    (hframe : frameNo e' = frameNo e) (hv : v.toNat % 4096 = 4) :
    ∃ t, (store8 v 0).run s = .ok ((), t) ∧ Effect h h s t (b :: ys) (b.setUsed false :: ys) := by
  have hal := hi.placed.base_aligned
  have hlimit := hi.placed.limit_le
  have hle := hi.placed.base_le
  rw [show TABLE_WINDOW.toNat = 0xFFC00000 from rfl] at hlimit
  have hflag : (h.base + 4).toNat = h.base.toNat + 4 := by bv_omega
  have hpointer : (h.base + 8).toNat = h.base.toNat + 8 := by bv_omega
  have hpage : (h.base + 4).toNat / 4096 = h.base.toNat / 4096 := by omega
  have hspan := hi.span
  rw [Blocks.span_cons] at hspan
  obtain ⟨hlo, hhi⟩ := hi.pages
  -- the word of the flag in memory
  have hword : s.mem.read32 (4096 * frameNo e + 4) = 1 := by
    have hview := hi.view.load32 (v := h.base + 4) (by omega) (by omega) (by omega)
    rw [load32_of_leaf (by omega) (by rw [hpage]; exact hleaf), hflag, hi.tiles.1.2, hb,
      show (h.base.toNat + 4) % 4096 = 4 from by omega] at hview
    exact congrArg Prod.fst (Except.ok.inj hview)
  obtain ⟨t, bs', hrun, hfreed⟩ := free_run hi (h.base + 8)
  cases hfreed with
  | refused hne =>
    have hused : (h.base.toNat, b.size) ∈ Blocks.usedAt h.base.toNat (b :: ys) := by
      rw [usedAt_used hb]
      exact List.mem_cons_self
    exact absurd hpointer.symm (hne _ _ hused)
  | done hbs hc hp hleaf1 he =>
    rename_i xs zs c e1
    rw [hpointer] at hp
    obtain rfl : xs = [] := by
      have hlen := length_le_span xs
      exact List.eq_nil_of_length_eq_zero (by omega)
    obtain ⟨rfl, rfl⟩ : b = c ∧ ys = zs := List.cons.inj hbs
    refine ⟨_, store8_of_leaf 0 hleaf' hmay, ?_⟩
    rw [hpointer, show (h.base.toNat + 8 - 4) / 4096 = h.base.toNat / 4096 from by omega, hleaf]
      at hleaf1
    obtain rfl := Option.some.inj hleaf1
    rw [hpointer, show (h.base.toNat + 8 - 4) % 4096 = 4 from by omega] at he
    rw [hframe, hv, ByteMem.write8_zero_one hword]
    exact he

end Heap

end Kfs
