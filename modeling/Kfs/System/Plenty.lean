import Kfs.Heap.Few
import Kfs.System.Ownership
import Kfs.System.Reach

/-!
# Frames enough

A frame of the pool that is not free is a table or behind a page.  So the slots of the directory and
the pages that can be mapped bound how many frames are gone (`Heaps.Inv.pool_card`).  The plain
machine has more than that, and each of its heaps gets the pages it asks for while it is small.
`Started.kmalloc_plain` and `Started.kbrk_plain` are first calls there.
-/

namespace Kfs

open Lib Mem Multiboot Paging Machine

namespace Heaps.Inv

variable {L : Layout} {ram : Ram} {s0 s : Machine} {window : U32 × U32} {hs0 hs : Heaps}
  {bk bv : List Block}

/-- The frames that are gone since boot: 1021 slots can hold a table, and there are 257 pages beside
those of the virtual heap. -/
theorem pool_card (hi : hs.Inv s0 window s bk bv) (h0 : Started L ram hs0 s0 window) :
    s0.pmm.frames.card
      ≤ s.pmm.frames.card + (1278 + (hs.virtual.heap.brk.toNat / 4096 - 0xE0000)) := by
  let slots : Finset Nat := Finset.range 1024 \ {0, 768, 1023}
  let pages : Finset Nat := insert 0xC00 (Finset.Ico 0x800 0x900) ∪
    Finset.Ico 0xE0000 (hs.virtual.heap.brk.toNat / 4096)
  let tables : Finset Nat := slots.image fun i => frameNo (s.dirWord i)
  let mapped : Finset Nat := pages.image fun p => frameNo ((s.leaf p).getD 0)
  have hslots : slots.card = 1021 := by decide +kernel
  have hpages : pages.card ≤ 257 + (hs.virtual.heap.brk.toNat / 4096 - 0xE0000) := by
    refine (Finset.card_union_le _ _).trans (Nat.add_le_add ?_ (Nat.card_Ico _ _).le)
    exact (Finset.card_insert_le _ _).trans (by rw [Nat.card_Ico])
  have hsub : s0.pmm.frames ⊆ s.pmm.frames ∪ (tables ∪ mapped) := by
    intro k hk
    rw [Finset.mem_union, Finset.mem_union]
    rcases (hi.pool h0 k).mp hk with hfree | ⟨i, hslot, _, hik⟩ | ⟨p, hp, e, he, hek⟩
    · exact Or.inl hfree
    · refine Or.inr (Or.inl (Finset.mem_image.mpr ⟨i, ?_, hik⟩))
      simp only [slots, Finset.mem_sdiff, Finset.mem_range, Finset.mem_insert, Finset.mem_singleton]
      omega
    · refine Or.inr (Or.inr (Finset.mem_image.mpr ⟨p, ?_, by rw [he]; exact hek⟩))
      simp only [pages, Finset.mem_union, Finset.mem_insert, Finset.mem_Ico]
      rw [mem_virtualPages, mem_userPages] at hp
      rcases hp with hp | hp
      · -- above the break nothing is mapped
        refine Or.inr ⟨hp.1, ?_⟩
        by_contra hout
        have hlimit : hs.virtual.heap.limit.toNat = 0xF0000000 := by
          rw [hi.virtual_heap]
          rfl
        rw [hi.virtual_clear p (by omega) (by omega)] at he
        cases he
      · exact Or.inl (by omega)
  have htables : tables.card ≤ 1021 := hslots ▸ Finset.card_image_le
  have hmapped : mapped.card ≤ pages.card := Finset.card_image_le
  have hle := Finset.card_le_card hsub
  have hunion := Finset.card_union_le s.pmm.frames (tables ∪ mapped)
  have hrest := Finset.card_union_le tables mapped
  omega

end Heaps.Inv

/-! ## The plain machine -/

/-- What the block leaves of the seven megabytes. -/
theorem Started.plain_card {hs : Heaps} {s : Machine} {window : U32 × U32}
    (h : Started smallLayout (ramOf plainEntries) hs s window) : 1312 ≤ s.pmm.frames.card := by
  have hle := h.block_le
  rw [toNat_heapWant_plain] at hle
  obtain ⟨b, n, hb⟩ := h.block
  have hstart := hb.start
  have hfinish := hb.finish
  have hsub : Finset.Ico 0x120 0x800 \ Finset.Ico b (b + n) ⊆ s.pmm.frames := by
    intro k hk
    rw [h.pmm, hb.frames]
    obtain ⟨hin, hout⟩ := Finset.mem_sdiff.mp hk
    exact Finset.mem_sdiff.mpr ⟨mem_reserve_plain.mpr (Finset.mem_Ico.mp hin), hout⟩
  have hcard := Finset.card_le_card hsub
  have hdiff := Finset.le_card_sdiff (Finset.Ico b (b + n)) (Finset.Ico 0x120 0x800)
  rw [Nat.card_Ico, Nat.card_Ico] at hdiff
  omega

namespace Heaps.Inv

variable {s0 s : Machine} {window : U32 × U32} {hs0 hs : Heaps} {bk bv : List Block}
  (hi : hs.Inv s0 window s bk bv) (h0 : Started smallLayout (ramOf plainEntries) hs0 s0 window)
include hi h0

theorem plain_free : 34 ≤ s.pmm.frames.card + (hs.virtual.heap.brk.toNat / 4096 - 0xE0000) := by
  have hpool := hi.pool_card h0
  have hcard := h0.plain_card
  omega

/-- A virtual heap of a few pages gets a few more. -/
theorem offered_virtual_plain {n : Nat}
    (hfew : 2 * n + (hs.virtual.heap.brk.toNat / 4096 - 0xE0000) ≤ 34) :
    hs.virtual.heap.offered s.supply n = n := by
  have hfree := hi.plain_free h0
  have hal := hi.virtual.inv.brk_aligned
  have hle := hi.virtual.inv.base_le
  have hrange : hs.virtual.heap.base.toNat = 0xE0000000 ∧
      hs.virtual.heap.limit.toNat = 0xF0000000 ∧ hs.virtual.heap.backing = .scattered := by
    rw [hi.virtual_heap]
    exact ⟨rfl, rfl, rfl⟩
  refine Heap.grants_all n _ _ (by omega) (by omega) (fun hb => ?_) (by rw [free_supply]; omega)
  rw [hrange.2.2] at hb
  cases hb

/-- The kernel's heap gets the first sixteen pages of its block. -/
theorem offered_kernel_plain {n : Nat} (hblock : hs.kernel.heap.brk.toNat + 4096 * n ≤ 0xD0010000)
    (hfew : 2 * n + (hs.virtual.heap.brk.toNat / 4096 - 0xE0000) ≤ 34) :
    hs.kernel.heap.offered s.supply n = n := by
  have hfree := hi.plain_free h0
  have hmin := h0.plain.1
  have hal := hi.kernel.inv.brk_aligned
  have hle := hi.kernel.inv.base_le
  have hrange : hs.kernel.heap.base.toNat = 0xD0000000 ∧
      hs.kernel.heap.limit.toNat = 0xD2000000 ∧ hs.kernel.heap.physBase = window.1 ∧
      hs.kernel.heap.physEnd = window.2 := by
    rw [hi.kernel_heap]
    exact ⟨rfl, rfl, rfl, rfl⟩
  refine Heap.grants_all n _ _ (by omega) (by omega) (fun _ => ?_) (by rw [free_supply]; omega)
  rw [hrange.2.2.1, hrange.2.2.2]
  omega

end Heaps.Inv

namespace Started

variable {hs : Heaps} {s : Machine} {window : U32 × U32}
  (h0 : Started smallLayout (ramOf plainEntries) hs s window) (hw : hs.NoWrap)
include h0 hw

/-- Two pages for the break, in one free block. -/
theorem kbrk_plain :
    ∃ hs' t bk bv, ((Op.kbrk 8192).step hs).run s = .ok (hs', t) ∧ hs'.Inv s window t bk bv ∧
      hs'.kernel.heap.brk = 0xD0002000 ∧ bk.map Block.used = [false] := by
  have hi := h0.inv hw
  obtain ⟨hs', t, bk, bv, bs, bs', hrun, hi', hok, hok', hready, r, hmove⟩ :=
    hi.step_ready (.kbrk 8192) .kernel rfl
  obtain rfl : bs = [] := hok.inv.unique hi.kernel.inv
  obtain rfl : bk = bs' := hi'.kernel.inv.unique hok'.inv
  have hpages : Heap.pages 8192 = 2 := by decide
  have hbrk : hs.kernel.heap.brk.toNat = 0xD0000000 ∧ hs.virtual.heap.brk.toNat = 0xE0000000 := by
    rw [h0.heaps]
    exact ⟨rfl, rfl⟩
  have hoffered : hs.kernel.heap.offered s.supply (Heap.pages 8192) = Heap.pages 8192 := by
    rw [hpages]
    exact hi.offered_kernel_plain h0 (by rw [hbrk.1]; decide) (by rw [hbrk.2]; decide)
  obtain ⟨htop, hal, hlarge, hblocks⟩ := hmove.full hready (by decide) hoffered
  refine ⟨hs', t, bk, bv, hrun, hi', BitVec.eq_of_toNat_eq (htop.trans ?_), ?_⟩
  · rw [show (hs.of .kernel).heap.brk.toNat = _ from hbrk.1, hpages]
    decide
  · rw [hblocks, Blocks.extend_nil]
    rfl

/-- The first allocation gets the start of the heap. -/
theorem kmalloc_plain :
    ∃ hs' t bk bv, ((Op.kmalloc 100).step hs).run s = .ok (hs', t) ∧ hs'.Inv s window t bk bv ∧
      hs'.virtual = hs.virtual ∧ hs'.kernel.live.map Heap.Live.block = [(0xD0000000, 104)] := by
  obtain ⟨hs', t, bk, bv, bs, bs', hrun, hi', hok, hok', hready, p, halloc⟩ :=
    (h0.inv hw).step_ready (.kmalloc 100) .kernel rfl
  have hvirtual : hs'.virtual = hs.virtual := Op.kernel_virtual hrun
  have hnew : (hs.of .kernel).live = [] := by
    rw [h0.heaps]
    rfl
  have hbase : (hs.of .kernel).heap.base = KHEAP_BASE ∧ (hs.of .kernel).heap.limit = KHEAP_LIMIT ∧
      (hs.of .kernel).heap.brk = KHEAP_BASE := by
    rw [h0.heaps]
    exact ⟨rfl, rfl, rfl⟩
  have hwant :
      ¬(100 : U32) > (hs.of .kernel).heap.limit - (hs.of .kernel).heap.base - Heap.HEADER := by
    rw [hbase.1, hbase.2.1]
    decide
  have hunused : Blocks.usedAt (hs.of .kernel).heap.base.toNat bs = [] := by
    have hheld := hok.held
    rw [hnew, List.map_nil] at hheld
    exact hheld.eq_nil
  refine ⟨hs', t, bk, bv, hrun, hi', hvirtual, ?_⟩
  rcases halloc.first hready hunused ⟨by decide, hwant⟩ (by decide) with
    ⟨rfl, hheap, _⟩ | ⟨_, hused, _⟩
  · -- there was a page to be had
    have hnone : hs'.kernel.heap.offered t.supply 1 = 0 :=
      halloc.shortage hready (by decide) hwant
    rw [hi'.offered_kernel_plain h0 (n := 1)] at hnone
    · cases hnone
    · rw [show hs'.kernel.heap = (hs.of .kernel).heap from hheap, hbase.2.2]
      decide
    · rw [hvirtual, h0.heaps]
      show 2 * 1 + (virtualHeap.brk.toNat / 4096 - 0xE0000) ≤ 34
      decide
  · have hheld := hok'.held
    rw [show (hs'.of .kernel).heap.base = (hs.of .kernel).heap.base from by
      rw [(halloc.effect hok.inv).1.same], hused, hbase.1] at hheld
    exact List.singleton_perm.mp hheld |>.symm

end Started

end Kfs
