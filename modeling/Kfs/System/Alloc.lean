import Kfs.System.Blind
import Kfs.System.Plenty

/-!
# Allocations that are refused

An allocation is refused without a trace when its size is refused out of hand, or when the heap
gets not a single page.  In between it keeps the pages that it got, for nothing
(`refused_alloc_unchanged`).  But it is never refused for nothing: see `alloc_not_spurious`.
-/

namespace Kfs

open Lib Mem Multiboot Paging Machine Heap

namespace Heap

variable {h : Heap} {s : Machine} {bs : List Block}

/-- A block in use has no more room than the heap's block of memory. -/
theorem Alloc.null (hr : Ready h s bs) (hb : h.backing = .contiguous) {want p : U32}
    (hwant : h.physEnd.toNat < h.physBase.toNat + want.toNat + 8) {h' : Heap} {t : Machine}
    {bs' : List Block} (ha : Alloc h s bs want p h' t bs') : p = 0 := by
  obtain ⟨he, hans⟩ := ha.effect hr.inv
  rcases hans with ⟨rfl, _⟩ | ⟨q, size, _, _, hsize, hused⟩
  · rfl
  · have hq : (q, size) ∈ Blocks.usedAt h.base.toNat bs' := hused.mem_iff.mpr List.mem_cons_self
    have hbounds := Blocks.usedAt_bounds hq
    have hspan := he.inv.span
    have hfits := he.inv.fits (by rw [he.same]; exact hb)
    rw [he.same] at hspan hfits
    dsimp only at hspan hfits
    omega

theorem Ready.alloc_null (hr : Ready h s bs) (hb : h.backing = .contiguous) {want : U32}
    (hwant : h.physEnd.toNat < h.physBase.toNat + want.toNat + 8) {p : U32} {h' : Heap}
    {t : Machine} (hrun : (h.alloc want).run s = .ok ((p, h'), t)) : p = 0 := by
  obtain ⟨p', h1, t1, bs', hrun', hcase⟩ := alloc_run hr.inv want
  rw [hrun] at hrun'
  cases hrun'
  exact hcase.null hr hb hwant

/-- A new heap with a block gets at least its first page, if there is a frame for the table. -/
theorem offered_new {r : Supply} {n : Nat} (hn : n ≠ 0) (hb : h.backing = .contiguous)
    (hnew : h.brk = h.base) (hal : h.base.toNat % 4096 = 0)
    (hlimit : h.base.toNat + 4096 ≤ h.limit.toNat)
    (hblock : h.physBase.toNat + 4096 ≤ h.physEnd.toNat) (hfree : 1 ≤ r.free) :
    h.offered r n ≠ 0 := by
  intro hzero
  rw [offered, hnew, grants_eq_zero hn] at hzero
  refine hzero ⟨by omega, fun _ => by omega, ?_⟩
  rw [cost, if_neg (by rw [hb]; decide)]
  split <;> omega

end Heap

/-- The heap of the kernel on the plain machine, right after boot. -/
theorem Started.offered_plain {hs : Heaps} {s : Machine} {window : U32 × U32}
    (h : Started smallLayout (ramOf plainEntries) hs s window) {n : Nat} (hn : n ≠ 0) :
    (kernelHeap.attach window).offered s.supply n ≠ 0 := by
  obtain ⟨hmin, _, hfree⟩ := h.plain
  have hplace : kernelHeap.base.toNat % 4096 = 0 ∧
      kernelHeap.base.toNat + 4096 ≤ kernelHeap.limit.toNat := by decide
  have hblock : window.1.toNat + 4096 ≤ window.2.toNat := by omega
  exact offered_new hn rfl rfl hplace.1 hplace.2 hblock
    (by rw [free_supply]; exact hfree.card_pos)

/-! ## What a refusal leaves -/

/-- After a boot and any operations, an allocation that is refused leaves the heap as it was exactly
when the size was refused out of hand or there was no page to be had. -/
theorem refused_alloc_unchanged {L : Layout} {ram : Ram} {hs : Heaps} {s : Machine}
    (hb : Booted L ram hs s) (hw : hs.NoWrap) (ops : List Op) :
    ∃ hs' t, (runOps hs ops).run s = .ok (hs', t) ∧ ∀ (side : Side) (want : U32),
      ∃ p h' u, ((hs'.of side).heap.alloc want).run t = .ok ((p, h'), u) ∧
        (p = 0 → (Unchanged (hs'.of side).heap h' t u ↔
          want = 0 ∨ want > (hs'.of side).heap.limit - (hs'.of side).heap.base - HEADER ∨
            (hs'.of side).heap.offered t.supply 1 = 0)) := by
  obtain ⟨hs', t, hrun, hgood⟩ := hb.reach hw ops
  refine ⟨hs', t, hrun, fun side want => ?_⟩
  obtain ⟨bs, hside⟩ := hgood side
  exact alloc_unchanged hside.ready want

/-- As many bytes as the heap's block has, twice: the first call takes all the pages, and the second
leaves no trace. -/
theorem refused_alloc_unchanged_plain : ∃ hs s, Booted smallLayout (ramOf plainEntries) hs s ∧
    hs.NoWrap ∧ ∃ hs' t, (runOps hs [.kmalloc 0x1C0000]).run s = .ok (hs', t) ∧
      hs'.kernel.heap.offered t.supply 1 = 0 ∧
      ∃ h' u, (hs'.kernel.heap.alloc 0x1C0000).run t = .ok ((0, h'), u) ∧
        Unchanged hs'.kernel.heap h' t u := by
  obtain ⟨hs, s, hb, hend⟩ := exists_booted_plain
  obtain ⟨window, h0⟩ := hb.start
  obtain ⟨_, hmax, _⟩ := h0.plain
  obtain ⟨hs1, s1, bk, bv, _, _, hrun1, hi1, _, _, hready, p, halloc⟩ :=
    (h0.inv (Or.inl hend)).step_ready (.kmalloc 0x1C0000) .kernel rfl
  obtain ⟨bs2, _, hready1⟩ := hi1.ready .kernel
  have hheap : (hs.of .kernel).heap = kernelHeap.attach window := by
    rw [h0.heaps]
    rfl
  have hheap1 : (hs1.of .kernel).heap.backing = .contiguous ∧
      (hs1.of .kernel).heap.physBase = window.1 ∧ (hs1.of .kernel).heap.physEnd = window.2 := by
    rw [show (hs1.of .kernel).heap = _ from hi1.kernel_heap]
    exact ⟨rfl, rfl, rfl⟩
  have hnull : p = 0 := halloc.null hready (by rw [hheap]; rfl) (by
    rw [hheap]
    show window.2.toNat < window.1.toNat + 0x1C0000 + 8
    omega)
  subst hnull
  have hused : hs1.kernel.heap.offered s1.supply 1 = 0 := halloc.shortage hready (by decide) (by
    rw [hheap]
    show ¬(0x1C0000 : U32) > kernelHeap.limit - kernelHeap.base - HEADER
    decide)
  obtain ⟨hs', t, hrun, hall⟩ := refused_alloc_unchanged hb (Or.inl hend) [.kmalloc 0x1C0000]
  obtain ⟨rfl, rfl⟩ := runOps_one hrun1 hrun
  obtain ⟨p, h', u, hagain, hiff⟩ := hall .kernel 0x1C0000
  have hnull : p = 0 := hready1.alloc_null hheap1.1 (by
    rw [hheap1.2.1, hheap1.2.2]
    show window.2.toNat < window.1.toNat + 0x1C0000 + 8
    omega) hagain
  subst hnull
  exact ⟨hs, s, hb, Or.inl hend, hs', t, hrun, hused, h', u, hagain,
    (hiff rfl).mpr (Or.inr (Or.inr hused))⟩

/-- An allocation of as many bytes as the heap's block has is refused, and the pages stay with the
heap. -/
theorem refused_alloc_grows : ∃ hs s, Booted smallLayout (ramOf plainEntries) hs s ∧ hs.NoWrap ∧
    ∃ h' t, (hs.kernel.heap.alloc 0x1C0000).run s = .ok ((0, h'), t) ∧
      ¬Unchanged hs.kernel.heap h' s t := by
  obtain ⟨hs, s, hb, hend⟩ := exists_booted_plain
  obtain ⟨window, h0⟩ := hb.start
  obtain ⟨_, hmax, _⟩ := h0.plain
  obtain ⟨bs, hside⟩ := (h0.inv (Or.inl hend)).good h0 .kernel
  obtain ⟨p, h', t, hrun, hiff⟩ := alloc_unchanged hside.ready 0x1C0000
  have hheap : (hs.of .kernel).heap = kernelHeap.attach window := by
    rw [h0.heaps]
    rfl
  have hnull : p = 0 := hside.ready.alloc_null (by rw [hheap]; rfl) (by
    rw [hheap]
    show window.2.toNat < window.1.toNat + 0x1C0000 + 8
    omega) hrun
  subst hnull
  refine ⟨hs, s, hb, Or.inl hend, h', t, hrun, fun hsame => ?_⟩
  have hsmall : ¬(0x1C0000 : U32) > kernelHeap.limit - kernelHeap.base - HEADER := by decide
  have hwhy := (hiff rfl).mp hsame
  rw [hheap] at hwhy
  rcases hwhy with hzero | hlarge | hoff
  · exact absurd hzero (by decide)
  · exact hsmall hlarge
  · exact h0.offered_plain Nat.one_ne_zero hoff

/-! ## What a refusal means -/

/-- After a boot and any operations: an allocation that is refused leaves no run of free blocks that
is large enough and no page to be had, and one that some run can hold gets the lowest of these. -/
theorem alloc_not_spurious {L : Layout} {ram : Ram} {hs : Heaps} {s : Machine}
    (hb : Booted L ram hs s) (hw : hs.NoWrap) (ops : List Op) :
    ∃ hs' t, (runOps hs ops).run s = .ok (hs', t) ∧ ∀ (side : Side) (want : U32), want ≠ 0 →
      want ≤ (hs'.of side).heap.limit - (hs'.of side).heap.base - HEADER →
      ∃ p h' u, ((hs'.of side).heap.alloc want).run t = .ok ((p, h'), u) ∧
        Complete (hs'.of side).heap h' t u want p := by
  obtain ⟨hs', t, hrun, hgood⟩ := hb.reach hw ops
  refine ⟨hs', t, hrun, fun side want hpos hle => ?_⟩
  obtain ⟨bs, hside⟩ := hgood side
  exact alloc_complete hside.ready hpos (BitVec.not_lt.mpr hle)

theorem alloc_not_spurious_plain : ∃ hs s, Booted smallLayout (ramOf plainEntries) hs s ∧
    hs.NoWrap ∧ ∃ hs' t, (runOps hs [.vmalloc 100, .vfree 0xE0000008]).run s = .ok (hs', t) ∧
      ∃ p h' u, (hs'.virtual.heap.alloc 8).run t = .ok ((p, h'), u) ∧
        Complete hs'.virtual.heap h' t u 8 p := by
  obtain ⟨hs, s, hb, hend⟩ := exists_booted_plain
  obtain ⟨hs', t, hrun, hall⟩ :=
    alloc_not_spurious hb (Or.inl hend) [.vmalloc 100, .vfree 0xE0000008]
  obtain ⟨window, h0⟩ := hb.start
  obtain ⟨_, _, hrun', _, _, hi⟩ := (h0.inv (Or.inl hend)).run [.vmalloc 100, .vfree 0xE0000008]
  rw [hrun] at hrun'
  cases hrun'
  have hsmall : (8 : U32) ≤ virtualHeap.limit - virtualHeap.base - HEADER := by decide
  exact ⟨hs, s, hb, Or.inl hend, hs', t, hrun, hall .virtual 8 (by decide) (by
    show 8 ≤ hs'.virtual.heap.limit - hs'.virtual.heap.base - HEADER
    rw [hi.virtual_heap]
    exact hsmall)⟩

/-- On a machine where the heap wraps around, an allocation faults although the heap is one free
block that is large enough. -/
theorem alloc_spurious_top : ∃ s, Booted smallLayout (ramOf topEntries) (heapInit topWindow) s ∧
    ∃ hs t, (runOps (heapInit topWindow) [.kmalloc 0x211FF8, .kernel (.write 0xD0211008 0),
        .kfree 0xD0000008]).run s = .ok (hs, t) ∧
      (∃ bs, hs.kernel.heap.Shows t bs ∧ ∃ q n,
        (q, n) ∈ Blocks.freeAt hs.kernel.heap.base.toNat (Blocks.merged bs) ∧
          (roundUp 0x1FF8).toNat ≤ n) ∧
      (hs.kernel.heap.alloc 0x1FF8).run t = .error (.fault 0xD0002000) := by
  obtain ⟨s, hb, hs, t, hrun, hheap, hg⟩ := exists_gapped_top
  refine ⟨s, hb, hs, t, hrun,
    ⟨[lone 530 hg.pos false], ?_, 0xD0000000, 0x211FF8, ?_, by decide⟩, ?_⟩
  · rw [hheap]
    exact hg.shows (wraps_topHeap _) (by decide)
  · rw [hheap]
    exact List.mem_singleton_self _
  · rw [hheap]
    exact alloc_gapped (wraps_topHeap _) (by decide) hg (by decide) (by decide) rfl

end Kfs
