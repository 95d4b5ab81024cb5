import Kfs.System.Top

/-!
# The breaks and the mappings

In every state that the kernel reaches, the mapped pages of a heap's range are exactly those below
its break, with the rights of the kernel.  The pages of the kernel's heap lie one after the other
in the carved block, and no two pages of the virtual heap share a frame.
-/

namespace Kfs

open Lib Mem Paging Machine

/-- A page of the heap's range is mapped exactly when it is below the break, with the rights
`KERNEL_PAGE`. -/
structure Heap.Agrees (h : Heap) (s : Machine) : Prop where
  mapped : ∀ p, h.base.toNat ≤ 4096 * p → 4096 * p < h.limit.toNat →
    ((∃ e, s.leaf p = some e) ↔ 4096 * p < h.brk.toNat)
  rights : ∀ p e, h.base.toNat ≤ 4096 * p → 4096 * p < h.limit.toNat → s.leaf p = some e →
    e &&& 0xFFF = KERNEL_PAGE

/-- The breaks of both heaps agree with the tables. -/
structure Heaps.Agree (hs : Heaps) (s : Machine) : Prop where
  kernel : hs.kernel.heap.Agrees s
  virtual : hs.virtual.heap.Agrees s
  contiguous : ∀ v : U32, KHEAP_BASE ≤ v → v < hs.kernel.heap.brk →
    (Paging.translate v).run s = .ok (some (hs.kernel.heap.physBase + (v - KHEAP_BASE)), s)
  scattered : ∀ p q e e', p ∈ virtualPages → q ∈ virtualPages → s.leaf p = some e →
    s.leaf q = some e' → frameNo e = frameNo e' → p = q

namespace Heap.Inv

variable {h : Heap} {s : Machine} {bs : List Block}

theorem agrees (hi : Inv h s bs) (hc : h.Clear s) (hflags : h.flags = KERNEL_PAGE) :
    h.Agrees s := by
  have hbase := hi.placed.base_aligned
  have hlimit := hi.placed.limit_aligned
  have hbrk := hi.brk_aligned
  have hnone : ∀ p, 4096 * p < h.limit.toNat → ¬4096 * p < h.brk.toNat → s.leaf p = none :=
    fun p h1 h2 => hc p (by omega) (by omega)
  refine ⟨fun p hlo hhi => ⟨fun hmapped => ?_, fun hb => ?_⟩, fun p e hlo hhi he => ?_⟩
  · obtain ⟨e, he⟩ := hmapped
    by_contra hb
    rw [hnone p hhi hb] at he
    cases he
  · obtain ⟨e, he, _⟩ := hi.owned.mapped p (by omega) (by omega)
    exact ⟨e, he⟩
  · have hb : 4096 * p < h.brk.toNat := by
      by_contra hb
      rw [hnone p hhi hb] at he
      cases he
    rw [(hi.backed p e (by omega) (by omega) he).1, hflags]
    rfl

/-- The pages of a contiguous heap lie one after the other. -/
theorem run_translate_contiguous (hi : Inv h s bs) (hb : h.backing = .contiguous) {v : U32}
    (hlo : h.base ≤ v) (hhi : v < h.brk) :
    (Paging.translate v).run s = .ok (some (h.physBase + (v - h.base)), s) := by
  have hlo' : h.base.toNat ≤ v.toNat := hlo
  have hhi' : v.toNat < h.brk.toNat := hhi
  have hbase := hi.placed.base_aligned
  have hbrk := hi.brk_aligned
  obtain ⟨e, he, _⟩ := hi.owned.mapped (v.toNat / 4096) (by omega) (by omega)
  have hframe := (hi.backed _ e (by omega) (by omega) he).2 hb
  have hblock := (hi.placed.block hb).1
  have hfits := hi.fits hb
  have hlt := h.physEnd.isLt
  rw [run_translate hi.paged, he, Option.map_some]
  congr 3
  apply BitVec.eq_of_toNat_eq
  rw [toNat_translate, hframe, BitVec.toNat_add, BitVec.toNat_sub_of_le hlo]
  omega

end Heap.Inv

/-- From boot on, whatever the kernel does, the breaks of the two heaps and the page tables agree.
The growth of the kernel's heap must not wrap around. -/
theorem breaks_agree {L : Layout} {ram : Multiboot.Ram} {hs : Heaps} {s : Machine}
    (hb : Booted L ram hs s) (hw : hs.NoWrap) (ops : List Op) :
    ∃ hs' t, (runOps hs ops).run s = .ok (hs', t) ∧ hs'.Agree t := by
  obtain ⟨window, h0⟩ := hb.start
  obtain ⟨hs', t, hrun, bk, bv, hi⟩ := (h0.inv hw).run ops
  have hbase : hs'.kernel.heap.base = KHEAP_BASE := by
    rw [hi.kernel_heap]
    rfl
  refine ⟨hs', t, hrun, hi.kernel.inv.agrees hi.kernel_clear ?_,
    hi.virtual.inv.agrees hi.virtual_clear ?_, fun v hlo hhi => ?_,
    fun p q e e' hp hq he he' => hi.held_virtual.inj hp hq he he'⟩
  · rw [hi.kernel_heap]
    rfl
  · rw [hi.virtual_heap]
    rfl
  · rw [← hbase] at hlo ⊢
    exact hi.kernel.inv.run_translate_contiguous (by rw [hi.kernel_heap]; rfl) hlo hhi

theorem breaks_agree_plain : ∃ hs s, Booted smallLayout (Multiboot.ramOf plainEntries) hs s ∧
    hs.NoWrap ∧ ∃ hs' t, (runOps hs [.kmalloc 100, .fault 0x802000 0, .vbrk 5000, .user]).run s
      = .ok (hs', t) ∧ hs'.Agree t := by
  obtain ⟨hs, s, hb, hend⟩ := exists_booted_plain
  exact ⟨hs, s, hb, Or.inl hend, breaks_agree hb (Or.inl hend) _⟩

/-- Where the growth wraps around, pages below the break are lost. -/
theorem breaks_disagree_top : ∃ s,
    Booted smallLayout (Multiboot.ramOf topEntries) (heapInit topWindow) s ∧
    ∃ hs' t, (runOps (heapInit topWindow) [.kmalloc 0x211000]).run s = .ok (hs', t) ∧
      ¬hs'.Agree t := by
  obtain ⟨s, hb, hframes⟩ := exists_booted_top
  obtain ⟨h0, htop⟩ := hb.atTop hframes
  obtain ⟨c, t, hrun, hheap, _, hbrk, ht⟩ := htop.alloc (N := 529) (i := 832) (by decide)
    (by decide) (by decide) (by decide) (Or.inl ⟨rfl, rfl⟩)
  have hstep : ((Op.kmalloc 0x211000).step (heapInit topWindow)).run s
      = .ok ({ heapInit topWindow with kernel := c }, t) := by
    rw [show (0x211000 : U32) = BitVec.ofNat 32 (4096 * 529) from rfl, Op.kmalloc, Op.step,
      Prog.bind_ok hrun, Prog.run_pure]
  refine ⟨s, hb, { heapInit topWindow with kernel := c }, t, ?_, fun hagree => ?_⟩
  · rw [runOps, List.foldlM_cons, Prog.bind_ok hstep]
    rfl
  · have hbase : c.heap.base = KHEAP_BASE ∧ c.heap.limit = KHEAP_LIMIT := by
      rw [hheap]
      exact ⟨rfl, rfl⟩
    obtain ⟨e, he⟩ := (hagree.kernel.mapped 0xD0002 (by rw [hbase.1]; decide)
      (by rw [hbase.2]; decide)).mpr (by rw [hbrk]; decide)
    rw [ht.leaf _ (by decide), if_pos (by decide)] at he
    cases he

end Kfs
