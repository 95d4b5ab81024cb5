import Kfs.System.Alloc

/-!
# The break of the two heaps

`kbrk` and `vbrk` are documented as `sbrk`.  `brk_sbrk` says when a call is one: unless a part of
the pages was to be had.  `brk_down_documented` says when the way down is refused for a documented
reason only: the code looks at the last block, and free blocks are not merged before.
`brk_up_back` says that the way up and back leaves nothing behind.
-/

namespace Kfs

open Lib Mem Multiboot Paging Machine Heap Blocks

section

variable {L : Layout} {ram : Ram} {hs : Heaps} {s : Machine}

/-! ## As `sbrk` -/

/-- After a boot and any operations, `brk` is `sbrk` exactly when all the pages or none were to be
had. -/
theorem brk_sbrk (hb : Booted L ram hs s) (hw : hs.NoWrap) (ops : List Op) :
    ∃ hs' t, (runOps hs ops).run s = .ok (hs', t) ∧ ∀ (side : Side) (delta : U32),
      ∃ r h' u, ((hs'.of side).heap.moveBrk delta).run t = .ok ((r, h'), u) ∧
        (Sbrk (hs'.of side).heap h' t u delta r ↔
          (0 < delta.toInt → (hs'.of side).heap.offered t.supply (pages delta) = 0 ∨
            (hs'.of side).heap.offered t.supply (pages delta) = pages delta)) := by
  obtain ⟨hs', t, hrun, hgood⟩ := hb.reach hw ops
  refine ⟨hs', t, hrun, fun side delta => ?_⟩
  obtain ⟨bs, hside⟩ := hgood side
  exact moveBrk_sbrk hside.ready delta

theorem brk_sbrk_plain : ∃ hs s, Booted smallLayout (ramOf plainEntries) hs s ∧ hs.NoWrap ∧
    ∃ hs' t, (runOps hs [.kmalloc 100]).run s = .ok (hs', t) ∧
      ∃ r h' u, (hs'.kernel.heap.moveBrk (-100)).run t = .ok ((r, h'), u) ∧
        Sbrk hs'.kernel.heap h' t u (-100) r := by
  obtain ⟨hs, s, hb, hend⟩ := exists_booted_plain
  obtain ⟨hs', t, hrun, hall⟩ := brk_sbrk hb (Or.inl hend) [.kmalloc 100]
  obtain ⟨r, h', u, hmove, hiff⟩ := hall .kernel (-100)
  exact ⟨hs, s, hb, Or.inl hend, hs', t, hrun, r, h', u, hmove,
    hiff.mpr fun hpos => absurd hpos (by decide)⟩

/-- A heap whose block has some of the pages but not all of them. -/
theorem Heap.Ready.brk_partial {h : Heap} {bs : List Block} (hr : Ready h s bs)
    (hb : h.backing = .contiguous) {delta : U32} (hpos : 0 < delta.toInt)
    (hsome : h.offered s.supply (pages delta) ≠ 0)
    (hfew : h.physEnd.toNat < h.physBase.toNat + 4096 * pages delta) :
    ∃ h' t, (h.moveBrk delta).run s = .ok ((h.brk, h'), t) ∧ h'.brk ≠ h.brk ∧
      ¬Sbrk h h' s t delta h.brk := by
  obtain ⟨r, h', t, bs', hrun, hcase⟩ := moveBrk_run hr.inv delta
  cases hcase with
  | zero hzero =>
    rw [hzero] at hpos
    exact absurd hpos (by decide)
  | down hneg =>
    rw [msb_of_pos hpos] at hneg
    cases hneg
  | up _ _ hg =>
    rw [show (pagesOf delta).toNat = pages delta from toNat_pagesOf delta] at hg
    cases hg with
    | refused _ hwhy => exact absurd (hwhy hr.isOpen) hsome
    | grew hal hlarge htop hm he hleaf hcount =>
      rename_i m top
      have hfits := he.inv.fits hb
      dsimp only at hfits
      have hbase := hr.inv.base_le
      refine ⟨_, t, hrun, fun heq => ?_, fun hsbrk => ?_⟩
      · have hsame : top = h.brk := heq
        rw [hsame] at htop
        omega
      · have hfull := (hsbrk.up hpos hr.brk_ne_zero).2
        dsimp only at hfull
        omega

/-- One page more than the heap's block has: the break moves by fewer pages than it was asked to,
and the answer is the same as if it had moved by all of them. -/
theorem brk_stops_halfway : ∃ hs s, Booted smallLayout (ramOf plainEntries) hs s ∧ hs.NoWrap ∧
    ∃ h' t, (hs.kernel.heap.moveBrk 0x1C1000).run s = .ok ((hs.kernel.heap.brk, h'), t) ∧
      h'.brk ≠ hs.kernel.heap.brk ∧ ¬Sbrk hs.kernel.heap h' s t 0x1C1000 hs.kernel.heap.brk := by
  obtain ⟨hs, s, hb, hend⟩ := exists_booted_plain
  obtain ⟨window, h0⟩ := hb.start
  obtain ⟨_, hmax, _⟩ := h0.plain
  obtain ⟨bs, hside⟩ := (h0.inv (Or.inl hend)).good h0 .kernel
  have hready : Ready hs.kernel.heap s bs := hside.ready
  have hheap : hs.kernel.heap = kernelHeap.attach window := by
    rw [h0.heaps]
    rfl
  have hpages : pages 0x1C1000 = 449 := by decide
  have hsome : hs.kernel.heap.offered s.supply (pages 0x1C1000) ≠ 0 := by
    rw [hheap, hpages]
    exact h0.offered_plain (Nat.succ_ne_zero _)
  have hshort : hs.kernel.heap.physEnd.toNat
      < hs.kernel.heap.physBase.toNat + 4096 * pages 0x1C1000 := by
    rw [hheap, hpages]
    show window.2.toNat < window.1.toNat + 4096 * 449
    omega
  obtain ⟨h', t, hrun, hmoved, hnot⟩ :=
    hready.brk_partial (by rw [hheap]; rfl) (by decide) hsome hshort
  exact ⟨hs, s, hb, Or.inl hend, h', t, hrun, hmoved, hnot⟩

/-! ## The way down -/

/-- After a boot and any operations, `brk` down does what is documented exactly when the break
stays, or it would go below the free end or hardly above its start, or it would go to the start of
the last block or well above it. -/
theorem brk_down_documented (hb : Booted L ram hs s) (hw : hs.NoWrap) (ops : List Op) :
    ∃ hs' t, (runOps hs ops).run s = .ok (hs', t) ∧ ∀ (side : Side) (delta : U32),
      delta.toInt < 0 → ∃ bs, (hs'.of side).heap.Shows t bs ∧
      ∃ r h' u, ((hs'.of side).heap.moveBrk delta).run t = .ok ((r, h'), u) ∧
        (Gives (hs'.of side).heap h' t u bs delta r ↔
          (hs'.of side).heap.goal delta = (hs'.of side).heap.brk.toNat ∨
          (hs'.of side).heap.goal delta < topAt (hs'.of side).heap.base.toNat (merged bs) ∨
          topAt (hs'.of side).heap.base.toNat (merged bs) < (hs'.of side).heap.goal delta ∧
            (hs'.of side).heap.goal delta
              < topAt (hs'.of side).heap.base.toNat (merged bs) + 16 ∨
          (hs'.of side).heap.goal delta = topAt (hs'.of side).heap.base.toNat bs ∨
          topAt (hs'.of side).heap.base.toNat bs + 16 ≤ (hs'.of side).heap.goal delta) := by
  obtain ⟨hs', t, hrun, hgood⟩ := hb.reach hw ops
  refine ⟨hs', t, hrun, fun side delta hneg => ?_⟩
  obtain ⟨bs, hside⟩ := hgood side
  exact ⟨bs, hside.ok.inv.shows, moveBrk_documented hside.ready hneg⟩

/-- Two pages up and one of them back. -/
theorem brk_down_documented_plain : ∃ hs s, Booted smallLayout (ramOf plainEntries) hs s ∧
    hs.NoWrap ∧ ∃ hs' t, (runOps hs [.kbrk 8192]).run s = .ok (hs', t) ∧
      hs'.kernel.heap.brk = 0xD0002000 ∧
      ∃ bs, hs'.kernel.heap.Shows t bs ∧
      ∃ r h' u, (hs'.kernel.heap.moveBrk (-4096)).run t = .ok ((r, h'), u) ∧
        Gives hs'.kernel.heap h' t u bs (-4096) r ∧ r ≠ 0 ∧ h'.brk = 0xD0001000 := by
  obtain ⟨hs, s, hb, hend⟩ := exists_booted_plain
  obtain ⟨window, h0⟩ := hb.start
  obtain ⟨hs1, s1, bk, bv, hrun1, hi1, hbrk1, hused⟩ := h0.kbrk_plain (Or.inl hend)
  have hbase1 : hs1.kernel.heap.base = KHEAP_BASE := by
    rw [hi1.kernel_heap]
    rfl
  obtain ⟨hs', t, hrun, hall⟩ := brk_down_documented hb (Or.inl hend) [.kbrk 8192]
  obtain ⟨rfl, rfl⟩ := runOps_one hrun1 hrun
  obtain ⟨bs, hshows, r, h', u, hdown, hiff⟩ := hall .kernel (-4096) (by decide)
  -- the walk finds one free block
  obtain ⟨b, rfl, hfree⟩ : ∃ b, bs = [b] ∧ b.used = false := by
    refine List.map_eq_singleton_iff.mp ?_
    rw [← map_used_seenFrom bs, hshows.unique hi1.kernel.inv.shows, map_used_seenFrom, hused]
  have htopAt : topAt (hs'.of .kernel).heap.base.toNat [b] = 0xD0000000 := by
    rw [topAt_one _ hfree, show (hs'.of .kernel).heap.base = _ from hbase1]
    rfl
  have hgoal : (hs'.of .kernel).heap.goal (-4096) = 0xD0001000 := by
    rw [goal, show (hs'.of .kernel).heap.base = _ from hbase1,
      show (hs'.of .kernel).heap.brk = _ from hbrk1]
    decide
  have hgives := hiff.mpr (Or.inr (Or.inr (Or.inr (Or.inr (by rw [htopAt, hgoal]; decide)))))
  have hnot : ¬(hs'.of .kernel).heap.Documented [b] ((hs'.of .kernel).heap.goal (-4096)) := by
    rw [documented_iff [b] (show _ ≤ (hs'.of .kernel).heap.goal (-4096) from le_max_left _ _),
      show merged [b] = [b] from rfl, htopAt, hgoal]
    omega
  refine ⟨hs, s, hb, Or.inl hend, hs', t, hrun, hbrk1, [b], hshows, r, h', u, hdown, hgives,
    fun hz => hnot (hgives.refuses.mp hz), BitVec.eq_of_toNat_eq ?_⟩
  exact (hgives.gives hnot).1.trans hgoal

namespace Heap

variable {h : Heap} {bs : List Block}

/-- A heap of several free blocks refuses to give everything back. -/
theorem Ready.keeps_all (hr : Ready h s bs) (hlong : 2 ≤ bs.length) {delta : U32}
    (hneg : delta.toInt < 0) (hgoal : h.goal delta = h.base.toNat) :
    ∃ t, (h.moveBrk delta).run s = .ok ((0, h), t) := by
  obtain ⟨r, h', t, bs', hrun, hcase⟩ := moveBrk_run hr.inv delta
  have htarget : (h.target (pagesOf delta)).toNat = h.base.toNat := by
    rw [← hgoal]
    exact hr.inv.toNat_target delta
  cases hcase with
  | zero hzero =>
    rw [hzero] at hneg
    exact absurd hneg (by decide)
  | up _ hpos =>
    rw [msb_of_neg hneg] at hpos
    cases hpos
  | down hmsb hs =>
    cases hs with
    | same heq =>
      have hspan := hr.inv.span
      rw [heq] at htarget
      rcases bs with _ | ⟨b, bs⟩
      · exact absurd hlong (by decide)
      · rw [Blocks.span_cons] at hspan
        omega
    | refused => exact ⟨t, hrun⟩
    | cut _ _ _ _ _ hcut => omega
    | drop hbs hc hlt hdrop he hg =>
      rcases bs' with _ | ⟨x, xs⟩
      · rw [hbs] at hlong
        exact absurd hlong (by simp)
      · rw [Blocks.span_cons] at hdrop
        omega

/-- There is no documented reason to refuse to give back a heap that has no block in use. -/
theorem not_documented_base (hused : Blocks.usedAt h.base.toNat bs = []) :
    ¬h.Documented bs h.base.toNat := by
  rintro ⟨_, ⟨q, n, hq, _⟩ | ⟨hlt, _⟩⟩
  · rw [hused] at hq
    cases hq
  · exact absurd hlt (Nat.not_lt.mpr (Blocks.le_topAt _ _))

/-- A free does not merge. -/
theorem Freed.length {t : Machine} {p : U32} {bs' : List Block} (hf : Freed h s bs p t bs') :
    bs'.length = bs.length := by
  cases hf with
  | done hbs => simp [hbs]
  | refused => rfl

end Heap

/-- The free end in two blocks: a heap with nothing in use refuses to give its page back. -/
theorem brk_down_undocumented : ∃ hs s, Booted smallLayout (ramOf plainEntries) hs s ∧ hs.NoWrap ∧
    ∃ hs' t bs, (runOps hs [.kmalloc 100, .kfree 0xD0000008]).run s = .ok (hs', t) ∧
      (hs'.of .kernel).heap.Shows t bs ∧
      (∃ u, ((hs'.of .kernel).heap.moveBrk (-4096)).run t = .ok ((0, (hs'.of .kernel).heap), u)) ∧
      ¬(hs'.of .kernel).heap.Documented bs ((hs'.of .kernel).heap.goal (-4096)) := by
  obtain ⟨hs, s, hb, hend⟩ := exists_booted_plain
  obtain ⟨window, h0⟩ := hb.start
  have hi := h0.inv (Or.inl hend)
  obtain ⟨hs1, s1, bk1, bv1, bs0, bs1, hrun1, hi1, hok0, hok1, hready, p, halloc⟩ :=
    hi.step_ready (.kmalloc 100) .kernel rfl
  obtain ⟨hs2, s2, bk2, bv2, bs1', bs2, hrun2, hi2, hok1', hok2, _, hsame, hfreed⟩ :=
    hi1.step_ready (.kfree 0xD0000008) .kernel rfl
  have hheap : (hs.of .kernel).heap = kernelHeap.attach window := by
    rw [h0.heaps]
    rfl
  have hplace : 100 + 8 ≤ kernelHeap.limit.toNat - kernelHeap.base.toNat ∧
      max kernelHeap.base.toNat (0xD0001000 - 4096 * pages (-4096)) = kernelHeap.base.toNat := by
    decide
  -- the first allocation cuts the page in two
  obtain rfl : bs0 = [] := hok0.inv.unique hi.kernel.inv
  obtain rfl : bs1 = bs1' := hok1.inv.unique hok1'.inv
  have hone : (hs.of .kernel).heap.offered s.supply 1 = 1 := by
    rw [hheap]
    have hle := grants_le (h := kernelHeap.attach window) 1
      ((kernelHeap.attach window).brk.toNat / 4096) s.supply
    have hne := h0.offered_plain Nat.one_ne_zero
    rw [offered] at hne ⊢
    omega
  have hstep := Eager.alloc_run hready halloc
  have hnew : (⟨(hs.of .kernel).heap, []⟩ : Eager).alloc s.supply 100 = _ :=
    Eager.alloc_new (by decide) (by rw [hheap]; exact hplace.1) (by decide) hone
  have hheap1 : (hs1.of .kernel).heap
      = { kernelHeap.attach window with brk := 0xD0001000 } := by
    have hboth := congrArg (fun x : Nat × Eager => x.2.heap) (hstep.symm.trans hnew)
    rw [hheap] at hboth
    exact hboth
  have hmerged : merged bs1 = [⟨104, true, by decide, by decide⟩,
      ⟨3976, false, by decide, by decide⟩] :=
    congrArg (fun x : Nat × Eager => x.2.blocks) (hstep.symm.trans hnew)
  have hused : Blocks.usedAt 0xD0000000 bs1 = [(0xD0000000, 104)] := by
    rw [← usedAt_merged, hmerged]
    rfl
  have hlong : 2 ≤ bs1.length := by
    have hle := merged_length_le bs1
    rw [hmerged] at hle
    exact hle
  rw [hheap1] at hfreed hsame
  -- the free leaves two blocks
  obtain ⟨hlong', hused'⟩ : 2 ≤ bs2.length ∧ Blocks.usedAt 0xD0000000 bs2 = [] := by
    have heffect := (hfreed.effect (by rw [← hheap1]; exact hok1.inv)).2
    have hlen := hfreed.length
    refine ⟨by omega, ?_⟩
    refine heffect.trans ?_
    show (Blocks.usedAt 0xD0000000 bs1).filter _ = []
    rw [hused]
    rfl
  obtain ⟨bs3, hok3, hready3⟩ := hi2.ready .kernel
  obtain rfl : bs3 = bs2 := hok3.inv.unique hok2.inv
  have hgoal : (hs2.of .kernel).heap.goal (-4096) = (hs2.of .kernel).heap.base.toNat := by
    rw [hsame]
    exact hplace.2
  refine ⟨hs, s, hb, Or.inl hend, hs2, s2, bs3, ?_, hok2.inv.shows,
    hready3.keeps_all hlong' (by decide) hgoal, ?_⟩
  · rw [runOps_cons hrun1, runOps_cons hrun2, runOps_nil]
  · rw [hgoal]
    refine not_documented_base ?_
    rw [hsame]
    exact hused'

/-! ## Up and back -/

/-- After a boot and any operations, a break that moved up by all the pages moves back, and leaves
everything as it was but for new page tables. -/
theorem brk_up_back (hb : Booted L ram hs s) (hw : hs.NoWrap) (ops : List Op) :
    ∃ hs' t, (runOps hs ops).run s = .ok (hs', t) ∧ ∀ (side : Side) (delta : U32),
      0 < delta.toInt →
      ∃ r h' u, ((hs'.of side).heap.moveBrk delta).run t = .ok ((r, h'), u) ∧
        (h'.brk.toNat = (hs'.of side).heap.brk.toNat + 4096 * pages delta →
          ∃ r' v, (h'.moveBrk (-delta)).run u = .ok ((r', (hs'.of side).heap), v) ∧ r' ≠ 0 ∧
            Restored (hs'.of side).heap t v) := by
  obtain ⟨hs', t, hrun, hgood⟩ := hb.reach hw ops
  refine ⟨hs', t, hrun, fun side delta hpos => ?_⟩
  obtain ⟨bs, hside⟩ := hgood side
  exact moveBrk_back hside.ready hside.counted hpos

/-- Two pages of the virtual heap, behind a block in use. -/
theorem brk_up_back_plain : ∃ hs s, Booted smallLayout (ramOf plainEntries) hs s ∧ hs.NoWrap ∧
    ∃ hs' t, (runOps hs [.vmalloc 100]).run s = .ok (hs', t) ∧
      ∃ r h' u, ((hs'.of .virtual).heap.moveBrk 5000).run t = .ok ((r, h'), u) ∧
        h'.brk.toNat = (hs'.of .virtual).heap.brk.toNat + 4096 * pages 5000 ∧
        ∃ r' v, (h'.moveBrk (-5000)).run u = .ok ((r', (hs'.of .virtual).heap), v) ∧ r' ≠ 0 ∧
          Restored (hs'.of .virtual).heap t v := by
  obtain ⟨hs, s, hb, hend⟩ := exists_booted_plain
  obtain ⟨window, h0⟩ := hb.start
  obtain ⟨hs1, s1, bk, bv, _, _, hrun1, hi1, _, _, _, p, halloc⟩ :=
    (h0.inv (Or.inl hend)).step_ready (.vmalloc 100) .virtual rfl
  -- the allocation took a page at most
  have hbrk : hs1.virtual.heap.brk.toNat ≤ 0xE0001000 := by
    refine halloc.brk_le.trans ?_
    rw [show (hs.of .virtual).heap = virtualHeap from by rw [h0.heaps]; rfl]
    decide
  obtain ⟨hs', t, hrun, hall⟩ := brk_up_back hb (Or.inl hend) [.vmalloc 100]
  obtain ⟨rfl, rfl⟩ := runOps_one hrun1 hrun
  obtain ⟨bs, _, hready⟩ := hi1.ready .virtual
  have hoffered : (hs'.of .virtual).heap.offered t.supply (pages 5000) = pages 5000 :=
    hi1.offered_virtual_plain h0 (n := 2) (by omega)
  obtain ⟨r, h', u, hup, hback⟩ := hall .virtual 5000 (by decide)
  obtain ⟨_, _, _, _, hup', hmove⟩ := moveBrk_run hready.inv 5000
  rw [hup] at hup'
  cases hup'
  have hfull := (hmove.full hready (by decide) hoffered).1
  exact ⟨hs, s, hb, Or.inl hend, hs', t, hrun, r, h', u, hup, hfull, hback hfull⟩

/-- On a machine where the heap wraps around, the break moves up by a page, and the way back
faults. -/
theorem brk_up_not_back_top : ∃ s, Booted smallLayout (ramOf topEntries) (heapInit topWindow) s ∧
    ∃ hs t, (runOps (heapInit topWindow) [.kmalloc 0x210FF8]).run s = .ok (hs, t) ∧
      ∃ h' u, (hs.kernel.heap.moveBrk 0x1000).run t = .ok ((hs.kernel.heap.brk, h'), u) ∧
        h'.brk.toNat = hs.kernel.heap.brk.toNat + 4096 * pages 0x1000 ∧
        (h'.moveBrk (-0x1000)).run u = .error (.fault 0xD0000000) := by
  obtain ⟨s, hb, t, u, hrun, hmove, hblind⟩ := exists_blinded_top
  have hback : ((topHeap 0xD0212000).shrink (pagesOf (-0x1000))).run u
      = .error (.fault 0xD0000000) :=
    shrink_blind (h := topHeap 0xD0212000) rfl hblind (by decide) (by decide)
  refine ⟨s, hb, topHeaps 0xD0211000 0x210FF8, t, by rw [runOps_cons hrun, runOps_nil],
    topHeap 0xD0212000, u, ?_, rfl, moveBrk_down_error (by decide) hback⟩
  rw [kernel_topHeaps]
  dsimp only
  rw [brk_topHeap]
  exact hmove

end

end Kfs
