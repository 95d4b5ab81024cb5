import Kfs.System.Top
import Kfs.System.Reach
import Kfs.Heap.Blind

/-!
# The heaps on a machine where one wraps around

On the machine of `exists_booted_top` the page 0xD0211000 of the kernel's heap has frame 0x200,
which is the page table of the heap itself.  Two runs that use nothing but the functions of the
heap and the payload of an allocation take pages away from it: `exists_blinded_top` the first one,
and `exists_gapped_top` one in the middle.  A third run, `exists_crossed_top`, frees a block of the
virtual heap by a store to a payload of the kernel's: the next two pages have the two frames that
the virtual heap takes.
-/

namespace Kfs

open Lib Mem Multiboot Paging Machine Heap

/-- The kernel's heap on that machine, with its break at `brk`. -/
def topHeap (brk : U32) : Heap := { kernelHeap.attach topWindow with brk := brk }

theorem wraps_topHeap (brk : U32) : (topHeap brk).Wraps 0xD0000 := wraps_top.withBrk brk

theorem brk_topHeap (brk : U32) : (topHeap brk).brk = brk := rfl

/-- The heaps after an allocation of all of the pages up to the break. -/
def topHeaps (brk size : U32) : Heaps :=
  { heapInit topWindow with kernel := ⟨topHeap brk, [⟨0xD0000008, size, size⟩]⟩ }

theorem kernel_topHeaps (brk size : U32) :
    (topHeaps brk size).kernel = ⟨topHeap brk, [⟨0xD0000008, size, size⟩]⟩ := rfl

theorem virtual_topHeaps (brk size : U32) : (topHeaps brk size).virtual = ⟨virtualHeap, []⟩ := rfl

section

variable {s : Machine}

/-- The first allocation, of `n` pages but for the header. -/
theorem Machine.AtTop.whole {k : Nat} (h : s.AtTop k) {n : Nat} (hn : 1 ≤ n) (hle : n ≤ 1024)
    (size brk : U32) (hsize : size = BitVec.ofNat 32 (4096 * n - 8))
    (hbrk : brk.toNat = 4096 * (0xD0000 + n)) :
    ∃ t, ((Op.kmalloc size).step (heapInit topWindow)).run s = .ok (topHeaps brk size, t) ∧
      Filled (topHeap brk) 0xD0000 s k n true t := by
  obtain ⟨top, t, hrun, hf⟩ := Call.step_whole h.unused hn hle
  have htop : top = brk := BitVec.eq_of_toNat_eq (hf.brk.trans hbrk.symm)
  subst htop
  rw [← hsize] at hrun
  exact ⟨t, Op.kernel_run (heapInit topWindow) hrun, hf⟩

/-- The break moves by a page, and the first page is gone. -/
theorem exists_blinded_top : ∃ s, Booted smallLayout (ramOf topEntries) (heapInit topWindow) s ∧
    ∃ t u, ((Op.kmalloc 0x210FF8).step (heapInit topWindow)).run s
        = .ok (topHeaps 0xD0211000 0x210FF8, t) ∧
      ((topHeap 0xD0211000).moveBrk 0x1000).run t = .ok ((0xD0211000, topHeap 0xD0212000), u) ∧
      u.leaf 0xD0000 = none := by
  obtain ⟨s, hb, hframes⟩ := exists_booted_top
  obtain ⟨h0, htop⟩ := hb.atTop hframes
  obtain ⟨t, hrun, hf⟩ := htop.whole (n := 529) (by decide) (by decide) 0x210FF8 0xD0211000
    rfl rfl
  obtain ⟨u, hmove, hblind⟩ := brk_blinds (wraps_topHeap _) htop.unmapped hf (by decide) (by decide)
    rfl
  exact ⟨s, hb, t, u, hrun, hmove, hblind⟩

/-- A client writes to its payload and frees it, and a page in the middle is gone. -/
theorem exists_gapped_top : ∃ s, Booted smallLayout (ramOf topEntries) (heapInit topWindow) s ∧
    ∃ hs t, (runOps (heapInit topWindow) [.kmalloc 0x211FF8, .kernel (.write 0xD0211008 0),
        .kfree 0xD0000008]).run s = .ok (hs, t) ∧ hs.kernel.heap = topHeap 0xD0212000 ∧
      Gapped (topHeap 0xD0212000) 0xD0000 530 false 2 t := by
  obtain ⟨s, hb, hframes⟩ := exists_booted_top
  obtain ⟨h0, htop⟩ := hb.atTop hframes
  obtain ⟨s1, hrun1, hf⟩ := htop.whole (n := 530) (by decide) (by decide) 0x211FF8 0xD0212000
    rfl rfl
  obtain ⟨s2, hstore, hg⟩ := store8_gap (wraps_topHeap _) hf (by decide) (m := 529) (g := 2)
    (by decide) (by decide) (by decide) rfl (v := 0xD0211008) rfl
  obtain ⟨s3, hfree, hg'⟩ := free_gapped (wraps_topHeap _) (by decide) hg (by decide)
  have hwrite : ((Call.write 0xD0211008 0).step (topHeaps 0xD0212000 0x211FF8).kernel).run s1
      = .ok ((topHeaps 0xD0212000 0x211FF8).kernel, s2) := by
    rw [Call.step, if_pos ⟨_, List.mem_singleton_self _, by decide⟩, Prog.bind_ok hstore,
      Prog.run_pure]
  have hcall : ((Call.free 0xD0000008).step (topHeaps 0xD0212000 0x211FF8).kernel).run s2
      = .ok (⟨topHeap 0xD0212000, []⟩, s3) := by
    rw [Call.step]
    exact Prog.bind_ok hfree
  refine ⟨s, hb, { heapInit topWindow with kernel := ⟨topHeap 0xD0212000, []⟩ }, s3, ?_, rfl, hg'⟩
  rw [runOps_cons hrun1, runOps_cons (Op.kernel_run _ hwrite), Op.kfree,
    runOps_cons (Op.kernel_run _ hcall)]
  rfl

/-! ## A block of the other heap -/

/-- The first allocation of the virtual heap: its page gets a frame that was free. -/
theorem vmalloc_first (hs : s.Paged) (hnone : ∀ p ∈ virtualPages, s.leaf p = none)
    (hfree : 2 ≤ s.pmm.frames.card) :
    ∃ c t b ys, ((Call.alloc 8).step ⟨virtualHeap, []⟩).run s = .ok (c, t) ∧
      c.heap = { virtualHeap with brk := 0xE0001000 } ∧
      (∃ a, c.live = [a] ∧ a.pointer = 0xE0000008) ∧ Ready c.heap t (b :: ys) ∧
      Blocks.usedAt 0xE0000000 (b :: ys) = [(0xE0000000, 8)] ∧ Confined virtualPages ∅ s t ∧
      (⟨virtualHeap, []⟩ : Eager).step s.supply (.alloc 8)
        = ⟨{ virtualHeap with brk := 0xE0001000 },
            [⟨8, true, by decide, by decide⟩, ⟨4072, false, by decide, by decide⟩]⟩ := by
  have hwindow : virtualHeap.window = ∅ := window_scattered rfl
  have hok : (⟨virtualHeap, []⟩ : Client).Ok s [] :=
    Client.ok_new (inv_new Started.virtual_placed rfl hs fun k hk => by
      rw [hwindow] at hk
      exact hk.elim) rfl
  have hready : Ready virtualHeap s [] :=
    .of_statics (g := virtualHeap) hok.inv (fun p h1 h2 => hnone p ⟨h1, h2⟩) rfl (by decide)
      (by decide) (by decide)
  have hone : virtualHeap.offered s.supply 1 = 1 := by
    rw [offered, grants, if_pos, grants]
    refine ⟨by decide, fun hb => (by cases hb), ?_⟩
    rw [cost, if_pos (show virtualHeap.backing = .scattered from rfl), free_supply]
    split <;> omega
  obtain ⟨c, t, bs, hrun, hstep, ⟨p, hcase⟩, _⟩ := (Call.alloc 8).step_run hok
  have hnew : (⟨virtualHeap, []⟩ : Eager).alloc s.supply 8 = _ :=
    Eager.alloc_new (by decide) (by decide) (by decide) hone
  have halloc := Eager.alloc_run hready hcase
  have heq := halloc.symm.trans hnew
  have hheap : c.heap = { virtualHeap with brk := 0xE0001000 } :=
    congrArg (fun x : Nat × Eager => x.2.heap) heq
  have hmerged : Blocks.merged bs = [⟨8, true, by decide, by decide⟩,
      ⟨4072, false, by decide, by decide⟩] :=
    congrArg (fun x : Nat × Eager => x.2.blocks) heq
  have hused : Blocks.usedAt 0xE0000000 bs = [(0xE0000000, 8)] := by
    rw [← Blocks.usedAt_merged, hmerged]
    rfl
  -- the one live pointer is that of the one block in use
  have hlive : ∃ a, c.live = [a] ∧ a.pointer = 0xE0000008 := by
    have hheld := hstep.ok.held
    rw [hheap] at hheld
    have hperm : (c.live.map Live.block).Perm [(0xE0000000, 8)] := by
      rw [← hused]
      exact hheld.symm
    obtain ⟨a, ha, hblock⟩ := List.map_eq_singleton_iff.mp (List.perm_singleton.mp hperm)
    have h8 := (hstep.ok.asked a (by rw [ha]; exact List.mem_singleton_self a)).1
    have hstart : a.pointer.toNat - 8 = 0xE0000000 := congrArg Prod.fst hblock
    refine ⟨a, ha, BitVec.eq_of_toNat_eq ?_⟩
    rw [show (0xE0000008 : U32).toNat = 0xE0000008 from rfl]
    omega
  obtain ⟨b, ys, rfl⟩ : ∃ b ys, bs = b :: ys := List.exists_cons_of_ne_nil (by
    rintro rfl
    cases hused)
  obtain ⟨he, _⟩ := hcase.effect hok.inv
  refine ⟨c, t, b, ys, hrun, hheap, hlive, hready.effect he, hused, ?_, ?_⟩
  · have hconf := hstep.confined
    rw [hwindow] at hconf
    exact hconf
  · show ((⟨virtualHeap, []⟩ : Eager).alloc s.supply 8).2 = _
    rw [hnew]
    rfl

/-- The virtual heap after a store to a payload of the kernel's heap: its only block in use is free
although its pointer is live.  `s1` is the machine on which the block was allocated. -/
structure Crossed (s1 : Machine) (c : Client) (t : Machine) : Prop where
  heap : c.heap = { virtualHeap with brk := 0xE0001000 }
  live : ∃ a, c.live = [a] ∧ a.pointer = 0xE0000008
  blocks : ∃ b ys, Ready c.heap t (b :: ys) ∧ b.used = false ∧
    Blocks.usedAt 0xE0000000 (b :: ys) = []
  reference : (⟨virtualHeap, []⟩ : Eager).step s1.supply (.alloc 8)
    = ⟨{ virtualHeap with brk := 0xE0001000 },
        [⟨8, true, by decide, by decide⟩, ⟨4072, false, by decide, by decide⟩]⟩

/-- The frame of the virtual heap's page was free before, so it is one of two. -/
theorem vmalloc_frame {t : Machine} (hnone : ∀ p ∈ virtualPages, s.leaf p = none)
    (hconf : Confined virtualPages ∅ s t) {h : Heap} {bs : List Block} (hi : Heap.Inv h t bs)
    {p : Nat} (hp : p ∈ virtualPages) (hlo : h.base.toNat / 4096 ≤ p)
    (hhi : p < h.brk.toNat / 4096) {e : U32} (he : t.leaf p = some e) :
    frameNo e ∈ s.pmm.frames := by
  have hlt : p < 1023 * 1024 := by
    rw [mem_virtualPages] at hp
    omega
  have hmine : t.Mine virtualPages ∅ (frameNo e) :=
    Or.inr (Or.inr (Or.inr ⟨p, hp, hlt, e, he, rfl⟩))
  rcases (hconf.mine _).mp hmine with hfree | htable | hempty | ⟨q, hq, _, e', he', _⟩
  · exact hfree
  · exact absurd (isTable_confined hconf htable) (hi.owned.notTable hlo hhi he)
  · exact hempty.elim
  · rw [hnone q hq] at he'
    cases he'

theorem exists_crossed_top : ∃ s, Booted smallLayout (ramOf topEntries) (heapInit topWindow) s ∧
    ∃ v hs1 s1 hs2 s2 s3, ((Op.kmalloc 0x213FF8).step (heapInit topWindow)).run s = .ok (hs1, s1) ∧
      ((Op.vmalloc 8).step hs1).run s1 = .ok (hs2, s2) ∧
      ((Op.kernel (.write v 0)).step hs2).run s2 = .ok (hs2, s3) ∧
      Crossed s1 hs2.virtual s3 := by
  obtain ⟨s, hb, hframes⟩ := exists_booted_top
  obtain ⟨h0, htop⟩ := hb.atTop hframes
  obtain ⟨s1, hrun1, hf⟩ := htop.whole (n := 532) (by decide) (by decide) 0x213FF8 0xD0214000
    rfl rfl
  have hleft : s1.pmm.frames = {0x201, 0x202} := by
    rw [hf.wrapped.pmm, Pmm.frames_setUsed, hframes]
    decide
  have hnone : ∀ p ∈ virtualPages, s1.leaf p = none := fun p hp => by
    rw [mem_virtualPages] at hp
    rw [hf.wrapped.leaf p (by omega), if_neg (by omega)]
    exact h0.leaf_none (by omega) (by omega) (by omega)
  obtain ⟨c, s2, b, ys, hcall2, hheap, hlive, hready, hused, hconf, href⟩ :=
    vmalloc_first hf.wrapped.paged hnone (by rw [hleft]; decide)
  rw [← virtual_topHeaps 0xD0214000 0x213FF8] at hcall2
  have hbase : c.heap.base.toNat = 0xE0000000 := by rw [hheap]; rfl
  have hbrk : c.heap.brk.toNat = 0xE0001000 := by rw [hheap]; rfl
  obtain ⟨hb1, hys⟩ : b.used = true ∧ Blocks.usedAt (0xE0000000 + (8 + b.size)) ys = [] := by
    cases hb1 : b.used with
    | true =>
      rw [Blocks.usedAt_used hb1] at hused
      exact ⟨rfl, (List.cons.inj hused).2⟩
    | false =>
      rw [Blocks.usedAt_free hb1] at hused
      have hmem : (0xE0000000, 8) ∈ Blocks.usedAt (0xE0000000 + (8 + b.size)) ys := by
        rw [hused]
        exact List.mem_singleton_self _
      have hfirst := Blocks.usedAt_bounds hmem
      omega
  -- the page of the kernel's heap with the frame of the virtual one
  obtain ⟨e, hleaf, _⟩ := hready.inv.owned.mapped 0xE0000 (by omega) (by omega)
  have hframe := vmalloc_frame hnone hconf hready.inv (mem_virtualPages.mpr (by omega)) (by omega)
    (by omega) hleaf
  rw [hleft, Finset.mem_insert, Finset.mem_singleton] at hframe
  obtain ⟨j, hj, hjframe⟩ : ∃ j, (j = 530 ∨ j = 531) ∧ (0xFFFEF + j) % 2 ^ 20 = frameNo e := by
    rcases hframe with hframe | hframe
    · exact ⟨530, Or.inl rfl, by omega⟩
    · exact ⟨531, Or.inr rfl, by omega⟩
  obtain ⟨v, hv⟩ : ∃ v : U32, v.toNat = 4096 * (0xD0000 + j) + 4 := by
    refine ⟨BitVec.ofNat 32 (4096 * (0xD0000 + j) + 4), ?_⟩
    rw [BitVec.toNat_ofNat]
    omega
  have hpage : v.toNat / 4096 = 0xD0000 + j := by omega
  have hleaf' : s2.leaf (v.toNat / 4096) = some ((topHeap 0xD0214000).wrappedEntry j) := by
    rw [hpage, hconf.leaf _ (by omega) (by rw [mem_virtualPages]; omega),
      hf.wrapped.leaf _ (by omega), if_pos (by omega), Nat.add_sub_cancel_left]
  have hmay : s2.MayWrite (v.toNat / 4096) ((topHeap 0xD0214000).wrappedEntry j) := by
    refine ⟨hconf.paged.dirWritable _ (by omega) (present_of_leaf hleaf').1, ?_⟩
    rw [wrappedEntry, writable_entry]
    decide
  obtain ⟨s3, hstore, he⟩ := hready.inv.free_behind hb1 (by rw [hbase]; exact hleaf) hleaf' hmay
    ((frameNo_wrappedEntry (wraps_topHeap _) j).trans hjframe) (by omega)
  have hcall3 : ∀ k : Client, k = (topHeaps 0xD0214000 0x213FF8).kernel →
      ((Call.write v 0).step k).run s2 = .ok (k, s3) := by
    rintro k rfl
    have hholds : (topHeaps 0xD0214000 0x213FF8).kernel.Holds v := by
      refine ⟨_, List.mem_singleton_self _, ?_, ?_⟩
      · show 0xD0000008 ≤ v.toNat
        omega
      · show v.toNat < 0xD0000008 + 0x213FF8
        omega
    rw [Call.step, if_pos hholds, Prog.bind_ok hstore, Prog.run_pure]
  refine ⟨s, hb, v, _, s1, { topHeaps 0xD0214000 0x213FF8 with virtual := c }, s2, s3, hrun1,
    Op.virtual_run (topHeaps 0xD0214000 0x213FF8) hcall2, Op.kernel_same _ (hcall3 _ rfl), hheap,
    hlive, ⟨b.setUsed false, ys, hready.effect he, rfl, ?_⟩, href⟩
  rw [Blocks.usedAt_free (b := b.setUsed false) rfl]
  exact hys

end

end Kfs
