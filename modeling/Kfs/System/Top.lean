import Kfs.System.Inv
import Kfs.Heap.Wrap

/-!
# A boot whose block ends at the last page

On the machine of `exists_booted_top` the window of the kernel's heap ends at 0xFFFFF000, so the
heap wraps around: the pages behind the window get the frames from 0xFFFFF and 0 on.  `AtTop` says
what an allocation needs to get that far, and `AtTop.alloc` that it does: the header of the rest
is stored into a page table.
-/

namespace Kfs

open Lib Mem Multiboot Paging Machine

theorem wraps_top : (kernelHeap.attach topWindow).Wraps 0xD0000 :=
  ⟨rfl, rfl, by decide, by decide, by decide, by decide, by decide, rfl⟩

/-- The kernel's heap is empty and has no page table yet; frame `k` is the next one to be taken. -/
structure Machine.AtTop (s : Machine) (k : Nat) : Prop where
  paged : s.Paged
  unmapped : ∀ p, 0xD0000 ≤ p → p < 0xD0000 + 1024 → s.leaf p = none
  absent : present (s.dirWord 832) = false
  free : k ∈ s.pmm.frames
  lowest : ∀ j, j < k → j ∉ s.pmm.frames
  spare : 0xFFFEF ∉ s.pmm.frames ∧ ¬s.IsTable 0xFFFEF

section

variable {s : Machine} {k : Nat}

theorem Machine.AtTop.unused (h : s.AtTop k) : (kernelHeap.attach topWindow).Unused 0xD0000 s k :=
  ⟨wraps_top, rfl, h.paged, h.unmapped, h.absent, h.free, h.lowest, h.spare⟩

/-- An allocation of `N` pages, such that the header of the rest lies in the page that has the table
of slot `i` for its frame. -/
theorem Machine.AtTop.alloc (h : s.AtTop k) {N i : Nat} (hN1 : 1 ≤ N) (hN : N + 1 ≤ 1024)
    (hi : i < 1023) (hne : 0xD0000 + N ≠ 1024 * i + 2)
    (htable : i = 832 ∧ k = (0xFFFEF + N) % 2 ^ 20 ∨ i ≠ 832 ∧ present (s.dirWord i) = true ∧
      frameNo (s.dirWord i) = (0xFFFEF + N) % 2 ^ 20) :
    ∃ c t, ((Heap.Call.alloc (BitVec.ofNat 32 (4096 * N))).step (heapInit topWindow).kernel).run s
        = .ok (c, t) ∧
      c.heap = { kernelHeap.attach topWindow with brk := c.heap.brk } ∧
      c.live = [⟨0xD0000008, BitVec.ofNat 32 (4096 * N), BitVec.ofNat 32 (4096 * N)⟩] ∧
      c.heap.brk.toNat = 4096 * (0xD0000 + (N + 1)) ∧
      Heap.Strayed (kernelHeap.attach topWindow) 0xD0000 s k N i t := by
  have hstray : ∀ u, Heap.Wrapped (kernelHeap.attach topWindow) 0xD0000 s k (N + 1) u →
      present (u.dirWord i) = true ∧ frameNo (u.dirWord i) = (0xFFFEF + N) % 2 ^ 20 := by
    intro u hu
    rcases htable with ⟨rfl, hk⟩ | ⟨hi', hp, hf⟩
    · exact ⟨hu.slot.1, hu.slot.2.trans hk⟩
    · rw [hu.dir i (by omega) hi']
      exact ⟨hp, hf⟩
  obtain ⟨top, t, hrun, htop, ht⟩ := Heap.Call.step_wraps h.unused hN1 hN hi hne hstray
  exact ⟨_, t, hrun, rfl, rfl, htop, ht⟩

/-- The machine right after boot. -/
theorem Booted.atTop (hb : Booted smallLayout (ramOf topEntries) (heapInit topWindow) s)
    (hframes : s.pmm.frames = {0x200, 0x201, 0x202}) :
    Started smallLayout (ramOf topEntries) (heapInit topWindow) s topWindow ∧ s.AtTop 0x200 := by
  obtain ⟨window, h0⟩ := hb.start
  have hwindow : window = topWindow := by
    have hheap : (kernelHeap.attach topWindow) = kernelHeap.attach window :=
      congrArg (fun hs : Heaps => hs.kernel.heap) h0.heaps
    exact Prod.ext (congrArg Heap.physBase hheap).symm (congrArg Heap.physEnd hheap).symm
  subst hwindow
  refine ⟨h0, h0.paged, fun p h1 h2 => h0.leaf_none (by omega) (by omega) (by omega), ?_, ?_, ?_,
    h0.window_spare ⟨rfl, by decide, by decide⟩⟩
  · rw [h0.tables.dirElse 832 (by omega) (by omega) (by omega) (by omega)]
    rfl
  · rw [hframes]
    decide
  · intro j hj
    rw [hframes]
    simp only [Finset.mem_insert, Finset.mem_singleton]
    omega

/-- A byte of zero in a table unmaps a page. -/
theorem Machine.leaf_write8 (hs : s.Paged) {p a : Nat} (hp : p < 1023 * 1024)
    (hdir : present (s.dirWord (p / 1024)) = true)
    (ha : a = 4096 * frameNo (s.dirWord (p / 1024)) + 4 * (p % 1024)) {t : Machine}
    (ht : t = { s with mem := s.mem.write8 a 0 }) : t.leaf p = none := by
  have hi : p / 1024 < 1023 := by omega
  have hne := hs.table_ne_cr3 hi hdir
  have hdir' : t.dirWord (p / 1024) = s.dirWord (p / 1024) := by
    rw [ht, dirWord]
    exact ByteMem.read32_write8_other _ _ (by dsimp only; omega)
  refine leaf_eq_none_of_tab ?_
  rw [tabWord, hdir', ← ha, ht]
  exact present_write8_zero s.mem a

/-- A walk that is not at its end can read the first header. -/
theorem Heap.Walk.first {finish block : U32} {seen : List Seen} (h : Walk s finish block seen)
    (hne : block ≠ finish) : ∃ size, (sizeAt block).run s = .ok (size, s) := by
  cases h with
  | done => exact absurd rfl hne
  | next hsize => exact ⟨_, hsize⟩

end

/-! ## A demand page -/

/-- The first page fault in the demand zone, at 0x802000: frame 0x200 for the page and frame 0x201
for its table. -/
structure Machine.Demanded (s t : Machine) : Prop where
  atTop : t.AtTop 0x202
  frames : t.pmm.frames = {0x202}
  table : present (t.dirWord 2) = true ∧ frameNo (t.dirWord 2) = 0x201
  dir : ∀ i, i < 1024 → i ≠ 2 → t.dirWord i = s.dirWord i
  leaf : ∀ p, p < 1023 * 1024 → p ≠ 0x802 → t.leaf p = s.leaf p

/-- What is above the break is as before, and the frame that is left is not a table. -/
theorem Machine.AtTop.demanded {s t : Machine} (htop : s.AtTop 0x200) (hpaged : t.Paged)
    (hframes : t.pmm.frames = {0x202})
    (htable : present (t.dirWord 2) = true ∧ frameNo (t.dirWord 2) = 0x201)
    (hdir : ∀ i, i < 1024 → i ≠ 2 → t.dirWord i = s.dirWord i)
    (hleaf : ∀ p, p < 1023 * 1024 → p ≠ 0x802 → t.leaf p = s.leaf p) : s.Demanded t := by
  refine ⟨⟨hpaged, fun p h1 h2 => ?_, ?_, ?_, fun j hj => ?_, ?_, ?_⟩, hframes, htable, hdir,
    hleaf⟩
  · rw [hleaf p (by omega) (by omega)]
    exact htop.unmapped p h1 h2
  · rw [hdir 832 (by decide) (by decide)]
    exact htop.absent
  · rw [hframes]
    exact Finset.mem_singleton_self _
  · rw [hframes, Finset.mem_singleton]
    omega
  · rw [hframes]
    decide
  · rintro ⟨i, hi, hp, hf⟩
    by_cases h2 : i = 2
    · rw [h2, htable.2] at hf
      cases hf
    · rw [hdir i hi h2] at hp hf
      exact htop.spare.2 ⟨i, hi, hp, hf⟩

theorem handleFault_top {s : Machine}
    (h0 : Started smallLayout (ramOf topEntries) (heapInit topWindow) s topWindow)
    (hframes : s.pmm.frames = {0x200, 0x201, 0x202}) (htop : s.AtTop 0x200) :
    ∃ b t, (handleFault 0x802000 0).run s = .ok (b, t) ∧ s.Demanded t := by
  have hs := h0.paged
  have hnone : s.leaf 0x802 = none := h0.leaf_none (by decide) (by decide) (by decide)
  have habs : present (s.dirWord 2) = false := by
    rw [h0.tables.dirElse 2 (by decide) (by decide) (by decide) (by decide)]
    rfl
  have hmem : ∀ k, k ∈ s.pmm.frames ↔ k = 0x200 ∨ k = 0x201 ∨ k = 0x202 := fun k => by
    rw [hframes]
    simp only [Finset.mem_insert, Finset.mem_singleton]
  obtain ⟨r, t, hrun, hnew⟩ := mapNew_run hs 0x802000 USER_PAGE (by decide)
    (by decide)
  refine ⟨r.isSome, t, ?_, ?_⟩
  · rw [handleFault, if_neg (by decide), show pageOf 0x802000 = 0x802000 from by decide,
      Prog.bind_ok hrun, Prog.run_pure]
  cases hnew with
  | noFrame hempty =>
    rw [hframes] at hempty
    exact absurd hempty (by decide)
  | readOnly _ _ _ hw => exact absurd hw (by decide)
  | refused hk hmin hmap =>
    rename_i k u
    cases hmap with
    | user hu => exact absurd hu.2 (by decide)
    | noTable _ _ hempty =>
      -- two more frames are left
      rw [frames_taking, Finset.erase_eq_empty_iff, hframes] at hempty
      rcases hempty with h | h
      · exact absurd h (by decide)
      · have := congrArg Finset.card h
        exact absurd this (by simp)
    | mapped _ hleaf =>
      rw [(sameTables_taking s k).leaf hs (by decide)] at hleaf
      exact absurd (hnone.symm.trans hleaf) (Option.some_ne_none _).symm
  | done hk hmin hmap hw =>
    rename_i k u
    have hk' : k = 0x200 := by
      have h1 := (hmem k).mp hk
      by_contra hne
      exact hmin 0x200 (by omega) ((hmem _).mpr (Or.inl rfl))
    subst hk'
    have hpaged := paged_taking hs 0x200
    have hsame := sameTables_taking s 0x200
    have hu := hmap.paged hpaged (by decide)
    have hzero := sameTables_zeroFrame (hmap.not_isTable_taken hs (by decide) hk)
    have hleft : ∀ j, j ∈ (taking s 0x200).pmm.frames ↔ j = 0x201 ∨ j = 0x202 := fun j => by
      rw [frames_taking, Finset.mem_erase, hmem]
      omega
    have hnext : 0x201 ∈ (taking s 0x200).pmm.frames := (hleft _).mpr (Or.inl rfl)
    obtain ⟨hpmm, hword, hdirs⟩ := hmap.fresh hpaged (by decide)
      (by rw [hsame.dirWord hs (by decide)]; exact habs) hnext fun j hj => by rw [hleft]; omega
    obtain ⟨hframe, hpres, _⟩ :=
      tableEntry_bits (Pmm.toNat_addressOf (Pmm.lt_of_mem_frames hnext)) 0x802000
    rw [← hword] at hframe hpres
    have hdir : ∀ i, i < 1024 → i ≠ 2 → (zeroFrame u 0x200).dirWord i = s.dirWord i :=
      fun i hi hne => by rw [hzero.dirWord hu hi, hdirs i hi hne, hsame.dirWord hs hi]
    have hleaf : ∀ p, p < 1023 * 1024 → p ≠ 0x802 → (zeroFrame u 0x200).leaf p = s.leaf p :=
      fun p hp hne => by
        rw [hzero.leaf hu (by omega), hmap.leaf_done hpaged (by decide) hp,
          if_neg (show ¬p = (0x802000 : U32).toNat / 4096 from hne), hsame.leaf hs (by omega)]
    have hslot : present ((zeroFrame u 0x200).dirWord 2) = true ∧
        frameNo ((zeroFrame u 0x200).dirWord 2) = 0x201 := by
      rw [hzero.dirWord hu (by decide)]
      exact ⟨hpres, hframe⟩
    have hfree : (zeroFrame u 0x200).pmm.frames = {0x202} := by
      ext j
      show j ∈ u.pmm.frames ↔ _
      rw [hpmm, Pmm.frames_setUsed, Finset.mem_erase, hleft, Finset.mem_singleton]
      omega
    exact htop.demanded (hzero.paged hu hu.tablesUsed) hfree hslot hdir hleaf

/-! ## The two boots compared -/

/-- On a machine whose block ends below the last page, the kernel's heap is safe. -/
theorem heap_safe_plain : ∃ hs s, Booted smallLayout (ramOf plainEntries) hs s ∧
    ∃ c t, ([Heap.Call.alloc 100, .alloc 5000, .free 0xD0000008, .brk 4096].foldlM Heap.Call.step
        hs.kernel).run s = .ok (c, t) ∧ ∃ seen, c.Safe t seen := by
  obtain ⟨hs, s, hb, hend⟩ := exists_booted_plain
  obtain ⟨window, h0⟩ := hb.start
  have hplaced := h0.kernel_placed (Or.inl hend)
  have hkernel : hs.kernel = ⟨kernelHeap.attach window, []⟩ := by rw [h0.heaps, heapInit]
  refine ⟨hs, s, hb, ?_⟩
  rw [kernelHeap] at hplaced hkernel
  rw [hkernel]
  exact Heap.heap_safe hplaced h0.paged (fun k hk => h0.window_spare hk) _

/-- On the other machine it is not: after one allocation, and one byte written into it, the
header of the first block cannot be read any more. -/
theorem heap_not_safe_top : ∃ s,
    Booted smallLayout (ramOf topEntries) (heapInit topWindow) s ∧
    ∃ c t, ([Heap.Call.alloc 0x211000, .write 0xD0211000 0].foldlM Heap.Call.step
        (heapInit topWindow).kernel).run s = .ok (c, t) ∧ ∀ seen, ¬c.Safe t seen := by
  obtain ⟨s, hb, hframes⟩ := exists_booted_top
  obtain ⟨h0, htop⟩ := hb.atTop hframes
  obtain ⟨c, u, hrun, hheap, hlive, hbrk, hu⟩ := htop.alloc (N := 529) (i := 832) (by decide)
    (by decide) (by decide) (by decide) (Or.inl ⟨rfl, rfl⟩)
  -- the page of the byte has the table of slot 832 for its frame
  have hleaf : u.leaf 0xD0211 = some ((kernelHeap.attach topWindow).wrappedEntry 529) := by
    rw [hu.leaf _ (by decide), if_neg (by decide), if_pos (by decide)]
  have hframe : frameNo ((kernelHeap.attach topWindow).wrappedEntry 529) = 0x200 :=
    Heap.frameNo_wrappedEntry wraps_top 529
  obtain ⟨t, ht, hstore⟩ : ∃ t, t = { u with mem := u.mem.write8 (4096 * 0x200) 0 } ∧
      (store8 0xD0211000 0).run u = .ok ((), t) := by
    refine ⟨_, rfl, ?_⟩
    rw [store8_of_leaf (v := 0xD0211000) 0 hleaf
      ⟨hu.paged.dirWritable _ (by decide) (present_of_leaf hleaf).1, by decide⟩, hframe]
    rfl
  have hgone : t.leaf 0xD0000 = none :=
    leaf_write8 hu.paged (by decide) hu.slot.1 (by rw [hu.slot.2]) ht
  have hwrite : ((Heap.Call.write 0xD0211000 0).step c).run u = .ok (c, t) := by
    rw [Heap.Call.step, if_pos ⟨_, by rw [hlive]; exact List.mem_singleton_self _, by decide⟩,
      Prog.bind_ok hstore, Prog.run_pure]
  refine ⟨s, hb, c, t, ?_, fun seen hsafe => ?_⟩
  · rw [List.foldlM_cons, show (0x211000 : U32) = BitVec.ofNat 32 (4096 * 529) from rfl,
      Prog.bind_ok hrun, List.foldlM_cons, Prog.bind_ok hwrite]
    rfl
  · have hbase : c.heap.base = 0xD0000000 := by
      rw [hheap]
      rfl
    have hwalk := hsafe.walk
    rw [hbase] at hwalk
    obtain ⟨size, hsize⟩ := hwalk.first fun heq => by
      rw [← heq] at hbrk
      exact absurd hbrk (by decide)
    rw [Heap.sizeAt, load32_unmapped (v := 0xD0000000) hgone] at hsize
    cases hsize

end Kfs
