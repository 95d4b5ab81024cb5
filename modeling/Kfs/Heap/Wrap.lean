import Kfs.Heap.Safety

/-!
# A block that ends at the last page

`frame_for` refuses a page when `frame + PAGE_SIZE > phys_end`, in 32 bits.  If the block of a
contiguous heap ends at 0xFFFFF000, the last address that a page may start at, the sum is never
larger: behind the block it wraps to zero.  So the heap does not stop at the end of its block, and
its pages go on with frame 0xFFFFF, frame 0, frame 1 and so forth, whoever owns these.

`growLoop_wraps` follows the loop of `grow` through one slot of the directory, and `Call.step_wraps`
an allocation that needs it.  The header of what is left over then lies in a frame that the heap
does not own; `Call.step_wraps` is for the case that this frame is a page table.
-/

namespace Kfs.Heap

open Lib Mem Paging Machine Blocks

/-- A contiguous heap whose block ends at the last page.  Its range starts at a slot of the
directory, at page `A`, and fills it. -/
structure Wraps (h : Heap) (A : Nat) : Prop where
  backing : h.backing = .contiguous
  physEnd : h.physEnd = 0xFFFFF000
  physBase : h.physBase.toNat % 4096 = 0
  base : h.base.toNat = 4096 * A
  slot : A % 1024 = 0
  room : 4096 * (A + 1024) ≤ h.limit.toNat
  limit : h.limit.toNat ≤ TABLE_WINDOW.toNat
  flags : h.flags = KERNEL_PAGE

/-- The frame that page `j` of the range gets. -/
def wrappedFrame (h : Heap) (j : Nat) : U32 := h.physBase + BitVec.ofNat 32 (4096 * j)

variable {h : Heap} {A : Nat} {s t u : Machine}

theorem Wraps.withBrk (hw : h.Wraps A) (brk : U32) : { h with brk := brk }.Wraps A :=
  ⟨hw.backing, hw.physEnd, hw.physBase, hw.base, hw.slot, hw.room, hw.limit, hw.flags⟩

theorem Wraps.bounds (hw : h.Wraps A) : A + 1024 ≤ 1023 * 1024 := by
  have h1 := hw.room
  have h2 := hw.limit
  rw [show TABLE_WINDOW.toNat = 4096 * (1023 * 1024) from rfl] at h2
  omega

theorem frameNo_wrappedFrame (hw : h.Wraps A) (j : Nat) :
    frameNo (h.wrappedFrame j) = (h.physBase.toNat / 4096 + j) % 2 ^ 20 := by
  have hal := hw.physBase
  rw [frameNo, wrappedFrame, BitVec.toNat_add, BitVec.toNat_ofNat]
  omega

/-- The test of `frame_for` never fails. -/
theorem frameFor_wraps (hw : h.Wraps A) (s : Machine) {page : U32} {j : Nat}
    (hpage : page.toNat = 4096 * (A + j)) :
    (frameFor h page).run s = .ok (some (h.wrappedFrame j), s) := by
  have hsub : page - h.base = BitVec.ofNat 32 (4096 * j) := by
    have hb := hw.base
    have hlt := page.isLt
    apply BitVec.eq_of_toNat_eq
    rw [BitVec.toNat_sub_of_le (by rw [BitVec.le_def]; omega), BitVec.toNat_ofNat]
    omega
  have htest : ¬(h.wrappedFrame j + PAGE_SIZE > h.physEnd) := by
    have hal := hw.physBase
    rw [hw.physEnd, gt_iff_lt, BitVec.lt_def, wrappedFrame, BitVec.toNat_add, BitVec.toNat_add,
      BitVec.toNat_ofNat, show PAGE_SIZE.toNat = 4096 from rfl,
      show (0xFFFFF000 : U32).toNat = 0xFFFFF000 from rfl]
    omega
  rw [frameFor, hw.backing]
  dsimp only
  rw [hsub, ← wrappedFrame, if_neg htest, Prog.run_pure]

/-! ## One pass of `grow` -/

/-- The entry that page `j` gets. -/
def wrappedEntry (h : Heap) (j : Nat) : U32 := entryFor (h.wrappedFrame j) h.flags

theorem frameNo_wrappedEntry (hw : h.Wraps A) (j : Nat) :
    frameNo (h.wrappedEntry j) = (h.physBase.toNat / 4096 + j) % 2 ^ 20 := by
  rw [wrappedEntry, hw.flags, frameNo_entry _ (by decide), frameNo_wrappedFrame hw]

/-- The next page is mapped, whoever owns the frame. -/
theorem mapPage_wraps (hw : h.Wraps A) (hs : s.Paged) {page : U32} {j : Nat}
    (hpage : page.toNat = 4096 * (A + j)) (hj : j < 1024) (hnone : s.leaf (A + j) = none)
    (htable : present (s.dirWord (A / 1024)) = true ∨ s.pmm.frames ≠ ∅) :
    ∃ t, (mapPage page (h.wrappedFrame j) h.flags).run s = .ok (true, t) ∧
      MapPage s page (h.wrappedFrame j) h.flags true t := by
  have hslot := hw.slot
  have hp : page.toNat / 4096 = A + j := by omega
  have hdir : dirIndex page = A / 1024 := by
    rw [dirIndex_eq, hp]
    omega
  obtain ⟨b, t, hrun, hmap⟩ := mapPage_run hs page (h.wrappedFrame j) h.flags
  have hdone : b = true := by
    cases hmap with
    | user hu =>
      rw [UserInKernel, hw.flags] at hu
      exact absurd hu.1 (by decide)
    | noTable _ habs hempty =>
      rw [hdir] at habs
      rcases htable with h1 | h1
      · rw [habs] at h1
        cases h1
      · exact absurd hempty h1
    | mapped _ hleaf =>
      rw [hp, hnone] at hleaf
      cases hleaf
    | done => rfl
  subst hdone
  exact ⟨t, hrun, hmap⟩

/-- The test of `grow` against the limit. -/
theorem Wraps.fits (hw : h.Wraps A) {page : U32} {j : Nat} (hpage : page.toNat = 4096 * (A + j))
    (hj : j < 1024) : ¬(page + PAGE_SIZE > h.limit) := by
  have hroom := hw.room
  have hbound := hw.bounds
  rw [gt_iff_lt, BitVec.lt_def, BitVec.toNat_add, hpage, show PAGE_SIZE.toNat = 4096 from rfl]
  omega

/-- A pass of the loop goes on to the next page. -/
theorem growLoop_wraps_pass (hw : h.Wraps A) (hs : s.Paged) {page : U32} {j : Nat}
    (hpage : page.toNat = 4096 * (A + j)) (hj : j < 1024) (hnone : s.leaf (A + j) = none)
    (htable : present (s.dirWord (A / 1024)) = true ∨ s.pmm.frames ≠ ∅) (n : Nat) :
    ∃ t, (growLoop h (n + 1) page).run s = (growLoop h n (page + PAGE_SIZE)).run t ∧
      MapPage s page (h.wrappedFrame j) h.flags true t := by
  obtain ⟨t, hrun, hmap⟩ := mapPage_wraps hw hs hpage hj hnone htable
  refine ⟨t, ?_, hmap⟩
  rw [growLoop, if_neg (hw.fits hpage hj), Prog.bind_ok (frameFor_wraps hw s hpage)]
  dsimp only
  rw [Prog.bind_ok hrun, if_pos rfl]

/-- The machine after `n` pages: one new table in frame `k`, with an entry for each page. -/
structure Wrapped (h : Heap) (A : Nat) (s : Machine) (k n : Nat) (t : Machine) : Prop where
  paged : t.Paged
  pmm : t.pmm = s.pmm.setUsed k
  slot : present (t.dirWord (A / 1024)) = true ∧ frameNo (t.dirWord (A / 1024)) = k
  dir : ∀ i, i < 1024 → i ≠ A / 1024 → t.dirWord i = s.dirWord i
  leaf : ∀ p, p < 1023 * 1024 →
    t.leaf p = if A ≤ p ∧ p < A + n then some (h.wrappedEntry (p - A)) else s.leaf p

/-- The first pass installs the table. -/
theorem wrapped_first (hw : h.Wraps A) (hs : s.Paged) {page : U32} (hpage : page.toNat = 4096 * A)
    (habs : present (s.dirWord (A / 1024)) = false) {k : Nat} (hk : k ∈ s.pmm.frames)
    (hmin : ∀ j, j < k → j ∉ s.pmm.frames)
    (hmap : MapPage s page (h.wrappedFrame 0) h.flags true t) : Wrapped h A s k 1 t := by
  have hbound := hw.bounds
  have hslot := hw.slot
  have hp : page.toNat / 4096 = A := by omega
  have haddr : page < TABLE_WINDOW := by
    rw [BitVec.lt_def, hpage, show TABLE_WINDOW.toNat = 4096 * (1023 * 1024) from rfl]
    omega
  have hdir : dirIndex page = A / 1024 := by rw [dirIndex_eq, hp]
  have hleaf : ∀ p, p < 1023 * 1024 → t.leaf p
      = if p = A then some (h.wrappedEntry 0) else s.leaf p := fun p hlt => by
    rw [hmap.leaf_done hs haddr hlt, hp]
    rfl
  obtain ⟨hpmm, hword, hdirs⟩ := hmap.fresh hs haddr (by rw [hdir]; exact habs) hk hmin
  obtain ⟨hframe, hpres, _⟩ :=
    tableEntry_bits (Pmm.toNat_addressOf (Pmm.lt_of_mem_frames hk)) page
  rw [← hword] at hframe hpres
  rw [hdir] at hframe hpres hdirs
  refine ⟨hmap.paged hs haddr, hpmm, ⟨hpres, hframe⟩, hdirs, fun p hlt => ?_⟩
  rw [hleaf p hlt]
  by_cases hpa : p = A
  · rw [if_pos hpa, if_pos (by omega), hpa, Nat.sub_self]
  · rw [if_neg hpa, if_neg (by omega)]

/-- Every further pass adds an entry. -/
theorem Wrapped.next (hw : h.Wraps A) {k n : Nat} (hu : Wrapped h A s k n u) (hn : n < 1024)
    {page : U32} (hpage : page.toNat = 4096 * (A + n))
    (hmap : MapPage u page (h.wrappedFrame n) h.flags true t) : Wrapped h A s k (n + 1) t := by
  have hbound := hw.bounds
  have hslot := hw.slot
  have hp : page.toNat / 4096 = A + n := by omega
  have haddr : page < TABLE_WINDOW := by
    rw [BitVec.lt_def, hpage, show TABLE_WINDOW.toNat = 4096 * (1023 * 1024) from rfl]
    omega
  have hdir : dirIndex page = A / 1024 := by
    rw [dirIndex_eq, hp]
    omega
  have hi := dirIndex_lt_of_lt haddr
  have hj := tableIndex_lt page
  have hleaf : ∀ p, p < 1023 * 1024 → t.leaf p
      = if p = A + n then some (h.wrappedEntry n) else u.leaf p := fun p hlt => by
    rw [hmap.leaf_done hu.paged haddr hlt, hp]
    rfl
  have hpaged := hmap.paged hu.paged haddr
  cases hmap with
  | done _ _ ht =>
    cases ht with
    | fresh l hp' =>
      rw [hdir, hu.slot.1] at hp'
      cases hp'
    | here hd =>
      have hword : ∀ i, i < 1024 → (u.setEntry (dirIndex page) (tableIndex page)
          (entryFor (h.wrappedFrame n) h.flags)).dirWord i = u.dirWord i := fun i hi' =>
        dirWord_setEntry _ hu.paged hi hd hj hi'
      refine ⟨hpaged, hu.pmm, ?_, fun i hi' hne => ?_, fun p hlt => ?_⟩
      · rw [hword _ (by omega)]
        exact hu.slot
      · rw [hword i hi', hu.dir i hi' hne]
      · rw [hleaf p hlt, hu.leaf p hlt]
        by_cases hpn : p = A + n
        · rw [if_pos hpn, if_pos (by omega), hpn, Nat.add_sub_cancel_left]
        · rw [if_neg hpn]
          by_cases hin : A ≤ p ∧ p < A + n
          · rw [if_pos hin, if_pos (by omega)]
          · rw [if_neg hin, if_neg (by omega)]

/-- The loop from page `n` on. -/
theorem growLoop_wraps_from (hw : h.Wraps A) {k : Nat}
    (hnone : ∀ p, A ≤ p → p < A + 1024 → s.leaf p = none) (m : Nat) : ∀ (n : Nat) (u : Machine),
    n + m ≤ 1024 → Wrapped h A s k n u → ∀ page : U32, page.toNat = 4096 * (A + n) →
    ∃ top t, (growLoop h m page).run u = .ok (top, t) ∧ top.toNat = 4096 * (A + (n + m)) ∧
      Wrapped h A s k (n + m) t := by
  have hbound := hw.bounds
  induction m with
  | zero =>
    intro n u _ hu page hpage
    exact ⟨page, u, rfl, hpage, hu⟩
  | succ m ih =>
    intro n u hle hu page hpage
    have hfree : u.leaf (A + n) = none := by
      rw [hu.leaf _ (by omega), if_neg (by omega)]
      exact hnone _ (by omega) (by omega)
    obtain ⟨t, hrun, hmap⟩ :=
      growLoop_wraps_pass hw hu.paged hpage (by omega) hfree (Or.inl hu.slot.1) m
    have hnext := hu.next hw (by omega) hpage hmap
    obtain ⟨top, t', hrun', htop, ht'⟩ := ih (n + 1) t (by omega) hnext (page + PAGE_SIZE) (by
      rw [BitVec.toNat_add, hpage, show PAGE_SIZE.toNat = 4096 from rfl]
      omega)
    rw [show n + (m + 1) = n + 1 + m from by omega]
    exact ⟨top, t', by rw [hrun, hrun'], htop, ht'⟩

/-- The loop of `grow` runs through the whole slot, past the end of the block. -/
theorem growLoop_wraps (hw : h.Wraps A) (hs : s.Paged)
    (hnone : ∀ p, A ≤ p → p < A + 1024 → s.leaf p = none)
    (habs : present (s.dirWord (A / 1024)) = false) {k : Nat} (hk : k ∈ s.pmm.frames)
    (hmin : ∀ j, j < k → j ∉ s.pmm.frames) {n : Nat} (hn : 1 ≤ n) (hle : n ≤ 1024) :
    ∃ top t, (growLoop h n h.base).run s = .ok (top, t) ∧ top.toNat = 4096 * (A + n) ∧
      Wrapped h A s k n t := by
  have hbound := hw.bounds
  obtain ⟨m, rfl⟩ : ∃ m, n = m + 1 := ⟨n - 1, by omega⟩
  obtain ⟨t, hrun, hmap⟩ := growLoop_wraps_pass hw hs (j := 0) hw.base (by omega)
    (hnone _ (by omega) (by omega)) (Or.inr (Finset.ne_empty_of_mem hk)) m
  have hfirst := wrapped_first hw hs hw.base habs hk hmin hmap
  obtain ⟨top, t', hrun', htop, ht'⟩ :=
    growLoop_wraps_from hw hnone m 1 t (by omega) hfirst (h.base + PAGE_SIZE) (by
      rw [BitVec.toNat_add, hw.base, show PAGE_SIZE.toNat = 4096 from rfl]
      omega)
  rw [Nat.add_comm m 1]
  exact ⟨top, t', by rw [Nat.add_comm 1 m, hrun, hrun'], htop, ht'⟩

/-! ## A heap of one block -/

section OneBlock

variable {w : ByteMem}

/-- The walks of an empty heap end at once. -/
theorem run_firstFit_empty (hbrk : h.brk = h.base) (hlt : h.base.toNat + 8 < 2 ^ 32) (need : U32)
    (s : Machine) : (h.firstFit need).run s = .ok (none, s) := by
  have hstop : ¬(h.base + HEADER ≤ h.brk) := by
    rw [hbrk, BitVec.le_def, BitVec.toNat_add, show HEADER.toNat = 8 from rfl]
    omega
  rw [firstFit, show PASSES = (2 ^ 32 - 1) + 1 from rfl, firstFitFrom, if_neg hstop, Prog.run_pure]

theorem run_lastBlock_empty (hlt : h.base.toNat + 8 < 2 ^ 32) (s : Machine) :
    (h.lastBlock h.base).run s = .ok (none, s) := by
  have hstop : ¬(h.base + HEADER ≤ h.base) := by
    rw [BitVec.le_def, BitVec.toNat_add, show HEADER.toNat = 8 from rfl]
    omega
  rw [lastBlock, show PASSES = (2 ^ 32 - 1) + 1 from rfl, lastFrom, if_neg hstop, Prog.run_pure]

/-- The search in a heap whose only block is free. -/
theorem run_firstFit_one (hbase : h.base.toNat = 4096 * A) (hv : View A (A + 1) w s) {b : Block}
    (hb : Header w h.base.toNat b) (hfree : b.used = false)
    (hbrk : h.brk.toNat = h.base.toNat + (8 + b.size)) (hlt : h.brk.toNat + 8 < 2 ^ 32) {need : U32}
    (hneed : need.toNat ≤ b.size) : (h.firstFit need).run s = .ok (some h.base, s) := by
  have hle := hv.owned.hi_le
  have hgo : h.base + HEADER ≤ h.brk := by
    rw [BitVec.le_def, BitVec.toNat_add, hbrk, show HEADER.toNat = 8 from rfl]
    omega
  have hnext : h.base + HEADER + BitVec.ofNat 32 b.size + HEADER > h.brk := by
    rw [gt_iff_lt, BitVec.lt_def, hbrk, BitVec.toNat_add, BitVec.toNat_add, BitVec.toNat_add,
      BitVec.toNat_ofNat, show HEADER.toNat = 8 from rfl]
    omega
  have hmerge : (mergeFrom h h.base PASSES (BitVec.ofNat 32 b.size)).run s
      = .ok (BitVec.ofNat 32 b.size, s) := by
    rw [show PASSES = (2 ^ 32 - 1) + 1 from rfl, mergeFrom]
    dsimp only
    rw [if_pos hnext, Prog.run_pure]
  rw [firstFit, show PASSES = (2 ^ 32 - 1) + 1 from rfl, firstFitFrom, if_pos hgo,
    Prog.bind_ok (run_sizeAt hv (by omega) (by omega) (by omega) hb),
    Prog.bind_ok (run_usedAt hv (by omega) (by omega) (by omega) hb), hfree,
    if_neg Bool.false_ne_true, Prog.bind_ok hmerge, if_pos ((ofNat_ge_iff (by omega)).mpr hneed),
    Prog.run_pure]

end OneBlock

/-! ## An allocation -/

theorem Wrapped.wrote {k n : Nat} (hu : Wrapped h A s k n u) (ho : u.Owned A (A + 1))
    (hwrote : Wrote A (A + 1) u t) : Wrapped h A s k n t := by
  have hsame := hwrote.sameTables ho
  refine ⟨hwrote.paged hu.paged ho, by rw [hwrote.pmm]; exact hu.pmm, ?_, fun i hi hne => ?_,
    fun p hlt => ?_⟩
  · rw [hsame.dirWord hu.paged (Nat.div_lt_of_lt_mul (by have := ho.hi_le; omega))]
    exact hu.slot
  · rw [hsame.dirWord hu.paged hi, hu.dir i hi hne]
  · rw [hsame.leaf hu.paged (by omega), hu.leaf p hlt]

/-- The first page of the range is the heap's own. -/
theorem Wrapped.owned (hw : h.Wraps A) {k n : Nat} (hu : Wrapped h A s k n u) (hn : 1 ≤ n)
    (hk : k ∈ s.pmm.frames) (hfree : h.physBase.toNat / 4096 ∉ s.pmm.frames)
    (htab : ¬s.IsTable (h.physBase.toNat / 4096)) : u.Owned A (A + 1) := by
  have hbound := hw.bounds
  have hlt := h.physBase.isLt
  have hframe : frameNo (h.wrappedEntry 0) = h.physBase.toNat / 4096 := by
    rw [frameNo_wrappedEntry hw]
    omega
  have hleaf : u.leaf A = some (h.wrappedEntry 0) := by
    rw [hu.leaf A (by omega), if_pos (by omega), Nat.sub_self]
  have hone : ∀ {q e}, A ≤ q → q < A + 1 → u.leaf q = some e →
      frameNo e = h.physBase.toNat / 4096 := by
    intro q e h1 h2 he
    rw [show q = A from by omega, hleaf] at he
    rw [← Option.some.inj he, hframe]
  refine ⟨by omega, fun p h1 h2 => ?_, fun h1 h2 h3 h4 _ _ _ => by omega, fun h1 h2 he => ?_,
    fun h1 h2 he => ?_⟩
  · rw [show p = A from by omega]
    exact ⟨_, hleaf, by rw [wrappedEntry, writable_entry, hw.flags]; decide⟩
  · rw [hone h1 h2 he]
    rintro ⟨i, hi, hp, hf⟩
    by_cases hia : i = A / 1024
    · rw [hia, hu.slot.2] at hf
      exact hfree (hf ▸ hk)
    · rw [hu.dir i hi hia] at hp hf
      exact htab ⟨i, hi, hp, hf⟩
  · rw [hone h1 h2 he, hu.pmm, Pmm.frames_setUsed]
    exact fun hm => hfree (Finset.mem_of_mem_erase hm)

/-- A store through a page of the range whose frame is the table of slot `i`. -/
theorem store32_wraps (hw : h.Wraps A) {N i j : Nat} (hN : N < 1024)
    (hleaf : t.leaf (A + N) = some (h.wrappedEntry N)) (ht : t.Paged)
    (hi : frameNo (t.dirWord i) = (h.physBase.toNat / 4096 + N) % 2 ^ 20) (hj : j < 1024)
    {v : U32} (hv : v.toNat = 4096 * (A + N) + 4 * j) (x : U32) :
    (Kfs.store32 v x).run t = .ok ((), t.setEntry i j x) := by
  have hbound := hw.bounds
  have hpage : v.toNat / 4096 = A + N := by omega
  have hdir := (present_of_leaf hleaf).1
  rw [store32_of_leaf x (by omega) (by rw [hpage]; exact hleaf) (by
    rw [hpage]
    exact ⟨ht.dirWritable _ (by omega) hdir, by
      rw [wrappedEntry, writable_entry, hw.flags]
      decide⟩), frameNo_wrappedEntry hw, ← hi, show v.toNat % 4096 = 4 * j from by omega]
  rfl

/-- The machine after an allocation of `N` pages whose remaining header went into the entries 2
and 3 of the table in slot `i`. -/
structure Strayed (h : Heap) (A : Nat) (s : Machine) (k N i : Nat) (t : Machine) : Prop where
  paged : t.Paged
  pmm : t.pmm = s.pmm.setUsed k
  slot : present (t.dirWord (A / 1024)) = true ∧ frameNo (t.dirWord (A / 1024)) = k
  dir : ∀ i, i < 1024 → i ≠ A / 1024 → t.dirWord i = s.dirWord i
  leaf : ∀ p, p < 1023 * 1024 → t.leaf p
    = if p = 1024 * i + 2 ∨ p = 1024 * i + 3 then none
      else if A ≤ p ∧ p < A + (N + 1) then some (h.wrappedEntry (p - A)) else s.leaf p

/-- The header of the rest, in a table. -/
theorem Wrapped.stray (hw : h.Wraps A) {k N : Nat} (hu : Wrapped h A s k (N + 1) u)
    (hN : N + 1 ≤ 1024) {i : Nat} (hi : i < 1023) (hp : present (u.dirWord i) = true)
    (hframe : frameNo (u.dirWord i) = (h.physBase.toNat / 4096 + N) % 2 ^ 20)
    (hne : A + N ≠ 1024 * i + 2) {w : ByteMem} (hview : View A (A + 1) w u) {v x : U32}
    (hv : v.toNat = 4096 * (A + N) + 8) (hx : present x = false) :
    ∃ t, (writeHeader v x false).run u = .ok ((), t) ∧ Strayed h A s k N i t ∧
      View A (A + 1) w t := by
  have hbound := hw.bounds
  have hslot := hw.slot
  have hs := hu.paged
  have hleaf : u.leaf (A + N) = some (h.wrappedEntry N) := by
    rw [hu.leaf _ (by omega), if_pos (by omega), Nat.add_sub_cancel_left]
  let u1 := u.setEntry i 2 x
  have hs1 : u1.Paged := hs.setEntry x hi hp (by decide)
  have hdir1 : ∀ {l}, l < 1024 → u1.dirWord l = u.dirWord l := fun hl =>
    dirWord_setEntry x hs hi hp (by decide) hl
  have hleaf1 : u1.leaf (A + N) = some (h.wrappedEntry N) := by
    rw [leaf_setEntry x hs hi hp (by decide) (by omega), if_neg hne, hleaf]
  have hp1 : present (u1.dirWord i) = true := by rw [hdir1 (by omega)]; exact hp
  have hrun1 := store32_wraps hw (j := 2) (by omega) hleaf hs hframe (by decide) (v := v)
    (by omega) x
  have hrun2 := store32_wraps hw (i := i) (j := 3) (by omega) hleaf1 hs1
    (by rw [hdir1 (by omega)]; exact hframe) (by decide) (v := v + 4) (by bv_omega) 0
  refine ⟨u1.setEntry i 3 0, ?_, ⟨hs1.setEntry 0 hi hp1 (by decide), hu.pmm, ?_, fun l hl hla => ?_,
    fun p hlt => ?_⟩, ?_⟩
  · rw [writeHeader, Prog.bind_ok hrun1]
    exact hrun2
  · rw [dirWord_setEntry 0 hs1 hi hp1 (by decide) (k := A / 1024) (by omega), hdir1 (by omega)]
    exact hu.slot
  · rw [dirWord_setEntry 0 hs1 hi hp1 (by decide) hl, hdir1 hl, hu.dir l hl hla]
  · rw [leaf_setEntry 0 hs1 hi hp1 (by decide) (by omega),
      leaf_setEntry x hs hi hp (by decide) (by omega), hx, ← hu.leaf p hlt]
    by_cases h3 : p = 1024 * i + 3
    · rw [if_pos h3, if_pos (Or.inr h3)]
      rfl
    · rw [if_neg h3]
      by_cases h2 : p = 1024 * i + 2
      · rw [if_pos h2, if_pos (Or.inl h2)]
        rfl
      · rw [if_neg h2, if_neg (by omega)]
  · exact (hview.setEntry x hi hp (by decide) (by omega)).setEntry 0 hi hp1 (by decide) (by omega)

/-- A block in use of `N` pages. -/
def pagesBlock (N : Nat) (hN : 1 ≤ N) : Block := ⟨4096 * N, true, by omega, by omega⟩

/-- What is left when the `N` pages are cut from `N + 1` pages. -/
theorem rest_of_cut {N : Nat} (hN : N + 1 ≤ 1024) {need : U32} (hneed : need.toNat = 4096 * N) :
    BitVec.ofNat 32 (4096 * (N + 1) - 8) ≥ need + HEADER + SMALLEST ∧
      BitVec.ofNat 32 (4096 * (N + 1) - 8) - need - HEADER = 4080 := by
  have hsize : (BitVec.ofNat 32 (4096 * (N + 1) - 8)).toNat = 4096 * (N + 1) - 8 := by
    rw [BitVec.toNat_ofNat]
    omega
  refine ⟨?_, ?_⟩
  · rw [ge_iff_le, BitVec.le_def, BitVec.toNat_add, BitVec.toNat_add, hneed, hsize,
      show HEADER.toNat = 8 from rfl]
    omega
  · apply BitVec.eq_of_toNat_eq
    rw [BitVec.toNat_sub, BitVec.toNat_sub, hneed, hsize, show HEADER.toNat = 8 from rfl,
      show (4080 : U32).toNat = 4080 from rfl]
    omega

/-- `take` of `N` pages from the block of `N + 1` pages. -/
theorem take_wraps (hw : h.Wraps A) {k N : Nat} (hu : Wrapped h A s k (N + 1) u) (hN1 : 1 ≤ N)
    (hN : N + 1 ≤ 1024) {w : ByteMem} (hview : View A (A + 1) w u) {b : Block}
    (hsize : b.size = 4096 * (N + 1) - 8) (hb : Header w h.base.toNat b) {i : Nat} (hi : i < 1023)
    (hne : A + N ≠ 1024 * i + 2)
    (htable : ∀ u, Wrapped h A s k (N + 1) u → present (u.dirWord i) = true ∧
      frameNo (u.dirWord i) = (h.physBase.toNat / 4096 + N) % 2 ^ 20)
    {need : U32} (hneed : need.toNat = 4096 * N) :
    ∃ t w', (take h.base need).run u = .ok (h.base + HEADER, t) ∧ Strayed h A s k N i t ∧
      View A (A + 1) w' t ∧ Header w' h.base.toNat (pagesBlock N hN1) := by
  have hbound := hw.bounds
  have hbase := hw.base
  obtain ⟨t1, hhead, hwrote, hview1⟩ := run_writeHeader hview h.base need true
    (by omega) (by omega) (by omega)
  have hwrap := hu.wrote hview.owned hwrote
  obtain ⟨hp, hframe⟩ := htable t1 hwrap
  have hrest : (h.base + HEADER + need).toNat = 4096 * (A + N) + 8 := by
    rw [BitVec.toNat_add, BitVec.toNat_add, hbase, hneed, show HEADER.toNat = 8 from rfl]
    omega
  obtain ⟨t2, hstray, hstrayed, hview2⟩ := hwrap.stray hw hN hi hp hframe hne hview1 hrest
    (x := 4080) (by decide)
  obtain ⟨hcut, hleft⟩ := rest_of_cut hN hneed
  have hround : need = BitVec.ofNat 32 (pagesBlock N hN1).size := by
    apply BitVec.eq_of_toNat_eq
    rw [hneed, BitVec.toNat_ofNat, show (pagesBlock N hN1).size = 4096 * N from rfl]
    omega
  refine ⟨t2, _, ?_, hstrayed, hview2, ?_⟩
  · rw [take, Prog.bind_ok (run_sizeAt hview (by omega) (by omega) (by omega) hb), hsize,
      if_pos hcut, Prog.bind_ok hhead, hleft, Prog.bind_ok hstray, Prog.run_pure]
  · rw [hround]
    exact header_putHeader _ _ (pagesBlock N hN1)

/-- A heap that is empty and has no page table yet.  Frame `k` is the next one to be taken, and the
first frame of the block is nobody else's. -/
structure Unused (h : Heap) (A : Nat) (s : Machine) (k : Nat) : Prop where
  wraps : h.Wraps A
  brk : h.brk = h.base
  paged : s.Paged
  unmapped : ∀ p, A ≤ p → p < A + 1024 → s.leaf p = none
  absent : present (s.dirWord (A / 1024)) = false
  free : k ∈ s.pmm.frames
  lowest : ∀ j, j < k → j ∉ s.pmm.frames
  spare : h.physBase.toNat / 4096 ∉ s.pmm.frames ∧ ¬s.IsTable (h.physBase.toNat / 4096)

/-- `n` pages in one block. -/
def lone (n : Nat) (hn : 1 ≤ n) (used : Bool) : Block := ⟨4096 * n - 8, used, by omega, by omega⟩

/-- The first growth makes one free block. -/
theorem grow_wraps {k : Nat} (hu : h.Unused A s k) {n : Nat} (hn : 1 ≤ n) (hle : n ≤ 1024)
    {pages : U32} (hpages : pages.toNat = n) :
    ∃ top t w, (h.grow pages).run s = .ok ((true, { h with brk := top }), t) ∧
      top.toNat = 4096 * (A + n) ∧ Wrapped h A s k n t ∧ View A (A + 1) w t ∧
      Header w h.base.toNat (lone n hn false) := by
  have hw := hu.wraps
  have hbound := hw.bounds
  have hbase := hw.base
  obtain ⟨top, t1, hloop, htop, hwrap⟩ :=
    growLoop_wraps hw hu.paged hu.unmapped hu.absent hu.free hu.lowest hn hle
  have hown := hwrap.owned hw hn hu.free hu.spare.1 hu.spare.2
  have hsize : (top - h.base) - HEADER = BitVec.ofNat 32 (lone n hn false).size := by
    apply BitVec.eq_of_toNat_eq
    rw [BitVec.toNat_ofNat, show (lone n hn false).size = 4096 * n - 8 from rfl]
    bv_omega
  obtain ⟨t, hhead, hwrote, hview⟩ := run_writeHeader (View.self hwrap.paged hown)
    h.base (BitVec.ofNat 32 (lone n hn false).size) false (by omega) (by omega) (by omega)
  have htail : (h.growTail h.base top).run t1 = .ok ((), t) := by
    rw [growTail, Prog.bind_ok (run_lastBlock_empty (h := h) (by omega) t1)]
    dsimp only
    rw [hsize]
    exact hhead
  have hmoved : ¬(top = h.base) := fun heq => by
    rw [heq] at htop
    omega
  refine ⟨top, t, _, ?_, htop, hwrap.wrote hown hwrote, hview,
    header_putHeader _ _ (lone n hn false)⟩
  rw [grow, hpages, hu.brk, Prog.bind_ok hloop, if_neg hmoved, Prog.bind_ok htail, Prog.run_pure]

/-- The first allocation, of `want` bytes on `n` pages, up to the point where a block is taken. -/
theorem alloc_takes {k : Nat} (hu : h.Unused A s k) {n : Nat} (hn : 1 ≤ n) (hle : n ≤ 1024)
    {want need : U32} (hpos : want ≠ 0) (hlimit : ¬want > h.limit - h.base - HEADER)
    (hneed : roundUp want = need) (hfits : need.toNat ≤ 4096 * n - 8)
    (hpages : ((need + HEADER + PAGE_SIZE - 1) / PAGE_SIZE).toNat = n) :
    ∃ top t w, top.toNat = 4096 * (A + n) ∧ Wrapped h A s k n t ∧ View A (A + 1) w t ∧
      Header w h.base.toNat (lone n hn false) ∧ ∀ {p u}, (take h.base need).run t = .ok (p, u) →
        (h.alloc want).run s = .ok ((p, { h with brk := top }), u) := by
  have hbound := hu.wraps.bounds
  have hbase := hu.wraps.base
  obtain ⟨top, t, w, hgrow, htop, hwrap, hview, hhead⟩ := grow_wraps hu hn hle hpages
  have hfit : (({ h with brk := top } : Heap).firstFit need).run t = .ok (some h.base, t) :=
    run_firstFit_one (h := { h with brk := top }) hbase hview hhead rfl
      (show top.toNat = h.base.toNat + (8 + (4096 * n - 8)) from by omega)
      (show top.toNat + 8 < 2 ^ 32 from by omega) hfits
  refine ⟨top, t, w, htop, hwrap, hview, hhead, fun htake => ?_⟩
  rw [alloc, if_neg hpos, if_neg hlimit]
  dsimp only
  rw [hneed, Prog.bind_ok (run_firstFit_empty hu.brk (by omega) _ s)]
  dsimp only
  rw [Prog.bind_ok hgrow]
  dsimp only
  rw [if_pos rfl, Prog.bind_ok hfit]
  dsimp only
  rw [Prog.bind_ok htake, Prog.run_pure]

/-- The first block is found without a look at its header. -/
theorem run_findBlock_first (hgo : h.base + HEADER ≤ h.brk) (s : Machine) :
    (h.findBlock (h.base + HEADER)).run s = .ok (some h.base, s) := by
  rw [findBlock, show PASSES = (2 ^ 32 - 1) + 1 from rfl, findFrom, if_pos hgo, if_pos rfl,
    Prog.run_pure]

/-- The size of the first block. -/
theorem size_first (hw : h.Wraps A) {w : ByteMem} {t : Machine} (hview : View A (A + 1) w t)
    {b : Block} (hb : Header w h.base.toNat b) (hbrk : 4096 * A + 8 ≤ h.brk.toNat) :
    (h.size (h.base + HEADER)).run t = .ok (BitVec.ofNat 32 b.size, t) := by
  have hbound := hw.bounds
  have hbase := hw.base
  have hpointer : (h.base + HEADER).toNat = 4096 * A + 8 := by
    rw [BitVec.toNat_add, hbase, show HEADER.toNat = 8 from rfl]
    omega
  have hzero : ¬(h.base + HEADER = 0) := fun hz => by
    rw [hz] at hpointer
    exact absurd hpointer (Nat.succ_ne_zero _).symm
  have hgo : h.base + HEADER ≤ h.brk := by
    rw [BitVec.le_def]
    omega
  rw [size, if_neg hzero, Prog.bind_ok (run_findBlock_first hgo t)]
  exact run_sizeAt hview (by omega) (by omega) (by omega) hb

/-- The first allocation, made by a client. -/
theorem step_first (hw : h.Wraps A) {want top : U32} {w : ByteMem} {t : Machine}
    (hrun : (h.alloc want).run s = .ok ((h.base + HEADER, { h with brk := top }), t))
    (hview : View A (A + 1) w t) {b : Block} (hb : Header w h.base.toNat b)
    (htop : 4096 * A + 8 ≤ top.toNat) :
    ((Call.alloc want).step ⟨h, []⟩).run s = .ok (⟨{ h with brk := top },
      [⟨h.base + HEADER, want, BitVec.ofNat 32 b.size⟩]⟩, t) := by
  have hbound := hw.bounds
  have hbase := hw.base
  have hzero : ¬(h.base + HEADER = 0) := fun hz => by
    have hnat := congrArg BitVec.toNat hz
    rw [BitVec.toNat_add, hbase, show HEADER.toNat = 8 from rfl, show (0 : U32).toNat = 0 from rfl]
      at hnat
    omega
  have hsize := size_first (h := { h with brk := top }) (hw.withBrk top) hview hb htop
  rw [Call.step, Prog.bind_ok hrun]
  dsimp only
  rw [if_neg hzero, Prog.bind_ok hsize, Prog.run_pure]

/-- `alloc` of `N` pages from an empty heap, when the frame that page `N` of the range wraps to is
the table of slot `i`: the header of the rest overwrites two of its entries. -/
theorem Call.step_wraps {k : Nat} (hu : h.Unused A s k) {N : Nat} (hN1 : 1 ≤ N) (hN : N + 1 ≤ 1024)
    {i : Nat} (hi : i < 1023) (hne : A + N ≠ 1024 * i + 2)
    (htable : ∀ u, Wrapped h A s k (N + 1) u → present (u.dirWord i) = true ∧
      frameNo (u.dirWord i) = (h.physBase.toNat / 4096 + N) % 2 ^ 20) :
    ∃ top t, ((Call.alloc (BitVec.ofNat 32 (4096 * N))).step ⟨h, []⟩).run s
        = .ok (⟨{ h with brk := top },
            [⟨h.base + HEADER, BitVec.ofNat 32 (4096 * N), BitVec.ofNat 32 (4096 * N)⟩]⟩, t) ∧
      top.toNat = 4096 * (A + (N + 1)) ∧ Strayed h A s k N i t := by
  have hw := hu.wraps
  have hbound := hw.bounds
  have hbase := hw.base
  have hroom := hw.room
  have hwant : (BitVec.ofNat 32 (4096 * N)).toNat = 4096 * N := by
    rw [BitVec.toNat_ofNat]
    omega
  have hzero : BitVec.ofNat 32 (4096 * N) ≠ 0 := fun hz => by
    have := congrArg BitVec.toNat hz
    rw [hwant, show (0 : U32).toNat = 0 from rfl] at this
    omega
  have hsmall : ¬(BitVec.ofNat 32 (4096 * N) > h.limit - h.base - HEADER) := by bv_omega
  have hneed : (roundUp (BitVec.ofNat 32 (4096 * N))).toNat = 4096 * N := by
    rw [toNat_roundUp (by omega), hwant]
    omega
  have hpages : ((roundUp (BitVec.ofNat 32 (4096 * N)) + HEADER + PAGE_SIZE - 1) / PAGE_SIZE).toNat
      = N + 1 := by
    have hsum : (roundUp (BitVec.ofNat 32 (4096 * N)) + HEADER + PAGE_SIZE - 1).toNat
        = 4096 * N + 4103 := by bv_omega
    rw [BitVec.toNat_udiv, show PAGE_SIZE.toNat = 4096 from rfl, hsum]
    omega
  obtain ⟨top, t1, w1, htop, hwrap, hview1, hhead1, halloc⟩ :=
    alloc_takes hu (by omega) hN hzero hsmall rfl (by omega) hpages
  -- the block is found and cut
  obtain ⟨t, w, htake, hstrayed, hview, hhead⟩ :=
    take_wraps hw hwrap hN1 hN hview1 rfl hhead1 hi hne htable hneed
  exact ⟨top, t, step_first hw (halloc htake) hview hhead (by omega), htop, hstrayed⟩

end Kfs.Heap
