import Kfs.System.Top

/-!
# Who owns a frame

The frames that `TOTAL` counts are the ones that `pmm::init` marked.  At every moment each of them
is of one `Class`: free, reserved at boot, part of the window of the kernel's heap, a page table,
or behind one page of the virtual heap or of user space.

The frames that boot left free are a pool.  `Heaps.Inv.pool` says that a frame of the pool is free
again, a table that `get_page` installed, or behind a page, and that nothing else is; with it every
frame has its class.
-/

namespace Kfs

open Lib Mem Paging Machine

/-! ## The classes -/

inductive Class where
  | free
  | reserved
  | window
  | table
  | page
  deriving DecidableEq, Repr

/-- Slot `i` of the directory holds a table that `get_page` installed in frame `k`.  The slots 0,
768 and 1023 are those of `boot.asm` and `paging::init`. -/
def Machine.Installed (s : Machine) (i k : Nat) : Prop :=
  (i < 1024 ∧ i ≠ 0 ∧ i ≠ 768 ∧ i ≠ 1023) ∧ present (s.dirWord i) = true ∧
    frameNo (s.dirWord i) = k

/-- Page `p` of the virtual heap, the demand zone or the `user` command is mapped to frame `k`. -/
def Machine.Maps (s : Machine) (p k : Nat) : Prop :=
  (p ∈ virtualPages ∨ p ∈ userPages) ∧ ∃ e, s.leaf p = some e ∧ frameNo e = k

/-- Frame `k` is of the class, with the layout `L` of the image and the window of the kernel's
heap. -/
def Class.Has (L : Layout) (window : U32 × U32) (s : Machine) (k : Nat) : Class → Prop
  | .free => s.pmm.freeBit k = true
  | .reserved => Pmm.Touches 0 BIOS_END.toNat k ∨
      Pmm.Touches loadPhys.toNat (kernelPhys L.image.finish).toNat k
  | .window => window.1.toNat ≤ 4096 * k ∧ 4096 * k + 4096 ≤ window.2.toNat
  | .table => ∃! i, s.Installed i k
  | .page => ∃! p, s.Maps p k

/-- Every frame that `TOTAL` counts has one class, and the counters agree with the bitmap. -/
structure Accounted (L : Layout) (ram : Multiboot.Ram) (window : U32 × U32) (s : Machine) :
    Prop where
  one_class : ∀ k, (Pmm.zero.init ram).freeBit k = true → ∃! c, Class.Has L window s k c
  one_table : ∀ {i j k}, s.Installed i k → s.Installed j k → i = j
  one_page : ∀ {p q k}, s.Maps p k → s.Maps q k → p = q
  total : s.pmm.totalFrames.toNat = (Pmm.zero.init ram).frames.card
  free_le : s.pmm.freeFrames ≤ s.pmm.totalFrames
  used : s.pmm.usedFrames.toNat = s.pmm.totalFrames.toNat - s.pmm.freeFrames.toNat

/-! ## The pool -/

theorem Machine.Maps.behind {s : Machine} {p k : Nat} (h : s.Maps p k) :
    s.Behind virtualPages k ∨ s.Behind userPages k := by
  obtain ⟨hp, e, he, hk⟩ := h
  rcases hp with hp | hp
  · exact Or.inl ⟨p, hp, by rw [mem_virtualPages] at hp; omega, e, he, hk⟩
  · exact Or.inr ⟨p, hp, by rw [mem_userPages] at hp; omega, e, he, hk⟩

namespace Heaps.Inv

variable {L : Layout} {ram : Multiboot.Ram} {s0 s : Machine} {window : U32 × U32} {hs0 hs : Heaps}
  {bk bv : List Block}

/-- A table of the image is one since boot. -/
theorem boot_table (hi : hs.Inv s0 window s bk bv) {k : Nat} (hk : s0.IsTable k) : s.IsTable k := by
  obtain ⟨i, hlt, hp, rfl⟩ := hk
  have hdir := hi.confined.dir i hlt hp
  exact ⟨i, hlt, by rw [hdir]; exact hp, by rw [hdir]⟩

/-- A frame that is free or in use by the system now was free after boot. -/
theorem of_pool (hi : hs.Inv s0 window s bk bv) (h0 : Started L ram hs0 s0 window) {k : Nat}
    (hmine : s.Mine (kernelPages ∪ virtualPages ∪ userPages) (windowFrames window) k)
    (htab : ¬s0.IsTable k) (hwin : k ∉ windowFrames window) : k ∈ s0.pmm.frames := by
  rcases (hi.confined.mine k).mp hmine with h | h | h | h
  · exact h
  · exact absurd h htab
  · exact absurd h hwin
  · exact absurd h (h0.not_behind fun _ hp => hp)

/-- The frames that boot left free: each is free again, a table that `get_page` installed, or
behind a page. -/
theorem pool (hi : hs.Inv s0 window s bk bv) (h0 : Started L ram hs0 s0 window) (k : Nat) :
    k ∈ s0.pmm.frames ↔ k ∈ s.pmm.frames ∨ (∃ i, s.Installed i k) ∨ ∃ p, s.Maps p k := by
  have hpaged := hi.kernel.inv.paged
  have hspare : k ∈ windowFrames window → k ∉ s.pmm.frames ∧ ¬s.IsTable k := fun hk =>
    hi.kernel.inv.spare k (by rw [hi.kernel_window]; exact hk)
  constructor
  · intro hk
    rcases (hi.confined.mine k).mpr (Or.inl hk) with
      h | ⟨i, hlt, hp, hi'⟩ | h | ⟨p, hp, _, e, he, hk'⟩
    · exact Or.inl h
    · -- the slots of boot hold tables of the image, which were not free
      refine Or.inr (Or.inl ⟨i, ⟨hlt, ?_⟩, hp, hi'⟩)
      by_contra hslot
      refine h0.paged.tablesUsed k ?_ hk
      have hboot : present (s0.dirWord i) = true := by
        have hcase : i = 0 ∨ i = 768 ∨ i = 1023 := by omega
        rcases hcase with rfl | rfl | rfl
        · exact (entry_bits h0.tables.dirLow).2.1
        · exact (entry_bits h0.tables.dirKernel).2.1
        · exact (entry_bits h0.tables.dirSelf).2.1
      exact ⟨i, hlt, hboot, by rw [← hi.confined.dir i hlt hboot]; exact hi'⟩
    · exact absurd hk (h0.window_spare h).1
    · rcases hp with (hp | hp) | hp
      · have hbehind : s.Behind kernelPages k :=
          ⟨p, hp, by rw [mem_kernelPages] at hp; omega, e, he, hk'⟩
        exact absurd hk (h0.window_spare (hi.behind_kernel hbehind)).1
      · exact Or.inr (Or.inr ⟨p, Or.inl hp, e, he, hk'⟩)
      · exact Or.inr (Or.inr ⟨p, Or.inr hp, e, he, hk'⟩)
  · rintro (hk | ⟨i, hslot, hp, hi'⟩ | ⟨p, hp⟩)
    · exact hi.of_pool h0 (Or.inl hk) (fun ht => hpaged.tablesUsed k (hi.boot_table ht) hk)
        fun hw => (hspare hw).1 hk
    · have htab : s.IsTable k := ⟨i, hslot.1, hp, hi'⟩
      refine hi.of_pool h0 (Or.inr (Or.inl htab)) (fun ht => ?_) fun hw => (hspare hw).2 htab
      obtain ⟨j, hj, hpj, hkj⟩ := ht
      have hdir := hi.confined.dir j hj hpj
      have hij := hpaged.tablesInj i j hslot.1 hj hp (by rw [hdir]; exact hpj)
        (by rw [hi', hdir, hkj])
      have := h0.tables.slot hj hpj
      omega
    · have hnot : ¬s.IsTable k ∧ k ∉ windowFrames window := by
        rcases hp.behind with hb | hb
        · exact ⟨(hi.held_virtual.not_of_behind hb).2, hi.virtual_window k hb⟩
        · exact ⟨(hi.user.not_of_behind hb).2, hi.user_window k hb⟩
      obtain ⟨hpp, e, he, hk⟩ := hp
      refine hi.of_pool h0 (Or.inr (Or.inr (Or.inr ⟨p, ?_, ?_, e, he, hk⟩)))
        (fun ht => hnot.1 (hi.boot_table ht)) hnot.2
      · rcases hpp with h | h
        · exact Or.inl (Or.inr h)
        · exact Or.inr h
      · rcases hpp with h | h
        · rw [mem_virtualPages] at h
          omega
        · rw [mem_userPages] at h
          omega

/-! ## One class for each frame -/

theorem one_table (hi : hs.Inv s0 window s bk bv) {i j k : Nat} (h : s.Installed i k)
    (h' : s.Installed j k) : i = j :=
  hi.kernel.inv.paged.tablesInj i j h.1.1 h'.1.1 h.2.1 h'.2.1 (by rw [h.2.2, h'.2.2])

theorem one_page (hi : hs.Inv s0 window s bk bv) {p q k : Nat} (h : s.Maps p k)
    (h' : s.Maps q k) : p = q := by
  obtain ⟨hp, e, he, hk⟩ := h
  obtain ⟨hq, e', he', hk'⟩ := h'
  have hsame : frameNo e = frameNo e' := hk.trans hk'.symm
  rcases hp with hp | hp <;> rcases hq with hq | hq
  · exact hi.held_virtual.inj hp hq he he' hsame
  · exact absurd (hi.held_virtual.behind hp he) (by
      rw [hsame]
      exact hi.user_apart _ (hi.user.behind hq he'))
  · exact absurd (hi.held_virtual.behind hq he') (by
      rw [← hsame]
      exact hi.user_apart _ (hi.user.behind hp he))
  · exact hi.user.inj hp hq he he' hsame

/-- A frame behind a page is not free and not a table. -/
theorem maps_used (hi : hs.Inv s0 window s bk bv) {p k : Nat} (h : s.Maps p k) :
    k ∉ s.pmm.frames ∧ ¬s.IsTable k := by
  rcases h.behind with hb | hb
  · exact hi.held_virtual.not_of_behind hb
  · exact hi.user.not_of_behind hb

/-- The class of a frame of the pool. -/
theorem class_pool (hi : hs.Inv s0 window s bk bv) (h0 : Started L ram hs0 s0 window) {k : Nat}
    (hk : k ∈ s0.pmm.frames) (hres : ¬Class.Has L window s k .reserved)
    (hwin : ¬Class.Has L window s k .window) : ∃! c, Class.Has L window s k c := by
  have hpaged := hi.kernel.inv.paged
  have htable : ∀ {i}, s.Installed i k → s.IsTable k := fun h => ⟨_, h.1.1, h.2.1, h.2.2⟩
  rcases (hi.pool h0 k).mp hk with hfree | ⟨i, hins⟩ | ⟨p, hmap⟩
  · refine ⟨.free, Pmm.mem_frames.mp hfree, fun c hc => ?_⟩
    cases c with
    | free => rfl
    | reserved => exact absurd hc hres
    | window => exact absurd hc hwin
    | table =>
      obtain ⟨i, hins, _⟩ := hc
      exact absurd hfree (hpaged.tablesUsed k (htable hins))
    | page =>
      obtain ⟨p, hmap, _⟩ := hc
      exact absurd hfree (hi.maps_used hmap).1
  · refine ⟨.table, ⟨i, hins, fun j hj => hi.one_table hj hins⟩, fun c hc => ?_⟩
    cases c with
    | free => exact absurd (Pmm.mem_frames.mpr hc) (hpaged.tablesUsed k (htable hins))
    | reserved => exact absurd hc hres
    | window => exact absurd hc hwin
    | table => rfl
    | page =>
      obtain ⟨p, hmap, _⟩ := hc
      exact absurd (htable hins) (hi.maps_used hmap).2
  · refine ⟨.page, ⟨p, hmap, fun q hq => hi.one_page hq hmap⟩, fun c hc => ?_⟩
    cases c with
    | free => exact absurd (Pmm.mem_frames.mpr hc) (hi.maps_used hmap).1
    | reserved => exact absurd hc hres
    | window => exact absurd hc hwin
    | table =>
      obtain ⟨i, hins, _⟩ := hc
      exact absurd (htable hins) (hi.maps_used hmap).2
    | page => rfl

/-- The class of a frame that was taken at boot. -/
theorem class_boot (hi : hs.Inv s0 window s bk bv) (h0 : Started L ram hs0 s0 window) {k : Nat}
    (hk : k ∉ s0.pmm.frames) {c : Class} (hc : Class.Has L window s k c)
    (hboot : c = .reserved ∨ c = .window)
    (hapart : ¬(Class.Has L window s k .reserved ∧ Class.Has L window s k .window)) :
    ∃! c, Class.Has L window s k c := by
  have hnot : k ∉ s.pmm.frames ∧ (∀ i, ¬s.Installed i k) ∧ ∀ p, ¬s.Maps p k :=
    ⟨fun h => hk ((hi.pool h0 k).mpr (Or.inl h)),
      fun i h => hk ((hi.pool h0 k).mpr (Or.inr (Or.inl ⟨i, h⟩))),
      fun p h => hk ((hi.pool h0 k).mpr (Or.inr (Or.inr ⟨p, h⟩)))⟩
  refine ⟨c, hc, fun c' hc' => ?_⟩
  cases c' with
  | free => exact absurd (Pmm.mem_frames.mpr hc') hnot.1
  | table =>
    obtain ⟨i, hins, _⟩ := hc'
    exact absurd hins (hnot.2.1 i)
  | page =>
    obtain ⟨p, hmap, _⟩ := hc'
    exact absurd hmap (hnot.2.2 p)
  | reserved =>
    rcases hboot with rfl | rfl
    · rfl
    · exact absurd ⟨hc', hc⟩ hapart
  | window =>
    rcases hboot with rfl | rfl
    · exact absurd ⟨hc, hc'⟩ hapart
    · rfl

theorem one_class (hi : hs.Inv s0 window s bk bv) (h0 : Started L ram hs0 s0 window) {k : Nat}
    (hk : (Pmm.zero.init ram).freeBit k = true) : ∃! c, Class.Has L window s k c := by
  obtain ⟨b, n, hb⟩ := h0.block
  have hstart := hb.start
  have hfinish := hb.finish
  have hmarked : k ∈ Pmm.marked ram.regions := by
    have := Pmm.mem_frames.mpr hk
    rwa [Pmm.frames_init, Pmm.frames_zero, Finset.empty_union] at this
  have hpool : k ∈ s0.pmm.frames ↔ ¬Class.Has L window s k .reserved ∧
      ¬Class.Has L window s k .window := by
    rw [h0.pmm, Pmm.mem_bootCarve h0.fits.imageFits, h0.carved]
    simp only [Option.some.injEq, forall_eq', Class.Has, not_or, Pmm.Touches, hmarked, true_and,
      hstart, hfinish]
    omega
  have hapart : ¬(Class.Has L window s k .reserved ∧ Class.Has L window s k .window) := by
    rintro ⟨hres, hlo, hhi⟩
    have hfree := (Pmm.mem_bootReserve h0.fits.imageFits).mp (hb.run k (by omega) (by omega))
    rcases hres with h | h
    · exact hfree.2.1 h
    · exact hfree.2.2 h
  by_cases hres : Class.Has L window s k .reserved
  · exact hi.class_boot h0 (fun h => (hpool.mp h).1 hres) hres (Or.inl rfl) hapart
  · by_cases hwin : Class.Has L window s k .window
    · exact hi.class_boot h0 (fun h => (hpool.mp h).2 hwin) hwin (Or.inr rfl) hapart
    · exact hi.class_pool h0 (hpool.mpr ⟨hres, hwin⟩) hres hwin

theorem accounted (hi : hs.Inv s0 window s bk bv) (h0 : Started L ram hs0 s0 window) :
    Accounted L ram window s := by
  have hcount0 : s0.pmm.Counted := by
    rw [h0.pmm]
    exact (Pmm.bootReserve_counted ram _ _).carve _
  have hcount : s.pmm.Counted := hi.confined.counted hcount0
  have hmarked : (Pmm.zero.init ram).frames = Pmm.marked ram.regions := by
    rw [Pmm.frames_init, Pmm.frames_zero, Finset.empty_union]
  have htotal : s.pmm.total.toNat = (Pmm.zero.init ram).frames.card := by
    rw [hi.confined.total, h0.pmm, Pmm.bootCarve, Pmm.total_carve, hmarked]
    exact Pmm.bootReserve_total ram _ _
  -- a free frame is one of the pool, and the pool is part of what was marked
  have hsub : s.pmm.frames ⊆ (Pmm.zero.init ram).frames := by
    intro k hk
    have hpool := (hi.pool h0 k).mpr (Or.inl hk)
    rw [h0.pmm, Pmm.mem_bootCarve h0.fits.imageFits] at hpool
    rw [hmarked]
    exact hpool.1
  have hle : s.pmm.freeFrames ≤ s.pmm.totalFrames := by
    show s.pmm.available.toNat ≤ s.pmm.total.toNat
    rw [hcount, htotal]
    exact Finset.card_le_card hsub
  refine ⟨fun k hk => hi.one_class h0 hk, hi.one_table, hi.one_page, htotal, hle, ?_⟩
  exact BitVec.toNat_sub_of_le hle

end Heaps.Inv

/-- From boot on, whatever the kernel does, every frame that `TOTAL` counts has exactly one owner,
and the counters never wrap.  The growth of the kernel's heap must not wrap around. -/
theorem frames_owned {L : Layout} {ram : Multiboot.Ram} {hs : Heaps} {s : Machine}
    (hb : Booted L ram hs s) (hw : hs.NoWrap) (ops : List Op) :
    ∃ hs' t, (runOps hs ops).run s = .ok (hs', t) ∧
      Accounted L ram (hs.kernel.heap.physBase, hs.kernel.heap.physEnd) t := by
  obtain ⟨window, h0⟩ := hb.start
  obtain ⟨hs', t, hrun, bk, bv, hi⟩ := (h0.inv hw).run ops
  have hwin : (hs.kernel.heap.physBase, hs.kernel.heap.physEnd) = window := by
    rw [h0.heaps]
    rfl
  exact ⟨hs', t, hrun, by rw [hwin]; exact hi.accounted h0⟩

theorem frames_owned_plain : ∃ hs s, Booted smallLayout (Multiboot.ramOf plainEntries) hs s ∧
    hs.NoWrap ∧ ∃ hs' t, (runOps hs [.vmalloc 100, .fault 0x802000 0, .kbrk 5000, .user]).run s
      = .ok (hs', t) ∧ Accounted smallLayout (Multiboot.ramOf plainEntries)
        (hs.kernel.heap.physBase, hs.kernel.heap.physEnd) t := by
  obtain ⟨hs, s, hb, hend⟩ := exists_booted_plain
  exact ⟨hs, s, hb, Or.inl hend, frames_owned hb (Or.inl hend) _⟩

/-- Where the growth wraps around, a demand page loses its entry, and its frame has no owner. -/
theorem frames_lost_top : ∃ s,
    Booted smallLayout (Multiboot.ramOf topEntries) (heapInit topWindow) s ∧
    ∃ hs' t, (runOps (heapInit topWindow) [.fault 0x802000 0, .kmalloc 0x212000]).run s
        = .ok (hs', t) ∧ ¬Accounted smallLayout (Multiboot.ramOf topEntries) topWindow t := by
  obtain ⟨s, hb, hframes⟩ := exists_booted_top
  obtain ⟨h0, htop⟩ := hb.atTop hframes
  obtain ⟨b, u, hfault, hu⟩ := handleFault_top h0 hframes htop
  obtain ⟨c, t, hrun, hheap, _, hbrk, ht⟩ := hu.atTop.alloc (N := 530) (i := 2) (by decide)
    (by decide) (by decide) (by decide) (Or.inr ⟨by decide, hu.table⟩)
  have hstep1 : ((Op.fault 0x802000 0).step (heapInit topWindow)).run s
      = .ok (heapInit topWindow, u) := by
    rw [Op.step, Prog.bind_ok hfault, Prog.run_pure]
  have hstep2 : ((Op.kmalloc 0x212000).step (heapInit topWindow)).run u
      = .ok ({ heapInit topWindow with kernel := c }, t) := by
    rw [show (0x212000 : U32) = BitVec.ofNat 32 (4096 * 530) from rfl, Op.kmalloc, Op.step,
      Prog.bind_ok hrun, Prog.run_pure]
  refine ⟨s, hb, { heapInit topWindow with kernel := c }, t, ?_, fun hacc => ?_⟩
  · rw [runOps, List.foldlM_cons, Prog.bind_ok hstep1, List.foldlM_cons, Prog.bind_ok hstep2]
    rfl
  have hmarked : 0x200 ∈ s.pmm.frames := by
    rw [hframes]
    decide
  rw [h0.pmm, Pmm.mem_bootCarve h0.fits.imageFits] at hmarked
  obtain ⟨k, hk, _⟩ := hacc.one_class 0x200 (by
    rw [← Pmm.mem_frames, Pmm.frames_init, Pmm.frames_zero, Finset.empty_union]
    exact hmarked.1)
  cases k with
  | free =>
    rw [Class.Has, ← Pmm.mem_frames, ht.pmm, Pmm.frames_setUsed, hu.frames] at hk
    exact absurd hk (by decide)
  | reserved =>
    rcases hk with h | h
    · exact hmarked.2.1 h
    · exact hmarked.2.2.1 h
  | window => exact absurd hk.1 (by decide)
  | table =>
    obtain ⟨i, ⟨hi, hp, hf⟩, _⟩ := hk
    by_cases h832 : i = 832
    · rw [h832, ht.slot.2] at hf
      cases hf
    by_cases h2 : i = 2
    · rw [h2, ht.dir 2 (by decide) (by decide), hu.table.2] at hf
      cases hf
    · rw [ht.dir i hi.1 h832, hu.dir i hi.1 h2] at hp
      have := h0.tables.slot hi.1 hp
      omega
  | page =>
    obtain ⟨p, ⟨hp, e, he, _⟩, _⟩ := hk
    have hrange : 0xE0000 ≤ p ∧ p < 0xF0000 ∨ p < 0x1000 := by
      rw [mem_virtualPages, mem_userPages] at hp
      omega
    have hnone : s.leaf p = none := h0.unmapped (by
      rcases hp with hp | hp
      · exact Or.inl (Or.inr hp)
      · exact Or.inr hp)
    rw [ht.leaf p (by omega)] at he
    split at he
    · cases he
    · rw [if_neg (by omega), hu.leaf p (by omega) (by omega), hnone] at he
      cases he

end Kfs
