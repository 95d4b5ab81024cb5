import Kfs.Heap.Few
import Kfs.Shell.Inspect

/-!
# The self-test of the allocators

`cmd_alloc` makes fourteen checks.  Most of them can only fail if an allocator is wrong, and in the
running kernel they never do: `selfTest_run` says that the command ends well, or with a complaint
about a heap that cannot get another page, and which blocks it leaves behind.
-/

namespace Kfs.Shell

open Lib Mem Paging Machine Multiboot

variable {B : Build} {ram : Ram} {hs : Heaps} {s : Sys} {side : Side} {a : Heap.Live}

/-! ## Bytes of a block -/

section

variable {m : Machine} (h : m.Alive B ram hs) (ha : a ∈ (hs.of side).live)
include h ha

/-- Address `i` of a payload. -/
theorem holds_add {i : Nat} (hi : i < a.size.toNat) :
    (a.pointer + BitVec.ofNat 32 i).toNat = a.pointer.toNat + i ∧
      a.Holds (a.pointer + BitVec.ofNat 32 i) := by
  obtain ⟨bs, hok, _⟩ := h.ready side
  obtain ⟨_, hle⟩ := hok.bounds ha
  have hlt := (hs.of side).heap.brk.isLt
  have hadd : (a.pointer + BitVec.ofNat 32 i).toNat = a.pointer.toNat + i := by
    rw [BitVec.toNat_add, BitVec.toNat_ofNat]
    omega
  exact ⟨hadd, by omega, by omega⟩

theorem patternWrite_run {n : Nat} (hn : n ≤ a.size.toNat) :
    ∃ m', (patternWrite a.pointer 0 n).run m = .ok ((), m') ∧ m'.Alive B ram hs ∧ m.SameZone m' ∧
      ∀ i, i < n → m'.virt (a.pointer + BitVec.ofNat 32 i).toNat = BitVec.ofNat 8 i := by
  -- before pass `i` the first `i` bytes are written
  have hpass : ∀ i m', 0 ≤ i → i < 0 + n → (m'.Alive B ram hs ∧ m.SameZone m' ∧
        ∀ j, j < i → m'.virt (a.pointer + BitVec.ofNat 32 j).toNat = BitVec.ofNat 8 j) →
      ∃ m'', (store8 (a.pointer + BitVec.ofNat 32 i) (BitVec.ofNat 8 i)).run m' = .ok ((), m'') ∧
        m''.Alive B ram hs ∧ m.SameZone m'' ∧
        ∀ j, j < i + 1 → m''.virt (a.pointer + BitVec.ofNat 32 j).toNat = BitVec.ofNat 8 j := by
    rintro i m' _ hi ⟨halive, hzone, hbytes⟩
    obtain ⟨hadd, hholds⟩ := holds_add halive ha (i := i) (by omega)
    obtain ⟨m'', hrun, halive', hzone', hvirt⟩ := halive.payload_store ha hholds (BitVec.ofNat 8 i)
    refine ⟨m'', hrun, halive', hzone.trans hzone', fun j hj => ?_⟩
    obtain ⟨hadd', hholds'⟩ := holds_add halive ha (i := j) (by omega)
    rw [hvirt _ hholds']
    by_cases hij : j = i
    · rw [if_pos (by rw [hij]), hij]
    · rw [if_neg (fun heq => hij (by have := congrArg BitVec.toNat heq; omega))]
      exact hbytes j (by omega)
  obtain ⟨m', hrun, halive, hzone, hbytes⟩ := Prog.forRange_inv n 0 m hpass
    ⟨h, .refl m, fun j hj => absurd hj (Nat.not_lt_zero j)⟩
  rw [Nat.zero_add] at hbytes
  exact ⟨m', hrun, halive, hzone, hbytes⟩

theorem patternRead_run (n : Nat) : ∀ i, i + n ≤ a.size.toNat →
    (∀ j, i ≤ j → j < i + n →
      m.virt (a.pointer + BitVec.ofNat 32 j).toNat = BitVec.ofNat 8 j) →
    (patternRead a.pointer i n).run m = .ok (true, m) := by
  induction n with
  | zero => exact fun _ _ _ => rfl
  | succ n ih =>
    intro i hi hbytes
    have hload := h.payload_load ha (holds_add h ha (i := i) (by omega)).2
    rw [hbytes i (Nat.le_refl i) (by omega)] at hload
    rw [patternRead, Prog.bind_ok hload, if_neg (not_not.mpr rfl)]
    exact ih (i + 1) (by omega) fun j h1 h2 => hbytes j (by omega) (by omega)

end

/-- A block holds what is written to it. -/
theorem pattern_run (h : s.Ok B ram hs) (ha : a ∈ (hs.of side).live) {n : Nat}
    (hn : n ≤ a.size.toNat) :
    ∃ t, (pattern a.pointer n).run s = .ok (true, t) ∧ s.Step B ram hs t := by
  obtain ⟨m, hwrite, halive, hzone, hbytes⟩ := patternWrite_run h.live.machine ha hn
  have hread := patternRead_run halive ha n 0 (by omega) fun j _ hj => hbytes j (by omega)
  obtain ⟨t, hrun, hstep, _⟩ := h.call (k := do
    patternWrite a.pointer 0 n
    patternRead a.pointer 0 n) ((Prog.bind_ok hwrite).trans hread) halive hzone
  exact ⟨t, hrun, hstep⟩

theorem sizeOf_run (h : s.Ok B ram hs) (ha : a ∈ (hs.of side).live) :
    ∃ t, (sizeOf side a.pointer).run s = .ok (a.size, t) ∧ s.Step B ram hs t := by
  have hrun := (h.live.machine.size_run ha).1
  rw [← h.heaps side] at hrun
  obtain ⟨t, hcall, hstep, _⟩ := h.read hrun
  exact ⟨t, by rw [sizeOf, Prog.bind_ok (Prog.run_gets _ _), id, hcall], hstep⟩

theorem stats_run (h : s.Ok B ram hs) (side : Side) :
    ∃ st t, (stats side).run s = .ok (st, t) ∧ s.Step B ram hs t ∧
      (hs.of side).Ledger s.world.machine st ∧ t.world.machine = s.world.machine := by
  obtain ⟨st, hrun, hledger⟩ := h.live.machine.stats_run side
  rw [← h.heaps side] at hrun
  obtain ⟨t, hcall, hstep, hm⟩ := h.read hrun
  exact ⟨st, t, by rw [stats, Prog.bind_ok (Prog.run_gets _ _), id, hcall], hstep, hledger, hm⟩

/-- Any address can be translated. -/
theorem physical_run (h : s.Ok B ram hs) (v : U32) :
    ∃ p t, (physical v).run s = .ok (p, t) ∧ s.Step B ram hs t := by
  obtain ⟨t, hcall, hstep, _⟩ := h.read (run_translate h.live.machine.paged v)
  exact ⟨_, t, by rw [physical, Prog.bind_ok hcall, Prog.run_pure], hstep⟩

/-- Addresses of the kernel's heap. -/
theorem physical_kernel (h : s.Ok B ram hs) (ha : a ∈ hs.kernel.live) {v : U32} (hv : a.Holds v) :
    ∃ t, (physical v).run s = .ok (hs.kernel.heap.physBase + (v - hs.kernel.heap.base), t) ∧
      s.Step B ram hs t := by
  obtain ⟨t, hcall, hstep, _⟩ := h.read (h.live.machine.translate_kernel ha hv)
  exact ⟨t, by rw [physical, Prog.bind_ok hcall, Prog.run_pure, Option.getD_some], hstep⟩

/-! ## The parts of the test -/

/-- The block of an allocation that was not refused. -/
theorem Allocated.block {want p : U32} {c : Heap.Client} {m : Machine}
    (h : Allocated s hs side want p c m) (hp : p ≠ 0) :
    ∃ a ∈ c.live, a.pointer = p ∧ a.want = want ∧ c.live = a :: (hs.of side).live := by
  rcases h.answered with ⟨hz, _⟩ | ⟨_, size, hlive⟩
  · exact absurd hz hp
  · exact ⟨⟨p, want, size⟩, by rw [hlive]; exact List.mem_cons_self, rfl, rfl, hlive⟩

/-- An allocation is not smaller than it was asked to be. -/
theorem want_le (h : s.Ok B ram hs) (ha : a ∈ (hs.of side).live) : a.want.toNat ≤ a.size.toNat :=
  (h.live.machine.size_run ha).2

/-- No heap refuses a size of the test out of hand. -/
theorem possible (h : s.Ok B ram hs) (side : Side) {want : U32} (hwant : want ≤ 0x10000) :
    ¬want > (hs.of side).heap.limit - (hs.of side).heap.base - Heap.HEADER := by
  have hrange : (0x10000 : U32) ≤
      (hs.of side).heap.limit - (hs.of side).heap.base - Heap.HEADER := by
    cases side with
    | kernel =>
      obtain ⟨hbase, hlimit, _⟩ := h.live.machine.kernel_block
      rw [show (hs.of .kernel).heap.limit = _ from hlimit,
        show (hs.of .kernel).heap.base = _ from hbase]
      decide
    | virtual =>
      obtain ⟨hbase, hlimit, _⟩ := h.live.machine.virtual_block
      rw [show (hs.of .virtual).heap.limit = _ from hlimit,
        show (hs.of .virtual).heap.base = _ from hbase]
      decide
  exact BitVec.not_lt.mpr (BitVec.le_trans hwant hrange)

theorem testSmall_run (h : s.Ok B ram hs) (checks : Nat) :
    ∃ r t p c m, (testSmall checks).run s = .ok (r, t) ∧ s.Step B ram (hs.put .kernel c) t ∧
      Allocated s hs .kernel 64 p c m ∧
      (r = if p = 0 then .error "kmalloc(64) returned nothing" else .ok (p, checks + 3)) ∧
      (p = 0 → c.heap.offered t.world.machine.supply 1 = 0) := by
  obtain ⟨p, c, t, hrun, hstep, hgot⟩ := alloc_run h .kernel 64
  rw [testSmall, kmalloc, Prog.bind_ok hrun]
  by_cases hp : p = 0
  · subst hp
    rw [if_pos rfl]
    exact ⟨_, t, 0, c, _, rfl, hstep, hgot, by rw [if_pos rfl],
      fun _ => hgot.shortage (by decide) (possible h .kernel (by decide))⟩
  obtain ⟨a, ha, rfl, hwant, _⟩ := hgot.block hp
  rw [if_neg hp, ksize]
  rw [← Heaps.of_put hs .kernel c] at ha
  obtain ⟨t1, hrun1, hstep1⟩ := sizeOf_run hstep.ok ha
  obtain ⟨phys, t2, hrun2, hstep2⟩ := physical_run hstep1.ok a.pointer
  rw [Prog.bind_ok hrun1, Prog.bind_ok hrun2]
  obtain ⟨t3, hrun3, hstep3, _⟩ := hstep2.ok.printk ("kmalloc(64)   -> " ++ hex a.pointer ++
    ", ksize " ++ toString a.size.toNat ++ ", physical " ++ hex phys ++ "\n")
  obtain ⟨t4, hrun4, hstep4⟩ := sizeOf_run hstep3.ok ha
  have hle := want_le hstep.ok ha
  rw [hwant, show (64 : U32).toNat = 64 from rfl] at hle
  obtain ⟨t5, hrun5, hstep5⟩ := pattern_run hstep4.ok ha (n := 64) hle
  rw [Prog.bind_ok hrun3, Prog.bind_ok hrun4, if_neg (by
    rw [BitVec.lt_def, show (64 : U32).toNat = 64 from rfl]
    omega), Prog.bind_ok hrun5, if_pos rfl]
  exact ⟨_, t5, _, c, _, rfl,
    ((((hstep.trans hstep1).trans hstep2).trans hstep3).trans hstep4).trans hstep5, hgot,
    by rw [if_neg hp], fun hz => absurd hz hp⟩

theorem testBig_run (h : s.Ok B ram hs) (checks : Nat) :
    ∃ r t p c m, (testBig checks).run s = .ok (r, t) ∧ s.Step B ram (hs.put .kernel c) t ∧
      Allocated s hs .kernel 5000 p c m ∧
      r = if p = 0 then .error "kmalloc(5000) returned nothing" else .ok (p, checks + 3) := by
  obtain ⟨p, c, t, hrun, hstep, hgot⟩ := alloc_run h .kernel 5000
  rw [testBig, kmalloc, Prog.bind_ok hrun]
  by_cases hp : p = 0
  · rw [if_pos hp]
    exact ⟨_, t, p, c, _, rfl, hstep, hgot, by rw [if_pos hp]⟩
  obtain ⟨a, ha, rfl, hwant, _⟩ := hgot.block hp
  rw [if_neg hp]
  rw [← Heaps.of_put hs .kernel c] at ha
  have hle := want_le hstep.ok ha
  rw [hwant, show (5000 : U32).toNat = 5000 from rfl] at hle
  -- the block spans two pages, which lie one after the other
  have hholds := (holds_add hstep.ok.live.machine ha (i := 0) (by omega)).2
  rw [show a.pointer + BitVec.ofNat 32 0 = a.pointer from BitVec.add_zero _] at hholds
  have hholds' : a.Holds (a.pointer + 4096) :=
    (holds_add hstep.ok.live.machine ha (i := 4096) (by omega)).2
  obtain ⟨t1, hrun1, hstep1⟩ := physical_kernel hstep.ok ha hholds
  obtain ⟨t2, hrun2, hstep2⟩ := physical_kernel hstep1.ok ha hholds'
  rw [Prog.bind_ok hrun1, Prog.bind_ok hrun2]
  generalize hfirst : (hs.put .kernel c).kernel.heap.physBase +
    (a.pointer - (hs.put .kernel c).kernel.heap.base) = first
  have hsecond : (hs.put .kernel c).kernel.heap.physBase +
      (a.pointer + 4096 - (hs.put .kernel c).kernel.heap.base) = first + 4096 := by
    rw [← hfirst]
    bv_omega
  rw [hsecond]
  obtain ⟨t3, hrun3, hstep3, _⟩ := hstep2.ok.printk ("kmalloc(5000) -> " ++ hex a.pointer ++
    ", physical " ++ hex first ++ " then " ++ hex (first + 4096) ++ "\n")
  obtain ⟨t4, hrun4, hstep4⟩ := pattern_run hstep3.ok ha hle
  rw [Prog.bind_ok hrun3, if_neg (not_not.mpr rfl), Prog.bind_ok hrun4, if_pos rfl]
  exact ⟨_, t4, _, c, _, rfl, (((hstep.trans hstep1).trans hstep2).trans hstep3).trans hstep4, hgot,
    by rw [if_neg hp]⟩

/-- The first allocation in a list goes. -/
theorem filter_head {x : Heap.Live} {l : List Heap.Live}
    (hnd : ((x :: l).map Heap.Live.pointer).Nodup) :
    (x :: l).filter (fun a => a.pointer ≠ x.pointer) = l := by
  rw [List.map_cons, List.nodup_cons] at hnd
  rw [List.filter_cons_of_neg (by simp)]
  refine List.filter_eq_self.mpr fun a ha => decide_eq_true fun heq => hnd.1 ?_
  rw [← heq]
  exact List.mem_map_of_mem ha

theorem nodup_live (h : s.Ok B ram hs) (side : Side) :
    ((hs.of side).live.map Heap.Live.pointer).Nodup := by
  obtain ⟨bs, hok, _⟩ := h.live.machine.ready side
  exact hok.nodup

/-- Freeing the two newest blocks lowers the count of the bytes in use. -/
theorem testFree_run (h : s.Ok B ram hs) {x y : Heap.Live} {rest : List Heap.Live}
    (hlive : hs.kernel.live = y :: x :: rest) (hy : 0 < y.want.toNat) (checks : Nat) :
    ∃ t, (testFree x.pointer y.pointer checks).run s = .ok (.ok ((), checks + 1), t) ∧
      s.Step B ram (hs.put .kernel { hs.kernel with live := rest }) t := by
  have hnd := nodup_live h .kernel
  have hlive' : (hs.of .kernel).live = y :: x :: rest := hlive
  rw [hlive'] at hnd
  have hne : y.pointer ≠ x.pointer := by
    rw [List.map_cons, List.nodup_cons] at hnd
    intro heq
    exact hnd.1 (by rw [heq]; exact List.mem_cons_self)
  have hnd' : ((x :: rest).map Heap.Live.pointer).Nodup := by
    rw [List.map_cons, List.nodup_cons] at hnd
    exact hnd.2
  obtain ⟨st, t1, hrun1, hstep1, hledger1, _⟩ := stats_run h .kernel
  obtain ⟨t2, hrun2, hstep2⟩ := free_run hstep1.ok .kernel x.pointer
  rw [hlive', List.filter_cons_of_pos (by simpa using hne), filter_head hnd'] at hstep2
  obtain ⟨t3, hrun3, hstep3⟩ := free_run hstep2.ok .kernel y.pointer
  rw [Heaps.of_put, Heaps.put_put, filter_head (by
    have hnd2 := nodup_live hstep2.ok .kernel
    rwa [Heaps.of_put] at hnd2)] at hstep3
  obtain ⟨st', t4, hrun4, hstep4, hledger4, _⟩ := stats_run hstep3.ok .kernel
  obtain ⟨t5, hrun5, hstep5, _⟩ := hstep4.ok.printk ("kfree both    -> used bytes " ++
    toString st.used.toNat ++ " then " ++ toString st'.used.toNat ++ "\n")
  -- the bytes in use are the sizes of the allocations
  have hless : ¬st'.used ≥ st.used := by
    have hsize := want_le h (show y ∈ (hs.of .kernel).live by rw [hlive']; exact List.mem_cons_self)
    have hbefore := hledger1.used
    have hafter := hledger4.used
    rw [Heap.Client.bytes, hlive', List.map_cons, List.sum_cons, List.map_cons,
      List.sum_cons] at hbefore
    rw [Heaps.of_put, Heap.Client.bytes] at hafter
    dsimp only at hafter
    rw [ge_iff_le, BitVec.le_def]
    omega
  rw [testFree, kfree, Prog.bind_ok hrun1, Prog.bind_ok hrun2, Prog.bind_ok hrun3,
    Prog.bind_ok hrun4, Prog.bind_ok hrun5, if_neg hless]
  exact ⟨t5, rfl, (((hstep1.trans hstep2).trans hstep3).trans hstep4).trans hstep5⟩

theorem frames_run (pages : U32) (n : Nat) : ∀ {s : Sys} (page : Nat) (scattered : Bool)
    (previous : U32), s.Ok B ram hs →
    ∃ b t, (frames pages page n scattered previous).run s = .ok (b, t) ∧ s.Step B ram hs t := by
  induction n with
  | zero => exact fun _ scattered _ h => ⟨scattered, _, rfl, h.refl⟩
  | succ n ih =>
    intro s page scattered previous h
    obtain ⟨phys, t1, hrun1, hstep1⟩ :=
      physical_run h (pageOf pages + BitVec.ofNat 32 page * 4096)
    obtain ⟨t2, hrun2, hstep2, _⟩ := hstep1.ok.printk (" " ++ hex phys)
    obtain ⟨b, t3, hrun3, hstep3⟩ := ih (page + 1)
      (scattered || (decide (page > 0) && phys ≠ previous + 4096)) phys hstep2.ok
    refine ⟨b, t3, ?_, (hstep1.trans hstep2).trans hstep3⟩
    rw [frames, Prog.bind_ok hrun1, Prog.bind_ok hrun2, hrun3]

/-- `vmalloc` is refused, or the block is used and freed again. -/
theorem testVirtual_run (h : s.Ok B ram hs) (checks : Nat) :
    ∃ r t h', (testVirtual checks).run s = .ok (r, t) ∧
      s.Step B ram (hs.put .virtual { hs.virtual with heap := h' }) t ∧
      h'.brk.toNat ≤ hs.virtual.heap.brk.toNat + 0x4000 ∧
      (r = .error "vmalloc(12288) returned nothing" ∧
          h'.offered t.world.machine.supply 1 = 0 ∨
        r = .ok ((), checks + 3)) := by
  obtain ⟨p, c, t, hrun, hstep, hgot⟩ := alloc_run h .virtual (3 * 4096)
  have hgrown : c.heap.brk.toNat ≤ hs.virtual.heap.brk.toNat + 0x4000 := by
    obtain ⟨_, _, _, _, _, hcase⟩ := hgot.blocks
    exact hcase.brk_le
  rw [testVirtual, vmalloc, Prog.bind_ok hrun]
  by_cases hp : p = 0
  · subst hp
    rw [if_pos rfl]
    refine ⟨_, t, c.heap, rfl, ?_, hgrown,
      Or.inl ⟨rfl, hgot.shortage (by decide) (possible h .virtual (by decide))⟩⟩
    have hlive : c.live = hs.virtual.live := (hgot.answered.resolve_right fun hne => hne.1 rfl).2
    show s.Step B ram (hs.put .virtual ⟨c.heap, hs.virtual.live⟩) t
    rw [← hlive]
    exact hstep
  obtain ⟨a, ha, rfl, hwant, hlive⟩ := hgot.block hp
  rw [← Heaps.of_put hs .virtual c] at ha
  have hle := want_le hstep.ok ha
  rw [hwant, show (3 * 4096 : U32).toNat = 3 * 4096 from rfl] at hle
  obtain ⟨t1, hrun1, hstep1⟩ := sizeOf_run hstep.ok ha
  obtain ⟨t2, hrun2, hstep2, _⟩ := hstep1.ok.printk ("vmalloc(12288)-> " ++ hex a.pointer ++
    ", vsize " ++ toString a.size.toNat ++ "\n")
  obtain ⟨t3, hrun3, hstep3, _⟩ := hstep2.ok.printk "  frames"
  obtain ⟨scattered, t4, hrun4, hstep4⟩ := frames_run a.pointer 3 0 false 0 hstep3.ok
  obtain ⟨t5, hrun5, hstep5, _⟩ := hstep4.ok.printk (", physically " ++
    (if scattered then "scattered" else "in a row this time") ++ "\n")
  obtain ⟨t6, hrun6, hstep6⟩ := pattern_run hstep5.ok ha hle
  obtain ⟨t7, hrun7, hstep7⟩ := free_run hstep6.ok .virtual a.pointer
  rw [Heaps.of_put, Heaps.put_put, hlive, filter_head (by
    have hnd := nodup_live hstep.ok .virtual
    rwa [Heaps.of_put, hlive] at hnd)] at hstep7
  rw [if_neg hp, vsize, vfree, Prog.bind_ok hrun1, Prog.bind_ok hrun2, Prog.bind_ok hrun3,
    Prog.bind_ok hrun4, Prog.bind_ok hrun5, Prog.bind_ok hrun6, if_pos rfl, Prog.bind_ok hrun7]
  exact ⟨_, t7, c.heap, rfl, ((((((hstep.trans hstep1).trans hstep2).trans hstep3).trans
    hstep4).trans hstep5).trans hstep6).trans hstep7, hgrown, Or.inr rfl⟩

/-- The break goes up and down again.  A heap that got all the pages gives them back, so a complaint
is about a heap that cannot get another page. -/
theorem testBrk_run (h : s.Ok B ram hs) (side : Side) {delta : U32} (hpos : 0 < delta.toInt)
    (name refused kept : String) (checks : Nat) :
    ∃ r t h', (testBrk side delta name refused kept checks).run s = .ok (r, t) ∧
      s.Step B ram (hs.put side { hs.of side with heap := h' }) t ∧
      h'.brk.toNat ≤ (hs.of side).heap.brk.toNat + 4096 * Heap.pages delta ∧
      (r = .error refused ∧ h' = (hs.of side).heap ∧
          h'.offered t.world.machine.supply 1 = 0 ∨
        r = .ok ((), checks + 2) ∧ (Heap.pages delta = 1 → h' = (hs.of side).heap) ∨
        r = .error kept ∧ Heap.pages delta ≠ 1 ∧ h'.offered t.world.machine.supply 1 = 0) := by
  obtain ⟨was, h1, t1, hrun1, hstep1, hmoved1⟩ := brk_run h side delta
  rw [testBrk, Prog.bind_ok hrun1]
  rcases hmoved1.up hpos with ⟨rfl, rfl, hoff⟩ | ⟨hwas, n, hn, hn0, htop, hpart⟩
  · exact ⟨_, t1, _, rfl, hstep1, Nat.le_add_right _ _, Or.inl ⟨rfl, rfl, hoff⟩⟩
  obtain ⟨t2, hrun2, hstep2, hm2⟩ := brk_zero hstep1.ok side
  obtain ⟨t3, hrun3, hstep3, hw3⟩ := hstep2.ok.printk (name ++ "(+" ++ toString delta.toNat ++
    ")   -> break was " ++ hex was ++ ", now " ++
    hex ((hs.put side { hs.of side with heap := h1 }).of side).heap.brk ++ "\n")
  obtain ⟨back, h2, t4, hrun4, hstep4, hmoved4⟩ := brk_run hstep3.ok side (-delta)
  obtain ⟨hle, hkept⟩ := hmoved4.down (by rw [Heap.toInt_neg_delta hpos]; omega)
  rw [Heaps.of_put] at hle hkept
  rw [hw3, hm2] at hkept
  dsimp only at hle
  simp only [Heaps.put_put, Heaps.of_put] at hstep4
  rw [if_neg hwas, Prog.bind_ok hrun2, Prog.bind_ok hrun3, Prog.bind_ok hrun4]
  have hbound : h2.brk.toNat ≤ (hs.of side).heap.brk.toNat + 4096 * Heap.pages delta := by omega
  have hfull : n = Heap.pages delta → back ≠ 0 ∧ h2 = (hs.of side).heap := by
    intro hall
    obtain ⟨bs, _, hready, _⟩ := hmoved1.blocks
    obtain ⟨r, h', u, hrun, hback⟩ :=
      Heap.moveBrk_back hready h.live.machine.counted hpos
    rw [hmoved1.run] at hrun
    cases hrun
    obtain ⟨r', u', hrun', hne, _⟩ := hback (by rw [htop, hall])
    have hagain := hmoved4.run
    rw [Heaps.of_put, hw3, hm2, hrun'] at hagain
    cases hagain
    exact ⟨hne, rfl⟩
  by_cases hback : back = 0
  · rw [if_pos hback]
    have hmany : n < Heap.pages delta := by
      by_contra hall
      exact (hfull (by omega)).1 hback
    obtain ⟨rfl, hsupply⟩ := hkept hback
    refine ⟨_, t4, _, rfl, ((hstep1.trans hstep2).trans hstep3).trans hstep4, hbound,
      Or.inr (Or.inr ⟨rfl, by omega, ?_⟩)⟩
    rw [hsupply]
    exact hpart hmany
  · obtain ⟨t5, hrun5, hstep5, _⟩ := brk_zero hstep4.ok side
    obtain ⟨t6, hrun6, hstep6, _⟩ := hstep5.ok.printk (name ++ "(-" ++ toString delta.toNat ++
      ")   -> break " ++ hex ((hs.put side { hs.of side with heap := h2 }).of side).heap.brk ++
      "\n")
    rw [if_neg hback, Prog.bind_ok hrun5, Prog.bind_ok hrun6]
    exact ⟨_, t6, h2, rfl, ((((hstep1.trans hstep2).trans hstep3).trans hstep4).trans hstep5).trans
      hstep6, hbound, Or.inr (Or.inl ⟨rfl, fun hp => (hfull (by omega)).2⟩)⟩

theorem testKbrk_run (h : s.Ok B ram hs) (checks : Nat) :
    ∃ r t, (testKbrk checks).run s = .ok (r, t) ∧ s.Step B ram hs t ∧
      (r = .error "kbrk could not grow the heap" ∧
          hs.kernel.heap.offered t.world.machine.supply 1 = 0 ∨
        r = .ok ((), checks + 2)) := by
  obtain ⟨r, t, h', hrun, hstep, _, hr⟩ := testBrk_run h .kernel
    (show 0 < (4096 : U32).toInt by decide) "kbrk" "kbrk could not grow the heap"
    "kbrk could not give the page back" checks
  rw [testKbrk]
  rcases hr with ⟨hr, rfl, hoff⟩ | ⟨hr, hsame⟩ | ⟨_, hmany, _⟩
  · rw [Heaps.put_of] at hstep
    exact ⟨r, t, hrun, hstep, Or.inl ⟨hr, hoff⟩⟩
  · obtain rfl := hsame (by decide)
    rw [Heaps.put_of] at hstep
    exact ⟨r, t, hrun, hstep, Or.inr hr⟩
  · exact absurd (by decide) hmany

theorem testVbrk_run (h : s.Ok B ram hs) (checks : Nat) :
    ∃ r t h', (testVbrk checks).run s = .ok (r, t) ∧
      s.Step B ram (hs.put .virtual { hs.virtual with heap := h' }) t ∧
      h'.brk.toNat ≤ hs.virtual.heap.brk.toNat + 0x2000 ∧
      ((r = .error "vbrk could not grow the vmalloc area" ∨
          r = .error "vbrk could not give the pages back") ∧
          h'.offered t.world.machine.supply 1 = 0 ∨
        r = .ok ((), checks + 2)) := by
  obtain ⟨r, t, h', hrun, hstep, hgrown, hr⟩ := testBrk_run h .virtual
    (show 0 < (8192 : U32).toInt by decide) "vbrk" "vbrk could not grow the vmalloc area"
    "vbrk could not give the pages back" checks
  rw [testVbrk]
  refine ⟨r, t, h', hrun, hstep, hgrown, ?_⟩
  rcases hr with ⟨hr, _, hoff⟩ | ⟨hr, _⟩ | ⟨hr, _, hoff⟩
  · exact Or.inl ⟨Or.inl hr, hoff⟩
  · exact Or.inr hr
  · exact Or.inl ⟨Or.inr hr, hoff⟩

/-! ## A kernel of which only the shell allocates -/

/-- No block is in use, and the kernel's heap has the pages of the self-test at most. -/
structure Idle (hs : Heaps) : Prop where
  kernel : hs.kernel.live = []
  virtual : hs.virtual.live = []
  low : hs.kernel.heap.brk.toNat ≤ 0xD0003000

/-- The blocks of the heap are those of its clients. -/
theorem usedAt_live {c : Heap.Client} {m : Machine} {bs : List Block} (hok : c.Ok m bs)
    {l : List (Nat × Nat)} (hl : c.live.map Heap.Live.block = l) (hone : l.length ≤ 1) :
    Blocks.usedAt c.heap.base.toNat bs = l := by
  have hperm := hok.held
  rw [hl] at hperm
  cases l with
  | nil => exact hperm.eq_nil
  | cons x l =>
    obtain rfl : l = [] := List.eq_nil_of_length_eq_zero (by rw [List.length_cons] at hone; omega)
    exact List.perm_singleton.mp hperm

/-- `kmalloc(64)` of an idle kernel. -/
theorem small_idle (h : s.Ok B ram hs) (hidle : Idle hs) {p : U32} {c : Heap.Client} {m : Machine}
    (hgot : Allocated s hs .kernel 64 p c m) :
    p = 0 ∧ c = hs.kernel ∨
      p ≠ 0 ∧ c.live.map Heap.Live.block = [(0xD0000000, 64)] ∧
        0xD0000000 < c.heap.brk.toNat ∧ c.heap.brk.toNat ≤ 0xD0003000 := by
  obtain ⟨bs, bs', hok, hready, hok', hcase⟩ := hgot.blocks
  obtain ⟨hbase, _⟩ := h.live.machine.kernel_block
  have hsame := (hcase.effect hready.inv).1.same
  have hbase' : c.heap.base = KHEAP_BASE := by
    rw [hsame]
    exact hbase
  have hbig := And.intro (show (64 : U32) ≠ 0 by decide)
    (possible h .kernel (show (64 : U32) ≤ 0x10000 by decide))
  have hlow := hidle.low
  rcases hcase.first hready (usedAt_live hok (by
    show hs.kernel.live.map _ = []
    rw [hidle.kernel]
    rfl) (Nat.zero_le _)) hbig (by decide) with ⟨rfl, hheap, _⟩ | ⟨hp, hused, hbrk⟩
  · rcases hgot.answered with ⟨_, hlive⟩ | ⟨hne, _⟩
    · exact Or.inl ⟨rfl, by cases c; cases hheap; cases hlive; rfl⟩
    · exact absurd rfl hne
  · rw [show (hs.of .kernel).heap.base = _ from hbase] at hp hused hbrk
    have hheld := hok'.held
    rw [hbase', hused] at hheld
    refine Or.inr ⟨fun hz => ?_, List.singleton_perm.mp hheld |>.symm, ?_, ?_⟩
    · rw [hz] at hp
      exact absurd hp (by decide)
    · exact lt_of_lt_of_le (by decide) (hbrk ▸ le_max_right _ _)
    · rw [hbrk]
      exact max_le hlow (by decide)

/-- Once the kernel's heap has its first pages, the next ones are to be had. -/
theorem offered_kernel (h : s.Ok B ram hs) (hgrown : 0xD0000000 < hs.kernel.heap.brk.toNat)
    (hlow : hs.kernel.heap.brk.toNat ≤ 0xD0003000) {n : Nat} (hn : n ≤ 8) :
    hs.kernel.heap.offered s.world.machine.supply n = n := by
  obtain ⟨bs, hok, _⟩ := h.live.machine.ready .kernel
  obtain ⟨hbase, hlimit, hback, hblock⟩ := h.live.machine.kernel_block
  have hnum : hs.kernel.heap.base.toNat = 0xD0000000 := by
    rw [hbase]
    rfl
  have htop : hs.kernel.heap.limit.toNat = 0xD2000000 := by
    rw [hlimit]
    rfl
  have hinv : Heap.Inv hs.kernel.heap s.world.machine bs := hok.inv
  exact hinv.offered_grown hback (hnum ▸ hgrown) (by rw [htop]; omega) (by rw [hnum]; omega)
    fun k h1 h2 => by rw [hnum]; omega

/-- `kmalloc(5000)` behind it. -/
theorem big_idle (h : s.Ok B ram hs)
    (hone : hs.kernel.live.map Heap.Live.block = [(0xD0000000, 64)])
    (hgrown : 0xD0000000 < hs.kernel.heap.brk.toNat) (hlow : hs.kernel.heap.brk.toNat ≤ 0xD0003000)
    {p : U32} {c : Heap.Client} {m : Machine} (hgot : Allocated s hs .kernel 5000 p c m) :
    p ≠ 0 ∧ 0xD0000000 < c.heap.brk.toNat ∧ c.heap.brk.toNat ≤ 0xD0003000 := by
  obtain ⟨bs, bs', hok, hready, _, hcase⟩ := hgot.blocks
  obtain ⟨hbase, _⟩ := h.live.machine.kernel_block
  have hbig := And.intro (show (5000 : U32) ≠ 0 by decide)
    (possible h .kernel (show (5000 : U32) ≤ 0x10000 by decide))
  have hused := usedAt_live hok (show (hs.of .kernel).live.map _ = _ from hone) (Nat.le_refl _)
  have hnum : (hs.of .kernel).heap.base.toNat = 0xD0000000 := by
    rw [show (hs.of .kernel).heap.base = _ from hbase]
    rfl
  obtain ⟨hp, hle, hmax⟩ := hcase.second hready (by rw [hused, hnum]) hbig (by decide) (by decide)
    (by decide) fun _ => offered_kernel h hgrown hlow (by decide)
  rw [hnum] at hmax
  exact ⟨hp, Nat.lt_of_lt_of_le hgrown hle, hmax.trans (max_le hlow (by decide))⟩

/-! ## The whole test -/

theorem andThen_ok {α β : Type} {x : Cmd (Tested α)} {f : α → Nat → Cmd (Tested β)} {a : α}
    {n : Nat} {t : Sys} (hx : x.run s = .ok (.ok (a, n), t)) :
    (andThen x f).run s = (f a n).run t := by
  rw [andThen, Prog.bind_ok hx]

theorem andThen_error {α β : Type} {x : Cmd (Tested α)} {f : α → Nat → Cmd (Tested β)}
    {why : String} {t : Sys} (hx : x.run s = .ok (.error why, t)) :
    (andThen x f).run s = .ok (.error why, t) := by
  rw [andThen, Prog.bind_ok hx]
  rfl

/-- The complaints of the parts after `kfree`, and the heap that each is about. -/
def LATER : List (String × Side) :=
  [("vmalloc(12288) returned nothing", .virtual), ("kbrk could not grow the heap", .kernel),
    ("vbrk could not grow the vmalloc area", .virtual),
    ("vbrk could not give the pages back", .virtual)]

/-- The heap cannot get another page: there is no frame for it or for its table, or its range or its
block ends there. -/
def Starved (hs : Heaps) (m : Machine) (side : Side) : Prop :=
  (hs.of side).heap.offered m.supply 1 = 0

/-- The parts after `kfree` leave the kernel's heap as it was.  That heap is refused its page only
if it has none, or many. -/
theorem later_run (h : s.Ok B ram hs) (checks : Nat) :
    ∃ r t hs', (andThen (testVirtual checks) fun _ checks =>
        andThen (testKbrk checks) fun _ checks => testVbrk checks).run s = .ok (r, t) ∧
      s.Step B ram hs' t ∧ hs'.kernel = hs.kernel ∧ hs'.virtual.live = hs.virtual.live ∧
      hs'.virtual.heap.brk.toNat ≤ hs.virtual.heap.brk.toNat + 0x6000 ∧
      (r = .ok ((), checks + 7) ∨
        ∃ why ∈ LATER, r = .error why.1 ∧ Starved hs' t.world.machine why.2) ∧
      (0xD0000000 < hs.kernel.heap.brk.toNat → hs.kernel.heap.brk.toNat ≤ 0xD0003000 →
        r ≠ .error "kbrk could not grow the heap") := by
  obtain ⟨r1, t1, v1, hrun1, hstep1, hgrown1, hr1⟩ := testVirtual_run h checks
  rcases hr1 with ⟨rfl, hoff⟩ | rfl
  · exact ⟨_, t1, _, andThen_error hrun1, hstep1, rfl, rfl, hgrown1.trans (by omega),
      Or.inr ⟨("vmalloc(12288) returned nothing", .virtual), by simp [LATER], rfl, hoff⟩, by simp⟩
  rw [andThen_ok hrun1]
  obtain ⟨r2, t2, hrun2, hstep2, hr2⟩ := testKbrk_run hstep1.ok (checks + 3)
  have hstep := hstep1.trans hstep2
  rcases hr2 with ⟨rfl, hoff⟩ | rfl
  · refine ⟨_, t2, _, andThen_error hrun2, hstep, rfl, rfl, hgrown1.trans (by omega),
      Or.inr ⟨("kbrk could not grow the heap", .kernel), by simp [LATER], rfl, hoff⟩,
      fun hgrown hlow => ?_⟩
    have hone := offered_kernel hstep2.ok hgrown hlow (show 1 ≤ 8 by decide)
    rw [hoff] at hone
    cases hone
  rw [andThen_ok hrun2]
  obtain ⟨r3, t3, h3, hrun3, hstep3, hgrown3, hr3⟩ := testVbrk_run hstep2.ok (checks + 3 + 2)
  refine ⟨r3, t3, _, hrun3, hstep.trans hstep3, rfl, rfl, ?_, ?_⟩
  · have hbefore : h3.brk.toNat ≤ v1.brk.toNat + 0x2000 := hgrown3
    show h3.brk.toNat ≤ _
    omega
  rcases hr3 with ⟨rfl | rfl, hoff⟩ | rfl
  · exact ⟨Or.inr ⟨("vbrk could not grow the vmalloc area", .virtual), by simp [LATER], rfl, hoff⟩,
      by simp⟩
  · exact ⟨Or.inr ⟨("vbrk could not give the pages back", .virtual), by simp [LATER], rfl, hoff⟩,
      by simp⟩
  · exact ⟨Or.inl rfl, by simp⟩

/-- How the test can end, and what it leaves: the blocks of before, unless it gives up between its
two blocks, and after a complaint a heap that cannot get another page. -/
inductive Verdict (hs hs' : Heaps) (m : Machine) : Tested Unit → Prop where
  | passed (hkernel : hs'.kernel.live = hs.kernel.live) : Verdict hs hs' m (.ok ((), 14))
  | short {why : String × Side} (hwhy : why ∈ ("kmalloc(64) returned nothing", .kernel) :: LATER)
      (hkernel : hs'.kernel.live = hs.kernel.live) (hstarved : Starved hs' m why.2) :
      Verdict hs hs' m (.error why.1)
  | leaked (a : Heap.Live) (hwant : a.want = 64)
      (hkernel : hs'.kernel.live = a :: hs.kernel.live) :
      Verdict hs hs' m (.error "kmalloc(5000) returned nothing")

/-- The complaints that an idle kernel never makes. -/
def NEVER : List String := ["kmalloc(5000) returned nothing", "kbrk could not grow the heap"]

theorem selfTest_run (h : s.Ok B ram hs) :
    ∃ r t hs', selfTest.run s = .ok (r, t) ∧ s.Step B ram hs' t ∧
      hs'.virtual.live = hs.virtual.live ∧
      hs'.virtual.heap.brk.toNat ≤ hs.virtual.heap.brk.toNat + 0x6000 ∧
      Verdict hs hs' t.world.machine r ∧
      (Idle hs → Idle hs' ∧ ∀ why ∈ NEVER, r ≠ .error why) := by
  obtain ⟨r1, t1, p, c1, _, hrun1, hstep1, hgot1, hr1, hshort1⟩ := testSmall_run h 0
  rcases hgot1.answered with ⟨rfl, hlive1⟩ | ⟨hp, n1, hlive1⟩
  · rw [if_pos rfl] at hr1
    subst hr1
    refine ⟨_, t1, _, andThen_error hrun1, hstep1, rfl, Nat.le_add_right _ _,
      .short (show ("kmalloc(64) returned nothing", Side.kernel) ∈ _ from List.mem_cons_self) hlive1
        (hshort1 rfl), fun hidle => ⟨?_, by simp [NEVER]⟩⟩
    rcases small_idle h hidle hgot1 with ⟨_, rfl⟩ | ⟨hne, _⟩
    · exact hidle
    · exact absurd rfl hne
  rw [if_neg hp] at hr1
  subst hr1
  obtain ⟨r2, t2, q, c2, _, hrun2, hstep2, hgot2, hr2⟩ := testBig_run hstep1.ok 3
  rw [Heaps.put_put] at hstep2
  rw [selfTest, andThen_ok hrun1]
  have hidle2 : Idle hs → q ≠ 0 ∧ 0xD0000000 < c2.heap.brk.toNat ∧
      c2.heap.brk.toNat ≤ 0xD0003000 := fun hidle => by
    obtain ⟨hz, _⟩ | ⟨_, hone, hgrown, hlow⟩ := small_idle h hidle hgot1
    · exact absurd hz hp
    · exact big_idle hstep1.ok hone hgrown hlow hgot2
  rcases hgot2.answered with ⟨rfl, hlive2⟩ | ⟨hq, n2, hlive2⟩
  · rw [if_pos rfl] at hr2
    subst hr2
    exact ⟨_, t2, _, andThen_error hrun2, hstep1.trans hstep2, rfl, Nat.le_add_right _ _,
      .leaked ⟨p, 64, n1⟩ rfl (hlive2.trans hlive1), fun hidle => absurd rfl (hidle2 hidle).1⟩
  rw [if_neg hq] at hr2
  subst hr2
  rw [andThen_ok hrun2]
  have hboth : c2.live = ⟨q, 5000, n2⟩ :: ⟨p, 64, n1⟩ :: hs.kernel.live :=
    hlive2.trans (congrArg _ hlive1)
  obtain ⟨t3, hrun3, hstep3⟩ :=
    testFree_run hstep2.ok hboth (show 0 < (5000 : U32).toNat by decide) 6
  obtain ⟨r4, t4, hs4, hrun4, hstep4, hkernel, hvirtual, hbrk4, hr4, hgrown4⟩ :=
    later_run hstep3.ok 7
  refine ⟨r4, t4, hs4, (andThen_ok hrun3).trans hrun4,
    ((hstep1.trans hstep2).trans hstep3).trans hstep4, hvirtual, hbrk4, ?_,
    fun hidle => ⟨⟨?_, ?_, ?_⟩, ?_⟩⟩
  · have hlive : hs4.kernel.live = hs.kernel.live := by rw [hkernel]; rfl
    rcases hr4 with rfl | ⟨why, hwhy, rfl, hstarved⟩
    · exact .passed hlive
    · exact .short (List.mem_cons_of_mem _ hwhy) hlive hstarved
  · rw [hkernel]
    exact hidle.kernel
  · exact hvirtual.trans hidle.virtual
  · rw [hkernel]
    exact (hidle2 hidle).2.2
  · intro why hwhy
    rcases List.mem_cons.mp hwhy with rfl | hwhy
    · rcases hr4 with rfl | ⟨why, hlater, rfl, _⟩
      · simp
      · intro heq
        have hlate : "kmalloc(5000) returned nothing" ∈ LATER.map Prod.fst := by
          injection heq with htext
          rw [← htext]
          exact List.mem_map_of_mem hlater
        exact absurd hlate (by decide)
    · rw [List.mem_singleton.mp hwhy]
      exact hgrown4 (hidle2 hidle).2.1 (hidle2 hidle).2.2

/-- The line that `alloc` ends with. -/
def verdictLine : Tested Unit → String
  | .ok (_, checks) => "alloc: " ++ toString checks ++ " checks passed\n"
  | .error why => "alloc: FAILED, " ++ why ++ "\n"

theorem cmdAlloc_run (h : s.Ok B ram hs) :
    ∃ r t hs', cmdAlloc.run s = .ok ((), t.print [verdictLine r]) ∧ s.Step B ram hs' t ∧
      hs'.virtual.live = hs.virtual.live ∧
      hs'.virtual.heap.brk.toNat ≤ hs.virtual.heap.brk.toNat + 0x6000 ∧
      Verdict hs hs' t.world.machine r ∧
      (Idle hs → Idle hs' ∧ ∀ why ∈ NEVER, r ≠ .error why) := by
  obtain ⟨r, t, hs', hrun, hrest⟩ := selfTest_run h
  refine ⟨r, t, hs', ?_, hrest⟩
  rw [cmdAlloc, Prog.bind_ok hrun]
  cases r <;> rfl

end Kfs.Shell
