import Kfs.Heap.Supply

/-!
# Growing a heap

`Grew h s t a b` is what the loop of `grow` does when it gets from page `a` to page `b`: the pages
in between were not mapped and now have frames of their own, and nothing else changed hands.  It
holds for one pass and composes, so `growLoop_run` is an induction on the number of passes.

Where no page above the break is mapped, the loop stops early only when the heap cannot afford the
next page, so the number of pages is the one that `grants` counts.

`grow_run` adds the header: the new room joins a free last block or becomes a free block.
-/

namespace Kfs.Heap

open Lib Mem Paging Machine Blocks

variable {h : Heap} {s t u : Machine} {a b c : Nat}

/-- The frames of the carved block that the pages from `a` on get. -/
def unused (h : Heap) (a : Nat) : Set Nat :=
  { k | h.backing = .contiguous ∧ h.physBase.toNat / 4096 + (a - h.base.toNat / 4096) ≤ k ∧
    k < h.physEnd.toNat / 4096 }

theorem unused_subset_window (h : Heap) (a : Nat) : h.unused a ⊆ h.window := by
  rintro k ⟨hb, hlo, hhi⟩
  exact ⟨hb, by omega, hhi⟩

theorem unused_subset (h : Heap) (hab : a ≤ b) : h.unused b ⊆ h.unused a := by
  rintro k ⟨hb, hlo, hhi⟩
  exact ⟨hb, by omega, hhi⟩

/-- The block reaches to the page `a`. -/
def Reaches (h : Heap) (a : Nat) : Prop :=
  h.backing = .contiguous →
    h.physBase.toNat + (4096 * a - h.base.toNat) ≤ h.physEnd.toNat

/-! ## `frame_for` -/

/-- The outcomes of `frame_for` for the page `a`. -/
inductive FrameFor (h : Heap) (s : Machine) (a : Nat) : Option U32 → Machine → Prop where
  | usedUp (hb : h.backing = .contiguous)
      (hend : h.physEnd.toNat < h.physBase.toNat + (4096 * a - h.base.toNat) + 4096) :
      FrameFor h s a none (report s (.outOfBlock h.name))
  | block (hb : h.backing = .contiguous) {frame : U32}
      (hframe : frame.toNat = h.physBase.toNat + (4096 * a - h.base.toNat))
      (hend : frame.toNat + 4096 ≤ h.physEnd.toNat) : FrameFor h s a (some frame) s
  | noFrame (hb : h.backing = .scattered) (hempty : s.pmm.frames = ∅) :
      FrameFor h s a none (report s (.noFrame h.name))
  | free (hb : h.backing = .scattered) {k : Nat} (hk : k ∈ s.pmm.frames)
      (hmin : ∀ j, j < k → j ∉ s.pmm.frames) :
      FrameFor h s a (some (Pmm.addressOf k)) (taking s k)

theorem frameFor_run (hp : h.Placed) (s : Machine) (page : U32) (hpage : page.toNat = 4096 * a)
    (hlo : h.base.toNat ≤ 4096 * a) (hroom : 4096 * a + 4096 ≤ h.limit.toNat)
    (hreach : h.Reaches a) :
    ∃ r t, (frameFor h page).run s = .ok (r, t) ∧ FrameFor h s a r t := by
  cases hb : h.backing with
  | contiguous =>
    obtain ⟨_, _, _, hwrap⟩ := hp.block hb
    have hreach := hreach hb
    have hlt := h.physEnd.isLt
    have hframe : (h.physBase + (page - h.base)).toNat
        = h.physBase.toNat + (4096 * a - h.base.toNat) := by
      rw [BitVec.toNat_add, BitVec.toNat_sub_of_le (by rw [BitVec.le_def]; omega)]
      omega
    -- the sum of the test does not wrap, by the place of the block or by its size
    have htest : h.physBase + (page - h.base) + PAGE_SIZE > h.physEnd ↔
        h.physEnd.toNat < h.physBase.toNat + (4096 * a - h.base.toNat) + 4096 := by
      rw [gt_iff_lt, BitVec.lt_def, BitVec.toNat_add, hframe, show PAGE_SIZE.toNat = 4096 from rfl]
      omega
    by_cases hend : h.physEnd.toNat < h.physBase.toNat + (4096 * a - h.base.toNat) + 4096
    · refine ⟨none, _, ?_, .usedUp hb hend⟩
      rw [frameFor, hb]
      dsimp only
      rw [if_pos (htest.mpr hend), Prog.bind_ok (run_koops s _), Prog.run_pure]
    · refine ⟨_, s, ?_, .block hb hframe (by omega)⟩
      rw [frameFor, hb]
      dsimp only
      rw [if_neg fun hgt => hend (htest.mp hgt), Prog.run_pure]
  | scattered =>
    rcases frames_cases s.pmm with hempty | ⟨k, hk, hmin⟩
    · refine ⟨none, _, ?_, .noFrame hb hempty⟩
      rw [frameFor, hb]
      dsimp only
      rw [Prog.bind_ok (run_allocFrame_none hempty)]
      rfl
    · refine ⟨_, _, ?_, .free hb hk hmin⟩
      rw [frameFor, hb]
      dsimp only
      rw [Prog.bind_ok (run_allocFrame_some hk hmin)]
      rfl

/-! ## What the loop does -/

/-- The pages from `a` up to `b` were mapped. -/
structure Grew (h : Heap) (s t : Machine) (a b : Nat) : Prop where
  confined : Confined { p | a ≤ p ∧ p < b } (h.unused a) s t
  was : ∀ p, a ≤ p → p < b → s.leaf p = none
  owned : t.Owned a b
  backed : ∀ p e, a ≤ p → p < b → t.leaf p = some e → h.Backs p e
  reaches : h.Reaches b
  frames : t.pmm.frames ⊆ s.pmm.frames
  tables : ∀ k, t.IsTable k → s.IsTable k ∨ k ∈ s.pmm.frames

namespace Grew

theorem none (hs : s.Paged) (ha : a ≤ 1023 * 1024) (hreach : h.Reaches a) (hu : Untouched s t) :
    Grew h s t a a := by
  refine ⟨hu.confined hs, fun _ _ _ => by omega, owned_empty t ha, fun _ _ _ _ => by omega, hreach,
    ?_, fun k hk => Or.inl ?_⟩
  · rw [hu.2.1]
  · rw [hu.eq] at hk
    exact hk

/-- A frame that was neither free nor a table is still neither. -/
theorem spare (hg : Grew h s t a b) {k : Nat} (hk : k ∉ s.pmm.frames ∧ ¬s.IsTable k) :
    k ∉ t.pmm.frames ∧ ¬t.IsTable k := by
  refine ⟨fun hm => hk.1 (hg.frames hm), fun hm => ?_⟩
  rcases hg.tables k hm with hm | hm
  · exact hk.2 hm
  · exact hk.1 hm

/-- Pages that the heap had before and the pages it grew by: the old ones are out of reach of the
growth, and together they have frames of their own. -/
theorem behind (hbase : h.base.toNat / 4096 ≤ a) (ho : u.Owned a b)
    (hback : ∀ p e, a ≤ p → p < b → u.leaf p = some e → h.Backs p e) (hg : Grew h u t b c) :
    OutOfReach { p | b ≤ p ∧ p < c } (h.unused b) u a b ∧ t.Owned a c ∧
      ∀ p e, a ≤ p → p < c → t.leaf p = some e → h.Backs p e := by
  have hle := hg.owned.hi_le
  have hlb := ho.hi_le
  have hfar : OutOfReach { p | b ≤ p ∧ p < c } (h.unused b) u a b := by
    intro p hlo hhi
    refine ⟨fun hp => absurd hp.1 (by omega), fun e he => not_mine.mpr
      ⟨ho.notFree hlo hhi he, ho.notTable hlo hhi he, ?_, ?_⟩⟩
    · rintro ⟨hb, hge, _⟩
      have := (hback p e hlo hhi he).2 hb
      omega
    · rintro ⟨q, ⟨hq, hq'⟩, _, e', he', _⟩
      rw [hg.was q hq hq'] at he'
      cases he'
  have hleaf : ∀ p, a ≤ p → p < b → t.leaf p = u.leaf p := fun p hlo hhi =>
    hg.confined.leaf p (by omega) fun hp => absurd hp.1 (by omega)
  refine ⟨hfar, (hg.confined.owned ho hfar).append hg.owned
    fun {p q e e'} hp hp' hq hq' he he' heq => ?_, fun p e hlo hhi he => ?_⟩
  · rw [hleaf p hp hp'] at he
    refine (hfar p hp hp').2 e he ((hg.confined.mine _).mp ?_)
    exact Or.inr (Or.inr (Or.inr ⟨q, ⟨hq, hq'⟩, by omega, e', he', heq.symm⟩))
  · rcases Nat.lt_or_ge p b with hp | hp
    · rw [hleaf p hlo hp] at he
      exact hback p e hlo hp he
    · exact hg.backed p e hp hhi he

theorem trans (hab : a ≤ b) (hbc : b ≤ c) (hbase : h.base.toNat / 4096 ≤ a)
    (h1 : Grew h s u a b) (h2 : Grew h u t b c) : Grew h s t a c := by
  have hle := h2.owned.hi_le
  obtain ⟨_, howned, hbacked⟩ := h2.behind hbase h1.owned h1.backed
  refine ⟨?_, fun p hlo hhi => ?_, howned, hbacked, h2.reaches, h2.frames.trans h1.frames,
    fun k hk => ?_⟩
  · have hleft : { p | a ≤ p ∧ p < b } ⊆ { p | a ≤ p ∧ p < c } := fun p hp =>
      ⟨hp.1, Nat.lt_of_lt_of_le hp.2 hbc⟩
    have hright : { p | b ≤ p ∧ p < c } ⊆ { p | a ≤ p ∧ p < c } := fun p hp =>
      ⟨hab.trans hp.1, hp.2⟩
    exact (h1.confined.mono hleft subset_rfl).trans (h2.confined.mono hright (h.unused_subset hab))
  · rcases Nat.lt_or_ge p b with hp | hp
    · exact h1.was p hlo hp
    · rw [← h1.confined.leaf p (by omega) fun hm => absurd hm.2 (by omega)]
      exact h2.was p hp hhi
  · rcases h2.tables k hk with hk | hk
    · exact h1.tables k hk
    · exact Or.inr (h1.frames hk)

end Grew

/-! ## One pass -/

section Pass

variable {page frame : U32}

private theorem interval_one (a : Nat) : a ∈ { p | a ≤ p ∧ p < a + 1 } := ⟨by omega, by omega⟩

theorem backs_entry (hp : h.Placed) {p : Nat}
    (hframe : h.backing = .contiguous →
      frameNo frame = h.physBase.toNat / 4096 + (p - h.base.toNat / 4096)) :
    h.Backs p (entryFor frame h.flags) := by
  refine ⟨entry_and_low frame hp.flags_lt, fun hb => ?_⟩
  rw [frameNo_entry _ hp.flags_lt]
  exact hframe hb

/-- The new page, when its frame is neither free nor a table afterwards. -/
theorem owned_one (hp : h.Placed) (ha : a < 1023 * 1024)
    (hleaf : t.leaf a = some (entryFor frame h.flags))
    (hk : frameNo frame ∉ t.pmm.frames ∧ ¬t.IsTable (frameNo frame)) : t.Owned a (a + 1) := by
  have hone : ∀ {p e}, a ≤ p → p < a + 1 → t.leaf p = some e → frameNo e = frameNo frame := by
    intro p e hlo hhi he
    rw [show p = a from by omega, hleaf] at he
    cases he
    exact frameNo_entry _ hp.flags_lt
  refine ⟨by omega, fun p hlo hhi => ⟨entryFor frame h.flags, ?_, ?_⟩,
    fun hp1 hp2 hq1 hq2 _ _ _ => by omega, fun hlo hhi he => ?_, fun hlo hhi he => ?_⟩
  · rw [show p = a from by omega]
    exact hleaf
  · rw [writable_entry]
    exact hp.flags_writable
  · rw [hone hlo hhi he]
    exact hk.2
  · rw [hone hlo hhi he]
    exact hk.1

private theorem page_bounds (hp : h.Placed) (hpage : page.toNat = 4096 * a)
    (hroom : 4096 * a + 4096 ≤ h.limit.toNat) :
    page < TABLE_WINDOW ∧ page.toNat / 4096 = a ∧ a < 1023 * 1024 := by
  have hle := hp.limit_le
  have htw : TABLE_WINDOW.toNat = 4096 * (1023 * 1024) := rfl
  rw [htw] at hle
  refine ⟨?_, by omega, by omega⟩
  rw [BitVec.lt_def, htw]
  omega

theorem grew_block (hp : h.Placed) (hs : s.Paged) (hb : h.backing = .contiguous)
    (hpage : page.toNat = 4096 * a) (hlo : h.base.toNat ≤ 4096 * a)
    (hroom : 4096 * a + 4096 ≤ h.limit.toNat)
    (hframe : frame.toNat = h.physBase.toNat + (4096 * a - h.base.toNat))
    (hend : frame.toNat + 4096 ≤ h.physEnd.toNat)
    (hspare : ∀ k ∈ h.window, k ∉ s.pmm.frames ∧ ¬s.IsTable k)
    (hmap : MapPage s page frame h.flags true t) : Grew h s t a (a + 1) := by
  obtain ⟨haddr, hdiv, ha⟩ := page_bounds hp hpage hroom
  obtain ⟨hpal, heal, _, _⟩ := hp.block hb
  have hbal := hp.base_aligned
  have hno : frameNo frame = h.physBase.toNat / 4096 + (a - h.base.toNat / 4096) := by
    rw [frameNo, hframe]
    omega
  have hunused : frameNo frame ∈ h.unused a := by
    refine ⟨hb, le_of_eq hno.symm, ?_⟩
    rw [frameNo]
    omega
  have hleaf : t.leaf a = some (entryFor frame h.flags) := by
    rw [hmap.leaf_done hs haddr ha, if_pos hdiv.symm]
  have hk := hspare _ (h.unused_subset_window a hunused)
  refine ⟨hmap.confined hs haddr hp.flags_lt (by rw [hdiv]; exact interval_one a) hunused,
    fun p h1 h2 => ?_, owned_one hp ha hleaf ⟨fun hm => hk.1 (hmap.frames_subset hm), ?_⟩,
    fun p e h1 h2 he => ?_, fun _ => by omega, hmap.frames_subset, fun k hkt => ?_⟩
  · rw [show p = page.toNat / 4096 from by omega]
    exact hmap.leaf_was
  · exact hmap.not_isTable hs haddr hk.2 hk.1
  · rw [show p = a from by omega, hleaf] at he
    cases he
    exact backs_entry hp fun _ => by rw [hno]; congr 2; omega
  · rcases (hmap.isTable hs haddr).mp hkt with hkt | hkt
    · exact Or.inl hkt
    · exact Or.inr hkt.1

theorem grew_taken (hp : h.Placed) (hs : s.Paged) (hb : h.backing = .scattered)
    (hpage : page.toNat = 4096 * a) (hroom : 4096 * a + 4096 ≤ h.limit.toNat) {k : Nat}
    (hk : k ∈ s.pmm.frames)
    (hmap : MapPage (taking s k) page (Pmm.addressOf k) h.flags true t) : Grew h s t a (a + 1) := by
  obtain ⟨haddr, hdiv, ha⟩ := page_bounds hp hpage hroom
  have hpaged := paged_taking hs k
  have hno : frameNo (Pmm.addressOf k) = k := frameNo_addressOf hk
  have hleaf : t.leaf a = some (entryFor (Pmm.addressOf k) h.flags) := by
    rw [hmap.leaf_done hpaged haddr ha, if_pos hdiv.symm]
  have hcont : h.backing ≠ .contiguous := by
    rw [hb]
    decide
  have hsub : (taking s k).pmm.frames ⊆ s.pmm.frames := by
    rw [frames_taking]
    exact Finset.erase_subset _ _
  refine ⟨hmap.confined_taken hk hs haddr hp.flags_lt (by rw [hdiv]; exact interval_one a),
    fun p h1 h2 => ?_, owned_one hp ha hleaf ?_, fun p e h1 h2 he => ?_,
    fun hc => absurd hc hcont, hmap.frames_subset.trans hsub, fun j hj => ?_⟩
  · rw [show p = page.toNat / 4096 from by omega]
    exact hmap.leaf_was
  · rw [hno]
    refine ⟨fun hm => ?_, hmap.not_isTable_taken hs haddr hk⟩
    have hm' := hmap.frames_subset hm
    rw [frames_taking] at hm'
    exact Finset.notMem_erase _ _ hm'
  · rw [show p = a from by omega, hleaf] at he
    cases he
    exact backs_entry hp fun hc => absurd hc hcont
  · rcases (hmap.isTable hpaged haddr).mp hj with hj | hj
    · exact Or.inl hj
    · exact Or.inr (hsub hj.1)

end Pass

/-! ## The loop -/

/-- A pass that maps its page pays for it. -/
theorem supply_mapped {page frame : U32} (hs : s.Paged) (hpage : page.toNat = 4096 * a)
    (haddr : page < TABLE_WINDOW) (hb : h.backing = .contiguous)
    (hmap : MapPage s page frame h.flags true t) :
    h.cost s.supply a ≤ s.supply.free ∧ t.supply = h.pay s.supply a := by
  have hdir : dirIndex page = a / 1024 := by
    rw [dirIndex_eq]
    omega
  have hcard := hmap.card_frames
  rw [hdir] at hcard
  have hcost : h.cost s.supply a = if a / 1024 ∈ s.slots then 0 else 1 := by
    rw [cost, if_neg (by rw [hb]; decide), Nat.zero_add, slots_supply]
  refine ⟨by rw [free_supply]; omega, Supply.ext ?_ ?_⟩
  · rw [slots_supply, hmap.slots hs haddr, hdir, pay, slots_supply]
  · rw [free_supply, pay, hcost, free_supply]
    dsimp only
    omega

theorem supply_taken {page : U32} {k : Nat} (hs : s.Paged) (hpage : page.toNat = 4096 * a)
    (haddr : page < TABLE_WINDOW) (hb : h.backing = .scattered) (hk : k ∈ s.pmm.frames)
    (hmap : MapPage (taking s k) page (Pmm.addressOf k) h.flags true t) :
    h.cost s.supply a ≤ s.supply.free ∧ t.supply = h.pay s.supply a := by
  have hdir : dirIndex page = a / 1024 := by
    rw [dirIndex_eq]
    omega
  have hslots : (taking s k).slots = s.slots := (sameTables_taking s k).slots hs
  have hcard := hmap.card_frames
  rw [hdir, hslots, frames_taking] at hcard
  have herase := Finset.card_erase_add_one hk
  have hcost : h.cost s.supply a = 1 + if a / 1024 ∈ s.slots then 0 else 1 := by
    rw [cost, if_pos hb, slots_supply]
  refine ⟨by rw [free_supply]; omega, Supply.ext ?_ ?_⟩
  · rw [slots_supply, hmap.slots (paged_taking hs k) haddr, hslots, hdir, pay, slots_supply]
  · rw [free_supply, pay, hcost, free_supply]
    dsimp only
    omega

/-- A refused page is one that the heap cannot afford, unless the page is mapped or the rights are
those of a user. -/
theorem not_affords_mapped {page frame : U32} (hpage : page.toNat = 4096 * a)
    (hmap : MapPage s page frame h.flags false t) (hflags : h.flags &&& USER = 0)
    (hleaf : s.leaf a = none) : ¬h.Affords s.supply a := by
  have hdiv : page.toNat / 4096 = a := by omega
  obtain ⟨hslot, hempty⟩ := hmap.no_table hflags (by rw [hdiv]; exact hleaf)
  rw [dirIndex_eq, hdiv] at hslot
  rintro ⟨_, _, hcost⟩
  rw [cost, slots_supply, if_neg hslot, free_supply, hempty, Finset.card_empty] at hcost
  omega

theorem not_affords_taken {page : U32} {k : Nat} (hs : s.Paged) (hpage : page.toNat = 4096 * a)
    (hb : h.backing = .scattered) (hk : k ∈ s.pmm.frames)
    (hmap : MapPage (taking s k) page (Pmm.addressOf k) h.flags false t)
    (hflags : h.flags &&& USER = 0) (hleaf : s.leaf a = none) : ¬h.Affords s.supply a := by
  have hdiv : page.toNat / 4096 = a := by omega
  obtain ⟨hslot, hempty⟩ := hmap.no_table hflags (by rw [hdiv]; exact hleaf)
  rw [(sameTables_taking s k).slots hs, dirIndex_eq, hdiv] at hslot
  rw [frames_taking] at hempty
  have herase := Finset.card_erase_add_one hk
  rw [hempty, Finset.card_empty] at herase
  rintro ⟨_, _, hcost⟩
  rw [cost, slots_supply, if_neg hslot, if_pos hb, free_supply] at hcost
  omega

/-- One pass of the loop stops with nothing changed but the reports, or maps one page and goes
on. -/
def GrowPass (h : Heap) (s : Machine) (n : Nat) (page : U32) (a : Nat) : Prop :=
  (∃ t, (growLoop h (n + 1) page).run s = .ok (page, t) ∧ Untouched s t ∧
      (h.flags &&& USER = 0 → s.leaf a = none → ¬h.Affords s.supply a)) ∨
    ∃ t, (growLoop h (n + 1) page).run s = (growLoop h n (page + PAGE_SIZE)).run t ∧
      Grew h s t a (a + 1) ∧ h.Affords s.supply a ∧ t.supply = h.pay s.supply a

section Pass

variable {page : U32}

/-- With a frame of the block. -/
theorem growLoop_block (hp : h.Placed) (hs : s.Paged) (n : Nat) (hpage : page.toNat = 4096 * a)
    (hlo : h.base.toNat ≤ 4096 * a) (hroom : 4096 * a + 4096 ≤ h.limit.toNat)
    (hspare : ∀ k ∈ h.window, k ∉ s.pmm.frames ∧ ¬s.IsTable k)
    (hgo : ¬page + PAGE_SIZE > h.limit) (hb : h.backing = .contiguous) {frame : U32}
    (hframe : (frameFor h page).run s = .ok (some frame, s))
    (hno : frame.toNat = h.physBase.toNat + (4096 * a - h.base.toNat))
    (hend : frame.toNat + 4096 ≤ h.physEnd.toNat) : GrowPass h s n page a := by
  obtain ⟨ok, t, hrun, hmap⟩ := mapPage_run hs page frame h.flags
  unfold GrowPass
  rw [growLoop, if_neg hgo, Prog.bind_ok hframe]
  dsimp only
  rw [Prog.bind_ok hrun]
  cases ok with
  | false =>
    have hwhy := not_affords_mapped hpage hmap
    obtain ⟨o, rfl⟩ := hmap.eq_report
    refine Or.inl ⟨_, ?_, untouched_report s o, hwhy⟩
    rw [if_neg (by decide), if_neg (by rw [hb]; decide)]
    rfl
  | true =>
    obtain ⟨hcost, hsupply⟩ := supply_mapped hs hpage (page_bounds hp hpage hroom).1 hb hmap
    exact Or.inr ⟨t, by rw [if_pos rfl], grew_block hp hs hb hpage hlo hroom hno hend hspare hmap,
      ⟨hroom, fun _ => by omega, hcost⟩, hsupply⟩

/-- With a frame of the allocator, which takes it back if the page is refused. -/
theorem growLoop_taken (hp : h.Placed) (hs : s.Paged) (n : Nat) (hpage : page.toNat = 4096 * a)
    (hroom : 4096 * a + 4096 ≤ h.limit.toNat) (hgo : ¬page + PAGE_SIZE > h.limit)
    (hb : h.backing = .scattered) {k : Nat} (hk : k ∈ s.pmm.frames)
    (hframe : (frameFor h page).run s = .ok (some (Pmm.addressOf k), taking s k)) :
    GrowPass h s n page a := by
  obtain ⟨ok, t, hrun, hmap⟩ := mapPage_run (paged_taking hs k) page (Pmm.addressOf k) h.flags
  unfold GrowPass
  rw [growLoop, if_neg hgo, Prog.bind_ok hframe]
  dsimp only
  rw [Prog.bind_ok hrun]
  cases ok with
  | false =>
    have hwhy := not_affords_taken hs hpage hb hk hmap
    obtain ⟨o, rfl⟩ := hmap.eq_report
    refine Or.inl ⟨{ report (taking s k) o with
      pmm := (s.pmm.setUsed k).freeFrame (Pmm.addressOf k) }, ?_,
      ⟨rfl, freeFrame_taken hk, rfl, rfl⟩, hwhy⟩
    rw [if_neg (by decide), if_pos hb]
    rfl
  | true =>
    obtain ⟨hcost, hsupply⟩ := supply_taken hs hpage (page_bounds hp hpage hroom).1 hb hk hmap
    exact Or.inr ⟨t, by rw [if_pos rfl], grew_taken hp hs hb hpage hroom hk hmap,
      ⟨hroom, fun hc => (by rw [hb] at hc; cases hc), hcost⟩, hsupply⟩

theorem growLoop_pass (hp : h.Placed) (hs : s.Paged) (n : Nat) (hpage : page.toNat = 4096 * a)
    (hlo : h.base.toNat ≤ 4096 * a) (hhi : 4096 * a ≤ h.limit.toNat) (hreach : h.Reaches a)
    (hspare : ∀ k ∈ h.window, k ∉ s.pmm.frames ∧ ¬s.IsTable k) : GrowPass h s n page a := by
  have hle := hp.limit_le
  rw [show TABLE_WINDOW.toNat = 0xFFC00000 from rfl] at hle
  have htest : page + PAGE_SIZE > h.limit ↔ h.limit.toNat < 4096 * a + 4096 := by
    rw [gt_iff_lt, BitVec.lt_def, BitVec.toNat_add, hpage, show PAGE_SIZE.toNat = 4096 from rfl]
    omega
  by_cases hroom : 4096 * a + 4096 ≤ h.limit.toNat
  · have hgo : ¬page + PAGE_SIZE > h.limit := fun hgt => by
      have := htest.mp hgt
      omega
    obtain ⟨r, u, hframe, hcase⟩ := frameFor_run hp s page hpage hlo hroom hreach
    cases hcase with
    | usedUp hb hend =>
      refine Or.inl ⟨_, ?_, untouched_report s (.outOfBlock h.name), fun _ _ haff => ?_⟩
      · rw [growLoop, if_neg hgo, Prog.bind_ok hframe, Prog.run_pure]
      · have := haff.2.1 hb
        omega
    | noFrame hb hempty =>
      refine Or.inl ⟨_, ?_, untouched_report s (.noFrame h.name), fun _ _ haff => ?_⟩
      · rw [growLoop, if_neg hgo, Prog.bind_ok hframe, Prog.run_pure]
      · have hcost := haff.2.2
        rw [cost, if_pos hb, free_supply, hempty, Finset.card_empty] at hcost
        omega
    | block hb hno hend =>
      exact growLoop_block hp hs n hpage hlo hroom hspare hgo hb hframe hno hend
    | free hb hk _ => exact growLoop_taken hp hs n hpage hroom hgo hb hk hframe
  · refine Or.inl ⟨_, ?_, untouched_report s (.endOfRange h.name), fun _ _ haff => hroom haff.1⟩
    rw [growLoop, if_pos (htest.mpr (by omega)), Prog.bind_ok (run_koops s _), Prog.run_pure]

end Pass

/-- From page `a` on nothing but the supply can refuse a page: none is mapped, and the rights are
not those of a user. -/
def OpenFrom (h : Heap) (s : Machine) (a : Nat) : Prop :=
  h.flags &&& USER = 0 ∧ ∀ p, a ≤ p → p < h.limit.toNat / 4096 → s.leaf p = none

theorem OpenFrom.grew (ho : h.OpenFrom s a) (hp : h.Placed) (hg : Grew h s t a b) (hab : a ≤ b) :
    h.OpenFrom t b := by
  have hle := hp.limit_page
  refine ⟨ho.1, fun p h1 h2 => ?_⟩
  rw [hg.confined.leaf p (by omega) fun hm => absurd hm.2 (by omega)]
  exact ho.2 p (by omega) h2

theorem growLoop_run (hp : h.Placed) (n : Nat) : ∀ (page : U32) (a : Nat) {s : Machine},
    s.Paged → page.toNat = 4096 * a → h.base.toNat ≤ 4096 * a → 4096 * a ≤ h.limit.toNat →
    h.Reaches a → (∀ k ∈ h.window, k ∉ s.pmm.frames ∧ ¬s.IsTable k) →
    ∃ top t b, (growLoop h n page).run s = .ok (top, t) ∧ top.toNat = 4096 * b ∧ a ≤ b ∧
      b ≤ a + n ∧ 4096 * b ≤ h.limit.toNat ∧ Grew h s t a b ∧ (b = a → Untouched s t) ∧
      (h.OpenFrom s a → b = a + h.grants n a s.supply ∧ (b < a + n → ¬h.Affords t.supply b)) := by
  have hle := hp.limit_page
  induction n with
  | zero =>
    intro page a s hs hpage hlo hhi hreach _
    exact ⟨page, s, a, rfl, hpage, by omega, by omega, hhi,
      .none hs (by omega) hreach (.refl s), fun _ => .refl s, fun _ => ⟨rfl, fun h => by omega⟩⟩
  | succ n ih =>
    intro page a s hs hpage hlo hhi hreach hspare
    rcases growLoop_pass hp hs n hpage hlo hhi hreach hspare with
      ⟨t, hrun, hu, hwhy⟩ | ⟨u, hrun, hgrew, haff, hpaid⟩
    · refine ⟨page, t, a, hrun, hpage, by omega, by omega, hhi, .none hs (by omega) hreach hu,
        fun _ => hu, fun hopen => ?_⟩
      have hstop : ¬h.Affords s.supply a := fun haff => by
        have := haff.1
        exact hwhy hopen.1 (hopen.2 a (le_refl a) (by omega)) haff
      rw [(hu.sameMap hs).supply]
      exact ⟨by rw [grants_stop hstop, Nat.add_zero], fun _ => hstop⟩
    · have hroom := haff.1
      have hnext : (page + PAGE_SIZE).toNat = 4096 * (a + 1) := by
        rw [BitVec.toNat_add, hpage, show PAGE_SIZE.toNat = 4096 from rfl]
        have := hp.limit_le
        rw [show TABLE_WINDOW.toNat = 0xFFC00000 from rfl] at this
        omega
      obtain ⟨top, t, b, hrest, htop, hab, hbn, hbl, hg, _, hexact⟩ :=
        ih (page + PAGE_SIZE) (a + 1) hgrew.confined.paged hnext (by omega) (by omega)
          hgrew.reaches fun k hk => hgrew.spare (hspare k hk)
      refine ⟨top, t, b, by rw [hrun, hrest], htop, by omega, by omega, hbl,
        hgrew.trans (by omega) hab (by omega) hg, fun hba => by omega, fun hopen => ?_⟩
      obtain ⟨hcount, hstop⟩ := hexact (hopen.grew hp hgrew (by omega))
      refine ⟨?_, fun hlt => hstop (by omega)⟩
      rw [grants_go haff, ← hpaid, hcount]
      omega

/-! ## The header of the new room -/

section Room

variable {bs : List Block} {lo hi : Nat}

/-- `grow` writes a header at the old break when the last block is in use or there is none. -/
theorem run_newHeader (hv : View lo hi u.virt u) {base brk top : U32} (hlo : 4096 * lo ≤ base.toNat)
    (hal : brk.toNat % 8 = 0) (htiles : Tiles u.virt base.toNat bs)
    (hspan : base.toNat + span bs = brk.toNat) {n : Nat} (hn : n % 8 = 0) (hn16 : 16 ≤ n)
    (htop : top.toNat = brk.toNat + n) (hhi : top.toNat ≤ 4096 * hi) :
    ∃ t, (writeHeader brk ((top - brk) - HEADER) false).run u = .ok ((), t) ∧ Wrote lo hi u t ∧
      Tiles t.virt base.toNat (bs ++ [room n hn hn16]) ∧
      ∀ p, base.toNat ≤ p → p < brk.toNat → t.virt p = u.virt p := by
  have hle := hv.owned.hi_le
  have hsize : (top - brk) - HEADER = BitVec.ofNat 32 (room n hn hn16).size := by
    apply BitVec.eq_of_toNat_eq
    rw [BitVec.toNat_ofNat, room]
    bv_omega
  obtain ⟨t, hrun, hwrote, hview⟩ :=
    run_writeHeader hv _ ((top - brk) - HEADER) false hal (by omega) (by omega)
  refine ⟨t, hrun, hwrote, ?_, fun p h1 h2 => ?_⟩
  · refine hview.tiles hlo (by simp only [span_append, span_cons, span_nil, room]; omega) ?_
    refine tiles_append.mpr ⟨tiles_congr (fun p hp => ?_) htiles, ?_, trivial⟩
    · have := hp.bounds
      exact putHeader_other _ _ _ (by omega)
    · rw [hspan, hsize]
      exact header_putHeader _ _ (room n hn hn16)
  · rw [hview.sees p (by omega) (by omega)]
    exact putHeader_other _ _ _ (by omega)

/-- It writes the header of the last block when that is free. -/
theorem run_growHeader (hv : View lo hi u.virt u) {base brk top : U32} {xs : List Block}
    {b : Block} (hb : b.used = false) (hlo : 4096 * lo ≤ base.toNat) (hal : base.toNat % 8 = 0)
    (htiles : Tiles u.virt base.toNat (xs ++ [b]))
    (hspan : base.toNat + span (xs ++ [b]) = brk.toNat) {n : Nat} (hn : n % 8 = 0)
    (htop : top.toNat = brk.toNat + n) (hhi : top.toNat ≤ 4096 * hi) :
    ∃ t, (writeHeader (BitVec.ofNat 32 (base.toNat + span xs))
          (BitVec.ofNat 32 b.size + (top - brk)) false).run u = .ok ((), t) ∧ Wrote lo hi u t ∧
      Tiles t.virt base.toNat (xs ++ [grown b n hn]) ∧
      ∀ p, p < base.toNat + span xs → 4096 * lo ≤ p → t.virt p = u.virt p := by
  have hle := hv.owned.hi_le
  have hmod := span_mod xs
  rw [span_append, span_cons, span_nil] at hspan
  have hblock : (BitVec.ofNat 32 (base.toNat + span xs)).toNat = base.toNat + span xs := by
    rw [BitVec.toNat_ofNat]
    omega
  have hsize : BitVec.ofNat 32 b.size + (top - brk) = BitVec.ofNat 32 (grown b n hn).size := by
    apply BitVec.eq_of_toNat_eq
    rw [BitVec.toNat_add, BitVec.toNat_ofNat, BitVec.toNat_ofNat,
      show (grown b n hn).size = b.size + n from rfl,
      BitVec.toNat_sub_of_le (by rw [BitVec.le_def]; omega)]
    omega
  obtain ⟨t, hrun, hwrote, hview⟩ := run_writeHeader hv
    (BitVec.ofNat 32 (base.toNat + span xs)) (BitVec.ofNat 32 b.size + (top - brk)) false
    (by omega) (by omega) (by omega)
  rw [hblock] at hview
  refine ⟨t, hrun, hwrote, ?_, fun p h1 h2 => ?_⟩
  · refine hview.tiles hlo (by simp only [span_append, span_cons, span_nil, grown]; omega) ?_
    refine tiles_append.mpr ⟨tiles_congr (fun p hp => ?_) (tiles_append.mp htiles).1, ?_, trivial⟩
    · have := hp.bounds
      exact putHeader_other _ _ _ (by omega)
    · rw [hsize]
      have hput := header_putHeader u.virt (base.toNat + span xs) (grown b n hn)
      rw [show (grown b n hn).used = false from hb] at hput
      exact hput
  · rw [hview.sees p (by omega) (by omega)]
    exact putHeader_other _ _ _ (by omega)

/-- The header of the new room joins a free last block with it, or makes it a block. -/
theorem growTail_run (hv : View lo hi u.virt u) {top : U32} (hlo : 4096 * lo ≤ h.base.toNat)
    (hal8 : h.base.toNat % 8 = 0) (htiles : Tiles u.virt h.base.toNat bs)
    (hspan : h.base.toNat + span bs = h.brk.toNat) {n : Nat} (hn : n % 8 = 0) (hn16 : 16 ≤ n)
    (htop : top.toNat = h.brk.toNat + n) (hhi : top.toNat ≤ 4096 * hi) :
    ∃ t, (h.growTail h.brk top).run u = .ok ((), t) ∧ Wrote lo hi u t ∧
      Tiles t.virt h.base.toNat (extend bs n hn hn16) ∧
      ∀ q m, (q, m) ∈ Blocks.usedAt h.base.toNat bs → ∀ p, q ≤ p → p < q + 8 + m →
        t.virt p = u.virt p := by
  have hle := hv.owned.hi_le
  have hmod := span_mod bs
  have hlast := run_lastBlock hv h (by omega) ⟨hal8, hlo, htiles, hspan⟩
  obtain ⟨t, hnew, hwrote, htiles', hkeep⟩ :=
    run_newHeader hv hlo (by omega) htiles hspan hn hn16 htop hhi
  rcases List.eq_nil_or_concat bs with rfl | ⟨xs, c, rfl⟩
  · -- an empty heap
    refine ⟨t, ?_, hwrote, htiles', fun q m hq => absurd hq List.not_mem_nil⟩
    rw [growTail, Prog.bind_ok hlast]
    exact hnew
  · rw [List.concat_eq_append] at htiles hspan hlast htiles' ⊢
    have hmodx := span_mod xs
    have hsum := hspan
    rw [span_append, span_cons, span_nil] at hsum
    have hblock : (BitVec.ofNat 32 (h.base.toNat + span xs)).toNat = h.base.toNat + span xs := by
      rw [BitVec.toNat_ofNat]
      omega
    have hhead := tiles_header htiles
    rw [← hblock] at hhead
    have hused := run_usedAt hv (by omega) (by omega) (by omega) hhead
    have hsize := run_sizeAt hv (by omega) (by omega) (by omega) hhead
    rw [lastAt_snoc, Option.map_some] at hlast
    cases hc : c.used with
    | true =>
      rw [List.append_assoc] at htiles'
      refine ⟨t, ?_, hwrote, by rw [extend_snoc_used hn hn16 xs hc]; exact htiles',
        fun q m hq p h1 h2 => ?_⟩
      · rw [growTail, Prog.bind_ok hlast]
        dsimp only
        rw [Prog.bind_ok hused, hc, if_pos rfl, hnew]
      · have := usedAt_bounds hq
        exact hkeep p (by omega) (by omega)
    | false =>
      obtain ⟨t, hgrow, hwrote, htiles', hkeep⟩ :=
        run_growHeader hv hc hlo hal8 htiles hspan hn htop hhi
      refine ⟨t, ?_, hwrote, by rw [extend_snoc_free hn hn16 xs hc]; exact htiles',
        fun q m hq p h1 h2 => ?_⟩
      · rw [growTail, Prog.bind_ok hlast]
        dsimp only
        rw [Prog.bind_ok hused, hc, if_neg (by decide), Prog.bind_ok hsize, hgrow]
      · -- a block in use lies before the last one
        rw [usedAt_append, usedAt_free hc] at hq
        have := usedAt_bounds ((List.mem_append.mp hq).resolve_right List.not_mem_nil)
        exact hkeep p (by omega) (by omega)

end Room

/-! ## `grow` -/

section Grow

variable {bs : List Block}

/-- The heap with the pages it grew by: the blocks are where they were. -/
theorem Inv.grew (hi : Inv h s bs)
    (hg : Grew h s u (h.brk.toNat / 4096) b) :
    View (h.base.toNat / 4096) b u.virt u ∧
      (∀ p e, h.base.toNat / 4096 ≤ p → p < b → u.leaf p = some e → h.Backs p e) ∧
      (∀ a, h.base.toNat ≤ a → a < h.brk.toNat → u.virt a = s.virt a) ∧
      Tiles u.virt h.base.toNat bs := by
  obtain ⟨hbase, hbrk⟩ := hi.pages
  have hspan := hi.span
  obtain ⟨hfar, howned, hbacked⟩ := hg.behind (le_refl _) hi.owned hi.backed
  have hvirt : ∀ a, h.base.toNat ≤ a → a < h.brk.toNat → u.virt a = s.virt a := fun a h1 h2 =>
    hg.confined.virt hi.owned hfar (by omega) (by omega)
  refine ⟨.self hg.confined.paged howned, hbacked, hvirt, tiles_congr (fun p hp => ?_) hi.tiles⟩
  have := hp.bounds
  exact hvirt p (by omega) (by omega)

/-- The break moved up by `m` pages and the header of the new room written. -/
theorem Inv.grow_effect (hi : Inv h s bs) {m : Nat} (hbl : h.brk.toNat + 4096 * m ≤ h.limit.toNat)
    (hg : Grew h s u (h.brk.toNat / 4096) (h.brk.toNat / 4096 + m)) {top : U32}
    (htop : top.toNat = h.brk.toNat + 4096 * m)
    (hw : Wrote (h.base.toNat / 4096) (h.brk.toNat / 4096 + m) u t) {bs' : List Block}
    (htiles : Tiles t.virt h.base.toNat bs')
    (hspan : Blocks.span bs' = Blocks.span bs + 4096 * m)
    (hkeep : ∀ q n, (q, n) ∈ Blocks.usedAt h.base.toNat bs → ∀ p, q ≤ p → p < q + 8 + n →
      t.virt p = u.virt p) :
    Effect h { h with brk := top } s t bs bs' := by
  obtain ⟨hbase, hbrk⟩ := hi.pages
  have hbal := hi.brk_aligned
  have hle := hi.placed.limit_page
  have hib := hi.base_le
  have hspan0 := hi.span
  obtain ⟨hview, hbacked, hvirt, _⟩ := hi.grew hg
  have hdiv : top.toNat / 4096 = h.brk.toNat / 4096 + m := by omega
  have hleaf : ∀ {p}, p < 1023 * 1024 → t.leaf p = u.leaf p := fun hp =>
    hw.leaf hview.paged hview.owned (by omega)
  have hmem : ∀ p, h.base.toNat / 4096 ≤ p → p < h.brk.toNat / 4096 + m → p ∈ h.range :=
    fun p h1 h2 => ⟨h1, by omega⟩
  refine ⟨⟨hi.placed.withBrk top, hw.paged hview.paged hview.owned, ?_, ?_, ?_, ?_,
    fun p e h1 h2 he => ?_, fun hb => ?_, fun k hk => ?_, htiles, ?_⟩, rfl, ?_,
    fun q n hq p h1 h2 => ?_, fun hclear p h1 h2 => ?_⟩
  · show top.toNat % 4096 = 0
    omega
  · show h.base.toNat ≤ top.toNat
    omega
  · show top.toNat ≤ h.limit.toNat
    omega
  · show t.Owned _ (top.toNat / 4096)
    rw [hdiv]
    exact hw.owned hview.paged hview.owned
  · have h2' : p < h.brk.toNat / 4096 + m := hdiv ▸ h2
    rw [hleaf (by omega)] at he
    exact hbacked p e h1 h2' he
  · show h.physBase.toNat + (top.toNat - h.base.toNat) ≤ h.physEnd.toNat
    have hr := hg.reaches hb
    rw [htop, ← hbrk, ← Nat.mul_add]
    exact hr
  · rw [hw.pmm, (hw.sameTables hview.owned).isTable_iff hview.paged]
    exact hg.spare (hi.spare k hk)
  · show h.base.toNat + Blocks.span bs' = top.toNat
    omega
  · refine (hg.confined.mono (fun p hp => ?_) (h.unused_subset_window _)).trans
      (hw.confined hview.paged hview.owned hmem)
    have hp1 := hp.1
    exact hmem p (by omega) hp.2
  · have hbounds := usedAt_bounds hq
    rw [hkeep q n hq p (by omega) h2]
    exact hvirt p (by omega) (by omega)
  · have h1' : h.brk.toNat / 4096 + m ≤ p := hdiv ▸ h1
    have h2' : p < h.limit.toNat / 4096 := h2
    rw [hleaf (by omega), hg.confined.leaf p (by omega) fun hp => absurd hp.2 (by omega)]
    exact hclear p (by omega) h2'

/-- Nothing but the supply can refuse the heap a page. -/
def Open (h : Heap) (s : Machine) : Prop := h.OpenFrom s (h.brk.toNat / 4096)

/-- The outcomes of `grow`: no page, or some pages with a header for the new room. -/
inductive Grow (h : Heap) (s : Machine) (bs : List Block) (pages : Nat) :
    Bool → Heap → Machine → List Block → Prop where
  | refused {t : Machine} (hu : Untouched s t)
      (hwhy : h.Open s → h.offered s.supply pages = 0) : Grow h s bs pages false h t bs
  | grew {t : Machine} {m : Nat} (hal : 4096 * m % 8 = 0) (hlarge : 16 ≤ 4096 * m) {top : U32}
      (htop : top.toNat = h.brk.toNat + 4096 * m) (hm : m ≤ pages)
      (he : Effect h { h with brk := top } s t bs (extend bs (4096 * m) hal hlarge))
      (hleaf : ∀ p, p < 1023 * 1024 → ¬(h.brk.toNat / 4096 ≤ p ∧ p < top.toNat / 4096) →
        t.leaf p = s.leaf p)
      (hcount : h.Open s → m = h.offered s.supply pages ∧
        (m < pages → ¬h.Affords t.supply (top.toNat / 4096))) :
      Grow h s bs pages true { h with brk := top } t (extend bs (4096 * m) hal hlarge)

theorem grow_run (hi : Inv h s bs) (pages : U32) :
    ∃ ok h' t bs', (h.grow pages).run s = .ok ((ok, h'), t) ∧
      Grow h s bs pages.toNat ok h' t bs' := by
  obtain ⟨hbase, hbrk⟩ := hi.pages
  have hbal := hi.brk_aligned
  have hal8 := hi.placed.base_aligned
  have hspan := hi.span
  have hreach : h.Reaches (h.brk.toNat / 4096) := fun hb => by
    rw [hbrk]
    exact hi.fits hb
  have hlim := hi.brk_le
  have hle := hi.base_le
  obtain ⟨top, u, b, hloop, htop, hab, hbn, hbl, hg, hsame, hexact⟩ :=
    growLoop_run hi.placed pages.toNat h.brk (h.brk.toNat / 4096) hi.paged hbrk.symm (by omega)
      (by omega) hreach hi.spare
  by_cases hb : b = h.brk.toNat / 4096
  · have heq : top = h.brk := BitVec.eq_of_toNat_eq (by rw [htop, hb, hbrk])
    refine ⟨false, h, u, bs, ?_, .refused (hsame hb) fun hopen => ?_⟩
    · rw [grow, Prog.bind_ok hloop, if_pos heq, Prog.run_pure]
    · have := (hexact hopen).1
      rw [offered]
      omega
  · obtain ⟨m, rfl⟩ := Nat.exists_eq_add_of_le hab
    have hne : top ≠ h.brk := fun heq => hb (by rw [heq] at htop; omega)
    have htop' : top.toNat = h.brk.toNat + 4096 * m := by omega
    have hal : 4096 * m % 8 = 0 := by omega
    have hlarge : 16 ≤ 4096 * m := by omega
    obtain ⟨hview, _, _, htiles⟩ := hi.grew hg
    obtain ⟨t, htail, hwrote, htiles', hkeep⟩ :=
      growTail_run hview (by omega) (by omega) htiles hspan hal hlarge htop' (by omega)
    refine ⟨true, _, t, _, ?_, .grew hal hlarge htop' (by omega)
      (hi.grow_effect (by omega) hg htop' hwrote htiles' (span_extend hal hlarge bs) hkeep)
      (fun p hp hout => ?_) fun hopen => ?_⟩
    · rw [grow, Prog.bind_ok hloop, if_neg hne, Prog.bind_ok htail, Prog.run_pure]
    · rw [hwrote.leaf hview.paged hview.owned (by omega)]
      refine hg.confined.leaf p hp fun hin => hout ⟨hin.1, ?_⟩
      have := hin.2
      omega
    · obtain ⟨hcount, hstop⟩ := hexact hopen
      rw [(hwrote.sameMap hview.paged hview.owned).supply, offered,
        show top.toNat / 4096 = h.brk.toNat / 4096 + m from by omega]
      exact ⟨by omega, fun hlt => hstop (by omega)⟩

end Grow

end Kfs.Heap
