import Kfs.Boot

/-!
# The page-table operations as updates of a partial map

`pages s` is what the hardware walk sees below the table window: a partial map from pages to a
frame and twelve flag bits.  `Reachable` collects the states that `paging::init` and any calls of
the paging functions lead to.

* `Reachable.paged` is the run lemma: every call keeps the shape `Paged`.  The step that needs an
  argument is `map_new` with flags that reach into the frame bits.  Its zeroing loop may then write
  to a page table, and if it meets the directory it faults before it is done.
* `translate_eq_walk` and `paging_refines_map` are the results.
-/

namespace Kfs.Paging

open Lib Mem Machine

/-! ## The abstract map -/

/-- A page below the table window. -/
abbrev Page : Type := Fin (1023 * 1024)

/-- An address below the table window. -/
abbrev LowAddr : Type := { a : U32 // a < TABLE_WINDOW }

/-- The page of an address. -/
def LowAddr.page (a : LowAddr) : Page := ⟨a.val.toNat / 4096, addr_page_lt a.property⟩

/-- What the hardware walk sees: the frame and the low twelve bits of each mapped page. -/
def pages (s : Machine) (p : Page) : Option (U32 × U32) :=
  (s.leaf p).map fun e => (e &&& FRAME, e &&& 0xFFF)

/-! ## Reachable states -/

/-- The calls of the paging functions, and a free of a frame. -/
inductive Op where
  | getPage (addr : LowAddr) (create : Bool)
  | mapPage (addr : LowAddr) (frame flags : U32)
  | mapNew (addr : LowAddr) (flags : U32)
  | unmapPage (addr : LowAddr)
  | protect (addr : LowAddr) (flags : U32)
  | freeFrame (phys : U32)

/-- The call, with its answer dropped. -/
def Op.call : Op → Kernel Unit
  | .getPage addr create => do let _ ← Paging.getPage addr.val create
  | .mapPage addr frame flags => do let _ ← Paging.mapPage addr.val frame flags
  | .mapNew addr flags => do let _ ← Paging.mapNew addr.val flags
  | .unmapPage addr => do let _ ← Paging.unmapPage addr.val
  | .protect addr flags => do let _ ← Paging.protect addr.val flags
  | .freeFrame phys => Kfs.freeFrame phys

/-- Only frames that hold data are freed. -/
def Op.Allowed (s : Machine) : Op → Prop
  | .freeFrame phys => ¬s.IsTable (phys.toNat / 4096)
  | _ => True

/-- The states that `boot.asm`, `paging::init` and then any calls lead to.  The allocator's state
is any in which no frame of the image is free. -/
inductive Reachable (L : Layout) : Machine → Prop where
  | init {s t : Machine} (p : Pmm) (hload : Loaded L s)
      (hfree : ∀ k, L.InImage k → k ∉ p.frames)
      (hrun : (Paging.init L.image L.kernelTable).run { bootAsm L s with pmm := p }
        = .ok ((), t)) : Reachable L t
  | step {s t : Machine} {op : Op} (hs : Reachable L s) (hop : op.Allowed s)
      (hrun : op.call.run s = .ok ((), t)) : Reachable L t

/-! ## Every call keeps the shape of the tables -/

section Keep

variable {s t : Machine}

theorem paged_report (hs : s.Paged) (o : Oops) : (report s o).Paged :=
  SameTables.paged (s := s) (t := report s o) ⟨rfl, fun _ _ => rfl⟩ hs hs.tablesUsed

theorem paged_freeFrame (hs : s.Paged) {phys : U32} (h : ¬s.IsTable (phys.toNat / 4096)) :
    ({ s with pmm := s.pmm.freeFrame phys } : Machine).Paged := by
  refine SameTables.paged (s := s) ⟨rfl, fun _ _ => rfl⟩ hs fun k hk hm => ?_
  have hmem : k ∈ (s.pmm.freeFrame phys).frames := hm
  rw [Pmm.frames_freeFrame, Finset.mem_insert] at hmem
  rcases hmem with rfl | hmem
  · exact h hk
  · exact hs.tablesUsed k hk hmem

/-- An access through a page whose frame is not the directory leaves the page alone or unmaps
it: the frame may be the table that holds the page's own entry. -/
theorem store_zero_step {page e : U32} {i : Nat} (hi : i < 1024) (hpage : page.toNat % 4096 = 0)
    (hne : frameNo e ≠ frameNo s.cr3)
    (hleaf : s.leaf (page.toNat / 4096) = some e ∨ s.leaf (page.toNat / 4096) = none)
    (hrun : (store32 (ptrAdd page i) 0).run s = .ok ((), t)) :
    t.cr3 = s.cr3 ∧ t.pmm = s.pmm ∧ (∀ a, a / 4096 = frameNo s.cr3 → t.mem a = s.mem a) ∧
      (t.leaf (page.toNat / 4096) = some e ∨ t.leaf (page.toNat / 4096) = none) := by
  have hlt := page.isLt
  have hptr : (ptrAdd page i).toNat = page.toNat + 4 * i := by
    rw [ptrAdd, BitVec.toNat_add, BitVec.toNat_ofNat]
    omega
  obtain ⟨e', hleaf', ht⟩ := store32_inv (by rw [hptr]; omega) hrun
  rw [show (ptrAdd page i).toNat / 4096 = page.toNat / 4096 from by rw [hptr]; omega] at hleaf'
  rw [show (ptrAdd page i).toNat % 4096 = 4 * i from by rw [hptr]; omega] at ht
  have hee : e' = e := by
    rcases hleaf with h | h <;> rw [h] at hleaf'
    · exact (Option.some.inj hleaf').symm
    · cases hleaf'
  subst hee
  have hmem : ∀ a, a / 4096 ≠ frameNo e' → t.mem a = s.mem a := by
    intro a ha
    rw [ht]
    exact ByteMem.write32_other _ _ (by omega)
  have hcr3 : t.cr3 = s.cr3 := by rw [ht]
  have hdir : ∀ a, a / 4096 = frameNo s.cr3 → t.mem a = s.mem a := fun a ha =>
    hmem a (by rw [ha]; exact hne.symm)
  refine ⟨hcr3, by rw [ht], hdir, ?_⟩
  have hdw : t.dirWord (page.toNat / 4096 / 1024) = s.dirWord (page.toNat / 4096 / 1024) :=
    dirWord_congr hcr3 hdir (by omega)
  -- the word is the page's own entry, or the entry keeps its value
  by_cases hown : frameNo (s.dirWord (page.toNat / 4096 / 1024)) = frameNo e' ∧
      page.toNat / 4096 % 1024 = i
  · refine Or.inr (leaf_eq_none_of_tab ?_)
    rw [tabWord, hdw, hown.1, hown.2, ht]
    dsimp only
    rw [ByteMem.read32_write32_same]
    decide
  · refine Or.inl ?_
    rw [leaf_congr hdw fun _ => ?_]
    · exact hleaf'
    · rw [tabWord, tabWord, hdw, ht]
      refine ByteMem.read32_write32_other _ _ ?_
      omega

/-- The loop cannot zero the directory: once the page's own directory entry is gone, the next
store faults. -/
theorem zeroLoop_frame_ne (hs : s.Paged) {page e : U32} (hpage : page.toNat % 4096 = 0)
    (hlow : page.toNat / 4096 / 1024 < 1023) (hleaf : s.leaf (page.toNat / 4096) = some e)
    (hrun : (Prog.forRange (fun i => store32 (ptrAdd page i) 0) 0 1024).run s = .ok ((), t)) :
    frameNo e ≠ frameNo s.cr3 := by
  intro heq
  have hlt := page.isLt
  obtain ⟨hdirp, htab, hep⟩ := present_of_leaf hleaf
  have hne := hs.table_ne_cr3 hlow hdirp
  -- before pass `i ≤ d` the walk is whole, after pass `d` it is cut, and no later pass returns
  have hinv := Prog.forRange_ok (f := fun i => store32 (ptrAdd page i) 0)
    (I := fun i u => u.cr3 = s.cr3 ∧
      (i ≤ page.toNat / 4096 / 1024 → u.leaf (page.toNat / 4096) = some e ∧
        u.dirWord (page.toNat / 4096 / 1024) = s.dirWord (page.toNat / 4096 / 1024)) ∧
      (i = page.toNat / 4096 / 1024 + 1 → u.leaf (page.toNat / 4096) = none) ∧
      i ≤ page.toNat / 4096 / 1024 + 1)
    1024 0 s t ?_ ⟨rfl, fun _ => ⟨hleaf, rfl⟩, fun h => by omega, by omega⟩ hrun
  · obtain ⟨_, _, _, hle⟩ := hinv
    omega
  · rintro i u v _ hi ⟨hcr3, hwhole, hcut, hle⟩ hstore
    have hptr : (ptrAdd page i).toNat = page.toNat + 4 * i := by
      rw [ptrAdd, BitVec.toNat_add, BitVec.toNat_ofNat]
      omega
    obtain ⟨e', hleaf', hv⟩ := store32_inv (by rw [hptr]; omega) hstore
    rw [show (ptrAdd page i).toNat / 4096 = page.toNat / 4096 from by rw [hptr]; omega] at hleaf'
    rw [show (ptrAdd page i).toNat % 4096 = 4 * i from by rw [hptr]; omega] at hv
    have hid : i ≤ page.toNat / 4096 / 1024 := by
      by_contra hgt
      rw [hcut (by omega)] at hleaf'
      cases hleaf'
    obtain ⟨hl, hdw⟩ := hwhole hid
    have hee : e' = e := by
      rw [hl] at hleaf'
      exact (Option.some.inj hleaf').symm
    rw [hee, heq] at hv
    have hvcr3 : v.cr3 = s.cr3 := by rw [hv]; exact hcr3
    have hword : v.dirWord (page.toNat / 4096 / 1024)
        = if i = page.toNat / 4096 / 1024 then 0 else s.dirWord (page.toNat / 4096 / 1024) := by
      rw [dirWord, hvcr3, hv]
      dsimp only
      split
      · rename_i h
        rw [h, ByteMem.read32_write32_same]
      · rename_i h
        rw [ByteMem.read32_write32_other _ _ (by omega), ← hdw, dirWord, hcr3]
    refine ⟨hvcr3, fun hlt' => ?_, fun heq' => ?_, by omega⟩
    · have hsame : v.dirWord (page.toNat / 4096 / 1024)
          = s.dirWord (page.toNat / 4096 / 1024) := by
        rw [hword, if_neg (by omega)]
      refine ⟨?_, hsame⟩
      rw [leaf_congr (s := u) (by rw [hsame, hdw]) fun _ => ?_]
      · exact hl
      · refine tabWord_congr (by rw [hsame, hdw]) (by omega) fun a ha => ?_
        rw [hdw] at ha
        rw [hv]
        exact ByteMem.write32_other _ _ (by omega)
    · refine leaf_eq_none_of_dir ?_
      rw [hword, if_pos (by omega)]
      decide

/-- A zeroing loop that returned left the directory as it was. -/
theorem dir_zeroLoop (hs : s.Paged) {page : U32} (hpage : page.toNat % 4096 = 0)
    (hlow : page.toNat / 4096 / 1024 < 1023)
    (hrun : (Prog.forRange (fun i => store32 (ptrAdd page i) 0) 0 1024).run s = .ok ((), t)) :
    t.cr3 = s.cr3 ∧ t.pmm = s.pmm ∧ ∀ i, i < 1024 → t.dirWord i = s.dirWord i := by
  cases hleaf : s.leaf (page.toNat / 4096) with
  | none =>
    -- the first store faults
    exfalso
    rw [Prog.forRange, Prog.bind_eq_ok] at hrun
    obtain ⟨_, u, hstore, _⟩ := hrun
    have hptr : (ptrAdd page 0).toNat = page.toNat := by simp [ptrAdd]
    obtain ⟨e, he, _⟩ := store32_inv (by rw [hptr]; omega) hstore
    rw [hptr, hleaf] at he
    cases he
  | some e =>
    have hne := zeroLoop_frame_ne hs hpage hlow hleaf hrun
    obtain ⟨hcr3, hpmm, hmem, _⟩ := Prog.forRange_ok (f := fun i => store32 (ptrAdd page i) 0)
      (I := fun _ u => u.cr3 = s.cr3 ∧ u.pmm = s.pmm ∧
        (∀ a, a / 4096 = frameNo s.cr3 → u.mem a = s.mem a) ∧
        (u.leaf (page.toNat / 4096) = some e ∨ u.leaf (page.toNat / 4096) = none))
      1024 0 s t
      (fun i u v _ hi hu hstore => by
        obtain ⟨hcr3, hpmm, hmem, hl⟩ := hu
        obtain ⟨hcr3', hpmm', hmem', hl'⟩ :=
          store_zero_step (by omega) hpage (by rw [hcr3]; exact hne) hl hstore
        exact ⟨hcr3'.trans hcr3, hpmm'.trans hpmm,
          fun a ha => (hmem' a (by rw [hcr3]; exact ha)).trans (hmem a ha), hl'⟩)
      ⟨rfl, rfl, fun _ _ => rfl, Or.inl hleaf⟩ hrun
    exact ⟨hcr3, hpmm, fun i hi => dirWord_congr hcr3 hmem hi⟩

theorem paged_zeroLoop (hs : s.Paged) {page : U32} (hpage : page.toNat % 4096 = 0)
    (hlow : page.toNat / 4096 / 1024 < 1023)
    (hrun : (Prog.forRange (fun i => store32 (ptrAdd page i) 0) 0 1024).run s = .ok ((), t)) :
    t.Paged := by
  obtain ⟨hcr3, hpmm, hdir⟩ := dir_zeroLoop hs hpage hlow hrun
  exact hs.congr hcr3 hdir fun k hk => by rw [hpmm]; exact hs.tablesUsed k hk

theorem paged_unmapPage (hs : s.Paged) {addr : U32} (haddr : addr < TABLE_WINDOW) {r : Option U32}
    (hrun : (unmapPage addr).run s = .ok (r, t)) : t.Paged := by
  cases hleaf : s.leaf (addr.toNat / 4096) with
  | none =>
    rw [run_unmapPage_none hs hleaf] at hrun
    cases hrun
    exact hs
  | some e =>
    rw [run_unmapPage_some hs hleaf] at hrun
    cases hrun
    exact hs.setEntry _ (dirIndex_lt_of_lt haddr) (entry_of_leaf_some hleaf).1
      (tableIndex_lt addr)

theorem paged_protect (hs : s.Paged) {addr flags : U32} (haddr : addr < TABLE_WINDOW) {b : Bool}
    (hrun : (protect addr flags).run s = .ok (b, t)) : t.Paged := by
  cases hleaf : s.leaf (addr.toNat / 4096) with
  | none =>
    rw [run_protect_none hs flags hleaf] at hrun
    cases hrun
    exact hs
  | some e =>
    rw [run_protect_some hs flags hleaf] at hrun
    cases hrun
    exact hs.setEntry _ (dirIndex_lt_of_lt haddr) (entry_of_leaf_some hleaf).1
      (tableIndex_lt addr)

theorem paged_getPage (hs : s.Paged) {addr : U32} {create : Bool} {r : Option U32}
    (hrun : (getPage addr create).run s = .ok (r, t)) : t.Paged := by
  cases create with
  | true =>
    rcases getPage_run hs addr with ⟨u, hu, hget⟩ | ⟨_, _, hget⟩ <;> rw [hget] at hrun <;>
      cases hrun
    · exact hu.paged hs
    · exact hs
  | false =>
    by_cases hp : present (s.dirWord (dirIndex addr)) = true
    · rw [run_getPage_here hs false hp] at hrun
      cases hrun
      exact hs
    · rw [run_getPage_absent hs (by simpa using hp)] at hrun
      cases hrun
      exact hs

theorem MapPage.paged_any {addr frame flags : U32} {b : Bool}
    (h : MapPage s addr frame flags b t) (hs : s.Paged) (haddr : addr < TABLE_WINDOW) :
    t.Paged := by
  cases b with
  | true => exact h.paged hs haddr
  | false => cases h <;> exact paged_report hs _

/-- The ways through `map_new`, for any flags: no frame, a refused mapping, or a mapping, the
zeroing of the page and perhaps `protect`. -/
theorem mapNew_inv (hs : s.Paged) {addr flags : U32} {r : Option U32}
    (hrun : (mapNew addr flags).run s = .ok (r, t)) :
    t = s ∨ ∃ k ∈ s.pmm.frames, ∃ u,
      MapPage (taking s k) addr (Pmm.addressOf k) (flags ||| WRITABLE) false u ∧
          t = { u with pmm := u.pmm.freeFrame (Pmm.addressOf k) } ∨
        MapPage (taking s k) addr (Pmm.addressOf k) (flags ||| WRITABLE) true u ∧
          ∃ v, (Prog.forRange (fun i => store32 (ptrAdd (pageOf addr) i) 0) 0 1024).run u
              = .ok ((), v) ∧
            (t = v ∨ ∃ b, (protect addr flags).run v = .ok (b, t)) := by
  rcases frames_cases s.pmm with hempty | ⟨k, hk, hmin⟩
  · rw [mapNew, Prog.bind_ok (run_allocFrame_none hempty), Prog.run_pure] at hrun
    cases hrun
    exact Or.inl rfl
  · have halloc : allocFrame.run s = .ok (some (Pmm.addressOf k), taking s k) :=
      run_allocFrame_some hk hmin
    obtain ⟨b, u, hmaprun, hmap⟩ :=
      mapPage_run (paged_taking hs k) addr (Pmm.addressOf k) (flags ||| WRITABLE)
    refine Or.inr ⟨k, hk, u, ?_⟩
    rw [mapNew, Prog.bind_ok halloc] at hrun
    dsimp only at hrun
    rw [Prog.bind_ok hmaprun] at hrun
    cases b with
    | false =>
      cases hrun
      exact Or.inl ⟨hmap, rfl⟩
    | true =>
      rw [if_pos rfl, Prog.bind_eq_ok] at hrun
      obtain ⟨_, v, hloop, hrest⟩ := hrun
      refine Or.inr ⟨hmap, v, hloop, ?_⟩
      split at hrest
      · rw [Prog.bind_eq_ok] at hrest
        obtain ⟨b, w, hprot, hrest⟩ := hrest
        cases hrest
        exact Or.inr ⟨b, hprot⟩
      · cases hrest
        exact Or.inl rfl

/-- The page that `map_new` zeroes. -/
theorem pageOf_low {addr : U32} (haddr : addr < TABLE_WINDOW) :
    (pageOf addr).toNat % 4096 = 0 ∧ (pageOf addr).toNat / 4096 / 1024 < 1023 := by
  have hpage := toNat_pageOf addr
  have hlow := addr_page_lt haddr
  omega

/-- `map_new` keeps the shape whatever its flags are, if it returns. -/
theorem paged_mapNew (hs : s.Paged) {addr flags : U32} (haddr : addr < TABLE_WINDOW)
    {r : Option U32} (hrun : (mapNew addr flags).run s = .ok (r, t)) : t.Paged := by
  rcases mapNew_inv hs hrun with rfl | ⟨k, hk, u, ⟨hmap, rfl⟩ | ⟨hmap, v, hloop, hrest⟩⟩
  · exact hs
  · obtain ⟨o, rfl⟩ := hmap.eq_report
    refine paged_freeFrame (paged_report (paged_taking hs k) o) fun hk' => hs.not_isTable hk ?_
    rw [show (Pmm.addressOf k).toNat / 4096 = k from frameNo_addressOf hk] at hk'
    exact hk'
  · obtain ⟨hal, hlow⟩ := pageOf_low haddr
    have hv : v.Paged := paged_zeroLoop (hmap.paged (paged_taking hs k) haddr) hal hlow hloop
    rcases hrest with rfl | ⟨b, hprot⟩
    · exact hv
    · exact paged_protect hv haddr hprot

theorem Op.paged {op : Op} (hs : s.Paged) (hop : op.Allowed s)
    (hrun : op.call.run s = .ok ((), t)) : t.Paged := by
  cases op with
  | freeFrame phys =>
    cases hrun
    exact paged_freeFrame hs hop
  | getPage addr create =>
    obtain ⟨r, u, h, hret⟩ := Prog.bind_eq_ok.mp hrun
    cases hret
    exact paged_getPage hs h
  | mapPage addr frame flags =>
    obtain ⟨r, u, h, hret⟩ := Prog.bind_eq_ok.mp hrun
    cases hret
    obtain ⟨b, v, hv, hmap⟩ := mapPage_run hs addr.val frame flags
    rw [hv] at h
    cases h
    exact hmap.paged_any hs addr.property
  | mapNew addr flags =>
    obtain ⟨r, u, h, hret⟩ := Prog.bind_eq_ok.mp hrun
    cases hret
    exact paged_mapNew hs addr.property h
  | unmapPage addr =>
    obtain ⟨r, u, h, hret⟩ := Prog.bind_eq_ok.mp hrun
    cases hret
    exact paged_unmapPage hs addr.property h
  | protect addr flags =>
    obtain ⟨r, u, h, hret⟩ := Prog.bind_eq_ok.mp hrun
    cases hret
    exact paged_protect hs addr.property h

end Keep

/-- Every reachable state has the shape `Paged`. -/
theorem Reachable.paged {L : Layout} (hfits : L.Fits) {s : Machine} (h : Reachable L s) :
    s.Paged := by
  induction h with
  | init p hload hfree hrun =>
    rename_i s t
    obtain ⟨u, hu, htab, hpmm, _⟩ := init_run hfits ((bootAsm_tables hload).withPmm p)
    rw [hu] at hrun
    cases hrun
    exact htab.paged fun k hk => by rw [hpmm]; exact hfree k hk
  | step _ hop hrun ih => exact Op.paged ih hop hrun

/-- `paging::init` returns, so there are reachable states. -/
theorem exists_reachable {L : Layout} (hfits : L.Fits) {s : Machine} (hload : Loaded L s) {p : Pmm}
    (hfree : ∀ k, L.InImage k → k ∉ p.frames) :
    ∃ t, Reachable L t ∧ InitTables L t ∧ t.pmm = p := by
  obtain ⟨t, hrun, htab, hpmm, _⟩ := init_run hfits ((bootAsm_tables hload).withPmm p)
  exact ⟨t, .init p hload hfree hrun, htab, hpmm⟩

theorem loaded_smallLayout : Loaded smallLayout ⟨fun _ => 0, 0, 0, Pmm.zero, []⟩ := fun _ _ => rfl

/-- A state with one free frame, and the one in which a call has mapped the first page of the demand
zone: the frame has become a page table. -/
theorem exists_demand_smallLayout : ∃ s t, Reachable smallLayout s ∧ InitTables smallLayout s ∧
    s.pmm.frames = {0x200} ∧ (mapPage 0x800000 0x201000 USER_PAGE).run s = .ok (true, t) ∧
    MapPage s 0x800000 0x201000 USER_PAGE true t ∧ Reachable smallLayout t ∧
    t.leaf 0x800 = some (entryFor 0x201000 USER_PAGE) := by
  have hframes : (Pmm.zero.setFree 0x200).frames = {0x200} := by
    rw [Pmm.frames_setFree _ (by decide), Pmm.frames_zero]
    rfl
  obtain ⟨s, hreach, htab, hpmm⟩ := exists_reachable smallLayout_fits loaded_smallLayout
    (p := Pmm.zero.setFree 0x200) fun k hk => by
      rw [hframes, Finset.mem_singleton]
      rintro rfl
      exact absurd hk.2 (by decide)
  have hs := hreach.paged smallLayout_fits
  have habs : present (s.dirWord 2) = false := by
    rw [htab.dirElse 2 (by decide) (by decide) (by decide) (by decide)]
    rfl
  have hone : s.pmm.frames = {0x200} := by
    rw [hpmm]
    exact hframes
  obtain ⟨b, t, hrun, hmap⟩ := mapPage_run hs 0x800000 0x201000 USER_PAGE
  have hb : b = true := by
    cases hmap with
    | user hu => exact absurd hu.2 (by decide)
    | noTable _ _ hempty =>
      rw [hone] at hempty
      exact absurd hempty (by decide)
    | mapped _ hleaf =>
      have hnone : s.leaf 0x800 = none := leaf_eq_none_of_dir habs
      exact absurd (hnone.symm.trans hleaf) (Option.some_ne_none _).symm
    | done => rfl
  subst hb
  have hcall : (Op.mapPage ⟨0x800000, by decide⟩ 0x201000 USER_PAGE).call.run s
      = .ok ((), t) := by
    rw [Op.call, Prog.bind_ok hrun, Prog.run_pure]
  refine ⟨s, t, hreach, htab, hone, hrun, hmap,
    .step hreach (show Op.Allowed s (.mapPage _ _ _) from trivial) hcall, ?_⟩
  rw [hmap.leaf_done hs (by decide) (by decide), if_pos (by decide)]

/-! ## The recursive window is the MMU -/

/-- In every reachable state the last directory entry points at the directory, and `translate`,
which reads the tables through the window, answers what the hardware walk of physical memory
from CR3 finds: the same physical address, or nothing exactly when a level is absent. -/
theorem translate_eq_walk {L : Layout} (hfits : L.Fits) {s : Machine} (h : Reachable L s) :
    (present (s.dirWord 1023) = true ∧ frameNo (s.dirWord 1023) = frameNo s.cr3) ∧
      ∀ addr : U32, ∃ r, (translate addr).run s = .ok (r, s) ∧
        r.map BitVec.toNat = s.translation addr ∧
        (r = none ↔ present (s.dirWord (dirIndex addr)) = false ∨
          present (s.tabWord (dirIndex addr) (tableIndex addr)) = false) := by
  have hs := h.paged hfits
  refine ⟨⟨hs.selfPresent, hs.self⟩, fun addr => ⟨_, run_translate hs addr, ?_, ?_⟩⟩
  · rw [translation, walk_eq]
    cases s.leaf (addr.toNat / 4096) with
    | none => rfl
    | some e =>
      simp only [Option.map_some]
      rw [toNat_translate]
  · rw [Option.map_eq_none_iff, leaf_page]
    cases present (s.dirWord (dirIndex addr)) <;>
      cases present (s.tabWord (dirIndex addr) (tableIndex addr)) <;> simp

/-- An address of a page that a call has mapped, and one of a page that nobody has. -/
theorem translate_eq_walk_smallLayout : ∃ s, smallLayout.Fits ∧ Reachable smallLayout s ∧
    (present (s.dirWord 1023) = true ∧ frameNo (s.dirWord 1023) = frameNo s.cr3) ∧
    s.translation 0x800123 = some 0x201123 ∧
    (Paging.translate 0x800123).run s = .ok (some 0x201123, s) ∧
    (Paging.translate 0x40000000).run s = .ok (none, s) := by
  obtain ⟨s, t, hreach, htab, _, _, hmap, ht, hleaf⟩ := exists_demand_smallLayout
  obtain ⟨hself, hall⟩ := translate_eq_walk smallLayout_fits ht
  have htrans : t.translation 0x800123 = some 0x201123 := by
    have hpage : t.leaf ((0x800123 : U32).toNat / 4096) = some (entryFor 0x201000 USER_PAGE) := by
      rw [show (0x800123 : U32).toNat / 4096 = 0x800 from rfl]
      exact hleaf
    have hsum : 4096 * frameNo (entryFor 0x201000 USER_PAGE) + (0x800123 : U32).toNat % 4096
        = 0x201123 := by decide
    rw [translation, walk_of_leaf hpage, Option.map_some, hsum]
  obtain ⟨r, hrun, hr, _⟩ := hall 0x800123
  obtain ⟨r', hrun', hr', _⟩ := hall 0x40000000
  rw [htrans] at hr
  obtain ⟨v, rfl, hv⟩ := Option.map_eq_some_iff.mp hr
  have hfar : t.leaf 0x40000 = none := by
    rw [hmap.leaf_done (hreach.paged smallLayout_fits) (by decide) (by decide),
      if_neg (by decide)]
    exact leaf_eq_none_of_dir (by
      rw [htab.dirElse 0x100 (by decide) (by decide) (by decide) (by decide)]
      rfl)
  refine ⟨t, smallLayout_fits, ht, hself, htrans, ?_, ?_⟩
  · rw [hrun, BitVec.eq_of_toNat_eq (y := 0x201123) hv]
  · rw [translation, walk_eq, show (0x40000000 : U32).toNat / 4096 = 0x40000 from rfl, hfar] at hr'
    rw [hrun', Option.map_eq_none_iff.mp hr']

/-! ## The calls on the abstract map -/

section Calls

variable {s t : Machine}

theorem Untouched.pages (h : Untouched s t) : pages t = pages s := by
  funext p
  obtain ⟨hmem, _, hcr3, _⟩ := h
  have hdir : ∀ i, t.dirWord i = s.dirWord i := fun i => by rw [dirWord, dirWord, hmem, hcr3]
  rw [Paging.pages, Paging.pages, leaf_congr (hdir _) fun _ => by
    rw [tabWord, tabWord, hmem, hdir]]

/-- A page that the walk sees with a new entry is one update of the map. -/
theorem pages_update {a : LowAddr} {frame flags : U32} (hflags : flags.toNat < 4096)
    (h : ∀ p, p < 1023 * 1024 →
      t.leaf p = if p = a.val.toNat / 4096 then some (entryFor frame flags) else s.leaf p) :
    pages t
      = Function.update (pages s) a.page (some (frame &&& FRAME, flags ||| PRESENT)) := by
  funext p
  rw [Function.update_apply, pages, h p p.isLt]
  by_cases hp : p = a.page
  · rw [if_pos (by rw [hp]; rfl), if_pos hp, Option.map_some, entry_and_frame _ hflags,
      entry_and_low _ hflags]
  · have hval : ¬((p : Nat) = a.val.toNat / 4096) := fun heq => hp (Fin.ext heq)
    rw [if_neg hval, if_neg hp]
    rfl

theorem pages_eq_none_iff (s : Machine) (a : LowAddr) :
    pages s a.page = none ↔ s.leaf (a.val.toNat / 4096) = none := by
  rw [pages, Option.map_eq_none_iff]
  rfl

theorem getPage_pages (hs : s.Paged) (a : LowAddr) (create : Bool) :
    ∃ r t, (getPage a.val create).run s = .ok (r, t) ∧ pages t = pages s := by
  cases create with
  | true =>
    rcases getPage_run hs a.val with ⟨t, ht, hrun⟩ | ⟨_, _, hrun⟩
    · refine ⟨_, t, hrun, ?_⟩
      funext p
      rw [pages, pages, ht.leaf hs p.isLt]
    · exact ⟨_, s, hrun, rfl⟩
  | false =>
    by_cases hp : present (s.dirWord (dirIndex a.val)) = true
    · exact ⟨_, s, run_getPage_here hs false hp, rfl⟩
    · exact ⟨_, s, run_getPage_absent hs (by simpa using hp), rfl⟩

theorem mapPage_pages (hs : s.Paged) (a : LowAddr) (frame : U32) {flags : U32}
    (hflags : flags.toNat < 4096) :
    ∃ b t, (mapPage a.val frame flags).run s = .ok (b, t) ∧
      (b = true ↔ ¬UserInKernel a.val flags ∧ pages s a.page = none ∧
        (present (s.dirWord (dirIndex a.val)) = true ∨ s.pmm.frames ≠ ∅)) ∧
      (b = true → pages t
        = Function.update (pages s) a.page (some (frame &&& FRAME, flags ||| PRESENT))) ∧
      (b = false → Untouched s t) := by
  obtain ⟨b, t, hrun, hmap⟩ := mapPage_run hs a.val frame flags
  refine ⟨b, t, hrun, ?_, fun hb => ?_, fun hb => ?_⟩
  · rw [pages_eq_none_iff]
    cases hmap with
    | user hu => exact ⟨fun h => (by cases h), fun h => absurd hu h.1⟩
    | noTable _ hp hempty =>
      refine ⟨fun h => (by cases h), fun h => ?_⟩
      rcases h.2.2 with hp' | hne
      · rw [hp'] at hp
        cases hp
      · exact absurd hempty hne
    | mapped _ hleaf =>
      refine ⟨fun h => (by cases h), fun h => ?_⟩
      rw [h.2.1] at hleaf
      cases hleaf
    | done hu hleaf ht =>
      refine ⟨fun _ => ⟨hu, hleaf, ?_⟩, fun _ => rfl⟩
      cases ht with
      | here hp => exact Or.inl hp
      | fresh k _ hk _ => exact Or.inr fun h => Finset.notMem_empty k (h ▸ hk)
  · subst hb
    exact pages_update hflags fun p hp => hmap.leaf_done hs a.property hp
  · subst hb
    obtain ⟨o, rfl⟩ := hmap.eq_report
    exact ⟨rfl, rfl, rfl, rfl⟩

theorem unmapPage_pages (hs : s.Paged) (a : LowAddr) :
    ∃ t, (unmapPage a.val).run s = .ok ((pages s a.page).map Prod.fst, t) ∧
      pages t = Function.update (pages s) a.page none ∧
      (pages s a.page = none → t = s) := by
  cases hleaf : s.leaf (a.val.toNat / 4096) with
  | none =>
    have hnone := (pages_eq_none_iff s a).mpr hleaf
    refine ⟨s, ?_, ?_, fun _ => rfl⟩
    · rw [hnone, run_unmapPage_none hs hleaf]
      rfl
    · rw [← hnone, Function.update_eq_self]
  | some e =>
    have hsome : pages s a.page = some (e &&& FRAME, e &&& 0xFFF) := by
      rw [pages, show ((a.page : Page) : Nat) = a.val.toNat / 4096 from rfl, hleaf]
      rfl
    refine ⟨_, by rw [hsome, run_unmapPage_some hs hleaf]; rfl, ?_, fun h => ?_⟩
    · funext p
      rw [Function.update_apply, pages, leaf_setEntry _ hs (dirIndex_lt_of_lt a.property)
        (entry_of_leaf_some hleaf).1 (tableIndex_lt _) (by omega), page_eq_index]
      by_cases hp : p = a.page
      · rw [if_pos (by rw [hp]; rfl), if_pos hp]
        rfl
      · have hval : ¬((p : Nat) = a.val.toNat / 4096) := fun heq => hp (Fin.ext heq)
        rw [if_neg hval, if_neg hp]
        rfl
    · rw [h] at hsome
      cases hsome

theorem protect_pages (hs : s.Paged) (a : LowAddr) {flags : U32} (hflags : flags.toNat < 4096) :
    ∃ t, (protect a.val flags).run s = .ok ((pages s a.page).isSome, t) ∧
      pages t = Function.update (pages s) a.page
        ((pages s a.page).map fun e => (e.1, flags ||| PRESENT)) ∧
      (pages s a.page = none → t = s) := by
  cases hleaf : s.leaf (a.val.toNat / 4096) with
  | none =>
    have hnone := (pages_eq_none_iff s a).mpr hleaf
    refine ⟨s, ?_, ?_, fun _ => rfl⟩
    · rw [hnone, run_protect_none hs flags hleaf]
      rfl
    · rw [hnone, Option.map_none, ← hnone, Function.update_eq_self]
  | some e =>
    have hsome : pages s a.page = some (e &&& FRAME, e &&& 0xFFF) := by
      rw [pages, show ((a.page : Page) : Nat) = a.val.toNat / 4096 from rfl, hleaf]
      rfl
    refine ⟨_, by rw [hsome, run_protect_some hs flags hleaf]; rfl, ?_, fun h => ?_⟩
    · rw [hsome, Option.map_some]
      refine pages_update hflags fun p hp => ?_
      rw [leaf_setEntry _ hs (dirIndex_lt_of_lt a.property) (entry_of_leaf_some hleaf).1
        (tableIndex_lt _) (by omega), page_eq_index, if_pos (present_entry _ _)]
    · rw [h] at hsome
      cases hsome

theorem mapNew_pages (hs : s.Paged) (a : LowAddr) {flags : U32} (hflags : flags.toNat < 4096) :
    ∃ r t, (mapNew a.val flags).run s = .ok (r, t) ∧
      (∀ f, r = some f →
        pages t = Function.update (pages s) a.page (some (f, flags ||| PRESENT)) ∧
        ∀ v : U32, v.toNat / 4096 = a.page → (load8 v).run t = .ok (0, t)) ∧
      (r = none → Untouched s t) := by
  obtain ⟨r, t, hrun, hnew⟩ := mapNew_run hs _ _ a.property hflags
  refine ⟨r, t, hrun, fun f hf => ?_, fun hf => ?_⟩
  · subst hf
    obtain ⟨k, hk, rfl, _, _, hleaf, hzero⟩ := hnew.some_spec hs a.property hflags
    have hframe : Pmm.addressOf k &&& FRAME = Pmm.addressOf k := by
      apply BitVec.eq_of_toNat_eq
      rw [toNat_and_frame, frameNo_addressOf hk, Pmm.toNat_addressOf (Pmm.lt_of_mem_frames hk)]
    refine ⟨by rw [pages_update hflags hleaf, hframe], fun v hv => ?_⟩
    have hpage : t.leaf (v.toNat / 4096) = some (entryFor (Pmm.addressOf k) flags) := by
      rw [hv, hleaf _ a.page.isLt]
      exact if_pos rfl
    have hno : frameNo (entryFor (Pmm.addressOf k) flags) = k := by
      rw [frameNo_entry _ hflags, frameNo_addressOf hk]
    rw [load8_of_leaf hpage, hno, hzero _ (by omega)]
  · subst hf
    exact hnew.none_spec

end Calls

/-- In every reachable state each paging function is an update of the partial map `pages`, and a
call that refuses changes neither memory nor the allocator. -/
theorem paging_refines_map {L : Layout} (hfits : L.Fits) {s : Machine} (h : Reachable L s)
    (a : LowAddr) :
    (∀ create, ∃ r t, (getPage a.val create).run s = .ok (r, t) ∧ pages t = pages s) ∧
    (∀ frame flags : U32, flags.toNat < 4096 →
      ∃ b t, (mapPage a.val frame flags).run s = .ok (b, t) ∧
        (b = true ↔ ¬(flags &&& USER ≠ 0 ∧ isKernel a.val = true) ∧ pages s a.page = none ∧
          (present (s.dirWord (dirIndex a.val)) = true ∨ s.pmm.frames ≠ ∅)) ∧
        (b = true → pages t
          = Function.update (pages s) a.page (some (frame &&& FRAME, flags ||| PRESENT))) ∧
        (b = false → Untouched s t ∧ pages t = pages s)) ∧
    (∃ t, (unmapPage a.val).run s = .ok ((pages s a.page).map Prod.fst, t) ∧
      pages t = Function.update (pages s) a.page none ∧ (pages s a.page = none → t = s)) ∧
    (∀ flags : U32, flags.toNat < 4096 →
      ∃ t, (protect a.val flags).run s = .ok ((pages s a.page).isSome, t) ∧
        pages t = Function.update (pages s) a.page
          ((pages s a.page).map fun e => (e.1, flags ||| PRESENT)) ∧
        (pages s a.page = none → t = s)) ∧
    (∀ flags : U32, flags.toNat < 4096 →
      ∃ r t, (mapNew a.val flags).run s = .ok (r, t) ∧
        (∀ f, r = some f →
          pages t = Function.update (pages s) a.page (some (f, flags ||| PRESENT)) ∧
          ∀ v : U32, v.toNat / 4096 = a.page → (load8 v).run t = .ok (0, t)) ∧
        (r = none → Untouched s t ∧ pages t = pages s)) := by
  have hs := h.paged hfits
  refine ⟨fun create => getPage_pages hs a create, fun frame flags hflags => ?_,
    unmapPage_pages hs a, fun flags hflags => protect_pages hs a hflags,
    fun flags hflags => ?_⟩
  · obtain ⟨b, t, hrun, hiff, htrue, hfalse⟩ := mapPage_pages hs a frame hflags
    exact ⟨b, t, hrun, hiff, htrue, fun hb => ⟨hfalse hb, (hfalse hb).pages⟩⟩
  · obtain ⟨r, t, hrun, hsome, hnone⟩ := mapNew_pages hs a hflags
    exact ⟨r, t, hrun, hsome, fun hr => ⟨hnone hr, (hnone hr).pages⟩⟩

/-- The first page of the demand zone: a call maps it, and the next one takes it away again. -/
theorem paging_refines_map_smallLayout : ∃ s t u, smallLayout.Fits ∧ Reachable smallLayout s ∧
    Reachable smallLayout t ∧ (mapPage 0x800000 0x201000 USER_PAGE).run s = .ok (true, t) ∧
    pages t = Function.update (pages s) (LowAddr.page ⟨0x800000, by decide⟩)
      (some (0x201000, 7)) ∧
    (unmapPage 0x800000).run t = .ok (some 0x201000, u) ∧
    pages u = Function.update (pages t) (LowAddr.page ⟨0x800000, by decide⟩) none := by
  obtain ⟨s, t, hs, _, _, hrun, _, ht, _⟩ := exists_demand_smallLayout
  obtain ⟨_, hmap, _⟩ := paging_refines_map smallLayout_fits hs ⟨0x800000, by decide⟩
  obtain ⟨_, _, ⟨u, hunmap, hu, _⟩, _⟩ :=
    paging_refines_map smallLayout_fits ht ⟨0x800000, by decide⟩
  obtain ⟨b, t', hrun', _, htrue, _⟩ := hmap 0x201000 USER_PAGE (by decide)
  dsimp only at hrun'
  rw [hrun] at hrun'
  cases hrun'
  have hpages := htrue rfl
  have hmapped : pages t (LowAddr.page ⟨0x800000, by decide⟩) = some (0x201000, 7) := by
    refine (congrFun hpages _).trans ?_
    exact Function.update_self _ _ _
  rw [hmapped, Option.map_some] at hunmap
  dsimp only at hunmap
  exact ⟨s, t, u, smallLayout_fits, hs, ht, hrun, hpages, hunmap, hu⟩

end Kfs.Paging
