import Kfs.System
import Kfs.Heap.Inv

/-!
# Pages with frames of their own

`Held P` says that the mapped pages of `P` have frames that are not free, not tables, and not
behind two of them.  The user pages are held in this sense: the demand zone and the page of the
`user` command.  `handleFault_run` and `cmdUser_run` say that the two ways to change them keep it,
and that they touch nothing else.
-/

namespace Kfs

open Lib Mem Paging

namespace Machine

variable {s t : Machine} {P R D : Set Nat}

/-- The mapped pages of `P` have frames of their own. -/
structure Held (s : Machine) (P : Set Nat) : Prop where
  below : ∀ p ∈ P, p < 1023 * 1024
  inj : ∀ {p q : Nat} {e e' : U32}, p ∈ P → q ∈ P → s.leaf p = some e → s.leaf q = some e' →
    frameNo e = frameNo e' → p = q
  notTable : ∀ {p : Nat} {e : U32}, p ∈ P → s.leaf p = some e → ¬s.IsTable (frameNo e)
  notFree : ∀ {p : Nat} {e : U32}, p ∈ P → s.leaf p = some e → frameNo e ∉ s.pmm.frames

namespace Held

theorem behind (h : Held s P) {p : Nat} {e : U32} (hp : p ∈ P) (he : s.leaf p = some e) :
    s.Behind P (frameNo e) := ⟨p, hp, h.below p hp, e, he, rfl⟩

theorem not_of_behind (h : Held s P) {k : Nat} (hk : s.Behind P k) :
    k ∉ s.pmm.frames ∧ ¬s.IsTable k := by
  obtain ⟨p, hp, _, e, he, rfl⟩ := hk
  exact ⟨h.notFree hp he, h.notTable hp he⟩

/-- Every page has an entry with the frame it had, or none any more. -/
theorem sub (h : Held s P) (hl : ∀ p ∈ P, ∀ e', t.leaf p = some e' →
      ∃ e, s.leaf p = some e ∧ frameNo e = frameNo e')
    (htab : ∀ p ∈ P, ∀ e', t.leaf p = some e' → t.IsTable (frameNo e') → s.IsTable (frameNo e'))
    (hfree : ∀ p ∈ P, ∀ e', t.leaf p = some e' → frameNo e' ∈ t.pmm.frames →
      frameNo e' ∈ s.pmm.frames) : Held t P := by
  refine ⟨h.below, fun hp hq he he' heq => ?_, fun hp he ht => ?_, fun hp he hf => ?_⟩
  · obtain ⟨e1, h1, h1'⟩ := hl _ hp _ he
    obtain ⟨e2, h2, h2'⟩ := hl _ hq _ he'
    exact h.inj hp hq h1 h2 (by rw [h1', h2', heq])
  · obtain ⟨e1, h1, h1'⟩ := hl _ hp _ he
    have hs := htab _ hp _ he ht
    rw [← h1'] at hs
    exact h.notTable hp h1 hs
  · obtain ⟨e1, h1, h1'⟩ := hl _ hp _ he
    have hs := hfree _ hp _ he hf
    rw [← h1'] at hs
    exact h.notFree hp h1 hs

/-- Pages of somebody else stay held, with the same frames. -/
theorem elsewhere (h : Held s P) (hc : Confined R D s t) (hR : ∀ p ∈ P, p ∉ R)
    (hfar : ∀ k, s.Behind P k → k ∉ D ∧ ¬s.Behind R k) :
    Held t P ∧ (∀ k, t.Behind P k ↔ s.Behind P k) ∧
      ∀ k, s.Behind P k → k ∉ D ∧ ¬t.Behind R k := by
  have hl : ∀ p ∈ P, t.leaf p = s.leaf p := fun p hp => hc.leaf p (h.below p hp) (hR p hp)
  have hmine : ∀ k, s.Behind P k → ¬s.Mine R D k := fun k hk =>
    Machine.not_mine.mpr ⟨(h.not_of_behind hk).1, (h.not_of_behind hk).2, hfar k hk⟩
  have hnot : ∀ {p e}, p ∈ P → t.leaf p = some e →
      frameNo e ∉ t.pmm.frames ∧ ¬t.IsTable (frameNo e) := fun hp he =>
    hc.not_mine (hmine _ (h.behind hp (by rw [← hl _ hp]; exact he)))
  refine ⟨⟨h.below, fun hp hq he he' => ?_, fun hp he => (hnot hp he).2,
    fun hp he => (hnot hp he).1⟩, fun k => behind_congr fun p _ hp => hl p hp, fun k hk => ?_⟩
  · rw [hl _ hp] at he
    rw [hl _ hq] at he'
    exact h.inj hp hq he he'
  · have hk' : ¬t.Mine R D k := fun hm => hmine k hk ((hc.mine k).mp hm)
    exact ⟨(Machine.not_mine.mp hk').2.2.1, (Machine.not_mine.mp hk').2.2.2⟩

/-- A page of the set gets an entry whose frame is nobody's. -/
theorem put (h : Held s P) {q : Nat} {e : U32}
    (hl : ∀ p ∈ P, t.leaf p = if p = q then some e else s.leaf p)
    (hnew : ¬t.IsTable (frameNo e) ∧ frameNo e ∉ t.pmm.frames)
    (hold : ∀ {p e'}, p ∈ P → s.leaf p = some e' →
      frameNo e' ≠ frameNo e ∧ ¬t.IsTable (frameNo e') ∧ frameNo e' ∉ t.pmm.frames) :
    Held t P := by
  have hkept : ∀ {p e'}, p ∈ P → t.leaf p = some e' →
      ¬t.IsTable (frameNo e') ∧ frameNo e' ∉ t.pmm.frames := by
    intro p e' hp he
    rw [hl p hp] at he
    split at he
    · cases he
      exact hnew
    · exact (hold hp he).2
  refine ⟨h.below, fun {p p' e1 e2} hp hp' he he' heq => ?_, fun hp he => (hkept hp he).1,
    fun hp he => (hkept hp he).2⟩
  rw [hl p hp] at he
  rw [hl p' hp'] at he'
  split at he <;> split at he'
  · rename_i h1 h2
    rw [h1, h2]
  · cases he
    exact absurd heq.symm (hold hp' he').1
  · cases he'
    exact absurd heq (hold hp he).1
  · exact h.inj hp hp' he he' heq

/-- One mapped and writable page of the set, as a range. -/
theorem owned (h : Held s P) {p : Nat} {e : U32} (hp : p ∈ P) (he : s.leaf p = some e)
    (hw : writable e = true) : s.Owned p (p + 1) := by
  have hone : ∀ {q}, p ≤ q → q < p + 1 → q = p := fun h1 h2 => by omega
  refine ⟨h.below p hp, fun q h1 h2 => ?_, fun h1 h2 h3 h4 _ _ _ => ?_, fun h1 h2 hl => ?_,
    fun h1 h2 hl => ?_⟩
  · rw [hone h1 h2]
    exact ⟨e, he, hw⟩
  · rw [hone h1 h2, hone h3 h4]
  · rw [hone h1 h2] at hl
    exact h.notTable hp hl
  · rw [hone h1 h2] at hl
    exact h.notFree hp hl

end Held

end Machine

/-! ## The user pages -/

open Machine

/-- The pages of the demand zone, and the page of the `user` command. -/
def userPages : Set Nat :=
  { p | DEMAND_BASE.toNat / 4096 ≤ p ∧ p < DEMAND_END.toNat / 4096 ∨ p = USER_DEMO.toNat / 4096 }

section

variable {s : Machine} {P : Set Nat} {addr : U32}

/-- `unmap_page` with `free_frame`: the page is gone, and its frame is free. -/
theorem unmapFree_run (hs : s.Paged) (hh : Held s P) (hP : addr.toNat / 4096 ∈ P)
    (haddr : addr < TABLE_WINDOW) :
    ∃ t, (unmapFree addr).run s = .ok ((), t) ∧ Confined P ∅ s t ∧ Held t P ∧
      t.leaf (addr.toNat / 4096) = none := by
  cases hleaf : s.leaf (addr.toNat / 4096) with
  | none =>
    refine ⟨s, ?_, .refl hs, hh, hleaf⟩
    rw [unmapFree, Prog.bind_ok (run_unmapPage_none hs hleaf), Prog.run_pure]
  | some e =>
    have hi := dirIndex_lt_of_lt haddr
    have hj := tableIndex_lt addr
    have hp := (entry_of_leaf_some hleaf).1
    have htab := hh.notTable hP hleaf
    let u := s.setEntry (dirIndex addr) (tableIndex addr) 0
    let t : Machine := { u with pmm := s.pmm.freeFrame (e &&& FRAME) }
    have hl : ∀ p, p < 1023 * 1024 →
        t.leaf p = if p = addr.toNat / 4096 then none else s.leaf p := by
      intro p hlt
      show u.leaf p = _
      rw [leaf_setEntry 0 hs hi hp hj (by omega), page_eq_index]
      rfl
    refine ⟨t, ?_, confined_unmap_free hs haddr hleaf hP htab, hh.sub (fun p hpP e' he' => ?_)
      (fun p hpP e' he' ht => (isTable_setEntry 0 hs hi hp hj).mp ht)
      (fun p hpP e' he' hf => ?_), ?_⟩
    · rw [unmapFree, Prog.bind_ok (run_unmapPage_some hs hleaf)]
      rfl
    · rw [hl p (hh.below p hpP)] at he'
      split at he'
      · cases he'
      · exact ⟨e', he', rfl⟩
    · -- the freed frame is behind no other page of the set
      rw [hl p (hh.below p hpP)] at he'
      split at he'
      · cases he'
      · rename_i hne
        have hmem : frameNo e' ∈ (s.pmm.freeFrame (e &&& FRAME)).frames := hf
        rw [Pmm.frames_freeFrame, toNat_and_frame, Finset.mem_insert] at hmem
        rcases hmem with heq | hmem
        · exact absurd (hh.inj hpP hP he' hleaf (by omega)) hne
        · exact hmem
    · rw [hl _ (addr_page_lt haddr), if_pos rfl]

/-- `map_new` with rights to write: nothing happened, or the page has a new frame. -/
theorem mapNew_held (hs : s.Paged) (hh : Held s P) (hP : addr.toNat / 4096 ∈ P)
    (haddr : addr < TABLE_WINDOW) (flags : U32) (hflags : flags.toNat < 4096)
    (hw : writable flags = true) :
    ∃ r t, (mapNew addr flags).run s = .ok (r, t) ∧ Confined P ∅ s t ∧ Held t P ∧
      ∀ f, r = some f → t.leaf (addr.toNat / 4096) = some (entryFor f flags) := by
  obtain ⟨r, t, hrun, hnew⟩ := mapNew_run hs _ _ haddr hflags
  refine ⟨r, t, hrun, ?_⟩
  cases r with
  | none =>
    have hu := hnew.none_spec
    refine ⟨hu.confined hs, ?_, fun f hf => by cases hf⟩
    rw [hu.eq]
    exact ⟨hh.below, hh.inj, hh.notTable, hh.notFree⟩
  | some f =>
    obtain ⟨_, -, -, -, -, hl, -⟩ := hnew.some_spec hs haddr hflags
    have hpage := addr_page_lt haddr
    cases hnew with
    | readOnly _ _ _ hro =>
      rw [hw] at hro
      cases hro
    | done hk hmin hmap hrights =>
      rename_i k u
      rw [or_writable_eq hw] at hmap
      have hconf : Confined P ∅ s u := hmap.confined_taken hk hs haddr hflags hP
      have hu : u.Paged := hconf.paged
      have hnot := hmap.not_isTable_taken hs haddr hk
      have hleaf : u.leaf (addr.toNat / 4096) = some (entryFor (Pmm.addressOf k) flags) := by
        rw [hmap.leaf_done (paged_taking hs k) haddr hpage, if_pos rfl]
      have hframe : frameNo (entryFor (Pmm.addressOf k) flags) = k := by
        rw [frameNo_entry _ hflags, frameNo_addressOf hk]
      have hsame := sameTables_zeroFrame hnot
      have hkfree : k ∉ u.pmm.frames := fun hm => by
        have := hmap.frames_subset hm
        rw [frames_taking] at this
        exact Finset.notMem_erase _ _ this
      -- what was held before is neither the new frame nor a new table
      have hold : ∀ {p e}, p ∈ P → s.leaf p = some e →
          frameNo e ≠ k ∧ ¬u.IsTable (frameNo e) ∧ frameNo e ∉ u.pmm.frames := by
        intro p e hp he
        have hfree := hh.notFree hp he
        refine ⟨fun heq => hfree (heq ▸ hk), ?_, fun hm => hfree ?_⟩
        · rw [hmap.isTable (paged_taking hs k) haddr, (sameTables_taking s k).isTable_iff hs]
          rintro (h | h)
          · exact hh.notTable hp he h
          · rw [frames_taking] at h
            exact hfree (Finset.mem_of_mem_erase h.1)
        · have := hmap.frames_subset hm
          rw [frames_taking] at this
          exact Finset.mem_of_mem_erase this
      refine ⟨hconf.trans (confined_mem hu fun a ha => ?_),
        hh.put (fun p hp => hl p (hh.below p hp)) ?_ fun hp he => ?_, fun f hf => ?_⟩
      · refine ByteMem.zeros_other _ ?_
        have hne : a / 4096 ≠ k := by
          rintro rfl
          exact ha ⟨Or.inr (Or.inr (Or.inr ⟨_, hP, hpage, _, hleaf, hframe⟩)), hnot⟩
        omega
      · rw [hframe, hsame.isTable_iff hu]
        exact ⟨hnot, hkfree⟩
      · rw [hframe, hsame.isTable_iff hu]
        exact hold hp he
      · cases hf
        rw [hl _ hpage, if_pos rfl]

end

/-- `handle_fault` with the pages `P`, when the fault is for one of them. -/
theorem handleFault_on {s : Machine} {P : Set Nat} (hs : s.Paged) (hh : Held s P)
    (addr error : U32) (hP : isDemand addr = true → addr.toNat / 4096 ∈ P) :
    ∃ b t, (handleFault addr error).run s = .ok (b, t) ∧ Confined P ∅ s t ∧ Held t P := by
  rw [handleFault]
  split
  · exact ⟨false, s, Prog.run_pure _ _, .refl hs, hh⟩
  · rename_i hgo
    have hdem : isDemand addr = true := by
      cases h : isDemand addr with
      | true => rfl
      | false => exact absurd (Or.inr h) hgo
    have hmem := hP hdem
    rw [isDemand_iff] at hdem
    have hpage := toNat_pageOf addr
    obtain ⟨r, t, hrun, hconf, hheld, _⟩ := mapNew_held hs hh
      (show (pageOf addr).toNat / 4096 ∈ P by rw [toNat_pageOf_div]; exact hmem) (by bv_omega)
      USER_PAGE
      (by decide) (by decide)
    exact ⟨_, t, by rw [Prog.bind_ok hrun, Prog.run_pure], hconf, hheld⟩

theorem handleFault_run {s : Machine} (hs : s.Paged) (hh : Held s userPages) (addr error : U32) :
    ∃ b t, (handleFault addr error).run s = .ok (b, t) ∧ Confined userPages ∅ s t ∧
      Held t userPages := by
  refine handleFault_on hs hh addr error fun hdem => ?_
  rw [isDemand_iff] at hdem
  left
  show 0x800 ≤ _ ∧ _ < 0x900
  omega

/-! ## The `user` command -/

section

variable {s : Machine} {P : Set Nat} {addr : U32}

/-- A store to a held page that may be written. -/
theorem store32_held (hs : s.Paged) (hh : Held s P) (hP : addr.toNat / 4096 ∈ P)
    (hal : addr.toNat % 4 = 0) {e : U32} (he : s.leaf (addr.toNat / 4096) = some e)
    (hw : writable e = true) (x : U32) :
    ∃ t, (store32 addr x).run s = .ok ((), t) ∧ Confined P ∅ s t ∧ Held t P ∧
      t.leaf (addr.toNat / 4096) = some e ∧ (load32 addr).run t = .ok (x, t) := by
  have ho := hh.owned hP he hw
  have hlt := hh.below _ hP
  obtain ⟨t, hrun, hwrote, hview⟩ :=
    (View.self hs ho).store32 (v := addr) x hal (by omega) (by omega)
  have hl : ∀ {p}, p < 1023 * 1024 → t.leaf p = s.leaf p := fun hp => hwrote.leaf hs ho (by omega)
  refine ⟨t, hrun, hwrote.confined hs ho fun q h1 h2 => ?_, hh.sub (fun p hp e' he' => ?_)
    (fun p _ e' _ ht => ((hwrote.sameTables ho).isTable_iff hs).mp ht)
    (fun p _ e' _ hf => by rw [← hwrote.pmm]; exact hf), by rw [hl hlt, he], ?_⟩
  · rw [show q = addr.toNat / 4096 from by omega]
    exact hP
  · exact ⟨e', by rw [← hl (hh.below p hp)]; exact he', rfl⟩
  · rw [hview.load32 hal (by omega) (by omega), ByteMem.read32_write32_same]

/-- `protect` on a held page. -/
theorem protect_held (hs : s.Paged) (hh : Held s P) (hP : addr.toNat / 4096 ∈ P)
    (haddr : addr < TABLE_WINDOW) {e : U32} (flags : U32) (hflags : flags.toNat < 4096)
    (he : s.leaf (addr.toNat / 4096) = some e) :
    ∃ t, (protect addr flags).run s = .ok (true, t) ∧ Confined P ∅ s t ∧ Held t P := by
  have hi := dirIndex_lt_of_lt haddr
  have hj := tableIndex_lt addr
  have hp := (entry_of_leaf_some he).1
  refine ⟨_, run_protect_some hs flags he, confined_setEntry hs haddr he hP
    (fun _ => frameNo_entry _ hflags) (fun h => ?_), hh.sub (fun p hpP e' he' => ?_)
    (fun p _ e' _ ht => (isTable_setEntry _ hs hi hp hj).mp ht) fun p _ e' _ hf => hf⟩
  · rw [present_entry] at h
    cases h
  · have hlt := hh.below p hpP
    rw [leaf_setEntry _ hs hi hp hj (by omega), page_eq_index] at he'
    split at he'
    · rename_i hpe
      rw [if_pos (present_entry e flags)] at he'
      cases he'
      exact ⟨e, by rw [hpe]; exact he, (frameNo_entry e hflags).symm⟩
    · exact ⟨e', he', rfl⟩

end

/-- The calls of the `user` command, each in the machine that the one before leaves. -/
inductive UserRun (s : Machine) : Option UserReport → Machine → Prop where
  | refused {s1 t : Machine} (hfree : (unmapFree USER_DEMO).run s = .ok ((), s1))
      (hmap : (mapNew USER_DEMO USER_PAGE).run s1 = .ok (none, t)) : UserRun s none t
  | shown {s1 s2 s3 s4 s5 t : Machine} {frame : U32} {entry : Option U32}
      (hfree : (unmapFree USER_DEMO).run s = .ok ((), s1))
      (hmap : (mapNew USER_DEMO USER_PAGE).run s1 = .ok (some frame, s2)) (hpaged : s2.Paged)
      (hstore : (store32 USER_DEMO 0x42424242).run s2 = .ok ((), s3))
      (hload : (load32 USER_DEMO).run s3 = .ok (0x42424242, s3))
      (hprotect : (protect USER_DEMO USER_READONLY).run s3 = .ok (true, s4))
      (hentry : (entryOf USER_DEMO).run s4 = .ok (entry, s4))
      (hrefuse : (mapPage (KHEAP_BASE + 0x01000000) frame USER_PAGE).run s4 = .ok (false, s5))
      (hagain : (unmapFree USER_DEMO).run s5 = .ok ((), t))
      (hleft : (Paging.translate USER_DEMO).run t = .ok (none, t)) :
      UserRun s (some ⟨frame, 0x42424242, entry.getD 0, false⟩) t

theorem UserRun.run {s t : Machine} {r : Option UserReport} (h : UserRun s r t) :
    cmdUser.run s = .ok (r, t) := by
  cases h with
  | refused hfree hmap => rw [cmdUser, Prog.bind_ok hfree, Prog.bind_ok hmap, Prog.run_pure]
  | shown hfree hmap _ hstore hload hprotect hentry hrefuse hagain hleft =>
    rw [cmdUser, Prog.bind_ok hfree, Prog.bind_ok hmap]
    dsimp only
    rw [Prog.bind_ok hstore, Prog.bind_ok hload, Prog.bind_ok hprotect, Prog.bind_ok hentry,
      Prog.bind_ok hrefuse, Prog.bind_ok hagain, Prog.bind_ok hleft, Prog.run_pure]
    rfl

/-- The `user` command with the pages `P`, its own one among them. -/
theorem cmdUser_on {s : Machine} {P : Set Nat} (hs : s.Paged) (hh : Held s P)
    (hP : USER_DEMO.toNat / 4096 ∈ P) :
    ∃ r t, UserRun s r t ∧ Confined P ∅ s t ∧ Held t P := by
  have haddr : USER_DEMO < TABLE_WINDOW := by decide
  obtain ⟨s1, hrun1, hc1, hh1, _⟩ := unmapFree_run hs hh hP haddr
  obtain ⟨r, s2, hrun2, hc2, hh2, hleaf⟩ :=
    mapNew_held hc1.paged hh1 hP haddr USER_PAGE (by decide) (by decide)
  have hc12 := hc1.trans hc2
  cases r with
  | none => exact ⟨none, s2, .refused hrun1 hrun2, hc12, hh2⟩
  | some f =>
    have he2 := hleaf f rfl
    obtain ⟨s3, hrun3, hc3, hh3, he3, hload⟩ := store32_held hc2.paged hh2 hP (by decide) he2
      (by rw [writable_entry]; decide) 0x42424242
    obtain ⟨s4, hrun4, hc4, hh4⟩ :=
      protect_held hc3.paged hh3 hP haddr USER_READONLY (by decide) he3
    -- the mapping in kernel space is refused
    let s5 := report s4 (.kernelSpace (KHEAP_BASE + 0x01000000))
    have hrun5 : (mapPage (KHEAP_BASE + 0x01000000) f USER_PAGE).run s4 = .ok (false, s5) := by
      rw [mapPage, if_pos ⟨by decide, by decide⟩, Prog.bind_ok (run_koops s4 _), Prog.run_pure]
    have hc5 : Confined P ∅ s4 s5 := confined_report hc4.paged _
    have hh5 : Held s5 P := ⟨hh4.below, hh4.inj, hh4.notTable, hh4.notFree⟩
    obtain ⟨s6, hrun6, hc6, hh6, hnone⟩ := unmapFree_run hc5.paged hh5 hP haddr
    have hrun7 := run_translate hc6.paged USER_DEMO
    rw [hnone, Option.map_none] at hrun7
    exact ⟨_, s6, .shown hrun1 hrun2 hc2.paged hrun3 hload hrun4 (run_entryOf hc4.paged USER_DEMO)
      hrun5 hrun6 hrun7, ((hc12.trans hc3).trans hc4).trans (hc5.trans hc6), hh6⟩

/-- The `user` command returns.  Once the page is mapped it reads back what it wrote, and it ends
with the page unmapped. -/
theorem cmdUser_run {s : Machine} (hs : s.Paged) (hh : Held s userPages) :
    ∃ r t, cmdUser.run s = .ok (r, t) ∧ Confined userPages ∅ s t ∧ Held t userPages ∧
      ∀ report, r = some report → report.readBack = 0x42424242 ∧ report.stillMapped = false := by
  obtain ⟨r, t, hsteps, hconf, hheld⟩ := cmdUser_on hs hh (Or.inr rfl)
  refine ⟨r, t, hsteps.run, hconf, hheld, ?_⟩
  cases hsteps with
  | refused => exact fun _ h => by cases h
  | shown =>
    rintro _ ⟨⟩
    exact ⟨rfl, rfl⟩

end Kfs
