import Kfs.Heap.Blind
import Kfs.System.Plenty

/-!
# Demand paging

`handle_fault` gives a page of the demand zone a frame on its first access.  `Serves` is when it
should, in terms of the tables and the free frames, and `Recovered` is what the access finds when it
is made again: a page of zeros that ring 3 may read and write, and no other page changed.
`handleFault_exact` compares the two with what the function does, and `demand_exact` carries it to
every state that the kernel reaches.
-/

namespace Kfs

open Lib Mem Paging Machine

/-- The fault is for a page of the demand zone that is not mapped, and there are frames for the
page and for the table that it may need. -/
def Machine.Serves (s : Machine) (addr error : U32) : Prop :=
  error.getLsbD 0 = false ∧ DEMAND_BASE ≤ addr ∧ addr < DEMAND_END ∧
    s.leaf (addr.toNat / 4096) = none ∧
    (if present (s.dirWord (addr.toNat / 2 ^ 22)) = true then 1 else 2) ≤ s.pmm.frames.card

/-- The page of `addr` is mapped for everybody and holds zeros, so that no access to it faults.  The
other pages are as they were. -/
structure Machine.Recovered (s t : Machine) (addr : U32) : Prop where
  rights : ∀ v : U32, v.toNat / 4096 = addr.toNat / 4096 → ∃ pde pte, t.walk v = some (pde, pte) ∧
    (present pde = true ∧ writable pde = true ∧ user pde = true) ∧
    (present pte = true ∧ writable pte = true ∧ user pte = true)
  zero : ∀ v : U32, v.toNat / 4096 = addr.toNat / 4096 → (load8 v).run t = .ok (0, t)
  retry : ∀ (write : Bool) (v : U32), v.toNat / 4096 = addr.toNat / 4096 →
    ∃ a, (resolve write v).run t = .ok (a, t)
  others : ∀ v : U32, v < TABLE_WINDOW → v.toNat / 4096 ≠ addr.toNat / 4096 →
    t.walk v = s.walk v

section

variable {s : Machine} {addr error : U32}

/-- A `map_new` in the demand zone succeeds exactly when there are frames for it. -/
theorem mapNew_serves {page : U32} (hpage : page.toNat / 4096 = addr.toNat / 4096)
    (hdemand : 0x00800000 ≤ addr.toNat ∧ addr.toNat < 0x00900000) {r : Option U32} {t : Machine}
    (hnew : MapNew s page USER_PAGE r t) :
    r.isSome = true ↔ s.leaf (addr.toNat / 4096) = none ∧
      (if present (s.dirWord (addr.toNat / 2 ^ 22)) = true then 1 else 2)
        ≤ s.pmm.frames.card := by
  have hdir : dirIndex page = addr.toNat / 2 ^ 22 := by
    rw [dirIndex_eq, hpage]
    omega
  have huser : ¬UserInKernel page (USER_PAGE ||| WRITABLE) := by
    rintro ⟨_, hkernel⟩
    rw [(isKernel_eq_false_iff page).mpr (by omega)] at hkernel
    cases hkernel
  have hcard : ∀ {k}, k ∈ s.pmm.frames →
      (taking s k).pmm.frames.card + 1 = s.pmm.frames.card := fun hk => by
    rw [frames_taking, Finset.card_erase_add_one hk]
  cases hnew with
  | noFrame hempty =>
    rw [hempty]
    simp only [Option.isSome_none, Bool.false_eq_true, Finset.card_empty, false_iff]
    rintro ⟨_, hle⟩
    split at hle <;> omega
  | refused hk hmin hmap =>
    rename_i k u
    simp only [Option.isSome_none, Bool.false_eq_true, false_iff]
    rintro ⟨hnone, hle⟩
    cases hmap with
    | user hu => exact huser hu
    | noTable _ habs hempty =>
      -- the one free frame went to the page, and the table needs another
      have habs' : present (s.dirWord (addr.toNat / 2 ^ 22)) = false := by
        rw [← hdir]
        exact habs
      have h1 := hcard hk
      rw [hempty, Finset.card_empty] at h1
      rw [habs'] at hle
      simp only [Bool.false_eq_true, if_false] at hle
      omega
    | mapped _ he =>
      have he' : s.leaf (page.toNat / 4096) = some _ := he
      rw [hpage, hnone] at he'
      cases he'
  | done hk hmin hmap hw =>
    rename_i k u
    have hwas : s.leaf (page.toNat / 4096) = none := hmap.leaf_was
    have h1 := hcard hk
    have h2 := hmap.card_frames
    have hslot : dirIndex page ∈ (taking s k).slots ↔
        present (s.dirWord (addr.toNat / 2 ^ 22)) = true := by
      rw [mem_slots, hdir]
      exact and_iff_right (by omega)
    rw [hpage] at hwas
    simp only [Option.isSome_some, hwas, true_and, true_iff]
    by_cases hp : present (s.dirWord (addr.toNat / 2 ^ 22)) = true
    · rw [if_pos hp]
      omega
    · rw [if_neg hp]
      rw [if_neg (fun h => hp (hslot.mp h))] at h2
      omega
  | readOnly hk hmin hmap hw => exact absurd hw (by decide)

/-- The page that `map_new` made, as the processor sees it. -/
theorem mapNew_recovered (hs : s.Paged) {page : U32}
    (hpage : page.toNat / 4096 = addr.toNat / 4096) (hlow : page < TABLE_WINDOW) {f : U32}
    {t : Machine} (hnew : MapNew s page USER_PAGE (some f) t) {P D : Set Nat}
    (hconf : Confined P D s t)
    (huser : present (t.dirWord (addr.toNat / 4096 / 1024)) = true →
      user (t.dirWord (addr.toNat / 4096 / 1024)) = true) : s.Recovered t addr := by
  obtain ⟨k, hk, rfl, ht, hnot, hleaf, hzero⟩ := hnew.some_spec hs hlow (by decide)
  have hlt := addr_page_lt hlow
  rw [hpage] at hleaf hlt
  have hhere : t.leaf (addr.toNat / 4096) = some (entryFor (Pmm.addressOf k) USER_PAGE) := by
    rw [hleaf _ hlt, if_pos rfl]
  have hframe : frameNo (entryFor (Pmm.addressOf k) USER_PAGE) = k := by
    rw [frameNo_entry _ (by decide), frameNo_addressOf hk]
  have hdir := (present_of_leaf hhere).1
  have hwrite : writable (t.dirWord (addr.toNat / 4096 / 1024)) = true :=
    ht.dirWritable _ (by omega) hdir
  have hentry : writable (entryFor (Pmm.addressOf k) USER_PAGE) = true := by
    rw [writable_entry]
    decide
  have hleafOf : ∀ v : U32, v.toNat / 4096 = addr.toNat / 4096 →
      t.leaf (v.toNat / 4096) = some (entryFor (Pmm.addressOf k) USER_PAGE) := fun v hv => by
    rw [hv, hhere]
  refine ⟨fun v hv => ?_, fun v hv => ?_, fun write v hv => ?_, fun v hv hne => ?_⟩
  · refine ⟨_, _, walk_of_leaf (hleafOf v hv), ?_, present_entry _ _, hentry, ?_⟩
    · rw [hv]
      exact ⟨hdir, hwrite, huser hdir⟩
    · rw [user_entry]
      decide
  · rw [load8_of_leaf (hleafOf v hv), hframe, hzero _ (by omega)]
  · cases write with
    | false => exact ⟨_, resolve_read (hleafOf v hv)⟩
    | true =>
      refine ⟨_, resolve_write (hleafOf v hv) ⟨?_, hentry⟩⟩
      rw [hv]
      exact hwrite
  · have hvlt := addr_page_lt hv
    have hsame : t.leaf (v.toNat / 4096) = s.leaf (v.toNat / 4096) := by
      rw [hleaf _ hvlt, if_neg hne]
    rw [walk_eq, walk_eq, hsame]
    cases he : s.leaf (v.toNat / 4096) with
    | none => rfl
    | some e =>
      rw [hconf.dir _ (by omega) (present_of_leaf he).1]

/-- What `handle_fault` does on tables in order, when the slot of the demand zone is open to
ring 3. -/
theorem handleFault_exact (hs : s.Paged) (hh : Held s userPages)
    (hopen : present (s.dirWord 2) = true → user (s.dirWord 2) = true) (addr error : U32) :
    ∃ b t, (handleFault addr error).run s = .ok (b, t) ∧ (b = true ↔ s.Serves addr error) ∧
      (b = true → s.Recovered t addr) ∧ (b = false → Untouched s t) := by
  by_cases hgo : error &&& PRESENT ≠ 0 ∨ isDemand addr = false
  · refine ⟨false, s, by rw [handleFault, if_pos hgo, Prog.run_pure], ?_, fun hb => (by cases hb),
      fun _ => .refl s⟩
    simp only [Bool.false_eq_true, false_iff]
    rintro ⟨hbit, hlo, hhi, _⟩
    rcases hgo with hbad | hout
    · exact hbad ((and_present_eq_zero error).mpr hbit)
    · rw [(isDemand_iff addr).mpr ⟨hlo, hhi⟩] at hout
      cases hout
  · obtain ⟨hbit, hin⟩ := not_or.mp hgo
    have hbit' : error.getLsbD 0 = false := (and_present_eq_zero error).mp (not_not.mp hbit)
    have hdemand := (isDemand_iff addr).mp (by simpa using hin)
    have hpage := toNat_pageOf_div addr
    have hlow : pageOf addr < TABLE_WINDOW := by
      rw [BitVec.lt_def, show TABLE_WINDOW.toNat = 4096 * (1023 * 1024) from rfl]
      omega
    obtain ⟨r, t, hrun, hnew⟩ := mapNew_run hs (pageOf addr) USER_PAGE hlow (by decide)
    have hfault : (handleFault addr error).run s = .ok (r.isSome, t) := by
      rw [handleFault, if_neg hgo, Prog.bind_ok hrun, Prog.run_pure]
    obtain ⟨b, u, hrun', hconf, _⟩ := handleFault_run hs hh addr error
    rw [hfault] at hrun'
    cases hrun'
    refine ⟨r.isSome, t, hfault, ?_, fun hb => ?_, fun hb => ?_⟩
    · rw [mapNew_serves hpage hdemand hnew, Machine.Serves]
      exact ⟨fun h => ⟨hbit', hdemand.1, hdemand.2, h⟩, fun h => h.2.2.2⟩
    · obtain ⟨f, rfl⟩ := Option.isSome_iff_exists.mp hb
      refine mapNew_recovered hs hpage hlow hnew hconf fun hp' => ?_
      rw [show addr.toNat / 4096 / 1024 = 2 from by omega] at hp' ⊢
      cases hp : present (s.dirWord 2) with
      | true =>
        rw [hconf.dir 2 (by decide) hp]
        exact hopen hp
      | false => rw [hconf.fresh 2 (by decide) hp hp', decide_eq_true (by decide)]
    · obtain rfl : r = none := by simpa using hb
      exact hnew.none_spec

end

/-! ## Every state that is reached -/

/-- From boot on, whatever the kernel does: `handle_fault` serves exactly the faults it should, a
served fault leaves the page ready for the access, and one that is not served leaves no trace.  The
growth of the kernel's heap must not wrap around. -/
theorem demand_exact {L : Layout} {ram : Multiboot.Ram} {hs : Heaps} {s : Machine}
    (hb : Booted L ram hs s) (hw : hs.NoWrap) (ops : List Op) :
    ∃ hs' t, (runOps hs ops).run s = .ok (hs', t) ∧ ∀ addr error,
      ∃ b u, (handleFault addr error).run t = .ok (b, u) ∧ (b = true ↔ t.Serves addr error) ∧
        (b = true → t.Recovered u addr) ∧ (b = false → Untouched t u) := by
  obtain ⟨window, h0⟩ := hb.start
  obtain ⟨hs', t, hrun, bk, bv, hi⟩ := (h0.inv hw).run ops
  refine ⟨hs', t, hrun, fun addr error => ?_⟩
  -- the slot of the demand zone was empty at boot
  have habs : present (s.dirWord 2) = false := by
    rw [h0.tables.dirElse 2 (by decide) (by decide) (by decide) (by decide)]
    rfl
  refine handleFault_exact hi.confined.paged hi.user (fun hp => ?_) addr error
  rw [hi.confined.fresh 2 (by decide) habs hp, decide_eq_true (by decide)]

theorem demand_exact_plain : ∃ hs s, Booted smallLayout (Multiboot.ramOf plainEntries) hs s ∧
    hs.NoWrap ∧ ∃ hs' t, (runOps hs [.kmalloc 100]).run s = .ok (hs', t) ∧
      t.Serves 0x803004 2 ∧
      ∃ u, (handleFault 0x803004 2).run t = .ok (true, u) ∧ t.Recovered u 0x803004 := by
  obtain ⟨hs, s, hb, hend⟩ := exists_booted_plain
  obtain ⟨window, h0⟩ := hb.start
  obtain ⟨hs1, s1, _, _, hrun1, hi, hvirtual, _⟩ := h0.kmalloc_plain (Or.inl hend)
  obtain ⟨hs', t, hrun, hall⟩ := demand_exact hb (Or.inl hend) [.kmalloc 100]
  obtain ⟨rfl, rfl⟩ := runOps_one hrun1 hrun
  -- the page is not mapped, and there are frames for it and its table
  have hserves : t.Serves 0x803004 2 := by
    have huser : (0x803004 : U32).toNat / 4096 ∈ userPages := Or.inl ⟨by decide, by decide⟩
    refine ⟨by decide, by decide, by decide, ?_, ?_⟩
    · rw [(h0.inv (Or.inl hend)).kernel_call_leaf hrun1 huser, h0.unmapped (Or.inr huser)]
    have hfree := hi.plain_free h0
    have hbrk : hs'.virtual.heap.brk.toNat = 0xE0000000 := by
      rw [hvirtual, h0.heaps]
      rfl
    split <;> omega
  obtain ⟨b, u, hfault, hiff, hserved, _⟩ := hall 0x803004 2
  have hb' := hiff.mpr hserves
  subst hb'
  exact ⟨hs, s, hb, Or.inl hend, hs', t, hrun, hserves, u, hfault, hserved rfl⟩

/-- Where the growth wraps around, page 289 of the kernel's heap has the directory for its frame.
A client that clears a byte of its own block clears the entry that maps the directory into itself,
and `handle_fault` cannot read the tables any more. -/
theorem demand_broken_top : ∃ s,
    Booted smallLayout (Multiboot.ramOf topEntries) (heapInit topWindow) s ∧
    ∃ hs' t, (runOps (heapInit topWindow) [.kmalloc 0x211000, .kernel (.write 0xD0121FFC 0)]).run s
        = .ok (hs', t) ∧ t.Serves 0x802000 0 ∧
      (handleFault 0x802000 0).run t = .error (.fault 0xFFFFF008) := by
  obtain ⟨s, hb, hframes⟩ := exists_booted_top
  obtain ⟨h0, htop⟩ := hb.atTop hframes
  obtain ⟨c, u, hrun, hheap, hlive, hbrk, hu⟩ := htop.alloc (N := 529) (i := 832) (by decide)
    (by decide) (by decide) (by decide) (Or.inl ⟨rfl, rfl⟩)
  have hcr3 : frameNo u.cr3 = 0x110 := by
    rw [← hu.paged.self, hu.dir 1023 (by decide) (by decide), (entry_bits h0.tables.dirSelf).1]
    rfl
  have hleaf : u.leaf 0xD0121 = some ((kernelHeap.attach topWindow).wrappedEntry 289) := by
    rw [hu.leaf _ (by decide), if_neg (by decide), if_pos (by decide)]
  have hframe : frameNo ((kernelHeap.attach topWindow).wrappedEntry 289) = 0x110 :=
    Heap.frameNo_wrappedEntry wraps_top 289
  obtain ⟨t, ht, hstore⟩ : ∃ t, t = { u with mem := u.mem.write8 (4096 * 0x110 + 0xFFC) 0 } ∧
      (store8 0xD0121FFC 0).run u = .ok ((), t) := by
    refine ⟨_, rfl, ?_⟩
    rw [store8_of_leaf (v := 0xD0121FFC) 0 hleaf
      ⟨hu.paged.dirWritable _ (by decide) (present_of_leaf hleaf).1, by decide⟩, hframe]
    rfl
  have hcall : ((Heap.Call.write 0xD0121FFC 0).step c).run u = .ok (c, t) := by
    rw [Heap.Call.step, if_pos ⟨_, by rw [hlive]; exact List.mem_singleton_self _, by decide⟩,
      Prog.bind_ok hstore, Prog.run_pure]
  -- the directory lost its own entry, and nothing else
  have hself : present (t.dirWord 1023) = false := by
    rw [dirWord, ht]
    dsimp only
    rw [hcr3]
    exact present_write8_zero u.mem _
  have hslot : present (t.dirWord 2) = false := by
    have hsame : t.dirWord 2 = u.dirWord 2 := by
      rw [dirWord, ht]
      exact ByteMem.read32_write8_other _ _ (by dsimp only; rw [hcr3]; decide)
    rw [hsame, hu.dir 2 (by decide) (by decide),
      h0.tables.dirElse 2 (by decide) (by decide) (by decide) (by decide)]
    rfl
  have hfree : t.pmm.frames = {0x201, 0x202} := by
    rw [ht]
    show u.pmm.frames = _
    rw [hu.pmm, Pmm.frames_setUsed, hframes]
    decide
  refine ⟨s, hb, { heapInit topWindow with kernel := c }, t, ?_, ?_, ?_⟩
  · rw [Op.kmalloc, show (0x211000 : U32) = BitVec.ofNat 32 (4096 * 529) from rfl,
      runOps_cons (Op.kernel_run (heapInit topWindow) hrun),
      runOps_cons (Op.kernel_same { heapInit topWindow with kernel := c } hcall)]
    exact runOps_nil _ _
  · refine ⟨by decide, by decide, by decide, leaf_eq_none_of_dir hslot, ?_⟩
    rw [if_neg (by rw [show (0x802000 : U32).toNat / 2 ^ 22 = 2 from rfl, hslot]; decide), hfree]
    decide
  · have hk : 0x201 ∈ t.pmm.frames := by
      rw [hfree]
      decide
    have hmin : ∀ j, j < 0x201 → j ∉ t.pmm.frames := fun j hj => by
      rw [hfree]
      simp only [Finset.mem_insert, Finset.mem_singleton]
      omega
    have hgone : (taking t 0x201).leaf 0xFFFFF = none := leaf_eq_none_of_dir hself
    have hload : (directoryEntry 2).run (taking t 0x201) = .error (.fault 0xFFFFF008) :=
      load32_unmapped (v := 0xFFFFF008) hgone
    have hpage : (getPage 0x802000 true).run (taking t 0x201) = .error (.fault 0xFFFFF008) :=
      Prog.bind_error hload
    have hmap : (mapPage 0x802000 (Pmm.addressOf 0x201) (USER_PAGE ||| WRITABLE)).run
        (taking t 0x201) = .error (.fault 0xFFFFF008) := by
      rw [mapPage, if_neg (by decide), Prog.bind_error hpage]
    have hnew : (mapNew 0x802000 USER_PAGE).run t = .error (.fault 0xFFFFF008) := by
      rw [mapNew, Prog.bind_ok (run_allocFrame_some hk hmin)]
      exact Prog.bind_error hmap
    rw [handleFault, if_neg (by decide), show pageOf 0x802000 = 0x802000 from by decide,
      Prog.bind_error hnew]

end Kfs
