import Kfs.Paging.Refine

/-!
# What ring 3 can reach

Ring 3 has access to an address when both entries of the hardware walk have the bit `USER`.
`map_page` checks the bit against the address, but `protect` does not, so the table entries of
kernel space say nothing.  The entries of the directory do: `get_page` is the only writer, it takes
the bit from the address, and `space_of` puts whole slots of the directory in or out of user space.
`UserSlots` is this invariant, and every call keeps it.
-/

namespace Kfs

open Lib Mem Paging

namespace Machine

/-- Ring 3 has access to the address. -/
def UserAccess (s : Machine) (v : U32) : Prop :=
  ∃ pde pte, s.walk v = some (pde, pte) ∧ user pde = true ∧ user pte = true

/-- Only the directory slots of user space are open to ring 3. -/
def UserSlots (s : Machine) : Prop :=
  ∀ i, i < 1024 → user (s.dirWord i) = true → 1 ≤ i ∧ i < 768

variable {s t : Machine}

theorem UserSlots.congr (h : s.UserSlots) (hdir : ∀ i, i < 1024 → t.dirWord i = s.dirWord i) :
    t.UserSlots := fun i hi hu => h i hi (by rw [← hdir i hi]; exact hu)

theorem UserSlots.access (h : s.UserSlots) {v : U32} (hv : s.UserAccess v) :
    USER_BASE ≤ v ∧ v < USER_END := by
  obtain ⟨pde, pte, hwalk, hpde, _⟩ := hv
  have hlt := v.isLt
  have hword : s.dirWord (v.toNat / 2 ^ 22) = pde := by
    simp only [walk] at hwalk
    split at hwalk
    · split at hwalk
      · exact congrArg Prod.fst (Option.some.inj hwalk)
      · cases hwalk
    · cases hwalk
  obtain ⟨h1, h2⟩ := h (v.toNat / 2 ^ 22) (by omega) (by rw [hword]; exact hpde)
  rw [BitVec.le_def, BitVec.lt_def, show USER_BASE.toNat = 2 ^ 22 from rfl,
    show USER_END.toNat = 768 * 2 ^ 22 from rfl]
  omega

end Machine

namespace Paging

open Machine

variable {s t : Machine} {addr frame flags : U32}

/-- The rights of a new table follow the slot. -/
theorem user_tableEntry {k : Nat} (hk : k ∈ s.pmm.frames)
    (hu : user (Pmm.addressOf k ||| tableFlags addr) = true) :
    1 ≤ dirIndex addr ∧ dirIndex addr < 768 := by
  rw [user_or_tableFlags (Pmm.toNat_addressOf (Pmm.lt_of_mem_frames hk))] at hu
  exact of_decide_eq_true hu

/-! ## Every call keeps the slots -/

theorem TableFor.userSlots (h : TableFor s addr t) (hs : s.Paged) (hslots : s.UserSlots) :
    t.UserSlots := by
  cases h with
  | here => exact hslots
  | fresh k _ hk _ =>
    intro i hi hu
    rw [dirWord_installTable hs hk hi] at hu
    split at hu
    · rename_i heq
      rw [heq]
      exact user_tableEntry hk hu
    · exact hslots i hi hu

theorem userSlots_setEntry (hs : s.Paged) (haddr : addr < TABLE_WINDOW)
    (hp : present (s.dirWord (dirIndex addr)) = true) (hslots : s.UserSlots) (x : U32) :
    (s.setEntry (dirIndex addr) (tableIndex addr) x).UserSlots :=
  hslots.congr fun _ hi =>
    dirWord_setEntry x hs (dirIndex_lt_of_lt haddr) hp (tableIndex_lt addr) hi

theorem MapPage.userSlots {b : Bool} (h : MapPage s addr frame flags b t) (hs : s.Paged)
    (haddr : addr < TABLE_WINDOW) (hslots : s.UserSlots) : t.UserSlots := by
  cases b with
  | false =>
    obtain ⟨o, rfl⟩ := h.eq_report
    exact hslots
  | true =>
    cases h with
    | done _ _ ht =>
      exact userSlots_setEntry (ht.paged hs) haddr (ht.present_dir hs) (ht.userSlots hs hslots) _

theorem userSlots_getPage (hs : s.Paged) (hslots : s.UserSlots) {create : Bool} {r : Option U32}
    (hrun : (getPage addr create).run s = .ok (r, t)) : t.UserSlots := by
  cases create with
  | true =>
    rcases getPage_run hs addr with ⟨u, hu, hget⟩ | ⟨_, _, hget⟩
    · rw [hget] at hrun
      cases hrun
      exact hu.userSlots hs hslots
    · rw [hget] at hrun
      cases hrun
      exact hslots
  | false =>
    by_cases hp : present (s.dirWord (dirIndex addr)) = true
    · rw [run_getPage_here hs false hp] at hrun
      cases hrun
      exact hslots
    · rw [run_getPage_absent hs (by simpa using hp)] at hrun
      cases hrun
      exact hslots

theorem userSlots_unmapPage (hs : s.Paged) (haddr : addr < TABLE_WINDOW) (hslots : s.UserSlots)
    {r : Option U32} (hrun : (unmapPage addr).run s = .ok (r, t)) : t.UserSlots := by
  cases hleaf : s.leaf (addr.toNat / 4096) with
  | none =>
    rw [run_unmapPage_none hs hleaf] at hrun
    cases hrun
    exact hslots
  | some e =>
    rw [run_unmapPage_some hs hleaf] at hrun
    cases hrun
    exact userSlots_setEntry hs haddr (entry_of_leaf_some hleaf).1 hslots _

theorem userSlots_protect (hs : s.Paged) (haddr : addr < TABLE_WINDOW) (hslots : s.UserSlots)
    {b : Bool} (hrun : (protect addr flags).run s = .ok (b, t)) : t.UserSlots := by
  cases hleaf : s.leaf (addr.toNat / 4096) with
  | none =>
    rw [run_protect_none hs flags hleaf] at hrun
    cases hrun
    exact hslots
  | some e =>
    rw [run_protect_some hs flags hleaf] at hrun
    cases hrun
    exact userSlots_setEntry hs haddr (entry_of_leaf_some hleaf).1 hslots _

/-- `map_new` maps, zeroes the page and may lower its rights. -/
theorem userSlots_mapNew (hs : s.Paged) (haddr : addr < TABLE_WINDOW) (hslots : s.UserSlots)
    {r : Option U32} (hrun : (mapNew addr flags).run s = .ok (r, t)) : t.UserSlots := by
  rcases mapNew_inv hs hrun with rfl | ⟨k, hk, u, ⟨hmap, rfl⟩ | ⟨hmap, v, hloop, hrest⟩⟩
  · exact hslots
  · exact hmap.userSlots (paged_taking hs k) haddr hslots
  · obtain ⟨hal, hlow⟩ := pageOf_low haddr
    have hpaged := hmap.paged (paged_taking hs k) haddr
    have hu : u.UserSlots := hmap.userSlots (paged_taking hs k) haddr hslots
    have hv : v.UserSlots := hu.congr (dir_zeroLoop hpaged hal hlow hloop).2.2
    rcases hrest with rfl | ⟨b, hprot⟩
    · exact hv
    · exact userSlots_protect (paged_zeroLoop hpaged hal hlow hloop) haddr hv hprot

theorem Op.userSlots {op : Op} (hs : s.Paged) (hslots : s.UserSlots)
    (hrun : op.call.run s = .ok ((), t)) : t.UserSlots := by
  cases op with
  | freeFrame phys =>
    cases hrun
    exact hslots
  | getPage addr create =>
    obtain ⟨r, u, h, hret⟩ := Prog.bind_eq_ok.mp hrun
    cases hret
    exact userSlots_getPage hs hslots h
  | mapPage addr frame flags =>
    obtain ⟨r, u, h, hret⟩ := Prog.bind_eq_ok.mp hrun
    cases hret
    obtain ⟨b, v, hv, hmap⟩ := mapPage_run hs addr.val frame flags
    rw [hv] at h
    cases h
    exact hmap.userSlots hs addr.property hslots
  | mapNew addr flags =>
    obtain ⟨r, u, h, hret⟩ := Prog.bind_eq_ok.mp hrun
    cases hret
    exact userSlots_mapNew hs addr.property hslots h
  | unmapPage addr =>
    obtain ⟨r, u, h, hret⟩ := Prog.bind_eq_ok.mp hrun
    cases hret
    exact userSlots_unmapPage hs addr.property hslots h
  | protect addr flags =>
    obtain ⟨r, u, h, hret⟩ := Prog.bind_eq_ok.mp hrun
    cases hret
    exact userSlots_protect hs addr.property hslots h

/-! ## Calls and faults -/

/-- The states that `paging::init` and then any calls and page faults lead to. -/
inductive Served (L : Layout) : Machine → Prop where
  | reached {s : Machine} (hs : Reachable L s) : Served L s
  | call {s t : Machine} {op : Op} (hs : Served L s) (hop : op.Allowed s)
      (hrun : op.call.run s = .ok ((), t)) : Served L t
  | fault {s t : Machine} {addr error : U32} {b : Bool} (hs : Served L s)
      (hrun : (handleFault addr error).run s = .ok (b, t)) : Served L t

/-- A fault that changes anything is a `map_new` in the demand zone. -/
theorem handleFault_inv {error : U32} {b : Bool}
    (hrun : (handleFault addr error).run s = .ok (b, t)) :
    t = s ∨
      pageOf addr < TABLE_WINDOW ∧ ∃ r, (mapNew (pageOf addr) USER_PAGE).run s = .ok (r, t) := by
  rw [handleFault] at hrun
  split at hrun
  · cases hrun
    exact Or.inl rfl
  · rename_i hgo
    have hdemand : isDemand addr = true := by
      by_contra hnot
      exact hgo (Or.inr (by simpa using hnot))
    rw [isDemand_iff] at hdemand
    have hpage := toNat_pageOf addr
    obtain ⟨r, u, hnew, hret⟩ := Prog.bind_eq_ok.mp hrun
    cases hret
    refine Or.inr ⟨?_, r, hnew⟩
    rw [BitVec.lt_def, hpage, show TABLE_WINDOW.toNat = 4096 * (1023 * 1024) from rfl]
    omega

theorem Served.reachable {L : Layout} (h : Served L s) : Reachable L s := by
  induction h with
  | reached hs => exact hs
  | call _ hop hrun ih => exact .step ih hop hrun
  | fault _ hrun ih =>
    rcases handleFault_inv hrun with rfl | ⟨hlow, r, hnew⟩
    · exact ih
    · rename_i s t addr _ _ _
      have hcall : (Op.mapNew ⟨pageOf addr, hlow⟩ USER_PAGE).call.run s = .ok ((), t) := by
        rw [Op.call, Prog.bind_ok hnew, Prog.run_pure]
      exact .step ih (show Op.Allowed s (.mapNew _ _) from trivial) hcall

theorem userSlots_init {L : Layout} (h : InitTables L s) : s.UserSlots := by
  have hboot : ∀ {w : U32} {k : Nat}, w.toNat = 4096 * k + 3 → user w = false := fun {w k} hw => by
    rw [user, ← BitVec.testBit_toNat, hw, Nat.testBit_succ, Nat.testBit_succ, Nat.testBit_zero,
      decide_eq_false_iff_not]
    omega
  intro i hi hu
  by_cases hslot : i = 0 ∨ i = 768 ∨ i = 1023
  · rcases hslot with rfl | rfl | rfl
    · rw [hboot h.dirLow] at hu
      cases hu
    · rw [hboot h.dirKernel] at hu
      cases hu
    · rw [hboot h.dirSelf] at hu
      cases hu
  · rw [h.dirElse i hi (by omega) (by omega) (by omega)] at hu
    cases hu

theorem Reachable.userSlots {L : Layout} (hfits : L.Fits) (h : Reachable L s) : s.UserSlots := by
  induction h with
  | init p hload hfree hrun =>
    obtain ⟨u, hu, htab, _⟩ := init_run hfits ((bootAsm_tables hload).withPmm p)
    rw [hu] at hrun
    cases hrun
    exact userSlots_init htab
  | step hs hop hrun ih => exact Op.userSlots (hs.paged hfits) ih hrun

/-- Whatever calls of the paging functions and whatever faults follow `paging::init`: ring 3 has
access to addresses of user space only. -/
theorem user_access_confined {L : Layout} (hfits : L.Fits) (h : Served L s) {v : U32}
    (hv : s.UserAccess v) : USER_BASE ≤ v ∧ v < USER_END :=
  (h.reachable.userSlots hfits).access hv

/-- A user page in the demand zone is such an address. -/
theorem user_access_confined_demand : ∃ s, smallLayout.Fits ∧ Served smallLayout s ∧
    s.UserAccess 0x800000 ∧ USER_BASE ≤ (0x800000 : U32) ∧ (0x800000 : U32) < USER_END := by
  obtain ⟨s, t, hreach, htab, hone, hrun, hmap, _, hleaf⟩ := exists_demand_smallLayout
  have hs := hreach.paged smallLayout_fits
  have habs : present (s.dirWord 2) = false := by
    rw [htab.dirElse 2 (by decide) (by decide) (by decide) (by decide)]
    rfl
  obtain ⟨_, hword, _⟩ := hmap.fresh hs (by decide) habs (k := 0x200)
    (by rw [hone]; exact Finset.mem_singleton_self _)
    fun j hj => by rw [hone, Finset.mem_singleton]; omega
  have hcall : (Op.mapPage ⟨0x800000, by decide⟩ 0x201000 USER_PAGE).call.run s
      = .ok ((), t) := by
    rw [Op.call, Prog.bind_ok hrun, Prog.run_pure]
  have hserved : Served smallLayout t :=
    .call (.reached hreach) (show Op.Allowed s (.mapPage _ _ _) from trivial) hcall
  have hpde : user (t.dirWord 2) = true := by
    rw [show t.dirWord 2 = _ from hword]
    decide
  have haccess : t.UserAccess 0x800000 := ⟨_, _, walk_of_leaf hleaf, hpde, by decide⟩
  exact ⟨t, smallLayout_fits, hserved, haccess,
    user_access_confined smallLayout_fits hserved haccess⟩

end Paging

end Kfs
