import Kfs.Paging.Runs

/-!
# What an operation on a set of pages leaves alone

An operation of the kernel works on pages of its own, the set `R`, and on frames that were set
aside for it, the set `D`.  `Mine R D` collects the frames that it may use: the free ones, the
tables, the set `D` and the frames behind `R`.  `Confined R D s t` says that the step from `s` to
`t` stays within them.

* No frame enters or leaves `Mine`, and no byte outside of it changes.
* No page outside `R` gets another entry, no table goes away, and a new table is open to ring 3
  exactly if its slot is one of user space.

So whatever else the kernel keeps in frames outside `Mine` is still there, and nobody else came
to own them.  `Confined` composes (`trans`) and can be weakened to larger sets (`mono`).
-/

namespace Kfs

open Lib Mem Paging

namespace Machine

/-- Frame `k` is behind a page of `R`. -/
def Behind (s : Machine) (R : Set Nat) (k : Nat) : Prop :=
  ∃ p ∈ R, p < 1023 * 1024 ∧ ∃ e, s.leaf p = some e ∧ frameNo e = k

/-- The frames that an operation on the pages `R` with the frames `D` may use. -/
def Mine (s : Machine) (R D : Set Nat) (k : Nat) : Prop :=
  k ∈ s.pmm.frames ∨ s.IsTable k ∨ k ∈ D ∨ s.Behind R k

/-- The step from `s` to `t` stays within the pages `R` and the frames of `Mine R D`. -/
structure Confined (R D : Set Nat) (s t : Machine) : Prop where
  cr3 : t.cr3 = s.cr3
  cr0 : t.cr0 = s.cr0
  paged : t.Paged
  total : t.pmm.total = s.pmm.total
  counted : s.pmm.Counted → t.pmm.Counted
  dir : ∀ i, i < 1024 → present (s.dirWord i) = true → t.dirWord i = s.dirWord i
  fresh : ∀ i, i < 1024 → present (s.dirWord i) = false → present (t.dirWord i) = true →
    user (t.dirWord i) = decide (1 ≤ i ∧ i < 768)
  leaf : ∀ p, p < 1023 * 1024 → p ∉ R → t.leaf p = s.leaf p
  mine : ∀ k, t.Mine R D k ↔ s.Mine R D k
  mem : ∀ a, ¬s.Mine R D (a / 4096) → t.mem a = s.mem a

section

variable {R D Q E : Set Nat} {s t u : Machine}

theorem behind_congr (h : ∀ p, p < 1023 * 1024 → p ∈ R → t.leaf p = s.leaf p) {k : Nat} :
    t.Behind R k ↔ s.Behind R k := by
  constructor <;> rintro ⟨p, hp, hlt, e, he, hk⟩
  · exact ⟨p, hp, hlt, e, by rw [← h p hlt hp]; exact he, hk⟩
  · exact ⟨p, hp, hlt, e, by rw [h p hlt hp]; exact he, hk⟩

theorem not_behind_empty {k : Nat} : ¬s.Behind ∅ k := by
  rintro ⟨_, hp, _⟩
  exact hp

theorem isTable_withPmm (s : Machine) (p : Pmm) {k : Nat} :
    ({ s with pmm := p } : Machine).IsTable k ↔ s.IsTable k := Iff.rfl

theorem behind_withPmm (s : Machine) (p : Pmm) {k : Nat} :
    ({ s with pmm := p } : Machine).Behind R k ↔ s.Behind R k := Iff.rfl

/-- A frame that is in no way `Mine` is not a table, not free and not behind the pages. -/
theorem not_mine {k : Nat} : ¬s.Mine R D k ↔
    k ∉ s.pmm.frames ∧ ¬s.IsTable k ∧ k ∉ D ∧ ¬s.Behind R k := by
  simp only [Mine, not_or]

/-- A step that leaves the directory alone opens nothing. -/
theorem fresh_of_dir (hdir : ∀ i, i < 1024 → t.dirWord i = s.dirWord i) (i : Nat) (hi : i < 1024)
    (hs : present (s.dirWord i) = false) (ht : present (t.dirWord i) = true) :
    user (t.dirWord i) = decide (1 ≤ i ∧ i < 768) := by
  rw [hdir i hi, hs] at ht
  cases ht

namespace Confined

theorem refl (hs : s.Paged) : Confined R D s s :=
  ⟨rfl, rfl, hs, rfl, id, fun _ _ _ => rfl, fresh_of_dir fun _ _ => rfl, fun _ _ _ => rfl,
    fun _ => Iff.rfl, fun _ _ => rfl⟩

theorem trans (h : Confined R D s t) (h' : Confined R D t u) : Confined R D s u where
  cr3 := h'.cr3.trans h.cr3
  cr0 := h'.cr0.trans h.cr0
  paged := h'.paged
  total := h'.total.trans h.total
  counted hc := h'.counted (h.counted hc)
  dir i hi hp := by
    have hst := h.dir i hi hp
    rw [h'.dir i hi (by rw [hst]; exact hp), hst]
  fresh i hi hp hu := by
    cases ht : present (t.dirWord i) with
    | false => exact h'.fresh i hi ht hu
    | true =>
      rw [h'.dir i hi ht]
      exact h.fresh i hi hp ht
  leaf p hlt hp := (h'.leaf p hlt hp).trans (h.leaf p hlt hp)
  mine k := (h'.mine k).trans (h.mine k)
  mem a ha := (h'.mem a fun hm => ha ((h.mine _).mp hm)).trans (h.mem a ha)

/-- A larger set of pages adds frames that the step does not touch. -/
theorem mono (h : Confined R D s t) (hR : R ⊆ Q) (hD : D ⊆ E) : Confined Q E s t := by
  have hrest : ∀ k, t.Behind (Q \ R) k ↔ s.Behind (Q \ R) k := fun k =>
    behind_congr fun p hlt hp => h.leaf p hlt hp.2
  have hsplit : ∀ (x : Machine) k,
      x.Mine Q E k ↔ x.Mine R D k ∨ k ∈ E ∨ x.Behind (Q \ R) k := by
    intro x k
    constructor
    · rintro (hk | hk | hk | ⟨p, hp, hlt, e, he, hk⟩)
      · exact Or.inl (Or.inl hk)
      · exact Or.inl (Or.inr (Or.inl hk))
      · exact Or.inr (Or.inl hk)
      · by_cases hpR : p ∈ R
        · exact Or.inl (Or.inr (Or.inr (Or.inr ⟨p, hpR, hlt, e, he, hk⟩)))
        · exact Or.inr (Or.inr ⟨p, ⟨hp, hpR⟩, hlt, e, he, hk⟩)
    · rintro ((hk | hk | hk | ⟨p, hp, hlt, e, he, hk⟩) | hk | ⟨p, hp, hlt, e, he, hk⟩)
      · exact Or.inl hk
      · exact Or.inr (Or.inl hk)
      · exact Or.inr (Or.inr (Or.inl (hD hk)))
      · exact Or.inr (Or.inr (Or.inr ⟨p, hR hp, hlt, e, he, hk⟩))
      · exact Or.inr (Or.inr (Or.inl hk))
      · exact Or.inr (Or.inr (Or.inr ⟨p, hp.1, hlt, e, he, hk⟩))
  refine ⟨h.cr3, h.cr0, h.paged, h.total, h.counted, h.dir, h.fresh,
    fun p hlt hp => h.leaf p hlt fun hpR => hp (hR hpR), fun k => ?_, fun a ha => h.mem a ?_⟩
  · rw [hsplit, hsplit, h.mine, hrest]
  · intro hm
    exact ha ((hsplit s _).mpr (Or.inl hm))

/-- A frame of somebody else stays one. -/
theorem not_mine (h : Confined R D s t) {k : Nat} (hk : ¬s.Mine R D k) :
    k ∉ t.pmm.frames ∧ ¬t.IsTable k := by
  have hk' : ¬t.Mine R D k := fun hm => hk ((h.mine k).mp hm)
  obtain ⟨hfree, htab, _⟩ := Machine.not_mine.mp hk'
  exact ⟨hfree, htab⟩

end Confined

/-! ## Steps that leave the tables alone -/

theorem confined_report (hs : s.Paged) (o : Oops) : Confined R D s (report s o) :=
  ⟨rfl, rfl, SameTables.paged (s := s) (t := report s o) ⟨rfl, fun _ _ => rfl⟩ hs hs.tablesUsed,
    rfl, id, fun _ _ _ => rfl, fresh_of_dir fun _ _ => rfl, fun _ _ _ => rfl, fun _ => Iff.rfl,
    fun _ _ => rfl⟩

/-- Stores to frames that are `Mine` and no tables. -/
theorem confined_mem (hs : s.Paged) {m : ByteMem}
    (h : ∀ a, ¬(s.Mine R D (a / 4096) ∧ ¬s.IsTable (a / 4096)) → m a = s.mem a) :
    Confined R D s { s with mem := m } := by
  have hsame : SameTables s { s with mem := m } := ⟨rfl, fun a ha => h a fun hn => hn.2 ha⟩
  have hleaf : ∀ p, p < 1023 * 1024 → ({ s with mem := m } : Machine).leaf p = s.leaf p :=
    fun p hp => hsame.leaf hs (by omega)
  refine ⟨rfl, rfl, hsame.paged hs hs.tablesUsed, rfl, id, fun i hi _ => hsame.dirWord hs hi,
    fresh_of_dir fun i hi => hsame.dirWord hs hi, fun p hlt _ => hleaf p hlt, fun k => ?_,
    fun a ha => h a fun hn => ha hn.1⟩
  unfold Mine
  rw [hsame.isTable_iff hs, behind_congr fun p hlt _ => hleaf p hlt]

/-! ## One entry -/

section Entry

variable {addr e : U32}

/-- A new entry for a page of `R`: it keeps the frame, or the frame is one of `D`. -/
theorem confined_setEntry (hs : s.Paged) (haddr : addr < TABLE_WINDOW)
    (hleaf : s.leaf (addr.toNat / 4096) = some e) (hR : addr.toNat / 4096 ∈ R) {x : U32}
    (hkeep : present x = true → frameNo x = frameNo e)
    (hgone : present x = false → frameNo e ∈ D) :
    Confined R D s (s.setEntry (dirIndex addr) (tableIndex addr) x) := by
  have hi := dirIndex_lt_of_lt haddr
  have hj := tableIndex_lt addr
  have hp := (entry_of_leaf_some hleaf).1
  have hpage := addr_page_lt haddr
  have hl : ∀ p, p < 1023 * 1024 →
      (s.setEntry (dirIndex addr) (tableIndex addr) x).leaf p
        = if p = addr.toNat / 4096 then (if present x = true then some x else none)
          else s.leaf p := by
    intro p hlt
    rw [leaf_setEntry x hs hi hp hj (by omega), page_eq_index]
  refine ⟨rfl, rfl, hs.setEntry x hi hp hj, rfl, id,
    fun i hi' _ => dirWord_setEntry x hs hi hp hj hi',
    fresh_of_dir fun i hi' => dirWord_setEntry x hs hi hp hj hi',
    fun p hlt hpR => ?_, fun k => ?_, fun a ha => ?_⟩
  · have hne : p ≠ addr.toNat / 4096 := fun h => hpR (h ▸ hR)
    rw [hl p hlt, if_neg hne]
  · constructor
    · rintro (hk | hk | hk | ⟨p, hpR, hlt, e', he', hk⟩)
      · exact Or.inl hk
      · exact Or.inr (Or.inl ((isTable_setEntry x hs hi hp hj).mp hk))
      · exact Or.inr (Or.inr (Or.inl hk))
      · rw [hl p hlt] at he'
        split at he'
        · rename_i hpe
          split at he'
          · rename_i hx
            cases he'
            exact Or.inr (Or.inr (Or.inr ⟨_, hR, hpage, e, hleaf, by rw [← hkeep hx]; exact hk⟩))
          · cases he'
        · exact Or.inr (Or.inr (Or.inr ⟨p, hpR, hlt, e', he', hk⟩))
    · rintro (hk | hk | hk | ⟨p, hpR, hlt, e', he', hk⟩)
      · exact Or.inl hk
      · exact Or.inr (Or.inl ((isTable_setEntry x hs hi hp hj).mpr hk))
      · exact Or.inr (Or.inr (Or.inl hk))
      · by_cases hpe : p = addr.toNat / 4096
        · rw [hpe, hleaf] at he'
          cases he'
          cases hx : present x with
          | true =>
            refine Or.inr (Or.inr (Or.inr ⟨_, hR, hpage, x, ?_, by rw [hkeep hx]; exact hk⟩))
            rw [hl _ hpage, if_pos rfl, if_pos hx]
          | false => exact Or.inr (Or.inr (Or.inl (hk ▸ hgone hx)))
        · refine Or.inr (Or.inr (Or.inr ⟨p, hpR, hlt, e', ?_, hk⟩))
          rw [hl p hlt, if_neg hpe]
          exact he'
  · refine mem_setEntry_other x (fun h => ha (Or.inr (Or.inl ?_))) hj
    rw [h]
    exact isTable_dir (by omega) hp

/-- `unmap_page` with `free_frame` on its answer: the frame goes from behind the page to the free
ones. -/
theorem confined_unmap_free (hs : s.Paged) (haddr : addr < TABLE_WINDOW)
    (hleaf : s.leaf (addr.toNat / 4096) = some e) (hR : addr.toNat / 4096 ∈ R)
    (htab : ¬s.IsTable (frameNo e)) :
    Confined R D s
      { s.setEntry (dirIndex addr) (tableIndex addr) 0 with
        pmm := s.pmm.freeFrame (e &&& FRAME) } := by
  have hframes : (s.pmm.freeFrame (e &&& FRAME)).frames = insert (frameNo e) s.pmm.frames := by
    rw [Pmm.frames_freeFrame, toNat_and_frame]
    congr 1
    omega
  -- with the frame set aside the entry alone is confined
  have h := confined_setEntry (R := R) (D := insert (frameNo e) D) hs haddr hleaf hR (x := 0)
    (fun h => absurd h (by decide)) fun _ => Set.mem_insert _ _
  have hmine : s.Behind R (frameNo e) := ⟨_, hR, addr_page_lt haddr, e, hleaf, rfl⟩
  refine ⟨rfl, rfl, h.paged.congr rfl (fun _ _ => rfl) fun k hk hm => ?_, Pmm.total_setFree _ _,
    fun hc => Pmm.Counted.setFree hc _, h.dir, h.fresh, h.leaf, fun k => ?_,
    fun a ha => h.mem a fun hm => ?_⟩
  · rw [hframes, Finset.mem_insert] at hm
    rcases hm with rfl | hm
    · exact htab ((isTable_setEntry 0 hs (dirIndex_lt_of_lt haddr) (entry_of_leaf_some hleaf).1
        (tableIndex_lt addr)).mp hk)
    · exact h.paged.tablesUsed k hk hm
  · by_cases hk : k = frameNo e
    · refine ⟨fun _ => Or.inr (Or.inr (Or.inr (hk ▸ hmine))), fun _ => Or.inl ?_⟩
      rw [hframes, Finset.mem_insert]
      exact Or.inl hk
    · have hiff := h.mine k
      unfold Mine at hiff ⊢
      rw [Set.mem_insert_iff, or_iff_right hk] at hiff
      rw [hframes, Finset.mem_insert, or_iff_right hk, isTable_withPmm, behind_withPmm]
      exact hiff
  · rcases hm with hm | hm | hm | hm
    · exact ha (Or.inl hm)
    · exact ha (Or.inr (Or.inl hm))
    · rcases Set.mem_insert_iff.mp hm with hm | hm
      · exact ha (Or.inr (Or.inr (Or.inr (hm ▸ hmine))))
      · exact ha (Or.inr (Or.inr (Or.inl hm)))
    · exact ha (Or.inr (Or.inr (Or.inr hm)))

end Entry

end

end Machine

namespace Paging

open Machine

variable {R D : Set Nat} {s t : Machine} {addr frame flags : U32}

theorem Untouched.eq (h : Untouched s t) : t = { s with oops := t.oops } := by
  obtain ⟨hmem, hpmm, hcr3, hcr0⟩ := h
  cases s
  cases t
  simp_all

theorem Untouched.confined (h : Untouched s t) (hs : s.Paged) : Confined R D s t := by
  have hmem : ({ s with oops := t.oops } : Machine).Paged :=
    hs.congr rfl (fun _ _ => rfl) hs.tablesUsed
  rw [h.eq]
  exact ⟨rfl, rfl, hmem, rfl, id, fun _ _ _ => rfl, fresh_of_dir fun _ _ => rfl,
    fun _ _ _ => rfl, fun _ => Iff.rfl, fun _ _ => rfl⟩

/-! ## `map_page` -/

/-- A frame that is a table afterwards was one, or it was free. -/
theorem MapPage.isTable (h : MapPage s addr frame flags true t) (hs : s.Paged)
    (haddr : addr < TABLE_WINDOW) {k : Nat} :
    t.IsTable k ↔ s.IsTable k ∨ k ∈ s.pmm.frames ∧ k ∉ t.pmm.frames := by
  cases h with
  | done _ _ ht =>
    rw [isTable_setEntry _ (ht.paged hs) (dirIndex_lt_of_lt haddr) (ht.present_dir hs)
      (tableIndex_lt addr)]
    exact ht.isTable hs

theorem MapPage.frames_subset (h : MapPage s addr frame flags true t) :
    t.pmm.frames ⊆ s.pmm.frames := by
  cases h with
  | done _ _ ht => exact ht.frames_subset

/-- Only tables and free frames are written. -/
theorem MapPage.mem (h : MapPage s addr frame flags true t) (hs : s.Paged) {a : Nat}
    (htab : ¬s.IsTable (a / 4096)) (hfree : a / 4096 ∉ s.pmm.frames) : t.mem a = s.mem a := by
  cases h with
  | done _ _ ht =>
    rename_i u
    have hne : a / 4096 ≠ frameNo (u.dirWord (dirIndex addr)) := by
      intro heq
      have hut : u.IsTable (a / 4096) := by
        rw [heq]
        exact isTable_dir (dirIndex_lt addr) (ht.present_dir hs)
      rcases (ht.isTable hs).mp hut with h | h
      · exact htab h
      · exact hfree h.1
    rw [mem_setEntry_other _ hne (tableIndex_lt addr), ht.mem hs htab hfree]

theorem MapPage.leaf_was (h : MapPage s addr frame flags true t) :
    s.leaf (addr.toNat / 4096) = none := by
  cases h with
  | done _ hleaf _ => exact hleaf

/-- The mapped frame joins the frames of the operation. -/
theorem MapPage.mine (h : MapPage s addr frame flags true t) (hs : s.Paged)
    (haddr : addr < TABLE_WINDOW) (hflags : flags.toNat < 4096) (hR : addr.toNat / 4096 ∈ R)
    {k : Nat} : t.Mine R D k ↔ s.Mine R D k ∨ k = frameNo frame := by
  have hpage := addr_page_lt haddr
  have hleaf : ∀ {p}, p < 1023 * 1024 → t.leaf p
      = if p = addr.toNat / 4096 then some (entryFor frame flags) else s.leaf p := fun hlt =>
    h.leaf_done hs haddr hlt
  constructor
  · rintro (hk | hk | hk | ⟨p, hp, hlt, e, he, hk⟩)
    · exact Or.inl (Or.inl (h.frames_subset hk))
    · rcases (h.isTable hs haddr).mp hk with hk | hk
      · exact Or.inl (Or.inr (Or.inl hk))
      · exact Or.inl (Or.inl hk.1)
    · exact Or.inl (Or.inr (Or.inr (Or.inl hk)))
    · rw [hleaf hlt] at he
      split at he
      · cases he
        exact Or.inr (by rw [← hk, frameNo_entry _ hflags])
      · exact Or.inl (Or.inr (Or.inr (Or.inr ⟨p, hp, hlt, e, he, hk⟩)))
  · rintro ((hk | hk | hk | ⟨p, hp, hlt, e, he, hk⟩) | hk)
    · by_cases hkt : k ∈ t.pmm.frames
      · exact Or.inl hkt
      · exact Or.inr (Or.inl ((h.isTable hs haddr).mpr (Or.inr ⟨hk, hkt⟩)))
    · exact Or.inr (Or.inl ((h.isTable hs haddr).mpr (Or.inl hk)))
    · exact Or.inr (Or.inr (Or.inl hk))
    · refine Or.inr (Or.inr (Or.inr ⟨p, hp, hlt, e, ?_, hk⟩))
      rw [hleaf hlt, if_neg]
      · exact he
      · intro hpe
        rw [hpe, h.leaf_was] at he
        cases he
    · refine Or.inr (Or.inr (Or.inr ⟨_, hR, hpage, _, by rw [hleaf hpage, if_pos rfl], ?_⟩))
      rw [frameNo_entry _ hflags, hk]

/-- A step that maps a page of `R` to a frame of `D` is confined. -/
theorem MapPage.confined (h : MapPage s addr frame flags true t) (hs : s.Paged)
    (haddr : addr < TABLE_WINDOW) (hflags : flags.toNat < 4096) (hR : addr.toNat / 4096 ∈ R)
    (hD : frameNo frame ∈ D) : Confined R D s t := by
  refine ⟨?_, ?_, h.paged hs haddr, ?_, fun hc => ?_, fun i hi hp => ?_,
    fun i hi habs hp => ?_, fun p hlt hp => ?_, fun k => ?_, fun a ha => ?_⟩
  · cases h with
    | done _ _ ht => exact ht.cr3
  · cases h with
    | done _ _ ht => exact ht.cr0
  · cases h with
    | done _ _ ht => exact ht.total
  · cases h with
    | done _ _ ht => exact ht.counted hc
  · cases h with
    | done _ _ ht =>
      rw [dirWord_setEntry _ (ht.paged hs) (dirIndex_lt_of_lt haddr) (ht.present_dir hs)
        (tableIndex_lt addr) hi]
      exact ht.dirWord hs hi hp
  · cases h with
    | done _ _ ht =>
      rw [dirWord_setEntry _ (ht.paged hs) (dirIndex_lt_of_lt haddr) (ht.present_dir hs)
        (tableIndex_lt addr) hi] at hp ⊢
      exact ht.fresh_user hs hi habs hp
  · have hne : p ≠ addr.toNat / 4096 := fun heq => hp (heq ▸ hR)
    rw [h.leaf_done hs haddr hlt, if_neg hne]
  · rw [h.mine hs haddr hflags hR, or_iff_left_iff_imp]
    rintro rfl
    exact Or.inr (Or.inr (Or.inl hD))
  · exact h.mem hs (fun htab => ha (Or.inr (Or.inl htab))) fun hfree => ha (Or.inl hfree)

theorem mine_taking {k : Nat} (hk : k ∈ s.pmm.frames) {j : Nat} :
    (taking s k).Mine R D j ∨ j = k ↔ s.Mine R D j := by
  by_cases hjk : j = k
  · subst hjk
    exact ⟨fun _ => Or.inl hk, fun _ => Or.inr rfl⟩
  · have hfree : j ∈ (taking s k).pmm.frames ↔ j ∈ s.pmm.frames := by
      rw [frames_taking, Finset.mem_erase, and_iff_right hjk]
    unfold Mine
    rw [or_iff_left hjk, hfree]
    exact Iff.rfl

/-- A step that maps a page of `R` to a free frame is confined. -/
theorem MapPage.confined_taken {k : Nat} (hk : k ∈ s.pmm.frames)
    (h : MapPage (taking s k) addr (Pmm.addressOf k) flags true t) (hs : s.Paged)
    (haddr : addr < TABLE_WINDOW) (hflags : flags.toNat < 4096) (hR : addr.toNat / 4096 ∈ R) :
    Confined R D s t := by
  have hpaged := paged_taking hs k
  -- with the frame set aside the mapping is confined from the machine that took it
  have hconf : Confined R (insert k D) (taking s k) t :=
    h.confined hpaged haddr hflags hR (by rw [frameNo_addressOf hk]; exact Set.mem_insert _ _)
  refine ⟨hconf.cr3, hconf.cr0, hconf.paged, ?_, fun hc => hconf.counted (hc.setUsed k), hconf.dir,
    hconf.fresh, hconf.leaf, fun j => ?_, fun a ha => ?_⟩
  · rw [hconf.total]
    exact Pmm.total_setUsed _ _
  · rw [h.mine hpaged haddr hflags hR, frameNo_addressOf hk, mine_taking hk]
  · refine h.mem hpaged (fun htab => ha (Or.inr (Or.inl htab))) fun hfree => ha (Or.inl ?_)
    rw [frames_taking] at hfree
    exact Finset.mem_of_mem_erase hfree

end Paging

end Kfs
