import Kfs.Paging.Tables

/-!
# The runs of the page-table functions

An access through the recursive window is an access to the table it names, so under `Paged` no
function faults.  `getPage_run` says what `get_page` does, and the runs of the other functions
follow from it.

`TableFor s addr t` is what a successful `get_page(addr, true)` leaves: the table was there, or
the lowest free frame became an empty one.  `map_page` then writes one entry of that table.
-/

namespace Kfs.Paging

open Lib Mem Machine

variable {s : Machine}

/-! ## The window -/

/-- Table `d` seen through the window.  To read it, entry 1023 need not be writable. -/
theorem leaf_of_self (hself : frameNo (s.dirWord 1023) = frameNo s.cr3)
    (hpres : present (s.dirWord 1023) = true) {d : Nat} (hd : d < 1024)
    (hp : present (s.dirWord d) = true) : s.leaf (1023 * 1024 + d) = some (s.dirWord d) := by
  have hdiv : (1023 * 1024 + d) / 1024 = 1023 := by omega
  have hmod : (1023 * 1024 + d) % 1024 = d := by omega
  have htab : s.tabWord 1023 d = s.dirWord d := by
    rw [tabWord, hself]
    rfl
  have hleaf := leaf_eq_some (s := s) (p := 1023 * 1024 + d)
    (by rw [hdiv]; exact hpres) (by rw [hdiv, hmod, htab]; exact hp)
  rw [hleaf, hdiv, hmod, htab]

theorem leaf_window (hs : s.SelfMapped) {d : Nat} (hd : d < 1024)
    (hp : present (s.dirWord d) = true) : s.leaf (1023 * 1024 + d) = some (s.dirWord d) :=
  leaf_of_self hs.self hs.selfPresent hd hp

/-- Ring 0 may write a table through the window. -/
theorem mayWrite_window (hs : s.SelfMapped) {d : Nat} (hd : d < 1024)
    (hw : writable (s.dirWord d) = true) : s.MayWrite (1023 * 1024 + d) (s.dirWord d) := by
  have hdiv : (1023 * 1024 + d) / 1024 = 1023 := by omega
  refine ⟨?_, hw⟩
  rw [hdiv]
  exact hs.selfWritable

private theorem directory_page {i : Nat} (hi : i < 1024) :
    (ptrAdd DIRECTORY i).toNat % 4 = 0 ∧
      (ptrAdd DIRECTORY i).toNat / 4096 = 1023 * 1024 + 1023 ∧
      (ptrAdd DIRECTORY i).toNat % 4096 = 4 * i := by
  rw [toNat_ptrAdd_directory hi]
  omega

private theorem table_page {d j : Nat} (hd : d < 1024) (hj : j < 1024) :
    (ptrAdd (table d) j).toNat % 4 = 0 ∧
      (ptrAdd (table d) j).toNat / 4096 = 1023 * 1024 + d ∧
      (ptrAdd (table d) j).toNat % 4096 = 4 * j := by
  rw [toNat_ptrAdd_table hd hj]
  omega

theorem load32_directory_of_self (hself : frameNo (s.dirWord 1023) = frameNo s.cr3)
    (hpres : present (s.dirWord 1023) = true) {i : Nat} (hi : i < 1024) :
    (load32 (ptrAdd DIRECTORY i)).run s = .ok (s.dirWord i, s) := by
  obtain ⟨hal, hpage, hoff⟩ := directory_page hi
  rw [load32_of_leaf (e := s.dirWord 1023) hal
    (by rw [hpage]; exact leaf_of_self hself hpres (by decide) hpres), hoff, hself]
  rfl

theorem load32_directory (hs : s.SelfMapped) {i : Nat} (hi : i < 1024) :
    (load32 (ptrAdd DIRECTORY i)).run s = .ok (s.dirWord i, s) :=
  load32_directory_of_self hs.self hs.selfPresent hi

theorem store32_directory (hs : s.SelfMapped) {i : Nat} (hi : i < 1024) (x : U32) :
    (store32 (ptrAdd DIRECTORY i) x).run s
      = .ok ((), { s with mem := s.mem.write32 (4096 * frameNo s.cr3 + 4 * i) x }) := by
  obtain ⟨hal, hpage, hoff⟩ := directory_page hi
  rw [store32_of_leaf (e := s.dirWord 1023) x hal
    (by rw [hpage]; exact leaf_window hs (by decide) hs.selfPresent)
    (by rw [hpage]; exact mayWrite_window hs (by decide) hs.selfWritable), hoff, hs.self]

theorem load32_table_of_self (hself : frameNo (s.dirWord 1023) = frameNo s.cr3)
    (hpres : present (s.dirWord 1023) = true) {d j : Nat} (hd : d < 1024) (hj : j < 1024)
    (hp : present (s.dirWord d) = true) :
    (load32 (ptrAdd (table d) j)).run s = .ok (s.tabWord d j, s) := by
  obtain ⟨hal, hpage, hoff⟩ := table_page hd hj
  rw [load32_of_leaf (e := s.dirWord d) hal
    (by rw [hpage]; exact leaf_of_self hself hpres hd hp), hoff]
  rfl

theorem load32_entry (hs : s.Paged) {addr : U32}
    (hp : present (s.dirWord (dirIndex addr)) = true) :
    (load32 (entryPtr addr)).run s
      = .ok (s.tabWord (dirIndex addr) (tableIndex addr), s) :=
  load32_table_of_self hs.self hs.selfPresent (dirIndex_lt addr) (tableIndex_lt addr) hp

theorem store32_entry (hs : s.Paged) {addr : U32}
    (hp : present (s.dirWord (dirIndex addr)) = true) (x : U32) :
    (store32 (entryPtr addr) x).run s
      = .ok ((), s.setEntry (dirIndex addr) (tableIndex addr) x) := by
  obtain ⟨hal, hpage, hoff⟩ := table_page (dirIndex_lt addr) (tableIndex_lt addr)
  have hw := mayWrite_window hs.selfMapped (dirIndex_lt addr)
    (hs.dirWritable _ (dirIndex_lt addr) hp)
  rw [entryPtr, store32_of_leaf (e := s.dirWord (dirIndex addr)) x hal
    (by rw [hpage]; exact leaf_window hs.selfMapped (dirIndex_lt addr) hp)
    (by rw [hpage]; exact hw), hoff]
  rfl

/-! ## Filling a page -/

/-- The loop that writes every word of a page through its own mapping.  The frame is on no step
of the walk that reaches it, so the walk stays the same while the words are written. -/
theorem fillPage_run {page e : U32} (f : Nat → U32) (hpage : page.toNat % 4096 = 0)
    (hleaf : s.leaf (page.toNat / 4096) = some e) (hw : s.MayWrite (page.toNat / 4096) e)
    (hdir : frameNo e ≠ frameNo s.cr3)
    (htab : frameNo e ≠ frameNo (s.dirWord (page.toNat / 4096 / 1024))) :
    (Prog.forRange (fun i => store32 (ptrAdd page i) (f i)) 0 1024).run s
      = .ok ((), { s with mem := s.mem.fill32 (4096 * frameNo e) f 1024 }) := by
  have hlt := page.isLt
  -- after `i` passes the first `i` words of the frame are written
  have hstep : ∀ i t, 0 ≤ i → i < 0 + 1024 →
      t = { s with mem := s.mem.fill32 (4096 * frameNo e) f i } →
      ∃ t', (store32 (ptrAdd page i) (f i)).run t = .ok ((), t') ∧
        t' = { s with mem := s.mem.fill32 (4096 * frameNo e) f (i + 1) } := by
    intro i t _ hi ht
    have hcr3 : t.cr3 = s.cr3 := by rw [ht]
    have hmem : ∀ a, a / 4096 ≠ frameNo e → t.mem a = s.mem a := by
      intro a ha
      rw [ht]
      exact ByteMem.fill32_other _ _ (by omega)
    have hptr : (ptrAdd page i).toNat = page.toNat + 4 * i := by
      rw [ptrAdd, BitVec.toNat_add, BitVec.toNat_ofNat]
      omega
    have hdiv : (ptrAdd page i).toNat / 4096 = page.toNat / 4096 := by
      rw [hptr]
      omega
    have hmod : (ptrAdd page i).toNat % 4096 = 4 * i := by
      rw [hptr]
      omega
    have hdw : t.dirWord (page.toNat / 4096 / 1024) = s.dirWord (page.toNat / 4096 / 1024) :=
      dirWord_congr hcr3 (fun a ha => hmem a (by rw [ha]; exact hdir.symm)) (by omega)
    have htw : t.leaf (page.toNat / 4096) = some e := by
      rw [leaf_congr hdw fun _ => tabWord_congr hdw (by omega) fun a ha =>
        hmem a (by rw [ha]; exact htab.symm)]
      exact hleaf
    refine ⟨_, store32_of_leaf (e := e) _ (by rw [hptr]; omega) (by rw [hdiv]; exact htw)
      (by rw [hdiv]; exact ⟨by rw [hdw]; exact hw.1, hw.2⟩), ?_⟩
    rw [hmod, ht]
    dsimp only
    rw [ByteMem.write32_fill32]
  obtain ⟨t, hrun, ht⟩ := Prog.forRange_inv 1024 0 s hstep (by rw [ByteMem.fill32_zero])
  rw [hrun, ht, Nat.zero_add]

/-- The machine with frame `k` set to zero. -/
def zeroFrame (s : Machine) (k : Nat) : Machine :=
  { s with mem := s.mem.zeros (4096 * k) 4096 }

theorem zeroPage_run (page : U32) {e : U32} (hpage : page.toNat % 4096 = 0)
    (hleaf : s.leaf (page.toNat / 4096) = some e) (hw : s.MayWrite (page.toNat / 4096) e)
    (hdir : frameNo e ≠ frameNo s.cr3)
    (htab : frameNo e ≠ frameNo (s.dirWord (page.toNat / 4096 / 1024))) :
    (Prog.forRange (fun i => store32 (ptrAdd page i) 0) 0 1024).run s
      = .ok ((), zeroFrame s (frameNo e)) := by
  have hloop : Prog.forRange (fun i => store32 (ptrAdd page i) 0) 0 1024
      = Prog.forRange (fun i => store32 (ptrAdd page i) ((fun _ => (0 : U32)) i)) 0 1024 := rfl
  rw [hloop, fillPage_run _ hpage hleaf hw hdir htab, ByteMem.fill32_eq_zeros, zeroFrame]

/-! ## `get_page` -/

/-- What a successful `get_page(addr, true)` leaves. -/
inductive TableFor (s : Machine) (addr : U32) : Machine → Prop where
  | here (hp : present (s.dirWord (dirIndex addr)) = true) : TableFor s addr s
  | fresh (k : Nat) (hp : present (s.dirWord (dirIndex addr)) = false) (hk : k ∈ s.pmm.frames)
      (hmin : ∀ j, j < k → j ∉ s.pmm.frames) :
      TableFor s addr
        (s.installTable (dirIndex addr) k (Pmm.addressOf k ||| tableFlags addr))

theorem run_allocFrame_none (h : s.pmm.frames = ∅) : allocFrame.run s = .ok (none, s) := by
  rcases Pmm.allocFrame_spec s.pmm with ⟨_, hrun⟩ | ⟨k, hk, _⟩
  · simp [allocFrame, hrun]
  · rw [h] at hk
    exact absurd hk (Finset.notMem_empty k)

theorem run_allocFrame_some {k : Nat} (hk : k ∈ s.pmm.frames)
    (hmin : ∀ j, j < k → j ∉ s.pmm.frames) :
    allocFrame.run s = .ok (some (Pmm.addressOf k), { s with pmm := s.pmm.setUsed k }) := by
  rcases Pmm.allocFrame_spec s.pmm with ⟨hempty, _⟩ | ⟨l, hl, hlmin, hrun⟩
  · rw [hempty] at hk
    exact absurd hk (Finset.notMem_empty k)
  · have hkl : l = k := by
      rcases Nat.lt_trichotomy l k with h | h | h
      · exact absurd hl (hmin l h)
      · exact h
      · exact absurd hk (hlmin k h)
    rw [hkl] at hrun
    simp [allocFrame, hrun]

/-- The lowest free frame, when there is one. -/
theorem frames_cases (p : Pmm) :
    p.frames = ∅ ∨ ∃ k, k ∈ p.frames ∧ ∀ j, j < k → j ∉ p.frames := by
  rcases Pmm.allocFrame_spec p with ⟨h, _⟩ | ⟨k, hk, hmin, _⟩
  · exact Or.inl h
  · exact Or.inr ⟨k, hk, hmin⟩

theorem run_getPage_here (hs : s.Paged) {addr : U32} (create : Bool)
    (hp : present (s.dirWord (dirIndex addr)) = true) :
    (getPage addr create).run s = .ok (some (entryPtr addr), s) := by
  have hbit : ¬(s.dirWord (dirIndex addr) &&& PRESENT = 0) := fun h => by
    rw [and_present_eq_zero, hp] at h
    cases h
  rw [getPage, directoryEntry, Prog.bind_ok (load32_directory hs.selfMapped (dirIndex_lt addr)),
    if_neg hbit, Prog.run_pure]

theorem run_getPage_absent (hs : s.Paged) {addr : U32}
    (hp : present (s.dirWord (dirIndex addr)) = false) :
    (getPage addr false).run s = .ok (none, s) := by
  rw [getPage, directoryEntry, Prog.bind_ok (load32_directory hs.selfMapped (dirIndex_lt addr)),
    if_pos ((and_present_eq_zero _).mpr hp), if_pos rfl, Prog.run_pure]

theorem run_getPage_noFrame (hs : s.Paged) {addr : U32}
    (hp : present (s.dirWord (dirIndex addr)) = false) (hempty : s.pmm.frames = ∅) :
    (getPage addr true).run s = .ok (none, s) := by
  rw [getPage, directoryEntry, Prog.bind_ok (load32_directory hs.selfMapped (dirIndex_lt addr)),
    if_pos ((and_present_eq_zero _).mpr hp), if_neg (by decide),
    Prog.bind_ok (run_allocFrame_none hempty), Prog.run_pure]

theorem run_getPage_fresh (hs : s.Paged) {addr : U32} {k : Nat}
    (hp : present (s.dirWord (dirIndex addr)) = false) (hk : k ∈ s.pmm.frames)
    (hmin : ∀ j, j < k → j ∉ s.pmm.frames) :
    (getPage addr true).run s = .ok (some (entryPtr addr),
      s.installTable (dirIndex addr) k (Pmm.addressOf k ||| tableFlags addr)) := by
  obtain ⟨hxk, hxp, hxw⟩ := tableEntry_bits (Pmm.toNat_addressOf (Pmm.lt_of_mem_frames hk)) addr
  have hd := dirIndex_lt addr
  have hne : dirIndex addr ≠ 1023 := fun h => by
    rw [h, hs.selfPresent] at hp
    cases hp
  have hkcr3 : k ≠ frameNo s.cr3 := fun h => hs.not_isTable hk (h ▸ hs.isTable_cr3)
  -- the machine after the frame was taken and after the directory entry was written
  have h1 : Paged { s with pmm := s.pmm.setUsed k } := by
    refine SameTables.paged (s := s) ⟨rfl, fun _ _ => rfl⟩ hs fun l hl hm => ?_
    rw [Pmm.frames_setUsed, Finset.mem_erase] at hm
    exact hs.tablesUsed l hl hm.2
  let t : Machine :=
    { s with
      pmm := s.pmm.setUsed k
      mem := s.mem.write32 (4096 * frameNo s.cr3 + 4 * dirIndex addr)
        (Pmm.addressOf k ||| tableFlags addr) }
  have htdir : ∀ {j}, j < 1024 → t.dirWord j
      = if j = dirIndex addr then Pmm.addressOf k ||| tableFlags addr else s.dirWord j := by
    intro j hj
    show (s.mem.write32 _ _).read32 _ = _
    split
    · rename_i hji
      rw [hji]
      exact ByteMem.read32_write32_same _ _ _
    · rename_i hji
      refine ByteMem.read32_write32_other _ _ ?_
      have hcr3 : t.cr3 = s.cr3 := rfl
      rw [hcr3]
      omega
  have htself : t.dirWord 1023 = s.dirWord 1023 := by
    rw [htdir (by decide), if_neg (fun h => hne h.symm)]
  have htab : t.dirWord (dirIndex addr) = Pmm.addressOf k ||| tableFlags addr := by
    rw [htdir hd, if_pos rfl]
  have hdiv : (1023 * 1024 + dirIndex addr) / 1024 = 1023 := by omega
  have hmod : (1023 * 1024 + dirIndex addr) % 1024 = dirIndex addr := by omega
  have htword : t.tabWord 1023 (dirIndex addr) = Pmm.addressOf k ||| tableFlags addr := by
    rw [tabWord, htself, hs.self]
    exact htab
  have htleaf : t.leaf (1023 * 1024 + dirIndex addr)
      = some (Pmm.addressOf k ||| tableFlags addr) := by
    rw [leaf_eq_some (s := t) (by rw [hdiv, htself]; exact hs.selfPresent)
      (by rw [hdiv, hmod, htword]; exact hxp), hdiv, hmod, htword]
  have htable : (table (dirIndex addr)).toNat = 0xFFC00000 + 4096 * dirIndex addr := by
    have h := toNat_ptrAdd_table hd (j := 0) (by decide)
    simpa [ptrAdd] using h
  have htpage : (table (dirIndex addr)).toNat / 4096 = 1023 * 1024 + dirIndex addr := by
    rw [htable]
    omega
  have hzero := zeroPage_run (s := t) (table (dirIndex addr))
    (e := Pmm.addressOf k ||| tableFlags addr) (by rw [htable]; omega)
    (by rw [htpage]; exact htleaf)
    (by
      rw [htpage]
      refine ⟨?_, hxw⟩
      rw [hdiv, htself]
      exact hs.dirWritable 1023 (by decide) hs.selfPresent)
    (by rw [hxk]; exact hkcr3)
    (by rw [htpage, hdiv, htself, hxk, hs.self]; exact hkcr3)
  rw [getPage, directoryEntry, Prog.bind_ok (load32_directory hs.selfMapped hd),
    if_pos ((and_present_eq_zero _).mpr hp), if_neg (by decide),
    Prog.bind_ok (run_allocFrame_some hk hmin)]
  dsimp only
  rw [Prog.bind_ok (store32_directory h1.selfMapped hd _), Prog.bind_ok hzero, Prog.run_pure, hxk]
  rfl

/-- The three outcomes of `get_page(addr, true)`. -/
theorem getPage_run (hs : s.Paged) (addr : U32) :
    (∃ t, TableFor s addr t ∧ (getPage addr true).run s = .ok (some (entryPtr addr), t)) ∨
      present (s.dirWord (dirIndex addr)) = false ∧ s.pmm.frames = ∅ ∧
        (getPage addr true).run s = .ok (none, s) := by
  by_cases hp : present (s.dirWord (dirIndex addr)) = true
  · exact Or.inl ⟨s, .here hp, run_getPage_here hs true hp⟩
  · have hp : present (s.dirWord (dirIndex addr)) = false := by simpa using hp
    rcases frames_cases s.pmm with hempty | ⟨k, hk, hmin⟩
    · exact Or.inr ⟨hp, hempty, run_getPage_noFrame hs hp hempty⟩
    · exact Or.inl ⟨_, .fresh k hp hk hmin, run_getPage_fresh hs hp hk hmin⟩

/-! ## What a table for an address leaves alone -/

namespace TableFor

variable {t : Machine} {addr : U32}

theorem cr3 (h : TableFor s addr t) : t.cr3 = s.cr3 := by cases h <;> rfl

theorem cr0 (h : TableFor s addr t) : t.cr0 = s.cr0 := by cases h <;> rfl

theorem oops (h : TableFor s addr t) : t.oops = s.oops := by cases h <;> rfl

theorem total (h : TableFor s addr t) : t.pmm.total = s.pmm.total := by
  cases h with
  | here => rfl
  | fresh k => exact Pmm.total_setUsed _ _

theorem counted (h : TableFor s addr t) (hc : s.pmm.Counted) : t.pmm.Counted := by
  cases h with
  | here => exact hc
  | fresh k => exact hc.setUsed k

theorem slot_lt (hs : s.Paged) (hp : present (s.dirWord (dirIndex addr)) = false) :
    dirIndex addr < 1023 := by
  have hne : dirIndex addr ≠ 1023 := fun h => by
    rw [h, hs.selfPresent] at hp
    cases hp
  have := dirIndex_lt addr
  omega

theorem paged (h : TableFor s addr t) (hs : s.Paged) : t.Paged := by
  cases h with
  | here => exact hs
  | fresh k hp hk _ =>
    obtain ⟨hxk, hxp, hxw⟩ :=
      tableEntry_bits (Pmm.toNat_addressOf (Pmm.lt_of_mem_frames hk)) addr
    exact hs.installTable (slot_lt hs hp) hp hk hxk hxp hxw

/-- The table is there. -/
theorem present_dir (h : TableFor s addr t) (hs : s.Paged) :
    present (t.dirWord (dirIndex addr)) = true := by
  cases h with
  | here hp => exact hp
  | fresh k hp hk _ =>
    rw [dirWord_installTable hs hk (dirIndex_lt addr), if_pos rfl]
    exact (tableEntry_bits (Pmm.toNat_addressOf (Pmm.lt_of_mem_frames hk)) addr).2.1

/-- A present entry of the directory stays. -/
theorem dirWord (h : TableFor s addr t) (hs : s.Paged) {i : Nat} (hi : i < 1024)
    (hp : present (s.dirWord i) = true) : t.dirWord i = s.dirWord i := by
  cases h with
  | here => rfl
  | fresh k habs hk _ =>
    rw [dirWord_installTable hs hk hi, if_neg]
    intro h
    rw [h, habs] at hp
    cases hp

/-- A table that was not there is open to ring 3 exactly in the slots of user space. -/
theorem fresh_user (h : TableFor s addr t) (hs : s.Paged) {i : Nat} (hi : i < 1024)
    (habs : present (s.dirWord i) = false) (hp : present (t.dirWord i) = true) :
    user (t.dirWord i) = decide (1 ≤ i ∧ i < 768) := by
  cases h with
  | here =>
    rw [habs] at hp
    cases hp
  | fresh k _ hk _ =>
    rw [dirWord_installTable hs hk hi] at hp ⊢
    split
    · rename_i heq
      rw [user_or_tableFlags (Pmm.toNat_addressOf (Pmm.lt_of_mem_frames hk)), heq]
    · rename_i hne
      rw [if_neg hne, habs] at hp
      cases hp

/-- No page below the window changes. -/
theorem leaf (h : TableFor s addr t) (hs : s.Paged) {p : Nat} (hlt : p < 1023 * 1024) :
    t.leaf p = s.leaf p := by
  cases h with
  | here => rfl
  | fresh k hp hk _ =>
    exact leaf_installTable hs (slot_lt hs hp) hp hk
      (tableEntry_bits (Pmm.toNat_addressOf (Pmm.lt_of_mem_frames hk)) addr).1 hlt

/-- The frame of a new table comes out of the free frames, and every other frame stays what it
was. -/
theorem isTable (h : TableFor s addr t) (hs : s.Paged) {k : Nat} :
    t.IsTable k ↔ s.IsTable k ∨ k ∈ s.pmm.frames ∧ k ∉ t.pmm.frames := by
  cases h with
  | here =>
    refine ⟨Or.inl, ?_⟩
    rintro (h | ⟨h, hn⟩)
    · exact h
    · exact absurd h hn
  | fresh l hp hl _ =>
    obtain ⟨hxk, hxp, _⟩ :=
      tableEntry_bits (Pmm.toNat_addressOf (Pmm.lt_of_mem_frames hl)) addr
    have hfree : k ∈ (s.pmm.setUsed l).frames ↔ k ≠ l ∧ k ∈ s.pmm.frames := by
      rw [Pmm.frames_setUsed, Finset.mem_erase]
    rw [isTable_installTable hs (dirIndex_lt addr) hp hl hxk hxp]
    show _ ↔ _ ∨ _ ∧ k ∉ (s.pmm.setUsed l).frames
    rw [hfree]
    constructor
    · rintro (rfl | h)
      · exact Or.inr ⟨hl, fun h => h.1 rfl⟩
      · exact Or.inl h
    · rintro (h | ⟨h, hn⟩)
      · exact Or.inr h
      · exact Or.inl (by_contra fun hkl => hn ⟨hkl, h⟩)

theorem frames_subset (h : TableFor s addr t) : t.pmm.frames ⊆ s.pmm.frames := by
  cases h with
  | here => exact Finset.Subset.refl _
  | fresh k =>
    show (s.pmm.setUsed k).frames ⊆ _
    rw [Pmm.frames_setUsed]
    exact Finset.erase_subset _ _

/-- Only tables and free frames are written. -/
theorem mem (h : TableFor s addr t) (hs : s.Paged) {a : Nat} (htab : ¬s.IsTable (a / 4096))
    (hfree : a / 4096 ∉ s.pmm.frames) : t.mem a = s.mem a := by
  cases h with
  | here => rfl
  | fresh k _ hk _ =>
    refine mem_installTable_other (dirIndex_lt addr) (fun h => htab ?_) fun h => hfree ?_
    · rw [h]
      exact hs.isTable_cr3
    · rw [h]
      exact hk

end TableFor

/-! ## One entry -/

theorem leaf_page (s : Machine) (addr : U32) :
    s.leaf (addr.toNat / 4096)
      = if present (s.dirWord (dirIndex addr)) = true then
          if present (s.tabWord (dirIndex addr) (tableIndex addr)) = true then
            some (s.tabWord (dirIndex addr) (tableIndex addr))
          else none
        else none := by
  rw [dirIndex_eq, tableIndex_eq]
  rfl

/-- An unmapped page has no table, or an empty entry in it. -/
theorem entry_of_leaf_none {addr : U32} (h : s.leaf (addr.toNat / 4096) = none) :
    present (s.dirWord (dirIndex addr)) = false ∨
      present (s.dirWord (dirIndex addr)) = true ∧
        present (s.tabWord (dirIndex addr) (tableIndex addr)) = false := by
  rw [leaf_page] at h
  cases hd : present (s.dirWord (dirIndex addr)) <;>
    cases ht : present (s.tabWord (dirIndex addr) (tableIndex addr)) <;> simp_all

theorem entry_of_leaf_some {addr e : U32} (h : s.leaf (addr.toNat / 4096) = some e) :
    present (s.dirWord (dirIndex addr)) = true ∧
      s.tabWord (dirIndex addr) (tableIndex addr) = e ∧ present e = true := by
  rw [dirIndex_eq, tableIndex_eq]
  exact present_of_leaf h

/-- The page of an address, from the indices of its entry. -/
theorem page_eq_index (addr : U32) :
    1024 * dirIndex addr + tableIndex addr = addr.toNat / 4096 := by
  rw [dirIndex_eq, tableIndex_eq]
  omega

theorem run_entryOf (hs : s.Paged) (addr : U32) :
    (entryOf addr).run s = .ok (s.leaf (addr.toNat / 4096), s) := by
  cases hleaf : s.leaf (addr.toNat / 4096) with
  | none =>
    rcases entry_of_leaf_none hleaf with hp | ⟨hp, htab⟩
    · rw [entryOf, Prog.bind_ok (run_getPage_absent hs hp), Prog.run_pure]
    · rw [entryOf, Prog.bind_ok (run_getPage_here hs false hp)]
      dsimp only
      rw [Prog.bind_ok (load32_entry hs hp), if_pos ((and_present_eq_zero _).mpr htab),
        Prog.run_pure]
  | some e =>
    obtain ⟨hp, htab, he⟩ := entry_of_leaf_some hleaf
    have hbit : ¬(e &&& PRESENT = 0) := by
      rw [and_present_eq_zero, he]
      decide
    rw [entryOf, Prog.bind_ok (run_getPage_here hs false hp)]
    dsimp only
    rw [Prog.bind_ok (load32_entry hs hp), htab, if_neg hbit, Prog.run_pure]

theorem toNat_translate (e addr : U32) :
    ((e &&& FRAME) ||| offset addr).toNat = 4096 * frameNo e + addr.toNat % 4096 := by
  rw [Word.toNat_or_of_aligned (k := 12) (by rw [toNat_and_frame]; omega)
    (by rw [toNat_offset]; omega), toNat_and_frame, toNat_offset]

theorem run_translate (hs : s.Paged) (addr : U32) :
    (translate addr).run s
      = .ok ((s.leaf (addr.toNat / 4096)).map fun e => (e &&& FRAME) ||| offset addr, s) := by
  rw [translate, Prog.bind_ok (run_entryOf hs addr)]
  cases s.leaf (addr.toNat / 4096) <;> rfl

theorem run_unmapPage_none (hs : s.Paged) {addr : U32}
    (hleaf : s.leaf (addr.toNat / 4096) = none) : (unmapPage addr).run s = .ok (none, s) := by
  rcases entry_of_leaf_none hleaf with hp | ⟨hp, htab⟩
  · rw [unmapPage, Prog.bind_ok (run_getPage_absent hs hp), Prog.run_pure]
  · rw [unmapPage, Prog.bind_ok (run_getPage_here hs false hp)]
    dsimp only
    rw [Prog.bind_ok (load32_entry hs hp), if_pos ((and_present_eq_zero _).mpr htab),
      Prog.run_pure]

theorem run_unmapPage_some (hs : s.Paged) {addr e : U32}
    (hleaf : s.leaf (addr.toNat / 4096) = some e) :
    (unmapPage addr).run s
      = .ok (some (e &&& FRAME), s.setEntry (dirIndex addr) (tableIndex addr) 0) := by
  obtain ⟨hp, htab, he⟩ := entry_of_leaf_some hleaf
  have hbit : ¬(e &&& PRESENT = 0) := by
    rw [and_present_eq_zero, he]
    decide
  rw [unmapPage, Prog.bind_ok (run_getPage_here hs false hp)]
  dsimp only
  rw [Prog.bind_ok (load32_entry hs hp), htab, if_neg hbit, Prog.bind_ok (store32_entry hs hp 0),
    Prog.run_pure]

theorem run_protect_none (hs : s.Paged) {addr : U32} (flags : U32)
    (hleaf : s.leaf (addr.toNat / 4096) = none) :
    (protect addr flags).run s = .ok (false, s) := by
  rcases entry_of_leaf_none hleaf with hp | ⟨hp, htab⟩
  · rw [protect, Prog.bind_ok (run_getPage_absent hs hp), Prog.run_pure]
  · rw [protect, Prog.bind_ok (run_getPage_here hs false hp)]
    dsimp only
    rw [Prog.bind_ok (load32_entry hs hp), if_pos ((and_present_eq_zero _).mpr htab),
      Prog.run_pure]

theorem run_protect_some (hs : s.Paged) {addr e : U32} (flags : U32)
    (hleaf : s.leaf (addr.toNat / 4096) = some e) :
    (protect addr flags).run s
      = .ok (true, s.setEntry (dirIndex addr) (tableIndex addr) (entryFor e flags)) := by
  obtain ⟨hp, htab, he⟩ := entry_of_leaf_some hleaf
  have hbit : ¬(e &&& PRESENT = 0) := by
    rw [and_present_eq_zero, he]
    decide
  rw [protect, Prog.bind_ok (run_getPage_here hs false hp)]
  dsimp only
  rw [Prog.bind_ok (load32_entry hs hp), htab, if_neg hbit, Prog.bind_ok (store32_entry hs hp _),
    Prog.run_pure]

/-! ## `map_page` -/

/-- Memory, the allocator and the control registers are what they were. -/
def Untouched (s t : Machine) : Prop :=
  t.mem = s.mem ∧ t.pmm = s.pmm ∧ t.cr3 = s.cr3 ∧ t.cr0 = s.cr0

theorem Untouched.refl (s : Machine) : Untouched s s := ⟨rfl, rfl, rfl, rfl⟩

/-- The machine after a report. -/
def report (s : Machine) (o : Oops) : Machine := { s with oops := o :: s.oops }

theorem run_koops (s : Machine) (o : Oops) : (koops o).run s = .ok ((), report s o) := rfl

theorem untouched_report (s : Machine) (o : Oops) : Untouched s (report s o) := .refl s

/-- A user mapping of a kernel address. -/
abbrev UserInKernel (addr flags : U32) : Prop := flags &&& USER ≠ 0 ∧ isKernel addr = true

/-- The four outcomes of `map_page`. -/
inductive MapPage (s : Machine) (addr frame flags : U32) : Bool → Machine → Prop where
  | user (hu : UserInKernel addr flags) :
      MapPage s addr frame flags false (report s (.kernelSpace addr))
  | noTable (hu : ¬UserInKernel addr flags)
      (hp : present (s.dirWord (dirIndex addr)) = false) (hempty : s.pmm.frames = ∅) :
      MapPage s addr frame flags false (report s (.noTableFrame addr))
  | mapped (hu : ¬UserInKernel addr flags) {e : U32}
      (hleaf : s.leaf (addr.toNat / 4096) = some e) :
      MapPage s addr frame flags false (report s (.mappedAlready addr))
  | done (hu : ¬UserInKernel addr flags) (hleaf : s.leaf (addr.toNat / 4096) = none) {t : Machine}
      (ht : TableFor s addr t) :
      MapPage s addr frame flags true
        (t.setEntry (dirIndex addr) (tableIndex addr) (entryFor frame flags))

/-- A `map_page` that refused leaves everything but the list of reports. -/
theorem MapPage.eq_report {addr frame flags : U32} {t : Machine}
    (h : MapPage s addr frame flags false t) : ∃ o, t = report s o := by
  cases h <;> exact ⟨_, rfl⟩

/-- A table that was there holds what the walk sees; a fresh one is empty. -/
theorem TableFor.tabWord_absent {t : Machine} {addr : U32} (h : TableFor s addr t) (hs : s.Paged)
    (hleaf : s.leaf (addr.toNat / 4096) = none) :
    present (t.tabWord (dirIndex addr) (tableIndex addr)) = false := by
  have hp := h.present_dir hs
  cases h with
  | here _ =>
    rcases entry_of_leaf_none hleaf with h | ⟨_, h⟩
    · rw [hp] at h
      cases h
    · exact h
  | fresh k habs hk _ =>
    rw [tabWord_installTable hs (TableFor.slot_lt hs habs) hk
      (tableEntry_bits (Pmm.toNat_addressOf (Pmm.lt_of_mem_frames hk)) addr).1
      (TableFor.slot_lt hs habs) (tableIndex_lt addr) hp, if_pos rfl]
    decide

theorem mapPage_run (hs : s.Paged) (addr frame flags : U32) :
    ∃ b t, (mapPage addr frame flags).run s = .ok (b, t) ∧ MapPage s addr frame flags b t := by
  by_cases hu : UserInKernel addr flags
  · exact ⟨false, _, by rw [mapPage, if_pos hu, Prog.bind_ok (run_koops s _), Prog.run_pure],
      .user hu⟩
  · rcases getPage_run hs addr with ⟨t, ht, hget⟩ | ⟨hp, hempty, hget⟩
    · have hp := ht.present_dir hs
      have hload := load32_entry (ht.paged hs) hp
      cases hleaf : s.leaf (addr.toNat / 4096) with
      | none =>
        have htab := ht.tabWord_absent hs hleaf
        refine ⟨true, _, ?_, .done hu hleaf ht⟩
        rw [mapPage, if_neg hu, Prog.bind_ok hget]
        dsimp only
        rw [Prog.bind_ok hload, if_neg (not_not.mpr ((and_present_eq_zero _).mpr htab)),
          Prog.bind_ok (store32_entry (ht.paged hs) hp _), Prog.run_pure]
      | some e =>
        obtain ⟨hps, htab, he⟩ := entry_of_leaf_some hleaf
        have hts : t = s := by
          cases ht with
          | here => rfl
          | fresh _ habs =>
            rw [hps] at habs
            cases habs
        subst hts
        have hbit : e &&& PRESENT ≠ 0 := by
          rw [ne_eq, and_present_eq_zero, he]
          decide
        refine ⟨false, _, ?_, .mapped hu hleaf⟩
        rw [mapPage, if_neg hu, Prog.bind_ok hget]
        dsimp only
        rw [Prog.bind_ok hload, htab, if_pos hbit, Prog.bind_ok (run_koops t _), Prog.run_pure]
    · refine ⟨false, _, ?_, .noTable hu hp hempty⟩
      rw [mapPage, if_neg hu, Prog.bind_ok hget]
      dsimp only
      rw [Prog.bind_ok (run_koops s _), Prog.run_pure]

/-! ## `map_new` -/

/-- The machine after frame `k` was taken. -/
def taking (s : Machine) (k : Nat) : Machine := { s with pmm := s.pmm.setUsed k }

theorem sameTables_taking (s : Machine) (k : Nat) : SameTables s (taking s k) :=
  ⟨rfl, fun _ _ => rfl⟩

theorem frames_taking (s : Machine) (k : Nat) : (taking s k).pmm.frames = s.pmm.frames.erase k :=
  Pmm.frames_setUsed _ _

theorem paged_taking (hs : s.Paged) (k : Nat) : (taking s k).Paged := by
  refine (sameTables_taking s k).paged hs fun l hl hm => ?_
  rw [frames_taking, Finset.mem_erase] at hm
  exact hs.tablesUsed l hl hm.2

/-- The outcomes of `map_new`. -/
inductive MapNew (s : Machine) (addr flags : U32) : Option U32 → Machine → Prop where
  | noFrame (hempty : s.pmm.frames = ∅) : MapNew s addr flags none s
  | refused {k : Nat} (hk : k ∈ s.pmm.frames) (hmin : ∀ j, j < k → j ∉ s.pmm.frames)
      {t : Machine}
      (hmap : MapPage (taking s k) addr (Pmm.addressOf k) (flags ||| WRITABLE) false t) :
      MapNew s addr flags none { t with pmm := t.pmm.freeFrame (Pmm.addressOf k) }
  | done {k : Nat} (hk : k ∈ s.pmm.frames) (hmin : ∀ j, j < k → j ∉ s.pmm.frames) {t : Machine}
      (hmap : MapPage (taking s k) addr (Pmm.addressOf k) (flags ||| WRITABLE) true t)
      (hw : writable flags = true) :
      MapNew s addr flags (some (Pmm.addressOf k)) (zeroFrame t k)
  | readOnly {k : Nat} (hk : k ∈ s.pmm.frames) (hmin : ∀ j, j < k → j ∉ s.pmm.frames)
      {t : Machine}
      (hmap : MapPage (taking s k) addr (Pmm.addressOf k) (flags ||| WRITABLE) true t)
      (hw : writable flags = false) :
      MapNew s addr flags (some (Pmm.addressOf k))
        ((zeroFrame t k).setEntry (dirIndex addr) (tableIndex addr)
          (entryFor (entryFor (Pmm.addressOf k) (flags ||| WRITABLE)) flags))

theorem toNat_pageOf_div (addr : U32) : (pageOf addr).toNat / 4096 = addr.toNat / 4096 := by
  rw [toNat_pageOf]
  omega

section Mapped

variable {addr frame flags : U32} {t : Machine}

/-- After a successful `map_page` the page has the entry that was written, and no other page
below the window changed. -/
theorem MapPage.leaf_done (h : MapPage s addr frame flags true t) (hs : s.Paged)
    (haddr : addr < TABLE_WINDOW) {p : Nat} (hlt : p < 1023 * 1024) :
    t.leaf p = if p = addr.toNat / 4096 then some (entryFor frame flags) else s.leaf p := by
  cases h with
  | done _ _ ht =>
    rw [leaf_setEntry _ (ht.paged hs) (dirIndex_lt_of_lt haddr) (ht.present_dir hs)
      (tableIndex_lt addr) (by omega), page_eq_index, if_pos (present_entry frame flags),
      ht.leaf hs hlt]

theorem MapPage.paged (h : MapPage s addr frame flags true t) (hs : s.Paged)
    (haddr : addr < TABLE_WINDOW) : t.Paged := by
  cases h with
  | done _ _ ht =>
    exact (ht.paged hs).setEntry _ (dirIndex_lt_of_lt haddr) (ht.present_dir hs)
      (tableIndex_lt addr)

/-- Where there was no table, the lowest free frame holds one now. -/
theorem MapPage.fresh (h : MapPage s addr frame flags true t) (hs : s.Paged)
    (haddr : addr < TABLE_WINDOW) (habs : present (s.dirWord (dirIndex addr)) = false) {k : Nat}
    (hk : k ∈ s.pmm.frames) (hmin : ∀ j, j < k → j ∉ s.pmm.frames) :
    t.pmm = s.pmm.setUsed k ∧
      t.dirWord (dirIndex addr) = Pmm.addressOf k ||| tableFlags addr ∧
      ∀ i, i < 1024 → i ≠ dirIndex addr → t.dirWord i = s.dirWord i := by
  have hi := dirIndex_lt_of_lt haddr
  have hj := tableIndex_lt addr
  cases h with
  | done _ _ ht =>
    have hd := ht.present_dir hs
    have htp := ht.paged hs
    cases ht with
    | here hp =>
      rw [habs] at hp
      cases hp
    | fresh l hp hl hlmin =>
      obtain rfl : l = k := by
        rcases Nat.lt_trichotomy l k with h1 | h1 | h1
        · exact absurd hl (hmin l h1)
        · exact h1
        · exact absurd hk (hlmin k h1)
      refine ⟨rfl, ?_, fun i hi' hne => ?_⟩
      · rw [dirWord_setEntry _ htp hi hd hj (by omega), dirWord_installTable hs hl (by omega),
          if_pos rfl]
      · rw [dirWord_setEntry _ htp hi hd hj hi', dirWord_installTable hs hl hi', if_neg hne]

/-- The page's slot of the directory holds a table now, and no other slot changed. -/
theorem MapPage.slots (h : MapPage s addr frame flags true t) (hs : s.Paged)
    (haddr : addr < TABLE_WINDOW) : t.slots = insert (dirIndex addr) s.slots := by
  have hi := dirIndex_lt_of_lt haddr
  cases h with
  | done _ _ ht =>
    have hd := ht.present_dir hs
    ext d
    rw [Finset.mem_insert, mem_slots, mem_slots]
    by_cases hlt : d < 1024
    · rw [dirWord_setEntry _ (ht.paged hs) hi hd (tableIndex_lt addr) hlt]
      cases ht with
      | here hp =>
        simp only [hlt, true_and]
        exact ⟨Or.inr, fun h => h.elim (fun h => h ▸ hp) id⟩
      | fresh k habs hk =>
        by_cases hdi : d = dirIndex addr
        · simp only [hdi, hd, and_true, true_or, iff_true]
          omega
        · rw [dirWord_installTable hs hk hlt, if_neg hdi]
          simp only [hdi, false_or]
    · simp only [hlt, false_and, or_false, false_iff]
      omega

/-- A mapping takes a frame for the table where there was none. -/
theorem MapPage.card_frames (h : MapPage s addr frame flags true t) :
    t.pmm.frames.card + (if dirIndex addr ∈ s.slots then 0 else 1) = s.pmm.frames.card := by
  cases h with
  | done _ _ ht =>
    cases ht with
    | here hp =>
      rw [if_pos (mem_slots.mpr ⟨dirIndex_lt addr, hp⟩), Nat.add_zero, setEntry]
    | fresh k habs hk =>
      rw [if_neg fun hm => by rw [(mem_slots.mp hm).2] at habs; cases habs]
      show (s.pmm.setUsed k).frames.card + 1 = _
      rw [Pmm.frames_setUsed, Finset.card_erase_add_one hk]

/-- A refusal that is not about the rights and not about a mapped page is for want of a frame. -/
theorem MapPage.no_table (h : MapPage s addr frame flags false t) (hflags : flags &&& USER = 0)
    (hleaf : s.leaf (addr.toNat / 4096) = none) :
    dirIndex addr ∉ s.slots ∧ s.pmm.frames = ∅ := by
  cases h with
  | user hu => exact absurd hflags hu.1
  | noTable _ hp hempty =>
    refine ⟨fun hm => ?_, hempty⟩
    rw [(mem_slots.mp hm).2] at hp
    cases hp
  | mapped _ he =>
    rw [he] at hleaf
    cases hleaf

/-- A frame that is neither a table nor free does not become a table. -/
theorem MapPage.not_isTable (h : MapPage s addr frame flags true t) (hs : s.Paged)
    (haddr : addr < TABLE_WINDOW) {k : Nat} (htab : ¬s.IsTable k) (hfree : k ∉ s.pmm.frames) :
    ¬t.IsTable k := by
  cases h with
  | done _ _ ht =>
    rw [isTable_setEntry _ (ht.paged hs) (dirIndex_lt_of_lt haddr) (ht.present_dir hs)
      (tableIndex_lt addr), ht.isTable hs]
    rintro (h | h)
    · exact htab h
    · exact hfree h.1

end Mapped

theorem addr_page_lt {addr : U32} (haddr : addr < TABLE_WINDOW) :
    addr.toNat / 4096 < 1023 * 1024 := by
  bv_omega

theorem writable_or_writable (flags : U32) : writable (flags ||| WRITABLE) = true := by
  have h : WRITABLE.getLsbD 1 = true := by decide
  rw [writable, BitVec.getLsbD_or, h, Bool.or_true]

theorem frameNo_addressOf {k : Nat} (hk : k ∈ s.pmm.frames) : frameNo (Pmm.addressOf k) = k := by
  rw [frameNo, Pmm.toNat_addressOf (Pmm.lt_of_mem_frames hk)]
  omega

/-- A frame that was taken and goes back. -/
theorem freeFrame_taken {k : Nat} (hk : k ∈ s.pmm.frames) :
    (s.pmm.setUsed k).freeFrame (Pmm.addressOf k) = s.pmm := by
  rw [Pmm.freeFrame, Pmm.frameOf_eq,
    show (Pmm.addressOf k).toNat / 4096 = k from frameNo_addressOf hk, Pmm.setFree_setUsed hk]

/-- The frame that `map_new` took did not become a table. -/
theorem MapPage.not_isTable_taken (hs : s.Paged) {addr frame flags : U32}
    (haddr : addr < TABLE_WINDOW) {k : Nat} (hk : k ∈ s.pmm.frames) {t : Machine}
    (hmap : MapPage (taking s k) addr frame flags true t) : ¬t.IsTable k := by
  refine hmap.not_isTable (paged_taking hs k) haddr (fun h => ?_) (fun h => ?_)
  · exact hs.not_isTable hk (((sameTables_taking s k).isTable_iff hs).mp h)
  · rw [frames_taking] at h
    exact Finset.notMem_erase _ _ h

/-- The frame that `map_new` took is not on the walk to its page. -/
theorem run_zero_new (hs : s.Paged) {addr flags : U32} (haddr : addr < TABLE_WINDOW)
    (hflags : flags.toNat < 4096) {k : Nat} (hk : k ∈ s.pmm.frames) {t : Machine}
    (hmap : MapPage (taking s k) addr (Pmm.addressOf k) (flags ||| WRITABLE) true t) :
    (Prog.forRange (fun i => store32 (ptrAdd (pageOf addr) i) 0) 0 1024).run t
      = .ok ((), zeroFrame t k) := by
  have hpaged := paged_taking hs k
  have ht := hmap.paged hpaged haddr
  have hlow : (flags ||| WRITABLE).toNat < 4096 :=
    Word.toNat_or_lt (k := 12) hflags (by decide)
  have hframe : frameNo (entryFor (Pmm.addressOf k) (flags ||| WRITABLE)) = k := by
    rw [frameNo_entry _ hlow, frameNo_addressOf hk]
  have hpage := toNat_pageOf_div addr
  have hleaf : t.leaf ((pageOf addr).toNat / 4096)
      = some (entryFor (Pmm.addressOf k) (flags ||| WRITABLE)) := by
    rw [hpage, hmap.leaf_done hpaged haddr (addr_page_lt haddr), if_pos rfl]
  have hdirp := (present_of_leaf hleaf).1
  have hdlt : (pageOf addr).toNat / 4096 / 1024 < 1024 := by
    have := addr_page_lt haddr
    rw [hpage]
    omega
  have hnot := hmap.not_isTable_taken hs haddr hk
  have hzero := zeroPage_run (pageOf addr) (by rw [toNat_pageOf]; omega) hleaf
    ⟨ht.dirWritable _ hdlt hdirp, by rw [writable_entry]; exact writable_or_writable flags⟩
    (fun h => hnot (by rw [← hframe, h]; exact ht.isTable_cr3))
    (fun h => hnot (by rw [← hframe, h]; exact isTable_dir hdlt hdirp))
  rw [hzero, hframe]

/-- Zeroing a frame that is no table leaves the tables as they are. -/
theorem sameTables_zeroFrame {k : Nat} (hk : ¬s.IsTable k) : SameTables s (zeroFrame s k) :=
  ⟨rfl, fun a ha => ByteMem.zeros_other _ (by
    have : a / 4096 ≠ k := fun h => hk (h ▸ ha)
    omega)⟩

theorem mapNew_run (hs : s.Paged) (addr flags : U32) (haddr : addr < TABLE_WINDOW)
    (hflags : flags.toNat < 4096) :
    ∃ r t, (mapNew addr flags).run s = .ok (r, t) ∧ MapNew s addr flags r t := by
  rcases frames_cases s.pmm with hempty | ⟨k, hk, hmin⟩
  · refine ⟨none, s, ?_, .noFrame hempty⟩
    rw [mapNew, Prog.bind_ok (run_allocFrame_none hempty), Prog.run_pure]
  · have hpaged := paged_taking hs k
    have halloc : allocFrame.run s = .ok (some (Pmm.addressOf k), taking s k) :=
      run_allocFrame_some hk hmin
    obtain ⟨b, t, hrun, hmap⟩ :=
      mapPage_run hpaged addr (Pmm.addressOf k) (flags ||| WRITABLE)
    cases b with
    | false =>
      refine ⟨none, _, ?_, .refused hk hmin hmap⟩
      rw [mapNew, Prog.bind_ok halloc]
      dsimp only
      rw [Prog.bind_ok hrun]
      rfl
    | true =>
      have hzero := run_zero_new hs haddr hflags hk hmap
      by_cases hw : writable flags = true
      · refine ⟨_, _, ?_, .done hk hmin hmap hw⟩
        have hbit : ¬(flags &&& WRITABLE = 0) := by
          rw [and_writable_eq_zero, hw]
          decide
        rw [mapNew, Prog.bind_ok halloc]
        dsimp only
        rw [Prog.bind_ok hrun, if_pos rfl, Prog.bind_ok hzero, if_neg hbit, Prog.run_pure]
      · have hw : writable flags = false := by simpa using hw
        have ht := hmap.paged hpaged haddr
        have hsame := sameTables_zeroFrame (hmap.not_isTable_taken hs haddr hk)
        have hzpaged : (zeroFrame t k).Paged := hsame.paged ht fun l hl => ht.tablesUsed l hl
        have hpage := addr_page_lt haddr
        have hleaf : (zeroFrame t k).leaf (addr.toNat / 4096)
            = some (entryFor (Pmm.addressOf k) (flags ||| WRITABLE)) := by
          rw [hsame.leaf ht (by omega), hmap.leaf_done hpaged haddr hpage, if_pos rfl]
        refine ⟨_, _, ?_, .readOnly hk hmin hmap hw⟩
        rw [mapNew, Prog.bind_ok halloc]
        dsimp only
        rw [Prog.bind_ok hrun, if_pos rfl, Prog.bind_ok hzero,
          if_pos ((and_writable_eq_zero _).mpr hw),
          Prog.bind_ok (run_protect_some hzpaged flags hleaf), Prog.run_pure]

section New

variable {addr flags : U32} {t : Machine}

/-- A `map_new` that answered nothing left memory and the allocator as they were. -/
theorem MapNew.none_spec (h : MapNew s addr flags none t) : Untouched s t := by
  cases h with
  | noFrame => exact ⟨rfl, rfl, rfl, rfl⟩
  | refused hk hmin hmap =>
    rename_i k u
    cases hmap <;> exact ⟨rfl, freeFrame_taken hk, rfl, rfl⟩

/-- A `map_new` that answered a frame took it from the free ones, mapped the page to it with the
flags asked for, and zeroed it. -/
theorem MapNew.some_spec {f : U32} (h : MapNew s addr flags (some f) t) (hs : s.Paged)
    (haddr : addr < TABLE_WINDOW) (hflags : flags.toNat < 4096) :
    ∃ k, k ∈ s.pmm.frames ∧ f = Pmm.addressOf k ∧ t.Paged ∧ ¬t.IsTable k ∧
      (∀ p, p < 1023 * 1024 →
        t.leaf p = if p = addr.toNat / 4096 then some (entryFor f flags) else s.leaf p) ∧
      ∀ a, a / 4096 = k → t.mem a = 0 := by
  have hpage := addr_page_lt haddr
  have hlow : (flags ||| WRITABLE).toNat < 4096 := Word.toNat_or_lt (k := 12) hflags (by decide)
  -- after the loop: the entry is still the writable one
  have hzero : ∀ {k : Nat} {u : Machine}, k ∈ s.pmm.frames →
      MapPage (taking s k) addr (Pmm.addressOf k) (flags ||| WRITABLE) true u →
      (zeroFrame u k).Paged ∧ ¬(zeroFrame u k).IsTable k ∧
        (∀ p, p < 1023 * 1024 → (zeroFrame u k).leaf p = if p = addr.toNat / 4096 then
          some (entryFor (Pmm.addressOf k) (flags ||| WRITABLE)) else s.leaf p) ∧
        ∀ a, a / 4096 = k → (zeroFrame u k).mem a = 0 := by
    intro k u hk hmap
    have hpaged := paged_taking hs k
    have hu := hmap.paged hpaged haddr
    have hnot := hmap.not_isTable_taken hs haddr hk
    have hsame := sameTables_zeroFrame hnot
    refine ⟨hsame.paged hu hu.tablesUsed, fun h => hnot ((hsame.isTable_iff hu).mp h),
      fun p hp => ?_, fun a ha => ByteMem.zeros_inside _ (by omega)⟩
    rw [hsame.leaf hu (by omega), hmap.leaf_done hpaged haddr hp,
      (sameTables_taking s k).leaf hs (by omega)]
  cases h with
  | done hk _ hmap hw =>
    obtain ⟨hp, hn, hl, hm⟩ := hzero hk hmap
    rw [or_writable_eq hw] at hl
    exact ⟨_, hk, rfl, hp, hn, hl, hm⟩
  | readOnly hk hmin hmap hw =>
    rename_i k u
    obtain ⟨hp, hn, hl, hm⟩ := hzero hk hmap
    have hleaf : (zeroFrame u k).leaf (addr.toNat / 4096)
        = some (entryFor (Pmm.addressOf k) (flags ||| WRITABLE)) := by
      rw [hl _ hpage, if_pos rfl]
    have hdir := (entry_of_leaf_some hleaf).1
    have hi := dirIndex_lt_of_lt haddr
    have hj := tableIndex_lt addr
    rw [entryFor_entryFor _ _ hlow]
    refine ⟨k, hk, rfl, hp.setEntry _ hi hdir hj, ?_, fun p hlt => ?_, fun a ha => ?_⟩
    · rw [isTable_setEntry _ hp hi hdir hj]
      exact hn
    · rw [leaf_setEntry _ hp hi hdir hj (by omega), page_eq_index, if_pos (present_entry _ _),
        hl p hlt]
      split <;> rfl
    · rw [mem_setEntry_other _ (fun h => hn ⟨_, by omega, hdir, by rw [← h]; exact ha⟩) hj]
      exact hm a ha

end New

end Kfs.Paging
