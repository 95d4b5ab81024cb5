import Kfs.Heap.Laws

/-!
# A heap with at most one block in use

Such a heap has one run of free blocks, so the answer of an allocation depends on the break alone.
`Alloc.first` is the first allocation of a heap that nobody uses, and `Alloc.second` is one behind a
single block at the base.  `Inv.offered_grown` says when the pages for the second are to be had.
-/

namespace Kfs.Heap

open Lib Mem Paging Machine Blocks

variable {h h' : Heap} {s t : Machine} {bs bs' : List Block} {want p : U32} {need : Nat}

theorem usedAt_split {m : Block} (hal : need % 8 = 0) (hlarge : 8 ≤ need)
    (hfit : need + 16 ≤ m.size) (a : Nat) :
    Blocks.usedAt a (split m need hal hlarge) = [(a, need)] := by
  rw [split, dif_pos hfit]
  rfl

/-- A search in a single free block that has room to spare. -/
theorem Search.one {base : Nat} {m : Block} (hs : Search base need bs bs' p)
    (hbs : Blocks.merged bs = [m]) (hm : m.used = false) (hfit : need + 16 ≤ m.size) :
    p.toNat = base + 8 ∧ Blocks.usedAt base bs' = [(base, need)] := by
  cases hs with
  | none hal hlarge hplace =>
    rw [hbs, place, if_pos ⟨hm, by omega⟩] at hplace
    cases hplace
  | some hal hlarge hplace hp =>
    rw [hbs, place, if_pos ⟨hm, by omega⟩] at hplace
    injection hplace with hpair
    injection hpair with ho hms
    rw [List.append_nil] at hms
    refine ⟨by omega, ?_⟩
    rw [← usedAt_merged, ← hms]
    exact usedAt_split hal hlarge hfit base

/-- A search that passes over a block in use. -/
theorem Search.behind {base : Nat} {b m : Block} (hs : Search base need bs bs' p)
    (hbs : Blocks.merged bs = [b, m]) (hb : b.used = true) (hm : m.used = false)
    (hfit : need ≤ m.size) : p ≠ 0 := by
  cases hs with
  | none hal hlarge hplace =>
    rw [hbs, place_skip hal hlarge (by rw [hb]; simp), place, if_pos ⟨hm, hfit⟩] at hplace
    cases hplace
  | some _ _ _ hp =>
    intro hz
    rw [hz] at hp
    exact absurd hp (Nat.succ_ne_zero _).symm

/-- The heap between its base and its break, if no block is in use. -/
theorem Inv.unused (hi : Inv h s bs) (hu : Blocks.usedAt h.base.toNat bs = []) :
    bs = [] ∧ h.brk = h.base ∨
      ∃ m, merged bs = [m] ∧ m.used = false ∧ m.size + 8 = h.brk.toNat - h.base.toNat := by
  have hspan := hi.span
  rcases separate_free (separate_merged bs) (by rw [usedAt_merged]; exact hu) with
    hnil | ⟨m, hm, hf⟩
  · have hzero : bs = [] := by
      by_contra hne
      exact merged_ne_nil hne hnil
    refine Or.inl ⟨hzero, BitVec.eq_of_toNat_eq ?_⟩
    rw [hzero, span_nil] at hspan
    omega
  · have := span_merged bs
    rw [hm, span_cons, span_nil] at this
    exact Or.inr ⟨m, hm, hf, by omega⟩

/-- An allocation takes the pages that it asks for at most. -/
theorem Alloc.brk_le (ha : Alloc h s bs want p h' t bs') :
    h'.brk.toNat ≤ h.brk.toNat + 4096 * (pagesFor want).toNat := by
  cases ha with
  | grew _ _ _ _ htop hm =>
    dsimp only
    omega
  | _ => exact Nat.le_add_right _ _

/-- The first allocation, of less than a page: the heap has or gets a page for it. -/
theorem Alloc.first (hr : Ready h s bs) (hu : Blocks.usedAt h.base.toNat bs = [])
    (ha : Alloc h s bs want p h' t bs') (hwant : want ≠ 0 ∧ ¬want > h.limit - h.base - HEADER)
    (hneed : (roundUp want).toNat + 24 ≤ 4096) :
    p = 0 ∧ h' = h ∧ h.brk = h.base ∨
      p.toNat = h.base.toNat + 8 ∧
        Blocks.usedAt h.base.toNat bs' = [(h.base.toNat, (roundUp want).toNat)] ∧
        h'.brk.toNat = max h.brk.toNat (h.base.toNat + 4096) := by
  have hi := hr.inv
  have hbase := hi.base_le
  have hbal := hi.brk_aligned
  have hal := hi.placed.base_aligned
  cases ha with
  | refused hno => exact absurd hno (not_or.mpr hwant)
  | found _ hp hsearch =>
    rcases hi.unused hu with ⟨rfl, hbrk⟩ | ⟨m, hm, hf, hsize⟩
    · cases hsearch with
      | none => exact absurd rfl hp
      | some _ _ hplace => cases hplace
    · have hm8 := m.large
      obtain ⟨hpb, hused⟩ := hsearch.one hm hf (by omega)
      exact Or.inr ⟨hpb, hused, by omega⟩
  | stuck _ hsearch =>
    rcases hi.unused hu with ⟨rfl, hbrk⟩ | ⟨m, hm, hf, hsize⟩
    · exact Or.inl ⟨rfl, rfl, hbrk⟩
    · have hm8 := m.large
      have hpb := (hsearch.one hm hf (by omega)).1
      exact absurd hpb (Nat.succ_ne_zero _).symm
  | grew hsize hsearch hal' hlarge htop hm hagain hcount he =>
    have hpages := hr.toNat_pagesFor hwant.2
    rcases hi.unused hu with ⟨rfl, hbrk⟩ | ⟨m, hmerged, hf, hsize⟩
    · rename_i bs1 k top
      obtain rfl : k = 1 := by omega
      have hbs1 : merged (extend bs1 (4096 * 1) hal' hlarge) = [room (4096 * 1) hal' hlarge] := by
        rw [merged_extend, hsearch.merged]
        rfl
      obtain ⟨hpb, hused⟩ := hagain.one hbs1 rfl (by
        show (roundUp want).toNat + 16 ≤ 4096 * 1 - 8
        omega)
      refine Or.inr ⟨hpb, hused, ?_⟩
      show top.toNat = _
      rw [htop, hbrk]
      omega
    · have hm8 := m.large
      have hpb := (hsearch.one hmerged hf (by omega)).1
      exact absurd hpb (Nat.succ_ne_zero _).symm

/-- An allocation behind one block at the base, of less than two pages, when two pages are to be
had. -/
theorem Alloc.second {n : Nat} (hr : Ready h s bs)
    (hu : Blocks.usedAt h.base.toNat bs = [(h.base.toNat, n)])
    (ha : Alloc h s bs want p h' t bs') (hwant : want ≠ 0 ∧ ¬want > h.limit - h.base - HEADER)
    (hn : n + 24 ≤ 4096) (hone : 4096 < (roundUp want).toNat + 8)
    (htwo : (roundUp want).toNat + n + 16 ≤ 8192)
    (hoff : h.brk.toNat = h.base.toNat + 4096 → h.offered s.supply 2 = 2) :
    p ≠ 0 ∧ h.brk.toNat ≤ h'.brk.toNat ∧ h'.brk.toNat ≤ max h.brk.toNat (h.base.toNat + 12288) := by
  have hi := hr.inv
  have hbase := hi.base_le
  have hspan := hi.span
  have hbal := hi.brk_aligned
  have hal := hi.placed.base_aligned
  obtain ⟨b, hb, rfl, hbs⟩ := separate_first (separate_merged bs) (by rw [usedAt_merged]; exact hu)
  have hmspan := span_merged bs
  obtain ⟨m, hmerged, hf⟩ : ∃ m, merged bs = [b, m] ∧ m.used = false := by
    refine hbs.resolve_left fun hone => ?_
    rw [hone, span_cons, span_nil] at hmspan
    omega
  rw [hmerged, span_cons, span_cons, span_nil] at hmspan
  cases ha with
  | refused hno => exact absurd hno (not_or.mpr hwant)
  | found _ hp => exact ⟨hp, Nat.le_refl _, by omega⟩
  | stuck _ hsearch _ hwhy =>
    exfalso
    have hsmall : m.size < (roundUp want).toNat := by
      by_contra hge
      exact hsearch.behind hmerged hb hf (by omega) rfl
    have hpages := hr.toNat_pagesFor hwant.2
    have hzero := hwhy hr.isOpen
    rw [show (pagesFor want).toNat = 2 from by omega, hoff (by omega)] at hzero
    cases hzero
  | grew hsize hsearch hal' hlarge htop hm hagain hcount he =>
    rename_i bs1 k top
    have hsmall : m.size < (roundUp want).toNat := by
      by_contra hge
      exact hsearch.behind hmerged hb hf (by omega) rfl
    have hpages := hr.toNat_pagesFor hwant.2
    have hk := (hcount hr.isOpen).1
    rw [show (pagesFor want).toNat = 2 from by omega, hoff (by omega)] at hk
    subst hk
    have hbs1 : merged (extend bs1 (4096 * 2) hal' hlarge) = [b, grown m (4096 * 2) hal'] := by
      rw [merged_extend, hsearch.merged, hmerged]
      exact extend_snoc_free hal' hlarge [b] hf
    refine ⟨hagain.behind hbs1 hb hf ?_, ?_, ?_⟩
    · show (roundUp want).toNat ≤ m.size + 4096 * 2
      omega
    · show h.brk.toNat ≤ top.toNat
      omega
    · show top.toNat ≤ _
      omega

/-! ## A heap that has grown -/

/-- Pages of a heap with a block cost nothing once there are tables for them. -/
theorem grants_tabled (hb : h.backing = .contiguous) (n : Nat) : ∀ (q : Nat) (r : Supply),
    (∀ k, q ≤ k → k < q + n → k / 1024 ∈ r.slots ∧ 4096 * k + 4096 ≤ h.limit.toNat ∧
      h.physBase.toNat + (4096 * k - h.base.toNat) + 4096 ≤ h.physEnd.toNat) →
    h.grants n q r = n := by
  induction n with
  | zero => exact fun _ _ _ => rfl
  | succ n ih =>
    intro q r hall
    obtain ⟨hslot, hlimit, hblock⟩ := hall q (Nat.le_refl q) (by omega)
    have hfree : h.Affords r q := by
      refine ⟨hlimit, fun _ => hblock, ?_⟩
      rw [cost, if_neg (by rw [hb]; decide), if_pos hslot]
      exact Nat.zero_le _
    rw [grants_go hfree, ih (q + 1) (h.pay r q) fun k h1 h2 => ?_]
    obtain ⟨hk, hrest⟩ := hall k (by omega) (by omega)
    exact ⟨Finset.mem_insert_of_mem hk, hrest⟩

/-- A heap with a block that has its first page gets all the pages that are left in the block and
have the table of the first one. -/
theorem Inv.offered_grown (hi : Inv h s bs) (hb : h.backing = .contiguous)
    (hgrown : h.base.toNat < h.brk.toNat) {n : Nat}
    (hlimit : h.brk.toNat + 4096 * n ≤ h.limit.toNat)
    (hblock : h.physBase.toNat + (h.brk.toNat - h.base.toNat) + 4096 * n ≤ h.physEnd.toNat)
    (htable : ∀ k, h.brk.toNat ≤ 4096 * k → 4096 * k < h.brk.toNat + 4096 * n →
      k / 1024 = h.base.toNat / 4096 / 1024) :
    h.offered s.supply n = n := by
  have hal := hi.brk_aligned
  have hbase := hi.placed.base_aligned
  obtain ⟨e, hleaf, _⟩ := hi.owned.mapped (h.base.toNat / 4096) (Nat.le_refl _) (by omega)
  have hslot : h.base.toNat / 4096 / 1024 ∈ s.supply.slots := by
    have hlt := hi.owned.hi_le
    exact mem_slots.mpr ⟨by omega, (present_of_leaf hleaf).1⟩
  refine grants_tabled hb n _ _ fun k h1 h2 => ⟨?_, by omega, by omega⟩
  rw [htable k (by omega) (by omega)]
  exact hslot

end Kfs.Heap
