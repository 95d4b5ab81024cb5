import Kfs.System.Code
import Kfs.System.Mappings
import Kfs.System.Zone

/-!
# The map of the address space

`LAYOUT` of `mem.rs` says for each part of the address space who owns it and what it holds, and the
`space` command prints it.  `Heaps.Inv.mapped` finds the part of a page that is mapped, and
`Named.Holds` is what the table says about an address in each part: nothing is mapped outside of
them.
-/

namespace Kfs

open Lib Mem Paging Machine

/-- What the row says about an address of it that translates to `a`. -/
def Mem.Named.Holds (r : Named) (hs : Heaps) (s : Machine) (v : U32) (a : Nat) : Prop :=
  if r.name = "low window" then a = v.toNat
  else if r.name = "kernel image" then a + 0xC0000000 = v.toNat
  else if r.name = "kernel heap" then
    v < hs.kernel.heap.brk ∧ a = hs.kernel.heap.physBase.toNat + (v.toNat - KHEAP_BASE.toNat)
  else if r.name = "vmalloc" then v < hs.virtual.heap.brk
  else if r.name = "page tables" then s.IsTable (a / 4096)
  else if r.name = "user demand" then isDemand v = true
  else v.toNat / 4096 = USER_DEMO.toNat / 4096

theorem Mem.layout_apart {r r' : Named} (hr : r ∈ LAYOUT) (hr' : r' ∈ LAYOUT) {v : U32}
    (h1 : r.base ≤ v) (h2 : v ≤ r.last) (h1' : r'.base ≤ v) (h2' : v ≤ r'.last) : r' = r := by
  have hrows : LAYOUT.Pairwise fun r r' => r.last < r'.base ∨ r'.last < r.base := by decide
  have : Std.Symm fun r r' : Named => r.last < r'.base ∨ r'.last < r.base := ⟨fun _ _ h => h.symm⟩
  by_contra hne
  rcases hrows.forall hr' hr hne with h | h
  · bv_omega
  · bv_omega

section

variable {L : Layout} {ram : Multiboot.Ram} {s s0 : Machine} {hs hs0 : Heaps}
  {window : U32 × U32} {bk bv : List Block}

/-- A page of the kernel's heap that is mapped lies below its break. -/
theorem Heaps.Inv.kernel_mapped (hi : hs.Inv s0 window s bk bv) {p : Nat} {e : U32}
    (hp : p ∈ kernelPages) (he : s.leaf p = some e) :
    p < hs.kernel.heap.brk.toNat / 4096 ∧
      frameNo e = hs.kernel.heap.physBase.toNat / 4096 + (p - 0xD0000) := by
  obtain ⟨hbase, hlimit, hbacking⟩ : hs.kernel.heap.base = KHEAP_BASE ∧
      hs.kernel.heap.limit = KHEAP_LIMIT ∧ hs.kernel.heap.backing = .contiguous := by
    rw [hi.kernel_heap]
    exact ⟨rfl, rfl, rfl⟩
  rw [mem_kernelPages] at hp
  have hbrk : p < hs.kernel.heap.brk.toNat / 4096 := by
    by_contra hge
    have hnone := hi.kernel_clear p (by omega) (by
      rw [hlimit, show KHEAP_LIMIT.toNat / 4096 = 0xD2000 from rfl]
      exact hp.2)
    rw [hnone] at he
    cases he
  have hbacks := (hi.kernel.inv.backed p e (by
    rw [hbase, show KHEAP_BASE.toNat / 4096 = 0xD0000 from rfl]
    exact hp.1) hbrk he).2 hbacking
  rw [hbase, show KHEAP_BASE.toNat / 4096 = 0xD0000 from rfl] at hbacks
  exact ⟨hbrk, hbacks⟩

theorem Heaps.Inv.virtual_mapped (hi : hs.Inv s0 window s bk bv) {p : Nat} {e : U32}
    (hp : p ∈ virtualPages) (he : s.leaf p = some e) : p < hs.virtual.heap.brk.toNat / 4096 := by
  have hlimit : hs.virtual.heap.limit = VMALLOC_LIMIT := by
    rw [hi.virtual_heap]
    rfl
  rw [mem_virtualPages] at hp
  by_contra hge
  have hnone := hi.virtual_clear p (by omega) (by
    rw [hlimit, show VMALLOC_LIMIT.toNat / 4096 = 0xF0000 from rfl]
    exact hp.2)
  rw [hnone] at he
  cases he

/-- The entries of the table window are those of the directory. -/
theorem Machine.Paged.window_table (h : s.Paged) {p : Nat} {e : U32} (hp : p < 1024 * 1024)
    (hwindow : 1023 * 1024 ≤ p) (he : s.leaf p = some e) : s.IsTable (frameNo e) := by
  obtain ⟨_, htab, hpres⟩ := present_of_leaf he
  have hself : s.tabWord 1023 (p % 1024) = s.dirWord (p % 1024) := by
    rw [tabWord, h.self]
    rfl
  rw [show p / 1024 = 1023 from by omega, hself] at htab
  exact ⟨p % 1024, by omega, by rw [htab]; exact hpres, by rw [htab]⟩

/-- The pages that the boot mapped are those of its two windows. -/
theorem Started.mapped (h0 : Started L ram hs0 s0 window) {p : Nat} {e : U32}
    (hp : p < 1023 * 1024) (he : s0.leaf p = some e) :
    p < 1024 ∧ frameNo e = p ∨ 0xC0000 ≤ p ∧ p < 0xC0400 ∧ frameNo e + 0xC0000 = p := by
  by_cases hlow : p < 1024
  · obtain ⟨e', he', hframe, _⟩ := leaf_identity h0.tables.dirLow h0.tables.low hlow
    rw [he'] at he
    cases he
    exact Or.inl ⟨hlow, hframe⟩
  by_cases himage : 0xC0000 ≤ p ∧ p < 0xC0400
  · obtain ⟨j, rfl⟩ : ∃ j, p = 0xC0000 + j := ⟨p - 0xC0000, by omega⟩
    rw [h0.tables.leaf_kernel (by omega)] at he
    cases he
    have hframe := (kernelEntry_bits L.image (j := j) (by omega)).2.1
    exact Or.inr ⟨himage.1, himage.2, by omega⟩
  · rw [h0.leaf_none (by omega) (by omega) (by omega)] at he
    cases he

/-- Where a page that is mapped lies, and what is behind it. -/
theorem Heaps.Inv.mapped (hi : hs.Inv s0 window s bk bv) (h0 : Started L ram hs0 s0 window)
    {p : Nat} {e : U32} (hp : p < 1024 * 1024) (he : s.leaf p = some e) :
    p < 1024 ∧ frameNo e = p ∨ p ∈ userPages ∨
      (0xC0000 ≤ p ∧ p < 0xC0400 ∧ frameNo e + 0xC0000 = p) ∨
      (0xD0000 ≤ p ∧ p < hs.kernel.heap.brk.toNat / 4096 ∧
        frameNo e = hs.kernel.heap.physBase.toNat / 4096 + (p - 0xD0000)) ∨
      (0xE0000 ≤ p ∧ p < hs.virtual.heap.brk.toNat / 4096) ∨
      1023 * 1024 ≤ p ∧ s.IsTable (frameNo e) := by
  by_cases hwindow : 1023 * 1024 ≤ p
  · have htable := hi.kernel.inv.paged.window_table hp hwindow he
    exact Or.inr (Or.inr (Or.inr (Or.inr (Or.inr ⟨hwindow, htable⟩))))
  by_cases hR : p ∈ kernelPages ∪ virtualPages ∪ userPages
  · rcases hR with (hk | hv) | hu
    · exact Or.inr (Or.inr (Or.inr (Or.inl ⟨(mem_kernelPages.mp hk).1, hi.kernel_mapped hk he⟩)))
    · exact Or.inr (Or.inr (Or.inr (Or.inr (Or.inl ⟨(mem_virtualPages.mp hv).1,
        hi.virtual_mapped hv he⟩))))
    · exact Or.inr (Or.inl hu)
  · -- every other page is what the boot made of it
    rw [hi.confined.leaf p (by omega) hR] at he
    rcases h0.mapped (by omega) he with hlow | himage
    · exact Or.inl hlow
    · exact Or.inr (Or.inr (Or.inl himage))

/-- The row has the address. -/
structure Mem.Named.Has (r : Named) (v : U32) : Prop where
  row : r ∈ LAYOUT
  base : r.base ≤ v
  last : v ≤ r.last
  space : r.space = spaceOf v

theorem Mem.spaceOf_between {u v w : U32} (h1 : u ≤ v) (h2 : v ≤ w) (h : spaceOf u = spaceOf w) :
    spaceOf v = spaceOf u := by
  unfold spaceOf at *
  split_ifs at * <;> first | rfl | (exfalso; bv_omega)

theorem Mem.row_has (i : Fin 8) {v : U32} (h1 : (LAYOUT.get i).base ≤ v)
    (h2 : v ≤ (LAYOUT.get i).last) : (LAYOUT.get i).Has v := by
  have hspace : ∀ i : Fin 8, (LAYOUT.get i).space = spaceOf (LAYOUT.get i).base ∧
      spaceOf (LAYOUT.get i).base = spaceOf (LAYOUT.get i).last := by decide
  obtain ⟨hbase, hlast⟩ := hspace i
  exact ⟨List.get_mem _ _, h1, h2, by rw [hbase, spaceOf_between h1 h2 hlast]⟩

/-- The row of an address that is mapped, and the truth of it. -/
theorem Heaps.Inv.layout (hi : hs.Inv s0 window s bk bv) (h0 : Started L ram hs0 s0 window)
    {v : U32} {a : Nat} (hv : s.translation v = some a) :
    ∃ r : Named, r.Has v ∧ r.Holds hs s v a := by
  have hlt := v.isLt
  rw [translation, walk_eq, Option.map_map] at hv
  obtain ⟨e, he, rfl⟩ := Option.map_eq_some_iff.mp hv
  rcases hi.mapped h0 (by omega) he with ⟨hlow, hframe⟩ | huser | ⟨h1, h2, hframe⟩ |
    ⟨h1, h2, hframe⟩ | ⟨h1, h2⟩ | ⟨h1, htable⟩
  · refine ⟨_, row_has 0 (show 0 ≤ v by bv_omega) (show v ≤ 0x3FFFFF#32 by bv_omega), ?_⟩
    show 4096 * frameNo e + v.toNat % 4096 = v.toNat
    omega
  · rcases mem_userPages.mp huser with ⟨h1, h2⟩ | hdemo
    · refine ⟨_, row_has 2 (show DEMAND_BASE ≤ v by bv_omega)
        (show v ≤ DEMAND_END - 1 by bv_omega), ?_⟩
      exact demand_zone.mpr ⟨h1, h2⟩
    · refine ⟨_, row_has 3 (show DEMAND_END ≤ v by bv_omega) (show v ≤ USER_END - 1 by bv_omega),
        ?_⟩
      exact hdemo
  · refine ⟨_, row_has 4 (show KERNEL_SPACE ≤ v by bv_omega)
      (show v ≤ KERNEL_WINDOW_END - 1 by bv_omega), ?_⟩
    show 4096 * frameNo e + v.toNat % 4096 + 0xC0000000 = v.toNat
    omega
  · have hle := hi.kernel.inv.brk_le
    have hal := hi.kernel.inv.brk_aligned
    have hlimit : hs.kernel.heap.limit.toNat = 0xD2000000 := by
      rw [hi.kernel_heap]
      rfl
    have hphys := (hi.kernel.inv.placed.block (by rw [hi.kernel_heap]; rfl)).1
    refine ⟨_, row_has 5 (show KHEAP_BASE ≤ v by bv_omega) (show v ≤ KHEAP_LIMIT - 1 by bv_omega),
      show v < hs.kernel.heap.brk by bv_omega, ?_⟩
    show 4096 * frameNo e + v.toNat % 4096
      = hs.kernel.heap.physBase.toNat + (v.toNat - 0xD0000000)
    omega
  · have hle := hi.virtual.inv.brk_le
    have hal := hi.virtual.inv.brk_aligned
    have hlimit : hs.virtual.heap.limit.toNat = 0xF0000000 := by
      rw [hi.virtual_heap]
      rfl
    refine ⟨_, row_has 6 (show VMALLOC_BASE ≤ v by bv_omega)
      (show v ≤ VMALLOC_LIMIT - 1 by bv_omega), ?_⟩
    show v < hs.virtual.heap.brk
    bv_omega
  · refine ⟨_, row_has 7 (show TABLE_WINDOW ≤ v by bv_omega) (show v ≤ 0xFFFFFFFF by bv_omega), ?_⟩
    show s.IsTable ((4096 * frameNo e + v.toNat % 4096) / 4096)
    rw [show (4096 * frameNo e + v.toNat % 4096) / 4096 = frameNo e from by omega]
    exact htable

end

end Kfs
