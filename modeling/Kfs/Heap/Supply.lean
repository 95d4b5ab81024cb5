import Kfs.Heap.Inv

/-!
# What a heap can get

A page costs a scattered heap one frame, and either kind of heap one more where the directory has
no table for it.  `grants` counts the pages that the loop of `grow` gets, from the number of free
frames, the slots of the directory that hold a table, the end of the range and the end of the
block.  Nothing else of the machine matters for it.
-/

namespace Kfs

/-- What growth draws on: the slots of the directory that hold a table, and the free frames. -/
@[ext] structure Supply where
  slots : Finset Nat
  free : Nat

namespace Machine

variable {s t u : Machine}

def supply (s : Machine) : Supply := ⟨s.slots, s.pmm.frames.card⟩

theorem slots_supply (s : Machine) : s.supply.slots = s.slots := rfl

theorem free_supply (s : Machine) : s.supply.free = s.pmm.frames.card := by rw [supply]

/-- The same pages are mapped, to the same frames, and the same frames are free. -/
structure SameMap (s t : Machine) : Prop where
  pmm : t.pmm = s.pmm
  slots : t.slots = s.slots
  leaf : ∀ p, p < 1023 * 1024 → t.leaf p = s.leaf p

namespace SameMap

theorem trans (h : SameMap s t) (h' : SameMap t u) : SameMap s u :=
  ⟨h'.pmm.trans h.pmm, h'.slots.trans h.slots, fun p hp => (h'.leaf p hp).trans (h.leaf p hp)⟩

theorem supply (h : SameMap s t) : t.supply = s.supply := by
  rw [Machine.supply, Machine.supply, h.slots, h.pmm]

end SameMap

theorem SameTables.sameMap (h : SameTables s t) (hs : s.Paged) (hp : t.pmm = s.pmm) :
    SameMap s t :=
  ⟨hp, h.slots hs, fun _ hp => h.leaf hs (by omega)⟩

theorem Wrote.sameMap {lo hi : Nat} (h : Wrote lo hi s t) (hs : s.Paged) (ho : s.Owned lo hi) :
    SameMap s t :=
  (h.sameTables ho).sameMap hs h.pmm

end Machine

theorem Paging.Untouched.sameMap {s t : Machine} (h : Paging.Untouched s t) (hs : s.Paged) :
    Machine.SameMap s t :=
  Machine.SameTables.sameMap ⟨h.2.2.1, fun _ _ => by rw [h.1]⟩ hs h.2.1

namespace Heap

variable {h : Heap} {r : Supply}

/-- The frames that page `p` costs. -/
def cost (h : Heap) (r : Supply) (p : Nat) : Nat :=
  (if h.backing = .scattered then 1 else 0) + (if p / 1024 ∈ r.slots then 0 else 1)

/-- The range and the block reach beyond page `p`, and there are frames enough for it. -/
def Affords (h : Heap) (r : Supply) (p : Nat) : Prop :=
  4096 * p + 4096 ≤ h.limit.toNat ∧
    (h.backing = .contiguous →
      h.physBase.toNat + (4096 * p - h.base.toNat) + 4096 ≤ h.physEnd.toNat) ∧
    h.cost r p ≤ r.free

instance (h : Heap) (r : Supply) (p : Nat) : Decidable (h.Affords r p) :=
  inferInstanceAs (Decidable (_ ∧ _ ∧ _))

/-- What is left after page `p`. -/
def pay (h : Heap) (r : Supply) (p : Nat) : Supply :=
  ⟨insert (p / 1024) r.slots, r.free - h.cost r p⟩

/-- How many of the `n` pages from `p` on the heap gets. -/
def grants (h : Heap) : Nat → Nat → Supply → Nat
  | 0, _, _ => 0
  | n + 1, p, r => if h.Affords r p then h.grants n (p + 1) (h.pay r p) + 1 else 0

/-- How many of `n` pages from the break on the heap gets. -/
def offered (h : Heap) (r : Supply) (n : Nat) : Nat := h.grants n (h.brk.toNat / 4096) r

theorem grants_stop {p : Nat} (hp : ¬h.Affords r p) (n : Nat) : h.grants n p r = 0 := by
  cases n with
  | zero => rfl
  | succ n => rw [grants, if_neg hp]

theorem grants_go {p : Nat} (hp : h.Affords r p) (n : Nat) :
    h.grants (n + 1) p r = h.grants n (p + 1) (h.pay r p) + 1 := by
  rw [grants, if_pos hp]

theorem grants_le (n : Nat) : ∀ (p : Nat) (r : Supply), h.grants n p r ≤ n := by
  induction n with
  | zero => exact fun _ _ => Nat.le_refl _
  | succ n ih =>
    intro p r
    rw [grants]
    split
    · exact Nat.succ_le_succ (ih (p + 1) (h.pay r p))
    · exact Nat.zero_le _

/-- A heap gets nothing exactly when it cannot get the first page. -/
theorem grants_eq_zero {n : Nat} (hn : n ≠ 0) (p : Nat) : h.grants n p r = 0 ↔ ¬h.Affords r p := by
  refine ⟨fun hz hp => ?_, fun hp => grants_stop hp n⟩
  obtain ⟨n, rfl⟩ := Nat.exists_eq_succ_of_ne_zero hn
  rw [grants_go hp] at hz
  cases hz

theorem cost_le (h : Heap) (r : Supply) (p : Nat) : h.cost r p ≤ 2 := by
  rw [cost]
  split <;> split <;> decide

/-- With two frames for each page the heap gets all of them, up to the end of its range or block. -/
theorem grants_all (n : Nat) : ∀ (p : Nat) (r : Supply), h.base.toNat ≤ 4096 * p →
    4096 * (p + n) ≤ h.limit.toNat →
    (h.backing = .contiguous →
      h.physBase.toNat + (4096 * (p + n) - h.base.toNat) ≤ h.physEnd.toNat) →
    2 * n ≤ r.free → h.grants n p r = n := by
  induction n with
  | zero => exact fun _ _ _ _ _ _ => rfl
  | succ n ih =>
    intro p r hlo hlimit hblock hfree
    have hcost := h.cost_le r p
    have haff : h.Affords r p := by
      refine ⟨by omega, fun hb => ?_, by omega⟩
      have := hblock hb
      omega
    have hpaid : 2 * n ≤ (h.pay r p).free := by
      show 2 * n ≤ r.free - h.cost r p
      omega
    have hnext : p + 1 + n = p + (n + 1) := by omega
    rw [grants_go haff, ih (p + 1) _ (by omega) (by omega) (by rw [hnext]; exact hblock) hpaid]

end Heap

end Kfs
