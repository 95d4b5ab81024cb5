import Kfs.Heap.Ledger

/-!
# The heap against one that merges at once

`Eager` is a heap as one would describe it: a list of blocks with no two free ones side by side, and
a break.  An allocation takes the free block with the lowest address that is large enough, a free
and a growth merge at once.  Growth draws on the same supply as the heap of the source.

The source merges late.  `Call.Outcome.eager` shows that this cannot be seen: the two heaps answer
the same, and the list of the one is the merged list of the other.
-/

namespace Kfs.Heap

open Lib Mem Paging Machine Blocks

/-! ## The reference -/

/-- The size of a block for `want` bytes. -/
def rounded (want : Nat) : Nat := 8 * ((max 8 want + 7) / 8)

theorem rounded_mod (want : Nat) : rounded want % 8 = 0 := by
  unfold rounded
  omega

theorem le_rounded (want : Nat) : 8 ≤ rounded want := by
  unfold rounded
  omega

/-- A heap that merges at once: the range, the block and the break, and the blocks. -/
structure Eager where
  heap : Heap
  blocks : List Block

namespace Eager

/-- The break moves up by as many of `n` pages as there are, and the new room joins the blocks. -/
def grow (r : Eager) (supply : Supply) (n : Nat) : Eager :=
  let m := r.heap.offered supply n
  if h : 0 < m then
    { heap := { r.heap with brk := BitVec.ofNat 32 (r.heap.brk.toNat + 4096 * m) }
      blocks := merged (r.blocks ++ [room (4096 * m) (by omega) (by omega)]) }
  else r

/-- The free block with the lowest address among those that are large enough, in use. -/
def take (r : Eager) (want : Nat) : Option (Nat × Eager) :=
  (place (rounded want) (rounded_mod want) (le_rounded want) r.blocks).map fun x =>
    (r.heap.base.toNat + x.1 + 8, { r with blocks := x.2 })

def alloc (r : Eager) (supply : Supply) (want : Nat) : Nat × Eager :=
  if want = 0 ∨ r.heap.limit.toNat - r.heap.base.toNat < want + 8 then (0, r)
  else
    match r.take want with
    | some x => x
    | none =>
      let r := r.grow supply ((rounded want + 8 + 4095) / 4096)
      (r.take want).getD (0, r)

def free (r : Eager) (pointer : Nat) : Eager :=
  { r with blocks := merged (clearAt (pointer - 8) r.heap.base.toNat r.blocks) }

def size (r : Eager) (pointer : Nat) : Nat :=
  match (Blocks.usedAt r.heap.base.toNat r.blocks).find? fun x => x.1 + 8 = pointer with
  | some x => x.2
  | none => 0

/-- One call.  A store of a client is none of the heap's business. -/
def step (r : Eager) (supply : Supply) : Call → Eager
  | .alloc want => (r.alloc supply want.toNat).2
  | .free pointer => r.free pointer.toNat
  | .brk delta => r.grow supply (pages delta)
  | .write _ _ => r

end Eager

/-! ## The same steps -/

section Same

variable {h h' : Heap} {s t : Machine} {bs bs' : List Block}

theorem Eager.grow_none {r : Eager} {supply : Supply} {n : Nat}
    (hm : r.heap.offered supply n = 0) : r.grow supply n = r := by
  unfold grow
  dsimp only
  rw [dif_neg (by omega)]

/-- Room for all the pages that are to be had. -/
theorem Eager.grow_some {supply : Supply} {n m : Nat} (hm : m = h.offered supply n)
    (hal : 4096 * m % 8 = 0) (hlarge : 16 ≤ 4096 * m) {top : U32}
    (htop : top.toNat = h.brk.toNat + 4096 * m) :
    (⟨h, merged bs⟩ : Eager).grow supply n
      = ⟨{ h with brk := top }, merged (extend bs (4096 * m) hal hlarge)⟩ := by
  subst hm
  have hbrk : BitVec.ofNat 32 (h.brk.toNat + 4096 * h.offered supply n) = top := by
    rw [← htop, BitVec.ofNat_toNat, BitVec.setWidth_eq]
  unfold grow
  dsimp only
  rw [dif_pos (by omega), hbrk, merged_snoc_room hal hlarge, merged_extend, merged_merged,
    merged_extend]

theorem Eager.grow_run {n : Nat} {ok : Bool} (hr : Ready h s bs) (hg : Grow h s bs n ok h' t bs') :
    (⟨h, merged bs⟩ : Eager).grow s.supply n = ⟨h', merged bs'⟩ := by
  cases hg with
  | refused _ hwhy => exact grow_none (hwhy hr.isOpen)
  | grew hal hlarge htop _ _ _ hcount => exact grow_some (hcount hr.isOpen).1 hal hlarge htop

theorem Eager.take_none {want : Nat}
    (hs : Search h.base.toNat (rounded want) bs bs' 0) :
    (⟨h, merged bs⟩ : Eager).take want = none := by
  cases hs with
  | none hal hlarge hplace =>
    unfold take
    rw [hplace, Option.map_none]
  | some _ _ _ hp => exact absurd hp (Nat.succ_ne_zero _).symm

theorem Eager.take_some {want : Nat} {p : U32} (hp : p ≠ 0)
    (hs : Search h.base.toNat (rounded want) bs bs' p) :
    (⟨h, merged bs⟩ : Eager).take want = some (p.toNat, ⟨h, merged bs'⟩) := by
  cases hs with
  | none => exact absurd rfl hp
  | some hal hlarge hplace hp' =>
    unfold take
    rw [hplace, Option.map_some, hp']

/-- The test on the size. -/
theorem Ready.too_large_iff (hr : Ready h s bs) (want : U32) :
    (want = 0 ∨ want > h.limit - h.base - HEADER) ↔
      want.toNat = 0 ∨ h.limit.toNat - h.base.toNat < want.toNat + 8 := by
  have hrange := hr.range
  have hba := hr.inv.placed.base_aligned
  have hla := hr.inv.placed.limit_aligned
  have hdiff : (h.limit - h.base - HEADER).toNat = h.limit.toNat - h.base.toNat - 8 := by bv_omega
  refine or_congr ?_ ?_
  · exact ⟨fun hz => by rw [hz]; rfl, fun hz => BitVec.eq_of_toNat_eq hz⟩
  · rw [gt_iff_lt, BitVec.lt_def, hdiff]
    omega

theorem Eager.alloc_run {want p : U32} (hr : Ready h s bs) (ha : Alloc h s bs want p h' t bs') :
    (⟨h, merged bs⟩ : Eager).alloc s.supply want.toNat = (p.toNat, ⟨h', merged bs'⟩) := by
  have htest := hr.too_large_iff want
  have hround : ¬want > h.limit - h.base - HEADER → (roundUp want).toNat = rounded want.toNat :=
    fun hle => toNat_roundUp (hr.inv.placed.want_le hle)
  have hpages : ¬want > h.limit - h.base - HEADER →
      (rounded want.toNat + 8 + 4095) / 4096 = (pagesFor want).toNat := fun hle => by
    rw [hr.toNat_pagesFor hle, hround hle]
  unfold alloc
  cases ha with
  | refused hwant =>
    rw [if_pos (htest.mp hwant)]
    rfl
  | found hwant hp hsearch =>
    rw [if_neg fun h => not_or.mpr hwant (htest.mpr h)]
    rw [hround hwant.2] at hsearch
    rw [take_some hp hsearch]
  | stuck hwant hsearch _ hwhy =>
    rw [if_neg fun h => not_or.mpr hwant (htest.mpr h)]
    have hsame := hsearch.merged
    rw [hround hwant.2] at hsearch
    rw [take_none hsearch]
    dsimp only
    rw [hpages hwant.2, grow_none (r := ⟨h, merged bs⟩) (hwhy hr.isOpen), take_none hsearch, hsame]
    rfl
  | grew hwant hsearch hal hlarge htop hm hagain hcount he =>
    rename_i bs1 m top
    rw [if_neg fun h => not_or.mpr hwant (htest.mpr h)]
    have hsame := hsearch.merged
    have hzero : p = 0 → merged bs' = merged (extend _ _ hal hlarge) := fun hp => by
      subst hp
      exact hagain.merged
    rw [hround hwant.2] at hsearch hagain
    rw [take_none hsearch]
    dsimp only
    rw [hpages hwant.2, ← hsame, grow_some (hcount hr.isOpen).1 hal hlarge htop]
    by_cases hp : p = 0
    · rw [hzero hp]
      subst hp
      rw [take_none (h := { h with brk := top }) hagain]
      rfl
    · rw [take_some (h := { h with brk := top }) hp hagain]
      rfl

/-- The first allocation of a heap is at its base. -/
theorem Eager.alloc_new {supply : Supply} {want : Nat} (hpos : want ≠ 0)
    (hle : want + 8 ≤ h.limit.toNat - h.base.toNat) (hpage : rounded want + 8 ≤ 4096)
    (hoff : h.offered supply 1 = 1) :
    (⟨h, []⟩ : Eager).alloc supply want = (h.base.toNat + 8,
      ⟨{ h with brk := BitVec.ofNat 32 (h.brk.toNat + 4096) },
        split (room 4096 (by decide) (by decide)) (rounded want) (rounded_mod want)
          (le_rounded want)⟩) := by
  have hone : (rounded want + 8 + 4095) / 4096 = 1 := by
    have := le_rounded want
    omega
  have hgrow : (⟨h, []⟩ : Eager).grow supply 1
      = ⟨{ h with brk := BitVec.ofNat 32 (h.brk.toNat + 4096) },
          [room 4096 (by decide) (by decide)]⟩ := by
    unfold grow
    dsimp only
    simp only [hoff]
    rfl
  have hplace : place (rounded want) (rounded_mod want) (le_rounded want)
      [room 4096 (by decide) (by decide)] = some (0, split
        (room 4096 (by decide) (by decide)) (rounded want) (rounded_mod want)
        (le_rounded want)) := by
    have hfits : rounded want ≤ (room 4096 (by decide) (by decide)).size :=
      Nat.le_sub_of_add_le hpage
    rw [place, if_pos ⟨rfl, hfits⟩, List.append_nil]
  unfold alloc
  rw [if_neg (show ¬(want = 0 ∨ h.limit.toNat - h.base.toNat < want + 8) from by omega)]
  have hnone : (⟨h, []⟩ : Eager).take want = none := rfl
  rw [hnone]
  dsimp only
  rw [hone, hgrow, take, hplace]
  rfl

/-- A free block at the base that is large enough is taken. -/
theorem Eager.alloc_head {supply : Supply} {want : Nat} {b : Block} (hpos : want ≠ 0)
    (hle : want + 8 ≤ h.limit.toNat - h.base.toNat) (hfree : b.used = false)
    (hsize : rounded want ≤ b.size) (bs : List Block) :
    ((⟨h, b :: bs⟩ : Eager).alloc supply want).1 = h.base.toNat + 8 := by
  unfold alloc
  rw [if_neg (show ¬(want = 0 ∨ h.limit.toNat - h.base.toNat < want + 8) from by omega), take,
    place, if_pos ⟨hfree, hsize⟩]
  rfl

theorem Eager.free_run {p : U32} (hf : Freed h s bs p t bs')
    (hlive : ∃ n, (p.toNat - 8, n) ∈ Blocks.usedAt h.base.toNat bs ∧ 8 ≤ p.toNat) :
    (⟨h, merged bs⟩ : Eager).free p.toNat = ⟨h, merged bs'⟩ := by
  obtain ⟨n, hq, h8⟩ := hlive
  cases hf with
  | done hbs hb hp =>
    unfold free
    rw [merged_clearAt bs _ hq, hbs, show p.toNat - 8 = h.base.toNat + Blocks.span _ from by
      rw [hp, Nat.add_sub_cancel], clearAt_middle]
  | refused hne => exact absurd (Nat.sub_add_cancel h8) (hne _ n hq)

/-- The reference knows the size of every block in use. -/
theorem Eager.size_used {q n : Nat} (hq : (q, n) ∈ Blocks.usedAt h.base.toNat bs) :
    (⟨h, merged bs⟩ : Eager).size (q + 8) = n := by
  unfold size
  dsimp only
  rw [usedAt_merged]
  split
  · rename_i x hx
    obtain ⟨q', n'⟩ := x
    have hfound := List.find?_some hx
    have hq' : q' + 8 = q + 8 := of_decide_eq_true hfound
    have := usedAt_apart hq (List.mem_of_find?_eq_some hx)
    dsimp only
    omega
  · rename_i hnone
    have := List.find?_eq_none.mp hnone _ hq
    exact absurd (decide_eq_true rfl) this

theorem Eager.brk_run {delta r : U32} (hr : Ready h s bs) (hnonneg : 0 ≤ delta.toInt)
    (hm : Move h s bs delta r h' t bs') :
    (⟨h, merged bs⟩ : Eager).grow s.supply (pages delta) = ⟨h', merged bs'⟩ := by
  cases hm with
  | zero hzero =>
    subst hzero
    exact grow_none rfl
  | down hneg =>
    have hlt := BitVec.toInt_neg_of_msb_true hneg
    omega
  | up _ _ hg =>
    rw [show pages delta = (pagesOf delta).toNat from (toNat_pagesOf delta).symm]
    exact grow_run hr hg

/-- A heap in order has one list of blocks. -/
theorem Inv.unique (hi : Inv h s bs) (hi' : Inv h s bs') : bs = bs' := by
  have hspan := hi.span
  have hspan' := hi'.span
  have hlt := h.brk.isLt
  exact tiles_unique hi.tiles hi'.tiles (by omega) (by omega)

end Same

/-! ## One call on both heaps -/

/-- The calls that are compared: a free is of a live pointer, and the break does not go down. -/
def Call.Fair (c : Client) : Call → Prop
  | .free pointer => ∃ a ∈ c.live, a.pointer = pointer
  | .brk delta => 0 ≤ delta.toInt
  | _ => True

/-- The same break, the same size for every live pointer, and the same answer to an allocation of
any size. -/
structure Eager.Alike (r : Eager) (c : Client) (s : Machine) : Prop where
  brk : r.heap.brk = c.heap.brk
  size : ∀ a ∈ c.live,
    (c.heap.size a.pointer).run s = .ok (BitVec.ofNat 32 (r.size a.pointer.toNat), s)
  alloc : ∀ want, ∃ p h' t, (c.heap.alloc want).run s = .ok ((p, h'), t) ∧
    p.toNat = (r.alloc s.supply want.toNat).1

section Sides

variable {c : Client} {s : Machine} {bs : List Block}

theorem Eager.alike (hc : c.Ok s bs) (hr : Ready c.heap s bs) :
    (⟨c.heap, merged bs⟩ : Eager).Alike c s := by
  refine ⟨rfl, fun a ha => ?_, fun want => ?_⟩
  · have h8 := (hc.asked a ha).1
    have hsize := Eager.size_used (hc.mem ha)
    rw [Nat.sub_add_cancel h8] at hsize
    rw [hsize, BitVec.ofNat_toNat, BitVec.setWidth_eq]
    exact hc.size_live ha
  · obtain ⟨p, h', t, bs', hrun, hcase⟩ := Heap.alloc_run hr.inv want
    exact ⟨p, h', t, hrun, by rw [Eager.alloc_run hr hcase]⟩

/-- The call has the same effect on the merged list as on the list. -/
theorem Call.Outcome.eager {c' : Client} {t : Machine} {bs' : List Block} (hc : c.Ok s bs)
    (hr : Ready c.heap s bs) {call : Call} (hfair : call.Fair c)
    (ho : call.Outcome c c' s t bs bs') :
    (⟨c.heap, merged bs⟩ : Eager).step s.supply call = ⟨c'.heap, merged bs'⟩ := by
  unfold Eager.step
  cases call with
  | alloc want =>
    obtain ⟨p, hcase⟩ := ho
    dsimp only
    rw [Eager.alloc_run hr hcase]
  | free pointer =>
    obtain ⟨hsame, hcase⟩ := ho
    obtain ⟨a, ha, rfl⟩ := hfair
    rw [hsame]
    exact Eager.free_run hcase ⟨_, hc.mem ha, (hc.asked a ha).1⟩
  | brk delta =>
    obtain ⟨r, hcase⟩ := ho
    exact Eager.brk_run hr hfair hcase
  | write v byte =>
    obtain ⟨hsame, rfl⟩ := ho
    rw [hsame]

end Sides

end Kfs.Heap
