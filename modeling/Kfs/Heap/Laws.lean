import Kfs.Heap.Safety

/-!
# What the calls of a heap promise

For each promise there is a statement over one call, in terms of what can be seen from outside (the
answer, the break, the walk over the headers, the page tables and the bitmap), and a theorem that
says exactly when it holds.

* `alloc_unchanged`: a refused allocation changes nothing unless a part of the pages was to be had.
* `alloc_complete`: no allocation is refused while a run of free blocks is large enough or a page
  can be had.
* `moveBrk_sbrk`, `moveBrk_documented`, `moveBrk_back`: moving the break up, down, and up and back.
* `free_exact`: a free clears one flag or does nothing.

They all start from `Ready`, which every call keeps.
-/

namespace Kfs.Heap

open Lib Mem Paging Machine Blocks

variable {h h' : Heap} {s t u : Machine} {bs bs' : List Block}

/-- The walk from the base to the break finds the blocks `bs`. -/
def Shows (h : Heap) (s : Machine) (bs : List Block) : Prop :=
  Walk s h.brk h.base (seenFrom h.base.toNat bs)

theorem Inv.shows (hi : Inv h s bs) : h.Shows s bs :=
  walk_of_tiles hi.view (Nat.le_of_eq hi.pages.2.symm) bs _ hi.ahead

/-- A heap in order, in a range of its own that is not empty, which only the supply can refuse a
page. -/
structure Ready (h : Heap) (s : Machine) (bs : List Block) : Prop where
  inv : Inv h s bs
  isOpen : h.Open s
  base_pos : 0 < h.base.toNat
  range : h.base.toNat < h.limit.toNat

theorem Ready.effect (hr : Ready h s bs) (he : Effect h h' s t bs bs') : Ready h' t bs' := by
  refine ⟨he.inv, ⟨?_, he.clear hr.isOpen.2⟩, ?_, ?_⟩
  · rw [he.same]
    exact hr.isOpen.1
  · rw [he.same]
    exact hr.base_pos
  · rw [he.same]
    exact hr.range

theorem Ready.brk_ne_zero (hr : Ready h s bs) : h.brk ≠ 0 := fun hz => by
  have hle := hr.inv.base_le
  have hpos := hr.base_pos
  rw [hz] at hle
  exact absurd hle (Nat.not_le.mpr hpos)

/-! ## The sizes as numbers -/

/-- The pages for a block of the rounded size, its header included. -/
theorem Ready.toNat_pagesFor (hr : Ready h s bs) {want : U32}
    (hle : ¬want > h.limit - h.base - HEADER) :
    (pagesFor want).toNat = ((roundUp want).toNat + 8 + 4095) / 4096 := by
  have hp := hr.inv.placed
  have hlimit := hp.limit_le
  rw [show TABLE_WINDOW.toNat = 0xFFC00000 from rfl] at hlimit
  have hrange := hr.range
  have hba := hp.base_aligned
  have hla := hp.limit_aligned
  have hwant : want.toNat + 8 ≤ h.limit.toNat - h.base.toNat := by bv_omega
  have hround := toNat_roundUp (hp.want_le hle)
  have hsum : (roundUp want + HEADER + PAGE_SIZE - 1).toNat = (roundUp want).toNat + 8 + 4095 := by
    rw [show roundUp want + HEADER + PAGE_SIZE - 1 = roundUp want + 4103 from by
        rw [BitVec.sub_eq_add_neg, BitVec.add_assoc, BitVec.add_assoc]
        rfl,
      BitVec.toNat_add, show (4103 : U32).toNat = 4103 from rfl]
    omega
  rw [pagesFor, BitVec.toNat_udiv, hsum, show PAGE_SIZE.toNat = 4096 from rfl]

/-- The distance that `brk` is asked to move. -/
theorem natAbs_delta (delta : U32) :
    (if delta.msb then -delta else delta).toNat = delta.toInt.natAbs ∧
      delta.toInt.natAbs ≤ 2 ^ 31 := by
  have hlt := delta.isLt
  rw [BitVec.toInt_eq_msb_cond]
  cases hm : delta.msb with
  | true =>
    have hge := BitVec.le_toNat_of_msb_true hm
    simp only [if_true, BitVec.toNat_neg]
    omega
  | false =>
    have hsmall := BitVec.toNat_lt_of_msb_false hm
    simp only [Bool.false_eq_true, if_false]
    omega

/-- The pages that `brk` moves by: the distance, rounded up. -/
theorem toNat_pagesOf (delta : U32) :
    (pagesOf delta).toNat = (delta.toInt.natAbs + 4095) / 4096 := by
  obtain ⟨habs, hle⟩ := natAbs_delta delta
  have hsum : ((if delta.msb then -delta else delta) + PAGE_SIZE - 1).toNat
      = delta.toInt.natAbs + 4095 := by
    rw [show ∀ x : U32, x + PAGE_SIZE - 1 = x + 4095 from fun x => by
        rw [BitVec.sub_eq_add_neg, BitVec.add_assoc]
        rfl,
      BitVec.toNat_add, habs, show (4095 : U32).toNat = 4095 from rfl]
    omega
  rw [pagesOf, BitVec.toNat_udiv, hsum, show PAGE_SIZE.toNat = 4096 from rfl]

/-- The break that `brk` aims at when it moves down. -/
theorem Inv.toNat_target (hi : Inv h s bs) (delta : U32) :
    (h.target (pagesOf delta)).toNat
      = max h.base.toNat (h.brk.toNat - 4096 * ((delta.toInt.natAbs + 4095) / 4096)) := by
  have hle := hi.base_le
  have hpages := toNat_pagesOf delta
  have hsmall := (natAbs_delta delta).2
  have hmul : (pagesOf delta * PAGE_SIZE).toNat
      = 4096 * ((delta.toInt.natAbs + 4095) / 4096) := by
    rw [BitVec.toNat_mul, hpages, show PAGE_SIZE.toNat = 4096 from rfl]
    omega
  have hmost : (h.brk - h.base).toNat = h.brk.toNat - h.base.toNat :=
    BitVec.toNat_sub_of_le (by rw [BitVec.le_def]; exact hle)
  unfold target
  split
  · rename_i hfit
    rw [BitVec.le_def, hmost, hmul] at hfit
    rw [BitVec.toNat_sub_of_le (by rw [BitVec.le_def, hmul]; omega), hmul]
    omega
  · rename_i hfit
    rw [BitVec.le_def, hmost, hmul] at hfit
    rw [BitVec.toNat_sub_of_le (by rw [BitVec.le_def, hmost]; omega), hmost]
    omega

/-- The way back is as long as the way. -/
theorem toInt_neg_delta {delta : U32} (hpos : 0 < delta.toInt) :
    (-delta).toInt = -delta.toInt := by
  have hlt := BitVec.two_mul_toInt_lt (x := delta)
  rw [BitVec.toInt_neg, Int.bmod_eq_of_le_mul_two (by omega) (by omega)]

/-! ## Refused allocations -/

/-- The break, the mapped pages with their entries, the bitmap with its counters, the blocks in use
and the runs of free blocks are what they were. -/
structure Unchanged (h h' : Heap) (s t : Machine) : Prop where
  heap : h' = h
  leaf : ∀ p, p < 1023 * 1024 → t.leaf p = s.leaf p
  pmm : t.pmm = s.pmm
  blocks : ∃ bs bs', h.Shows s bs ∧ h'.Shows t bs' ∧
    Blocks.usedAt h.base.toNat bs' = Blocks.usedAt h.base.toNat bs ∧
    freeAt h.base.toNat (merged bs') = freeAt h.base.toNat (merged bs)

theorem Search.merged {base need : Nat} (hs : Search base need bs bs' 0) :
    Blocks.merged bs' = Blocks.merged bs := by
  cases hs with
  | none _ _ _ hsame => exact hsame
  | some _ _ _ hp => exact absurd hp (Nat.succ_ne_zero _).symm

/-- The heap gets some of the pages for a block exactly when it gets one. -/
theorem Ready.offered_pagesFor (hr : Ready h s bs) {want : U32}
    (hle : ¬want > h.limit - h.base - HEADER) :
    h.offered s.supply (pagesFor want).toNat = 0 ↔ h.offered s.supply 1 = 0 := by
  have hpages := hr.toNat_pagesFor hle
  rw [offered, offered, grants_eq_zero (by omega), grants_eq_zero Nat.one_ne_zero]

/-- An allocation that is refused leaves everything as it was, or else a part of the pages was to
be had, and they stay with the heap. -/
theorem alloc_unchanged (hr : Ready h s bs) (want : U32) :
    ∃ p h' t, (h.alloc want).run s = .ok ((p, h'), t) ∧
      (p = 0 → (Unchanged h h' s t ↔
        want = 0 ∨ want > h.limit - h.base - HEADER ∨ h.offered s.supply 1 = 0)) := by
  obtain ⟨p, h', t, bs', hrun, hcase⟩ := alloc_run hr.inv want
  have hshows := hr.inv.shows
  refine ⟨p, h', t, hrun, fun hp => ?_⟩
  cases hcase with
  | refused hwant hu =>
    have hmap := hu.sameMap hr.inv.paged
    refine ⟨fun _ => hwant.imp_right Or.inl, fun _ => ⟨rfl, hmap.leaf, hmap.pmm, bs, bs, hshows,
      (hr.inv.untouched hu).shows, rfl, rfl⟩⟩
  | found _ hne => exact absurd hp hne
  | stuck hwant hsearch hmap hwhy he =>
    refine ⟨fun _ => Or.inr (Or.inr ((hr.offered_pagesFor hwant.2).mp (hwhy hr.isOpen))),
      fun _ => ⟨rfl, hmap.leaf, hmap.pmm, bs, bs', hshows, he.inv.shows, hsearch.usedAt, ?_⟩⟩
    rw [hsearch.merged]
  | grew hwant _ _ hlarge htop _ _ hcount =>
    have hm := (hcount hr.isOpen).1
    constructor
    · intro hun
      have hbrk := congrArg (fun h : Heap => h.brk.toNat) hun.heap
      dsimp only at hbrk
      omega
    · rintro (hz | hl | hoff)
      · exact absurd hz hwant.1
      · exact absurd hl hwant.2
      · have := (hr.offered_pagesFor hwant.2).mpr hoff
        omega

/-! ## No allocation is refused for nothing -/

/-- What an allocation of a size that is not refused out of hand answers. -/
structure Complete (h h' : Heap) (s t : Machine) (want p : U32) : Prop where
  refused : p = 0 → (∃ bs', h'.Shows t bs' ∧
      ∀ q n, (q, n) ∈ freeAt h.base.toNat (merged bs') → n < (roundUp want).toNat) ∧
    ∃ u, (h'.grow 1).run t = .ok ((false, h'), u)
  lowest : ∃ bs, h.Shows s bs ∧
    ((∃ q n, (q, n) ∈ freeAt h.base.toNat (merged bs) ∧ (roundUp want).toNat ≤ n) →
      h' = h ∧ ∃ q n, (q, n) ∈ freeAt h.base.toNat (merged bs) ∧ (roundUp want).toNat ≤ n ∧
        p.toNat = q + 8 ∧ ∀ q' n', (q', n') ∈ freeAt h.base.toNat (merged bs) →
          (roundUp want).toNat ≤ n' → q ≤ q')

/-- A heap that is offered no page refuses to grow. -/
theorem Ready.grow_refused (hr : Ready h s bs) (hoff : h.offered s.supply 1 = 0) :
    ∃ t, (h.grow 1).run s = .ok ((false, h), t) := by
  obtain ⟨ok, h', t, bs', hrun, hcase⟩ := grow_run hr.inv 1
  cases hcase with
  | refused => exact ⟨t, hrun⟩
  | grew _ hlarge _ _ _ _ hcount =>
    have hm := (hcount hr.isOpen).1
    rw [show (1 : U32).toNat = 1 from rfl, hoff] at hm
    omega

/-- A search that found nothing leaves no run that is large enough. -/
theorem Search.too_small {base need : Nat} (hs : Search base need bs bs' 0) {q n : Nat}
    (hq : (q, n) ∈ freeAt base (Blocks.merged bs)) : n < need := by
  cases hs with
  | none hal hlarge hplace => exact (place_eq_none hal hlarge base).mp hplace q n hq
  | some _ _ _ hp => exact absurd hp (Nat.succ_ne_zero _).symm

theorem Search.no_room {base need : Nat} (hs : Search base need bs bs' 0) :
    ¬∃ q n, (q, n) ∈ freeAt base (Blocks.merged bs) ∧ need ≤ n := by
  rintro ⟨q, n, hq, hneed⟩
  exact absurd hneed (Nat.not_le.mpr (hs.too_small hq))

/-- An allocation of a possible size fails only if the heap cannot get another page. -/
theorem Alloc.shortage {want : U32} (hr : Ready h s bs) (hpos : want ≠ 0)
    (hle : ¬want > h.limit - h.base - HEADER) (ha : Alloc h s bs want 0 h' t bs') :
    h'.offered t.supply 1 = 0 := by
  cases ha with
  | refused hwant => exact absurd hwant (not_or.mpr ⟨hpos, hle⟩)
  | found _ hne => exact absurd rfl hne
  | stuck _ _ hmap hwhy =>
    rw [hmap.supply]
    exact (hr.offered_pagesFor hle).mp (hwhy hr.isOpen)
  | grew hwant hsearch hal hlarge htop hm hagain hcount he =>
    rename_i bs1 m top
    -- all the pages would have been room enough
    have hshort : m < (pagesFor want).toNat := by
      by_contra hfull
      obtain ⟨q, n, hq, hn⟩ := freeAt_extend hal hlarge (merged bs1) h.base.toNat
      rw [← merged_extend] at hq
      have hsmall := hagain.too_small hq
      have hpages := hr.toNat_pagesFor hle
      omega
    exact grants_stop ((hcount hr.isOpen).2 hshort) 1

theorem alloc_complete (hr : Ready h s bs) {want : U32} (hpos : want ≠ 0)
    (hle : ¬want > h.limit - h.base - HEADER) :
    ∃ p h' t, (h.alloc want).run s = .ok ((p, h'), t) ∧ Complete h h' s t want p := by
  obtain ⟨p, h', t, bs', hrun, hcase⟩ := alloc_run hr.inv want
  have hshows := hr.inv.shows
  have hshort : p = 0 → h'.offered t.supply 1 = 0 := fun hp => by
    subst hp
    exact hcase.shortage hr hpos hle
  refine ⟨p, h', t, hrun, ?_⟩
  cases hcase with
  | refused hwant => exact absurd hwant (not_or.mpr ⟨hpos, hle⟩)
  | found _ hne hsearch =>
    refine ⟨fun hp => absurd hp hne, bs, hshows, fun _ => ⟨rfl, ?_⟩⟩
    cases hsearch with
    | none => exact absurd rfl hne
    | some hal hlarge hplace hp =>
      obtain ⟨⟨n, hn, hneed⟩, hlow⟩ := place_lowest hal hlarge (a := h.base.toNat) hplace
      exact ⟨_, n, hn, hneed, hp, hlow⟩
  | stuck _ hsearch _ _ he =>
    refine ⟨fun hp => ⟨⟨bs', he.inv.shows, fun q n hq => ?_⟩,
      (hr.effect he).grow_refused (hshort hp)⟩, bs, hshows,
      fun hroom => absurd hroom hsearch.no_room⟩
    rw [hsearch.merged] at hq
    exact hsearch.too_small hq
  | grew _ hsearch _ _ _ _ hagain _ he =>
    refine ⟨fun hp => ?_, bs, hshows, fun hroom => absurd hroom hsearch.no_room⟩
    subst hp
    refine ⟨⟨bs', he.inv.shows, fun q n hq => ?_⟩, (hr.effect he).grow_refused (hshort rfl)⟩
    rw [hagain.merged] at hq
    exact hagain.too_small hq

/-! ## Moving the break -/

/-- The pages that a distance takes. -/
def pages (delta : U32) : Nat := (delta.toInt.natAbs + 4095) / 4096

theorem msb_of_neg {delta : U32} (hneg : delta.toInt < 0) : delta.msb = true := by
  rw [BitVec.msb_eq_toInt]
  exact decide_eq_true hneg

theorem msb_of_pos {delta : U32} (hpos : 0 < delta.toInt) : delta.msb = false := by
  rw [BitVec.msb_eq_toInt]
  exact decide_eq_false (by omega)

/-- `brk` as `sbrk` is documented: the answer is the old break, and the break moves by all the pages
or not at all. -/
structure Sbrk (h h' : Heap) (s t : Machine) (delta r : U32) : Prop where
  up : 0 < delta.toInt → r ≠ 0 → r = h.brk ∧ h'.brk.toNat = h.brk.toNat + 4096 * pages delta
  down : delta.toInt < 0 → r ≠ 0 →
    h'.brk.toNat = max h.base.toNat (h.brk.toNat - 4096 * pages delta)
  refused : r = 0 → h' = h ∧ Untouched s t ∧ ∃ bs, h.Shows s bs ∧ h.Shows t bs
  zero : delta = 0 → h' = h ∧ t = s

/-- The break moves as documented unless a part of the pages was to be had. -/
theorem moveBrk_sbrk (hr : Ready h s bs) (delta : U32) :
    ∃ r h' t, (h.moveBrk delta).run s = .ok ((r, h'), t) ∧
      (Sbrk h h' s t delta r ↔ (0 < delta.toInt → h.offered s.supply (pages delta) = 0 ∨
        h.offered s.supply (pages delta) = pages delta)) := by
  obtain ⟨r, h', t, bs', hrun, hcase⟩ := moveBrk_run hr.inv delta
  have hbrk := hr.brk_ne_zero
  have hshows := hr.inv.shows
  refine ⟨r, h', t, hrun, ?_⟩
  cases hcase with
  | zero hzero =>
    subst hzero
    refine ⟨fun _ hpos => absurd hpos (by decide), fun _ => ⟨fun hpos => absurd hpos (by decide),
      fun hneg => absurd hneg (by decide), fun hz => absurd hz hbrk, fun _ => ⟨rfl, rfl⟩⟩⟩
  | down hneg hs =>
    have hlt : ¬0 < delta.toInt := fun hpos => by
      rw [msb_of_pos hpos] at hneg
      cases hneg
    refine ⟨fun _ hpos => absurd hpos hlt, fun _ => ⟨fun hpos => absurd hpos hlt, fun _ hr' => ?_,
      fun hz => ?_, fun hzero => ?_⟩⟩
    · have htarget := hr.inv.toNat_target delta
      rw [pages]
      cases hs with
      | same heq =>
        rw [heq] at htarget
        exact htarget
      | refused => exact absurd rfl hr'
      | cut => exact htarget
      | drop => exact htarget
    · cases hs with
      | same => exact absurd hz hbrk
      | refused _ _ _ hu => exact ⟨rfl, hu, bs, hshows, (hr.inv.untouched hu).shows⟩
      | cut => exact absurd hz hbrk
      | drop => exact absurd hz hbrk
    · rw [hzero] at hneg
      exact absurd hneg (by decide)
  | up hne hpos hg =>
    have hint : 0 < delta.toInt := by
      have hle : ¬delta.toInt < 0 := fun hneg => by
        rw [msb_of_neg hneg] at hpos
        cases hpos
      have hnz : delta.toInt ≠ 0 := fun hz => hne (BitVec.eq_of_toInt_eq (by rw [hz]; rfl))
      omega
    have hpages : (pagesOf delta).toNat = pages delta := toNat_pagesOf delta
    rw [hpages] at hg
    cases hg with
    | refused hu hwhy =>
      refine ⟨fun _ _ => Or.inl (hwhy hr.isOpen), fun _ => ⟨fun _ hr' => absurd rfl hr',
        fun hneg => ?_, fun _ => ⟨rfl, hu, bs, hshows, (hr.inv.untouched hu).shows⟩,
        fun hz => absurd hz hne⟩⟩
      omega
    | grew _ hlarge htop _ _ _ hcount =>
      obtain ⟨hm, _⟩ := hcount hr.isOpen
      refine ⟨fun hs _ => ?_, fun hoff => ⟨fun _ _ => ⟨rfl, ?_⟩, fun hneg => ?_,
        fun hz => absurd hz hbrk, fun hz => absurd hz hne⟩⟩
      · have hfull := (hs.up hint hbrk).2
        dsimp only at hfull
        omega
      · have hoff' := hoff hint
        dsimp only
        omega
      · omega

/-- The break moves by all the pages if they are to be had. -/
theorem Move.full {delta r : U32} (hr : Ready h s bs) (hpos : 0 < delta.toInt)
    (hall : h.offered s.supply (pages delta) = pages delta) (hm : Move h s bs delta r h' t bs') :
    h'.brk.toNat = h.brk.toNat + 4096 * pages delta ∧
      ∃ hal hlarge, bs' = extend bs (4096 * pages delta) hal hlarge := by
  have hpages : 0 < pages delta := by
    rw [pages]
    omega
  cases hm with
  | zero hzero =>
    rw [hzero] at hpos
    exact absurd hpos (by decide)
  | down hneg =>
    rw [msb_of_pos hpos] at hneg
    cases hneg
  | up _ _ hg =>
    rw [show (pagesOf delta).toNat = pages delta from toNat_pagesOf delta] at hg
    cases hg with
    | refused _ hwhy =>
      have hnone := hwhy hr.isOpen
      omega
    | grew hal hlarge htop _ _ _ hcount =>
      obtain rfl := (hcount hr.isOpen).1.trans hall
      exact ⟨htop, hal, hlarge, rfl⟩

/-! ## Moving the break down -/

/-- The reasons for which the break may stay when it is asked down to `target`: a block in use is in
the way, or too little would be left of the free end. -/
def Documented (h : Heap) (bs : List Block) (target : Nat) : Prop :=
  target < h.brk.toNat ∧
    ((∃ q n, (q, n) ∈ Blocks.usedAt h.base.toNat bs ∧ target < q + 8 + n) ∨
      topAt h.base.toNat (merged bs) < target ∧ target < topAt h.base.toNat (merged bs) + 16)

/-- Where the break is asked to go. -/
def goal (h : Heap) (delta : U32) : Nat := max h.base.toNat (h.brk.toNat - 4096 * pages delta)

/-- `brk` down as it is documented: it refuses for a documented reason only, and otherwise gives
exactly the pages above the new break back. -/
structure Gives (h h' : Heap) (s t : Machine) (bs : List Block) (delta r : U32) : Prop where
  refuses : r = 0 ↔ h.Documented bs (h.goal delta)
  gives : ¬h.Documented bs (h.goal delta) → h'.brk.toNat = h.goal delta ∧
    GaveBack h s t (h.goal delta / 4096) (h.brk.toNat / 4096)

/-- A block in use is in the way exactly when the break would go below the free end. -/
theorem documented_iff (bs : List Block) {target : Nat} (hlo : h.base.toNat ≤ target) :
    h.Documented bs target ↔ target < h.brk.toNat ∧ (target < topAt h.base.toNat (merged bs) ∨
      topAt h.base.toNat (merged bs) < target ∧
        target < topAt h.base.toNat (merged bs) + 16) := by
  have hway : (∃ q n, (q, n) ∈ Blocks.usedAt h.base.toNat bs ∧ target < q + 8 + n) ↔
      target < topAt h.base.toNat (merged bs) := by
    constructor
    · rintro ⟨q, n, hq, hlt⟩
      rw [← usedAt_merged] at hq
      exact Nat.lt_of_lt_of_le hlt (usedAt_le_topAt hq)
    · intro hlt
      obtain ⟨q, n, hq, hend⟩ :=
        (separate_merged bs).exists_used (Nat.lt_of_le_of_lt hlo hlt)
      rw [usedAt_merged] at hq
      exact ⟨q, n, hq, by omega⟩
  unfold Documented
  rw [hway]

theorem GaveBack.same (h : Heap) (s : Machine) (a : Nat) : GaveBack h s s a a := by
  refine ⟨fun p _ => ?_, fun _ => Iff.rfl, fun _ => rfl, fun _ k => ?_⟩
  · rw [if_neg (by omega)]
  · refine ⟨Or.inl, fun hk => hk.resolve_right ?_⟩
    rintro ⟨p, ⟨hlo, hhi⟩, _⟩
    omega

/-- A call that moved the break did right exactly when there was no reason to refuse. -/
theorem gives_iff {delta target : U32} (hbrk : h.brk ≠ 0) (htarget : target.toNat = h.goal delta)
    (hg : GaveBack h s t (h.goal delta / 4096) (h.brk.toNat / 4096)) :
    Gives h { h with brk := target } s t bs delta h.brk ↔ ¬h.Documented bs (h.goal delta) :=
  ⟨fun hgives hd => hbrk (hgives.refuses.mpr hd),
    fun hnd => ⟨⟨fun hz => absurd hz hbrk, fun hd => absurd hd hnd⟩, fun _ => ⟨htarget, hg⟩⟩⟩

/-- The code looks at the last block only.  So it does what is documented unless the free end is in
several blocks and the break would go into one of them but the last, or just behind the start of
the last. -/
theorem moveBrk_documented (hr : Ready h s bs) {delta : U32} (hneg : delta.toInt < 0) :
    ∃ r h' t, (h.moveBrk delta).run s = .ok ((r, h'), t) ∧
      (Gives h h' s t bs delta r ↔
        h.goal delta = h.brk.toNat ∨ h.goal delta < topAt h.base.toNat (merged bs) ∨
        topAt h.base.toNat (merged bs) < h.goal delta ∧
          h.goal delta < topAt h.base.toNat (merged bs) + 16 ∨
        h.goal delta = topAt h.base.toNat bs ∨ topAt h.base.toNat bs + 16 ≤ h.goal delta) := by
  obtain ⟨r, h', t, bs', hrun, hcase⟩ := moveBrk_run hr.inv delta
  have hbrk := hr.brk_ne_zero
  have htarget : (h.target (pagesOf delta)).toNat = h.goal delta := hr.inv.toNat_target delta
  have hlo : h.base.toNat ≤ h.goal delta := Nat.le_max_left _ _
  have hdoc := documented_iff bs hlo
  have htop := topAt_merged bs h.base.toNat
  have hend := topAt_le h.base.toNat bs
  have hspan := hr.inv.span
  refine ⟨r, h', t, hrun, ?_⟩
  cases hcase with
  | zero hzero =>
    rw [hzero] at hneg
    exact absurd hneg (by decide)
  | up _ hpos =>
    rw [msb_of_neg hneg] at hpos
    cases hpos
  | down _ hs =>
    -- in each case both sides come down to where the goal lies
    cases hs with
    | same heq =>
      rw [heq] at htarget
      refine ⟨fun _ => Or.inl htarget.symm, fun _ => ⟨?_, fun _ => ⟨htarget, ?_⟩⟩⟩
      · rw [hdoc]
        exact ⟨fun hz => absurd hz hbrk, fun hd => absurd hd.1 (by omega)⟩
      · rw [← htarget]
        exact GaveBack.same h s _
    | refused hbs hlt hwhy hu =>
      rename_i xs c
      rw [htarget] at hlt hwhy
      have hgives : Gives h h s t bs delta 0 ↔ h.Documented bs (h.goal delta) :=
        ⟨fun hg => hg.refuses.mp rfl, fun hd => ⟨⟨fun _ => hd, fun _ => rfl⟩,
          fun hnd => absurd hd hnd⟩⟩
      have htopc : c.used = true ∧ topAt h.base.toNat bs = h.brk.toNat ∨
          c.used = false ∧ topAt h.base.toNat bs = h.base.toNat + Blocks.span xs := by
        cases hc : c.used with
        | true => exact Or.inl ⟨rfl, by rw [hbs, topAt_snoc_used _ _ hc, ← hbs, hspan]⟩
        | false => exact Or.inr ⟨rfl, by rw [hbs, topAt_snoc_free _ _ hc]⟩
      simp only [Bool.false_eq_true, if_false]
      rw [hgives, hdoc]
      rcases htopc with ⟨hc, heq⟩ | ⟨hc, heq⟩
      · omega
      · rw [hc] at hwhy
        simp only [Bool.false_eq_true, false_or] at hwhy
        omega
    | cut hbs hc hlt hal hlarge hcut he hg =>
      rename_i xs c n
      have htopc : topAt h.base.toNat bs = h.base.toNat + Blocks.span xs := by
        rw [hbs, topAt_snoc_free _ _ hc]
      rw [htarget] at hlt hcut hg
      rw [if_pos rfl, gives_iff hbrk htarget hg, hdoc]
      omega
    | drop hbs hc hlt hdrop he hg =>
      have htopc : topAt h.base.toNat bs = h.base.toNat + Blocks.span bs' := by
        rw [hbs, topAt_snoc_free _ _ hc]
      rw [htarget] at hlt hdrop hg
      rw [if_pos rfl, gives_iff hbrk htarget hg, hdoc]
      omega

/-! ## Up and back -/

/-- The blocks and the mapped pages are what they were, and the free frames too but for those that
hold page tables now. -/
structure Restored (h : Heap) (s u : Machine) : Prop where
  blocks : ∃ bs, h.Shows s bs ∧ h.Shows u bs
  leaf : ∀ p, p < 1023 * 1024 → u.leaf p = s.leaf p
  frames : ∀ k, k ∈ u.pmm.frames ↔ k ∈ s.pmm.frames ∧ ¬u.IsTable k
  available : u.pmm.available.toNat + (s.pmm.frames \ u.pmm.frames).card = s.pmm.available.toNat

theorem isTable_confined {R D : Set Nat} (hc : Confined R D s t) {k : Nat} (hk : s.IsTable k) :
    t.IsTable k := by
  obtain ⟨i, hi, hp, rfl⟩ := hk
  exact ⟨i, hi, by rw [hc.dir i hi hp]; exact hp, by rw [hc.dir i hi hp]⟩

/-- The frames behind a heap are not free. -/
theorem Ready.not_free (hr : Ready h s bs) {k : Nat} (hk : s.Behind h.range k) :
    k ∉ s.pmm.frames := by
  obtain ⟨p, hp, _, e, he, rfl⟩ := hk
  refine hr.inv.owned.notFree hp.1 ?_ he
  by_contra hge
  rw [hr.isOpen.2 p (Nat.le_of_not_lt hge) hp.2] at he
  cases he

/-- Calls that leave the mapped pages as they were leave the free frames as they were, but for new
tables. -/
theorem Ready.frames_restored (hr : Ready h s bs) (hr' : Ready h t bs')
    (hc : Confined h.range h.window s t) (hleaf : ∀ p, p < 1023 * 1024 → t.leaf p = s.leaf p)
    (k : Nat) : k ∈ t.pmm.frames ↔ k ∈ s.pmm.frames ∧ ¬t.IsTable k := by
  have hmine := hc.mine k
  unfold Mine at hmine
  rw [behind_congr fun p hp _ => hleaf p hp] at hmine
  constructor
  · intro hk
    have hnt := hc.paged.not_isTable hk
    refine ⟨?_, hnt⟩
    rcases hmine.mp (Or.inl hk) with h1 | h1 | h1 | h1
    · exact h1
    · exact absurd (isTable_confined hc h1) hnt
    · exact absurd hk (hr'.inv.spare k h1).1
    · exact absurd hk (hr'.not_free ((behind_congr fun p hp _ => hleaf p hp).mpr h1))
  · rintro ⟨hk, hnt⟩
    rcases hmine.mpr (Or.inl hk) with h1 | h1 | h1 | h1
    · exact h1
    · exact absurd h1 hnt
    · exact absurd hk (hr.inv.spare k h1).1
    · exact absurd hk (hr.not_free h1)

/-- New room at the end is a block of its own or the end of the last block, and it can be taken
away again. -/
theorem extend_eq_snoc {n : Nat} (hal : n % 8 = 0) (hlarge : 16 ≤ n) {xs : List Block} {c : Block}
    (hx : extend bs n hal hlarge = xs ++ [c]) :
    xs = bs ∧ c = room n hal hlarge ∨
      ∃ b, bs = xs ++ [b] ∧ b.used = false ∧ c = grown b n hal := by
  rcases List.eq_nil_or_concat bs with rfl | ⟨ys, b, rfl⟩
  · rw [extend_nil] at hx
    have hnil : [] ++ [room n hal hlarge] = xs ++ [c] := hx
    obtain ⟨rfl, hc⟩ := List.append_inj' hnil rfl
    exact Or.inl ⟨rfl, (List.cons.inj hc).1.symm⟩
  · rw [List.concat_eq_append] at hx ⊢
    cases hb : b.used with
    | true =>
      rw [extend_snoc_used hal hlarge ys hb,
        show ys ++ [b, room n hal hlarge] = (ys ++ [b]) ++ [room n hal hlarge] from by simp] at hx
      obtain ⟨rfl, hc⟩ := List.append_inj' hx rfl
      exact Or.inl ⟨rfl, (List.cons.inj hc).1.symm⟩
    | false =>
      rw [extend_snoc_free hal hlarge ys hb] at hx
      obtain ⟨rfl, hc⟩ := List.append_inj' hx rfl
      exact Or.inr ⟨b, rfl, hb, (List.cons.inj hc).1.symm⟩

/-- Taking the new room away leaves the blocks as they were: `shrink` down to the old break. -/
theorem Shrink.undo {n : Nat} (hal : n % 8 = 0) (hlarge : 16 ≤ n) {target : U32} {ok : Bool}
    (hspan : h.base.toNat + Blocks.span bs = target.toNat)
    (htop : h.brk.toNat = target.toNat + n)
    (hs : Shrink h s (extend bs n hal hlarge) target ok h' t bs') :
    ok = true ∧ h' = { h with brk := target } ∧ bs' = bs ∧
      Effect h h' s t (extend bs n hal hlarge) bs' ∧
      GaveBack h s t (target.toNat / 4096) (h.brk.toNat / 4096) := by
  cases hs with
  | same heq =>
    rw [heq] at htop
    omega
  | refused hbs _ hwhy =>
    rcases extend_eq_snoc hal hlarge hbs with ⟨rfl, rfl⟩ | ⟨b, rfl, hb, rfl⟩
    · rcases hwhy with hused | hwhy
      · cases hused
      · omega
    · have := b.large
      rw [span_append, span_cons, span_nil] at hspan
      rcases hwhy with hused | hwhy
      · rw [show (grown b n hal).used = b.used from rfl, hb] at hused
        cases hused
      · omega
  | cut hbs hc hlt hcal hclarge hcut he hg =>
    rename_i xs c n'
    rcases extend_eq_snoc hal hlarge hbs with ⟨rfl, rfl⟩ | ⟨b, rfl, hb, rfl⟩
    · omega
    · rw [span_append, span_cons, span_nil] at hspan
      rw [show (grown b n hal).size = b.size + n from rfl] at hcut
      obtain rfl : n = n' := by omega
      exact ⟨rfl, rfl, by rw [cut_grown], he, hg⟩
  | drop hbs _ _ hdrop he hg =>
    rcases extend_eq_snoc hal hlarge hbs with ⟨rfl, rfl⟩ | ⟨b, rfl, hb, rfl⟩
    · exact ⟨rfl, rfl, rfl, he, hg⟩
    · rw [span_append, span_cons, span_nil] at hspan
      omega

/-- A break that moved up by all the pages moves back, and everything is as it was. -/
theorem moveBrk_back (hr : Ready h s bs) (hcount : s.pmm.Counted) {delta : U32}
    (hpos : 0 < delta.toInt) :
    ∃ r h' t, (h.moveBrk delta).run s = .ok ((r, h'), t) ∧
      (h'.brk.toNat = h.brk.toNat + 4096 * pages delta →
        ∃ r' u, (h'.moveBrk (-delta)).run t = .ok ((r', h), u) ∧ r' ≠ 0 ∧ Restored h s u) := by
  obtain ⟨r, h', t, bs', hrun, hcase⟩ := moveBrk_run hr.inv delta
  have hpages : 0 < pages delta := by
    rw [pages]
    omega
  refine ⟨r, h', t, hrun, fun hfull => ?_⟩
  cases hcase with
  | zero hzero =>
    rw [hzero] at hpos
    exact absurd hpos (by decide)
  | down hneg =>
    rw [msb_of_pos hpos] at hneg
    cases hneg
  | up _ _ hg =>
    cases hg with
    | refused => omega
    | grew hal hlarge htop hm he hleaf hcost =>
      rename_i m top
      have hr1 := hr.effect he
      have hback : (-delta).toInt < 0 := by
        rw [toInt_neg_delta hpos]
        omega
      obtain ⟨r', h2, u, bs2, hrun2, hcase2⟩ := moveBrk_run hr1.inv (-delta)
      cases hcase2 with
      | zero hzero =>
        rw [hzero] at hback
        exact absurd hback (by decide)
      | up _ hpos' =>
        rw [msb_of_neg hback] at hpos'
        cases hpos'
      | down _ hs =>
        -- the way back ends at the old break
        have htarget : Heap.target { h with brk := top } (pagesOf (-delta)) = h.brk := by
          apply BitVec.eq_of_toNat_eq
          rw [hr1.inv.toNat_target, toInt_neg_delta hpos, Int.natAbs_neg]
          have hle := hr.inv.base_le
          rw [pages] at hfull
          dsimp only at hfull ⊢
          omega
        rw [htarget] at hs
        obtain ⟨rfl, rfl, rfl, he2, hgave⟩ :=
          Shrink.undo (h := { h with brk := top }) hal hlarge hr.inv.span htop hs
        have hr2 := hr1.effect he2
        have hconf : Confined h.range h.window s u := by
          have hc := he2.confined
          rw [he.range, he.window] at hc
          exact he.confined.trans hc
        have hleaf' : ∀ p, p < 1023 * 1024 → u.leaf p = s.leaf p := fun p hp => by
          rw [hgave.leaf p hp]
          split
          · rename_i hin
            have hlim : top.toNat ≤ h.limit.toNat := he.inv.brk_le
            have hlt : p < top.toNat / 4096 := hin.2
            exact (hr.isOpen.2 p hin.1 (by omega)).symm
          · rename_i hout
            exact hleaf p hp hout
        have hframes := hr.frames_restored hr2 hconf hleaf'
        refine ⟨top, u, hrun2, hr1.brk_ne_zero, ⟨_, hr.inv.shows, hr2.inv.shows⟩, hleaf', hframes,
          ?_⟩
        rw [hconf.counted hcount, hcount]
        have hsub : u.pmm.frames ⊆ s.pmm.frames := fun k hk => ((hframes k).mp hk).1
        rw [Nat.add_comm, Finset.card_sdiff_add_card_eq_card hsub]

/-! ## `free` -/

/-- A free of a live pointer clears the flag of its block, and not one bit more; any other free
changes nothing. -/
structure FreeExact (c : Client) (s t : Machine) (p : U32) : Prop where
  live : (∃ a ∈ c.live, a.pointer = p) → ∃ xs b ys e, c.heap.Shows s (xs ++ b :: ys) ∧
    p.toNat = c.heap.base.toNat + Blocks.span xs + 8 ∧ b.used = true ∧
    s.leaf ((p.toNat - 4) / 4096) = some e ∧
    t = { s with mem := s.mem.write32 (4096 * frameNo e + (p.toNat - 4) % 4096) 0 } ∧
    c.heap.Shows t (xs ++ b.setUsed false :: ys)
  other : (∀ a ∈ c.live, a.pointer ≠ p) → Untouched s t

theorem free_exact {c : Client} (hc : c.Ok s bs) (p : U32) :
    ∃ t, (c.heap.free p).run s = .ok ((), t) ∧ FreeExact c s t p := by
  obtain ⟨t, bs', hrun, hcase⟩ := free_run hc.inv p
  refine ⟨t, hrun, ?_⟩
  cases hcase with
  | done hbs hb hp hleaf he =>
    rename_i xs ys b e
    refine ⟨fun _ => ⟨xs, b, ys, e, hbs ▸ hc.inv.shows, hp, hb, hleaf, rfl, he.inv.shows⟩,
      fun hne => ?_⟩
    -- the block is that of an allocation
    have hq : (c.heap.base.toNat + Blocks.span xs, b.size) ∈ Blocks.usedAt c.heap.base.toNat bs :=
      mem_usedAt.mpr ⟨xs, b, ys, hbs, rfl, hb, rfl⟩
    obtain ⟨a, ha, hblock⟩ := List.mem_map.mp (hc.held.mem_iff.mp hq)
    have h8 := (hc.asked a ha).1
    have hstart := congrArg Prod.fst hblock
    rw [Live.block] at hstart
    dsimp only at hstart
    exact absurd (BitVec.eq_of_toNat_eq (by omega)) (hne a ha)
  | refused hne hu =>
    refine ⟨?_, fun _ => hu⟩
    rintro ⟨a, ha, rfl⟩
    have h8 := (hc.asked a ha).1
    exact absurd (Nat.sub_add_cancel h8) (hne _ _ (hc.mem ha))

end Kfs.Heap
