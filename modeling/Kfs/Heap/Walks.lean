import Kfs.Heap.Memory

/-!
# The walks over the blocks

Each loop of `heap.rs` over the headers, against the list operation it computes.  The memory of the
heap is a `View`, and `Ahead` says where a walk stands: at the header of a block, with the others in
front of it up to the end of the range.

The loops that write are `mergeFrom` and `firstFitFrom`.  They write headers of free blocks only:
`Searched` says that every byte of a block in use, header and payload, stays.
-/

namespace Kfs.Heap

open Lib Mem Machine Blocks

variable {lo hi : Nat} {w : ByteMem} {s : Machine}

/-- The walk stands at a block that the range has room for. -/
theorem step_bounds {bs : List Block} {b : Block} {a finish : Nat}
    (h : a + span (b :: bs) = finish) : a + 16 ≤ finish ∧ a + (8 + b.size) + span bs = finish := by
  have := b.large
  rw [span_cons] at h
  omega

theorem ofNat_toNat_eq {x : U32} {n : Nat} (h : x.toNat = n) : x = BitVec.ofNat 32 n := by
  rw [← h, BitVec.ofNat_toNat, BitVec.setWidth_eq]

/-! ## Where a walk stands -/

/-- The walk stands at `block`.  The headers of `bs` are in front of it, one block right after the
other, and the last one ends at `finish`. -/
structure Ahead (lo : Nat) (w : ByteMem) (finish block : U32) (bs : List Block) : Prop where
  aligned : block.toNat % 8 = 0
  low : 4096 * lo ≤ block.toNat
  tiles : Tiles w block.toNat bs
  stop : block.toNat + span bs = finish.toNat

namespace Ahead

variable {finish block : U32} {b : Block} {bs : List Block}

/-- The number of blocks stays below the number of passes. -/
theorem length_lt (h : Ahead lo w finish block bs) : bs.length < PASSES := by
  have hlen := length_le_span bs
  have hstop := h.stop
  have hlt := finish.isLt
  show bs.length < 2 ^ 32
  omega

/-- No block is left, and the loops end. -/
theorem past (h : Ahead lo w finish block []) (hv : View lo hi w s)
    (hfin : finish.toNat ≤ 4096 * hi) : ¬block + HEADER ≤ finish := by
  have hle := hv.owned.hi_le
  have hstop := h.stop
  rw [span_nil, Nat.add_zero] at hstop
  bv_omega

theorem inside (h : Ahead lo w finish block (b :: bs)) : block + HEADER ≤ finish := by
  have h16 := (step_bounds h.stop).1
  bv_omega

/-- Moving on by one block does not wrap. -/
theorem toNat_next (h : Ahead lo w finish block (b :: bs)) :
    (block + (HEADER + BitVec.ofNat 32 b.size)).toNat = block.toNat + (8 + b.size) := by
  have hrest := (step_bounds h.stop).2
  have hlt := finish.isLt
  rw [BitVec.toNat_add, BitVec.toNat_add, BitVec.toNat_ofNat, show HEADER.toNat = 8 from rfl]
  omega

theorem next (h : Ahead lo w finish block (b :: bs)) :
    Ahead lo w finish (block + (HEADER + BitVec.ofNat 32 b.size)) bs := by
  have hal := h.aligned
  have hlo := h.low
  have hb := b.aligned
  constructor <;> rw [h.toNat_next]
  · omega
  · omega
  · exact h.tiles.2
  · exact (step_bounds h.stop).2

theorem size (h : Ahead lo w finish block (b :: bs)) (hv : View lo hi w s)
    (hfin : finish.toNat ≤ 4096 * hi) :
    (sizeAt block).run s = .ok (BitVec.ofNat 32 b.size, s) := by
  have h16 := (step_bounds h.stop).1
  exact run_sizeAt hv h.aligned h.low (by omega) h.tiles.1

theorem used (h : Ahead lo w finish block (b :: bs)) (hv : View lo hi w s)
    (hfin : finish.toNat ≤ 4096 * hi) : (usedAt block).run s = .ok (b.used, s) := by
  have h16 := (step_bounds h.stop).1
  exact run_usedAt hv h.aligned h.low (by omega) h.tiles.1

/-- The block takes in the one behind it: its header is written again. -/
theorem join {c : Block} (h : Ahead lo w finish block (b :: c :: bs)) (hb : b.used = false) :
    Ahead lo (putHeader w block.toNat (BitVec.ofNat 32 (b.join c).size) false) finish block
      (b.join c :: bs) := by
  have hstop := h.stop
  have hsize : (b.join c).size = b.size + (8 + c.size) := rfl
  have hhead := header_putHeader w block.toNat (b.join c)
  rw [show (b.join c).used = false from hb] at hhead
  refine ⟨h.aligned, h.low, ⟨hhead, ?_⟩, ?_⟩
  · have htail := h.tiles.2.2
    rw [show block.toNat + (8 + b.size) + (8 + c.size) = block.toNat + (8 + (b.join c).size)
      from by omega] at htail
    refine tiles_congr (fun p hp => ?_) htail
    have := hp.bounds
    exact putHeader_other w _ _ (by omega)
  · rw [span_cons, span_cons] at hstop
    rw [span_cons]
    omega

end Ahead

/-! ## Loops that read -/

theorem run_lastFrom (hv : View lo hi w s) {finish : U32} (hfin : finish.toNat ≤ 4096 * hi)
    (bs : List Block) : ∀ (fuel : Nat) (block : U32) (last : Option Nat), bs.length < fuel →
      Ahead lo w finish block bs →
      (lastFrom finish fuel block (last.map (BitVec.ofNat 32))).run s
        = .ok ((lastAt last block.toNat bs).map (BitVec.ofNat 32), s) := by
  induction bs with
  | nil =>
    intro fuel block last hfuel h
    cases fuel with
    | zero => omega
    | succ fuel =>
      rw [lastFrom, if_neg (h.past hv hfin)]
      rfl
  | cons b bs ih =>
    intro fuel block last hfuel h
    cases fuel with
    | zero => omega
    | succ fuel =>
      have hrec := ih fuel _ (some block.toNat) (by rw [List.length_cons] at hfuel; omega) h.next
      rw [Option.map_some, ← ofNat_toNat_eq rfl, h.toNat_next] at hrec
      rw [lastFrom, if_pos h.inside, Prog.bind_ok (h.size hv hfin), hrec]
      rfl

theorem run_lastBlock (hv : View lo hi w s) (h : Heap) {finish : U32}
    (hfin : finish.toNat ≤ 4096 * hi) {bs : List Block} (hahead : Ahead lo w finish h.base bs) :
    (h.lastBlock finish).run s = .ok ((lastAt none h.base.toNat bs).map (BitVec.ofNat 32), s) :=
  run_lastFrom hv hfin bs PASSES h.base none hahead.length_lt hahead

theorem run_findFrom {h : Heap} (hv : View lo hi w s) (hbrk : h.brk.toNat ≤ 4096 * hi)
    (payload : U32) (bs : List Block) : ∀ (fuel : Nat) (block : U32), bs.length < fuel →
      Ahead lo w h.brk block bs →
      (findFrom h payload fuel block).run s
        = .ok ((lookup payload.toNat block.toNat bs).map (BitVec.ofNat 32), s) := by
  induction bs with
  | nil =>
    intro fuel block hfuel hahead
    cases fuel with
    | zero => omega
    | succ fuel =>
      rw [findFrom, if_neg (hahead.past hv hbrk)]
      rfl
  | cons b bs ih =>
    intro fuel block hfuel hahead
    cases fuel with
    | zero => omega
    | succ fuel =>
      have h16 := (step_bounds hahead.stop).1
      have hadd : (block + HEADER).toNat = block.toNat + 8 := by bv_omega
      rw [findFrom, if_pos hahead.inside, lookup]
      by_cases hp : block + HEADER = payload
      · rw [if_pos hp, if_pos (by rw [← hp, hadd]), Option.map_some, ← ofNat_toNat_eq rfl]
        rfl
      · have hne : ¬block.toNat + 8 = payload.toNat := fun heq =>
          hp (BitVec.eq_of_toNat_eq (by rw [hadd, heq]))
        rw [if_neg hp, if_neg hne, Prog.bind_ok (hahead.size hv hbrk),
          ih fuel _ (by rw [List.length_cons] at hfuel; omega) hahead.next, hahead.toNat_next]

theorem run_findBlock {h : Heap} (hv : View lo hi w s) (hbrk : h.brk.toNat ≤ 4096 * hi)
    (payload : U32) {bs : List Block} (hahead : Ahead lo w h.brk h.base bs) :
    (h.findBlock payload).run s
      = .ok ((lookup payload.toNat h.base.toNat bs).map (BitVec.ofNat 32), s) :=
  run_findFrom hv hbrk payload bs PASSES h.base hahead.length_lt hahead

/-! ## The search -/

/-- The inner loop of `first_fit` writes one header, the one of the block that takes the others
in. -/
theorem run_mergeFrom {h : Heap} {block : U32} (hbrk : h.brk.toNat ≤ 4096 * hi)
    (bs : List Block) : ∀ (fuel : Nat) (b : Block) {w : ByteMem} {s : Machine}, View lo hi w s →
      bs.length < fuel → b.used = false → Ahead lo w h.brk block (b :: bs) →
      ∃ t w', (mergeFrom h block fuel (BitVec.ofNat 32 b.size)).run s
          = .ok (BitVec.ofNat 32 (absorb b bs).1.size, t) ∧
        Wrote lo hi s t ∧ View lo hi w' t ∧
        Ahead lo w' h.brk block ((absorb b bs).1 :: (absorb b bs).2) ∧
        ∀ p, p < block.toNat ∨ block.toNat + 8 ≤ p → w' p = w p := by
  induction bs with
  | nil =>
    intro fuel b w s hv hfuel _ hahead
    cases fuel with
    | zero => omega
    | succ fuel =>
      refine ⟨s, w, ?_, .refl s, hv, hahead, fun _ _ => rfl⟩
      have hpast := hahead.next.past hv hbrk
      rw [mergeFrom, BitVec.add_assoc block, if_pos (BitVec.not_le.mp hpast)]
      rfl
  | cons c bs ih =>
    intro fuel b w s hv hfuel hb hahead
    cases fuel with
    | zero => omega
    | succ fuel =>
      have hin := hahead.next.inside
      have hused := hahead.next.used hv hbrk
      rw [mergeFrom, BitVec.add_assoc block, if_neg (BitVec.not_lt.mpr hin), Prog.bind_ok hused]
      cases hc : c.used with
      | true =>
        rw [absorb, if_pos hc]
        exact ⟨s, w, rfl, .refl s, hv, hahead, fun _ _ => rfl⟩
      | false =>
        have hsize : BitVec.ofNat 32 b.size + (HEADER + BitVec.ofNat 32 c.size)
            = BitVec.ofNat 32 (b.join c).size := by
          show _ = BitVec.ofNat 32 (b.size + (8 + c.size))
          rw [BitVec.ofNat_add, BitVec.ofNat_add]
          rfl
        have h16 := (step_bounds hahead.stop).1
        obtain ⟨u, hwrite, hwrote, hview⟩ := run_writeHeader hv block
          (BitVec.ofNat 32 (b.join c).size) false hahead.aligned hahead.low (by omega)
        obtain ⟨t, w', hrun, hwrote', hview', hahead', hkeep⟩ := ih fuel (b.join c) hview
          (by rw [List.length_cons] at hfuel; omega) hb (hahead.join hb)
        have habsorb : absorb b (c :: bs) = absorb (b.join c) bs := by
          rw [absorb, if_neg (by rw [hc]; decide)]
        rw [if_neg (by decide), Prog.bind_ok (hahead.next.size hv hbrk), habsorb]
        dsimp only
        rw [hsize, Prog.bind_ok hwrite, hrun]
        refine ⟨t, w', rfl, hwrote.trans hwrote' hv.paged hv.owned, hview', hahead',
          fun p hp => ?_⟩
        rw [hkeep p hp]
        exact putHeader_other w _ _ hp

theorem ofNat_ge_iff {n : Nat} {need : U32} (hn : n < 2 ^ 32) :
    BitVec.ofNat 32 n ≥ need ↔ need.toNat ≤ n := by
  rw [ge_iff_le, BitVec.le_def, BitVec.toNat_ofNat, Nat.mod_eq_of_lt hn]

/-- What a search from `block` leaves: the blocks as the search of the list has them, and every byte
below `block` and of a block in use. -/
structure Searched (lo hi need : Nat) (block : U32) (bs : List Block) (w : ByteMem) (s : Machine)
    (w' : ByteMem) (t : Machine) : Prop where
  wrote : Wrote lo hi s t
  view : View lo hi w' t
  tiles : Tiles w' block.toNat (fit need block.toNat bs).2
  below : ∀ p, p < block.toNat → w' p = w p
  used : ∀ q size, (q, size) ∈ Blocks.usedAt block.toNat bs →
    ∀ p, q ≤ p → p < q + 8 + size → w' p = w p

section Searched

variable {finish block : U32} {b : Block} {bs : List Block} {need : Nat} {w' : ByteMem}
  {t : Machine}

/-- A block in use is passed over. -/
theorem Searched.pass (hahead : Ahead lo w finish block (b :: bs)) (hb : b.used = true)
    (h : Searched lo hi need (block + (HEADER + BitVec.ofNat 32 b.size)) bs w s w' t) :
    Searched lo hi need block (b :: bs) w s w' t := by
  obtain ⟨hwrote, hview, htiles, hbelow, hused⟩ := h
  rw [hahead.toNat_next] at htiles hbelow hused
  refine ⟨hwrote, hview, ?_, fun p hp => hbelow p (by omega), fun q size hq p h1 h2 => ?_⟩
  · rw [fit_used hb]
    exact ⟨header_congr (fun p _ h2 => hbelow p (by omega)) hahead.tiles.1, htiles⟩
  · rw [usedAt_used hb] at hq
    rcases List.mem_cons.mp hq with hq | hq
    · cases hq
      exact hbelow p (by omega)
    · exact hused q size hq p h1 h2

/-- A block in use lies behind the header of a free block that is written. -/
theorem used_behind (hb : b.used = false)
    (hkeep : ∀ p, p < block.toNat ∨ block.toNat + 8 ≤ p → w' p = w p) :
    ∀ q size, (q, size) ∈ Blocks.usedAt block.toNat (b :: bs) → ∀ p, q ≤ p → w' p = w p := by
  intro q size hq p hp
  rw [usedAt_free hb] at hq
  have := (usedAt_bounds hq).1
  exact hkeep p (by omega)

/-- The free block is large enough once it has taken in those behind it. -/
theorem Searched.found (hb : b.used = false) (hneed : need ≤ (absorb b bs).1.size)
    (hwrote : Wrote lo hi s t) (hview : View lo hi w' t)
    (hahead : Ahead lo w' finish block ((absorb b bs).1 :: (absorb b bs).2))
    (hkeep : ∀ p, p < block.toNat ∨ block.toNat + 8 ≤ p → w' p = w p) :
    Searched lo hi need block (b :: bs) w s w' t := by
  refine ⟨hwrote, hview, ?_, fun p hp => hkeep p (Or.inl hp),
    fun q size hq p h1 _ => used_behind hb hkeep q size hq p h1⟩
  rw [fit_found hb hneed]
  exact hahead.tiles

/-- It is not, and the search goes on behind all of them. -/
theorem Searched.small {u : Machine} {w1 : ByteMem} (hb : b.used = false)
    (hneed : ¬need ≤ (absorb b bs).1.size) (hv : View lo hi w s) (hwrote : Wrote lo hi s u)
    (hahead : Ahead lo w1 finish block ((absorb b bs).1 :: (absorb b bs).2))
    (hkeep : ∀ p, p < block.toNat ∨ block.toNat + 8 ≤ p → w1 p = w p)
    (h : Searched lo hi need (block + (HEADER + BitVec.ofNat 32 (absorb b bs).1.size))
      (absorb b bs).2 w1 u w' t) :
    Searched lo hi need block (b :: bs) w s w' t := by
  obtain ⟨hwrote', hview, htiles, hbelow, hused⟩ := h
  rw [hahead.toNat_next] at htiles hbelow hused
  refine ⟨hwrote.trans hwrote' hv.paged hv.owned, hview, ?_, fun p hp => ?_,
    fun q size hq p h1 h2 => ?_⟩
  · rw [fit_small hb hneed]
    exact ⟨header_congr (fun p _ h2 => hbelow p (by omega)) hahead.tiles.1, htiles⟩
  · rw [hbelow p (by omega), hkeep p (Or.inl hp)]
  · rw [← used_behind hb hkeep q size hq p h1]
    rw [← usedAt_absorb bs block.toNat hb, usedAt_free ((used_absorb bs b).trans hb)] at hq
    exact hused q size hq p h1 h2

end Searched

/-- No block is left to look at. -/
theorem run_firstFit_nil (h : Heap) (need : U32) (hbrk : h.brk.toNat ≤ 4096 * hi)
    (hv : View lo hi w s) {fuel : Nat} (hfuel : 0 < fuel) {block : U32}
    (hahead : Ahead lo w h.brk block []) :
    ∃ t w', (firstFitFrom h need fuel block).run s
        = .ok ((fit need.toNat block.toNat []).1.map (BitVec.ofNat 32), t) ∧
      Searched lo hi need.toNat block [] w s w' t := by
  obtain ⟨fuel, rfl⟩ : ∃ n, fuel = n + 1 := ⟨fuel - 1, by omega⟩
  refine ⟨s, w, ?_, .refl s, hv, ?_, fun _ _ => rfl, fun _ _ _ _ _ _ => rfl⟩
  · rw [firstFitFrom, if_neg (hahead.past hv hbrk), fit]
    rfl
  · rw [fit]
    trivial

/-- `first_fit` is the search of the list.  It changes no byte of a block in use. -/
theorem run_firstFitFrom (h : Heap) (need : U32) (hbrk : h.brk.toNat ≤ 4096 * hi) (n : Nat) :
    ∀ (bs : List Block) (fuel : Nat) (block : U32) {w : ByteMem} {s : Machine}, View lo hi w s →
      bs.length ≤ n → bs.length < fuel → Ahead lo w h.brk block bs →
      ∃ t w', (firstFitFrom h need fuel block).run s
          = .ok ((fit need.toNat block.toNat bs).1.map (BitVec.ofNat 32), t) ∧
        Searched lo hi need.toNat block bs w s w' t := by
  -- the walk skips the blocks it takes in, so the induction is on the length
  induction n with
  | zero =>
    intro bs fuel block w s hv hn hfuel hahead
    obtain rfl := List.length_eq_zero_iff.mp (Nat.le_zero.mp hn)
    exact run_firstFit_nil h need hbrk hv hfuel hahead
  | succ n ih =>
    intro bs fuel block w s hv hn hfuel hahead
    cases bs with
    | nil => exact run_firstFit_nil h need hbrk hv hfuel hahead
    | cons b bs =>
      rw [List.length_cons] at hn hfuel
      obtain ⟨fuel, rfl⟩ : ∃ n, fuel = n + 1 := ⟨fuel - 1, by omega⟩
      rw [firstFitFrom, if_pos hahead.inside, Prog.bind_ok (hahead.size hv hbrk),
        Prog.bind_ok (hahead.used hv hbrk)]
      cases hb : b.used with
      | true =>
        obtain ⟨t, w', hrun, hsearched⟩ := ih bs fuel _ hv (by omega) (by omega) hahead.next
        refine ⟨t, w', ?_, hsearched.pass hahead hb⟩
        rw [if_pos rfl, hrun, fit_used hb, hahead.toNat_next]
      | false =>
        have hlen := hahead.length_lt
        rw [List.length_cons] at hlen
        obtain ⟨u, w1, hmerge, hwrote, hview, hahead1, hkeep⟩ :=
          run_mergeFrom hbrk bs PASSES b hv (by omega) hb hahead
        have hsmall : (absorb b bs).1.size < 2 ^ 32 := by
          have := (step_bounds hahead1.stop).2
          have := h.brk.isLt
          omega
        rw [if_neg (by decide), Prog.bind_ok hmerge]
        by_cases hneed : need.toNat ≤ (absorb b bs).1.size
        · refine ⟨u, w1, ?_, .found hb hneed hwrote hview hahead1 hkeep⟩
          rw [if_pos ((ofNat_ge_iff hsmall).mpr hneed), fit_found hb hneed, Option.map_some,
            ← ofNat_toNat_eq rfl]
          rfl
        · have hlen' := length_absorb bs b
          obtain ⟨t, w', hrun, hsearched⟩ :=
            ih (absorb b bs).2 fuel _ hview (by omega) (by omega) hahead1.next
          refine ⟨t, w', ?_, .small hb hneed hv hwrote hahead1 hkeep hsearched⟩
          rw [if_neg (fun hge => hneed ((ofNat_ge_iff hsmall).mp hge)), hrun, fit_small hb hneed,
            hahead1.toNat_next]

/-- The two headers of a block that is split. -/
theorem tiles_take_split {w : ByteMem} {xs ys : List Block} {m : Block} {a : Nat} {need : U32}
    (htiles : Tiles w a (xs ++ [m] ++ ys)) (hnal : need.toNat % 8 = 0) (hnlarge : 8 ≤ need.toNat)
    (hbig : need.toNat + 16 ≤ m.size) :
    Tiles (putHeader (putHeader w (a + span xs) need true) (a + span xs + (8 + need.toNat))
      (BitVec.ofNat 32 (m.size - need.toNat - 8)) false) a
      (xs ++ split m need.toNat hnal hnlarge ++ ys) := by
  refine tiles_splice htiles (by simp [span_split]) ?_ fun p hp => ?_
  · unfold split
    rw [dif_pos hbig]
    refine ⟨header_congr (fun p h1 h2 => putHeader_other _ _ _ (by omega)) ?_, ?_, trivial⟩
    · have h := header_putHeader w (a + span xs) ⟨need.toNat, true, hnal, hnlarge⟩
      rw [show BitVec.ofNat 32 need.toNat = need from (ofNat_toNat_eq rfl).symm] at h
      exact h
    · exact header_putHeader _ _ ⟨m.size - need.toNat - 8, false, _, _⟩
  · simp only [span_cons, span_nil, Nat.add_zero] at hp
    rw [putHeader_other _ _ _ (by omega), putHeader_other _ _ _ (by omega)]

/-- The header of a block that is taken whole. -/
theorem tiles_take_whole {w : ByteMem} {xs ys : List Block} {m : Block} {a n : Nat}
    (htiles : Tiles w a (xs ++ [m] ++ ys)) (hnal : n % 8 = 0) (hnlarge : 8 ≤ n)
    (hbig : ¬n + 16 ≤ m.size) :
    Tiles (putHeader w (a + span xs) (BitVec.ofNat 32 m.size) true) a
      (xs ++ split m n hnal hnlarge ++ ys) := by
  refine tiles_splice htiles (by simp [span_split]) ?_ fun p hp => ?_
  · unfold split
    rw [dif_neg hbig]
    exact ⟨header_putHeader w _ (m.setUsed true), trivial⟩
  · simp only [span_cons, span_nil, Nat.add_zero] at hp
    exact putHeader_other _ _ _ (by omega)

theorem run_take (hv : View lo hi w s) {xs ys : List Block} {m : Block} {a : Nat} {need : U32}
    (hal : a % 8 = 0) (hlo : 4096 * lo ≤ a) (htiles : Tiles w a (xs ++ m :: ys))
    (hfin : a + span (xs ++ m :: ys) ≤ 4096 * hi) (hneed : need.toNat ≤ m.size)
    (hnal : need.toNat % 8 = 0) (hnlarge : 8 ≤ need.toNat) :
    ∃ t w', (take (BitVec.ofNat 32 (a + span xs)) need).run s
        = .ok (BitVec.ofNat 32 (a + span xs + 8), t) ∧
      Wrote lo hi s t ∧ View lo hi w' t ∧
      Tiles w' a (xs ++ split m need.toNat hnal hnlarge ++ ys) ∧
      ∀ p, p < a + span xs ∨ a + span xs + (8 + m.size) ≤ p → w' p = w p := by
  have hle := hv.owned.hi_le
  rw [span_append, span_cons] at hfin
  have hblock : (BitVec.ofNat 32 (a + span xs)).toNat = a + span xs := by
    rw [BitVec.toNat_ofNat]
    omega
  have hbal : (BitVec.ofNat 32 (a + span xs)).toNat % 8 = 0 := by
    have := span_mod xs
    omega
  have hhead := tiles_header htiles
  rw [← hblock] at hhead
  have hsize := run_sizeAt hv hbal (by omega) (by omega) hhead
  have hret : BitVec.ofNat 32 (a + span xs) + HEADER = BitVec.ofNat 32 (a + span xs + 8) := by
    rw [BitVec.ofNat_add (a + span xs) 8]
    rfl
  have hmsize : (BitVec.ofNat 32 m.size).toNat = m.size := by
    rw [BitVec.toNat_ofNat]
    omega
  have hsum : (need + HEADER + SMALLEST).toNat = need.toNat + 16 := by bv_omega
  have hmid : xs ++ m :: ys = xs ++ [m] ++ ys := by simp
  rw [hmid] at htiles
  by_cases hbig : need.toNat + 16 ≤ m.size
  · -- the block is split: two headers
    have hge : BitVec.ofNat 32 m.size ≥ need + HEADER + SMALLEST :=
      (ofNat_ge_iff (by omega)).mpr (by rw [hsum]; exact hbig)
    have hsecond : (BitVec.ofNat 32 (a + span xs) + HEADER + need).toNat
        = a + span xs + (8 + need.toNat) := by bv_omega
    have hleft : BitVec.ofNat 32 m.size - need - HEADER
        = BitVec.ofNat 32 (m.size - need.toNat - 8) := by
      apply BitVec.eq_of_toNat_eq
      rw [BitVec.toNat_ofNat]
      bv_omega
    obtain ⟨u, hrun1, hwrote1, hview1⟩ :=
      run_writeHeader hv _ need true hbal (by omega) (by omega)
    obtain ⟨t, hrun2, hwrote2, hview2⟩ := run_writeHeader hview1
      (BitVec.ofNat 32 (a + span xs) + HEADER + need)
      (BitVec.ofNat 32 (m.size - need.toNat - 8)) false (by omega) (by omega) (by omega)
    rw [hblock, hsecond] at hview2
    refine ⟨t, _, ?_, hwrote1.trans hwrote2 hv.paged hv.owned, hview2,
      tiles_take_split htiles hnal hnlarge hbig, fun p hp => ?_⟩
    · rw [take, Prog.bind_ok hsize, if_pos hge, Prog.bind_ok hrun1, hleft, Prog.bind_ok hrun2,
        Prog.run_pure, hret]
    · rw [putHeader_other _ _ _ (by omega), putHeader_other _ _ _ (by omega)]
  · -- the whole block is taken: one header
    have hge : ¬BitVec.ofNat 32 m.size ≥ need + HEADER + SMALLEST := fun h =>
      hbig (by rw [← hsum]; exact (ofNat_ge_iff (by omega)).mp h)
    obtain ⟨t, hrun, hwrote, hview⟩ :=
      run_writeHeader hv _ (BitVec.ofNat 32 m.size) true hbal (by omega) (by omega)
    rw [hblock] at hview
    refine ⟨t, _, ?_, hwrote, hview, tiles_take_whole htiles hnal hnlarge hbig, fun p hp => ?_⟩
    · rw [take, Prog.bind_ok hsize, if_neg hge, Prog.bind_ok hrun, Prog.run_pure, hret]
    · exact putHeader_other _ _ _ (by omega)

end Kfs.Heap
