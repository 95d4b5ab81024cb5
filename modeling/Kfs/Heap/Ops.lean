import Kfs.Lib.Merge
import Kfs.Heap.Shrink

/-!
# The operations of a heap

The runs of `alloc`, `free`, `size`, `brk` and `stats` on a heap in the state `Inv`.  None of them
faults or runs for ever.  The outcomes of an operation are the constructors of a relation: `Freed`,
`Alloc` and `Move`.  Every outcome has an `Effect`, and what it does to the blocks in use is said by
the list `usedAt`: `alloc` adds at most one block, `free` takes out at most one, and `brk` keeps the
list.
-/

namespace Kfs.Heap

open Lib Mem Paging Machine Blocks

variable {h : Heap} {s t u : Machine} {bs bs' : List Block}

/-! ## `free` and `size` -/

theorem Inv.run_findBlock (hi : Inv h s bs) (p : U32) :
    (h.findBlock p).run s
      = .ok ((lookup p.toNat h.base.toNat bs).map (BitVec.ofNat 32), s) := by
  exact Heap.run_findBlock hi.view (Nat.le_of_eq hi.pages.2.symm) p hi.ahead

/-- The header of a block of the heap, as the source reads and writes it. -/
theorem Inv.block (hi : Inv h s bs) {xs ys : List Block} {b : Block} (hbs : bs = xs ++ b :: ys) :
    (BitVec.ofNat 32 (h.base.toNat + Blocks.span xs)).toNat = h.base.toNat + Blocks.span xs ∧
      (sizeAt (BitVec.ofNat 32 (h.base.toNat + Blocks.span xs))).run s
        = .ok (BitVec.ofNat 32 b.size, s) ∧
      (usedAt (BitVec.ofNat 32 (h.base.toNat + Blocks.span xs))).run s = .ok (b.used, s) ∧
      ∀ (size : U32) (used : Bool), ∃ t,
        (writeHeader (BitVec.ofNat 32 (h.base.toNat + Blocks.span xs)) size used).run s
          = .ok ((), t) ∧ Wrote (h.base.toNat / 4096) (h.brk.toNat / 4096) s t ∧
        View (h.base.toNat / 4096) (h.brk.toNat / 4096)
          (putHeader s.virt (h.base.toNat + Blocks.span xs) size used) t := by
  obtain ⟨hbase, hbrk⟩ := hi.pages
  have hspan := hi.span
  have hal := hi.placed.base_aligned
  have hmod := span_mod xs
  have hle := hi.owned.hi_le
  rw [hbs, span_append, span_cons] at hspan
  have hblock : (BitVec.ofNat 32 (h.base.toNat + Blocks.span xs)).toNat
      = h.base.toNat + Blocks.span xs := by
    rw [BitVec.toNat_ofNat]
    omega
  have hhead := tiles_header (hbs ▸ hi.tiles)
  rw [← hblock] at hhead
  refine ⟨hblock, run_sizeAt hi.view (by omega) (by omega) (by omega) hhead,
    run_usedAt hi.view (by omega) (by omega) (by omega) hhead, fun size used => ?_⟩
  have hwrite := run_writeHeader hi.view (BitVec.ofNat 32 (h.base.toNat + Blocks.span xs))
    size used (by omega) (by omega) (by omega)
  rw [hblock] at hwrite
  exact hwrite

/-- Clearing the flag of a block in use. -/
theorem Inv.free_effect (hi : Inv h s bs) {xs ys : List Block} {b : Block}
    (hbs : bs = xs ++ b :: ys)
    (hw : Wrote (h.base.toNat / 4096) (h.brk.toNat / 4096) s t)
    (hv : View (h.base.toNat / 4096) (h.brk.toNat / 4096)
      (putHeader s.virt (h.base.toNat + Blocks.span xs) (BitVec.ofNat 32 b.size) false) t) :
    Effect h h s t bs (xs ++ b.setUsed false :: ys) := by
  obtain ⟨hbase, hbrk⟩ := hi.pages
  have hspan := hi.span
  have hsame : Blocks.span (xs ++ b.setUsed false :: ys) = Blocks.span bs := by
    rw [hbs, span_append, span_append]
    rfl
  refine .wrote hi hw ?_ hsame fun q n hq p h1 h2 => ?_
  · refine hv.tiles (by omega) (by omega) ?_
    have htiles := hi.tiles
    rw [hbs, List.append_cons] at htiles
    rw [List.append_cons]
    refine tiles_splice htiles rfl ⟨header_putHeader s.virt _ (b.setUsed false), trivial⟩
      fun p hp => putHeader_other _ _ _ ?_
    rw [span_cons, span_nil] at hp
    omega
  · have hb := usedAt_bounds hq
    have hbyte := usedAt_payload hq h1 h2
    rw [hv.sees p (by omega) (by omega)]
    -- a payload holds no byte of the header
    refine putHeader_other _ _ _ ?_
    by_contra hin
    refine hbyte ?_
    rw [hbs]
    exact headerByte_middle (by omega) (by omega)

/-- Writing the header of a block with its own size and a cleared flag changes one word. -/
theorem Inv.clear_run (hi : Inv h s bs) {xs ys : List Block} {b : Block}
    (hbs : bs = xs ++ b :: ys) :
    ∃ e, s.leaf ((h.base.toNat + Blocks.span xs + 4) / 4096) = some e ∧
      (writeHeader (BitVec.ofNat 32 (h.base.toNat + Blocks.span xs)) (BitVec.ofNat 32 b.size)
          false).run s
        = .ok ((), { s with
            mem := s.mem.write32 (4096 * frameNo e + (h.base.toNat + Blocks.span xs + 4) % 4096)
              0 }) := by
  obtain ⟨hbase, hbrk⟩ := hi.pages
  obtain ⟨hblock, hsize, _, _⟩ := hi.block hbs
  have hspan := hi.span
  have hal := hi.placed.base_aligned
  have hmod := span_mod xs
  have hle := hi.owned.hi_le
  rw [hbs, span_append, span_cons] at hspan
  have hflag : (BitVec.ofNat 32 (h.base.toNat + Blocks.span xs) + 4).toNat
      = h.base.toNat + Blocks.span xs + 4 := by
    rw [BitVec.toNat_add, hblock, show (4 : U32).toNat = 4 from rfl]
    omega
  obtain ⟨e, hleaf, hmay⟩ := hi.view.leaf (v := BitVec.ofNat 32 (h.base.toNat + Blocks.span xs))
    (by omega) (by omega)
  have hpage : (h.base.toNat + Blocks.span xs + 4) / 4096
      = (BitVec.ofNat 32 (h.base.toNat + Blocks.span xs)).toNat / 4096 := by omega
  -- the first store writes the size that stands there
  have hfirst : (store32 (BitVec.ofNat 32 (h.base.toNat + Blocks.span xs))
      (BitVec.ofNat 32 b.size)).run s = .ok ((), s) := by
    rw [sizeAt, load32_of_leaf (by omega) hleaf] at hsize
    have hread := (Prod.mk.inj (Except.ok.inj hsize)).1
    rw [store32_of_leaf _ (by omega) hleaf hmay, ← hread, ByteMem.write32_read32]
  refine ⟨e, by rw [hpage]; exact hleaf, ?_⟩
  rw [writeHeader, Prog.bind_ok hfirst, if_neg (by decide), store32_of_leaf (e := e) 0
    (by rw [hflag]; omega) (by rw [hflag, hpage]; exact hleaf) (by rw [hflag, hpage]; exact hmay),
    hflag]

/-- The outcomes of `free`: the flag of a block in use is cleared, and no other byte changes, or
nothing happens. -/
inductive Freed (h : Heap) (s : Machine) (bs : List Block) (p : U32) :
    Machine → List Block → Prop where
  | done {xs ys : List Block} {b : Block} (hbs : bs = xs ++ b :: ys) (hb : b.used = true)
      (hp : p.toNat = h.base.toNat + Blocks.span xs + 8) {e : U32}
      (hleaf : s.leaf ((p.toNat - 4) / 4096) = some e)
      (he : Effect h h s
        { s with mem := s.mem.write32 (4096 * frameNo e + (p.toNat - 4) % 4096) 0 } bs
        (xs ++ b.setUsed false :: ys)) :
      Freed h s bs p { s with mem := s.mem.write32 (4096 * frameNo e + (p.toNat - 4) % 4096) 0 }
        (xs ++ b.setUsed false :: ys)
  | refused (hne : ∀ q n, (q, n) ∈ Blocks.usedAt h.base.toNat bs → q + 8 ≠ p.toNat)
      {t : Machine} (hu : Untouched s t) : Freed h s bs p t bs

theorem Freed.effect {p : U32} (hi : Inv h s bs) (hf : Freed h s bs p t bs') :
    Effect h h s t bs bs' ∧ Blocks.usedAt h.base.toNat bs'
      = (Blocks.usedAt h.base.toNat bs).filter fun x => x.1 + 8 ≠ p.toNat := by
  cases hf with
  | done hbs _ hp _ he =>
    refine ⟨he, ?_⟩
    rw [usedAt_setFree, ← hbs]
    refine List.filter_congr fun x _ => decide_eq_decide.mpr ?_
    rw [hp]
    omega
  | refused hne hu =>
    refine ⟨.untouched hi hu, (List.filter_eq_self.mpr ?_).symm⟩
    rintro ⟨q, n⟩ hq
    exact decide_eq_true (hne q n hq)

theorem free_run (hi : Inv h s bs) (p : U32) :
    ∃ t bs', (h.free p).run s = .ok ((), t) ∧ Freed h s bs p t bs' := by
  by_cases hzero : p = 0
  · refine ⟨s, bs, by rw [free, if_pos hzero, Prog.run_pure], .refused (fun q n _ => ?_) (.refl s)⟩
    rw [hzero]
    exact Nat.succ_ne_zero _
  have hfind := hi.run_findBlock p
  cases hlook : lookup p.toNat h.base.toNat bs with
  | none =>
    rw [hlook, Option.map_none] at hfind
    refine ⟨report s (.notFrom p h.name), bs, ?_, .refused (fun q n hq heq => ?_)
      (untouched_report s _)⟩
    · rw [free, if_neg hzero, Prog.bind_ok hfind]
      exact run_koops s _
    · obtain ⟨xs, b, ys, rfl, rfl, _, _⟩ := mem_usedAt.mp hq
      rw [← heq, lookup_payload] at hlook
      cases hlook
  | some q =>
    obtain ⟨hqp, xs, b, ys, hbs, rfl⟩ := lookup_eq_some hlook
    rw [hlook, Option.map_some] at hfind
    obtain ⟨_, hsize, hused, hwrite⟩ := hi.block hbs
    cases hb : b.used with
    | true =>
      obtain ⟨t, hrun, hw, hv⟩ := hwrite (BitVec.ofNat 32 b.size) false
      obtain ⟨e, hleaf, hclear⟩ := hi.clear_run hbs
      have hpos : h.base.toNat + Blocks.span xs + 4 = p.toNat - 4 := by omega
      rw [hpos] at hleaf hclear
      obtain rfl := (Prod.mk.inj (Except.ok.inj (hrun.symm.trans hclear))).2
      refine ⟨_, _, ?_, .done hbs hb hqp.symm hleaf (hi.free_effect hbs hw hv)⟩
      rw [free, if_neg hzero, Prog.bind_ok hfind]
      dsimp only
      rw [Prog.bind_ok hused, hb, if_pos rfl, Prog.bind_ok hsize, hrun]
    | false =>
      refine ⟨report s (.freedTwice p h.name), bs, ?_, .refused (fun q n hq heq => ?_)
        (untouched_report s _)⟩
      · rw [free, if_neg hzero, Prog.bind_ok hfind]
        dsimp only
        rw [Prog.bind_ok hused, hb, if_neg (by decide)]
        exact run_koops s _
      · obtain ⟨xs', b', ys', hbs', rfl, hb', _⟩ := mem_usedAt.mp hq
        obtain ⟨_, rfl, _⟩ := decomp_unique hbs hbs' (by omega)
        rw [hb] at hb'
        cases hb'

/-- `size` of the payload of a block in use. -/
theorem size_run (hi : Inv h s bs) {q n : Nat} (hq : (q, n) ∈ Blocks.usedAt h.base.toNat bs)
    {p : U32} (hp : p.toNat = q + 8) : (h.size p).run s = .ok (BitVec.ofNat 32 n, s) := by
  have hzero : p ≠ 0 := fun hz => by
    rw [hz] at hp
    exact absurd hp (Nat.succ_ne_zero _).symm
  obtain ⟨xs, b, ys, hbs, rfl, _, rfl⟩ := mem_usedAt.mp hq
  have hfind := hi.run_findBlock p
  rw [hbs, hp, lookup_payload, Option.map_some] at hfind
  obtain ⟨_, hsize, _, _⟩ := hi.block hbs
  rw [size, if_neg hzero, Prog.bind_ok hfind]
  exact hsize

/-! ## `alloc` -/

/-- The rounded size, for every size that `alloc` lets through. -/
theorem toNat_roundUp {want : U32} (h : want.toNat ≤ 0xFFFFFFF8) :
    (roundUp want).toNat = 8 * ((max 8 want.toNat + 7) / 8) := by
  have hmask : ∀ x : U32, (x &&& ~~~(ALIGN - 1)).toNat = 8 * (x.toNat / 8) := fun x =>
    Word.toNat_and_high (k := 3) x (by decide) (by decide)
  unfold roundUp
  dsimp only
  rw [hmask]
  split
  · rename_i hlt
    have hsmall : want.toNat < 8 := hlt
    rw [show (SMALLEST + ALIGN - 1 : U32).toNat = 15 from rfl]
    omega
  · rename_i hlt
    have hbig : ¬want.toNat < 8 := hlt
    have hsum : (want + ALIGN - 1).toNat = want.toNat + 7 := by bv_omega
    rw [hsum]
    omega

theorem roundUp_spec {want : U32} (h : want.toNat ≤ 0xFFFFFFF8) :
    (roundUp want).toNat % 8 = 0 ∧ 8 ≤ (roundUp want).toNat ∧
      want.toNat ≤ (roundUp want).toNat := by
  rw [toNat_roundUp h]
  omega

/-- The test of `alloc` on the size, also when the range is empty and the bound wraps. -/
theorem Placed.want_le (hp : h.Placed) {want : U32} (hle : ¬want > h.limit - h.base - HEADER) :
    want.toNat ≤ 0xFFFFFFF8 := by
  have hb := hp.base_le
  have hl := hp.limit_le
  rw [show TABLE_WINDOW.toNat = 0xFFC00000 from rfl] at hl
  have hba := hp.base_aligned
  have hla := hp.limit_aligned
  bv_omega

/-- The search leaves the blocks in use where they are. -/
theorem firstFit_run (hi : Inv h s bs) (need : U32) :
    ∃ t, (h.firstFit need).run s
        = .ok ((fit need.toNat h.base.toNat bs).1.map (BitVec.ofNat 32), t) ∧
      Wrote (h.base.toNat / 4096) (h.brk.toNat / 4096) s t ∧
      Effect h h s t bs (fit need.toNat h.base.toNat bs).2 := by
  obtain ⟨hbase, hbrk⟩ := hi.pages
  have hspan := hi.span
  obtain ⟨t, w, hrun, hwrote, hview, htiles, _, hkeep⟩ :=
    run_firstFitFrom h need (by omega) bs.length bs PASSES h.base hi.view (le_refl _)
      hi.ahead.length_lt hi.ahead
  have hfit := span_fit need.toNat h.base.toNat bs
  refine ⟨t, hrun, hwrote, .wrote hi hwrote (hview.tiles (by omega) (by omega) htiles) hfit
    fun q n hq p h1 h2 => ?_⟩
  have := usedAt_bounds hq
  rw [hview.sees p (by omega) (by omega)]
  exact hkeep q n hq p (by omega) h2

/-- Taking a free block that is large enough. -/
theorem take_run (hi : Inv h s bs) {xs ys : List Block} {m : Block} (hbs : bs = xs ++ m :: ys)
    (hm : m.used = false) {need : U32} (hneed : need.toNat ≤ m.size)
    (hnal : need.toNat % 8 = 0) (hnlarge : 8 ≤ need.toNat) :
    ∃ t, (take (BitVec.ofNat 32 (h.base.toNat + span xs)) need).run s
        = .ok (BitVec.ofNat 32 (h.base.toNat + span xs + 8), t) ∧
      Wrote (h.base.toNat / 4096) (h.brk.toNat / 4096) s t ∧
      Effect h h s t bs (xs ++ split m need.toNat hnal hnlarge ++ ys) := by
  obtain ⟨hbase, hbrk⟩ := hi.pages
  have hspan := hi.span
  have hal := hi.placed.base_aligned
  have htiles := hi.tiles
  rw [hbs] at htiles hspan
  obtain ⟨t, w, hrun, hwrote, hview, htiles', hkeep⟩ :=
    run_take hi.view (by omega) (by omega) htiles (by omega) hneed hnal hnlarge
  have hsame : span (xs ++ split m need.toNat hnal hnlarge ++ ys) = span bs := by
    rw [hbs, span_append, span_append, span_split, span_append, span_cons]
    omega
  rw [← hbs] at hspan
  refine ⟨t, hrun, hwrote, .wrote hi hwrote (hview.tiles (by omega) (by omega) htiles') hsame
    fun q n hq p h1 h2 => ?_⟩
  have hb := usedAt_bounds hq
  rw [hview.sees p (by omega) (by omega)]
  refine hkeep p ?_
  -- a block in use lies before or behind the free block
  rw [hbs, usedAt_append, usedAt_free hm] at hq
  rcases List.mem_append.mp hq with hq | hq
  · have := usedAt_bounds hq
    omega
  · have := usedAt_bounds hq
    omega

/-- What a run of `alloc` answers: nothing, or the payload of a block that was not in use. -/
def Answer (h : Heap) (want p : U32) (bs bs' : List Block) : Prop :=
  p = 0 ∧ Blocks.usedAt h.base.toNat bs' = Blocks.usedAt h.base.toNat bs ∨
    ∃ q size, p.toNat = q + 8 ∧ want ≠ 0 ∧ want.toNat ≤ size ∧
      (Blocks.usedAt h.base.toNat bs').Perm ((q, size) :: Blocks.usedAt h.base.toNat bs)

/-- What one search of `alloc` does to the blocks: they are as before up to merging, or the first
run of free blocks that is large enough is taken. -/
inductive Search (base need : Nat) (bs bs' : List Block) : U32 → Prop where
  | none (hal : need % 8 = 0) (hlarge : 8 ≤ need)
      (hplace : place need hal hlarge (merged bs) = none)
      (hsame : merged bs' = merged bs) : Search base need bs bs' 0
  | some (hal : need % 8 = 0) (hlarge : 8 ≤ need) {o : Nat} {p : U32}
      (hplace : place need hal hlarge (merged bs) = some (o, merged bs'))
      (hp : p.toNat = base + o + 8) : Search base need bs bs' p

theorem Search.usedAt {base need : Nat} (hs : Search base need bs bs' 0) :
    Blocks.usedAt base bs' = Blocks.usedAt base bs := by
  cases hs with
  | none _ _ _ hsame => rw [← usedAt_merged, hsame, usedAt_merged]
  | some _ _ _ hp => exact absurd hp (Nat.succ_ne_zero _).symm

theorem Search.answer {need : Nat} {want p : U32} (hs : Search h.base.toNat need bs bs' p)
    (hzero : want ≠ 0) (hle : want.toNat ≤ need) : h.Answer want p bs bs' := by
  cases hs with
  | none hal hlarge hplace hsame =>
    exact Or.inl ⟨rfl, Search.usedAt (.none hal hlarge hplace hsame)⟩
  | some hal hlarge hplace hp =>
    obtain ⟨size, hsize, hperm⟩ := usedAt_place hal hlarge (a := h.base.toNat) hplace
    rw [usedAt_merged, usedAt_merged] at hperm
    exact Or.inr ⟨_, size, hp, hzero, hle.trans hsize, hperm⟩

/-- One search of `alloc`: it finds nothing, or it finds a block and takes it. -/
theorem fitTake_run (hi : Inv h s bs) {need : U32} (hal : need.toNat % 8 = 0)
    (hlarge : 8 ≤ need.toNat) :
    (∃ t bs', (h.firstFit need).run s = .ok (none, t) ∧
        Wrote (h.base.toNat / 4096) (h.brk.toNat / 4096) s t ∧ Effect h h s t bs bs' ∧
        Search h.base.toNat need.toNat bs bs' 0) ∨
      ∃ block u p t bs', (h.firstFit need).run s = .ok (some block, u) ∧
        (take block need).run u = .ok (p, t) ∧
        Wrote (h.base.toNat / 4096) (h.brk.toNat / 4096) s t ∧ Effect h h s t bs bs' ∧
        Search h.base.toNat need.toNat bs bs' p ∧ p ≠ 0 := by
  obtain ⟨u, hfit, hw, heff⟩ := firstFit_run hi need
  have hused := usedAt_fit need.toNat h.base.toNat bs
  rcases fit_place hal hlarge h.base.toNat bs with
    ⟨hnone, hplace⟩ | ⟨xs, m, ys, hfound, hm, hneed, hplace, _⟩
  · rw [hnone, Option.map_none] at hfit
    exact Or.inl ⟨u, _, hfit, hw, heff, .none hal hlarge hplace (merged_fit _ bs)⟩
  · rw [hfound] at heff
    rw [hfound, Option.map_some] at hfit
    obtain ⟨t, htake, hw', heff'⟩ := take_run heff.inv rfl hm hneed hal hlarge
    have hspan := heff.inv.span
    have hlt := h.brk.isLt
    have hp : (BitVec.ofNat 32 (h.base.toNat + Blocks.span xs + 8)).toNat
        = h.base.toNat + Blocks.span xs + 8 := by
      have := m.large
      rw [span_append, span_cons] at hspan
      rw [BitVec.toNat_ofNat]
      omega
    refine Or.inr ⟨_, u, _, t, _, hfit, htake, hw.trans hw' hi.paged hi.owned,
      heff.trans heff' fun x hx => ?_, .some hal hlarge hplace hp, fun hz => ?_⟩
    · rw [hfound] at hused
      rw [hused]
      exact hx
    · rw [hz] at hp
      exact absurd hp (Nat.succ_ne_zero _).symm

/-- The pages that `alloc` asks for. -/
def pagesFor (want : U32) : U32 := (roundUp want + HEADER + PAGE_SIZE - 1) / PAGE_SIZE

/-- The outcomes of `alloc`.  It refuses the size, takes a block, gets no page for another one, or
gets pages and searches again. -/
inductive Alloc (h : Heap) (s : Machine) (bs : List Block) (want : U32) :
    U32 → Heap → Machine → List Block → Prop where
  | refused (hwant : want = 0 ∨ want > h.limit - h.base - HEADER) {t : Machine}
      (hu : Untouched s t) : Alloc h s bs want 0 h t bs
  | found (hwant : want ≠ 0 ∧ ¬want > h.limit - h.base - HEADER) {p : U32} {t : Machine}
      {bs' : List Block} (hp : p ≠ 0) (hsearch : Search h.base.toNat (roundUp want).toNat bs bs' p)
      (hsame : SameMap s t) (he : Effect h h s t bs bs') : Alloc h s bs want p h t bs'
  | stuck (hwant : want ≠ 0 ∧ ¬want > h.limit - h.base - HEADER) {t : Machine} {bs' : List Block}
      (hsearch : Search h.base.toNat (roundUp want).toNat bs bs' 0) (hsame : SameMap s t)
      (hwhy : h.Open s → h.offered s.supply (pagesFor want).toNat = 0)
      (he : Effect h h s t bs bs') : Alloc h s bs want 0 h t bs'
  | grew (hwant : want ≠ 0 ∧ ¬want > h.limit - h.base - HEADER) {p : U32} {t : Machine}
      {bs1 bs' : List Block} (hsearch : Search h.base.toNat (roundUp want).toNat bs bs1 0) {m : Nat}
      (hal : 4096 * m % 8 = 0) (hlarge : 16 ≤ 4096 * m) {top : U32}
      (htop : top.toNat = h.brk.toNat + 4096 * m) (hm : m ≤ (pagesFor want).toNat)
      (hagain : Search h.base.toNat (roundUp want).toNat (extend bs1 (4096 * m) hal hlarge) bs' p)
      (hcount : h.Open s → m = h.offered s.supply (pagesFor want).toNat ∧
        (m < (pagesFor want).toNat → ¬h.Affords t.supply (top.toNat / 4096)))
      (he : Effect h { h with brk := top } s t bs bs') :
      Alloc h s bs want p { h with brk := top } t bs'

/-- Every outcome has an effect on the heap alone, and adds at most one block to those in use. -/
theorem Alloc.effect {want p : U32} {h' : Heap} (hi : Inv h s bs)
    (ha : Alloc h s bs want p h' t bs') : Effect h h' s t bs bs' ∧ h.Answer want p bs bs' := by
  have hle : ¬want > h.limit - h.base - HEADER → want.toNat ≤ (roundUp want).toNat := fun hl =>
    (roundUp_spec (hi.placed.want_le hl)).2.2
  cases ha with
  | refused _ hu => exact ⟨.untouched hi hu, Or.inl ⟨rfl, rfl⟩⟩
  | found hwant _ hsearch _ he => exact ⟨he, hsearch.answer hwant.1 (hle hwant.2)⟩
  | stuck hwant hsearch _ _ he => exact ⟨he, hsearch.answer hwant.1 (hle hwant.2)⟩
  | grew hwant hsearch hal hlarge _ _ hagain _ he =>
    refine ⟨he, ?_⟩
    have hans := hagain.answer hwant.1 (hle hwant.2)
    unfold Answer at hans ⊢
    rw [usedAt_extend, hsearch.usedAt] at hans
    exact hans

theorem Open.sameMap (ho : h.Open s) (hp : h.Placed) (hs : SameMap s t) : h.Open t := by
  have hle := hp.limit_page
  exact ⟨ho.1, fun p h1 h2 => by rw [hs.leaf p (by omega)]; exact ho.2 p h1 h2⟩

theorem alloc_run (hi : Inv h s bs) (want : U32) :
    ∃ p h' t bs', (h.alloc want).run s = .ok ((p, h'), t) ∧ Alloc h s bs want p h' t bs' := by
  by_cases hzero : want = 0
  · refine ⟨0, h, s, bs, ?_, .refused (Or.inl hzero) (.refl s)⟩
    rw [alloc, if_pos hzero, Prog.run_pure]
  by_cases hlarge : want > h.limit - h.base - HEADER
  · refine ⟨0, h, _, bs, ?_, .refused (Or.inr hlarge) (untouched_report s (.tooLarge want h.name))⟩
    rw [alloc, if_neg hzero, if_pos hlarge, Prog.bind_ok (run_koops s _), Prog.run_pure]
  obtain ⟨hnal, hnlarge, _⟩ := roundUp_spec (hi.placed.want_le hlarge)
  rcases fitTake_run hi hnal hnlarge with
    ⟨u, bs1, hfit, hw1, heff1, hsearch⟩ | ⟨block, u, p, t, bs', hfit, htake, hw, heff, hsearch, hp⟩
  · -- no block is large enough: the heap grows and searches again
    have hmap1 := hw1.sameMap hi.paged hi.owned
    have hopen : h.Open s → h.Open u := fun ho => ho.sameMap hi.placed hmap1
    obtain ⟨ok, h', v, bs2, hgrow, hcase⟩ := grow_run heff1.inv (pagesFor want)
    have hkeep : ∀ x ∈ Blocks.usedAt h.base.toNat bs, x ∈ Blocks.usedAt h.base.toNat bs1 :=
      fun x hx => by rw [hsearch.usedAt]; exact hx
    cases hcase with
    | refused hu hwhy =>
      refine ⟨0, h, v, bs1, ?_, .stuck ⟨hzero, hlarge⟩ hsearch
        (hmap1.trans (hu.sameMap heff1.inv.paged)) (fun ho => ?_)
        (heff1.trans (.untouched heff1.inv hu) hkeep)⟩
      · rw [alloc, if_neg hzero, if_neg hlarge]
        dsimp only
        rw [Prog.bind_ok hfit]
        dsimp only
        rw [← pagesFor, Prog.bind_ok hgrow]
        rfl
      · rw [← hmap1.supply]
        exact hwhy (hopen ho)
    | grew hal hlarge' htop hm heff2 hleaf hcount =>
      rename_i m top
      have heff12 := heff1.trans heff2 hkeep
      have hkeep2 : ∀ x ∈ Blocks.usedAt h.base.toNat bs,
          x ∈ Blocks.usedAt h.base.toNat (extend bs1 (4096 * m) hal hlarge') := fun x hx => by
        rw [usedAt_extend]
        exact hkeep x hx
      rcases fitTake_run heff2.inv hnal hnlarge with
        ⟨t, bs3, hfit3, hw3, heff3, hagain⟩ |
          ⟨block, w, p, t, bs3, hfit3, htake3, hw3, heff3, hagain, _⟩
      · have hmap3 := hw3.sameMap heff2.inv.paged heff2.inv.owned
        refine ⟨0, _, t, bs3, ?_, .grew ⟨hzero, hlarge⟩ hsearch hal hlarge' htop hm hagain
          (fun ho => ?_) (heff12.trans heff3 hkeep2)⟩
        · rw [alloc, if_neg hzero, if_neg hlarge]
          dsimp only
          rw [Prog.bind_ok hfit]
          dsimp only
          rw [← pagesFor, Prog.bind_ok hgrow]
          dsimp only
          rw [if_pos rfl, Prog.bind_ok hfit3, Prog.run_pure]
        · rw [← hmap1.supply, hmap3.supply]
          exact hcount (hopen ho)
      · have hmap3 := hw3.sameMap heff2.inv.paged heff2.inv.owned
        refine ⟨p, _, t, bs3, ?_, .grew ⟨hzero, hlarge⟩ hsearch hal hlarge' htop hm hagain
          (fun ho => ?_) (heff12.trans heff3 hkeep2)⟩
        · rw [alloc, if_neg hzero, if_neg hlarge]
          dsimp only
          rw [Prog.bind_ok hfit]
          dsimp only
          rw [← pagesFor, Prog.bind_ok hgrow]
          dsimp only
          rw [if_pos rfl, Prog.bind_ok hfit3]
          dsimp only
          rw [Prog.bind_ok htake3, Prog.run_pure]
        · rw [← hmap1.supply, hmap3.supply]
          exact hcount (hopen ho)
  · refine ⟨p, h, t, bs', ?_, .found ⟨hzero, hlarge⟩ hp hsearch (hw.sameMap hi.paged hi.owned) heff⟩
    rw [alloc, if_neg hzero, if_neg hlarge]
    dsimp only
    rw [Prog.bind_ok hfit]
    dsimp only
    rw [Prog.bind_ok htake, Prog.run_pure]

/-! ## `brk` -/

/-- The pages that `brk` moves by. -/
def pagesOf (delta : U32) : U32 :=
  ((if delta.msb then -delta else delta) + PAGE_SIZE - 1) / PAGE_SIZE

/-- The outcomes of `brk`. -/
inductive Move (h : Heap) (s : Machine) (bs : List Block) (delta : U32) :
    U32 → Heap → Machine → List Block → Prop where
  | zero (hzero : delta = 0) : Move h s bs delta h.brk h s bs
  | down (hneg : delta.msb = true) {ok : Bool} {h' : Heap} {t : Machine} {bs' : List Block}
      (hs : Shrink h s bs (h.target (pagesOf delta)) ok h' t bs') :
      Move h s bs delta (if ok then h.brk else 0) h' t bs'
  | up (hzero : delta ≠ 0) (hpos : delta.msb = false) {ok : Bool} {h' : Heap} {t : Machine}
      {bs' : List Block} (hg : Grow h s bs (pagesOf delta).toNat ok h' t bs') :
      Move h s bs delta (if ok then h.brk else 0) h' t bs'

theorem Grow.effect {n : Nat} {ok : Bool} {h' : Heap} (hi : Inv h s bs)
    (hg : Grow h s bs n ok h' t bs') : Effect h h' s t bs bs' ∧
      Blocks.usedAt h.base.toNat bs' = Blocks.usedAt h.base.toNat bs := by
  cases hg with
  | refused hu => exact ⟨.untouched hi hu, rfl⟩
  | grew hal hlarge _ _ he => exact ⟨he, usedAt_extend hal hlarge bs _⟩

theorem Move.effect {delta r : U32} {h' : Heap} (hi : Inv h s bs)
    (hm : Move h s bs delta r h' t bs') : Effect h h' s t bs bs' ∧
      Blocks.usedAt h.base.toNat bs' = Blocks.usedAt h.base.toNat bs := by
  cases hm with
  | zero => exact ⟨.untouched hi (.refl s), rfl⟩
  | down _ hs => exact hs.effect hi
  | up _ _ hg => exact hg.effect hi

theorem moveBrk_up {delta : U32} (hzero : delta ≠ 0) (hpos : delta.msb = false) {ok : Bool}
    {h' : Heap} (hrun : (h.grow (pagesOf delta)).run s = .ok ((ok, h'), t)) :
    (h.moveBrk delta).run s = .ok ((if ok then h.brk else 0, h'), t) := by
  rw [pagesOf, hpos] at hrun
  rw [moveBrk, if_neg hzero, hpos]
  exact Prog.bind_ok hrun

theorem moveBrk_down {delta : U32} (hneg : delta.msb = true) {ok : Bool} {h' : Heap}
    (hrun : (h.shrink (pagesOf delta)).run s = .ok ((ok, h'), t)) :
    (h.moveBrk delta).run s = .ok ((if ok then h.brk else 0, h'), t) := by
  have hzero : delta ≠ 0 := fun hz => by
    rw [hz] at hneg
    exact absurd hneg (by decide)
  rw [pagesOf, hneg] at hrun
  rw [moveBrk, if_neg hzero, hneg]
  exact Prog.bind_ok hrun

theorem moveBrk_run (hi : Inv h s bs) (delta : U32) :
    ∃ r h' t bs', (h.moveBrk delta).run s = .ok ((r, h'), t) ∧ Move h s bs delta r h' t bs' := by
  by_cases hzero : delta = 0
  · exact ⟨h.brk, h, s, bs, by rw [moveBrk, if_pos hzero, Prog.run_pure], .zero hzero⟩
  cases hneg : delta.msb with
  | true =>
    obtain ⟨ok, h', t, bs', hrun, hs⟩ := shrink_run hi (pagesOf delta)
    exact ⟨_, h', t, bs', moveBrk_down hneg hrun, .down hneg hs⟩
  | false =>
    obtain ⟨ok, h', t, bs', hrun, hg⟩ := grow_run hi (pagesOf delta)
    exact ⟨_, h', t, bs', moveBrk_up hzero hneg hrun, .up hzero hneg hg⟩

/-! ## `stats` -/

/-- The counters with one more block. -/
def Stats.count (st : Stats) (b : Block) : Stats :=
  if b.used then
    { st with
      blocks := st.blocks + 1, used := st.used + BitVec.ofNat 32 b.size, live := st.live + 1 }
  else { st with blocks := st.blocks + 1, free := st.free + BitVec.ofNat 32 b.size }

theorem run_statsFrom {lo hi : Nat} {w : ByteMem} (hv : View lo hi w s)
    (hbrk : h.brk.toNat ≤ 4096 * hi) (bs : List Block) :
    ∀ (fuel : Nat) (block : U32) (st : Stats), bs.length < fuel → Ahead lo w h.brk block bs →
      (statsFrom h fuel block st).run s = .ok (bs.foldl Stats.count st, s) := by
  induction bs with
  | nil =>
    intro fuel block st hfuel hahead
    cases fuel with
    | zero => omega
    | succ fuel =>
      rw [statsFrom, if_neg (hahead.past hv hbrk)]
      rfl
  | cons b bs ih =>
    intro fuel block st hfuel hahead
    cases fuel with
    | zero => omega
    | succ fuel =>
      rw [statsFrom, if_pos hahead.inside, Prog.bind_ok (hahead.size hv hbrk),
        Prog.bind_ok (hahead.used hv hbrk)]
      exact ih fuel _ (st.count b) (by rw [List.length_cons] at hfuel; omega) hahead.next

theorem stats_run (hi : Inv h s bs) :
    (h.stats).run s = .ok (bs.foldl Stats.count ⟨0, 0, 0, 0⟩, s) := by
  exact run_statsFrom hi.view (Nat.le_of_eq hi.pages.2.symm) bs PASSES h.base _
    hi.ahead.length_lt hi.ahead

end Kfs.Heap
