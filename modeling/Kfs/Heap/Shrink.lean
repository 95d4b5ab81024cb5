import Kfs.Heap.Grow

/-!
# Shrinking a heap

`Shrank h s t a b` is what the loop of `shrink` does from page `a` to page `b`: the pages lose their
frames, which become free for the scattered heap and stay in the block for the contiguous one.

`shrink_run` puts the tests on the last block before it.  The break moves only into a free last
block, and then the block is cut or goes away as a whole.
-/

namespace Kfs.Heap

open Lib Mem Paging Machine Blocks

variable {h : Heap} {s t u : Machine} {a b : Nat}

/-- The pages from `a` up to `b` were unmapped. -/
structure Shrank (h : Heap) (s t : Machine) (a b : Nat) : Prop where
  confined : Confined { p | a ≤ p ∧ p < b } (h.unused a) s t
  gone : ∀ p, a ≤ p → p < b → t.leaf p = none
  tables : ∀ k, t.IsTable k ↔ s.IsTable k
  frames : h.backing = .contiguous → t.pmm = s.pmm

/-- What happens to the first page of a range and to its frame does not reach the rest. -/
theorem outOfReach_rest (ho : s.Owned a b) (hab : a < b) {e : U32} (hleaf : s.leaf a = some e)
    {D : Set Nat} (hD : D ⊆ { frameNo e }) :
    OutOfReach { p | a ≤ p ∧ p < a + 1 } D s (a + 1) b := by
  intro p hlo hhi
  refine ⟨fun hm => absurd hm.2 (by omega), fun e' he' => ?_⟩
  have hne : frameNo e' ≠ frameNo e := fun heq => by
    have := ho.inj (by omega) hhi (le_refl a) hab he' hleaf heq
    omega
  refine not_mine.mpr ⟨ho.notFree (by omega) hhi he', ho.notTable (by omega) hhi he',
    fun hm => hne (hD hm), ?_⟩
  rintro ⟨q, ⟨hq, hq'⟩, _, e'', he'', heq⟩
  rw [show q = a from by omega, hleaf] at he''
  cases he''
  exact hne heq.symm

/-- One pass of the loop: the page goes, and the pages behind it are as they were. -/
theorem shrinkLoop_pass (fuel : Nat) {page : U32} (hpage : page.toNat = 4096 * a)
    (hs : s.Paged) (ho : s.Owned a b) (hab : a < b) (hbrk : h.brk.toNat = 4096 * b)
    (hback : ∀ p e, a ≤ p → p < b → s.leaf p = some e → h.Backs p e)
    (hbase : h.base.toNat / 4096 ≤ a)
    (hfits : h.backing = .contiguous →
      h.physBase.toNat / 4096 + (b - h.base.toNat / 4096) ≤ h.physEnd.toNat / 4096) :
    ∃ u, (shrinkLoop h (fuel + 1) page).run s = (shrinkLoop h fuel (page + PAGE_SIZE)).run u ∧
      Confined { p | a ≤ p ∧ p < a + 1 } (h.unused a) s u ∧ u.Owned (a + 1) b ∧
      (∀ p e, a + 1 ≤ p → p < b → u.leaf p = some e → h.Backs p e) ∧ u.leaf a = none ∧
      (∀ k, u.IsTable k ↔ s.IsTable k) ∧ (h.backing = .contiguous → u.pmm = s.pmm) := by
  have hle := ho.hi_le
  have hdiv : page.toNat / 4096 = a := by omega
  have htest : page < h.brk := by
    rw [BitVec.lt_def]
    omega
  have haddr : page < TABLE_WINDOW := by
    rw [BitVec.lt_def, show TABLE_WINDOW.toNat = 4096 * (1023 * 1024) from rfl]
    omega
  obtain ⟨e, hleaf, _⟩ := ho.mapped a (le_refl a) hab
  have hleaf' : s.leaf (page.toNat / 4096) = some e := by rw [hdiv]; exact hleaf
  have hp := (entry_of_leaf_some hleaf').1
  have hunmap := run_unmapPage_some hs hleaf'
  have hmem : page.toNat / 4096 ∈ { p | a ≤ p ∧ p < a + 1 } := by
    rw [hdiv]
    exact ⟨by omega, by omega⟩
  have htab : ∀ k, (s.setEntry (dirIndex page) (tableIndex page) 0).IsTable k ↔ s.IsTable k :=
    fun k => isTable_setEntry 0 hs (dirIndex_lt_of_lt haddr) hp (tableIndex_lt page)
  have hgone : (s.setEntry (dirIndex page) (tableIndex page) 0).leaf a = none := by
    rw [leaf_setEntry 0 hs (dirIndex_lt_of_lt haddr) hp (tableIndex_lt page) (by omega),
      page_eq_index, if_pos hdiv.symm]
    rfl
  -- what the pass may touch: this page and its frame
  have hrest : ∀ {u : Machine} {D : Set Nat}, D ⊆ { frameNo e } →
      Confined { p | a ≤ p ∧ p < a + 1 } D s u →
      u.Owned (a + 1) b ∧ ∀ p e', a + 1 ≤ p → p < b → u.leaf p = some e' → h.Backs p e' := by
    intro u D hD hc
    have hfar := outOfReach_rest ho hab hleaf hD
    refine ⟨hc.owned (ho.mono (by omega) (le_refl b)) hfar, fun p e' hlo hhi he' => ?_⟩
    rw [hc.leaf p (by omega) (hfar p hlo hhi).1] at he'
    exact hback p e' (by omega) hhi he'
  cases hb : h.backing with
  | contiguous =>
    have hframe : frameNo e ∈ h.unused a := by
      have hno := (hback a e (le_refl a) hab hleaf).2 hb
      have hf := hfits hb
      exact ⟨hb, by omega, by omega⟩
    have hc : Confined { p | a ≤ p ∧ p < a + 1 } { frameNo e } s
        (s.setEntry (dirIndex page) (tableIndex page) 0) :=
      confined_setEntry hs haddr hleaf' hmem (fun hx => absurd hx (by decide)) fun _ => rfl
    obtain ⟨howned, hbacked⟩ := hrest subset_rfl hc
    refine ⟨_, ?_, hc.mono subset_rfl (Set.singleton_subset_iff.mpr hframe), howned, hbacked, hgone,
      htab, fun _ => rfl⟩
    rw [shrinkLoop, if_pos htest, Prog.bind_ok hunmap]
    dsimp only
    rw [if_neg (by rw [hb]; decide)]
  | scattered =>
    have hc : ∀ D : Set Nat, Confined { p | a ≤ p ∧ p < a + 1 } D s
        { s.setEntry (dirIndex page) (tableIndex page) 0 with
          pmm := s.pmm.freeFrame (e &&& FRAME) } := fun D =>
      confined_unmap_free hs haddr hleaf' hmem (ho.notTable (le_refl a) hab hleaf)
    obtain ⟨howned, hbacked⟩ := hrest (Set.empty_subset _) (hc ∅)
    refine ⟨_, ?_, hc _, howned, hbacked, hgone, htab, fun hcont => by cases hcont⟩
    rw [shrinkLoop, if_pos htest, Prog.bind_ok hunmap]
    dsimp only
    rw [if_pos hb]
    rfl

theorem shrinkLoop_run (hbrk : h.brk.toNat = 4096 * b)
    (hfits : h.backing = .contiguous →
      h.physBase.toNat / 4096 + (b - h.base.toNat / 4096) ≤ h.physEnd.toNat / 4096) (n : Nat) :
    ∀ (fuel : Nat) (page : U32) (a : Nat) {s : Machine}, a + n = b → n < fuel →
      page.toNat = 4096 * a → h.base.toNat / 4096 ≤ a → s.Paged → s.Owned a b →
      (∀ p e, a ≤ p → p < b → s.leaf p = some e → h.Backs p e) →
      ∃ t, (shrinkLoop h fuel page).run s = .ok ((), t) ∧ Shrank h s t a b := by
  induction n with
  | zero =>
    intro fuel page a s hab hfuel hpage _ hs _ _
    obtain ⟨fuel, rfl⟩ : ∃ n, fuel = n + 1 := ⟨fuel - 1, by omega⟩
    have htest : ¬page < h.brk := by
      rw [BitVec.lt_def]
      omega
    refine ⟨s, ?_, .refl hs, fun p hlo hhi => by omega, fun _ => Iff.rfl, fun _ => rfl⟩
    rw [shrinkLoop, if_neg htest]
    rfl
  | succ n ih =>
    intro fuel page a s hab hfuel hpage hbase hs ho hback
    have hle := ho.hi_le
    obtain ⟨fuel, rfl⟩ : ∃ n, fuel = n + 1 := ⟨fuel - 1, by omega⟩
    obtain ⟨u, hrun, hc, howned, hbacked, hgone, htab, hpmm⟩ :=
      shrinkLoop_pass fuel hpage hs ho (by omega) hbrk hback hbase hfits
    have hnext : (page + PAGE_SIZE).toNat = 4096 * (a + 1) := by
      rw [BitVec.toNat_add, hpage, show PAGE_SIZE.toNat = 4096 from rfl]
      omega
    obtain ⟨t, hrest, hs'⟩ := ih fuel (page + PAGE_SIZE) (a + 1) (by omega) (by omega) hnext
      (by omega) hc.paged howned hbacked
    have hleft : { p | a ≤ p ∧ p < a + 1 } ⊆ { p | a ≤ p ∧ p < b } := fun p hp =>
      ⟨hp.1, Nat.lt_of_lt_of_le hp.2 (by omega)⟩
    have hright : { p | a + 1 ≤ p ∧ p < b } ⊆ { p | a ≤ p ∧ p < b } := fun p hp =>
      ⟨Nat.le_of_succ_le hp.1, hp.2⟩
    refine ⟨t, by rw [hrun, hrest], (hc.mono hleft subset_rfl).trans
      (hs'.confined.mono hright (h.unused_subset (by omega))), fun p hlo hhi => ?_,
      fun k => (hs'.tables k).trans (htab k), fun hb => (hs'.frames hb).trans (hpmm hb)⟩
    rcases Nat.lt_or_ge a p with hp | hp
    · exact hs'.gone p hp hhi
    · rw [show p = a from by omega,
        hs'.confined.leaf a (by omega) fun hm => absurd hm.1 (by omega)]
      exact hgone

/-! ## The last block -/

section Tail

variable {bs xs : List Block} {c : Block} {lo hi : Nat}

/-- The outcomes of the tests on the last block `c`, which starts `span xs` bytes above the base,
for a break at `target`. -/
inductive Tail (h : Heap) (s : Machine) (lo hi : Nat) (xs : List Block) (c : Block)
    (target : Nat) : Bool → Machine → List Block → Prop where
  | inUse (hc : c.used = true ∨ target < h.base.toNat + span xs) :
      Tail h s lo hi xs c target false (report s (.topInUse h.name)) (xs ++ [c])
  | tooSmall (hc : c.used = false) (hlt : h.base.toNat + span xs < target)
      (hsmall : target < h.base.toNat + span xs + 16) :
      Tail h s lo hi xs c target false (report s (.topTooSmall h.name)) (xs ++ [c])
  | cut (hc : c.used = false) {n : Nat} (hal : n % 8 = 0) (hlarge : n + 8 ≤ c.size)
      (htarget : target + n = h.base.toNat + span xs + (8 + c.size)) {t : Machine}
      (hw : Wrote lo hi s t) (htiles : Tiles t.virt h.base.toNat (xs ++ [cut c n hal hlarge]))
      (hkeep : ∀ p, 4096 * lo ≤ p → p < h.base.toNat + span xs → t.virt p = s.virt p) :
      Tail h s lo hi xs c target true t (xs ++ [cut c n hal hlarge])
  | drop (hc : c.used = false) (htarget : target = h.base.toNat + span xs) :
      Tail h s lo hi xs c target true s xs

theorem shrinkTail_run (hv : View lo hi s.virt s) (hlo : 4096 * lo ≤ h.base.toNat)
    (hal : h.base.toNat % 8 = 0) (htiles : Tiles s.virt h.base.toNat (xs ++ [c]))
    (hfin : h.base.toNat + span (xs ++ [c]) ≤ 4096 * hi) (target : U32)
    (htal : target.toNat % 8 = 0) (htarget : target.toNat < h.base.toNat + span (xs ++ [c])) :
    ∃ go t bs', (h.shrinkTail target (BitVec.ofNat 32 (h.base.toNat + span xs))).run s
        = .ok (go, t) ∧ Tail h s lo hi xs c target.toNat go t bs' := by
  have hle := hv.owned.hi_le
  have hmod := span_mod xs
  have hsum := span_append xs [c]
  rw [span_cons, span_nil] at hsum
  have hcal := c.aligned
  have hblock : (BitVec.ofNat 32 (h.base.toNat + span xs)).toNat = h.base.toNat + span xs := by
    rw [BitVec.toNat_ofNat]
    omega
  have hhead := tiles_header htiles
  rw [← hblock] at hhead
  have hused := run_usedAt hv (by omega) (by omega) (by omega) hhead
  have hlt : target < BitVec.ofNat 32 (h.base.toNat + span xs) ↔
      target.toNat < h.base.toNat + span xs := by
    rw [BitVec.lt_def, hblock]
  by_cases hrefuse : c.used = true ∨ target.toNat < h.base.toNat + span xs
  · refine ⟨false, _, _, ?_, .inUse hrefuse⟩
    rw [shrinkTail, Prog.bind_ok hused, if_pos (by rw [hlt]; exact hrefuse),
      Prog.bind_ok (run_koops s _), Prog.run_pure]
  obtain ⟨hc, hge⟩ := not_or.mp hrefuse
  have hc : c.used = false := by simpa using hc
  have hgo : ¬(c.used = true ∨ target < BitVec.ofNat 32 (h.base.toNat + span xs)) := by
    rw [hlt]
    exact hrefuse
  by_cases heq : target.toNat = h.base.toNat + span xs
  · refine ⟨true, s, _, ?_, .drop hc heq⟩
    rw [shrinkTail, Prog.bind_ok hused, if_neg hgo,
      if_neg (by rw [gt_iff_lt, BitVec.lt_def, hblock]; omega), Prog.run_pure]
  have hgt : target > BitVec.ofNat 32 (h.base.toNat + span xs) := by
    rw [gt_iff_lt, BitVec.lt_def, hblock]
    omega
  have hsixteen : (BitVec.ofNat 32 (h.base.toNat + span xs) + HEADER + SMALLEST).toNat
      = h.base.toNat + span xs + 16 := by
    rw [BitVec.toNat_add, BitVec.toNat_add, hblock, show HEADER.toNat = 8 from rfl]
    omega
  by_cases hsmall : target.toNat < h.base.toNat + span xs + 16
  · refine ⟨false, _, _, ?_, .tooSmall hc (by omega) hsmall⟩
    rw [shrinkTail, Prog.bind_ok hused, if_neg hgo, if_pos hgt,
      if_pos (by rw [BitVec.lt_def, hsixteen]; exact hsmall), Prog.bind_ok (run_koops s _),
      Prog.run_pure]
  -- the block is cut to end at the new break
  obtain ⟨n, hn⟩ := Nat.exists_eq_add_of_le
    (show target.toNat ≤ h.base.toNat + span xs + (8 + c.size) by omega)
  have hnal : n % 8 = 0 := by omega
  have hnlarge : n + 8 ≤ c.size := by omega
  have hsize : target - BitVec.ofNat 32 (h.base.toNat + span xs) - HEADER
      = BitVec.ofNat 32 (cut c n hnal hnlarge).size := by
    apply BitVec.eq_of_toNat_eq
    rw [BitVec.toNat_ofNat, show (cut c n hnal hnlarge).size = c.size - n from rfl]
    bv_omega
  obtain ⟨t, hrun, hwrote, hview⟩ := run_writeHeader hv
    (BitVec.ofNat 32 (h.base.toNat + span xs))
    (target - BitVec.ofNat 32 (h.base.toNat + span xs) - HEADER) false
    (by omega) (by omega) (by omega)
  rw [hblock] at hview
  refine ⟨true, t, _, ?_, .cut hc hnal hnlarge hn.symm hwrote ?_ fun p h1 h2 => ?_⟩
  · rw [shrinkTail, Prog.bind_ok hused, if_neg hgo, if_pos hgt,
      if_neg (by rw [BitVec.lt_def, hsixteen]; exact hsmall), Prog.bind_ok hrun, Prog.run_pure]
  · refine hview.tiles hlo (by simp only [span_append, span_cons, span_nil, cut]; omega) ?_
    refine tiles_append.mpr ⟨tiles_congr (fun p hp => ?_) (tiles_append.mp htiles).1, ?_, trivial⟩
    · have := hp.bounds
      exact putHeader_other _ _ _ (by omega)
    · rw [hsize]
      have hput := header_putHeader s.virt (h.base.toNat + span xs) (cut c n hnal hnlarge)
      rw [show (cut c n hnal hnlarge).used = false from hc] at hput
      exact hput
  · rw [hview.sees p h1 (by omega)]
    exact putHeader_other _ _ _ (by omega)

end Tail

/-! ## `shrink` -/

section Shrink

variable {bs bs' : List Block}

/-- The pages that stay are none of those given back, and share no frame with them. -/
theorem outOfReach_kept (ha : a ≤ h.brk.toNat / 4096)
    (howned : u.Owned (h.base.toNat / 4096) (h.brk.toNat / 4096))
    (hback : ∀ p e, h.base.toNat / 4096 ≤ p → p < h.brk.toNat / 4096 → u.leaf p = some e →
      h.Backs p e) :
    OutOfReach { p | a ≤ p ∧ p < h.brk.toNat / 4096 } (h.unused a) u (h.base.toNat / 4096) a := by
  intro p h1 h2
  refine ⟨fun hm => absurd hm.1 (by omega), fun e he => not_mine.mpr
    ⟨howned.notFree h1 (by omega) he, howned.notTable h1 (by omega) he, ?_, ?_⟩⟩
  · rintro ⟨hb, hge, _⟩
    have := (hback p e h1 (by omega) he).2 hb
    omega
  · rintro ⟨q, ⟨hq, hq'⟩, _, e', he', heq⟩
    have := howned.inj (by omega) hq' h1 (by omega) he' he heq
    omega

/-- The header of the last block written and the break moved down to page `a`. -/
theorem Inv.shrink_effect (hi : Inv h s bs) (hlo : h.base.toNat ≤ 4096 * a)
    (hhi : 4096 * a ≤ h.brk.toNat)
    (hw : Wrote (h.base.toNat / 4096) (h.brk.toNat / 4096) s u)
    (hs : Shrank h u t a (h.brk.toNat / 4096)) {target : U32} (htarget : target.toNat = 4096 * a)
    (htiles : Tiles u.virt h.base.toNat bs')
    (hspan : h.base.toNat + Blocks.span bs' = target.toNat)
    (hkeep : ∀ q n, (q, n) ∈ Blocks.usedAt h.base.toNat bs → q + 8 + n ≤ 4096 * a ∧
      ∀ p, q + 8 ≤ p → p < q + 8 + n → u.virt p = s.virt p) :
    Effect h { h with brk := target } s t bs bs' := by
  obtain ⟨hbase, hbrk⟩ := hi.pages
  have hib := hi.brk_le
  have hle := hi.owned.hi_le
  have hlim := hi.placed.limit_page
  have hdiv : target.toNat / 4096 = a := by omega
  have hupaged := hw.paged hi.paged hi.owned
  have huowned := hw.owned hi.paged hi.owned
  have huleaf : ∀ {p}, p < 1023 * 1024 → u.leaf p = s.leaf p := fun hp =>
    hw.leaf hi.paged hi.owned (by omega)
  have hback : ∀ p e, h.base.toNat / 4096 ≤ p → p < h.brk.toNat / 4096 → u.leaf p = some e →
      h.Backs p e := by
    intro p e h1 h2 he
    rw [huleaf (by omega)] at he
    exact hi.backed p e h1 h2 he
  have hfar := outOfReach_kept (a := a) (by omega) huowned hback
  have hvirt : ∀ x, h.base.toNat ≤ x → x < 4096 * a → t.virt x = u.virt x := fun x h1 h2 =>
    hs.confined.virt (huowned.mono (le_refl _) (by omega)) hfar (by omega) (by omega)
  refine ⟨⟨hi.placed.withBrk target, hs.confined.paged, ?_, ?_, ?_, ?_, fun p e h1 h2 he => ?_,
    fun hb => ?_, fun k hk => ?_, ?_, hspan⟩, rfl, ?_, fun q n hq p h1 h2 => ?_,
    fun hclear p h1 h2 => ?_⟩
  · show target.toNat % 4096 = 0
    omega
  · show h.base.toNat ≤ target.toNat
    omega
  · show target.toNat ≤ h.limit.toNat
    omega
  · show t.Owned _ (target.toNat / 4096)
    rw [hdiv]
    exact hs.confined.owned (huowned.mono (le_refl _) (by omega)) hfar
  · have h2' : p < a := hdiv ▸ h2
    have h1' : h.base.toNat / 4096 ≤ p := h1
    rw [hs.confined.leaf p (by omega) (hfar p h1' h2').1] at he
    exact hback p e h1' (by omega) he
  · show h.physBase.toNat + (target.toNat - h.base.toNat) ≤ h.physEnd.toNat
    have := hi.fits hb
    omega
  · obtain ⟨hfree, htab⟩ := hi.spare k hk
    have hb : h.backing = .contiguous := hk.1
    rw [hs.frames hb, hw.pmm, hs.tables, (hw.sameTables hi.owned).isTable_iff hi.paged]
    exact ⟨hfree, htab⟩
  · refine tiles_congr (fun p hp => ?_) htiles
    have hb1 : h.base.toNat ≤ p := hp.bounds.1
    have hb2 : p < h.base.toNat + Blocks.span bs' := hp.bounds.2
    exact hvirt p hb1 (by omega)
  · refine (hi.wrote_confined hw).trans
      (hs.confined.mono (fun p hp => ⟨?_, ?_⟩) (h.unused_subset_window a))
    · have := hp.1
      omega
    · have := hp.2
      omega
  · obtain ⟨hend, hsame⟩ := hkeep q n hq
    have := usedAt_bounds hq
    rw [hvirt p (by omega) (by omega), hsame p h1 h2]
  · have h1' : a ≤ p := hdiv ▸ h1
    have h2' : p < h.limit.toNat / 4096 := h2
    rcases Nat.lt_or_ge p (h.brk.toNat / 4096) with hp | hp
    · exact hs.gone p h1' hp
    · rw [hs.confined.leaf p (by omega) fun hm => absurd hm.2 (by omega), huleaf (by omega)]
      exact hclear p hp h2'

/-- The break that `shrink` aims at. -/
def target (h : Heap) (pages : U32) : U32 :=
  h.brk - (if pages * PAGE_SIZE ≤ h.brk - h.base then pages * PAGE_SIZE else h.brk - h.base)

theorem target_spec (hi : Inv h s bs) (pages : U32) :
    ∃ a, (h.target pages).toNat = 4096 * a ∧ h.base.toNat ≤ 4096 * a ∧ 4096 * a ≤ h.brk.toNat := by
  obtain ⟨hbase, hbrk⟩ := hi.pages
  have hle := hi.base_le
  have hmost : (h.brk - h.base).toNat = h.brk.toNat - h.base.toNat :=
    BitVec.toNat_sub_of_le (by rw [BitVec.le_def]; exact hle)
  unfold target
  split
  · rename_i hsmall
    rw [BitVec.le_def, hmost] at hsmall
    have hmul : (pages * PAGE_SIZE).toNat % 4096 = 0 := by
      rw [BitVec.toNat_mul, show PAGE_SIZE.toNat = 4096 from rfl]
      omega
    refine ⟨(h.brk.toNat - (pages * PAGE_SIZE).toNat) / 4096, ?_, ?_, ?_⟩
    · rw [BitVec.toNat_sub_of_le (by rw [BitVec.le_def]; omega)]
      omega
    · omega
    · omega
  · refine ⟨h.base.toNat / 4096, ?_, by omega, by omega⟩
    rw [BitVec.toNat_sub_of_le (by rw [BitVec.le_def, hmost]; omega), hmost]
    omega

/-- The pages from `a` up to `b` lost their frames, and no other page changed.  The frames are free
again unless they belong to the block. -/
structure GaveBack (h : Heap) (s t : Machine) (a b : Nat) : Prop where
  leaf : ∀ p, p < 1023 * 1024 → t.leaf p = if a ≤ p ∧ p < b then none else s.leaf p
  tables : ∀ k, t.IsTable k ↔ s.IsTable k
  block : h.backing = .contiguous → t.pmm = s.pmm
  freed : h.backing = .scattered → ∀ k,
    k ∈ t.pmm.frames ↔ k ∈ s.pmm.frames ∨ s.Behind { p | a ≤ p ∧ p < b } k

theorem Inv.gaveBack (hi : Inv h s bs) (hw : Wrote (h.base.toNat / 4096) (h.brk.toNat / 4096) s u)
    (hlo : h.base.toNat / 4096 ≤ a) (hs : Shrank h u t a (h.brk.toNat / 4096)) :
    GaveBack h s t a (h.brk.toNat / 4096) := by
  have hle := hi.owned.hi_le
  have hleaf : ∀ p, p < 1023 * 1024 → u.leaf p = s.leaf p := fun p hp =>
    hw.leaf hi.paged hi.owned (by omega)
  have htab : ∀ k, t.IsTable k ↔ s.IsTable k := fun k =>
    (hs.tables k).trans ((hw.sameTables hi.owned).isTable_iff hi.paged)
  refine ⟨fun p hp => ?_, htab, fun hc => (hs.frames hc).trans hw.pmm, fun hsc k => ?_⟩
  · split
    · rename_i hab
      exact hs.gone p hab.1 hab.2
    · rename_i hab
      rw [hs.confined.leaf p hp hab, hleaf p hp]
  · -- what the pass may use is free, a table or behind the pages, before and after
    have hmine := hs.confined.mine k
    have hnone : ¬t.Behind { p | a ≤ p ∧ p < h.brk.toNat / 4096 } k := by
      rintro ⟨p, hp, _, e, he, _⟩
      rw [hs.gone p hp.1 hp.2] at he
      cases he
    have hunused : k ∉ h.unused a := fun hk => by
      have hc := hk.1
      rw [hsc] at hc
      cases hc
    have hbehind : u.Behind { p | a ≤ p ∧ p < h.brk.toNat / 4096 } k ↔
        s.Behind { p | a ≤ p ∧ p < h.brk.toNat / 4096 } k :=
      behind_congr fun p hp _ => hleaf p hp
    unfold Mine at hmine
    rw [htab, (hw.sameTables hi.owned).isTable_iff hi.paged, hw.pmm, hbehind] at hmine
    constructor
    · intro hk
      rcases hmine.mp (Or.inl hk) with hk' | hk' | hk' | hk'
      · exact Or.inl hk'
      · exact absurd hk (hs.confined.paged.tablesUsed k ((htab k).mpr hk'))
      · exact absurd hk' hunused
      · exact Or.inr hk'
    · intro hk
      have hnt : ¬s.IsTable k := by
        rcases hk with hk | ⟨p, hp, _, e, he, rfl⟩
        · exact hi.paged.not_isTable hk
        · exact hi.owned.notTable (hlo.trans hp.1) hp.2 he
      rcases hmine.mpr (hk.imp_right fun hk => Or.inr (Or.inr hk)) with hk | hk | hk | hk
      · exact hk
      · exact absurd hk hnt
      · exact absurd hk hunused
      · exact absurd hk hnone

/-- The outcomes of `shrink` for a break at `target`. -/
inductive Shrink (h : Heap) (s : Machine) (bs : List Block) (target : U32) :
    Bool → Heap → Machine → List Block → Prop where
  | same (heq : target = h.brk) : Shrink h s bs target true h s bs
  | refused {xs : List Block} {c : Block} (hbs : bs = xs ++ [c])
      (hlt : target.toNat < h.brk.toNat)
      (hwhy : c.used = true ∨ target.toNat < h.base.toNat + Blocks.span xs ∨
        h.base.toNat + Blocks.span xs < target.toNat ∧
          target.toNat < h.base.toNat + Blocks.span xs + 16)
      {t : Machine} (hu : Untouched s t) : Shrink h s bs target false h t bs
  | cut {xs : List Block} {c : Block} (hbs : bs = xs ++ [c]) (hc : c.used = false)
      (hlt : target.toNat < h.brk.toNat) {n : Nat} (hal : n % 8 = 0) (hlarge : n + 8 ≤ c.size)
      (htarget : target.toNat + n = h.base.toNat + Blocks.span xs + (8 + c.size)) {t : Machine}
      (he : Effect h { h with brk := target } s t bs (xs ++ [cut c n hal hlarge]))
      (hg : GaveBack h s t (target.toNat / 4096) (h.brk.toNat / 4096)) :
      Shrink h s bs target true { h with brk := target } t (xs ++ [Blocks.cut c n hal hlarge])
  | drop {xs : List Block} {c : Block} (hbs : bs = xs ++ [c]) (hc : c.used = false)
      (hlt : target.toNat < h.brk.toNat) (htarget : target.toNat = h.base.toNat + Blocks.span xs)
      {t : Machine} (he : Effect h { h with brk := target } s t bs xs)
      (hg : GaveBack h s t (target.toNat / 4096) (h.brk.toNat / 4096)) :
      Shrink h s bs target true { h with brk := target } t xs

theorem Shrink.brk_le {target : U32} {ok : Bool} {h' : Heap} {bs' : List Block}
    (hs : Shrink h s bs target ok h' t bs') : h'.brk.toNat ≤ h.brk.toNat := by
  cases hs with
  | same => exact Nat.le_refl _
  | refused => exact Nat.le_refl _
  | cut _ _ hlt => exact Nat.le_of_lt hlt
  | drop _ _ hlt => exact Nat.le_of_lt hlt

/-- Whatever the outcome, no block in use is touched. -/
theorem Shrink.effect {target : U32} {ok : Bool} {h' : Heap} (hi : Inv h s bs)
    (hs : Shrink h s bs target ok h' t bs') : Effect h h' s t bs bs' ∧
      Blocks.usedAt h.base.toNat bs' = Blocks.usedAt h.base.toNat bs := by
  cases hs with
  | same => exact ⟨.untouched hi (.refl s), rfl⟩
  | refused _ _ _ hu => exact ⟨.untouched hi hu, rfl⟩
  | cut hbs hc _ _ _ _ he =>
    refine ⟨he, ?_⟩
    rw [hbs, usedAt_append, usedAt_append, usedAt_free hc, usedAt_free (b := Blocks.cut _ _ _ _) hc]
    rfl
  | drop hbs hc _ _ he =>
    refine ⟨he, ?_⟩
    rw [hbs, usedAt_append, usedAt_free hc]
    exact (List.append_nil _).symm

/-- The pages that go are the heap's own, whatever was written before. -/
theorem Inv.run_shrinkLoop (hi : Inv h s bs)
    (hw : Wrote (h.base.toNat / 4096) (h.brk.toNat / 4096) s u) {target : U32}
    (htarget : target.toNat = 4096 * a) (hlo : h.base.toNat ≤ 4096 * a)
    (hhi : 4096 * a ≤ h.brk.toNat) :
    ∃ t, (h.shrinkLoop PASSES target).run u = .ok ((), t) ∧
      Shrank h u t a (h.brk.toNat / 4096) := by
  obtain ⟨hbase, hbrk⟩ := hi.pages
  have hle := hi.owned.hi_le
  have hlt := h.brk.isLt
  have hfits : h.backing = .contiguous → h.physBase.toNat / 4096
      + (h.brk.toNat / 4096 - h.base.toNat / 4096) ≤ h.physEnd.toNat / 4096 := fun hb => by
    have := hi.fits hb
    omega
  refine shrinkLoop_run (b := h.brk.toNat / 4096) hbrk.symm hfits (h.brk.toNat / 4096 - a) PASSES
    target a (by omega) ?_ htarget (by omega) (hw.paged hi.paged hi.owned)
    ((hw.owned hi.paged hi.owned).mono (by omega) (le_refl _)) fun p e h1 h2 he => ?_
  · show h.brk.toNat / 4096 - a < 2 ^ 32
    omega
  · rw [hw.leaf hi.paged hi.owned (by omega)] at he
    exact hi.backed p e (by omega) h2 he

/-- `shrink` of a heap with a last block does what the tests on that block say. -/
theorem run_shrink {pages block : U32} {go : Bool}
    (hne : (if pages * PAGE_SIZE ≤ h.brk - h.base then pages * PAGE_SIZE
      else h.brk - h.base) ≠ 0)
    (hlast : (h.lastBlock h.brk).run s = .ok (some block, s))
    (htail : (h.shrinkTail (h.target pages) block).run s = .ok (go, u)) :
    (h.shrink pages).run s =
      (if go = true then (do
        shrinkLoop h PASSES (h.target pages)
        pure (true, { h with brk := h.target pages }))
      else pure (false, h) : Kernel (Bool × Heap)).run u := by
  rw [shrink]
  dsimp only
  rw [if_neg hne, Prog.bind_ok hlast]
  dsimp only
  rw [← target, Prog.bind_ok htail]

theorem shrink_run (hi : Inv h s bs) (pages : U32) :
    ∃ ok h' t bs', (h.shrink pages).run s = .ok ((ok, h'), t) ∧
      Shrink h s bs (h.target pages) ok h' t bs' := by
  obtain ⟨hbase, hbrk⟩ := hi.pages
  obtain ⟨a, htarget, hlo, hhi⟩ := target_spec hi pages
  have hspan := hi.span
  have hal := hi.placed.base_aligned
  have hle := hi.owned.hi_le
  have hdiv : (h.target pages).toNat / 4096 = a := by omega
  by_cases hzero : (if pages * PAGE_SIZE ≤ h.brk - h.base then pages * PAGE_SIZE
      else h.brk - h.base) = 0
  · refine ⟨true, h, s, bs, ?_, .same (by rw [target, hzero]; exact BitVec.sub_zero _)⟩
    rw [shrink]
    dsimp only
    rw [if_pos hzero, Prog.run_pure]
  have hne : (h.target pages).toNat ≠ h.brk.toNat := fun heq => by
    have := BitVec.eq_of_toNat_eq heq
    rw [target] at this
    bv_omega
  rcases List.eq_nil_or_concat bs with rfl | ⟨xs, c, rfl⟩
  · rw [span_nil] at hspan
    omega
  rw [List.concat_eq_append] at hi hspan ⊢
  have hsum := hspan
  rw [span_append, span_cons, span_nil] at hsum
  have hlast := run_lastBlock hi.view h (Nat.le_of_eq hi.pages.2.symm) hi.ahead
  rw [lastAt_snoc, Option.map_some] at hlast
  obtain ⟨go, u, bs', htail, hcase⟩ := shrinkTail_run hi.view (by omega) (by omega) hi.tiles
    (by omega) (h.target pages) (by omega) (by omega)
  -- the blocks in use end where the last block starts
  have hbelow : c.used = false → ∀ q n, (q, n) ∈ Blocks.usedAt h.base.toNat (xs ++ [c]) →
      (q, n) ∈ Blocks.usedAt h.base.toNat xs := by
    intro hc q n hq
    rw [usedAt_append, usedAt_free hc] at hq
    exact (List.mem_append.mp hq).resolve_right List.not_mem_nil
  have hrun := run_shrink hzero hlast htail
  cases hcase with
  | inUse hc =>
    exact ⟨false, h, _, _, hrun, .refused rfl (by omega) (hc.imp_right Or.inl)
      (untouched_report s (.topInUse h.name))⟩
  | tooSmall _ hgt hsmall =>
    exact ⟨false, h, _, _, hrun, .refused rfl (by omega) (Or.inr (Or.inr ⟨hgt, hsmall⟩))
      (untouched_report s (.topTooSmall h.name))⟩
  | cut hc hnal hnlarge hend hw htiles hkeep =>
    obtain ⟨t, hl, hs⟩ := hi.run_shrinkLoop hw htarget hlo hhi
    refine ⟨true, _, t, _, hrun.trans (Prog.bind_ok hl), .cut rfl hc (by omega) hnal hnlarge hend
      (hi.shrink_effect hlo hhi hw hs htarget htiles ?_ ?_) ?_⟩
    · simp only [span_append, span_cons, span_nil, Blocks.cut]
      omega
    · intro q n hq
      have := usedAt_bounds (hbelow hc q n hq)
      exact ⟨by omega, fun p h1 h2 => hkeep p (by omega) (by omega)⟩
    · rw [hdiv]
      exact hi.gaveBack hw (by omega) hs
  | drop hc hend =>
    obtain ⟨t, hl, hs⟩ := hi.run_shrinkLoop (.refl s) htarget hlo hhi
    refine ⟨true, _, t, _, hrun.trans (Prog.bind_ok hl), .drop rfl hc (by omega) hend
      (hi.shrink_effect hlo hhi (.refl s) hs htarget (tiles_append.mp hi.tiles).1 hend.symm ?_) ?_⟩
    · intro q n hq
      have := usedAt_bounds (hbelow hc q n hq)
      exact ⟨by omega, fun _ _ _ => rfl⟩
    · rw [hdiv]
      exact hi.gaveBack (.refl s) (by omega) hs

end Shrink

end Kfs.Heap
