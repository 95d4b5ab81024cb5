import Kfs.Heap.Walks
import Kfs.Paging.Confined

/-!
# The invariant of a heap

`Placed` is what the set-up of a heap fixes: an aligned range of addresses below the table window,
and for the contiguous heap a block of frames that its growth cannot leave by wrapping around.
`Inv h s bs` is what every operation keeps.  The pages below the break are mapped, each to a frame
of its own, and the headers of the blocks `bs` tile the memory from the base to the break.

* `Inv.elsewhere` is the frame rule: a step that is confined to other pages and other frames leaves
  the heap as it is, with its entries and its bytes.
* `Inv.wrote` is the rule for stores to the heap's own pages.
-/

namespace Kfs

open Lib Mem Paging

namespace Machine

variable {R D : Set Nat} {lo mid hi : Nat} {s t : Machine}

/-- The pages from `lo` up to `hi` and their frames are none that an operation on `R` with the
frames `D` may use. -/
def OutOfReach (R D : Set Nat) (s : Machine) (lo hi : Nat) : Prop :=
  ∀ p, lo ≤ p → p < hi → p ∉ R ∧ ∀ e, s.leaf p = some e → ¬s.Mine R D (frameNo e)

/-- Pages of somebody else keep their frames. -/
theorem Confined.owned (h : Confined R D s t) (ho : s.Owned lo hi)
    (hfar : OutOfReach R D s lo hi) : t.Owned lo hi := by
  have hle := ho.hi_le
  have hl : ∀ {p}, lo ≤ p → p < hi → t.leaf p = s.leaf p := fun hlo hhi =>
    h.leaf _ (by omega) (hfar _ hlo hhi).1
  refine ⟨hle, fun p hlo hhi => ?_, fun hp hp' hq hq' he he' => ?_, fun hlo hhi hleaf => ?_,
    fun hlo hhi hleaf => ?_⟩
  · rw [hl hlo hhi]
    exact ho.mapped p hlo hhi
  · rw [hl hp hp'] at he
    rw [hl hq hq'] at he'
    exact ho.inj hp hp' hq hq' he he'
  · rw [hl hlo hhi] at hleaf
    exact (h.not_mine ((hfar _ hlo hhi).2 _ hleaf)).2
  · rw [hl hlo hhi] at hleaf
    exact (h.not_mine ((hfar _ hlo hhi).2 _ hleaf)).1

/-- Pages of somebody else keep their bytes. -/
theorem Confined.virt (h : Confined R D s t) (ho : s.Owned lo hi)
    (hfar : OutOfReach R D s lo hi) {a : Nat} (hlo : 4096 * lo ≤ a) (hhi : a < 4096 * hi) :
    t.virt a = s.virt a := by
  have hle := ho.hi_le
  obtain ⟨e, hleaf, _⟩ := ho.mapped (a / 4096) (by omega) (by omega)
  obtain ⟨hR, hmine⟩ := hfar (a / 4096) (by omega) (by omega)
  have hleaf' : t.leaf (a / 4096) = some e := by rw [h.leaf _ (by omega) hR, hleaf]
  rw [virt_of_leaf hleaf', virt_of_leaf hleaf]
  refine h.mem _ ?_
  rw [show (4096 * frameNo e + a % 4096) / 4096 = frameNo e from by omega]
  exact hmine e hleaf

/-- Stores to the pages from `lo` up to `hi` are confined to them. -/
theorem Wrote.confined (h : Wrote lo hi s t) (hs : s.Paged) (ho : s.Owned lo hi)
    (hR : ∀ p, lo ≤ p → p < hi → p ∈ R) : Confined R D s t := by
  have hle := ho.hi_le
  rw [h.rest]
  refine confined_mem hs fun a ha => h.mem a fun p e hlo hhi hleaf heq => ha ?_
  rw [← heq]
  exact ⟨Or.inr (Or.inr (Or.inr ⟨p, hR p hlo hhi, by omega, e, hleaf, rfl⟩)),
    ho.notTable hlo hhi hleaf⟩

theorem Owned.mono (h : s.Owned lo hi) {lo' hi' : Nat} (hlo : lo ≤ lo') (hhi : hi' ≤ hi) :
    s.Owned lo' hi' :=
  ⟨hhi.trans h.hi_le, fun p h1 h2 => h.mapped p (by omega) (by omega),
    fun h1 h2 h3 h4 => h.inj (by omega) (by omega) (by omega) (by omega),
    fun h1 h2 => h.notTable (by omega) (by omega), fun h1 h2 => h.notFree (by omega) (by omega)⟩

/-- Two ranges that meet, with no frame in common. -/
theorem Owned.append (h : s.Owned lo mid) (h' : s.Owned mid hi)
    (hne : ∀ {p q : Nat} {e e' : U32}, lo ≤ p → p < mid → mid ≤ q → q < hi →
      s.leaf p = some e → s.leaf q = some e' → frameNo e ≠ frameNo e') : s.Owned lo hi := by
  refine ⟨h'.hi_le, fun p hlo hhi => ?_, fun {p q e e'} hp hp' hq hq' he he' heq => ?_,
    fun {p e} hlo hhi hleaf => ?_, fun {p e} hlo hhi hleaf => ?_⟩
  · rcases Nat.lt_or_ge p mid with hm | hm
    · exact h.mapped p hlo hm
    · exact h'.mapped p hm hhi
  · rcases Nat.lt_or_ge p mid with hm | hm <;> rcases Nat.lt_or_ge q mid with hn | hn
    · exact h.inj hp hm hq hn he he' heq
    · exact absurd heq (hne hp hm hn hq' he he')
    · exact absurd heq.symm (hne hq hn hm hp' he' he)
    · exact h'.inj hm hp' hn hq' he he' heq
  · rcases Nat.lt_or_ge p mid with hm | hm
    · exact h.notTable hlo hm hleaf
    · exact h'.notTable hm hhi hleaf
  · rcases Nat.lt_or_ge p mid with hm | hm
    · exact h.notFree hlo hm hleaf
    · exact h'.notFree hm hhi hleaf

theorem owned_empty (s : Machine) (h : lo ≤ 1023 * 1024) : s.Owned lo lo :=
  ⟨h, fun _ _ _ => by omega, fun _ _ _ _ => by omega, fun _ _ => by omega, fun _ _ => by omega⟩

/-- The headers that a view shows stand in the memory behind it. -/
theorem View.tiles {w : ByteMem} (hv : View lo hi w s) {a : Nat} {bs : List Block}
    (hlo : 4096 * lo ≤ a) (hhi : a + Blocks.span bs ≤ 4096 * hi) (h : Blocks.Tiles w a bs) :
    Blocks.Tiles s.virt a bs :=
  Blocks.tiles_congr (fun p hp => by
    have := hp.bounds
    exact hv.sees p (by omega) (by omega)) h

end Machine

namespace Heap

open Machine Blocks

/-- The pages of a heap's range of addresses. -/
def range (h : Heap) : Set Nat :=
  { p | h.base.toNat / 4096 ≤ p ∧ p < h.limit.toNat / 4096 }

/-- The frames of the block that was carved for a contiguous heap. -/
def window (h : Heap) : Set Nat :=
  { k | h.backing = .contiguous ∧ h.physBase.toNat / 4096 ≤ k ∧ k < h.physEnd.toNat / 4096 }

/-- What the set-up of a heap fixes. -/
structure Placed (h : Heap) : Prop where
  base_aligned : h.base.toNat % 4096 = 0
  limit_aligned : h.limit.toNat % 4096 = 0
  base_le : h.base.toNat ≤ h.limit.toNat
  limit_le : h.limit.toNat ≤ TABLE_WINDOW.toNat
  flags_lt : h.flags.toNat < 4096
  flags_writable : writable h.flags = true
  block : h.backing = .contiguous →
    h.physBase.toNat % 4096 = 0 ∧ h.physEnd.toNat % 4096 = 0 ∧
      h.physBase.toNat ≤ h.physEnd.toNat ∧
      (h.physEnd.toNat < 0xFFFFF000 ∨
        h.limit.toNat - h.base.toNat ≤ h.physEnd.toNat - h.physBase.toNat)

theorem Placed.limit_page {h : Heap} (hp : h.Placed) : h.limit.toNat / 4096 ≤ 1023 * 1024 := by
  have hle := hp.limit_le
  rw [show TABLE_WINDOW.toNat = 4096 * (1023 * 1024) from rfl] at hle
  omega

/-- The set-up does not depend on the break. -/
theorem Placed.withBrk {h : Heap} (hp : h.Placed) (brk : U32) : { h with brk := brk }.Placed :=
  ⟨hp.base_aligned, hp.limit_aligned, hp.base_le, hp.limit_le, hp.flags_lt, hp.flags_writable,
    hp.block⟩

/-- Entry `e` is the one that the heap gives page `p`. -/
def Backs (h : Heap) (p : Nat) (e : U32) : Prop :=
  e &&& 0xFFF = h.flags ||| PRESENT ∧
    (h.backing = .contiguous →
      frameNo e = h.physBase.toNat / 4096 + (p - h.base.toNat / 4096))

/-- The state of a heap whose blocks are `bs`. -/
structure Inv (h : Heap) (s : Machine) (bs : List Block) : Prop where
  placed : h.Placed
  paged : s.Paged
  brk_aligned : h.brk.toNat % 4096 = 0
  base_le : h.base.toNat ≤ h.brk.toNat
  brk_le : h.brk.toNat ≤ h.limit.toNat
  owned : s.Owned (h.base.toNat / 4096) (h.brk.toNat / 4096)
  backed : ∀ p e, h.base.toNat / 4096 ≤ p → p < h.brk.toNat / 4096 → s.leaf p = some e →
    h.Backs p e
  fits : h.backing = .contiguous →
    h.physBase.toNat + (h.brk.toNat - h.base.toNat) ≤ h.physEnd.toNat
  spare : ∀ k ∈ h.window, k ∉ s.pmm.frames ∧ ¬s.IsTable k
  tiles : Tiles s.virt h.base.toNat bs
  span : h.base.toNat + span bs = h.brk.toNat

namespace Inv

variable {h : Heap} {s t : Machine} {bs bs' : List Block} {R D : Set Nat}

theorem view (hi : Inv h s bs) :
    View (h.base.toNat / 4096) (h.brk.toNat / 4096) s.virt s :=
  .self hi.paged hi.owned

/-- The base and the break as multiples of the page size. -/
theorem pages (hi : Inv h s bs) : 4096 * (h.base.toNat / 4096) = h.base.toNat ∧
    4096 * (h.brk.toNat / 4096) = h.brk.toNat := by
  have h1 := hi.placed.base_aligned
  have h2 := hi.brk_aligned
  omega

/-- A walk begins at the base, with all blocks in front of it. -/
theorem ahead (hi : Inv h s bs) : Ahead (h.base.toNat / 4096) s.virt h.brk h.base bs := by
  have hal := hi.placed.base_aligned
  exact ⟨by omega, Nat.le_of_eq hi.pages.1, hi.tiles, hi.span⟩

theorem mem_range (hi : Inv h s bs) {p : Nat} (hlo : h.base.toNat / 4096 ≤ p)
    (hhi : p < h.brk.toNat / 4096) : p ∈ h.range := by
  have := hi.brk_le
  exact ⟨hlo, by omega⟩

/-- A step on other pages and other frames leaves the heap as it is. -/
theorem elsewhere (hi : Inv h s bs) (hc : Confined R D s t)
    (hfar : OutOfReach R D s (h.base.toNat / 4096) (h.brk.toNat / 4096))
    (hwin : ∀ k ∈ h.window, ¬s.Mine R D k) :
    Inv h t bs ∧ (∀ p, h.base.toNat / 4096 ≤ p → p < h.brk.toNat / 4096 → t.leaf p = s.leaf p) ∧
      ∀ a, h.base.toNat ≤ a → a < h.brk.toNat → t.virt a = s.virt a := by
  have hle := hi.owned.hi_le
  obtain ⟨hbase, hbrk⟩ := hi.pages
  have hleaf : ∀ p, h.base.toNat / 4096 ≤ p → p < h.brk.toNat / 4096 → t.leaf p = s.leaf p :=
    fun p h1 h2 => hc.leaf p (by omega) (hfar p h1 h2).1
  have hvirt : ∀ a, h.base.toNat ≤ a → a < h.brk.toNat → t.virt a = s.virt a := fun a h1 h2 =>
    hc.virt hi.owned hfar (by omega) (by omega)
  refine ⟨⟨hi.placed, hc.paged, hi.brk_aligned, hi.base_le, hi.brk_le, hc.owned hi.owned hfar,
    fun p e h1 h2 he => hi.backed p e h1 h2 (by rw [← hleaf p h1 h2]; exact he), hi.fits,
    fun k hk => hc.not_mine (hwin k hk), ?_, hi.span⟩, hleaf, hvirt⟩
  refine tiles_congr (fun p hp => ?_) hi.tiles
  have hb := hp.bounds
  have hspan := hi.span
  exact hvirt p (by omega) (by omega)

/-- The frames of a heap are not free and not tables, so an operation reaches them only through
its own pages or frames. -/
theorem outOfReach (hi : Inv h s bs) (hR : ∀ p ∈ h.range, p ∉ R)
    (hD : ∀ p e, h.base.toNat / 4096 ≤ p → p < h.brk.toNat / 4096 → s.leaf p = some e →
      frameNo e ∉ D ∧ ¬s.Behind R (frameNo e)) :
    OutOfReach R D s (h.base.toNat / 4096) (h.brk.toNat / 4096) := by
  intro p hlo hhi
  refine ⟨hR p (hi.mem_range hlo hhi), fun e he => not_mine.mpr ?_⟩
  exact ⟨hi.owned.notFree hlo hhi he, hi.owned.notTable hlo hhi he, hD p e hlo hhi he⟩

theorem untouched (hi : Inv h s bs) (hu : Untouched s t) : Inv h t bs := by
  refine (hi.elsewhere (R := ∅) (D := ∅) (hu.confined hi.paged) (hi.outOfReach ?_ ?_) ?_).1
  · exact fun _ _ => Set.notMem_empty _
  · rintro p e _ _ _
    exact ⟨Set.notMem_empty _, not_behind_empty⟩
  · intro k hk
    obtain ⟨hfree, htab⟩ := hi.spare k hk
    exact not_mine.mpr ⟨hfree, htab, Set.notMem_empty _, not_behind_empty⟩

/-- Stores to the heap's own pages that leave headers of the same extent. -/
theorem wrote (hi : Inv h s bs)
    (hw : Wrote (h.base.toNat / 4096) (h.brk.toNat / 4096) s t)
    (htiles : Tiles t.virt h.base.toNat bs') (hspan : Blocks.span bs' = Blocks.span bs) :
    Inv h t bs' := by
  have hle := hi.owned.hi_le
  have hsame := hw.sameTables hi.owned
  refine ⟨hi.placed, hw.paged hi.paged hi.owned, hi.brk_aligned, hi.base_le, hi.brk_le,
    hw.owned hi.paged hi.owned, fun p e h1 h2 he => hi.backed p e h1 h2 ?_, hi.fits,
    fun k hk => ?_, htiles, by rw [hspan]; exact hi.span⟩
  · rw [← hw.leaf hi.paged hi.owned (by omega)]
    exact he
  · obtain ⟨hfree, htab⟩ := hi.spare k hk
    rw [hw.pmm, hsame.isTable_iff hi.paged]
    exact ⟨hfree, htab⟩

/-- Such stores are confined to the range of the heap. -/
theorem wrote_confined (hi : Inv h s bs)
    (hw : Wrote (h.base.toNat / 4096) (h.brk.toNat / 4096) s t) :
    Confined h.range h.window s t :=
  hw.confined hi.paged hi.owned fun _ h1 h2 => hi.mem_range h1 h2

end Inv

/-! ## What an operation on a heap does -/

/-- No page from the break up to the limit is mapped. -/
def Clear (h : Heap) (s : Machine) : Prop :=
  ∀ p, h.brk.toNat / 4096 ≤ p → p < h.limit.toNat / 4096 → s.leaf p = none

/-- The payloads of the blocks in use are as they were. -/
def Keeps (h : Heap) (bs : List Block) (s t : Machine) : Prop :=
  ∀ q n, (q, n) ∈ Blocks.usedAt h.base.toNat bs → ∀ p, q + 8 ≤ p → p < q + 8 + n →
    t.virt p = s.virt p

/-- An operation of a heap with the blocks `bs` that leaves it with the blocks `bs'`. -/
structure Effect (h h' : Heap) (s t : Machine) (bs bs' : List Block) : Prop where
  inv : Inv h' t bs'
  same : h' = { h with brk := h'.brk }
  confined : Confined h.range h.window s t
  keeps : h.Keeps bs s t
  clear : h.Clear s → h'.Clear t

namespace Effect

variable {h h' h'' : Heap} {s t u : Machine} {bs bs' bs'' : List Block}

theorem range (he : Effect h h' s t bs bs') : h'.range = h.range := by
  rw [he.same]
  rfl

theorem window (he : Effect h h' s t bs bs') : h'.window = h.window := by
  rw [he.same]
  rfl

theorem base (he : Effect h h' s t bs bs') : h'.base = h.base := by rw [he.same]

theorem trans (h1 : Effect h h' s u bs bs') (h2 : Effect h' h'' u t bs' bs'')
    (hsub : ∀ x ∈ Blocks.usedAt h.base.toNat bs, x ∈ Blocks.usedAt h.base.toNat bs') :
    Effect h h'' s t bs bs'' where
  inv := h2.inv
  same := by
    rw [h2.same, h1.same]
  confined := by
    have hc := h2.confined
    rw [h1.range, h1.window] at hc
    exact h1.confined.trans hc
  keeps q n hq p hlo hhi := by
    have hq' := hsub _ hq
    rw [← h1.base] at hq'
    rw [h2.keeps q n hq' p hlo hhi, h1.keeps q n hq p hlo hhi]
  clear hclear := h2.clear (h1.clear hclear)

theorem untouched (hi : Inv h s bs) (hu : Untouched s t) : Effect h h s t bs bs := by
  refine ⟨hi.untouched hu, rfl, hu.confined hi.paged, fun _ _ _ _ _ _ => ?_, fun hc => ?_⟩
  · rw [hu.eq]
    rfl
  · rw [hu.eq]
    exact hc

/-- Stores to the heap's own pages that leave headers of the same extent and no byte of a payload
in use changed. -/
theorem wrote (hi : Inv h s bs) (hw : Wrote (h.base.toNat / 4096) (h.brk.toNat / 4096) s t)
    (htiles : Tiles t.virt h.base.toNat bs') (hspan : span bs' = span bs) (hk : h.Keeps bs s t) :
    Effect h h s t bs bs' := by
  refine ⟨hi.wrote hw htiles hspan, rfl, hi.wrote_confined hw, hk, fun hc p hlo hhi => ?_⟩
  have := hi.placed.limit_page
  rw [hw.leaf hi.paged hi.owned (by omega)]
  exact hc p hlo hhi

end Effect

end Heap

end Kfs
