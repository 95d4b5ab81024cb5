import Mathlib.Data.Finset.Max
import Kfs.Pmm.FrameSet

/-!
# Every sequence of allocator calls is a sequence of set operations

`Op` is one call of the allocator's interface and `Op.Effect` says what it does to the set of
free frames: which frames it names, and that every other frame keeps its bit.  `Op.effect_holds`
proves it for every state, and `run_counted` carries the counter through every run.
-/

namespace Kfs.Pmm

open Mem Multiboot

/-- The frames `init` marks for a list of regions. -/
def marked (regions : List Region) : Finset Nat :=
  regions.foldr (fun r s => Finset.Ico (firstOf r) (lastOf r) ∪ s) ∅

theorem marked_cons (r : Region) (rs : List Region) :
    marked (r :: rs) = Finset.Ico (firstOf r) (lastOf r) ∪ marked rs := rfl

theorem mem_marked {regions : List Region} {k : Nat} :
    k ∈ marked regions ↔ ∃ r ∈ regions, firstOf r ≤ k ∧ k < lastOf r := by
  induction regions with
  | nil => simp [marked]
  | cons r rs ih =>
    rw [marked_cons, Finset.mem_union, ih]
    simp

/-- The last frame of the address space is never marked: a region ends below `2 ^ 32`, and its
end is rounded down. -/
theorem lt_of_mem_marked {regions : List Region} {k : Nat} (h : k ∈ marked regions) :
    k < 0xFFFFF := by
  obtain ⟨r, _, _, hk⟩ := mem_marked.mp h
  have hlt : r.finish.toNat < 2 ^ 32 := r.finish.isLt
  rw [lastOf, frameOf_eq] at hk
  omega

/-! ## One call -/

theorem frames_initRegion (p : Pmm) (r : Region) :
    (p.initRegion r).frames = p.frames ∪ Finset.Ico (firstOf r) (lastOf r) := by
  have hlast : lastOf r < MAX_FRAMES := frameOf_lt _
  rcases Nat.lt_or_ge (firstOf r) (lastOf r) with h | h
  · rw [initRegion, frames_initFrames _ _ _ (by omega),
      show firstOf r + (lastOf r - firstOf r) = lastOf r from by omega]
  · rw [initRegion, show lastOf r - firstOf r = 0 from by omega, Finset.Ico_eq_empty (by omega)]
    simp [initFrames]

theorem frames_init (p : Pmm) (ram : Ram) :
    (p.init ram).frames = p.frames ∪ marked ram.regions := by
  unfold init
  induction ram.regions generalizing p with
  | nil => simp [marked]
  | cons r rs ih =>
    rw [List.foldl_cons, ih, frames_initRegion, marked_cons, Finset.union_assoc]

theorem frames_reserve (p : Pmm) (start finish : U32) (h : finish.toNat + 4095 < 2 ^ 32) :
    (p.reserve start finish).frames
      = p.frames \ Finset.Ico (start.toNat / 4096) ((finish.toNat + 4095) / 4096) := by
  have hround : (finish + PAGE_SIZE - 1).toNat = finish.toNat + 4095 := by bv_omega
  have hlast : frameOf (finish + PAGE_SIZE - 1) = (finish.toNat + 4095) / 4096 := by
    rw [frameOf_eq, hround]
  rw [reserve, frames_useFrames, hlast, frameOf_eq]
  rcases Nat.lt_or_ge (start.toNat / 4096) ((finish.toNat + 4095) / 4096) with hlt | hge
  · rw [Nat.add_sub_cancel' (Nat.le_of_lt hlt)]
  · rw [Finset.Ico_eq_empty (by omega), Finset.Ico_eq_empty (by omega)]

theorem frames_freeFrame (p : Pmm) (phys : U32) :
    (p.freeFrame phys).frames = insert (phys.toNat / 4096) p.frames := by
  rw [freeFrame, frames_setFree p (frameOf_lt phys), frameOf_eq]

/-- `alloc_range` removes the frames of the run it returns, or changes nothing. -/
theorem allocRange_spec (p : Pmm) (count : Nat) :
    p.allocRange count = (none, p) ∨
      ∃ b, p.findRun count = some b ∧ 0 < count ∧ p.IsRun b count ∧
        (∀ b', b' < b → ¬p.IsRun b' count) ∧ b + count ≤ MAX_FRAMES ∧
        p.allocRange count = (some (addressOf b), useFrames b count p) := by
  rcases findRun_spec p count with ⟨b, hb, hc, hrun, hmin⟩ | ⟨hnone, _⟩
  · exact Or.inr ⟨b, hb, hc, hrun, hmin, hrun.add_le hc, by simp [allocRange, hb]⟩
  · exact Or.inl (by simp [allocRange, hnone])

/-- `carve` returns a run of some length and removes it, or changes nothing. -/
theorem carveFrom_spec (p : Pmm) (fuel : Nat) : ∀ pages,
    carveFrom fuel pages p = (none, p) ∨
      ∃ b n, 16 ≤ n ∧ n ≤ pages ∧ p.IsRun b n ∧ b + n ≤ MAX_FRAMES ∧
        carveFrom fuel pages p
          = (some (addressOf b, addressOf b + BitVec.ofNat 32 n * PAGE_SIZE),
              useFrames b n p) := by
  induction fuel with
  | zero => exact fun _ => Or.inl rfl
  | succ fuel ih =>
    intro pages
    rw [carveFrom]
    split
    · rename_i h16
      rcases allocRange_spec p pages with hnone | ⟨b, _, _, hrun, _, hle, hsome⟩
      · rw [hnone]
        rcases ih (pages / 2) with h | ⟨b, n, hn, hnp, hrun, hle, h⟩
        · exact Or.inl h
        · exact Or.inr ⟨b, n, hn, by omega, hrun, hle, h⟩
      · rw [hsome]
        exact Or.inr ⟨b, pages, h16, Nat.le_refl pages, hrun, hle, rfl⟩
    · exact Or.inl rfl

theorem carve_spec (p : Pmm) (size : U32) :
    p.carve size = (none, p) ∨
      ∃ b n, 16 ≤ n ∧ n ≤ size.toNat / 4096 ∧ p.IsRun b n ∧ b + n ≤ MAX_FRAMES ∧
        p.carve size = (some (addressOf b, addressOf b + BitVec.ofNat 32 n * PAGE_SIZE),
          useFrames b n p) := by
  have h := carveFrom_spec p ((size / PAGE_SIZE).toNat + 1) (size / PAGE_SIZE).toNat
  rw [BitVec.toNat_udiv, show PAGE_SIZE.toNat = 4096 from rfl] at h
  exact h

/-- A run of the size asked for is enough. -/
theorem carve_ne_none {p : Pmm} (size : U32) (hsize : 16 ≤ size.toNat / 4096) {b : Nat}
    (hrun : p.IsRun b (size.toNat / 4096)) : (p.carve size).1 ≠ none := by
  rw [carve, BitVec.toNat_udiv, show PAGE_SIZE.toNat = 4096 from rfl, carveFrom, if_pos hsize]
  rcases findRun_spec p (size.toNat / 4096) with ⟨b', hb', _⟩ | ⟨_, hzero | hall⟩
  · rw [allocRange, hb']
    exact Option.some_ne_none _
  · omega
  · exact absurd hrun (hall b)

/-! ## Runs -/

/-- A call of the allocator's interface. -/
inductive Op where
  | init (ram : Ram)
  | reserve (start finish : U32)
  | allocFrame
  | allocRange (count : U32)
  | carve (size : U32)
  | freeFrame (phys : U32)

namespace Op

/-- What a call leaves in the statics. -/
def apply : Op → Pmm → Pmm
  | init ram, p => p.init ram
  | reserve start finish, p => p.reserve start finish
  | allocFrame, p => p.allocFrame.2
  | allocRange count, p => (p.allocRange count.toNat).2
  | carve size, p => (p.carve size).2
  | freeFrame phys, p => p.freeFrame phys

/-- The end of a reservation can be rounded up to a page without a wrap. -/
def Fits : Op → Prop
  | reserve _ finish => finish.toNat + 4095 < 2 ^ 32
  | _ => True

/-- What a call returns and what it does to the set of free frames. -/
def Effect : Op → Pmm → Prop
  | init ram, p => (p.init ram).frames = p.frames ∪ marked ram.regions
  | reserve start finish, p => (p.reserve start finish).frames
      = p.frames \ Finset.Ico (start.toNat / 4096) ((finish.toNat + 4095) / 4096)
  | allocFrame, p =>
      (p.allocFrame.1 = none ↔ p.frames = ∅) ∧
      (p.allocFrame.1 = none → p.allocFrame.2 = p) ∧
      ∀ a, p.allocFrame.1 = some a → ∃ h : p.frames.Nonempty,
        a.toNat = 4096 * p.frames.min' h ∧
          p.allocFrame.2.frames = p.frames.erase (p.frames.min' h)
  | allocRange count, p =>
      ((p.allocRange count.toNat).1 = none → (p.allocRange count.toNat).2 = p) ∧
      ∀ a, (p.allocRange count.toNat).1 = some a → ∃ b, a.toNat = 4096 * b ∧
        Finset.Ico b (b + count.toNat) ⊆ p.frames ∧
          (p.allocRange count.toNat).2.frames = p.frames \ Finset.Ico b (b + count.toNat)
  | carve size, p =>
      ((p.carve size).1 = none → (p.carve size).2 = p) ∧
      ∀ a e, (p.carve size).1 = some (a, e) → ∃ b n, a.toNat = 4096 * b ∧
        e = a + BitVec.ofNat 32 (4096 * n) ∧ Finset.Ico b (b + n) ⊆ p.frames ∧
          (p.carve size).2.frames = p.frames \ Finset.Ico b (b + n)
  | freeFrame phys, p => (p.freeFrame phys).frames = insert (phys.toNat / 4096) p.frames ∧
      (phys.toNat / 4096 ∈ p.frames → p.freeFrame phys = p)

end Op

theorem allocFrame_effect (p : Pmm) : Op.allocFrame.Effect p := by
  rcases allocFrame_spec p with ⟨hempty, hrun⟩ | ⟨k, hk, hmin, hrun⟩
  · rw [Op.Effect, hrun]
    exact ⟨by simp [hempty], fun _ => rfl, fun a ha => (by cases ha)⟩
  · have hne : p.frames.Nonempty := ⟨k, hk⟩
    have hkmin : p.frames.min' hne = k := by
      refine le_antisymm (Finset.min'_le _ _ hk) (Finset.le_min' _ _ _ fun j hj => ?_)
      by_contra hlt
      exact hmin j (Nat.lt_of_not_le hlt) hj
    rw [Op.Effect, hrun]
    refine ⟨by simpa using hne.ne_empty, fun h => (by cases h), fun a ha => ⟨hne, ?_, ?_⟩⟩
    · rw [← Option.some.inj ha, hkmin, toNat_addressOf (lt_of_mem_frames hk)]
    · rw [hkmin, frames_setUsed]

theorem IsRun.Ico_subset {p : Pmm} {b n : Nat} (h : p.IsRun b n) :
    Finset.Ico b (b + n) ⊆ p.frames := fun k hk => by
  rw [Finset.mem_Ico] at hk
  exact h k hk.1 hk.2

theorem allocRange_effect (p : Pmm) (count : U32) : (Op.allocRange count).Effect p := by
  rcases allocRange_spec p count.toNat with hnone | ⟨b, _, hc, hrun, _, hle, hsome⟩
  · rw [Op.Effect, hnone]
    exact ⟨fun _ => rfl, fun a ha => (by cases ha)⟩
  · rw [Op.Effect, hsome]
    refine ⟨fun h => (by cases h), fun a ha => ⟨b, ?_, hrun.Ico_subset, frames_useFrames _ _ _⟩⟩
    rw [← Option.some.inj ha, toNat_addressOf (by omega)]

theorem carve_effect (p : Pmm) (size : U32) : (Op.carve size).Effect p := by
  rcases carve_spec p size with hnone | ⟨b, n, hn, _, hrun, hle, hsome⟩
  · rw [Op.Effect, hnone]
    exact ⟨fun _ => rfl, fun a e ha => (by cases ha)⟩
  · rw [Op.Effect, hsome]
    refine ⟨fun h => (by cases h), fun a e ha => ⟨b, n, ?_, ?_, hrun.Ico_subset,
      frames_useFrames _ _ _⟩⟩
    · obtain ⟨rfl, rfl⟩ := Prod.mk.inj (Option.some.inj ha)
      rw [toNat_addressOf (by omega)]
    · obtain ⟨rfl, rfl⟩ := Prod.mk.inj (Option.some.inj ha)
      rw [Nat.mul_comm, BitVec.ofNat_mul]
      rfl

theorem Op.effect_holds (op : Op) (hop : op.Fits) (p : Pmm) : op.Effect p := by
  cases op with
  | init ram => exact frames_init p ram
  | reserve start finish => exact frames_reserve p start finish hop
  | allocFrame => exact allocFrame_effect p
  | allocRange count => exact allocRange_effect p count
  | carve size => exact carve_effect p size
  | freeFrame phys =>
    refine ⟨frames_freeFrame p phys, fun h => ?_⟩
    rw [← frameOf_eq] at h
    exact setFree_eq_self h

/-- A call keeps the counter equal to the number of set bits, whatever its arguments are. -/
theorem Op.apply_counted (op : Op) {p : Pmm} (h : p.Counted) : (op.apply p).Counted := by
  cases op with
  | init ram =>
    show (p.init ram).Counted
    unfold Pmm.init
    induction ram.regions generalizing p with
    | nil => exact h
    | cons r rs ih => exact ih (h.initFrames _ _)
  | reserve start finish => exact h.useFrames _ _
  | allocFrame =>
    rcases allocFrame_spec p with ⟨_, hrun⟩ | ⟨k, _, _, hrun⟩
    · rw [Op.apply, hrun]
      exact h
    · rw [Op.apply, hrun]
      exact h.setUsed k
  | allocRange count =>
    rcases allocRange_spec p count.toNat with hrun | ⟨b, _, _, _, _, _, hrun⟩
    · rw [Op.apply, hrun]
      exact h
    · rw [Op.apply, hrun]
      exact h.useFrames _ _
  | carve size =>
    rcases carve_spec p size with hrun | ⟨b, n, _, _, _, _, hrun⟩
    · rw [Op.apply, hrun]
      exact h
    · rw [Op.apply, hrun]
      exact h.useFrames _ _
  | freeFrame phys => exact h.setFree _

/-- The statics after a sequence of calls. -/
def run (ops : List Op) (p : Pmm) : Pmm := ops.foldl (fun p op => op.apply p) p

theorem run_counted (ops : List Op) : ∀ {p : Pmm}, p.Counted → (run ops p).Counted := by
  induction ops with
  | nil => exact fun h => h
  | cons op ops ih => exact fun h => ih (op.apply_counted h)

/-- The bitmap refines a finite set: after every sequence of calls the counter is the size of
the set, and every further call does to the set what `Op.Effect` says and leaves the counter
exact again. -/
theorem bitmap_refines_finset (ops : List Op) (op : Op) (hop : op.Fits) :
    (run ops zero).available.toNat = (run ops zero).frames.card ∧
      op.Effect (run ops zero) ∧
      (op.apply (run ops zero)).available.toNat = (op.apply (run ops zero)).frames.card := by
  have h : (run ops zero).Counted := run_counted ops counted_zero
  exact ⟨h, op.effect_holds hop _, op.apply_counted h⟩

theorem bitmap_refines_finset_reserve :
    (Op.reserve 0x1000 0x3000).Fits ∧
      (Op.reserve 0x1000 0x3000).Effect
        (run [.freeFrame 0x2000, .freeFrame 0x2000, .allocFrame, .freeFrame 0x5000] zero) := by
  have hfits : (Op.reserve 0x1000 0x3000).Fits := by
    show (0x3000 : U32).toNat + 4095 < 2 ^ 32
    decide
  exact ⟨hfits, (bitmap_refines_finset _ _ hfits).2.1⟩

end Kfs.Pmm
