import Kfs.Multiboot.Decode
import Kfs.Pmm.Refine

/-!
# The frames that are free after boot

`bootReserve` and `bootCarve` are the allocator calls of `mem::init`.  `BootExact` is what they
are for: the free frames are the ones that lie wholly in a reported region and that neither the
first megabyte, the image nor the carved block touches.

Rounding the base of a region up is done in 32 bits.  For a base above 0xFFFFF000 it wraps to
zero, and `init` then marks every frame of the address space.  `bootExact_iff` says that this is
the only way to miss the set.
-/

namespace Kfs.Pmm

open Mem Multiboot

/-- The allocator calls of `mem::init` before `paging::init`. -/
def bootReserve (ram : Ram) (load imageEnd : U32) : Pmm :=
  ((zero.init ram).reserve 0 BIOS_END).reserve load (kernelPhys imageEnd)

/-- The size that `mem::init` asks `carve` for: a quarter of the memory, at most the heap's
range. -/
def heapWant (ram : Ram) : U32 :=
  let most : U64 := (KHEAP_LIMIT - KHEAP_BASE).setWidth 64
  let quarter := ram.usable / 4
  let want : U64 := if most ≤ quarter then most else quarter
  pageOf (want.setWidth 32)

/-- The allocator and the block after the carve. -/
def bootCarve (ram : Ram) (load imageEnd : U32) : Option (U32 × U32) × Pmm :=
  (bootReserve ram load imageEnd).carve (heapWant ram)

/-! ## What the calls are for -/

/-- The whole frame lies in the region. -/
def Inside (r : Region) (k : Nat) : Prop :=
  r.base.toNat ≤ 4096 * k ∧ 4096 * k + 4096 ≤ r.finish.toNat

instance (r : Region) (k : Nat) : Decidable (Inside r k) := inferInstanceAs (Decidable (_ ∧ _))

/-- The frame and the addresses from `start` up to `finish` have one in common. -/
def Touches (start finish k : Nat) : Prop := 4096 * k < finish ∧ start < 4096 * k + 4096

/-- The frames wholly inside some region. -/
def insideFrames (ram : Ram) : Finset Nat :=
  (Finset.range MAX_FRAMES).filter fun k => ∃ r ∈ ram.regions, Inside r k

theorem mem_insideFrames {ram : Ram} {k : Nat} :
    k ∈ insideFrames ram ↔ ∃ r ∈ ram.regions, Inside r k := by
  rw [insideFrames, Finset.mem_filter, Finset.mem_range, and_iff_right_iff_imp]
  rintro ⟨r, _, hr⟩
  have hlt := r.finish.isLt
  obtain ⟨_, hfin⟩ := hr
  rw [maxFrames_eq]
  omega

/-- The free set and the two counters after the carve are exact. -/
structure BootExact (ram : Ram) (load imageEnd : U32) : Prop where
  free : ∀ k, k ∈ (bootCarve ram load imageEnd).2.frames ↔
    (∃ r ∈ ram.regions, Inside r k) ∧ ¬Touches 0 BIOS_END.toNat k ∧
      ¬Touches load.toNat (kernelPhys imageEnd).toNat k ∧
      ∀ w, (bootCarve ram load imageEnd).1 = some w → ¬Touches w.1.toNat w.2.toNat k
  total : (bootCarve ram load imageEnd).2.total.toNat = (insideFrames ram).card
  available : (bootCarve ram load imageEnd).2.available.toNat
    = (bootCarve ram load imageEnd).2.frames.card

/-! ## The calls -/

theorem Counted.init {p : Pmm} (h : p.Counted) (ram : Ram) : (p.init ram).Counted := by
  unfold Pmm.init
  induction ram.regions generalizing p with
  | nil => exact h
  | cons r rs ih => exact ih (Counted.initFrames _ _ h)

theorem total_init {p : Pmm} (h : p.total = p.available) (ram : Ram) :
    (p.init ram).total = (p.init ram).available := by
  unfold Pmm.init
  induction ram.regions generalizing p with
  | nil => exact h
  | cons r rs ih => exact ih (total_initFrames _ _ _ h)

theorem total_carve (p : Pmm) (size : U32) : (p.carve size).2.total = p.total := by
  rcases carve_spec p size with h | ⟨b, n, _, _, _, _, h⟩
  · rw [h]
  · rw [h]
    exact total_useFrames n b p

theorem Counted.carve {p : Pmm} (h : p.Counted) (size : U32) : (p.carve size).2.Counted := by
  rcases carve_spec p size with hc | ⟨b, n, _, _, _, _, hc⟩
  · rw [hc]
    exact h
  · rw [hc]
    exact h.useFrames n b

section Boot

variable (ram : Ram) (load imageEnd : U32)

theorem bootReserve_counted : (bootReserve ram load imageEnd).Counted :=
  Counted.useFrames _ _ (Counted.useFrames _ _ (counted_zero.init ram))

/-- `TOTAL` counts the frames that `init` marked, each once. -/
theorem bootReserve_total :
    (bootReserve ram load imageEnd).total.toNat = (marked ram.regions).card := by
  have hcount : (zero.init ram).Counted := counted_zero.init ram
  have htotal : (zero.init ram).total = (zero.init ram).available := total_init rfl ram
  have hres : (bootReserve ram load imageEnd).total = (zero.init ram).total := by
    rw [bootReserve, reserve, reserve, total_useFrames, total_useFrames]
  rw [hres, htotal, hcount, frames_init, frames_zero, Finset.empty_union]

variable {ram load imageEnd}

/-- Reserving takes out exactly the frames that the range touches. -/
theorem mem_reserve {p : Pmm} {start finish : U32} (h : finish.toNat + 4095 < 2 ^ 32) {k : Nat} :
    k ∈ (p.reserve start finish).frames ↔ k ∈ p.frames ∧ ¬Touches start.toNat finish.toNat k := by
  rw [frames_reserve p start finish h, Finset.mem_sdiff, Finset.mem_Ico, Touches]
  constructor <;> rintro ⟨hk, hn⟩ <;> exact ⟨hk, fun ht => hn (by omega)⟩

/-- The image lies in the 4 MB window. -/
def ImageFits (load imageEnd : U32) : Prop :=
  KERNEL_SPACE ≤ imageEnd ∧ imageEnd ≤ KERNEL_WINDOW_END ∧ load ≤ kernelPhys imageEnd

theorem ImageFits.phys_le (h : ImageFits load imageEnd) :
    (kernelPhys imageEnd).toNat ≤ 0x400000 := by
  obtain ⟨h1, h2, _⟩ := h
  rw [kernelPhys]
  bv_omega

theorem mem_bootReserve (h : ImageFits load imageEnd) {k : Nat} :
    k ∈ (bootReserve ram load imageEnd).frames ↔ k ∈ marked ram.regions ∧
      ¬Touches 0 BIOS_END.toNat k ∧ ¬Touches load.toNat (kernelPhys imageEnd).toNat k := by
  have hle := h.phys_le
  rw [bootReserve, mem_reserve (by omega), mem_reserve (by decide), frames_init, frames_zero,
    Finset.empty_union, and_assoc]
  rfl

/-- The block that the carve takes: a run of free frames, below the last frame. -/
theorem bootCarve_spec (ram : Ram) (h : ImageFits load imageEnd) :
    (bootCarve ram load imageEnd) = (none, bootReserve ram load imageEnd) ∨
      ∃ b n, 16 ≤ n ∧ n ≤ 8192 ∧ (bootReserve ram load imageEnd).IsRun b n ∧ b + n ≤ 0xFFFFF ∧
        (bootCarve ram load imageEnd).1
          = some (addressOf b, addressOf b + BitVec.ofNat 32 n * PAGE_SIZE) ∧
        (addressOf b).toNat = 4096 * b ∧
        (addressOf b + BitVec.ofNat 32 n * PAGE_SIZE).toNat = 4096 * (b + n) ∧
        (bootCarve ram load imageEnd).2.frames
          = (bootReserve ram load imageEnd).frames \ Finset.Ico b (b + n) := by
  rcases carve_spec (bootReserve ram load imageEnd) (heapWant ram) with
    hc | ⟨b, n, hn, hle, hrun, _, hc⟩
  · exact Or.inl hc
  · refine Or.inr ⟨b, n, hn, ?_, hrun, ?_, ?_⟩
    · have hwant : (heapWant ram).toNat ≤ 0x02000000 := by
        rw [heapWant, toNat_pageOf, BitVec.toNat_setWidth]
        have hmost : ((KHEAP_LIMIT - KHEAP_BASE).setWidth 64 : U64).toNat = 0x02000000 := by decide
        split
        · rw [hmost]
        · rename_i hq
          have hlt : (ram.usable / 4).toNat < 0x02000000 := by
            have := BitVec.not_le.mp hq
            rw [BitVec.lt_def, hmost] at this
            exact this
          omega
      omega
    · have hlast := hrun (b + n - 1) (by omega) (by omega)
      rw [mem_bootReserve h] at hlast
      have := lt_of_mem_marked hlast.1
      omega
    · have hlast := hrun (b + n - 1) (by omega) (by omega)
      rw [mem_bootReserve h] at hlast
      have hlt := lt_of_mem_marked hlast.1
      have hb : (addressOf b).toNat = 4096 * b :=
        toNat_addressOf (by rw [maxFrames_eq]; omega)
      refine ⟨by rw [bootCarve, hc], hb, ?_, ?_⟩
      · rw [BitVec.toNat_add, BitVec.toNat_mul, BitVec.toNat_ofNat, hb,
          show PAGE_SIZE.toNat = 4096 from rfl]
        omega
      · rw [bootCarve, hc]
        exact frames_useFrames n b _

/-- The free frames after the carve: marked, and touched by none of the three ranges. -/
theorem mem_bootCarve (h : ImageFits load imageEnd) {k : Nat} :
    k ∈ (bootCarve ram load imageEnd).2.frames ↔ k ∈ marked ram.regions ∧
      ¬Touches 0 BIOS_END.toNat k ∧ ¬Touches load.toNat (kernelPhys imageEnd).toNat k ∧
      ∀ w, (bootCarve ram load imageEnd).1 = some w → ¬Touches w.1.toNat w.2.toNat k := by
  rcases bootCarve_spec ram h with hc | ⟨b, n, _, _, _, _, hw, hb, hend, hframes⟩
  · rw [hc, mem_bootReserve h]
    simp
  · rw [hframes, Finset.mem_sdiff, Finset.mem_Ico, mem_bootReserve h, hw]
    simp only [Option.some.injEq, forall_eq', Touches, hb, hend]
    constructor
    · rintro ⟨⟨h1, h2, h3⟩, h4⟩
      exact ⟨h1, h2, h3, fun h5 => h4 (by omega)⟩
    · rintro ⟨h1, h2, h3, h4⟩
      exact ⟨⟨h1, h2, h3⟩, fun h5 => h4 (by omega)⟩

end Boot

/-! ## Regions at the top of the address space -/

/-- Rounding the base up does not wrap. -/
def RoundsUp (r : Region) : Prop := r.base ≤ 0xFFFFF000

theorem marks_iff_inside {r : Region} (h : RoundsUp r) (k : Nat) :
    firstOf r ≤ k ∧ k < lastOf r ↔ Inside r k := by
  have hle : r.base.toNat ≤ 0xFFFFF000 := h
  have hround : (r.base + PAGE_SIZE - 1).toNat = r.base.toNat + 4095 := by bv_omega
  rw [firstOf, lastOf, frameOf_eq, frameOf_eq, hround, Inside]
  omega

/-- A region whose base wraps makes `init` mark every frame but the last. -/
theorem marked_of_wrap {regions : List Region} {r : Region} (hr : r ∈ regions)
    (hwrap : ¬RoundsUp r) (hne : r.base < r.finish) : marked regions = Finset.range 0xFFFFF := by
  have hgt : 0xFFFFF000 < r.base.toNat := by
    have := BitVec.not_le.mp hwrap
    exact this
  have hbase := r.base.isLt
  have hfin := r.finish.isLt
  have hlt : r.base.toNat < r.finish.toNat := hne
  have hround : (r.base + PAGE_SIZE - 1).toNat = r.base.toNat + 4095 - 2 ^ 32 := by bv_omega
  ext k
  rw [Finset.mem_range]
  refine ⟨lt_of_mem_marked, fun hk => mem_marked.mpr ⟨r, hr, ?_, ?_⟩⟩
  · rw [firstOf, frameOf_eq, hround]
    omega
  · rw [lastOf, frameOf_eq]
    omega

/-- The marked frames are the ones inside a region when no base wraps, and also when the regions
leave nothing out. -/
theorem marked_eq_inside {ram : Ram} (hwf : ram.Wf)
    (h : (∀ r ∈ ram.regions, RoundsUp r) ∨ ∀ k, k < 0xFFFFF → ∃ r ∈ ram.regions, Inside r k) :
    marked ram.regions = insideFrames ram := by
  ext k
  rw [mem_insideFrames]
  by_cases hall : ∀ r ∈ ram.regions, RoundsUp r
  · rw [mem_marked]
    constructor <;> rintro ⟨r, hr, hk⟩
    · exact ⟨r, hr, (marks_iff_inside (hall r hr) k).mp hk⟩
    · exact ⟨r, hr, (marks_iff_inside (hall r hr) k).mpr hk⟩
  · rcases h with h | h
    · exact absurd h hall
    · obtain ⟨r, hr⟩ := not_forall.mp hall
      obtain ⟨hmem, hwrap⟩ := Classical.not_imp.mp hr
      rw [marked_of_wrap hmem hwrap (hwf.nonempty r hmem), Finset.mem_range]
      refine ⟨h k, ?_⟩
      rintro ⟨r', _, _, hfin⟩
      have := r'.finish.isLt
      omega

/-- A wrapped base with a frame outside every region: `TOTAL` counts the frame. -/
theorem not_bootExact_of_wrap {ram : Ram} (hwf : ram.Wf) {load imageEnd : U32} {r : Region}
    (hr : r ∈ ram.regions) (hwrap : ¬RoundsUp r) {k : Nat} (hk : k < 0xFFFFF)
    (hout : ¬∃ r ∈ ram.regions, Inside r k) : ¬BootExact ram load imageEnd := by
  intro hexact
  have htotal := hexact.total
  rw [bootCarve, total_carve, bootReserve_total,
    marked_of_wrap hr hwrap (hwf.nonempty r hr), Finset.card_range] at htotal
  have hsub : insideFrames ram ⊆ (Finset.range 0xFFFFF).erase k := by
    intro j hj
    rw [mem_insideFrames] at hj
    rw [Finset.mem_erase, Finset.mem_range]
    refine ⟨fun h => hout (h ▸ hj), ?_⟩
    obtain ⟨r', _, _, hfin⟩ := hj
    have := r'.finish.isLt
    omega
  have hcard := Finset.card_le_card hsub
  rw [Finset.card_erase_of_mem (Finset.mem_range.mpr hk), Finset.card_range] at hcard
  omega

/-- Seven megabytes above the first one, and a region of 1 KB at 0xFFFFF800. -/
def wrappedEntries : List (U64 × U64) := [(0x100000, 0x700000), (0xFFFFF800, 0x400)]

theorem wrapped_regions : (ramOf wrappedEntries).regions
    = [⟨0x100000, 0x800000⟩, ⟨0xFFFFF800, 0xFFFFFC00⟩] := by
  decide

theorem smallLayout_imageFits : ImageFits loadPhys smallLayout.image.finish := by
  show _ ≤ (0xC0120000 : U32) ∧ (0xC0120000 : U32) ≤ _ ∧ _ ≤ kernelPhys 0xC0120000
  decide

/-- With these regions a frame that is in none of them is free. -/
theorem wrapped_frame_free :
    ∃ k, k ∈ (bootCarve (ramOf wrappedEntries) loadPhys smallLayout.image.finish).2.frames ∧
      ¬∃ r ∈ (ramOf wrappedEntries).regions, Inside r k := by
  have hfits := smallLayout_imageFits
  have hend : (kernelPhys smallLayout.image.finish).toNat = 0x120000 := rfl
  have hall : marked (ramOf wrappedEntries).regions = Finset.range 0xFFFFF := by
    rw [wrapped_regions]
    exact marked_of_wrap (r := ⟨0xFFFFF800, 0xFFFFFC00⟩) (by simp) (by rw [RoundsUp]; decide)
      (by decide)
  have hout : ∀ k, 0x800 ≤ k → k < 0xFFFFF →
      ¬∃ r ∈ (ramOf wrappedEntries).regions, Inside r k := by
    rintro k hlo hhi ⟨r, hr, hb, hf⟩
    rw [wrapped_regions] at hr
    rcases List.mem_pair.mp hr with rfl | rfl
    · rw [show ((⟨0x100000, 0x800000⟩ : Region).finish).toNat = 0x800000 from rfl] at hf
      omega
    · rw [show ((⟨0xFFFFF800, 0xFFFFFC00⟩ : Region).base).toNat = 0xFFFFF800 from rfl] at hb
      omega
  -- the carved block is at most 32 MB long, so it does not hold both of two far frames
  rcases bootCarve_spec (ramOf wrappedEntries) hfits with
    hc | ⟨b, n, _, hn, _, _, _, _, _, hframes⟩
  · refine ⟨0x80000, ?_, hout _ (by decide) (by decide)⟩
    rw [hc, mem_bootReserve hfits, hall, Finset.mem_range, Touches, Touches, hend]
    decide
  · have hres : ∀ k, 0x80000 ≤ k → k < 0xFFFFF →
        k ∈ (bootReserve (ramOf wrappedEntries) loadPhys smallLayout.image.finish).frames := by
      intro k hlo hhi
      rw [mem_bootReserve hfits, hall, Finset.mem_range, Touches, Touches, hend,
        show BIOS_END.toNat = 0x100000 from rfl]
      omega
    rcases Nat.lt_or_ge 0x80000 b with hb | hb
    · refine ⟨0x80000, ?_, hout _ (by decide) (by decide)⟩
      rw [hframes, Finset.mem_sdiff, Finset.mem_Ico]
      exact ⟨hres _ (by decide) (by decide), by omega⟩
    · refine ⟨0x90000, ?_, hout _ (by decide) (by decide)⟩
      rw [hframes, Finset.mem_sdiff, Finset.mem_Ico]
      exact ⟨hres _ (by decide) (by decide), by omega⟩

/-- `probe` can return a map after which the free set is not exact: a frame of no region has its
bit set. -/
theorem not_bootExact_wrapped : Reported (ramOf wrappedEntries) ∧
    ImageFits loadPhys smallLayout.image.finish ∧
    (∃ k, k ∈ (bootCarve (ramOf wrappedEntries) loadPhys smallLayout.image.finish).2.frames ∧
      ¬∃ r ∈ (ramOf wrappedEntries).regions, Inside r k) ∧
    ¬BootExact (ramOf wrappedEntries) loadPhys smallLayout.image.finish := by
  obtain ⟨k, hk, hout⟩ := wrapped_frame_free
  exact ⟨reported_entries _ (by decide) (by decide), smallLayout_imageFits, ⟨k, hk, hout⟩,
    fun hexact => hout ((hexact.free k).mp hk).1⟩

/-- The free set and the counters are exact if and only if no region starts above 0xFFFFF000, or
the regions leave no frame below the last one out. -/
theorem bootExact_iff {ram : Ram} (h : Reported ram) {load imageEnd : U32}
    (himage : ImageFits load imageEnd) :
    BootExact ram load imageEnd ↔
      (∀ r ∈ ram.regions, r.base ≤ 0xFFFFF000) ∨
        ∀ k, k < 0xFFFFF → ∃ r ∈ ram.regions, Inside r k := by
  obtain ⟨hwf, _⟩ := h.wf
  constructor
  · intro hexact
    by_contra hneither
    obtain ⟨hwrap, hgap⟩ := not_or.mp hneither
    obtain ⟨r, hr⟩ := not_forall.mp hwrap
    obtain ⟨hmem, hr⟩ := Classical.not_imp.mp hr
    obtain ⟨k, hk⟩ := not_forall.mp hgap
    obtain ⟨hlt, hout⟩ := Classical.not_imp.mp hk
    exact not_bootExact_of_wrap hwf hmem hr hlt hout hexact
  · intro hcond
    have hmarked := marked_eq_inside hwf hcond
    refine ⟨fun k => ?_, ?_, ?_⟩
    · rw [mem_bootCarve himage, hmarked, mem_insideFrames]
    · rw [bootCarve, total_carve, bootReserve_total, hmarked]
    · exact (bootReserve_counted ram load imageEnd).carve _

/-- Seven megabytes above the first one, and nothing else. -/
theorem bootExact_iff_plain : Reported (ramOf [(0x100000, 0x700000)]) ∧
    ImageFits loadPhys smallLayout.image.finish ∧
    BootExact (ramOf [(0x100000, 0x700000)]) loadPhys smallLayout.image.finish := by
  have hreported : Reported (ramOf [(0x100000, 0x700000)]) :=
    reported_entries _ (by decide) (by decide)
  exact ⟨hreported, smallLayout_imageFits,
    (bootExact_iff hreported smallLayout_imageFits).mpr (Or.inl (by decide))⟩

end Kfs.Pmm
