import Kfs.System.Pages

/-!
# The state that `mem::init` leaves

`Booted.start` collects what a successful `mem::init` says about the machine: the tables are those
of `paging::init`, the allocator is the one after the carve, and the kernel's heap has the carved
window.  None of the pages that the heaps, faults and the `user` command work on is mapped yet.
-/

namespace Kfs

open Lib Mem Multiboot Paging Machine

/-- The image of a layout, as the allocator's calls see it. -/
theorem Layout.Fits.imageFits {L : Layout} (h : L.Fits) :
    Pmm.ImageFits loadPhys L.image.finish := by
  have hfin : L.image.finish ≤ KERNEL_WINDOW_END := h
  obtain ⟨_, hge, hle⟩ := L.inBss L.bootDirectory (by simp)
  have hstart := L.start_ge
  have hread := L.start_le
  refine ⟨?_, hfin, ?_⟩
  · bv_omega
  · rw [kernelPhys]
    bv_omega

/-- The block of a carve: `n` frames from frame `b` on. -/
structure Carved (ram : Ram) (L : Layout) (window : U32 × U32) (b n : Nat) : Prop where
  start : window.1.toNat = 4096 * b
  finish : window.2.toNat = 4096 * (b + n)
  some_pages : 16 ≤ n
  pages_le : n ≤ 8192
  below : b + n ≤ 0xFFFFF
  run : (Pmm.bootReserve ram loadPhys L.image.finish).IsRun b n
  frames : (Pmm.bootCarve ram loadPhys L.image.finish).2.frames
    = (Pmm.bootReserve ram loadPhys L.image.finish).frames \ Finset.Ico b (b + n)

/-- What a successful `mem::init` leaves. -/
structure Started (L : Layout) (ram : Ram) (hs : Heaps) (s : Machine) (window : U32 × U32) :
    Prop where
  fits : L.Fits
  reported : Reported ram
  heaps : hs = heapInit window
  tables : InitTables L s
  pmm : s.pmm = (Pmm.bootCarve ram loadPhys L.image.finish).2
  carved : (Pmm.bootCarve ram loadPhys L.image.finish).1 = some window

theorem InitTables.withPmm {L : Layout} {s : Machine} (h : InitTables L s) (p : Pmm) :
    InitTables L { s with pmm := p } :=
  ⟨h.cr3, h.writeProtect, h.dirLow, h.dirKernel, h.dirSelf, h.dirElse, h.low, h.kernel⟩

section

variable {L : Layout} {ram : Ram} {s : Machine}

/-- `mem::init` after the probe: it fails only for want of a block. -/
theorem memInit_run (hfits : L.Fits) (h : BootTables L s) (hpmm : s.pmm = Pmm.zero)
    {magic info : U32} (hprobe : (probe magic info).run s = .ok (.ok ram, s)) :
    ∃ t, InitTables L t ∧ t.pmm = (Pmm.bootCarve ram loadPhys L.image.finish).2 ∧
      (memInit L magic info).run s
        = match (Pmm.bootCarve ram loadPhys L.image.finish).1 with
          | some window => .ok ((ram, heapInit window), t)
          | none => .error (.panic "no contiguous physical block left for the kernel heap") := by
  obtain ⟨u, hrun, htab, hup, _⟩ :=
    init_run hfits (h.withPmm (Pmm.bootReserve ram loadPhys L.image.finish))
  dsimp only at hup
  have hfin : ¬(L.image.finish > KERNEL_WINDOW_END) := BitVec.not_lt.mpr hfits
  refine ⟨{ u with pmm := (Pmm.bootCarve ram loadPhys L.image.finish).2 }, htab.withPmm _, rfl, ?_⟩
  have hcarve : (carve (Pmm.heapWant ram)).run u
      = .ok ((Pmm.bootCarve ram loadPhys L.image.finish).1,
        { u with pmm := (Pmm.bootCarve ram loadPhys L.image.finish).2 }) := by
    rw [carve]
    dsimp only
    rw [hup, Pmm.bootCarve]
  rw [memInit, Prog.bind_ok hprobe]
  dsimp only
  rw [if_neg hfin, Prog.bind_ok (Prog.run_modify _ _), Prog.bind_ok (Prog.run_modify _ _),
    Prog.bind_ok (Prog.run_modify _ _)]
  dsimp only
  rw [hpmm, ← Pmm.bootReserve, Prog.bind_ok hrun, Prog.bind_ok hcarve]
  cases (Pmm.bootCarve ram loadPhys L.image.finish).1 <;> rfl

theorem Booted.start {hs : Heaps} (h : Booted L ram hs s) :
    ∃ window, Started L ram hs s window := by
  obtain ⟨s0, magic, info, hload, hpmm, hrun⟩ := h
  have hboot := bootAsm_tables hload
  -- the probe returned a map
  have hparts := hrun
  rw [memInit, Prog.bind_eq_ok] at hparts
  obtain ⟨r, u, hprobe, hrest⟩ := hparts
  cases r with
  | error why => cases hrest
  | ok ram' =>
    obtain ⟨_, _, rfl⟩ := probe_wf hprobe
    dsimp only at hrest
    split at hrest
    · cases hrest
    · rename_i hfin
      have hfits : L.Fits := BitVec.not_lt.mp hfin
      obtain ⟨t, htab, htp, hmem⟩ := memInit_run hfits hboot
        (by rw [bootAsm_pmm, hpmm]) hprobe
      rw [hrun] at hmem
      cases hc : (Pmm.bootCarve ram' loadPhys L.image.finish).1 with
      | none =>
        rw [hc] at hmem
        cases hmem
      | some window =>
        rw [hc] at hmem
        obtain ⟨rfl, rfl, rfl⟩ : ram = ram' ∧ hs = heapInit window ∧ s = t := by
          cases hmem
          exact ⟨rfl, rfl, rfl⟩
        exact ⟨window, hfits, ⟨L, s0, magic, info, _, hload, hprobe⟩, rfl, htab, htp, hc⟩

end

namespace Started

variable {L : Layout} {ram : Ram} {hs : Heaps} {s : Machine} {window : U32 × U32}

theorem block (h : Started L ram hs s window) : ∃ b n, Carved ram L window b n := by
  rcases Pmm.bootCarve_spec ram h.fits.imageFits with
    hc | ⟨b, n, hn, hle, hrun, hlast, hw, hb, hend, hframes⟩
  · have := h.carved
    rw [hc] at this
    cases this
  · have hwin := h.carved
    rw [hw] at hwin
    cases hwin
    exact ⟨b, n, hb, hend, hn, hle, hlast, hrun, hframes⟩

/-- The block is no larger than what was asked for. -/
theorem block_le (h : Started L ram hs s window) :
    window.2.toNat - window.1.toNat ≤ (Pmm.heapWant ram).toNat := by
  have hc := h.carved
  rw [Pmm.bootCarve] at hc
  rcases Pmm.carve_spec (Pmm.bootReserve ram loadPhys L.image.finish) (Pmm.heapWant ram) with
    hnone | ⟨b, n, _, hn, _, _, hsome⟩
  · rw [hnone] at hc
    cases hc
  · rw [hsome] at hc
    cases hc
    have hlt := (Pmm.heapWant ram).isLt
    dsimp only
    rw [BitVec.toNat_add, BitVec.toNat_mul, BitVec.toNat_ofNat,
      show PAGE_SIZE.toNat = 4096 from rfl]
    omega

/-- No frame of the image is free. -/
theorem image_used (h : Started L ram hs s window) {k : Nat} (hk : L.InImage k) :
    k ∉ s.pmm.frames := by
  rw [h.pmm, Pmm.mem_bootCarve h.fits.imageFits]
  rintro ⟨_, _, hnot, _⟩
  exact hnot ⟨hk.2, hk.1⟩

theorem paged (h : Started L ram hs s window) : s.Paged :=
  h.tables.paged fun _ hk => h.image_used hk

/-- The tables are the three of the image. -/
theorem isTable (h : Started L ram hs s window) {k : Nat} :
    s.IsTable k ↔ k = L.lowFrame ∨ k = L.kernelFrame ∨ k = L.dirFrame := by
  obtain ⟨h0f, h0p, _⟩ := entry_bits h.tables.dirLow
  obtain ⟨hkf, hkp, _⟩ := entry_bits h.tables.dirKernel
  obtain ⟨hsf, hsp, _⟩ := entry_bits h.tables.dirSelf
  constructor
  · rintro ⟨i, hi, hp, rfl⟩
    rcases h.tables.slot hi hp with rfl | rfl | rfl
    · exact Or.inl h0f
    · exact Or.inr (Or.inl hkf)
    · exact Or.inr (Or.inr hsf)
  · rintro (rfl | rfl | rfl)
    · exact ⟨0, by decide, h0p, h0f⟩
    · exact ⟨768, by decide, hkp, hkf⟩
    · exact ⟨1023, by decide, hsp, hsf⟩

/-- Nothing is mapped outside of the three slots. -/
theorem leaf_none (h : Started L ram hs s window) {p : Nat} (hlt : p < 1023 * 1024)
    (h0 : p / 1024 ≠ 0) (h768 : p / 1024 ≠ 768) : s.leaf p = none := by
  refine leaf_eq_none_of_dir ?_
  rw [h.tables.dirElse (p / 1024) (by omega) h0 h768 (by omega)]
  rfl

end Started

/-! ## Two boots -/

/-- A loader whose map leaves room for a block boots the kernel. -/
theorem booted_entries (es : List (U64 × U64)) (hlen : es.length ≤ 1000)
    (hcount : (ramOf es).count ≠ 0) {window : U32 × U32}
    (hc : (Pmm.bootCarve (ramOf es) loadPhys smallLayout.image.finish).1 = some window) :
    ∃ s, Booted smallLayout (ramOf es) (heapInit window) s := by
  have hload := loaded_loader es hlen
  obtain ⟨t, _, _, hrun⟩ := memInit_run smallLayout_fits (bootAsm_tables hload)
    (by rw [bootAsm_pmm]; rfl) (probe_entries es hlen hcount)
  rw [hc] at hrun
  exact ⟨t, loader es, BOOT_MAGIC, 0x9000, hload, rfl, hrun⟩

/-- What the first megabyte and the small image leave of the marked frames. -/
theorem mem_reserve_small {ram : Ram} {k : Nat} :
    k ∈ (Pmm.bootReserve ram loadPhys smallLayout.image.finish).frames ↔
      k ∈ Pmm.marked ram.regions ∧ 0x120 ≤ k := by
  have hend : (kernelPhys smallLayout.image.finish).toNat = 0x120000 := rfl
  rw [Pmm.mem_bootReserve Pmm.smallLayout_imageFits, Pmm.Touches, Pmm.Touches, hend,
    show BIOS_END.toNat = 0x100000 from rfl]
  exact and_congr_right fun _ => by omega

/-- Seven megabytes above the first one. -/
def plainEntries : List (U64 × U64) := [(0x100000, 0x700000)]

/-- What the kernel finds on such a machine. -/
theorem mem_reserve_plain {k : Nat} : k ∈ (Pmm.bootReserve (ramOf plainEntries) loadPhys
    smallLayout.image.finish).frames ↔ 0x120 ≤ k ∧ k < 0x800 := by
  have hregions : (ramOf plainEntries).regions = [⟨0x100000, 0x800000⟩] := by decide
  have hmarked : k ∈ Pmm.marked (ramOf plainEntries).regions ↔ 0x100 ≤ k ∧ k < 0x800 := by
    rw [hregions, Pmm.mem_marked]
    simp only [List.mem_singleton, exists_eq_left]
    exact Iff.rfl
  rw [mem_reserve_small, hmarked]
  omega

theorem toNat_heapWant_plain : (Pmm.heapWant (ramOf plainEntries)).toNat = 0x1C0000 := by decide

/-- There is room for the block. -/
theorem exists_carve_plain : ∃ window,
    (Pmm.bootCarve (ramOf plainEntries) loadPhys smallLayout.image.finish).1 = some window := by
  have hwant := toNat_heapWant_plain
  have hsome := Pmm.carve_ne_none (p := Pmm.bootReserve (ramOf plainEntries) loadPhys
    smallLayout.image.finish) (Pmm.heapWant (ramOf plainEntries)) (by omega) (b := 0x120)
    fun k h1 h2 => mem_reserve_plain.mpr (by omega)
  exact Option.ne_none_iff_exists'.mp hsome

/-- The block ends far below the last page. -/
theorem Started.plain_end {hs : Heaps} {s : Machine} {window : U32 × U32}
    (h : Started smallLayout (ramOf plainEntries) hs s window) :
    hs.kernel.heap.physEnd.toNat < 0xFFFFF000 := by
  obtain ⟨b, n, hblock⟩ := h.block
  have hphys : hs.kernel.heap.physEnd = window.2 := by
    rw [h.heaps]
    rfl
  have h16 := hblock.some_pages
  have hlast := mem_reserve_plain.mp (hblock.run (b + n - 1) (by omega) (by omega))
  rw [hphys, hblock.finish]
  omega

/-- A machine on which the block ends far below the last page. -/
theorem exists_booted_plain : ∃ hs s, Booted smallLayout (ramOf plainEntries) hs s ∧
    hs.kernel.heap.physEnd.toNat < 0xFFFFF000 := by
  obtain ⟨window, hwindow⟩ := exists_carve_plain
  obtain ⟨s, hb⟩ := booted_entries plainEntries (by decide) (by decide) hwindow
  obtain ⟨window', h0⟩ := hb.start
  exact ⟨_, s, hb, h0.plain_end⟩

/-- The block of such a machine has less than a quarter of its memory, so some frame is free. -/
theorem Started.plain {hs : Heaps} {s : Machine} {window : U32 × U32}
    (h : Started smallLayout (ramOf plainEntries) hs s window) :
    window.1.toNat + 0x10000 ≤ window.2.toNat ∧ window.2.toNat ≤ window.1.toNat + 0x1C0000 ∧
      s.pmm.frames.Nonempty := by
  have hle := h.block_le
  rw [toNat_heapWant_plain] at hle
  obtain ⟨b, n, hb⟩ := h.block
  have hstart := hb.start
  have hfinish := hb.finish
  have h16 := hb.some_pages
  refine ⟨by omega, by omega, ?_⟩
  -- the block does not reach from the first frame to the last
  have hfree : ∀ k, 0x120 ≤ k → k < 0x800 → (k < b ∨ b + n ≤ k) → k ∈ s.pmm.frames := by
    intro k h1 h2 hout
    rw [h.pmm, hb.frames, Finset.mem_sdiff, Finset.mem_Ico]
    exact ⟨mem_reserve_plain.mpr ⟨h1, h2⟩, by omega⟩
  by_cases hfirst : 0x120 < b
  · exact ⟨0x120, hfree _ (by omega) (by omega) (Or.inl hfirst)⟩
  · exact ⟨0x7FF, hfree _ (by omega) (by omega) (Or.inr (by omega))⟩

/-- Some memory below the first megabyte, the pages of the image, three pages at 2 MB, and sixteen
pages that end at the last page of the address space. -/
def topEntries : List (U64 × U64) :=
  [(0, 0xD000), (0x100000, 0x20000), (0x200000, 0x3000), (0xFFFEF000, 0x10000)]

/-- The window that is carved on such a machine. -/
abbrev topWindow : U32 × U32 := (0xFFFEF000, 0xFFFFF000)

/-- The kernel boots on such a machine.  Its block ends at the last page, and the three pages are
all that is free. -/
theorem exists_booted_top : ∃ s, Booted smallLayout (ramOf topEntries) (heapInit topWindow) s ∧
    s.pmm.frames = {0x200, 0x201, 0x202} := by
  have hregions : (ramOf topEntries).regions
      = [⟨0, 0xD000⟩, ⟨0x100000, 0x120000⟩, ⟨0x200000, 0x203000⟩, ⟨0xFFFEF000, 0xFFFFF000⟩] := by
    decide
  have hmarked : ∀ {k}, k ∈ Pmm.marked (ramOf topEntries).regions ↔
      k < 0xD ∨ 0x100 ≤ k ∧ k < 0x120 ∨ 0x200 ≤ k ∧ k < 0x203 ∨
        0xFFFEF ≤ k ∧ k < 0xFFFFF := by
    intro k
    rw [hregions, Pmm.mem_marked]
    simp only [List.mem_cons, List.not_mem_nil, or_false, exists_eq_or_imp, exists_eq_left]
    show (0 ≤ k ∧ k < 0xD) ∨ _ ↔ _
    rw [and_iff_right (Nat.zero_le k)]
    exact Iff.rfl
  have hfree : ∀ {k}, k ∈ (Pmm.bootReserve (ramOf topEntries) loadPhys
      smallLayout.image.finish).frames ↔
      0x200 ≤ k ∧ k < 0x203 ∨ 0xFFFEF ≤ k ∧ k < 0xFFFFF := by
    intro k
    rw [mem_reserve_small, hmarked]
    omega
  have hwant : (Pmm.heapWant (ramOf topEntries)).toNat = 0x10000 := by decide
  have hsome := Pmm.carve_ne_none (p := Pmm.bootReserve (ramOf topEntries) loadPhys
    smallLayout.image.finish) (Pmm.heapWant (ramOf topEntries)) (by omega) (b := 0xFFFEF)
    fun k h1 h2 => hfree.mpr (by omega)
  obtain ⟨window, hwindow⟩ := Option.ne_none_iff_exists'.mp hsome
  obtain ⟨s, hb⟩ := booted_entries topEntries (by decide) (by decide) hwindow
  obtain ⟨window', h0⟩ := hb.start
  obtain ⟨b, n, hblock⟩ := h0.block
  -- only at the top are there sixteen free frames in a row
  have h16 := hblock.some_pages
  have hrun : ∀ k, b ≤ k → k < b + n → _ := fun k h1 h2 => hfree.mp (hblock.run k h1 h2)
  have hfirst := hrun b (by omega) (by omega)
  have hthird := hrun (b + 3) (by omega) (by omega)
  have hlast := hrun (b + n - 1) (by omega) (by omega)
  have hb' : b = 0xFFFEF ∧ n = 16 := by omega
  obtain ⟨rfl, rfl⟩ := hb'
  have hw : window' = topWindow := by
    refine Prod.ext (BitVec.eq_of_toNat_eq ?_) (BitVec.eq_of_toNat_eq ?_)
    · rw [hblock.start]
      rfl
    · rw [hblock.finish]
      rfl
  refine ⟨s, ?_, ?_⟩
  · have hheaps := h0.heaps
    rw [hw] at hheaps
    rw [hheaps] at hb
    exact hb
  · ext k
    rw [h0.pmm, hblock.frames, Finset.mem_sdiff, hfree, Finset.mem_Ico]
    simp only [Finset.mem_insert, Finset.mem_singleton]
    omega

end Kfs
