import Kfs.Paging.Runs

/-!
# Regions at a fixed distance from physical memory

The first 4 MB of physical memory is mapped at 0 and again at `KERNEL_SPACE`.  A `Region` is a
range of virtual addresses in one of these windows: `off` is the distance from the physical
addresses, ring 0 may write all of it, and no table lies in it.  So a store to the region is a
store to physical memory that leaves every translation as it is, and a sequence of them can be
followed in physical memory alone.
-/

namespace Kfs

open Lib

namespace Machine

variable {s t : Machine} {off lo hi : Nat}

theorem SelfMapped.isTable_cr3 (h : s.SelfMapped) : s.IsTable (frameNo s.cr3) :=
  ⟨1023, by decide, h.selfPresent, h.self⟩

/-- The virtual addresses from `lo` to `hi`, each `off` above its physical address. -/
structure Region (s : Machine) (off lo hi : Nat) : Prop where
  self : s.SelfMapped
  below : hi ≤ 2 ^ 32
  direct : ∀ a, lo ≤ a → a < hi → ∃ e, s.leaf (a / 4096) = some e ∧
    4096 * frameNo e + a % 4096 + off = a ∧ s.MayWrite (a / 4096) e
  noTable : ∀ a, lo ≤ a → a < hi → ¬s.IsTable ((a - off) / 4096)

namespace Region

/-- A change of memory inside the region leaves the directory, the tables and the pages. -/
theorem sameTables (h : s.Region off lo hi) (hcr3 : t.cr3 = s.cr3)
    (hmem : ∀ a, a + off < lo ∨ hi ≤ a + off → t.mem a = s.mem a) : SameTables s t where
  cr3 := hcr3
  mem a ha := by
    refine hmem a ?_
    by_contra hin
    refine h.noTable (a + off) (by omega) (by omega) ?_
    rw [Nat.add_sub_cancel]
    exact ha

theorem congr (h : s.Region off lo hi) (hsame : SameTables s t) : t.Region off lo hi := by
  have hdir : ∀ {i}, i < 1024 → t.dirWord i = s.dirWord i := fun hi =>
    dirWord_congr hsame.cr3 (fun a ha => hsame.mem a (by rw [ha]; exact h.self.isTable_cr3)) hi
  have hleaf : ∀ {p}, p < 1024 * 1024 → t.leaf p = s.leaf p := fun hp =>
    leaf_congr (hdir (by omega)) fun hpres => tabWord_congr (hdir (by omega)) (by omega)
      fun a ha => hsame.mem a (by rw [ha]; exact isTable_dir (by omega) hpres)
  obtain ⟨hself, hpres, hw⟩ := h.self
  have hbelow := h.below
  refine ⟨⟨?_, ?_, ?_⟩, hbelow, fun a h1 h2 => ?_, fun a h1 h2 ht => ?_⟩
  · rw [hdir (by decide), hsame.cr3]
    exact hself
  · rw [hdir (by decide)]
    exact hpres
  · rw [hdir (by decide)]
    exact hw
  · obtain ⟨e, he, heq, hmay⟩ := h.direct a h1 h2
    exact ⟨e, by rw [hleaf (by omega)]; exact he, heq, by rw [hdir (by omega)]; exact hmay.1,
      hmay.2⟩
  · exact h.noTable a h1 h2 ((isTable_congr fun i hi => hdir hi).mp ht)

/-- A change of memory inside the region. -/
theorem withMem (h : s.Region off lo hi) {m : ByteMem}
    (hmem : ∀ a, a + off < lo ∨ hi ≤ a + off → m a = s.mem a) :
    ({ s with mem := m } : Machine).Region off lo hi :=
  h.congr (h.sameTables rfl hmem)

theorem load32_run (h : s.Region off lo hi) {v : U32} (hal : v.toNat % 4 = 0) (hlo : lo ≤ v.toNat)
    (hhi : v.toNat + 4 ≤ hi) : (load32 v).run s = .ok (s.mem.read32 (v.toNat - off), s) := by
  obtain ⟨e, he, heq, _⟩ := h.direct v.toNat hlo (by omega)
  rw [load32_of_leaf hal he, show 4096 * frameNo e + v.toNat % 4096 = v.toNat - off from by omega]

theorem store32_run (h : s.Region off lo hi) {v : U32} (hal : v.toNat % 4 = 0)
    (hlo : lo ≤ v.toNat) (hhi : v.toNat + 4 ≤ hi) (x : U32) :
    (store32 v x).run s = .ok ((), { s with mem := s.mem.write32 (v.toNat - off) x }) := by
  obtain ⟨e, he, heq, hmay⟩ := h.direct v.toNat hlo (by omega)
  rw [store32_of_leaf x hal he hmay,
    show 4096 * frameNo e + v.toNat % 4096 = v.toNat - off from by omega]

/-- A byte of the region is a byte of physical memory. -/
theorem off_le (h : s.Region off lo hi) {a : Nat} (h1 : lo ≤ a) (h2 : a < hi) : off ≤ a := by
  obtain ⟨e, _, heq, _⟩ := h.direct a h1 h2
  omega

end Region

end Machine

/-! ## Arrays of 64-bit words -/

/-- A store of eight bytes, which the compiler makes of two words. -/
def store64 (v : U32) (x : U64) : Kernel Unit := do
  store32 v (x.setWidth 32)
  store32 (v + 4) ((x >>> 32).setWidth 32)

/-- A load of eight bytes. -/
def load64 (v : U32) : Kernel U64 := do
  let low ← load32 v
  let high ← load32 (v + 4)
  pure (high ++ low)

/-- Word `j` of an array of 64-bit words, the low half first. -/
def halves (d : Nat → U64) (j : Nat) : U32 :=
  if j % 2 = 0 then (d (j / 2)).setWidth 32 else (d (j / 2) >>> 32).setWidth 32

theorem halves_even (d : Nat → U64) (i : Nat) : halves d (2 * i) = (d i).setWidth 32 := by
  rw [halves, if_pos (by omega), show 2 * i / 2 = i from by omega]

theorem halves_odd (d : Nat → U64) (i : Nat) :
    halves d (2 * i + 1) = (d i >>> 32).setWidth 32 := by
  rw [halves, if_neg (by omega), show (2 * i + 1) / 2 = i from by omega]

namespace Machine

variable {s t : Machine} {off lo hi : Nat}

/-- An element of an array. -/
theorem Region.load64_run (h : s.Region off lo hi) {v : U32} (hal : v.toNat % 4 = 0)
    (hlo : lo ≤ v.toNat) {i : Nat} (hhi : v.toNat + 8 * (i + 1) ≤ hi) {d : Nat → U64}
    (hd : ∀ j, j < 2 * (i + 1) → s.mem.read32 (v.toNat - off + 4 * j) = halves d j) :
    (load64 (v + BitVec.ofNat 32 (8 * i))).run s = .ok (d i, s) := by
  have hbelow := h.below
  have hoff := h.off_le hlo (by omega)
  have hv : (v + BitVec.ofNat 32 (8 * i)).toNat = v.toNat + 8 * i := by
    rw [BitVec.toNat_add, BitVec.toNat_ofNat]
    omega
  have hv4 : (v + BitVec.ofNat 32 (8 * i) + 4).toNat = v.toNat + 8 * i + 4 := by
    rw [BitVec.toNat_add, hv, show (4 : U32).toNat = 4 from rfl]
    omega
  have hlow := hd (2 * i) (by omega)
  have hhigh := hd (2 * i + 1) (by omega)
  rw [halves_even, show v.toNat - off + 4 * (2 * i) = v.toNat + 8 * i - off from by omega] at hlow
  rw [halves_odd,
    show v.toNat - off + 4 * (2 * i + 1) = v.toNat + 8 * i + 4 - off from by omega] at hhigh
  rw [load64, Prog.bind_ok (h.load32_run (by omega) (by omega) (by omega)), hv, hlow,
    Prog.bind_ok (h.load32_run (by omega) (by omega) (by omega)), hv4, hhigh, Prog.run_pure]
  congr 2
  ext k hk
  rw [BitVec.getElem_append]
  split
  · rename_i hlt
    rw [BitVec.getElem_setWidth, BitVec.getLsbD_eq_getElem]
  · rw [BitVec.getElem_setWidth, BitVec.getLsbD_ushiftRight,
      show 32 + (k - 32) = k from by omega, BitVec.getLsbD_eq_getElem]

/-- One more element of an array: the step of a loop that writes it. -/
theorem Region.store64_run (h : s.Region off lo hi) {v : U32} (hal : v.toNat % 4 = 0)
    (hlo : lo ≤ v.toNat) {i : Nat} (hhi : v.toNat + 8 * (i + 1) ≤ hi) (d : Nat → U64) {m : ByteMem}
    (hs : s.mem = m.fill32 (v.toNat - off) (halves d) (2 * i)) :
    (store64 (v + BitVec.ofNat 32 (8 * i)) (d i)).run s
      = .ok ((), { s with mem := m.fill32 (v.toNat - off) (halves d) (2 * (i + 1)) }) := by
  have hbelow := h.below
  have hoff := h.off_le hlo (by omega)
  have hv : (v + BitVec.ofNat 32 (8 * i)).toNat = v.toNat + 8 * i := by
    rw [BitVec.toNat_add, BitVec.toNat_ofNat]
    omega
  have hv4 : (v + BitVec.ofNat 32 (8 * i) + 4).toNat = v.toNat + 8 * i + 4 := by
    rw [BitVec.toNat_add, hv, show (4 : U32).toNat = 4 from rfl]
    omega
  rw [store64, Prog.bind_ok (h.store32_run (by omega) (by omega) (by omega) _)]
  have h' := h.withMem (m := s.mem.write32 ((v + BitVec.ofNat 32 (8 * i)).toNat - off)
    ((d i).setWidth 32)) fun a ha => ByteMem.write32_other _ _ (by omega)
  rw [h'.store32_run (by omega) (by omega) (by omega) _]
  dsimp only
  rw [hv, hv4, hs, show v.toNat + 8 * i - off = v.toNat - off + 4 * (2 * i) from by omega,
    ← halves_even, ByteMem.write32_fill32,
    show v.toNat + 8 * i + 4 - off = v.toNat - off + 4 * (2 * i + 1) from by omega,
    ← halves_odd, ByteMem.write32_fill32, show 2 * i + 1 + 1 = 2 * (i + 1) from by omega]

/-- A loop that writes an array, whatever else its passes read. -/
theorem Region.store64_loop (h : s.Region off lo hi) {v : U32} (hal : v.toNat % 4 = 0)
    (hlo : lo ≤ v.toNat) {n : Nat} (hhi : v.toNat + 8 * n ≤ hi) (d : Nat → U64)
    {f : Nat → Kernel Unit}
    (hf : ∀ i, i < n → ∀ m : ByteMem, (∀ a, a + off < lo ∨ hi ≤ a + off → m a = s.mem a) →
      (f i).run { s with mem := m }
        = (store64 (v + BitVec.ofNat 32 (8 * i)) (d i)).run { s with mem := m }) :
    (Prog.forRange f 0 n).run s
      = .ok ((), { s with mem := s.mem.fill32 (v.toNat - off) (halves d) (2 * n) }) := by
  obtain ⟨t, hrun, ht⟩ := Prog.forRange_inv (f := f)
    (I := fun i t => t = { s with mem := s.mem.fill32 (v.toNat - off) (halves d) (2 * i) }) n 0 s
    (fun i t _ hlt hI => by
      have hoff := h.off_le hlo (by omega)
      have hmem : ∀ a, a + off < lo ∨ hi ≤ a + off →
          s.mem.fill32 (v.toNat - off) (halves d) (2 * i) a = s.mem a := fun a ha =>
        ByteMem.fill32_other _ _ (by omega)
      refine ⟨_, ?_, rfl⟩
      rw [hI, hf i (by omega) _ hmem]
      exact (h.withMem hmem).store64_run hal hlo (by omega) d rfl)
    (by rw [Nat.mul_zero, ByteMem.fill32_zero])
  rw [hrun, ht, Nat.zero_add]

end Machine

end Kfs
