import Kfs.Heap
import Kfs.Lib.Blocks
import Kfs.Paging.Tables

/-!
# The memory of a range of pages

`virt s` is what the kernel sees at virtual addresses.  `Owned lo hi` says that the pages from
`lo` up to `hi` are writable, that no two of them share a frame, and that none of their frames is
a table or free.  An access to such a range is then an access to a byte memory of its own:
`View lo hi w s` says that the range holds `w`, and a store leaves a `View` of the written `w`.

`Wrote` is what stores to the range do to the rest of the machine: nothing.
-/

namespace Kfs

open Lib

namespace Machine

/-- The byte at a virtual address. -/
def virt (s : Machine) : ByteMem := fun a =>
  match s.leaf (a / 4096) with
  | some e => s.mem (4096 * frameNo e + a % 4096)
  | none => 0

theorem virt_of_leaf {s : Machine} {a : Nat} {e : U32} (h : s.leaf (a / 4096) = some e) :
    s.virt a = s.mem (4096 * frameNo e + a % 4096) := by
  rw [virt, h]

/-- The pages from `lo` up to `hi` have frames of their own. -/
structure Owned (s : Machine) (lo hi : Nat) : Prop where
  hi_le : hi ≤ 1023 * 1024
  mapped : ∀ p, lo ≤ p → p < hi → ∃ e, s.leaf p = some e ∧ writable e = true
  inj : ∀ {p q : Nat} {e e' : U32}, lo ≤ p → p < hi → lo ≤ q → q < hi → s.leaf p = some e →
    s.leaf q = some e' → frameNo e = frameNo e' → p = q
  notTable : ∀ {p : Nat} {e : U32}, lo ≤ p → p < hi → s.leaf p = some e →
    ¬s.IsTable (frameNo e)
  notFree : ∀ {p : Nat} {e : U32}, lo ≤ p → p < hi → s.leaf p = some e →
    frameNo e ∉ s.pmm.frames

/-- Only bytes of the frames behind the pages from `lo` up to `hi` changed. -/
structure Wrote (lo hi : Nat) (s t : Machine) : Prop where
  rest : t = { s with mem := t.mem }
  mem : ∀ a, (∀ p e, lo ≤ p → p < hi → s.leaf p = some e → frameNo e ≠ a / 4096) →
    t.mem a = s.mem a

namespace Wrote

variable {lo hi : Nat} {s t u : Machine}

theorem refl (s : Machine) : Wrote lo hi s s := ⟨rfl, fun _ _ => rfl⟩

theorem cr3 (h : Wrote lo hi s t) : t.cr3 = s.cr3 := by rw [h.rest]

theorem pmm (h : Wrote lo hi s t) : t.pmm = s.pmm := by rw [h.rest]

theorem sameTables (h : Wrote lo hi s t) (ho : s.Owned lo hi) : SameTables s t :=
  ⟨h.cr3, fun a ha => h.mem a fun _ _ hlo hhi hleaf heq => ho.notTable hlo hhi hleaf (heq ▸ ha)⟩

theorem leaf (h : Wrote lo hi s t) (hs : s.Paged) (ho : s.Owned lo hi) {p : Nat}
    (hp : p < 1024 * 1024) : t.leaf p = s.leaf p :=
  (h.sameTables ho).leaf hs hp

theorem paged (h : Wrote lo hi s t) (hs : s.Paged) (ho : s.Owned lo hi) : t.Paged :=
  (h.sameTables ho).paged hs fun k hk => by rw [h.pmm]; exact hs.tablesUsed k hk

theorem owned (h : Wrote lo hi s t) (hs : s.Paged) (ho : s.Owned lo hi) : t.Owned lo hi := by
  have hle := ho.hi_le
  have hl : ∀ {p}, p < hi → t.leaf p = s.leaf p := fun hp => h.leaf hs ho (by omega)
  refine ⟨hle, fun p hlo hhi => ?_, fun hp hp' hq hq' he he' => ?_, fun hlo hhi hleaf => ?_,
    fun hlo hhi hleaf => ?_⟩
  · rw [hl hhi]
    exact ho.mapped p hlo hhi
  · rw [hl hp'] at he
    rw [hl hq'] at he'
    exact ho.inj hp hp' hq hq' he he'
  · rw [hl hhi] at hleaf
    rw [(h.sameTables ho).isTable_iff hs]
    exact ho.notTable hlo hhi hleaf
  · rw [hl hhi] at hleaf
    rw [h.pmm]
    exact ho.notFree hlo hhi hleaf

theorem trans (h : Wrote lo hi s t) (h' : Wrote lo hi t u) (hs : s.Paged) (ho : s.Owned lo hi) :
    Wrote lo hi s u := by
  have hle := ho.hi_le
  refine ⟨?_, fun a ha => ?_⟩
  · rw [h'.rest]
    dsimp only
    rw [h.rest]
  · rw [h'.mem a fun p e hlo hhi hleaf => ?_, h.mem a ha]
    rw [h.leaf hs ho (by omega)] at hleaf
    exact ha p e hlo hhi hleaf

end Wrote

/-- The pages from `lo` up to `hi` are a byte memory with the content `w`. -/
structure View (lo hi : Nat) (w : ByteMem) (s : Machine) : Prop where
  paged : s.Paged
  owned : s.Owned lo hi
  sees : ∀ a, 4096 * lo ≤ a → a < 4096 * hi → s.virt a = w a

namespace View

variable {lo hi : Nat} {w : ByteMem} {s : Machine}

theorem self (hs : s.Paged) (ho : s.Owned lo hi) : View lo hi s.virt s :=
  ⟨hs, ho, fun _ _ _ => rfl⟩

/-- Only the bytes of the range matter. -/
theorem congr {w' : ByteMem} (h : View lo hi w s)
    (hw : ∀ a, 4096 * lo ≤ a → a < 4096 * hi → w' a = w a) : View lo hi w' s :=
  ⟨h.paged, h.owned, fun a h1 h2 => (h.sees a h1 h2).trans (hw a h1 h2).symm⟩

/-- The entry behind an address of the range. -/
theorem leaf (h : View lo hi w s) {v : U32} (hlo : 4096 * lo ≤ v.toNat)
    (hhi : v.toNat < 4096 * hi) :
    ∃ e, s.leaf (v.toNat / 4096) = some e ∧ s.MayWrite (v.toNat / 4096) e := by
  have hle := h.owned.hi_le
  obtain ⟨e, hleaf, hw⟩ := h.owned.mapped (v.toNat / 4096) (by omega) (by omega)
  exact ⟨e, hleaf, h.paged.dirWritable _ (by omega) (present_of_leaf hleaf).1, hw⟩

theorem load8 (h : View lo hi w s) {v : U32} (hlo : 4096 * lo ≤ v.toNat)
    (hhi : v.toNat < 4096 * hi) : (Kfs.load8 v).run s = .ok (w v.toNat, s) := by
  obtain ⟨e, hleaf, _⟩ := h.leaf hlo hhi
  rw [load8_of_leaf hleaf, ← virt_of_leaf hleaf, h.sees _ hlo hhi]

theorem load32 (h : View lo hi w s) {v : U32} (hal : v.toNat % 4 = 0) (hlo : 4096 * lo ≤ v.toNat)
    (hhi : v.toNat < 4096 * hi) : (Kfs.load32 v).run s = .ok (w.read32 v.toNat, s) := by
  obtain ⟨e, hleaf, _⟩ := h.leaf hlo hhi
  have hbyte : ∀ i, i < 4 → s.mem (4096 * frameNo e + v.toNat % 4096 + i) = w (v.toNat + i) := by
    intro i hi
    have hdiv : (v.toNat + i) / 4096 = v.toNat / 4096 := by omega
    have hmod : (v.toNat + i) % 4096 = v.toNat % 4096 + i := by omega
    rw [← h.sees _ (by omega) (by omega), virt_of_leaf (e := e) (by rw [hdiv]; exact hleaf), hmod,
      Nat.add_assoc]
  have h0 := hbyte 0 (by decide)
  rw [Nat.add_zero, Nat.add_zero] at h0
  rw [load32_of_leaf hal hleaf, ByteMem.read32, ByteMem.read32, h0, hbyte 1 (by decide),
    hbyte 2 (by decide), hbyte 3 (by decide)]

/-- A change of bytes within one page of the range is seen at that page only. -/
theorem write (h : View lo hi w s) {page : Nat} {e : U32} (hlo : lo ≤ page) (hhi : page < hi)
    (hleaf : s.leaf page = some e) {m : ByteMem} {w' : ByteMem}
    (hin : ∀ i, i < 4096 → m (4096 * frameNo e + i) = w' (4096 * page + i))
    (hout : ∀ a, a / 4096 ≠ frameNo e → m a = s.mem a)
    (hw' : ∀ a, a / 4096 ≠ page → w' a = w a) :
    Wrote lo hi s { s with mem := m } ∧ View lo hi w' { s with mem := m } := by
  have hle := h.owned.hi_le
  have hwrote : Wrote lo hi s { s with mem := m } :=
    ⟨rfl, fun a ha => hout a fun heq => ha page e hlo hhi hleaf heq.symm⟩
  refine ⟨hwrote, hwrote.paged h.paged h.owned, hwrote.owned h.paged h.owned, fun a h1 h2 => ?_⟩
  obtain ⟨e', hleaf', _⟩ := h.owned.mapped (a / 4096) (by omega) (by omega)
  have hsame : ({ s with mem := m } : Machine).leaf (a / 4096) = some e' := by
    rw [hwrote.leaf h.paged h.owned (by omega), hleaf']
  rw [virt_of_leaf hsame]
  by_cases hp : a / 4096 = page
  · rw [hp, hleaf] at hleaf'
    rw [← Option.some.inj hleaf']
    show m _ = _
    rw [hin _ (by omega), ← hp, Nat.div_add_mod]
  · have hne : frameNo e' ≠ frameNo e := fun heq =>
      hp (h.owned.inj (by omega) (by omega) hlo hhi hleaf' hleaf heq)
    show m _ = _
    rw [hout _ (by omega), hw' a hp, ← h.sees a h1 h2, virt_of_leaf hleaf']

theorem store8 (h : View lo hi w s) {v : U32} (b : U8) (hlo : 4096 * lo ≤ v.toNat)
    (hhi : v.toNat < 4096 * hi) :
    ∃ t, (Kfs.store8 v b).run s = .ok ((), t) ∧ Wrote lo hi s t ∧
      View lo hi (w.write8 v.toNat b) t := by
  obtain ⟨e, hleaf, hw⟩ := h.leaf hlo hhi
  refine ⟨_, store8_of_leaf b hleaf hw,
    h.write (by omega) (by omega) hleaf (fun i hi => ?_) (fun a ha => ?_) (fun a ha => ?_)⟩
  · by_cases hv : v.toNat % 4096 = i
    · rw [hv, ByteMem.write8_same, show 4096 * (v.toNat / 4096) + i = v.toNat from by omega,
        ByteMem.write8_same]
    · have hsee := h.sees (4096 * (v.toNat / 4096) + i) (by omega) (by omega)
      rw [ByteMem.write8_other _ _ (by omega), ByteMem.write8_other _ _ (by omega), ← hsee,
        virt_of_leaf (e := e) (by
          rw [show (4096 * (v.toNat / 4096) + i) / 4096 = v.toNat / 4096 from by omega]
          exact hleaf),
        show (4096 * (v.toNat / 4096) + i) % 4096 = i from by omega]
  · exact ByteMem.write8_other _ _ (by omega)
  · exact ByteMem.write8_other _ _ (by omega)

theorem store32 (h : View lo hi w s) {v : U32} (x : U32) (hal : v.toNat % 4 = 0)
    (hlo : 4096 * lo ≤ v.toNat) (hhi : v.toNat < 4096 * hi) :
    ∃ t, (Kfs.store32 v x).run s = .ok ((), t) ∧ Wrote lo hi s t ∧
      View lo hi (w.write32 v.toNat x) t := by
  obtain ⟨e, hleaf, hw⟩ := h.leaf hlo hhi
  refine ⟨_, store32_of_leaf x hal hleaf hw,
    h.write (by omega) (by omega) hleaf (fun i hi => ?_) (fun a ha => ?_) (fun a ha => ?_)⟩
  · have hsee := h.sees (4096 * (v.toNat / 4096) + i) (by omega) (by omega)
    rw [virt_of_leaf (e := e) (by
        rw [show (4096 * (v.toNat / 4096) + i) / 4096 = v.toNat / 4096 from by omega]
        exact hleaf),
      show (4096 * (v.toNat / 4096) + i) % 4096 = i from by omega] at hsee
    by_cases hv : v.toNat % 4096 ≤ i ∧ i < v.toNat % 4096 + 4
    · rw [ByteMem.write32, if_pos (by omega), ByteMem.write32, if_pos (by omega)]
      congr 1
      omega
    · rw [ByteMem.write32_other _ _ (by omega), ByteMem.write32_other _ _ (by omega), hsee]
  · exact ByteMem.write32_other _ _ (by omega)
  · exact ByteMem.write32_other _ _ (by omega)

/-- A range of pages during a change to an entry of some other page. -/
theorem setEntry (hv : View lo hi w s) {i j : Nat} (x : U32)
    (hslot : i < 1023) (hp : present (s.dirWord i) = true) (hj : j < 1024)
    (hne : 1024 * i + j < lo ∨ hi ≤ 1024 * i + j) : View lo hi w (s.setEntry i j x) := by
  have hle := hv.owned.hi_le
  have hs := hv.paged
  have hl : ∀ p, lo ≤ p → p < hi → (s.setEntry i j x).leaf p = s.leaf p := fun p h1 h2 => by
    rw [leaf_setEntry x hs hslot hp hj (by omega), if_neg (by omega)]
  have hleaf : ∀ {p e}, lo ≤ p → p < hi → (s.setEntry i j x).leaf p = some e →
      s.leaf p = some e := fun h1 h2 he => by rw [← hl _ h1 h2]; exact he
  refine ⟨hs.setEntry x hslot hp hj, ⟨hle, fun p h1 h2 => ?_, fun h1 h2 h3 h4 he he' => ?_,
    fun h1 h2 he => ?_, fun h1 h2 he => hv.owned.notFree h1 h2 (hleaf h1 h2 he)⟩,
    fun a h1 h2 => ?_⟩
  · rw [hl p h1 h2]
    exact hv.owned.mapped p h1 h2
  · exact hv.owned.inj h1 h2 h3 h4 (hleaf h1 h2 he) (hleaf h3 h4 he')
  · rw [isTable_setEntry x hs hslot hp hj]
    exact hv.owned.notTable h1 h2 (hleaf h1 h2 he)
  · obtain ⟨e, he, _⟩ := hv.owned.mapped (a / 4096) (by omega) (by omega)
    have hnot := hv.owned.notTable (by omega) (by omega) he
    rw [← hv.sees a h1 h2, virt_of_leaf he,
      virt_of_leaf (by rw [hl _ (by omega) (by omega)]; exact he)]
    refine mem_setEntry_other x (fun heq => hnot ?_) hj
    rw [show (4096 * frameNo e + a % 4096) / 4096 = frameNo e from by omega] at heq
    rw [heq]
    exact isTable_dir (by omega) hp

end View

end Machine

/-! ## Headers -/

namespace Heap

open Machine Blocks

variable {lo hi : Nat} {w : ByteMem} {s : Machine} {block : U32}

theorem run_sizeAt (h : View lo hi w s) {b : Block} (hal : block.toNat % 8 = 0)
    (hlo : 4096 * lo ≤ block.toNat) (hhi : block.toNat + 8 ≤ 4096 * hi)
    (hb : Header w block.toNat b) : (sizeAt block).run s = .ok (BitVec.ofNat 32 b.size, s) := by
  rw [sizeAt, h.load32 (by omega) hlo (by omega), hb.1]

theorem run_usedAt (h : View lo hi w s) {b : Block} (hal : block.toNat % 8 = 0)
    (hlo : 4096 * lo ≤ block.toNat) (hhi : block.toNat + 8 ≤ 4096 * hi)
    (hb : Header w block.toNat b) : (usedAt block).run s = .ok (b.used, s) := by
  have hle := h.owned.hi_le
  have hadd : (block + 4).toNat = block.toNat + 4 := by bv_omega
  rw [usedAt, Prog.bind_ok (h.load32 (by omega) (by omega) (by omega)), hadd, hb.2,
    Prog.run_pure]
  cases b.used <;> rfl

theorem run_writeHeader (h : View lo hi w s) (block size : U32) (used : Bool)
    (hal : block.toNat % 8 = 0) (hlo : 4096 * lo ≤ block.toNat)
    (hhi : block.toNat + 8 ≤ 4096 * hi) :
    ∃ t, (writeHeader block size used).run s = .ok ((), t) ∧ Wrote lo hi s t ∧
      View lo hi (putHeader w block.toNat size used) t := by
  have hle := h.owned.hi_le
  have hadd : (block + 4).toNat = block.toNat + 4 := by bv_omega
  obtain ⟨u, hrun, hwrote, hview⟩ := h.store32 size (by omega) hlo (by omega)
  obtain ⟨t, hrun', hwrote', hview'⟩ :=
    hview.store32 (v := block + 4) (flag used) (by omega) (by omega) (by omega)
  rw [hadd] at hview'
  refine ⟨t, ?_, hwrote.trans hwrote' h.paged h.owned, hview'⟩
  rw [writeHeader, Prog.bind_ok hrun]
  exact hrun'

end Heap

end Kfs
