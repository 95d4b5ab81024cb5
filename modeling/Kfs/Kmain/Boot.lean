import Kfs.Kmain
import Kfs.Pmm.Search

/-!
# Which machines boot

`Handover` is a machine as a loader leaves it: the image is in memory, and a well-formed map lies
outside of it.  What `start` does before it reads the map then leaves the map alone, and the end of
the boot is decided by the map.

* `Handover.run` is the whole run, up to the block for the kernel heap.
* `boot_outcome` says which block that is, and that the kernel comes up whenever there is one.
-/

namespace Kfs

open Lib Mem Paging Machine Multiboot Idt

/-! ## A map that is left alone -/

namespace Multiboot

variable {m m' : ByteMem} {es : List Entry}

theorem Encoded.congr {a : Nat} (h : Encoded m a es) (hsize : ∀ e ∈ es, 20 ≤ e.size.toNat)
    (hm : ∀ p, a ≤ p → p < a + (es.map Entry.span).sum → m' p = m p) : Encoded m' a es := by
  induction es generalizing a with
  | nil => trivial
  | cons e es ih =>
    obtain ⟨he, hes⟩ := h
    have hspan : e.span = e.size.toNat + 4 := rfl
    have h20 := hsize e List.mem_cons_self
    rw [List.map_cons, List.sum_cons] at hm
    have hword : ∀ n, n ≤ 20 → m'.read32 (a + n) = m.read32 (a + n) := fun n hn =>
      ByteMem.read32_congr fun p h1 h2 => hm p (by omega) (by omega)
    refine ⟨?_, ih hes (fun e' he' => hsize e' (List.mem_cons_of_mem _ he')) fun p h1 h2 =>
      hm p (by omega) (by omega)⟩
    rw [← he, entryAt, entryAt, hword 4 (by decide), hword 8 (by decide), hword 12 (by decide),
      hword 16 (by decide), hword 20 (by decide), show m'.read32 a = m.read32 a from
        hword 0 (by decide)]

/-- The bytes of the header and of the map decide. -/
theorem WellFormed.congr {info : U32} (h : WellFormed m info es)
    (hinfo : ∀ p, info.toNat ≤ p → p < info.toNat + 52 → m' p = m p)
    (hmap : ∀ p, (m.read32 (info.toNat + 48)).toNat ≤ p →
      p < (m.read32 (info.toNat + 48)).toNat + (es.map Entry.span).sum → m' p = m p) :
    WellFormed m' info es := by
  have hword : ∀ n, n ≤ 48 → m'.read32 (info.toNat + n) = m.read32 (info.toNat + n) := fun n hn =>
    ByteMem.read32_congr fun p h1 h2 => hinfo p (by omega) (by omega)
  have hflags := hword 0 (by decide)
  rw [Nat.add_zero] at hflags
  have hlength := hword 44 (by decide)
  have hstart := hword 48 (by decide)
  refine ⟨h.info_ne, h.info_low, ?_, ?_, ?_, ?_, ?_, h.size, ?_⟩
  · rw [hflags]
    exact h.flag
  · rw [hstart]
    exact h.start_ne
  · rw [hstart]
    exact h.start_low
  · rw [hlength]
    exact h.length
  · rw [hstart]
    exact h.map_low
  · rw [hstart]
    exact h.entries.congr h.size hmap

end Multiboot

/-! ## The handover -/

/-- No byte of the image, and none of the table of descriptors. -/
def Build.Clear (B : Build) (a : Nat) : Prop :=
  ¬(0x800 ≤ a ∧ a < 0x838) ∧ ¬B.layout.InImage (a / 4096)

/-- What the loader leaves for `_start`, with a map of the entries `es`. -/
structure Handover (B : Build) (w : World) (es : List Entry) : Prop where
  loaded : B.Loaded w.machine
  magic : w.cpu.eax = BOOT_MAGIC
  map : WellFormed w.machine.mem w.cpu.ebx es
  info_clear : ∀ a, w.cpu.ebx.toNat ≤ a → a < w.cpu.ebx.toNat + 52 → B.Clear a
  map_clear : ∀ a, (w.machine.mem.read32 (w.cpu.ebx.toNat + 48)).toNat ≤ a →
    a < (w.machine.mem.read32 (w.cpu.ebx.toNat + 48)).toNat + (es.map Entry.span).sum → B.Clear a

/-- The boot does not write there before `mem::init`. -/
theorem Build.Clear.kept {B : Build} {a : Nat} (h : B.Clear a) :
    B.written a = false ∧ a / 4096 ≠ B.layout.dirFrame ∧ a / 4096 ≠ B.layout.lowFrame := by
  obtain ⟨hgdt, himage⟩ := h
  have hstart := B.layout.start_ge
  have hread := B.layout.start_le
  have hbss := B.stack_bss
  have hidt := B.idt_bss
  have hend : (kernelPhys B.layout.image.finish).toNat
      = B.layout.image.finish.toNat - 0xC0000000 := by
    rw [kernelPhys]
    bv_omega
  have hload : loadPhys.toNat = 0x100000 := rfl
  refine ⟨Bool.or_eq_false_iff.mpr ⟨decide_eq_false fun hst => himage ?_,
    decide_eq_false fun hdesc => ?_⟩, fun hd => ?_, fun hl => ?_⟩
  · rw [Layout.InImage, hend, hload]
    omega
  · rcases hdesc with hdesc | hdesc
    · exact hgdt hdesc
    · refine himage ?_
      rw [Layout.InImage, hend, hload]
      omega
  · rw [hd] at himage
    exact himage B.layout.dir_addr.2.2.2
  · rw [hl] at himage
    exact himage B.layout.low_addr.2.2.2

/-- The map that `probe` makes of the entries. -/
def ramFrom (es : List Entry) : Ram :=
  es.foldl Ram.add { Ram.nothing with source := "multiboot memory map" }

section

variable {B : Build} {w : World} {es : List Entry}

/-- The run of `start` on such a machine. -/
theorem Handover.run (h : Handover B w es) (hfits : B.layout.Fits) (hsome : survivors es ≠ []) :
    ∃ w', (start B).run w
      = match (Pmm.bootCarve (ramFrom es) loadPhys B.layout.image.finish).1 with
        | some window => .ok ((ramFrom es, heapInit window), w')
        | none => .error (.stopped
            (.panic "no contiguous physical block left for the kernel heap")) := by
  obtain ⟨cpu, m, hrun, _, _, _, _, hm⟩ := start_run h.loaded hfits
  have hboot := bootAsm_tables h.loaded.directory
  have hpmm := bootAsm_pmm B.layout w.machine
  rw [h.loaded.pmm] at hpmm
  have hclear : ∀ a, B.Clear a → m a = w.machine.mem a := by
    intro a ha
    obtain ⟨hwr, hd, hl⟩ := ha.kept
    rw [hm a hwr]
    exact bootAsm_mem _ hd hl
  -- the loader's structures are as they were
  have hwf : WellFormed m w.cpu.ebx es :=
    h.map.congr (fun a h1 h2 => hclear a (h.info_clear a h1 h2)) fun a h1 h2 =>
      hclear a (h.map_clear a h1 h2)
  rw [h.magic] at hrun
  generalize bootAsm B.layout w.machine = s at hrun hm hboot hpmm
  have htab : BootTables B.layout { s with mem := m } := hboot.reserved fun a ha => hm a (by
    cases hwr : B.written a with
    | false => rfl
    | true =>
      rw [B.written_reserved hwr] at ha
      cases ha)
  have hram := foldl_holds es (Ram.Holds.nothing "multiboot memory map")
  rw [List.nil_append] at hram
  have hprobe := hwf.probe_found htab (ramFrom es) rfl fun hz => hsome (hram.count_eq_zero.mp hz)
  obtain ⟨t, _, _, hmem⟩ := memInit_run hfits htab hpmm hprobe
  rw [hrun]
  refine ⟨{ w with cpu := cpu, machine := t }, ?_⟩
  cases hc : (Pmm.bootCarve (ramFrom es) loadPhys B.layout.image.finish).1 with
  | none =>
    rw [hc] at hmem
    exact lift_error hmem
  | some window =>
    rw [hc] at hmem
    exact lift_ok hmem

end

/-! ## A boot -/

theorem smallStub_inj {v w : Nat} (hv : v < 32) (hw : w < 32)
    (h : BitVec.ofNat 32 (0xC0102000 + 16 * v) = BitVec.ofNat 32 (0xC0102000 + 16 * w)) :
    v = w := by
  have := congrArg BitVec.toNat h
  rw [BitVec.toNat_ofNat, BitVec.toNat_ofNat] at this
  omega

/-- The small image with a stack, a table of gates and stubs of sixteen bytes. -/
def smallBuild : Build where
  layout := smallLayout
  stackBottom := 0xC0114000
  stackTop := 0xC0118000
  codeEnd := 0xC010E000
  idtTable := 0xC0119000
  isrTable := 0xC010F000
  isr v := BitVec.ofNat 32 (0xC0102000 + 16 * v)
  returnTo := 0xC0103000
  hang := 0xC0103010
  leaves _ := ⟨0, 0, 0, 0, fun _ => 0⟩
  start_aligned := by decide
  readonly_aligned := by decide
  stack_size := by decide
  stack_aligned := by decide
  stack_bss := by decide
  idt_aligned := by decide
  idt_bss := by decide
  isr_aligned := by decide
  isr_rodata := by decide
  tables_apart t ht := by
    simp only [List.mem_cons, List.not_mem_nil, or_false] at ht
    rcases ht with rfl | rfl | rfl <;> decide
  idt_apart := by decide
  isr_inj _ _ := smallStub_inj

/-- The memory of a loader that put the small image there as well. -/
def smallMem : ByteMem := (loaderMem plainEntries).fill32 0x10F000 smallBuild.isr 32

def smallWorld : World where
  cpu :=
    { eax := BOOT_MAGIC, ecx := 0, edx := 0, ebx := 0x9000, esp := 0, ebp := 0, esi := 0, edi := 0,
      eip := 0x100000, cs := 8, eflags := 2, cr2 := 0, ss := 0x10, ds := 0x10, idtr := ⟨0, 0⟩,
      gdtr := ⟨0, 0⟩ }
  machine := { loader plainEntries with mem := smallMem }
  reports := []

theorem smallWorld_loaded : smallBuild.Loaded smallWorld.machine where
  directory a ha := by
    have hdir := smallLayout.dir_addr.1
    have hd : smallLayout.bootDirectory.toNat = 0xC0110000 := rfl
    have ha' : a / 4096 = smallLayout.dirFrame := ha
    have hmem : smallMem a = loaderMem plainEntries a := ByteMem.fill32_other _ _ (by omega)
    exact hmem.trans (loaded_loader plainEntries (by decide) a ha)
  pmm := rfl
  stubs v hv := ByteMem.read32_fill32 _ _ _ hv

theorem smallLayout_eq : smallBuild.layout = smallLayout := rfl

/-- The plain machine as its loader leaves it. -/
theorem smallWorld_handover : Handover smallBuild smallWorld (plainEntries.map available) := by
  have hebx : smallWorld.cpu.ebx.toNat = 0x9000 := rfl
  have hmem : smallWorld.machine.mem = smallMem := rfl
  have hkept : ∀ a, a < 0x100000 → smallMem a = loaderMem plainEntries a := fun a ha =>
    ByteMem.fill32_other _ _ (by omega)
  have hinfo : ∀ i, i < 13 → smallMem.read32 ((0x9000 : U32).toNat + 4 * i)
      = infoWord plainEntries.length i := by
    intro i hi
    rw [show (0x9000 : U32).toNat = 0x9000 from rfl,
      ByteMem.read32_congr fun a h1 h2 => hkept a (by omega), loaderMem,
      ByteMem.read32_congr fun a h1 h2 => ByteMem.fill32_other _ _ (by omega),
      ByteMem.read32_fill32 _ _ _ hi]
  have hstart : smallMem.read32 (0x9000 + 48) = 0xA000 := hinfo 12 (by decide)
  have hclear : ∀ a, 0x9000 ≤ a → a < 0x100000 → smallBuild.Clear a := by
    intro a h1 h2
    have hload : loadPhys.toNat = 0x100000 := rfl
    refine ⟨by omega, fun himage => ?_⟩
    obtain ⟨h3, _⟩ := himage
    omega
  refine ⟨smallWorld_loaded, rfl, wellFormed_words plainEntries (by decide) hinfo
    (stored_of_words _ plainEntries _ fun i hi => ?_), fun a h1 h2 => ?_, fun a h1 h2 => ?_⟩
  · have hlen : i < 6 := hi
    rw [hmem, ByteMem.read32_congr fun a h1 h2 => hkept a (by omega), loaderMem,
      ByteMem.read32_fill32 _ _ _ hi]
  · exact hclear a (by omega) (by omega)
  · have hspan := sum_span_available plainEntries
    have hone : plainEntries.length = 1 := rfl
    rw [hebx, hmem, hstart, show (0xA000 : U32).toNat = 0xA000 from rfl] at h1 h2
    exact hclear a (by omega) (by omega)

/-- The kernel comes to its shell on such a machine. -/
theorem exists_start_plain : ∃ hs w,
    (start smallBuild).run smallWorld = .ok ((ramOf plainEntries, hs), w) ∧
      hs.kernel.heap.physEnd.toNat < 0xFFFFF000 := by
  obtain ⟨w, hrun⟩ := smallWorld_handover.run smallLayout_fits (by decide)
  obtain ⟨window, hwindow⟩ := exists_carve_plain
  have hram : ramFrom (plainEntries.map available) = ramOf plainEntries := by
    rw [ramFrom, List.foldl_map]
    rfl
  rw [hram, smallLayout_eq, hwindow] at hrun
  obtain ⟨_, h0⟩ := (start_up smallWorld_loaded hrun).booted.start
  exact ⟨_, _, hrun, h0.plain_end⟩

end Kfs
