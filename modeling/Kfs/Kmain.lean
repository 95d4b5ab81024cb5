import Kfs.Idt.Live

/-!
# From the loader to the shell

`start` is `boot.asm` and `kmain` up to the call of `shell::run`: the first tables, the stack, the
two descriptor tables of the processor, and `mem::init`.  What `kmain` prints is left out.

* `start_run` takes the boot up to `mem::init`, on tables in which both windows can be written.
* The descriptor tables are installed before the loader's map is read.  `bootAsm_absorb` says that
  this is as if the loader had put them there, so the machine is one of `Booted`.
* `start_up` says what a boot that came to its end leaves, and `World.Up.live` that the kernel is
  then `Live`, with no page in the demand zone.
-/

namespace Kfs

open Lib Mem Paging Machine Multiboot Idt

/-! ## The program -/

/-- `kmain` up to `shell::run`. -/
def kmain (B : Build) (magic info : U32) : Exec (Ram × Heaps) := do
  lift Gdt.install
  Gdt.reload
  let idtr ← lift (Idt.install B)
  setCpu fun cpu => { cpu with idtr := idtr }
  lift (memInit B.layout magic info)

/-- `higher_half`, with the two arguments of `kmain` on the stack. -/
def higherHalf (B : Build) : Exec (Ram × Heaps) := do
  setCpu fun cpu => { cpu with esp := B.stackTop, ebp := B.stackTop }
  let cpu ← getCpu
  pushAll [cpu.edi, cpu.esi, B.hang]
  let cpu ← getCpu
  let magic ← lift (load32 (cpu.esp + 4))
  let info ← lift (load32 (cpu.esp + 8))
  kmain B magic info

/-- `_start`.  The loader leaves its magic number in EAX and the address of its information in
EBX. -/
def start (B : Build) : Exec (Ram × Heaps) := do
  Prog.modify fun w =>
    { w with
      cpu := { w.cpu with esi := w.cpu.eax, edi := w.cpu.ebx }
      machine := bootAsm B.layout w.machine }
  higherHalf B

/-- The loader put the image into memory: its `.bss` is zero, and `isr_table` holds the addresses of
the stubs. -/
structure Build.Loaded (B : Build) (s : Machine) : Prop where
  directory : Kfs.Loaded B.layout s
  pmm : s.pmm = Pmm.zero
  stubs : ∀ v, v < 32 → s.mem.read32 (B.isrTable.toNat - 0xC0000000 + 4 * v) = B.isr v

/-! ## The two windows of `boot.asm` -/

theorem Layout.reserved_apart {L : Layout} {a : Nat} (h : L.reserved a = true) :
    a / 4096 ≠ L.dirFrame ∧ a / 4096 ≠ L.lowFrame ∧ a / 4096 ≠ L.kernelFrame := by
  have hdir := L.dir_addr.2.2.1
  have hlow := L.low_addr.2.2.1
  have hkernel := L.kernel_addr.2.2.1
  rcases of_decide_eq_true h with hlt | ⟨_, hrest⟩
  · omega
  · exact hrest

namespace BootTables

variable {L : Layout} {s t : Machine}

theorem isTable (h : BootTables L s) {k : Nat} (hk : s.IsTable k) :
    k = L.lowFrame ∨ k = L.dirFrame := by
  obtain ⟨i, hi, hp, rfl⟩ := hk
  by_cases h0 : i = 0
  · rw [h0, (entry_bits h.dirLow).1]
    exact Or.inl rfl
  by_cases h768 : i = 768
  · rw [h768, (entry_bits h.dirKernel).1]
    exact Or.inl rfl
  by_cases h1023 : i = 1023
  · rw [h1023, (entry_bits h.dirSelf).1]
    exact Or.inr rfl
  · rw [h.dirElse i hi h0 h768 h1023] at hp
    cases hp

/-- The tables are a matter of the bytes of two frames. -/
theorem congr (h : BootTables L s) (hcr3 : t.cr3 = s.cr3)
    (hmem : ∀ a, a / 4096 = L.dirFrame ∨ a / 4096 = L.lowFrame → t.mem a = s.mem a) :
    BootTables L t := by
  have hdir : ∀ {i}, i < 1024 → t.dirWord i = s.dirWord i := fun hi =>
    dirWord_congr hcr3 (fun a ha => hmem a (Or.inl (ha.trans h.cr3))) hi
  refine ⟨by rw [hcr3, h.cr3], ?_, ?_, ?_, fun i hi h0 h768 h1023 => ?_, fun j hj => ?_⟩
  · rw [hdir (by decide)]
    exact h.dirLow
  · rw [hdir (by decide)]
    exact h.dirKernel
  · rw [hdir (by decide)]
    exact h.dirSelf
  · rw [hdir hi]
    exact h.dirElse i hi h0 h768 h1023
  · rw [read32_frame_congr (m := s.mem) hj fun a ha => hmem a (Or.inr ha)]
    exact h.low j hj

/-- Page `j` of either window is frame `j`. -/
theorem leaf_window (h : BootTables L s) {i j : Nat} (hi : i = 0 ∨ i = 768) (hj : j < 1024) :
    ∃ e, s.leaf (1024 * i + j) = some e ∧ frameNo e = j ∧ s.MayWrite (1024 * i + j) e := by
  have hdir : (s.dirWord i).toNat = 4096 * L.lowFrame + 3 := by
    rcases hi with rfl | rfl
    · exact h.dirLow
    · exact h.dirKernel
  obtain ⟨hf, hp, hw⟩ := entry_bits hdir
  have hdiv : (1024 * i + j) / 1024 = i := by omega
  have hmod : (1024 * i + j) % 1024 = j := by omega
  have hentry : (s.tabWord i j).toNat = 4096 * j + 3 := by
    rw [tabWord, hf]
    exact h.low j hj
  obtain ⟨hef, hep, hew⟩ := entry_bits hentry
  refine ⟨s.tabWord i j, ?_, hef, by rw [hdiv]; exact hw, hew⟩
  rw [leaf_eq_some (by rw [hdiv]; exact hp) (by rw [hdiv, hmod]; exact hep), hdiv, hmod]

/-- Reserved memory, through either window. -/
theorem region (h : BootTables L s) {i lo hi : Nat} (hi' : i = 0 ∨ i = 768)
    (hlo : 1024 * 4096 * i ≤ lo) (hhi : hi ≤ 1024 * 4096 * (i + 1))
    (hres : ∀ a, lo ≤ a → a < hi → L.reserved (a - 1024 * 4096 * i) = true) :
    s.Region (1024 * 4096 * i) lo hi := by
  refine ⟨h.selfMapped, by omega, fun a h1 h2 => ?_, fun a h1 h2 ht => ?_⟩
  · obtain ⟨e, he, hf, hmay⟩ := h.leaf_window hi' (j := a / 4096 - 1024 * i) (by omega)
    rw [show 1024 * i + (a / 4096 - 1024 * i) = a / 4096 from by omega] at he hmay
    exact ⟨e, he, by omega, hmay⟩
  · obtain ⟨hd, hl, _⟩ := Layout.reserved_apart (hres a h1 h2)
    rcases h.isTable ht with hk | hk
    · exact hl hk
    · exact hd hk

end BootTables

/-! ## The descriptor tables -/

section

variable {B : Build} {s : Machine}

theorem BootTables.gdt_region (h : BootTables B.layout s) : s.Region 0 0x800 0x838 :=
  h.region (i := 0) (Or.inl rfl) (by omega) (by omega) fun a _ ha =>
    decide_eq_true (Or.inl (by omega))

theorem Gdt.install_run (h : BootTables B.layout s) :
    Gdt.install.run s
      = .ok ((), { s with mem := s.mem.fill32 0x800 (halves Gdt.descriptor) 14 }) :=
  h.gdt_region.store64_loop (v := Gdt.BASE) (n := 7) (by decide) (by decide) (by decide) _
    fun i _ m _ => rfl

/-- A segment register is loaded: one word of the table changes. -/
theorem loadSegment_run {w : World} (h : w.machine.Region 0 0x800 0x838) (cpu : Cpu)
    (hbase : cpu.gdtr.base = Gdt.BASE) (f : Nat → U32) (selector : U16) {j : Nat} (hj : j < 14)
    (hv : (Gdt.BASE + (selector &&& 0xFFF8).setWidth 32 + 4).toNat = 0x800 + 4 * j)
    (hbit : f j &&& SEGMENT_ACCESSED = 0) (set : Cpu → Cpu) :
    (loadSegment selector set).run { w with
        cpu := cpu, machine := { w.machine with mem := w.machine.mem.fill32 0x800 f 14 } }
      = .ok ((), { w with
        cpu := set cpu
        machine := { w.machine with
          mem := w.machine.mem.fill32 0x800 (Function.update f j (f j ||| SEGMENT_ACCESSED)) 14 } })
    := by
  have hregion : ({ w.machine with mem := w.machine.mem.fill32 0x800 f 14 } : Machine).Region 0
      0x800 0x838 := h.withMem fun a ha => ByteMem.fill32_other _ _ (by omega)
  have hload := hregion.load32_run (v := Gdt.BASE + (selector &&& 0xFFF8).setWidth 32 + 4)
    (by omega) (by omega) (by omega)
  have hstore := hregion.store32_run (v := Gdt.BASE + (selector &&& 0xFFF8).setWidth 32 + 4)
    (by omega) (by omega) (by omega) (f j ||| SEGMENT_ACCESSED)
  rw [hv, Nat.sub_zero] at hload hstore
  dsimp only at hload hstore
  rw [ByteMem.read32_fill32 _ _ _ hj] at hload
  rw [ByteMem.write32_fill32_update _ _ _ hj] at hstore
  rw [loadSegment, getCpu, Prog.bind_ok (Prog.run_gets _ _)]
  dsimp only
  rw [hbase, Prog.bind_ok (lift_ok hload), if_pos hbit, Prog.bind_ok (lift_ok hstore), setCpu,
    Prog.run_modify]

/-- The loads of DS, SS and CS mark their descriptors. -/
theorem Gdt.reload_run {w : World} (h : w.machine.Region 0 0x800 0x838) :
    Gdt.reload.run { w with machine := { w.machine with
        mem := w.machine.mem.fill32 0x800 (halves Gdt.descriptor) 14 } }
      = .ok ((), { w with
        cpu := { w.cpu with
          gdtr := { limit := Gdt.LIMIT, base := Gdt.BASE }
          ds := Gdt.KERNEL_DATA
          ss := Gdt.KERNEL_STACK
          cs := Gdt.KERNEL_CODE.setWidth 32 }
        machine := { w.machine with
          mem := w.machine.mem.fill32 0x800 (halves Gdt.held) 14 } }) := by
  have hds := loadSegment_run (w := w) h
    { w.cpu with gdtr := { limit := Gdt.LIMIT, base := Gdt.BASE } } rfl (halves Gdt.descriptor)
    Gdt.KERNEL_DATA (j := 5) (by decide) (by decide) (by decide)
    fun cpu => { cpu with ds := Gdt.KERNEL_DATA }
  rw [Gdt.reload, setCpu, Prog.bind_ok (Prog.run_modify _ _), Prog.bind_ok hds,
    Prog.bind_ok (loadSegment_run h _ rfl _ _ (j := 7) (by decide) (by decide) (by decide) _),
    loadSegment_run h _ rfl _ _ (j := 3) (by decide) (by decide) (by decide),
    ByteMem.fill32_congr _ _ (g := halves Gdt.held) (by decide)]

/-- The constants of the image are reserved too. -/
theorem Build.isr_reserved (B : Build) {a : Nat} (h1 : B.isrTable.toNat ≤ a)
    (h2 : a < B.isrTable.toNat + 128) : B.layout.reserved (a - 0xC0000000) = true := by
  have hstart := B.layout.start_ge
  have hro := B.isr_rodata
  have hdir := B.layout.dir_addr.1
  have hlow := B.layout.low_addr.1
  have hkernel := B.layout.kernel_addr.1
  have hd := B.layout.inBss B.layout.bootDirectory (by simp)
  have hl := B.layout.inBss B.layout.bootLowTable (by simp)
  have hk := B.layout.inBss B.layout.kernelTable (by simp)
  exact decide_eq_true (Or.inr ⟨by omega, by omega, by omega, by omega⟩)

theorem Idt.install_run (h : BootTables B.layout s) (hfits : B.layout.Fits)
    (hstubs : ∀ v, v < 32 → s.mem.read32 (B.isrTable.toNat - 0xC0000000 + 4 * v) = B.isr v) :
    (Idt.install B).run s
      = .ok ({ limit := BitVec.ofNat 16 (SLOTS * 8 - 1), base := B.idtTable },
        { s with
          mem := s.mem.fill32 (B.idtTable.toNat - 0xC0000000) (halves fun v => gate (B.isr v))
            64 }) := by
  have hfin : B.layout.image.finish.toNat ≤ 0xC0400000 := hfits
  have hstart := B.layout.start_ge
  have hbss := B.idt_bss
  have hro := B.isr_rodata
  have hal := B.isr_aligned
  have hwin := B.idt_window
  have hidt : s.Region 0xC0000000 B.idtTable.toNat (B.idtTable.toNat + 2048) :=
    h.region (i := 768) (Or.inr rfl) (by omega) (by omega) fun a h1 h2 => B.idt_reserved h1 h2
  have hloop := hidt.store64_loop (v := B.idtTable) (n := 32) B.idt_aligned (Nat.le_refl _)
    (by omega) (fun v => gate (B.isr v))
    (f := fun vector => do
      let handler ← load32 (ptrAdd B.isrTable vector)
      store64 (B.idtTable + BitVec.ofNat 32 (8 * vector)) (gate handler))
    fun v hv m hm => by
      -- the stubs lie below the table that the loop writes
      have htab : BootTables B.layout ({ s with mem := m } : Machine) := by
        refine h.congr rfl fun a ha => hm a ?_
        by_contra hin
        have hres := B.idt_reserved (a := a + 0xC0000000) (by omega) (by omega)
        rw [Nat.add_sub_cancel] at hres
        obtain ⟨hd, hl, _⟩ := Layout.reserved_apart hres
        rcases ha with ha | ha
        · exact hd ha
        · exact hl ha
      have hisr : ({ s with mem := m } : Machine).Region 0xC0000000 B.isrTable.toNat
          (B.isrTable.toNat + 128) :=
        htab.region (i := 768) (Or.inr rfl) (by omega) (by omega) fun a h1 h2 =>
          B.isr_reserved h1 h2
      have haddr : (ptrAdd B.isrTable v).toNat = B.isrTable.toNat + 4 * v := by
        rw [ptrAdd, toNat_add_ofNat (by omega)]
      have hword : m.read32 (B.isrTable.toNat - 0xC0000000 + 4 * v) = B.isr v := by
        rw [ByteMem.read32_congr fun a h1 h2 => hm a (by omega)]
        exact hstubs v hv
      have hload := hisr.load32_run (v := ptrAdd B.isrTable v) (by omega) (by omega) (by omega)
      rw [haddr, show B.isrTable.toNat + 4 * v - 0xC0000000
        = B.isrTable.toNat - 0xC0000000 + 4 * v from by omega] at hload
      dsimp only at hload
      rw [Prog.bind_ok hload, hword]
  rw [Idt.install, Prog.bind_ok hloop, Prog.run_pure]

end

/-! ## The tables before the loader's map -/

theorem identity_congr (n : Nat) : ∀ (edx eax : U32) {m m' : ByteMem} {p : Nat}, m p = m' p →
    identity n edx eax m p = identity n edx eax m' p := by
  induction n with
  | zero =>
    intro edx eax m m' p h
    exact h
  | succ n ih =>
    intro edx eax m m' p h
    exact ih _ _ (ByteMem.write32_congr _ h)

section

variable {L : Layout}

/-- A byte that `boot.asm` leaves depends on that byte alone. -/
theorem bootAsm_congr {s s' : Machine} {a : Nat} (h : s.mem a = s'.mem a) :
    (bootAsm L s).mem a = (bootAsm L s').mem a := by
  rw [bootAsm, bootAsm]
  dsimp only
  refine ByteMem.write32_congr _ (ByteMem.write32_congr _ (ByteMem.write32_congr _ ?_))
  exact identity_congr 1024 _ _ h

theorem bootAsm_rest (s : Machine) (m : ByteMem) :
    bootAsm L { s with mem := m }
      = { bootAsm L s with mem := (bootAsm L { s with mem := m }).mem } := by
  have hfields : ∀ t u : Machine, t.cr0 = u.cr0 → t.cr3 = u.cr3 → t.pmm = u.pmm →
      t.oops = u.oops → t = { u with mem := t.mem } := by
    intro t u h1 h2 h3 h4
    cases t
    cases u
    cases h1
    cases h2
    cases h3
    cases h4
    rfl
  exact hfields _ _ (by rw [bootAsm, bootAsm]) (by rw [bootAsm, bootAsm]) (by rw [bootAsm, bootAsm])
    (by rw [bootAsm, bootAsm])

/-- Bytes beside the tables could have been in memory before `boot.asm`. -/
theorem bootAsm_absorb (s : Machine) {m : ByteMem}
    (hm : ∀ a, a / 4096 = L.dirFrame ∨ a / 4096 = L.lowFrame → m a = (bootAsm L s).mem a) :
    ∃ s', bootAsm L s' = { bootAsm L s with mem := m } ∧
      (∀ a, a / 4096 = L.dirFrame → s'.mem a = s.mem a) ∧ s'.pmm = s.pmm := by
  let m0 : ByteMem := fun a =>
    if a / 4096 = L.dirFrame ∨ a / 4096 = L.lowFrame then s.mem a else m a
  have hmem : (bootAsm L { s with mem := m0 }).mem = m := by
    funext a
    by_cases ha : a / 4096 = L.dirFrame ∨ a / 4096 = L.lowFrame
    · rw [hm a ha]
      exact bootAsm_congr (if_pos ha)
    · rw [bootAsm_mem _ (fun h => ha (Or.inl h)) fun h => ha (Or.inr h)]
      exact if_neg ha
  refine ⟨{ s with mem := m0 }, ?_, fun a ha => if_pos (Or.inl ha), rfl⟩
  rw [bootAsm_rest, hmem]

/-- A `mem::init` that returned found an image in its window, and wrote two frames of it. -/
theorem memInit_kept {s t : Machine} {magic info : U32} {r : Ram × Heaps}
    (hrun : (memInit L magic info).run s = .ok (r, t)) :
    L.Fits ∧ (BootTables L s → ∀ a, a / 4096 ≠ L.dirFrame → a / 4096 ≠ L.kernelFrame →
      t.mem a = s.mem a) := by
  rw [memInit, Prog.bind_eq_ok] at hrun
  obtain ⟨r', u, hprobe, hrest⟩ := hrun
  cases r' with
  | error why => cases hrest
  | ok ram =>
    obtain ⟨_, _, rfl⟩ := probe_wf hprobe
    dsimp only at hrest
    split at hrest
    · cases hrest
    · rename_i hfin
      have hfits : L.Fits := BitVec.not_lt.mp hfin
      refine ⟨hfits, fun htab a hd hk => ?_⟩
      rw [Prog.bind_ok (Prog.run_modify _ _), Prog.bind_ok (Prog.run_modify _ _),
        Prog.bind_ok (Prog.run_modify _ _)] at hrest
      obtain ⟨v, hinit, _, _, _, hmem⟩ := init_run hfits (htab.withPmm _)
      rw [Prog.bind_ok hinit, Prog.bind_eq_ok] at hrest
      obtain ⟨window, x, hcarve, hlast⟩ := hrest
      cases hcarve
      split at hlast
      · cases hlast
      · cases hlast
        exact hmem a hd hk

end

/-! ## The boot -/

section

variable {B : Build} {w : World}

/-- The arguments of `kmain` and its return address, on the stack. -/
theorem pushArgs_run (h : w.Stacked B 12) (x y z : U32) :
    ∃ m, (pushAll [x, y, z]).run w
        = .ok ((), { w with
          cpu := { w.cpu with esp := w.cpu.esp - 12 }, machine := { w.machine with mem := m } }) ∧
      m.read32 (w.cpu.esp.toNat - 0xC0000000 - 4) = x ∧
      m.read32 (w.cpu.esp.toNat - 0xC0000000 - 8) = y ∧
      ∀ a, B.onStack a = false → m a = w.machine.mem a := by
  have hwin := B.stack_window
  have hroom := h.room
  have htop := h.top
  refine ⟨_, pushAll_run [x, y, z] h, ?_, ?_, fun a ha => ?_⟩
  · exact ByteMem.read32_pushed (i := 0) _ (by simp only [List.length_cons, List.length_nil]; omega)
      rfl
  · exact ByteMem.read32_pushed (i := 1) _ (by simp only [List.length_cons, List.length_nil]; omega)
      rfl
  · have hout := of_decide_eq_false ha
    refine ByteMem.pushed_other _ ?_ ?_
    · simp only [List.length_cons, List.length_nil]
      omega
    · simp only [List.length_cons, List.length_nil]
      omega

theorem BootTables.stack_region {s : Machine} (h : BootTables B.layout s) (hfits : B.layout.Fits) :
    s.Region 0xC0000000 B.stackBottom.toNat B.stackTop.toNat := by
  have hfin : B.layout.image.finish.toNat ≤ 0xC0400000 := hfits
  have hwin := B.stack_window
  have hbss := B.stack_bss
  exact h.region (i := 768) (Or.inr rfl) (by omega) (by omega) fun a h1 h2 =>
    B.stack_reserved h1 h2

/-- Reserved memory is no table of `boot.asm`. -/
theorem BootTables.reserved {L : Layout} {s : Machine} (h : BootTables L s) {m : ByteMem}
    (hm : ∀ a, L.reserved a = false → m a = s.mem a) : BootTables L { s with mem := m } := by
  refine h.congr rfl fun a ha => hm a ?_
  cases hres : L.reserved a with
  | false => rfl
  | true =>
    obtain ⟨hd, hl, _⟩ := Layout.reserved_apart hres
    rcases ha with ha | ha
    · exact absurd ha hd
    · exact absurd ha hl

/-- `higher_half` up to the call of `kmain`. -/
theorem higherHalf_run (h : BootTables B.layout w.machine) (hfits : B.layout.Fits) :
    ∃ cpu m, (higherHalf B).run w
        = (kmain B w.cpu.esi w.cpu.edi).run { w with
          cpu := cpu, machine := { w.machine with mem := m } } ∧
      cpu.esp.toNat + 12 = B.stackTop.toNat ∧
      ∀ a, B.onStack a = false → m a = w.machine.mem a := by
  have hwin := B.stack_window
  have hsize := B.stack_size
  have hal := B.stack_aligned
  let w1 : World := { w with cpu := { w.cpu with esp := B.stackTop, ebp := B.stackTop } }
  have hstack : w1.Stacked B 12 := by
    refine ⟨h.stack_region hfits, ?_, ?_, Nat.le_refl _⟩
    · show B.stackTop.toNat % 4 = 0
      omega
    · show B.stackBottom.toNat + 12 ≤ B.stackTop.toNat
      omega
  obtain ⟨m, hpush, hinfo, hmagic, hmem⟩ := pushArgs_run hstack w.cpu.edi w.cpu.esi B.hang
  have hregion : ({ w.machine with mem := m } : Machine).Region 0xC0000000 B.stackBottom.toNat
      B.stackTop.toNat := by
    refine (h.stack_region hfits).withMem fun a ha => hmem a (decide_eq_false ?_)
    omega
  have hesp : (B.stackTop - 12).toNat = B.stackTop.toNat - 12 :=
    toNat_sub_ofNat (n := 12) (by omega)
  have hesp4 : (B.stackTop - 12 + 4).toNat = B.stackTop.toNat - 8 := by
    have := B.stackTop.isLt
    rw [show (B.stackTop - 12 + 4).toNat = (B.stackTop - 12).toNat + 4 from
      toNat_add_ofNat (n := 4) (by omega)]
    omega
  have hesp8 : (B.stackTop - 12 + 8).toNat = B.stackTop.toNat - 4 := by
    have := B.stackTop.isLt
    rw [show (B.stackTop - 12 + 8).toNat = (B.stackTop - 12).toNat + 8 from
      toNat_add_ofNat (n := 8) (by omega)]
    omega
  have hload4 := hregion.load32_run (v := B.stackTop - 12 + 4) (by omega) (by omega) (by omega)
  have hload8 := hregion.load32_run (v := B.stackTop - 12 + 8) (by omega) (by omega) (by omega)
  rw [hesp4, show B.stackTop.toNat - 8 - 0xC0000000 = B.stackTop.toNat - 0xC0000000 - 8 from
    by omega] at hload4
  rw [hesp8, show B.stackTop.toNat - 4 - 0xC0000000 = B.stackTop.toNat - 0xC0000000 - 4 from
    by omega] at hload8
  dsimp only at hload4 hload8
  rw [hmagic] at hload4
  rw [hinfo] at hload8
  refine ⟨{ w1.cpu with esp := B.stackTop - 12 }, m, ?_, ?_, hmem⟩
  · rw [higherHalf, setCpu, Prog.bind_ok (Prog.run_modify _ _), getCpu,
      Prog.bind_ok (Prog.run_gets _ _), Prog.bind_ok hpush, Prog.bind_ok (Prog.run_gets _ _),
      Prog.bind_ok (lift_ok hload4), Prog.bind_ok (lift_ok hload8)]
  · show (B.stackTop - 12).toNat + 12 = _
    omega

/-- The bytes that the two `install`s write. -/
def Build.descriptors (B : Build) (a : Nat) : Bool :=
  decide (0x800 ≤ a ∧ a < 0x838 ∨
    B.idtTable.toNat ≤ a + 0xC0000000 ∧ a + 0xC0000000 < B.idtTable.toNat + 256)

/-- The bytes that the boot writes before `mem::init`, beside the tables of `boot.asm`. -/
def Build.written (B : Build) (a : Nat) : Bool := B.onStack a || B.descriptors a

theorem Build.descriptors_reserved {a : Nat} (h : B.descriptors a = true) :
    B.layout.reserved a = true := by
  rcases of_decide_eq_true h with hgdt | hidt
  · exact decide_eq_true (Or.inl (by omega))
  · have := B.idt_reserved (a := a + 0xC0000000) (by omega) (by omega)
    rwa [Nat.add_sub_cancel] at this

theorem Build.written_reserved {a : Nat} (h : B.written a = true) : B.layout.reserved a = true := by
  rcases Bool.or_eq_true_iff.mp h with hstack | hdesc
  · exact B.onStack_reserved hstack
  · exact B.descriptors_reserved hdesc

/-- The two tables of the processor are in memory. -/
structure Machine.Described (B : Build) (m : ByteMem) : Prop where
  gdt : ∀ j, j < 14 → m.read32 (0x800 + 4 * j) = halves Gdt.held j
  gates : ∀ j, j < 64 → m.read32 (B.idtTable.toNat - 0xC0000000 + 4 * j)
    = halves (fun v => gate (B.isr v)) j

theorem kmain_run (h : BootTables B.layout w.machine) (hfits : B.layout.Fits)
    (hstubs : ∀ v, v < 32 →
      w.machine.mem.read32 (B.isrTable.toNat - 0xC0000000 + 4 * v) = B.isr v) (magic info : U32) :
    ∃ cpu m, (kmain B magic info).run w
        = (lift (memInit B.layout magic info)).run { w with
          cpu := cpu, machine := { w.machine with mem := m } } ∧
      cpu.esp = w.cpu.esp ∧
      cpu.idtr = { limit := BitVec.ofNat 16 (SLOTS * 8 - 1), base := B.idtTable } ∧
      cpu.gdtr = { limit := Gdt.LIMIT, base := Gdt.BASE } ∧
      Machine.Described B m ∧ ∀ a, B.descriptors a = false → m a = w.machine.mem a := by
  have hwin := B.idt_window
  have hisr := B.layout.start_ge
  have hro := B.isr_rodata
  let m1 : ByteMem := w.machine.mem.fill32 0x800 (halves Gdt.held) 14
  have hm1 : ∀ a, ¬(0x800 ≤ a ∧ a < 0x838) → m1 a = w.machine.mem a := fun a ha =>
    ByteMem.fill32_other _ _ (by omega)
  have hboot1 : BootTables B.layout { w.machine with mem := m1 } :=
    h.reserved fun a ha => hm1 a fun hin => by
      rw [show B.layout.reserved a = true from decide_eq_true (Or.inl (by omega))] at ha
      cases ha
  have hinstall := Idt.install_run hboot1 hfits fun v hv => by
    rw [ByteMem.read32_congr fun a h1 h2 => hm1 a (by omega)]
    exact hstubs v hv
  let cpu1 : Cpu :=
    { w.cpu with
      gdtr := { limit := Gdt.LIMIT, base := Gdt.BASE }
      ds := Gdt.KERNEL_DATA
      ss := Gdt.KERNEL_STACK
      cs := Gdt.KERNEL_CODE.setWidth 32 }
  have hrun := lift_ok (w := { w with cpu := cpu1, machine := { w.machine with mem := m1 } })
    hinstall
  refine ⟨{ cpu1 with idtr := { limit := BitVec.ofNat 16 (SLOTS * 8 - 1), base := B.idtTable } },
    m1.fill32 (B.idtTable.toNat - 0xC0000000) (halves fun v => gate (B.isr v)) 64, ?_, rfl, rfl,
    rfl, ⟨fun j hj => ?_, fun j hj => ByteMem.read32_fill32 _ _ _ hj⟩, fun a ha => ?_⟩
  · rw [kmain, Prog.bind_ok (lift_ok (Gdt.install_run h)),
      Prog.bind_ok (Gdt.reload_run h.gdt_region), Prog.bind_ok hrun, setCpu,
      Prog.bind_ok (Prog.run_modify _ _)]
  · rw [ByteMem.read32_congr fun a h1 h2 => ByteMem.fill32_other _ _ (by omega)]
    exact ByteMem.read32_fill32 _ _ _ hj
  · have hout := of_decide_eq_false ha
    rw [ByteMem.fill32_other _ _ (by omega), hm1 a (by omega)]

theorem kmain_fits {magic info : U32} {r : Ram × Heaps} {w' : World}
    (hrun : (kmain B magic info).run w = .ok (r, w')) : B.layout.Fits :=
  Prog.bind_last hrun fun _ _ hrun => Prog.bind_last hrun fun _ _ hrun =>
    Prog.bind_last hrun fun _ _ hrun => Prog.bind_last hrun fun _ _ hrun => by
      obtain ⟨m, hmem, _⟩ := lift_inv hrun
      exact (memInit_kept hmem).1

/-- A boot that comes to the shell got through `mem::init`. -/
theorem start_fits {r : Ram × Heaps} {w' : World} (hrun : (start B).run w = .ok (r, w')) :
    B.layout.Fits :=
  Prog.bind_last hrun fun _ _ hrun => Prog.bind_last hrun fun _ _ hrun =>
    Prog.bind_last hrun fun _ _ hrun => Prog.bind_last hrun fun _ _ hrun =>
      Prog.bind_last hrun fun _ _ hrun => Prog.bind_last hrun fun _ _ hrun =>
        Prog.bind_last hrun fun _ _ hrun => kmain_fits hrun

/-- What the boot leaves for `shell::run`. -/
structure World.Up (B : Build) (ram : Ram) (hs : Heaps) (w : World) : Prop where
  booted : Booted B.layout ram hs w.machine
  described : Machine.Described B w.machine.mem
  idtr : w.cpu.idtr = { limit := BitVec.ofNat 16 (SLOTS * 8 - 1), base := B.idtTable }
  gdtr : w.cpu.gdtr = { limit := Gdt.LIMIT, base := Gdt.BASE }
  esp : w.cpu.esp.toNat + 12 = B.stackTop.toNat

/-- The run of `start` up to `mem::init`.  The stack and the descriptors are written before it. -/
theorem start_run (hload : B.Loaded w.machine) (hfits : B.layout.Fits) :
    ∃ cpu m, (start B).run w
        = (lift (memInit B.layout w.cpu.eax w.cpu.ebx)).run { w with
          cpu := cpu, machine := { bootAsm B.layout w.machine with mem := m } } ∧
      cpu.esp.toNat + 12 = B.stackTop.toNat ∧
      cpu.idtr = { limit := BitVec.ofNat 16 (SLOTS * 8 - 1), base := B.idtTable } ∧
      cpu.gdtr = { limit := Gdt.LIMIT, base := Gdt.BASE } ∧
      Machine.Described B m ∧
      ∀ a, B.written a = false → m a = (bootAsm B.layout w.machine).mem a := by
  have hboot := bootAsm_tables hload.directory
  obtain ⟨s, hs⟩ : ∃ s, s = bootAsm B.layout w.machine := ⟨_, rfl⟩
  have hstubs : ∀ v, v < 32 → s.mem.read32 (B.isrTable.toNat - 0xC0000000 + 4 * v) = B.isr v := by
    intro v hv
    have hwin := B.layout.start_ge
    have hro := B.isr_rodata
    rw [hs, ← hload.stubs v hv]
    refine ByteMem.read32_congr fun a h1 h2 => ?_
    have hres := B.isr_reserved (a := a + 0xC0000000) (by omega) (by omega)
    rw [Nat.add_sub_cancel] at hres
    obtain ⟨hd, hl, _⟩ := Layout.reserved_apart hres
    exact bootAsm_mem _ hd hl
  rw [← hs] at hboot ⊢
  obtain ⟨cpu1, m1, hrun1, hesp, hm1⟩ := higherHalf_run
    (w := { w with cpu := { w.cpu with esi := w.cpu.eax, edi := w.cpu.ebx }, machine := s })
    hboot hfits
  have hkept : ∀ a, B.layout.reserved a = false → m1 a = s.mem a := fun a ha => hm1 a (by
    cases hst : B.onStack a with
    | false => rfl
    | true =>
      rw [B.onStack_reserved hst] at ha
      cases ha)
  obtain ⟨cpu2, m2, hrun2, hesp2, hidtr, hgdtr, hdesc, hm2⟩ := kmain_run
    (w := { w with cpu := cpu1, machine := { s with mem := m1 } }) (hboot.reserved hkept) hfits
    (fun v hv => by
      have hwin := B.layout.start_ge
      have hstack := B.stack_bss
      have hro := B.isr_rodata
      rw [← hstubs v hv]
      exact ByteMem.read32_congr fun a h1 h2 => hm1 a (decide_eq_false (by omega)))
    w.cpu.eax w.cpu.ebx
  refine ⟨cpu2, m2, ?_, by rw [hesp2]; exact hesp, hidtr, hgdtr, hdesc, fun a ha => ?_⟩
  · rw [start, Prog.bind_ok (Prog.run_modify _ _), ← hs, hrun1, hrun2]
  · obtain ⟨hst, hdesc'⟩ := Bool.or_eq_false_iff.mp ha
    rw [hm2 a hdesc']
    exact hm1 a hst

/-- The bytes of the descriptor tables decide. -/
theorem Machine.Described.congr {m m' : ByteMem} (h : Machine.Described B m)
    (hm : ∀ a, B.descriptors a = true → m' a = m a) : Machine.Described B m' := by
  have hwin := B.idt_window
  refine ⟨fun j hj => ?_, fun j hj => ?_⟩
  · rw [ByteMem.read32_congr fun a h1 h2 => hm a (decide_eq_true (by omega)), h.gdt j hj]
  · rw [ByteMem.read32_congr fun a h1 h2 => hm a (decide_eq_true (by omega)), h.gates j hj]

/-- A kernel that came to its shell. -/
theorem start_up {ram : Ram} {hs : Heaps} {w' : World} (hload : B.Loaded w.machine)
    (hrun : (start B).run w = .ok ((ram, hs), w')) : w'.Up B ram hs := by
  have hfits := start_fits hrun
  obtain ⟨cpu, m, heq, hesp, hidtr, hgdtr, hdesc, hm⟩ := start_run hload hfits
  rw [heq] at hrun
  obtain ⟨t, hmem, rfl⟩ := lift_inv hrun
  dsimp only at hmem
  have hm' : ∀ a, B.layout.reserved a = false → m a = (bootAsm B.layout w.machine).mem a :=
    fun a ha => hm a (by
      cases hwr : B.written a with
      | false => rfl
      | true =>
        rw [B.written_reserved hwr] at ha
        cases ha)
  have hkept := (memInit_kept hmem).2 ((bootAsm_tables hload.directory).reserved hm')
  -- the tables might as well have been there when the loader was done
  obtain ⟨s', hs', hdir, hpmm⟩ := bootAsm_absorb (L := B.layout) w.machine (m := m) fun a ha => by
    refine hm' a ?_
    cases hres : B.layout.reserved a with
    | false => rfl
    | true =>
      obtain ⟨hd, hl, _⟩ := Layout.reserved_apart hres
      rcases ha with ha | ha
      · exact absurd ha hd
      · exact absurd ha hl
  refine ⟨⟨s', _, _, fun a ha => ?_, by rw [hpmm, hload.pmm], by rw [hs']; exact hmem⟩,
    hdesc.congr fun a ha => ?_, hidtr, hgdtr, hesp⟩
  · rw [hdir a ha]
    exact hload.directory a ha
  · obtain ⟨hd, _, hk⟩ := Layout.reserved_apart (B.descriptors_reserved ha)
    exact hkept a hd hk

/-- Nothing is mapped in the demand zone yet. -/
theorem World.Up.live {ram : Ram} {hs : Heaps} (h : w.Up B ram hs) (hw : hs.NoWrap) :
    w.Live B ram hs ∧ ∀ p ∈ zonePages, w.machine.leaf p = none := by
  obtain ⟨window, h0⟩ := h.booted.start
  have hnone : ∀ p ∈ zonePages, w.machine.leaf p = none := fun p hp =>
    h0.unmapped (Or.inr (zone_user hp))
  have hesp := h.esp
  have hsize := B.stack_size
  have hal := B.stack_aligned
  refine ⟨⟨⟨⟨_, _, _, _, _, h0, h0.inv hw⟩, fun p hp e he => ?_, h.described.gdt,
    h.described.gates⟩, h.idtr, h.gdtr, by omega, by omega, by omega⟩, hnone⟩
  rw [hnone p hp] at he
  cases he

end

end Kfs
