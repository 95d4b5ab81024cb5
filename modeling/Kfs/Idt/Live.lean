import Kfs.Idt.Stubs
import Kfs.System.Zone

/-!
# The kernel with its processor

`Alive` is the state of the machine while the kernel runs: the system of `Heaps.Inv`, the two
descriptor tables as they were installed, and the demand zone.  `Live` adds the processor: its table
register, and a stack pointer with room for an exception.

The kernel's stack and the descriptor tables lie in memory that the system does not know, so what
happens on the stack changes nothing for the system (`Alive.stack`), and the system leaves the
tables alone (`Alive.op_run`, `Alive.fault_run`).
-/

namespace Kfs

open Lib Mem Paging Machine Idt Multiboot

/-! ## Where the linker puts the statics -/

namespace Build

variable (B : Build)

/-- A range of `.bss` beside the three tables is reserved. -/
theorem reserved_of_apart {lo hi : Nat} (hlo : B.layout.image.readonlyEnd.toNat ≤ lo)
    (hhi : hi ≤ B.layout.image.finish.toNat)
    (hapart : ∀ t ∈ [B.layout.bootDirectory, B.layout.bootLowTable, B.layout.kernelTable],
      t.toNat + 4096 ≤ lo ∨ hi ≤ t.toNat) {a : Nat} (h1 : lo ≤ a) (h2 : a < hi) :
    B.layout.reserved (a - 0xC0000000) = true := by
  have hstart := B.layout.start_ge
  have hread := B.layout.start_le
  have hdir := hapart B.layout.bootDirectory (by simp)
  have hlow := hapart B.layout.bootLowTable (by simp)
  have hkernel := hapart B.layout.kernelTable (by simp)
  have hdir' := B.layout.dir_addr.1
  have hlow' := B.layout.low_addr.1
  have hkernel' := B.layout.kernel_addr.1
  exact decide_eq_true (Or.inr ⟨by omega, by omega, by omega, by omega⟩)

theorem stack_reserved {a : Nat} (h1 : B.stackBottom.toNat ≤ a) (h2 : a < B.stackTop.toNat) :
    B.layout.reserved (a - 0xC0000000) = true :=
  B.reserved_of_apart B.stack_bss.1 B.stack_bss.2 (fun t ht => (B.tables_apart t ht).1) h1 h2

theorem idt_reserved {a : Nat} (h1 : B.idtTable.toNat ≤ a) (h2 : a < B.idtTable.toNat + 2048) :
    B.layout.reserved (a - 0xC0000000) = true :=
  B.reserved_of_apart B.idt_bss.1 B.idt_bss.2 (fun t ht => (B.tables_apart t ht).2) h1 h2

/-- The physical bytes of the stack. -/
def onStack (a : Nat) : Bool :=
  decide (B.stackBottom.toNat ≤ a + 0xC0000000 ∧ a + 0xC0000000 < B.stackTop.toNat)

theorem onStack_reserved {a : Nat} (h : B.onStack a = true) : B.layout.reserved a = true := by
  have ha := of_decide_eq_true h
  have := B.stack_reserved ha.1 ha.2
  rwa [Nat.add_sub_cancel] at this

end Build

/-! ## The machine -/

structure Machine.Alive (B : Build) (ram : Ram) (hs : Heaps) (s : Machine) : Prop where
  system : ∃ s0 hs0 window bk bv, Started B.layout ram hs0 s0 window ∧ hs.Inv s0 window s bk bv
  zone : s.ZoneOpen
  gdt : ∀ j, j < 14 → s.mem.read32 (0x800 + 4 * j) = halves Gdt.held j
  gates : ∀ j, j < 64 → s.mem.read32 (B.idtTable.toNat - 0xC0000000 + 4 * j)
    = halves (fun v => gate (B.isr v)) j

namespace Machine.Alive

variable {B : Build} {ram : Ram} {hs : Heaps} {s : Machine}

theorem paged (h : s.Alive B ram hs) : s.Paged := by
  obtain ⟨_, _, _, _, _, _, hi⟩ := h.system
  exact hi.kernel.inv.paged

theorem stack_region (h : s.Alive B ram hs) :
    s.Region 0xC0000000 B.stackBottom.toNat B.stackTop.toNat := by
  obtain ⟨_, _, _, _, _, h0, hi⟩ := h.system
  exact hi.region h0 B.readonly_aligned B.stack_bss.1 B.stack_bss.2 fun a h1 h2 =>
    B.stack_reserved h1 h2

theorem idt_region (h : s.Alive B ram hs) :
    s.Region 0xC0000000 B.idtTable.toNat (B.idtTable.toNat + 2048) := by
  obtain ⟨_, _, _, _, _, h0, hi⟩ := h.system
  exact hi.region h0 B.readonly_aligned B.idt_bss.1 B.idt_bss.2 fun a h1 h2 =>
    B.idt_reserved h1 h2

theorem low_region (h : s.Alive B ram hs) : s.Region 0 0 0x100000 := by
  obtain ⟨_, _, _, _, _, h0, hi⟩ := h.system
  exact hi.low_region h0

/-- The tables stay where the reserved bytes do. -/
theorem of_reserved (h : s.Alive B ram hs) {t : Machine} {hs' : Heaps}
    (hsys : ∃ s0 hs0 window bk bv, Started B.layout ram hs0 s0 window ∧ hs'.Inv s0 window t bk bv)
    (hz : t.ZoneOpen) (hmem : ∀ a, B.layout.reserved a = true → B.onStack a = false →
      t.mem a = s.mem a) : t.Alive B ram hs' := by
  have hwin := B.idt_window
  have hstack := B.stack_window
  have hsize := B.stack_size
  refine ⟨hsys, hz, fun j hj => ?_, fun j hj => ?_⟩
  · rw [ByteMem.read32_congr fun a h1 h2 => hmem a (decide_eq_true (Or.inl (by omega)))
      (decide_eq_false (by omega))]
    exact h.gdt j hj
  · have hapart := B.idt_apart
    rw [ByteMem.read32_congr fun a h1 h2 => hmem a ?_ (decide_eq_false (by omega))]
    · exact h.gates j hj
    · have := B.idt_reserved (a := a + 0xC0000000) (by omega) (by omega)
      rwa [Nat.add_sub_cancel] at this

/-- What happens on the stack is nothing to the system. -/
theorem stack (h : s.Alive B ram hs) {m : ByteMem} (hm : ∀ a, B.onStack a = false → m a = s.mem a) :
    ({ s with mem := m } : Machine).Alive B ram hs ∧ SameTables s { s with mem := m } ∧
      ∀ a, a / 4096 ∈ zonePages → ({ s with mem := m } : Machine).virt a = s.virt a := by
  obtain ⟨s0, hs0, window, bk, bv, h0, hi⟩ := h.system
  have hown : s0.Own window B.onStack := fun a ha => h0.own_reserved a (B.onStack_reserved ha)
  have hsame := (hi.own hown).sameTables m
  rw [Machine.patch_eq hm] at hsame
  have hleaf : ∀ p, p < 1023 * 1024 → ({ s with mem := m } : Machine).leaf p = s.leaf p :=
    fun p hp => hsame.leaf h.paged (by omega)
  have hinv := hi.patch h0.paged hown m
  rw [Machine.patch_eq hm] at hinv
  refine ⟨h.of_reserved ⟨_, _, _, _, _, h0.patch hown m, hinv⟩ (fun p hp e he => ?_)
    fun a _ ha => hm a ha, hsame, fun a ha => ?_⟩
  · rw [hleaf p (hi.user.below p (zone_user hp))] at he
    exact h.zone p hp e he
  · -- a frame behind the zone is not one of the stack
    have hlt := hi.user.below _ (zone_user ha)
    unfold virt
    rw [hleaf _ hlt]
    cases he : s.leaf (a / 4096) with
    | none => rfl
    | some e =>
      refine hm _ ?_
      cases hz : B.onStack (4096 * frameNo e + a % 4096) with
      | false => rfl
      | true =>
        refine absurd ?_ (hi.own hown _ hz)
        rw [show (4096 * frameNo e + a % 4096) / 4096 = frameNo e from by omega]
        exact Or.inr (Or.inr (Or.inr ⟨_, Or.inr (zone_user ha), hlt, e, he, rfl⟩))

theorem op_run (h : s.Alive B ram hs) (op : Op) :
    ∃ hs' t, (op.step hs).run s = .ok (hs', t) ∧ t.Alive B ram hs' ∧
      ∀ a, a / 4096 ∈ zonePages → t.virt a = s.virt a := by
  obtain ⟨s0, hs0, window, bk, bv, h0, hi⟩ := h.system
  obtain ⟨hs', t, bk', bv', hrun, hinv, hz, hvirt⟩ := hi.zone_step h0 h.zone op
  refine ⟨hs', t, hrun, h.of_reserved ⟨_, _, _, _, _, h0, hinv⟩ hz fun a ha _ => ?_, hvirt⟩
  rw [hinv.own_mem h0.own_reserved ha, hi.own_mem h0.own_reserved ha]

/-- `handle_fault` while the kernel runs. -/
theorem fault_run (h : s.Alive B ram hs) (addr error : U32) :
    ∃ b t, (handleFault addr error).run s = .ok (b, t) ∧ (b = true ↔ s.Serves addr error) ∧
      (b = true → s.Recovered t addr) ∧ (b = false → Untouched s t) ∧ t.Alive B ram hs ∧
      (∀ a, B.layout.reserved a = true → t.mem a = s.mem a) ∧ t.cr0 = s.cr0 ∧ t.cr3 = s.cr3 ∧
      ∀ a, a / 4096 ∈ zonePages → t.virt a = s.virt a := by
  obtain ⟨s0, hs0, window, bk, bv, h0, hi⟩ := h.system
  obtain ⟨b, t, hrun, hiff, hrec, hunt, hconf, hheld, hz, hvirt⟩ :=
    handleFault_zone hi.kernel.inv.paged hi.user h.zone (hi.zone_slot h0) addr error
  obtain ⟨hinv, _⟩ := hi.user_step hconf hheld (.fault addr error) fun side => by cases side <;> rfl
  have hmem : ∀ a, B.layout.reserved a = true → t.mem a = s.mem a := fun a ha => by
    rw [hinv.own_mem h0.own_reserved ha, hi.own_mem h0.own_reserved ha]
  exact ⟨b, t, hrun, hiff, hrec, hunt,
    h.of_reserved ⟨_, _, _, _, _, h0, hinv⟩ hz fun a ha _ => hmem a ha, hmem, hconf.cr0, hconf.cr3,
    hvirt⟩

/-- A store to a page of the zone that has a frame. -/
theorem zone_store (h : s.Alive B ram hs) {v e : U32} (b : U8) (hv : v.toNat / 4096 ∈ zonePages)
    (he : s.leaf (v.toNat / 4096) = some e) :
    ∃ t, (store8 v b).run s = .ok ((), t) ∧ t.Alive B ram hs ∧
      ∀ a, a / 4096 ∈ zonePages → t.virt a = if a = v.toNat then b else s.virt a := by
  obtain ⟨s0, hs0, window, bk, bv, h0, hi⟩ := h.system
  obtain ⟨t, hrun, hinv, hz, hvirt⟩ := hi.zone_store h.zone b hv he
  refine ⟨t, hrun, h.of_reserved ⟨_, _, _, _, _, h0, hinv⟩ hz fun a ha _ => ?_, hvirt⟩
  rw [hinv.own_mem h0.own_reserved ha, hi.own_mem h0.own_reserved ha]

end Machine.Alive

/-! ## The processor -/

structure World.Live (B : Build) (ram : Ram) (hs : Heaps) (w : World) : Prop where
  machine : w.machine.Alive B ram hs
  idtr : w.cpu.idtr = { limit := BitVec.ofNat 16 (SLOTS * 8 - 1), base := B.idtTable }
  gdtr : w.cpu.gdtr = { limit := Gdt.LIMIT, base := Gdt.BASE }
  aligned : w.cpu.esp.toNat % 4 = 0
  room : B.stackBottom.toNat + 64 ≤ w.cpu.esp.toNat
  top : w.cpu.esp.toNat ≤ B.stackTop.toNat

namespace World.Live

variable {B : Build} {ram : Ram} {hs : Heaps} {w : World}

theorem armed (h : w.Live B ram hs) : w.Armed B := ⟨h.idtr, h.machine.idt_region, h.machine.gates⟩

theorem room_stacked (h : w.Live B ram hs) : w.Stacked B 64 :=
  ⟨h.machine.stack_region, h.aligned, h.room, h.top⟩

theorem stacked (h : w.Live B ram hs) : w.Stacked B 60 := h.room_stacked.less (by decide)

/-- Another machine under the same processor. -/
theorem withMachine (h : w.Live B ram hs) {hs' : Heaps} {s : Machine}
    (hs_alive : s.Alive B ram hs') :
    ({ w with machine := s } : World).Live B ram hs' :=
  ⟨hs_alive, h.idtr, h.gdtr, h.aligned, h.room, h.top⟩

/-- The machine at the first instruction of `fault_entry`. -/
theorem called_alive (h : w.Live B ram hs) (v : Nat) (error : U32) :
    (w.called B v error).machine.Alive B ram hs ∧
      SameTables w.machine (w.called B v error).machine ∧
      ∀ a, a / 4096 ∈ zonePages → (w.called B v error).machine.virt a = w.machine.virt a := by
  have hwin := B.stack_window
  have hroom := h.room
  have htop := h.top
  refine h.machine.stack fun a ha => ?_
  have hout := of_decide_eq_false ha
  refine ByteMem.pushed_other _ ?_ ?_
  · rw [List.length_append, length_frameWords, List.length_cons, List.length_singleton]
    omega
  · rw [List.length_append, length_frameWords, List.length_cons, List.length_singleton]
    omega

end World.Live

/-- What compiled code leaves on the stack. -/
theorem Machine.Alive.scribble {B : Build} {ram : Ram} {hs : Heaps} {w : World}
    (h : w.machine.Alive B ram hs) (htop : w.cpu.esp.toNat ≤ B.stackTop.toNat) :
    (Idt.scribble B w).machine.Alive B ram hs ∧
      SameTables w.machine (Idt.scribble B w).machine ∧
      ∀ a, a / 4096 ∈ zonePages → (Idt.scribble B w).machine.virt a = w.machine.virt a := by
  refine h.stack fun a ha => if_neg fun hin => ?_
  have := of_decide_eq_false ha
  omega

/-- Whether a fault is served is a matter of the tables and of the free frames. -/
theorem Machine.SameTables.serves {s t : Machine} (h : SameTables s t) (hs : s.Paged)
    (hpmm : t.pmm = s.pmm) (addr error : U32) : t.Serves addr error ↔ s.Serves addr error := by
  have hlt := addr.isLt
  unfold Serves
  rw [h.leaf hs (by omega), h.dirWord hs (by omega), hpmm]

end Kfs
