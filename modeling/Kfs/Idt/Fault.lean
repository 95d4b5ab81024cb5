import Kfs.Idt.Live

/-!
# Exceptions while the kernel runs

`exception_fatal` and `exception_pageFault` follow an exception from the instruction that raises it.
A page fault that `handle_fault` serves goes back to the instruction with every register as it was.
Everything else ends in `fatal_fault`, whose lines show the interrupted registers.
-/

namespace Kfs

open Lib Mem Paging Machine Idt Multiboot

variable {B : Build} {ram : Ram} {hs : Heaps} {w : World}

/-- `fatal_fault` on a frame that can be read. -/
theorem fatalFault_run {pointer : U32} {f : Frame}
    (h : (readFrame pointer).run w.machine = .ok (f, w.machine)) :
    (fatalFault pointer).run w = .error (.panicked
      (faultLines f w.machine.cr0 w.cpu.cr2 w.machine.cr3 (oopsCount w))) := by
  rw [fatalFault, Prog.bind_ok (lift_ok h), Prog.bind_ok (Prog.run_gets _ _), Prog.run_stop]
  rfl

/-- `fault_entry` on a vector other than 14. -/
theorem faultEntry_other {pointer vector : U32} {f : Frame}
    (hvec : (load32 (ptrAdd pointer 8)).run w.machine = .ok (vector, w.machine))
    (hne : vector ≠ PAGE_FAULT) (h : (readFrame pointer).run w.machine = .ok (f, w.machine)) :
    (faultEntry pointer).run w = .error (.panicked
      (faultLines f w.machine.cr0 w.cpu.cr2 w.machine.cr3 (oopsCount w))) := by
  rw [faultEntry, Prog.bind_ok (lift_ok hvec), if_neg hne]
  exact fatalFault_run h

/-- `fault_entry` on a page fault, up to the answer of `handle_fault`. -/
theorem faultEntry_page {pointer error : U32} {b : Bool} {t : Machine}
    (hvec : (load32 (ptrAdd pointer 8)).run w.machine = .ok (PAGE_FAULT, w.machine))
    (herr : (load32 (ptrAdd pointer 9)).run w.machine = .ok (error, w.machine))
    (hfault : (handleFault w.cpu.cr2 error).run w.machine = .ok (b, t)) :
    (faultEntry pointer).run w = (if b = true then do
        let eip ← lift (load32 (ptrAdd pointer 10))
        Prog.modify fun w' => { w' with reports := demandReport w.cpu.cr2 eip :: w'.reports }
      else fatalFault pointer : Exec Unit).run { w with machine := t } := by
  rw [faultEntry, Prog.bind_ok (lift_ok hvec), if_pos rfl, getCpu, Prog.bind_ok (Prog.run_gets _ _),
    Prog.bind_ok (lift_ok herr), Prog.bind_ok (lift_ok hfault)]

theorem vector_ne {v : Nat} (hv : v < 32) (h14 : v ≠ 14) : BitVec.ofNat 32 v ≠ PAGE_FAULT := by
  intro heq
  have := congrArg BitVec.toNat heq
  rw [BitVec.toNat_ofNat, show PAGE_FAULT.toNat = 14 from rfl] at this
  omega

/-- `fault_entry` with the frame of `x` on the stack. -/
theorem faultEntry_called {x : World} (h : x.Stacked B 60) {v : Nat} (hv : v < 32) (h14 : v ≠ 14)
    (error : U32) (hm : w.machine = (x.called B v error).machine) :
    (faultEntry (x.cpu.esp - 52)).run w = .error (.panicked (faultLines (frameOf x v error)
      x.machine.cr0 w.cpu.cr2 x.machine.cr3 (oopsCount w))) := by
  obtain ⟨hcr0, hcr3, _⟩ := x.called_rest (B := B) v error
  have hvec := load_vector v error h
  have hframe := readFrame_run v error h
  rw [← hm] at hcr0 hcr3 hvec hframe
  rw [faultEntry_other hvec (vector_ne hv h14) hframe, hcr0, hcr3]

/-- Every exception but a page fault is fatal. -/
theorem exception_fatal (h : w.Live B ram hs) {v : Nat} (hv : v < 32) (h14 : v ≠ 14)
    {error : Option U32} (he : Expects v error) :
    (exception B v error).run w = .error (.panicked (faultLines (frameOf w v (error.getD 0))
      w.machine.cr0 w.cpu.cr2 w.machine.cr3 (oopsCount w))) := by
  obtain ⟨_, _, _, hcr2, _, hcount⟩ := w.called_rest (B := B) v (error.getD 0)
  have hentry := faultEntry_called h.stacked hv h14 (error.getD 0) rfl
  rw [hcr2, hcount] at hentry
  rw [exception_entry h.armed hv he h.stacked, Prog.bind_error hentry]

/-- An exception whose error code the stub does not know is fatal too, with the shifted frame. -/
theorem exception_shifted (h : w.Live B ram hs) {v : Nat} (hv : v < 32) (h14 : v ≠ 14)
    (hstub : v ∉ ERROR_STUBS) (code : U32) :
    ∃ n, (exception B v (some code)).run w = .error (.panicked (faultLines
      (frameOf (w.shifted code) v 0) w.machine.cr0 w.cpu.cr2 w.machine.cr3 n)) := by
  have hstack : (w.shifted code).Stacked B 60 := World.shifted_stacked code h.room_stacked
  obtain ⟨hcr0, hcr3⟩ := w.shifted_control code
  obtain ⟨cpu, hrun, hcr2⟩ := exception_extra h.armed hv hstub code h.room_stacked
  have hentry := faultEntry_called
    (w := { w with cpu := cpu, machine := ((w.shifted code).called B v 0).machine }) hstack hv h14 0
    rfl
  rw [hcr0, hcr3, hcr2] at hentry
  exact ⟨_, hrun.trans (Prog.bind_error hentry)⟩

/-- The frame survives a machine that kept the reserved bytes. -/
theorem frame_congr {t : Machine} (h : w.Live B ram hs) (v : Nat) (error : U32)
    (ht : t.Alive B ram hs)
    (hmem : ∀ a, B.layout.reserved a = true → t.mem a = (w.called B v error).machine.mem a)
    {j : Nat} (hj : j < 13) {x : U32} (hx : (frameWords w v error)[12 - j]? = some x) :
    (load32 (ptrAdd (w.cpu.esp - 52) j)).run t = .ok (x, t) := by
  have hwin := B.stack_window
  have hroom := h.room
  have htop := h.top
  have hal := h.aligned
  have haddr : (ptrAdd (w.cpu.esp - 52) j).toNat = w.cpu.esp.toNat - 52 + 4 * j := by
    have h52 : (w.cpu.esp - 52).toNat = w.cpu.esp.toNat - 52 := toNat_sub_ofNat (n := 52) (by omega)
    have hlt := w.cpu.esp.isLt
    rw [ptrAdd, toNat_add_ofNat (by omega), h52]
  have hcalled := load_frame v error h.stacked hj hx
  rw [(h.called_alive v error).1.stack_region.load32_run (by omega) (by omega) (by omega)]
    at hcalled
  rw [ht.stack_region.load32_run (by omega) (by omega) (by omega)]
  have hword : t.mem.read32 ((ptrAdd (w.cpu.esp - 52) j).toNat - 0xC0000000)
      = (w.called B v error).machine.mem.read32
        ((ptrAdd (w.cpu.esp - 52) j).toNat - 0xC0000000) := by
    refine ByteMem.read32_congr fun a h1 h2 => hmem a ?_
    have := B.stack_reserved (a := a + 0xC0000000) (by omega) (by omega)
    rwa [Nat.add_sub_cancel] at this
  rw [Except.ok.injEq, Prod.mk.injEq] at hcalled
  rw [hword, hcalled.1]

/-- The program that a page fault interrupted goes on: its registers are what they were, the page
has a frame, and no other page and no byte of the zone changed. -/
structure World.Resumed (addr : U32) (w w' : World) : Prop where
  cpu : w'.cpu = w.cpu
  mapped : ∃ e, w'.machine.leaf (addr.toNat / 4096) = some e
  others : ∀ p, p < 1023 * 1024 → p ≠ addr.toNat / 4096 → w'.machine.leaf p = w.machine.leaf p
  zone : ∀ a, a / 4096 ∈ zonePages → w'.machine.virt a = w.machine.virt a
  reports : w'.reports = demandReport addr w.cpu.eip :: w.reports

theorem Machine.Recovered.leaf_some {s t : Machine} {addr : U32} (h : s.Recovered t addr) :
    ∃ e, t.leaf (addr.toNat / 4096) = some e := by
  obtain ⟨pde, pte, hwalk, _⟩ := h.rights addr rfl
  cases he : t.leaf (addr.toNat / 4096) with
  | none =>
    rw [walk_eq, he] at hwalk
    cases hwalk
  | some e => exact ⟨e, rfl⟩

theorem Machine.Recovered.leaf_other {s t : Machine} {addr : U32} (h : s.Recovered t addr) {p : Nat}
    (hp : p < 1023 * 1024) (hne : p ≠ addr.toNat / 4096) : t.leaf p = s.leaf p := by
  have hv : (BitVec.ofNat 32 (4096 * p)).toNat / 4096 = p := by
    rw [BitVec.toNat_ofNat]
    omega
  have hwalk := h.others (BitVec.ofNat 32 (4096 * p))
    (by rw [BitVec.lt_def, show TABLE_WINDOW.toNat = 4096 * (1023 * 1024) from rfl]; omega)
    (by rw [hv]; exact hne)
  rw [walk_eq, walk_eq, hv] at hwalk
  have hsnd := congrArg (Option.map Prod.snd) hwalk
  simpa only [Option.map_map, Function.comp_def, Option.map_id'] using hsnd

theorem exception_pageFault (h : w.Live B ram hs) (error : U32) :
    (w.machine.Serves w.cpu.cr2 error ∧ ∃ w', (exception B 14 (some error)).run w = .ok ((), w') ∧
      w'.Live B ram hs ∧ w.Resumed w.cpu.cr2 w') ∨
    ¬w.machine.Serves w.cpu.cr2 error ∧ ∃ n, (exception B 14 (some error)).run w
      = .error (.panicked
        (faultLines (frameOf w 14 error) w.machine.cr0 w.cpu.cr2 w.machine.cr3 n)) := by
  have hexp : Expects 14 (some error) := by
    show true = decide (14 ∈ ERROR_STUBS)
    decide
  rw [exception_entry h.armed (by decide) hexp h.stacked, Option.getD_some]
  obtain ⟨hcr0, hcr3, hpmm, hcr2, hreports, _⟩ := w.called_rest (B := B) 14 error
  obtain ⟨halive, hsame, hvirt⟩ := h.called_alive 14 error
  obtain ⟨b, t, hrun, hiff, hrec, hunt, ht, hmem, htcr0, htcr3, htvirt⟩ :=
    halive.fault_run w.cpu.cr2 error
  have hload : ∀ {j x}, j < 13 → (frameWords w 14 error)[12 - j]? = some x →
      (load32 (ptrAdd (w.cpu.esp - 52) j)).run t = .ok (x, t) := fun hj hx =>
    frame_congr h 14 error ht hmem hj hx
  have hentry := faultEntry_page (w := w.called B 14 error) (b := b) (t := t)
    (load_frame 14 error h.stacked (j := 8) (by decide) rfl)
    (load_frame 14 error h.stacked (j := 9) (by decide) rfl) (by rw [hcr2]; exact hrun)
  rw [hsame.serves h.machine.paged hpmm] at hiff
  have hesp : (w.called B 14 error).cpu.esp.toNat ≤ B.stackTop.toNat := by
    have hroom := h.room
    have htop := h.top
    rw [World.called_cpu, show (w.cpu.esp - 60).toNat = w.cpu.esp.toNat - 60 from
      toNat_sub_ofNat (n := 60) (by omega)]
    omega
  cases b with
  | true =>
    left
    -- the handler is back with the page mapped
    rw [if_pos rfl, Prog.bind_ok (lift_ok (hload (j := 10) (by decide) rfl)), Prog.run_modify]
      at hentry
    obtain ⟨u, hu⟩ : ∃ u : World, u = { w.called B 14 error with
        machine := t, reports := demandReport w.cpu.cr2 w.cpu.eip :: w.reports } := ⟨_, rfl⟩
    have hback : (faultEntry (w.cpu.esp - 52)).run (w.called B 14 error) = .ok ((), u) := by
      rw [hentry, hu, hcr2, hreports]
    have hum : u.machine = t := by rw [hu]
    have huc : u.cpu = (w.called B 14 error).cpu := by rw [hu]
    have hur : u.reports = demandReport w.cpu.cr2 w.cpu.eip :: w.reports := by rw [hu]
    clear hu
    have hsaved : w.Saved B 14 error u := by
      refine ⟨huc, by rw [hum]; exact ht.stack_region, fun a h1 h2 => ?_⟩
      have hroom := h.room
      have htop := h.top
      have hres := B.stack_reserved (a := a + 0xC0000000) (by omega) (by omega)
      rw [Nat.add_sub_cancel] at hres
      rw [hum]
      exact hmem a hres
    obtain ⟨hleft, hltab, hlvirt⟩ := Machine.Alive.scribble (B := B) (w := u)
      (by rw [hum]; exact ht) (by rw [huc]; exact hesp)
    rw [hum] at hltab hlvirt
    have hrec' := hrec rfl
    have hlt : w.cpu.cr2.toNat / 4096 < 1023 * 1024 := by
      have := (hiff.mp rfl).2.2.1
      bv_omega
    refine ⟨hiff.mp rfl, _, (Prog.bind_ok hback).trans (leave_run h.stacked hsaved),
      ⟨hleft, h.idtr, h.gdtr, h.aligned, h.room, h.top⟩, rfl, ?_, fun p hp hne => ?_,
      fun a ha => ?_, hur⟩
    · obtain ⟨e, he⟩ := hrec'.leaf_some
      exact ⟨e, (hltab.leaf ht.paged (by omega)).trans he⟩
    · rw [hltab.leaf ht.paged (by omega), hrec'.leaf_other hp hne,
        hsame.leaf h.machine.paged (by omega)]
    · rw [hlvirt a ha, htvirt a ha, hvirt a ha]
  | false =>
    right
    have hfatal := fatalFault_run (w := { w.called B 14 error with machine := t })
      (readFrame_of fun hj hx => hload hj hx)
    dsimp only at hfatal
    rw [htcr0, hcr0, htcr3, hcr3, hcr2] at hfatal
    rw [if_neg Bool.false_ne_true, hfatal] at hentry
    exact ⟨fun hserve => Bool.false_ne_true (hiff.mpr hserve), _, Prog.bind_error hentry⟩

end Kfs
