import Kfs.Idt.Access
import Kfs.Kmain.Boot
import Kfs.System.Space

/-!
# The kernel from its boot on

`Reached` is a state of the kernel after its boot and any sequence of `Act`: calls of the heaps,
faults, the `user` command, accesses in the demand zone and the code between them.  The results are
about all such states, after a boot whose block for the kernel's heap is `NoWrap`: it ends below the
last page of the address space, or is as large as the range of the heap.

* `demand_memory`: the demand zone is memory that is all there, until the frames run out.
* `exceptions_answered`: every exception ends in the instruction that raised it or in a report of
  its registers.
* `descriptors_kept`: the tables of the processor are what `install` made of them.
* `space_tells_truth`: the map of the address space says what is there.
-/

namespace Kfs

open Lib Mem Paging Machine Multiboot Idt

/-- The kernel came to its shell, with a block for its heap that it cannot wrap around from, and
what happened since then is `acts`. -/
structure Reached (B : Build) (ram : Ram) (hs : Heaps) (w : World) : Prop where
  history : ∃ w0 hs1 w1 fuel acts bs, B.Loaded w0.machine ∧
    (start B).run w0 = .ok ((ram, hs1), w1) ∧ hs1.NoWrap ∧ (∀ act ∈ acts, act.Allowed B) ∧
    (runActs B (fuel + 2) hs1 acts).run w1 = .ok ((hs, bs), w)

section

variable {B : Build} {ram : Ram} {hs : Heaps} {w w0 : World}

/-- A kernel that has just come to its shell, and the flat machine that it is compared with. -/
theorem World.Up.mirrors (h : w.Up B ram hs) (hw : hs.NoWrap) :
    w.Mirrors { cpu := w.cpu, mem := fun _ => 0 } := by
  refine ⟨rfl, fun a ha => ?_⟩
  unfold Machine.virt
  rw [(h.live hw).2 _ ha]

/-- The invariants hold along every such history. -/
theorem Reached.live (h : Reached B ram hs w) : w.Live B ram hs := by
  obtain ⟨w0, hs1, w1, fuel, acts, bs, hload, hboot, hw, hz, hrun⟩ := h.history
  have hup := start_up hload hboot
  rcases runActs_mirrors fuel acts (hup.live hw).1 hz (hup.mirrors hw) with
    ⟨hs', w', hrun', hlive, _⟩ | ⟨_, _, _, _, _, hstop⟩
  · rw [hrun] at hrun'
    cases hrun'
    exact hlive
  · rw [hrun] at hstop
    cases hstop

/-- Loads and stores in the demand zone, from the boot on and with anything in between, are those of
a flat memory of zeros, and leave the registers alone.  A run stops only in a panic that reports
these registers, at an access to a page without a frame while there are too few free ones.  The
growth of the kernel's heap must not wrap around. -/
theorem demand_memory (hload : B.Loaded w0.machine)
    (hboot : (start B).run w0 = .ok ((ram, hs), w)) (hw : hs.NoWrap) (fuel : Nat) (acts : List Act)
    (hz : ∀ act ∈ acts, act.Allowed B) :
    (∃ hs' w', (runActs B (fuel + 2) hs acts).run w
        = .ok ((hs', ((Flat.mk w.cpu fun _ => 0).run acts).1), w') ∧
      Reached B ram hs' w' ∧ w'.Mirrors ((Flat.mk w.cpu fun _ => 0).run acts).2) ∨
    ∃ write v w' n, StuckAt B (fuel + 2) hs w (Flat.mk w.cpu fun _ => 0) acts write v w' ∧
      (runActs B (fuel + 2) hs acts).run w = .error (shortagePanic w' write v n) := by
  have hup := start_up hload hboot
  rcases runActs_mirrors fuel acts (hup.live hw).1 hz (hup.mirrors hw) with
    ⟨hs', w', hrun, _, hm⟩ | hstuck
  · exact Or.inl ⟨hs', w', hrun, ⟨w0, hs, w, fuel, acts, _, hload, hboot, hw, hz, hrun⟩, hm⟩
  · exact Or.inr hstuck

/-- Accesses leave the heaps alone. -/
theorem runActs_heaps {fuel : Nat} (acts : List Act) : ∀ {hs hs' : Heaps} {w w' : World}
    {bs : List U8}, (∀ act ∈ acts, act.touches ≠ none) →
    (runActs B fuel hs acts).run w = .ok ((hs', bs), w') → hs' = hs := by
  induction acts with
  | nil =>
    intro hs hs' w w' bs _ hrun
    cases hrun
    rfl
  | cons act acts ih =>
    intro hs hs' w w' bs hacc hrun
    rw [runActs] at hrun
    obtain ⟨⟨hs1, b⟩, w1, hstep, hrest⟩ := Prog.bind_eq_ok.mp hrun
    obtain ⟨⟨hs2, bs2⟩, w2, hacts, hlast⟩ := Prog.bind_eq_ok.mp hrest
    cases hlast
    rw [ih (fun a ha => hacc a (List.mem_cons_of_mem _ ha)) hacts]
    cases act with
    | op call => exact absurd rfl (hacc _ List.mem_cons_self)
    | code cpu stack => exact absurd rfl (hacc _ List.mem_cons_self)
    | load v =>
      obtain ⟨_, _, _, hpure⟩ := Prog.bind_eq_ok.mp hstep
      cases hpure
      rfl
    | store v byte =>
      obtain ⟨_, _, _, hpure⟩ := Prog.bind_eq_ok.mp hstep
      cases hpure
      rfl

end

/-- The plain machine has a frame for every access while its virtual heap is small. -/
theorem Machine.Alive.plain_room {hs : Heaps} {s : Machine}
    (h : s.Alive smallBuild (ramOf plainEntries) hs)
    (hfew : hs.virtual.heap.brk.toNat ≤ 0xE0010000) (v : U32) : ¬s.Short v := by
  obtain ⟨_, _, _, _, _, h0, hi⟩ := h.system
  have hfree := hi.plain_free h0
  rintro ⟨_, hshort⟩
  split at hshort <;> omega

/-- A boot on a plain machine, followed by a store and two loads. -/
theorem demand_memory_plain : ∃ hs w,
    (start smallBuild).run smallWorld = .ok ((ramOf plainEntries, hs), w) ∧ hs.NoWrap ∧
    ∃ hs' w', (runActs smallBuild 2 hs
        [.store 0x00800123 7, .load 0x00800123, .load 0x0080FFFF]).run w
      = .ok ((hs', [7, 0]), w') := by
  obtain ⟨hs, w, hboot, hend⟩ := exists_start_plain
  have hz : ∀ act ∈ [Act.store 0x00800123 7, .load 0x00800123, .load 0x0080FFFF],
      act.Allowed smallBuild ∧ act.touches ≠ none := by
    intro act hact
    simp only [List.mem_cons, List.not_mem_nil, or_false] at hact
    rcases hact with rfl | rfl | rfl <;> (rw [Act.Allowed]; decide)
  refine ⟨hs, w, hboot, Or.inl hend, ?_⟩
  rcases demand_memory smallWorld_loaded hboot (Or.inl hend) 0 _
      fun act hact => (hz act hact).1 with
    ⟨hs', w', hrun, _⟩ | ⟨write, v, w', n, ⟨before, act, after, hs', hacts, _, hrun, _, hshort⟩, _⟩
  · exact ⟨hs', w', hrun⟩
  · -- up to the access in question nothing but pages of the zone was taken
    have hbefore : ∀ act ∈ before, act.Allowed smallBuild ∧ act.touches ≠ none := fun act hact =>
      hz act (by rw [hacts]; exact List.mem_append_left _ hact)
    have hreached : Reached smallBuild (ramOf plainEntries) hs' w' :=
      ⟨_, _, _, 0, before, _, smallWorld_loaded, hboot, Or.inl hend,
        fun act hact => (hbefore act hact).1, hrun⟩
    obtain ⟨_, h0⟩ := (start_up smallWorld_loaded hboot).booted.start
    refine absurd hshort (hreached.live.machine.plain_room ?_ v)
    rw [runActs_heaps before (fun act hact => (hbefore act hact).2) hrun, h0.heaps]
    show virtualHeap.brk.toNat ≤ 0xE0010000
    decide

section

variable {B : Build} {ram : Ram} {hs : Heaps} {w : World}

/-! ## Exceptions -/

/-- The processor pushes an error code with the vectors of `WITH_ERROR`. -/
def Delivers (v : Nat) (error : Option U32) : Prop := error.isSome = decide (v ∈ WITH_ERROR)

/-- The frame that is reported.  The stub of vector 29 takes the error code for the address of the
instruction, and so on up. -/
def reportedFrame (w : World) (v : Nat) (error : Option U32) : Frame :=
  if v = 29 then frameOf (w.shifted (error.getD 0)) 29 0 else frameOf w v (error.getD 0)

theorem Delivers.expects {v : Nat} {error : Option U32} (h : Delivers v error) (h29 : v ≠ 29) :
    Expects v error := by
  rw [Expects, h]
  refine decide_eq_decide.mpr ?_
  simp only [WITH_ERROR, ERROR_STUBS, List.mem_cons, List.not_mem_nil, or_false]
  omega

/-- Every exception ends in one of two ways.  A page fault that `handle_fault` serves returns to its
instruction with every register as it was; anything else stops with a report of the interrupted
registers, which vector 29 alone shows in the wrong places. -/
theorem exceptions_answered (h : Reached B ram hs w) {v : Nat} (hv : v < 32) {error : Option U32}
    (he : Delivers v error) :
    (v = 14 ∧ w.machine.Serves w.cpu.cr2 (error.getD 0) ∧
      ∃ w', (exception B v error).run w = .ok ((), w') ∧ w'.Live B ram hs ∧
        w.Resumed w.cpu.cr2 w') ∨
    ¬(v = 14 ∧ w.machine.Serves w.cpu.cr2 (error.getD 0)) ∧
      ∃ n, (exception B v error).run w = .error (.panicked (faultLines (reportedFrame w v error)
        w.machine.cr0 w.cpu.cr2 w.machine.cr3 n)) := by
  by_cases h14 : v = 14
  · subst h14
    obtain ⟨code, rfl⟩ : ∃ code, error = some code := Option.isSome_iff_exists.mp (by
      rw [he]
      decide)
    rcases exception_pageFault h.live code with ⟨hserve, w', hrun, hlive, hres⟩ |
      ⟨hserve, n, hrun⟩
    · exact Or.inl ⟨rfl, hserve, w', hrun, hlive, hres⟩
    · exact Or.inr ⟨fun hs => hserve hs.2, n, hrun⟩
  refine Or.inr ⟨fun hs => h14 hs.1, ?_⟩
  by_cases h29 : v = 29
  · subst h29
    obtain ⟨code, rfl⟩ : ∃ code, error = some code := Option.isSome_iff_exists.mp (by
      rw [he]
      decide)
    exact exception_shifted h.live hv h14 (by decide) code
  · rw [reportedFrame, if_neg h29]
    exact ⟨_, exception_fatal h.live hv h14 (he.expects h29)⟩

/-! ## The tables of the processor -/

/-- Whatever happens after the boot, the processor finds the tables where it looks for them, and
reads in them what `gdt::install` and `idt::install` wrote, with the segments of the kernel marked
as accessed. -/
theorem descriptors_kept (h : Reached B ram hs w) :
    w.cpu.gdtr = { limit := Gdt.LIMIT, base := Gdt.BASE } ∧
    w.cpu.idtr = { limit := BitVec.ofNat 16 (SLOTS * 8 - 1), base := B.idtTable } ∧
    (∀ i, i < Gdt.SEGMENTS.length →
      (load64 (w.cpu.gdtr.base + BitVec.ofNat 32 (8 * i))).run w.machine
        = .ok (Gdt.held i, w.machine)) ∧
    ∀ v, v < VECTORS → (load64 (w.cpu.idtr.base + BitVec.ofNat 32 (8 * v))).run w.machine
      = .ok (gate (B.isr v), w.machine) := by
  have halive := h.live.machine
  have hal := B.idt_aligned
  rw [h.live.gdtr, h.live.idtr]
  refine ⟨rfl, rfl, fun i hi => ?_, fun v hv => ?_⟩
  · have hi7 : i < 7 := hi
    have hbase : Gdt.BASE.toNat = 0x800 := rfl
    exact halive.low_region.load64_run (v := Gdt.BASE) (by decide) (by omega) (by omega) fun j hj =>
      halive.gdt j (by omega)
  · have hv32 : v < 32 := hv
    exact halive.idt_region.load64_run (by omega) (by omega) (by omega) fun j hj =>
      halive.gates j (by omega)

end

/-- The plain machine after its boot. -/
theorem exists_reached_plain : ∃ hs w, Reached smallBuild (ramOf plainEntries) hs w := by
  obtain ⟨hs, w, hboot, hend⟩ := exists_start_plain
  exact ⟨hs, w, _, _, _, 0, [], _, smallWorld_loaded, hboot, Or.inl hend,
    fun _ hact => absurd hact List.not_mem_nil, rfl⟩

/-- A breakpoint on the plain machine. -/
theorem exceptions_answered_breakpoint : ∃ hs w, Reached smallBuild (ramOf plainEntries) hs w ∧
    ∃ n, (exception smallBuild 3 none).run w = .error (.panicked (faultLines (frameOf w 3 0)
      w.machine.cr0 w.cpu.cr2 w.machine.cr3 n)) := by
  obtain ⟨hs, w, h⟩ := exists_reached_plain
  refine ⟨hs, w, h, ?_⟩
  rcases exceptions_answered h (v := 3) (by decide) (show Delivers 3 none from rfl) with
    ⟨h3, _⟩ | ⟨_, hrun⟩
  · cases h3
  · exact hrun

/-- The tables of the plain machine. -/
theorem descriptors_kept_plain : ∃ hs w, Reached smallBuild (ramOf plainEntries) hs w ∧
    (load64 (w.cpu.gdtr.base + 8)).run w.machine = .ok (0x00CF9B000000FFFF, w.machine) := by
  obtain ⟨hs, w, h⟩ := exists_reached_plain
  exact ⟨hs, w, h, (descriptors_kept h).2.2.1 1 (by decide)⟩

/-! ## The map of the address space -/

/-- In every such state an address that translates lies in exactly one row of `LAYOUT`, of the owner
that `space_of` gives it, and what the row says about it is true. -/
theorem space_tells_truth {B : Build} {ram : Ram} {hs : Heaps} {w : World} (h : Reached B ram hs w)
    {v : U32} {a : Nat} (hv : w.machine.translation v = some a) :
    ∃ r : Named, r.Has v ∧ r.Holds hs w.machine v a ∧
      ∀ r' ∈ LAYOUT, r'.base ≤ v → v ≤ r'.last → r' = r := by
  obtain ⟨_, _, _, _, _, h0, hi⟩ := h.live.machine.system
  obtain ⟨r, hhas, hholds⟩ := hi.layout h0 hv
  exact ⟨r, hhas, hholds, fun r' hr' h1 h2 => layout_apart hhas.row hr' hhas.base hhas.last h1 h2⟩

/-- The screen of a plain machine. -/
theorem space_tells_truth_screen : ∃ hs w, Reached smallBuild (ramOf plainEntries) hs w ∧
    ∃ a, w.machine.translation 0xB8000 = some a ∧
      ∃ r : Named, r.Has 0xB8000 ∧ r.Holds hs w.machine 0xB8000 a := by
  obtain ⟨hs, w, h⟩ := exists_reached_plain
  obtain ⟨e, he, _⟩ :=
    h.live.machine.low_region.direct (0xB8000 : U32).toNat (by decide) (by decide)
  have hv : w.machine.translation 0xB8000
      = some (4096 * frameNo e + (0xB8000 : U32).toNat % 4096) := by
    rw [translation, walk_of_leaf he, Option.map_some]
  obtain ⟨r, hhas, hholds, _⟩ := space_tells_truth h hv
  exact ⟨hs, w, h, _, hv, r, hhas, hholds⟩

end Kfs
