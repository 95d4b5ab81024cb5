import Kfs.Idt.Calls
import Kfs.Shell.Commands

/-!
# The steps of the commands

`Sys.Ok` is the kernel while the shell runs: the processor and the machine are those of
`World.Live`, and the statics of the heaps are the heaps of the system.  What a command is made of
keeps it: text on the screen, kernel functions that only read, and the calls of the heaps.
`Sys.Step` adds what else a step leaves alone, the registers and the demand zone.
-/

namespace Kfs.Shell

open Lib Mem Paging Machine Multiboot

structure Sys.Ok (B : Build) (ram : Ram) (hs : Heaps) (s : Sys) : Prop where
  live : s.world.Live B ram hs
  heaps : ∀ side, s.heap side = (hs.of side).heap
  ram : s.ram = ram
  window : s.window = (hs.kernel.heap.physBase, hs.kernel.heap.physEnd)

/-- A step of a command from `s` to `t`, after which the clients of the heaps are those of `hs`. -/
structure Sys.Step (B : Build) (ram : Ram) (s : Sys) (hs : Heaps) (t : Sys) : Prop where
  ok : t.Ok B ram hs
  cpu : t.world.cpu = s.world.cpu
  zone : s.world.machine.SameZone t.world.machine
  controller : t.controller = s.controller

variable {B : Build} {ram : Ram} {hs hs' : Heaps} {s t u : Sys} {α : Type}

namespace Sys

theorem Step.trans (h : s.Step B ram hs t) (h' : t.Step B ram hs' u) : s.Step B ram hs' u :=
  ⟨h'.ok, h'.cpu.trans h.cpu, h.zone.trans h'.zone, h'.controller.trans h.controller⟩

theorem Ok.refl (h : s.Ok B ram hs) : s.Step B ram hs s := ⟨h, rfl, .refl _, rfl⟩

/-- Text on the screen. -/
theorem Ok.say (h : s.Ok B ram hs) (calls : List Call) :
    ∃ t, (say calls).run s = .ok ((), t) ∧ s.Step B ram hs t ∧ t.world = s.world :=
  ⟨_, rfl, ⟨⟨h.live, h.heaps, h.ram, h.window⟩, rfl, .refl _, rfl⟩, rfl⟩

theorem Ok.printk (h : s.Ok B ram hs) (line : String) :
    ∃ t, (printk line).run s = .ok ((), t) ∧ s.Step B ram hs t ∧ t.world = s.world :=
  h.say _

/-- Another machine, with the reports that led to it on the screen. -/
def withMachine (s : Sys) (m : Machine) : Sys :=
  { s with
    world := { s.world with machine := m }
    calls := s.calls ++ reportCalls s.world { s.world with machine := m } }

theorem call_run {k : Kernel α} {a : α} {m : Machine} (hk : k.run s.world.machine = .ok (a, m)) :
    (call k).run s = .ok (a, s.withMachine m) := by
  rw [call, exec]
  dsimp only
  rw [lift_ok hk]
  rfl

/-- A kernel function that leaves the clients of the heaps. -/
theorem Ok.call (h : s.Ok B ram hs) {k : Kernel α} {a : α} {m : Machine}
    (hk : k.run s.world.machine = .ok (a, m)) (hm : m.Alive B ram hs)
    (hz : s.world.machine.SameZone m) :
    ∃ t, (call k).run s = .ok (a, t) ∧ s.Step B ram hs t ∧ t.world.machine = m :=
  ⟨_, call_run hk, ⟨⟨h.live.withMachine hm, h.heaps, h.ram, h.window⟩, rfl, hz, rfl⟩, rfl⟩

/-- A kernel function that only reads. -/
theorem Ok.read (h : s.Ok B ram hs) {k : Kernel α} {a : α}
    (hk : k.run s.world.machine = .ok (a, s.world.machine)) :
    ∃ t, (Shell.call k).run s = .ok (a, t) ∧ s.Step B ram hs t ∧
      t.world.machine = s.world.machine :=
  h.call hk h.live.machine (.refl _)

@[simp] theorem world_setHeap (s : Sys) (h : Heap) (side : Side) :
    (s.setHeap h side).world = s.world := by
  cases side <;> rfl

/-- A kernel function that leaves the clients `c` of a heap. -/
theorem Ok.setHeap (h : s.Ok B ram hs) {side : Side} {c : Heap.Client} {m : Machine}
    (hm : m.Alive B ram (hs.put side c)) (hz : s.world.machine.SameZone m) {brk : U32}
    (hsame : c.heap = { (hs.of side).heap with brk := brk }) :
    s.Step B ram (hs.put side c) ((s.withMachine m).setHeap c.heap side) := by
  have hlive := h.live.withMachine hm
  cases side with
  | kernel =>
    refine ⟨⟨hlive, fun side => ?_, h.ram, ?_⟩, rfl, hz, rfl⟩
    · cases side with
      | kernel => rfl
      | virtual => exact h.heaps .virtual
    · show s.window = (c.heap.physBase, c.heap.physEnd)
      rw [hsame]
      exact h.window
  | virtual =>
    refine ⟨⟨hlive, fun side => ?_, h.ram, h.window⟩, rfl, hz, rfl⟩
    cases side with
    | kernel => exact h.heaps .kernel
    | virtual => rfl

end Sys

/-! ## The calls of the heaps -/

/-- An allocation from `s` that answered `p` and left the clients `c` and the machine `m`. -/
structure Allocated (s : Sys) (hs : Heaps) (side : Side) (want p : U32) (c : Heap.Client)
    (m : Machine) : Prop where
  answered : Machine.Alive.Answered (hs.of side) want p c
  blocks : ∃ bs bs', (hs.of side).Ok s.world.machine bs ∧
    Heap.Ready (hs.of side).heap s.world.machine bs ∧ c.Ok m bs' ∧
    Heap.Alloc (hs.of side).heap s.world.machine bs want p c.heap m bs'

theorem alloc_run (h : s.Ok B ram hs) (side : Side) (want : U32) :
    ∃ p c t, (alloc side want).run s = .ok (p, t) ∧ s.Step B ram (hs.put side c) t ∧
      Allocated s hs side want p c t.world.machine := by
  obtain ⟨p, c, m, bs, bs', hrun, halive, hzone, hans, hok, hready, hok', hcase⟩ :=
    h.live.machine.alloc_run side want
  have heffect := (hcase.effect hok.inv).1
  rw [← h.heaps side] at hrun
  refine ⟨p, c, (s.withMachine m).setHeap c.heap side, ?_, h.setHeap halive hzone heffect.same, ?_⟩
  · rw [alloc, Prog.bind_ok (Prog.run_gets _ _), id, Prog.bind_ok (Sys.call_run hrun)]
    rfl
  · rw [Sys.world_setHeap]
    exact ⟨hans, bs, bs', hok, hready, hok', hcase⟩

/-- An allocation of a possible size fails only if the heap cannot get another page. -/
theorem Allocated.shortage {side : Side} {want : U32} {c : Heap.Client} {m : Machine}
    (h : Allocated s hs side want 0 c m) (hpos : want ≠ 0)
    (hle : ¬want > (hs.of side).heap.limit - (hs.of side).heap.base - Heap.HEADER) :
    c.heap.offered m.supply 1 = 0 := by
  obtain ⟨bs, bs', _, hready, _, hcase⟩ := h.blocks
  exact hcase.shortage hready hpos hle

theorem free_run (h : s.Ok B ram hs) (side : Side) (pointer : U32) :
    ∃ t, (free side pointer).run s = .ok ((), t) ∧ s.Step B ram (hs.put side
      { hs.of side with live := (hs.of side).live.filter fun a => a.pointer ≠ pointer }) t := by
  obtain ⟨m, hrun, hzone, halive⟩ := h.live.machine.free_run side pointer
  rw [← h.heaps side] at hrun
  refine ⟨s.withMachine m, ?_, ⟨⟨h.live.withMachine halive, fun other => ?_, h.ram, ?_⟩, rfl, hzone,
    rfl⟩⟩
  · rw [free, Prog.bind_ok (Prog.run_gets _ _), id, Sys.call_run hrun]
  · cases side <;> cases other <;> first | exact h.heaps .kernel | exact h.heaps .virtual
  · cases side <;> exact h.window

/-- A move of the break from `s` that answered `r` and left the heap `h'`. -/
structure Moved (s : Sys) (hs : Heaps) (side : Side) (delta r : U32) (h' : Heap) (m : Machine) :
    Prop where
  run : ((hs.of side).heap.moveBrk delta).run s.world.machine = .ok ((r, h'), m)
  blocks : ∃ bs bs', Heap.Ready (hs.of side).heap s.world.machine bs ∧
    Heap.Move (hs.of side).heap s.world.machine bs delta r h' m bs'

theorem brk_run (h : s.Ok B ram hs) (side : Side) (delta : U32) :
    ∃ r h' t, (brk side delta).run s = .ok (r, t) ∧
      s.Step B ram (hs.put side { hs.of side with heap := h' }) t ∧
      Moved s hs side delta r h' t.world.machine := by
  obtain ⟨r, h', m, bs, bs', hrun, halive, hzone, hready, hcase⟩ :=
    h.live.machine.brk_run side delta
  have heffect := (hcase.effect hready.inv).1
  refine ⟨r, h', (s.withMachine m).setHeap h' side, ?_, h.setHeap halive hzone heffect.same, ?_⟩
  · rw [← h.heaps side] at hrun
    rw [brk, Prog.bind_ok (Prog.run_gets _ _), id, Prog.bind_ok (Sys.call_run hrun)]
    rfl
  · rw [Sys.world_setHeap]
    exact ⟨hrun, bs, bs', hready, hcase⟩

section

variable {delta r : U32} {h' : Heap} {m : Machine} {side : Side}
  (h : Moved s hs side delta r h' m)
include h

/-- A move up is refused, or gets some of the pages.  If these are not all of them, the heap cannot
get another page. -/
theorem Moved.up (hpos : 0 < delta.toInt) :
    r = 0 ∧ h' = (hs.of side).heap ∧ h'.offered m.supply 1 = 0 ∨
      r ≠ 0 ∧ ∃ n, n ≤ Heap.pages delta ∧ 0 < n ∧
        h'.brk.toNat = (hs.of side).heap.brk.toNat + 4096 * n ∧
        (n < Heap.pages delta → h'.offered m.supply 1 = 0) := by
  obtain ⟨bs, bs', hready, hcase⟩ := h.blocks
  have hpages : Heap.pages delta ≠ 0 := by
    rw [Heap.pages]
    omega
  cases hcase with
  | zero hzero =>
    rw [hzero] at hpos
    exact absurd hpos (by decide)
  | down hneg =>
    rw [Heap.msb_of_pos hpos] at hneg
    cases hneg
  | up _ _ hg =>
    rw [show (Heap.pagesOf delta).toNat = Heap.pages delta from Heap.toNat_pagesOf delta] at hg
    cases hg with
    | refused hu hwhy =>
      refine Or.inl ⟨rfl, rfl, ?_⟩
      have hnone := hwhy hready.isOpen
      rw [(hu.sameMap hready.inv.paged).supply]
      rw [Heap.offered, Heap.grants_eq_zero hpages] at hnone
      exact Heap.grants_stop hnone 1
    | grew _ hlarge htop hm _ _ hcount =>
      exact Or.inr ⟨hready.brk_ne_zero, _, hm, by omega, htop, fun hpart =>
        Heap.grants_stop ((hcount hready.isOpen).2 hpart) 1⟩

/-- A move down never raises the break, and one that is refused changes nothing that a heap could
get. -/
theorem Moved.down (hneg : delta.toInt < 0) :
    h'.brk.toNat ≤ (hs.of side).heap.brk.toNat ∧
      (r = 0 → h' = (hs.of side).heap ∧ m.supply = s.world.machine.supply) := by
  obtain ⟨bs, bs', hready, hcase⟩ := h.blocks
  have hbrk := hready.brk_ne_zero
  cases hcase with
  | zero hzero =>
    rw [hzero] at hneg
    exact absurd hneg (by decide)
  | up _ hpos =>
    rw [Heap.msb_of_neg hneg] at hpos
    cases hpos
  | down _ hs =>
    refine ⟨hs.brk_le, fun hz => ?_⟩
    cases hs with
    | refused _ _ _ hu => exact ⟨rfl, (hu.sameMap hready.inv.paged).supply⟩
    | same => exact absurd hz hbrk
    | cut => exact absurd hz hbrk
    | drop => exact absurd hz hbrk

end

/-- `brk(0)` answers the break. -/
theorem brk_zero (h : s.Ok B ram hs) (side : Side) :
    ∃ t, (brk side 0).run s = .ok ((hs.of side).heap.brk, t) ∧ s.Step B ram hs t ∧
      t.world.machine = s.world.machine := by
  have hrun : ((s.heap side).moveBrk 0).run s.world.machine
      = .ok (((s.heap side).brk, s.heap side), s.world.machine) := rfl
  have hstep := h.setHeap (show s.world.machine.Alive B ram (hs.put side (hs.of side)) by
      rw [Heaps.put_of]; exact h.live.machine) (.refl _) rfl
  rw [Heaps.put_of] at hstep
  refine ⟨(s.withMachine s.world.machine).setHeap (hs.of side).heap side, ?_, hstep, ?_⟩
  · rw [brk, Prog.bind_ok (Prog.run_gets _ _), id, Prog.bind_ok (Sys.call_run hrun), h.heaps side]
    rfl
  · rw [Sys.world_setHeap]
    rfl

end Kfs.Shell
