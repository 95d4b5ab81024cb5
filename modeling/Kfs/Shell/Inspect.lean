import Kfs.Paging.Dump
import Kfs.Shell.Screen
import Kfs.Shell.Steps
import Kfs.Stack.Dump

/-!
# The commands that only look

`mem`, `space`, `pages`, `virt`, `stack`, `gdt` and `help` change nothing but the screen: each one
leaves the state `Sys.print lines`.  The lemmas give these lines and what they say about the
machine: `virt` shows the walk of the hardware, `pages` lists the pages that the hardware maps,
`stack` shows the bytes of the kernel's stack, and `mem` the account of each heap.
-/

namespace Kfs.Shell

open Lib Mem Paging Machine Multiboot

def Sys.print (s : Sys) (lines : List String) : Sys := { s with calls := s.calls ++ lines.map text }

variable {B : Build} {ram : Ram} {hs : Heaps} {s : Sys} {α ι : Type}

namespace Sys

@[simp] theorem print_print (lines lines' : List String) :
    (s.print lines).print lines' = s.print (lines ++ lines') := by
  simp [print]

theorem Ok.print (h : s.Ok B ram hs) (lines : List String) : s.Step B ram hs (s.print lines) :=
  ⟨⟨h.live, h.heaps, h.ram, h.window⟩, rfl, .refl _, rfl⟩

end Sys

theorem printAll_run (lines : List String) : (printAll lines).run s = .ok ((), s.print lines) := rfl

theorem printk_run (line : String) : (printk line).run s = .ok ((), s.print [line]) := rfl

/-- A kernel function that only reads has nothing to report. -/
theorem read_run {k : Kernel α} {a : α} (hk : k.run s.world.machine = .ok (a, s.world.machine)) :
    (call k).run s = .ok (a, s) := by
  rw [Sys.call_run hk, Sys.withMachine]
  simp [reportCalls]

/-- A loop of which each pass prints some lines. -/
theorem runAll_print {f : ι → Cmd Unit} (lines : ι → List String)
    (hf : ∀ (t : Sys) (i : ι), t.world = s.world → (f i).run t = .ok ((), t.print (lines i)))
    (is : List ι) : (Prog.runAll f is).run s = .ok ((), s.print (is.flatMap lines)) := by
  suffices hall : ∀ t : Sys, t.world = s.world →
      (Prog.runAll f is).run t = .ok ((), t.print (is.flatMap lines)) from hall s rfl
  induction is with
  | nil =>
    intro t _
    rw [Prog.runAll, Prog.run_pure, List.flatMap_nil, Sys.print, List.map_nil, List.append_nil]
  | cons i is ih =>
    intro t ht
    rw [Prog.runAll, Prog.bind_ok (hf t i ht), ih (t.print (lines i)) ht, Sys.print_print,
      List.flatMap_cons]

/-! ## `virt` and `pages` -/

theorem summarize_run (hs : s.world.machine.Paged) (addr : U32) :
    (summarize addr).run s
      = .ok ((), s.print [summaryLine addr (found s.world.machine addr)]) := by
  rw [summarize, Prog.bind_ok (read_run (summary_run hs addr))]
  rfl

theorem describeAll_run (hs : s.world.machine.Paged) (addr : U32) :
    ∃ d : Description, d.Shows s.world.machine addr ∧
      (describeAll addr).run s = .ok ((), s.print (d.lines addr)) := by
  obtain ⟨d, hread, hshows⟩ := describe_shows hs addr
  refine ⟨d, hshows, ?_⟩
  rw [describeAll, Prog.bind_ok (read_run hread)]
  rfl

theorem cmdVirt_run (hs : s.world.machine.Paged) (args : List Char) :
    ∃ lines, (cmdVirt B args).run s = .ok ((), s.print lines) ∧
      (args = [] → lines = virtHeading ::
        ((LANDMARKS B).map fun addr => summaryLine addr (found s.world.machine addr)) ++
        [virtHint]) ∧
      ∀ addr, args ≠ [] → Klib.parseU32 args = some addr →
        ∃ d : Description, d.Shows s.world.machine addr ∧ lines = d.lines addr := by
  rw [cmdVirt]
  split
  · rename_i hargs
    have hloop := runAll_print (s := s.print [virtHeading])
      (f := summarize) (fun addr => [summaryLine addr (found s.world.machine addr)])
      (fun t i ht => by
        have hrun := summarize_run (s := t) (by rw [ht]; exact hs) i
        rwa [ht] at hrun) (LANDMARKS B)
    rw [← List.map_eq_flatMap] at hloop
    refine ⟨_, ?_, fun _ => rfl, fun _ hne => absurd hargs hne⟩
    rw [Prog.bind_ok (printk_run _), Prog.bind_ok hloop, printk_run, Sys.print_print,
      Sys.print_print]
    rfl
  · rename_i hargs
    split
    · rename_i addr hparse
      obtain ⟨d, hshows, hrun⟩ := describeAll_run hs addr
      refine ⟨_, hrun, fun hnil => absurd hnil hargs, fun addr' _ hparse' => ?_⟩
      rw [hparse] at hparse'
      cases hparse'
      exact ⟨d, hshows, rfl⟩
    · rename_i hparse
      refine ⟨_, printk_run _, fun hnil => absurd hnil hargs, fun addr' _ hparse' => ?_⟩
      rw [hparse] at hparse'
      cases hparse'

theorem cmdPages_run (hs : s.world.machine.Paged) :
    ∃ d : Dump, d.rows.flatMap Row.expand = listed s.world.machine (2 ^ 20) ∧
      cmdPages.run s = .ok ((), s.print (pagesLines d)) := by
  obtain ⟨d, hrun, hrows, _⟩ := dump_run hs.self hs.selfPresent
  exact ⟨d, hrows, (Prog.bind_ok (read_run hrun)).trans rfl⟩

/-! ## `stack` -/

theorem load8_inv {m t : Machine} {v : U32} {b : U8} (h : (load8 v).run m = .ok (b, t)) :
    t = m := by
  obtain ⟨a, u, hres, hget⟩ := Prog.bind_eq_ok.mp h
  cases hget
  exact (resolve_inv hres).1

theorem load8_stack (h : s.Ok B ram hs) {a : U32} (h1 : B.stackBottom.toNat ≤ a.toNat)
    (h2 : a.toNat < B.stackTop.toNat) :
    (load8 a).run s.world.machine = .ok (s.world.machine.virt a.toNat, s.world.machine) := by
  obtain ⟨e, he, _⟩ := h.live.machine.stack_region.direct a.toNat h1 h2
  rw [load8_of_leaf he, virt_of_leaf he]

/-- The dump ends at the top of the stack, so it never faults. -/
theorem cmdStack_run (h : s.Ok B ram hs) :
    (cmdStack B).run s = .ok ((), s.print
      (Stack.header B.stackBottom B.stackTop s.world.cpu.esp ::
        Stack.render s.world.cpu.esp (Stack.bytesAt (fun a => s.world.machine.virt a.toNat)
          s.world.cpu.esp (min 256 (B.stackTop.toNat - s.world.cpu.esp.toNat))))) := by
  have hroom := h.live.room
  have htop := h.live.top
  generalize hn : min 256 (B.stackTop.toNat - s.world.cpu.esp.toNat) = n
  obtain ⟨hrun, hasked⟩ := Stack.printFrom_spec (fun a => s.world.machine.virt a.toNat) n le_rfl
    (show n ≤ B.stackTop.toNat - s.world.cpu.esp.toNat by omega)
  have hprint : Stack.print B.stackBottom B.stackTop s.world.cpu.esp 256 =
      Stack.printFrom B.stackTop n s.world.cpu.esp n >>= fun rows =>
        pure (Stack.header B.stackBottom B.stackTop s.world.cpu.esp :: rows) := by
    rw [Stack.print, Stack.toNat_saturatingSub, ← hn]
    rfl
  have hloads : ∀ a ∈ (Stack.print B.stackBottom B.stackTop s.world.cpu.esp 256).asked
      (fun a => .ok (s.world.machine.virt a.toNat)),
      ((load8 a).run s.world.machine).map Prod.fst = .ok (s.world.machine.virt a.toNat) := by
    intro a ha
    rw [hprint, Query.asked_bind_ok hrun, hasked, Query.asked_pure, List.append_nil] at ha
    obtain ⟨i, hi, rfl⟩ := List.mem_map.mp ha
    have hlt : i < n := List.mem_range.mp hi
    have hnum : (s.world.cpu.esp + BitVec.ofNat 32 i).toNat = s.world.cpu.esp.toNat + i := by
      rw [BitVec.toNat_add, BitVec.toNat_ofNat]
      omega
    rw [load8_stack h (by omega) (by omega)]
    rfl
  have hread : ((Stack.print B.stackBottom B.stackTop s.world.cpu.esp 256).toProg load8).run
      s.world.machine = .ok (Stack.header B.stackBottom B.stackTop s.world.cpu.esp ::
        Stack.render s.world.cpu.esp (Stack.bytesAt (fun a => s.world.machine.virt a.toNat)
          s.world.cpu.esp n), s.world.machine) := by
    rw [Query.run_toProg (fun _ _ _ => load8_inv), (Query.run_congr _ hloads).1, hprint,
      Query.run_bind_ok hrun]
    rfl
  rw [cmdStack, Prog.bind_ok (Prog.run_gets _ _), id, Prog.bind_ok (read_run hread)]
  rfl

/-! ## `mem` and `gdt` -/

theorem report_run (h : s.Ok B ram hs) (side : Side) :
    ∃ st, (hs.of side).Ledger s.world.machine st ∧
      (report side).run s = .ok ((), s.print (reportLines (s.heap side) st)) := by
  obtain ⟨st, hread, hledger⟩ := h.live.machine.stats_run side
  rw [← h.heaps side] at hread
  have hstats : (stats side).run s = .ok (st, s) :=
    (Prog.bind_ok (Prog.run_gets _ _)).trans (read_run hread)
  refine ⟨st, hledger, ?_⟩
  rw [report, Prog.bind_ok (Prog.run_gets _ _), id, Prog.bind_ok hstats]
  rfl

theorem cmdMem_run (h : s.Ok B ram hs) :
    ∃ kernel virtual, hs.kernel.Ledger s.world.machine kernel ∧
      hs.virtual.Ledger s.world.machine virtual ∧
      (cmdMem B).run s = .ok ((), s.print (memLines B s kernel virtual)) := by
  let lines := ramLines s.ram s.world.machine.pmm ++ imageLines B.layout.image B.codeEnd ++
    [carvedLine s.window]
  obtain ⟨kernel, hk, hkrun⟩ := report_run (h.print lines).ok .kernel
  obtain ⟨virtual, hv, hvrun⟩ := report_run ((h.print lines).ok.print _).ok .virtual
  refine ⟨kernel, virtual, hk, hv, ?_⟩
  rw [cmdMem, Prog.bind_ok (Prog.run_gets _ _), id, Prog.bind_ok (printAll_run _),
    Prog.bind_ok hkrun, hvrun, Sys.print_print, Sys.print_print, ← List.append_assoc]
  rfl

theorem cmdGdt_run : cmdGdt.run s = .ok ((), s.print (gdtLines s.world.cpu)) := by
  rw [cmdGdt, Prog.bind_ok (Prog.run_gets _ _)]
  rfl

/-! ## All of them -/

/-- The commands that only look. -/
def Command.Looks : Command → Prop
  | .mem | .space | .pages | .virt | .stack | .gdt | .help => True
  | _ => False

theorem Command.Looks.run {c : Command} (hc : c.Looks) (h : s.Ok B ram hs) (fuel : Nat)
    (args : List Char) : ∃ lines, (c.run B fuel args).run s = .ok ((), s.print lines) := by
  have hpaged := h.live.machine.paged
  cases c with
  | mem =>
    obtain ⟨_, _, _, _, hrun⟩ := cmdMem_run h
    exact ⟨_, hrun⟩
  | space => exact ⟨_, printAll_run _⟩
  | pages =>
    obtain ⟨_, _, hrun⟩ := cmdPages_run hpaged
    exact ⟨_, hrun⟩
  | virt =>
    obtain ⟨lines, hrun, _⟩ := cmdVirt_run hpaged args
    exact ⟨lines, hrun⟩
  | stack => exact ⟨_, cmdStack_run h⟩
  | gdt => exact ⟨_, cmdGdt_run⟩
  | help => exact ⟨_, printAll_run _⟩
  | _ => exact hc.elim

end Kfs.Shell
