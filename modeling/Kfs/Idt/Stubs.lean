import Kfs.Idt
import Kfs.Lib.Push
import Mathlib.Tactic.IntervalCases

/-!
# The way into `fault_entry` and back

`exception` pushes sixty bytes on the way to `fault_entry`: what the processor saves, what the stub
adds to it, the registers, the pointer to the frame and the return address.  `exception_entry` and
`readFrame_run` say that the frame in memory is then `frameOf`: the interrupted registers, with the
stack pointer that `pusha` saw.  `leave_run` is the way back from any machine that kept these bytes.
It takes every register to its old value, whatever the compiled code left in the scratch registers
and below the stack pointer.

For vector 29 the processor pushes an error code that the stub does not know.  `exception_extra` is
the way in for it: all fields of the frame from the error code up are one word off.
-/

namespace Kfs

open Lib Mem Paging Idt

/-- `BitVec` subtraction of a number that is not larger. -/
theorem toNat_sub_ofNat {x : U32} {n : Nat} (h : n ≤ x.toNat) :
    (x - BitVec.ofNat 32 n).toNat = x.toNat - n := by
  have hx := x.isLt
  rw [BitVec.toNat_sub, BitVec.toNat_ofNat]
  omega

theorem toNat_add_ofNat {x : U32} {n : Nat} (h : x.toNat + n < 2 ^ 32) :
    (x + BitVec.ofNat 32 n).toNat = x.toNat + n := by
  rw [BitVec.toNat_add, BitVec.toNat_ofNat]
  omega

/-! ## Pushes and pops -/

/-- The stack pointer is in the kernel's stack, with `n` bytes below it. -/
structure World.Stacked (B : Build) (n : Nat) (w : World) : Prop where
  region : w.machine.Region 0xC0000000 B.stackBottom.toNat B.stackTop.toNat
  aligned : w.cpu.esp.toNat % 4 = 0
  room : B.stackBottom.toNat + n ≤ w.cpu.esp.toNat
  top : w.cpu.esp.toNat ≤ B.stackTop.toNat

/-- The world after `xs` was pushed. -/
def World.pushed (w : World) (xs : List U32) : World :=
  { w with
    cpu := { w.cpu with esp := w.cpu.esp - BitVec.ofNat 32 (4 * xs.length) }
    machine :=
      { w.machine with mem := w.machine.mem.pushed (w.cpu.esp.toNat - 0xC0000000) xs } }

section

variable {B : Build} {w : World}

theorem World.pushed_mem (xs : List U32) : (w.pushed xs).machine.mem
    = w.machine.mem.pushed (w.cpu.esp.toNat - 0xC0000000) xs := rfl

/-- The stack lies in the kernel window. -/
theorem Build.stack_window (B : Build) : 0xC0100000 ≤ B.stackBottom.toNat := by
  have h1 := B.stack_bss.1
  have h2 := B.layout.start_ge
  have h3 := B.layout.start_le
  omega

theorem World.Stacked.pushed {n : Nat} {l : List U32} (h : w.Stacked B (4 * l.length + n)) :
    (w.pushed l).Stacked B n := by
  obtain ⟨hregion, hal, hroom, htop⟩ := h
  have hwin := B.stack_window
  have hesp : (w.pushed l).cpu.esp.toNat = w.cpu.esp.toNat - 4 * l.length :=
    toNat_sub_ofNat (by omega)
  refine ⟨hregion.withMem fun a ha => ?_, by omega, by omega, by omega⟩
  exact ByteMem.pushed_other _ (by omega) (by omega)

theorem World.pushed_append {l k : List U32} (h : w.Stacked B (4 * l.length)) :
    w.pushed (l ++ k) = (w.pushed l).pushed k := by
  have hroom := h.room
  have hesp : (w.cpu.esp - BitVec.ofNat 32 (4 * l.length)).toNat
      = w.cpu.esp.toNat - 4 * l.length := toNat_sub_ofNat (by omega)
  simp only [World.pushed, ByteMem.pushed_append, hesp, List.length_append]
  rw [show w.cpu.esp.toNat - 4 * l.length - 0xC0000000
      = w.cpu.esp.toNat - 0xC0000000 - 4 * l.length from by omega, BitVec.sub_sub,
    ← BitVec.ofNat_add, show 4 * (l.length + k.length) = 4 * l.length + 4 * k.length from
      by omega]

theorem push_run (h : w.Stacked B 4) (x : U32) : (push x).run w = .ok ((), w.pushed [x]) := by
  obtain ⟨hregion, hal, hroom, htop⟩ := h
  have hesp : (w.cpu.esp - 4).toNat = w.cpu.esp.toNat - 4 := toNat_sub_ofNat (n := 4) (by omega)
  rw [push, getCpu, Prog.bind_ok (Prog.run_gets _ _), Prog.bind_ok
    (lift_ok (hregion.store32_run (by omega) (by omega) (by omega) x)), setCpu, Prog.run_modify]
  simp only [World.pushed, ByteMem.pushed, hesp]
  rw [show w.cpu.esp.toNat - 4 - 0xC0000000 = w.cpu.esp.toNat - 0xC0000000 - 4 from by omega]
  rfl

theorem pushAll_run (xs : List U32) {w : World} (h : w.Stacked B (4 * xs.length)) :
    (pushAll xs).run w = .ok ((), w.pushed xs) := by
  induction xs generalizing w with
  | nil => simp [pushAll, World.pushed, ByteMem.pushed]
  | cons x xs ih =>
    rw [List.length_cons] at h
    have h4 : w.Stacked B (4 * [x].length) := ⟨h.region, h.aligned, by
      have := h.room
      simp only [List.length_singleton]
      omega, h.top⟩
    have hrest : (w.pushed [x]).Stacked B (4 * xs.length) := by
      refine World.Stacked.pushed (l := [x]) ⟨h.region, h.aligned, ?_, h.top⟩
      have := h.room
      simp only [List.length_singleton]
      omega
    rw [pushAll, Prog.bind_ok (push_run h4 x), ih hrest,
      ← World.pushed_append h4, List.singleton_append]

/-! ## The gates -/

/-- The two halves of a gate. -/
theorem gate_low (handler : U32) :
    (gate handler).setWidth 32 = (handler &&& 0xFFFF) ||| 0x00080000 := by
  ext i hi
  simp only [gate]
  interval_cases i <;> simp

theorem gate_high (handler : U32) :
    (gate handler >>> 32).setWidth 32 = (handler &&& 0xFFFF0000) ||| 0x00008E00 := by
  ext i hi
  simp only [gate]
  interval_cases i <;> simp

/-- The processor can use the table that `install` made. -/
structure World.Armed (B : Build) (w : World) : Prop where
  idtr : w.cpu.idtr = { limit := BitVec.ofNat 16 (SLOTS * 8 - 1), base := B.idtTable }
  region : w.machine.Region 0xC0000000 B.idtTable.toNat (B.idtTable.toNat + 2048)
  gates : ∀ j, j < 64 → w.machine.mem.read32 (B.idtTable.toNat - 0xC0000000 + 4 * j)
    = halves (fun v => gate (B.isr v)) j

/-- The world as the processor leaves it at the first instruction of a stub. -/
def World.inHandler (B : Build) (v : Nat) (w : World) : World :=
  { w with
    cpu :=
      { w.cpu with eip := B.isr v, cs := 8, eflags := w.cpu.eflags &&& ~~~CLEARED } }

/-- The table lies in the kernel window. -/
theorem Build.idt_window (B : Build) : 0xC0100000 ≤ B.idtTable.toNat := by
  have h1 := B.idt_bss.1
  have h2 := B.layout.start_ge
  have h3 := B.layout.start_le
  omega

/-- A word of the table. -/
theorem World.Armed.load (h : w.Armed B) {j : Nat} (hj : j < 64) :
    (load32 (B.idtTable + BitVec.ofNat 32 (4 * j))).run w.machine
      = .ok (halves (fun v => gate (B.isr v)) j, w.machine) := by
  have hwin := B.idt_window
  have hbelow := h.region.below
  have hal := B.idt_aligned
  have haddr : (B.idtTable + BitVec.ofNat 32 (4 * j)).toNat = B.idtTable.toNat + 4 * j :=
    toNat_add_ofNat (by omega)
  rw [h.region.load32_run (by omega) (by omega) (by omega), haddr,
    show B.idtTable.toNat + 4 * j - 0xC0000000 = B.idtTable.toNat - 0xC0000000 + 4 * j from
      by omega, h.gates j hj]

theorem enter_run (harm : w.Armed B) {v : Nat} (hv : v < 32) {error : Option U32}
    (hstack : w.Stacked B (4 * (3 + error.toList.length))) :
    (enter v error).run w = .ok (none,
      (w.pushed ([w.cpu.eflags, w.cpu.cs, w.cpu.eip] ++ error.toList)).inHandler B v) := by
  have hlow := harm.load (j := 2 * v) (by omega)
  have hhigh := harm.load (j := 2 * v + 1) (by omega)
  rw [halves_even, gate_low, show 4 * (2 * v) = 8 * v from by omega] at hlow
  rw [halves_odd, gate_high, show 4 * (2 * v + 1) = 8 * v + 4 from by omega] at hhigh
  have hpush := pushAll_run ([w.cpu.eflags, w.cpu.cs, w.cpu.eip] ++ error.toList)
    (w := w) (B := B) (by rw [List.length_append]; exact hstack)
  -- the fields of the gate as the processor takes them apart
  have htype : ((((B.isr v &&& 0xFFFF0000) ||| 0x00008E00) >>> 8) &&& 0x1F : U32) = 0x0E := by
    ext i hi
    interval_cases i <;> simp
  have hpresent : ((B.isr v &&& 0xFFFF0000) ||| 0x00008E00 : U32).getLsbD 15 = true := by
    simp
  have hoffset : ((((B.isr v &&& 0xFFFF0000) ||| 0x00008E00) &&& 0xFFFF0000) |||
      (((B.isr v &&& 0xFFFF) ||| 0x00080000) &&& 0xFFFF) : U32) = B.isr v := by
    ext i hi
    interval_cases i <;> simp
  have hselector : ((B.isr v &&& 0xFFFF) ||| 0x00080000 : U32) >>> 16 = 8 := by
    ext i hi
    interval_cases i <;> simp
  rw [enter, getCpu, Prog.bind_ok (Prog.run_gets _ _), harm.idtr]
  dsimp only
  rw [if_neg (by rw [show (BitVec.ofNat 16 (SLOTS * 8 - 1)).toNat = 2047 from rfl]; omega),
    Prog.bind_ok (lift_ok hlow),
    Prog.bind_ok (lift_ok hhigh), htype, if_neg (by decide), hpresent, if_neg (by decide),
    Prog.bind_ok hpush, setCpu, Prog.bind_ok (Prog.run_modify _ _), Prog.run_pure, hoffset,
    hselector]
  rfl

theorem raise_run (harm : w.Armed B) {v : Nat} (hv : v < 32) {error : Option U32}
    (hstack : w.Stacked B (4 * (3 + error.toList.length))) :
    (raise v error).run w = .ok ((),
      (w.pushed ([w.cpu.eflags, w.cpu.cs, w.cpu.eip] ++ error.toList)).inHandler B v) := by
  rw [raise, raiseFrom, Prog.bind_ok (enter_run harm hv hstack), Prog.run_pure]

/-! ## The way in -/

/-- The frame on the stack, from its highest word to its lowest. -/
def frameWords (w : World) (v : Nat) (error : U32) : List U32 :=
  [w.cpu.eflags, w.cpu.cs, w.cpu.eip, error, BitVec.ofNat 32 v, w.cpu.eax, w.cpu.ecx, w.cpu.edx,
    w.cpu.ebx, w.cpu.esp - 20, w.cpu.ebp, w.cpu.esi, w.cpu.edi]

/-- The frame that `fault_entry` sees: the interrupted registers.  The stack pointer in it is the
one at `pusha`, five words below the interrupted one. -/
def frameOf (w : World) (v : Nat) (error : U32) : Frame where
  edi := w.cpu.edi
  esi := w.cpu.esi
  ebp := w.cpu.ebp
  esp := w.cpu.esp - 20
  ebx := w.cpu.ebx
  edx := w.cpu.edx
  ecx := w.cpu.ecx
  eax := w.cpu.eax
  vector := BitVec.ofNat 32 v
  error := error
  eip := w.cpu.eip
  cs := w.cpu.cs
  eflags := w.cpu.eflags

/-- The world at the first instruction of `fault_entry`. -/
def World.called (B : Build) (v : Nat) (error : U32) (w : World) : World :=
  (w.pushed (frameWords w v error ++ [w.cpu.esp - 52, B.returnTo])).inHandler B v

theorem World.called_machine (v : Nat) (error : U32) : (w.called B v error).machine
    = (w.pushed (frameWords w v error ++ [w.cpu.esp - 52, B.returnTo])).machine := rfl

theorem World.called_cpu (v : Nat) (error : U32) : (w.called B v error).cpu
    = { w.cpu with esp := w.cpu.esp - 60, eip := B.isr v, cs := 8,
                   eflags := w.cpu.eflags &&& ~~~CLEARED } := rfl

/-- Pushes change the stack and the stack pointer only. -/
theorem World.pushed_rest (v : Nat) (xs : List U32) :
    ((w.pushed xs).inHandler B v).machine.cr0 = w.machine.cr0 ∧
      ((w.pushed xs).inHandler B v).machine.cr3 = w.machine.cr3 ∧
      ((w.pushed xs).inHandler B v).machine.pmm = w.machine.pmm ∧
      ((w.pushed xs).inHandler B v).cpu.cr2 = w.cpu.cr2 ∧
      ((w.pushed xs).inHandler B v).reports = w.reports ∧
      oopsCount ((w.pushed xs).inHandler B v) = oopsCount w :=
  ⟨rfl, rfl, rfl, rfl, rfl, rfl⟩

theorem World.called_rest (v : Nat) (error : U32) :
    (w.called B v error).machine.cr0 = w.machine.cr0 ∧
      (w.called B v error).machine.cr3 = w.machine.cr3 ∧
      (w.called B v error).machine.pmm = w.machine.pmm ∧
      (w.called B v error).cpu.cr2 = w.cpu.cr2 ∧ (w.called B v error).reports = w.reports ∧
      oopsCount (w.called B v error) = oopsCount w :=
  World.pushed_rest v _

/-- What is left to do when `fault_entry` returns. -/
def leave (B : Build) : Exec Unit := do
  Prog.modify (scribble B)
  let _ ← pop
  Prog.runAll (step B) [.addEsp 4, .popa, .addEsp 8, .iret]

theorem World.Stacked.less {m n : Nat} (h : w.Stacked B m) (hn : n ≤ m) : w.Stacked B n :=
  ⟨h.region, h.aligned, by have := h.room; omega, h.top⟩

theorem World.Stacked.inHandler {n : Nat} (h : w.Stacked B n) (v : Nat) :
    (w.inHandler B v).Stacked B n :=
  ⟨h.region, h.aligned, h.room, h.top⟩

theorem pusha_run (h : w.Stacked B 32) :
    Kfs.pusha.run w = .ok ((), w.pushed [w.cpu.eax, w.cpu.ecx, w.cpu.edx, w.cpu.ebx, w.cpu.esp,
      w.cpu.ebp, w.cpu.esi, w.cpu.edi]) := by
  rw [Kfs.pusha, getCpu, Prog.bind_ok (Prog.run_gets _ _)]
  exact pushAll_run _ h

/-- A word that was just pushed, as an address finds it. -/
theorem load_pushed {l : List U32} (h : w.Stacked B (4 * l.length)) {i : Nat} {x : U32}
    (hx : l[i]? = some x) :
    (load32 (w.cpu.esp - BitVec.ofNat 32 (4 * (i + 1)))).run (w.pushed l).machine
      = .ok (x, (w.pushed l).machine) := by
  have hi := (List.getElem?_eq_some_iff.mp hx).1
  have hwin := B.stack_window
  have hroom := h.room
  have htop := h.top
  have hal := h.aligned
  have hesp : (w.cpu.esp - BitVec.ofNat 32 (4 * (i + 1))).toNat
      = w.cpu.esp.toNat - 4 * (i + 1) := toNat_sub_ofNat (by omega)
  have hregion := (World.Stacked.pushed (n := 0) (l := l) h).region
  rw [hregion.load32_run (by omega) (by omega) (by omega), hesp,
    show w.cpu.esp.toNat - 4 * (i + 1) - 0xC0000000
      = w.cpu.esp.toNat - 0xC0000000 - 4 * (i + 1) from by omega]
  exact congrArg (fun y => Except.ok (y, (w.pushed l).machine))
    (ByteMem.read32_pushed _ (by omega) hx)

/-- The stub below the vector: the registers, the pointer to the frame and the call. -/
theorem isrCommon_run (h : w.Stacked B 40) :
    (Prog.runAll (step B) isrCommon).run w
      = (do faultEntry (w.cpu.esp - 32); leave B).run
        (w.pushed [w.cpu.eax, w.cpu.ecx, w.cpu.edx, w.cpu.ebx, w.cpu.esp, w.cpu.ebp, w.cpu.esi,
          w.cpu.edi, w.cpu.esp - 32, B.returnTo]) := by
  obtain ⟨regs, hregs⟩ : ∃ regs, regs = [w.cpu.eax, w.cpu.ecx, w.cpu.edx, w.cpu.ebx, w.cpu.esp,
      w.cpu.ebp, w.cpu.esi, w.cpu.edi] := ⟨_, rfl⟩
  have hlen : regs.length = 8 := by rw [hregs]; rfl
  have h8 : (w.pushed regs).Stacked B 8 := .pushed (by rw [hlen]; exact h)
  have hpusha := pusha_run (h.less (n := 32) (by decide))
  rw [← hregs] at hpusha
  have hesp : (w.pushed regs).cpu.esp = w.cpu.esp - 32 := by
    simp only [World.pushed, hlen]
    rfl
  have hsplit : w.pushed (regs ++ [w.cpu.esp - 32, B.returnTo])
      = ((w.pushed regs).pushed [w.cpu.esp - 32]).pushed [B.returnTo] := by
    rw [World.pushed_append (by rw [hlen]; exact h.less (by decide))]
    exact World.pushed_append (l := [w.cpu.esp - 32]) (h8.less (n := 4) (by decide))
  have hload := load_pushed (B := B) (l := regs ++ [w.cpu.esp - 32, B.returnTo]) (i := 8)
    (x := w.cpu.esp - 32) (by rw [List.length_append, hlen]; exact h) (by rw [hregs]; rfl)
  rw [show [w.cpu.eax, w.cpu.ecx, w.cpu.edx, w.cpu.ebx, w.cpu.esp, w.cpu.ebp, w.cpu.esi,
      w.cpu.edi, w.cpu.esp - 32, B.returnTo] = regs ++ [w.cpu.esp - 32, B.returnTo] from by
    rw [hregs]; rfl]
  have haddr : (w.pushed (regs ++ [w.cpu.esp - 32, B.returnTo])).cpu.esp + 4
      = w.cpu.esp - BitVec.ofNat 32 (4 * (8 + 1)) := by
    simp only [World.pushed, List.length_append, hlen, List.length_cons, List.length_nil]
    bv_omega
  rw [isrCommon, Prog.runAll, step, Prog.bind_ok hpusha, Prog.runAll]
  have hpush : (step B .pushEsp).run (w.pushed regs)
      = .ok ((), (w.pushed regs).pushed [w.cpu.esp - 32]) := by
    rw [step, getCpu, Prog.bind_ok (Prog.run_gets _ _), push_run (h8.less (by decide)), hesp]
  have hret : (push B.returnTo).run ((w.pushed regs).pushed [w.cpu.esp - 32])
      = .ok ((), w.pushed (regs ++ [w.cpu.esp - 32, B.returnTo])) := by
    rw [push_run (.pushed (l := [w.cpu.esp - 32]) h8), hsplit]
  rw [Prog.bind_ok hpush, Prog.runAll, step, callFaultEntry]
  simp only [bind_assoc]
  rw [Prog.bind_ok hret, getCpu, Prog.bind_ok (Prog.run_gets _ _), haddr,
    Prog.bind_ok (lift_ok hload)]
  simp only [leave, pure_bind]

/-- The processor pushes an error code exactly if the stub of the vector expects one. -/
def Expects (v : Nat) (error : Option U32) : Prop := error.isSome = decide (v ∈ ERROR_STUBS)

/-- The address of a stub is the one of its own vector only. -/
theorem find_isr (B : Build) {v : Nat} (hv : v < 32) :
    ((List.range VECTORS).find? fun u => B.isr u == B.isr v) = some v := by
  rw [List.find?_eq_some_iff_append]
  refine ⟨beq_self_eq_true _, List.range v, (List.range (31 - v)).map (v + 1 + ·), ?_, ?_⟩
  · have hsplit : VECTORS = v + (1 + (31 - v)) := by
      show 32 = _
      omega
    rw [hsplit, List.range_add, List.range_add, List.map_append, List.map_map]
    simp [Function.comp_def, Nat.add_assoc]
  · intro u hu
    rw [List.mem_range] at hu
    have hne : B.isr u ≠ B.isr v := fun heq => by
      have := B.isr_inj u v (by omega) hv heq
      omega
    simpa using hne

theorem World.inHandler_pushed (v : Nat) (xs : List U32) :
    (w.inHandler B v).pushed xs = (w.pushed xs).inHandler B v := rfl

/-- `isr_common` above the five words that the processor and the stub pushed. -/
theorem isrCommon_called (v : Nat) (error : U32) (h : w.Stacked B 60) :
    (Prog.runAll (step B) isrCommon).run ((w.pushed [w.cpu.eflags, w.cpu.cs, w.cpu.eip, error,
        BitVec.ofNat 32 v]).inHandler B v)
      = (do faultEntry (w.cpu.esp - 52); leave B).run (w.called B v error) := by
  obtain ⟨five, hfive⟩ : ∃ five, five = [w.cpu.eflags, w.cpu.cs, w.cpu.eip, error,
      BitVec.ofNat 32 v] := ⟨_, rfl⟩
  have hlen : five.length = 5 := by rw [hfive]; rfl
  rw [← hfive]
  have h40 : ((w.pushed five).inHandler B v).Stacked B 40 :=
    World.Stacked.inHandler (.pushed (by rw [hlen]; exact h)) v
  have hesp : ((w.pushed five).inHandler B v).cpu.esp = w.cpu.esp - 20 := by
    simp only [World.inHandler, World.pushed, hlen]
    rfl
  have hptr : w.cpu.esp - 20 - 32 = w.cpu.esp - 52 := by
    rw [BitVec.sub_sub]
    rfl
  have hwords : five ++ [w.cpu.eax, w.cpu.ecx, w.cpu.edx, w.cpu.ebx, w.cpu.esp - 20, w.cpu.ebp,
      w.cpu.esi, w.cpu.edi, w.cpu.esp - 52, B.returnTo]
      = frameWords w v error ++ [w.cpu.esp - 52, B.returnTo] := by
    rw [hfive]
    rfl
  rw [isrCommon_run h40, hesp, hptr, World.inHandler_pushed,
    ← World.pushed_append (by rw [hlen]; exact h.less (by decide)), World.called, ← hwords]
  rfl

/-- A `pushl` of a stub. -/
theorem pushl_run {v n : Nat} {xs : List U32} (h : w.Stacked B n) (hn : 4 * (xs.length + 1) ≤ n)
    (x : U32) : (step B (.pushl x)).run ((w.pushed xs).inHandler B v)
      = .ok ((), (w.pushed (xs ++ [x])).inHandler B v) := by
  have h4 : ((w.pushed xs).inHandler B v).Stacked B 4 :=
    World.Stacked.inHandler (.pushed (h.less (by omega))) v
  rw [step, push_run h4, World.inHandler_pushed, World.pushed_append (h.less (by omega))]

/-- A stub brings what the processor pushed into the shape of the frame. -/
theorem stub_run {v : Nat} {error : Option U32} (he : Expects v error) (h : w.Stacked B 60) :
    (Prog.runAll (step B) (stub v)).run
        ((w.pushed ([w.cpu.eflags, w.cpu.cs, w.cpu.eip] ++ error.toList)).inHandler B v)
      = (do faultEntry (w.cpu.esp - 52); leave B).run (w.called B v (error.getD 0)) := by
  cases error with
  | some e =>
    have hv : v ∈ ERROR_STUBS := of_decide_eq_true he.symm
    have hwords : [w.cpu.eflags, w.cpu.cs, w.cpu.eip] ++ [e] ++ [BitVec.ofNat 32 v]
        = [w.cpu.eflags, w.cpu.cs, w.cpu.eip, e, BitVec.ofNat 32 v] := rfl
    rw [stub, if_pos hv, isrError, Prog.runAll, Option.toList_some,
      Prog.bind_ok (pushl_run h (by simp) _), hwords, isrCommon_called v e h, Option.getD_some]
  | none =>
    have hv : v ∉ ERROR_STUBS := of_decide_eq_false he.symm
    have hwords : [w.cpu.eflags, w.cpu.cs, w.cpu.eip] ++ [0] ++ [BitVec.ofNat 32 v]
        = [w.cpu.eflags, w.cpu.cs, w.cpu.eip, 0, BitVec.ofNat 32 v] := rfl
    rw [stub, if_neg hv, isrPlain, Prog.runAll, Option.toList_none, List.append_nil,
      Prog.bind_ok (pushl_run h (by simp) _), Prog.runAll,
      Prog.bind_ok (pushl_run h (by simp) _), hwords, isrCommon_called v 0 h, Option.getD_none]

/-- From the instruction that raises the exception to `fault_entry`. -/
theorem exception_entry (harm : w.Armed B) {v : Nat} (hv : v < 32) {error : Option U32}
    (he : Expects v error) (h : w.Stacked B 60) :
    (exception B v error).run w
      = (do faultEntry (w.cpu.esp - 52); leave B).run (w.called B v (error.getD 0)) := by
  have hlen : error.toList.length ≤ 1 := by cases error <;> simp
  rw [exception, Prog.bind_ok (raise_run harm hv (h.less (by omega))), getCpu,
    Prog.bind_ok (Prog.run_gets _ _)]
  dsimp only [World.inHandler]
  rw [find_isr B hv]
  exact stub_run he h

/-! ## The frame -/

theorem length_frameWords (v : Nat) (error : U32) : (frameWords w v error).length = 13 := rfl

/-- Field `j` of the frame, counted from its lowest word. -/
theorem load_frame (v : Nat) (error : U32) (h : w.Stacked B 60) {j : Nat} (hj : j < 13) {x : U32}
    (hx : (frameWords w v error)[12 - j]? = some x) :
    (load32 (ptrAdd (w.cpu.esp - 52) j)).run (w.called B v error).machine
      = .ok (x, (w.called B v error).machine) := by
  have hptr : ptrAdd (w.cpu.esp - 52) j = w.cpu.esp - BitVec.ofNat 32 (4 * (12 - j + 1)) := by
    have hroom := h.room
    have hlt := w.cpu.esp.isLt
    apply BitVec.eq_of_toNat_eq
    have h52 : (w.cpu.esp - 52).toNat = w.cpu.esp.toNat - 52 := toNat_sub_ofNat (n := 52) (by omega)
    rw [ptrAdd, toNat_add_ofNat (by omega), toNat_sub_ofNat (by omega), h52]
    omega
  rw [hptr, World.called_machine]
  refine load_pushed h ?_
  rw [List.getElem?_append_left (by rw [length_frameWords]; omega)]
  exact hx

theorem load_vector (v : Nat) (error : U32) (h : w.Stacked B 60) :
    (load32 (ptrAdd (w.cpu.esp - 52) 8)).run (w.called B v error).machine
      = .ok (BitVec.ofNat 32 v, (w.called B v error).machine) :=
  load_frame v error h (j := 8) (by decide) rfl

/-- The words of the frame, put together. -/
theorem readFrame_of {s : Machine} {pointer : U32} {v : Nat} {error : U32}
    (hload : ∀ {j x}, j < 13 → (frameWords w v error)[12 - j]? = some x →
      (load32 (ptrAdd pointer j)).run s = .ok (x, s)) :
    (readFrame pointer).run s = .ok (frameOf w v error, s) := by
  rw [readFrame, Prog.bind_ok (hload (j := 0) (by decide) rfl),
    Prog.bind_ok (hload (j := 1) (by decide) rfl), Prog.bind_ok (hload (j := 2) (by decide) rfl),
    Prog.bind_ok (hload (j := 3) (by decide) rfl), Prog.bind_ok (hload (j := 4) (by decide) rfl),
    Prog.bind_ok (hload (j := 5) (by decide) rfl), Prog.bind_ok (hload (j := 6) (by decide) rfl),
    Prog.bind_ok (hload (j := 7) (by decide) rfl), Prog.bind_ok (hload (j := 8) (by decide) rfl),
    Prog.bind_ok (hload (j := 9) (by decide) rfl), Prog.bind_ok (hload (j := 10) (by decide) rfl),
    Prog.bind_ok (hload (j := 11) (by decide) rfl),
    Prog.bind_ok (hload (j := 12) (by decide) rfl), Prog.run_pure]
  rfl

/-- What `fault_entry` reads is the frame of the interrupted registers. -/
theorem readFrame_run (v : Nat) (error : U32) (h : w.Stacked B 60) :
    (readFrame (w.cpu.esp - 52)).run (w.called B v error).machine
      = .ok (frameOf w v error, (w.called B v error).machine) :=
  readFrame_of fun hj hx => load_frame v error h hj hx

/-! ## An error code that the stub does not expect -/

/-- The interrupted program as the frame shows it when the stub does not know of the error code: the
code is in the place of EIP, and the words above it are one off. -/
def World.shifted (w : World) (code : U32) : World :=
  { w.pushed [w.cpu.eflags] with
    cpu := { (w.pushed [w.cpu.eflags]).cpu with eip := code, cs := w.cpu.eip, eflags := w.cpu.cs } }

theorem World.shifted_stacked {n : Nat} (code : U32) (h : w.Stacked B (n + 4)) :
    (w.shifted code).Stacked B n := by
  obtain ⟨h1, h2, h3, h4⟩ := World.Stacked.pushed (n := n) (l := [w.cpu.eflags])
    (h.less (by rw [List.length_singleton]; omega))
  exact ⟨h1, h2, h3, h4⟩

theorem World.pushed_control (xs : List U32) : (w.pushed xs).machine.cr0 = w.machine.cr0 ∧
    (w.pushed xs).machine.cr3 = w.machine.cr3 := ⟨rfl, rfl⟩

theorem World.shifted_control (code : U32) : (w.shifted code).machine.cr0 = w.machine.cr0 ∧
    (w.shifted code).machine.cr3 = w.machine.cr3 := World.pushed_control _

/-- `isr_common` above the six words. -/
theorem isrCommon_shifted (v : Nat) (code : U32) (h : w.Stacked B 64) :
    ∃ cpu, (Prog.runAll (step B) isrCommon).run ((w.pushed [w.cpu.eflags, w.cpu.cs, w.cpu.eip, code,
        0, BitVec.ofNat 32 v]).inHandler B v)
      = (do faultEntry ((w.shifted code).cpu.esp - 52); leave B).run
        { w with cpu := cpu, machine := ((w.shifted code).called B v 0).machine } ∧
      cpu.cr2 = w.cpu.cr2 := by
  obtain ⟨six, hsix⟩ : ∃ six, six = [w.cpu.eflags, w.cpu.cs, w.cpu.eip, code, 0,
      BitVec.ofNat 32 v] := ⟨_, rfl⟩
  have hlen : six.length = 6 := by rw [hsix]; rfl
  rw [← hsix]
  have h40 : ((w.pushed six).inHandler B v).Stacked B 40 :=
    World.Stacked.inHandler (.pushed (by rw [hlen]; exact h)) v
  have hesp : ((w.pushed six).inHandler B v).cpu.esp = w.cpu.esp - 24 := by
    simp only [World.inHandler, World.pushed, hlen]
    rfl
  have hesp' : (w.shifted code).cpu.esp = w.cpu.esp - 4 := rfl
  have hptr : w.cpu.esp - 24 - 32 = w.cpu.esp - 4 - 52 := by
    rw [BitVec.sub_sub, BitVec.sub_sub]
    rfl
  have hpusha : w.cpu.esp - 24 = w.cpu.esp - 4 - 20 := by
    rw [BitVec.sub_sub]
    rfl
  have hwords : six ++ [w.cpu.eax, w.cpu.ecx, w.cpu.edx, w.cpu.ebx, w.cpu.esp - 24, w.cpu.ebp,
      w.cpu.esi, w.cpu.edi, w.cpu.esp - 24 - 32, B.returnTo]
      = [w.cpu.eflags] ++ (frameWords (w.shifted code) v 0 ++
        [(w.shifted code).cpu.esp - 52, B.returnTo]) := by
    rw [hsix, hesp', hptr, hpusha]
    rfl
  have hmachine : (w.pushed (six ++ [w.cpu.eax, w.cpu.ecx, w.cpu.edx, w.cpu.ebx, w.cpu.esp - 24,
      w.cpu.ebp, w.cpu.esi, w.cpu.edi, w.cpu.esp - 24 - 32, B.returnTo])).machine
      = ((w.shifted code).called B v 0).machine := by
    rw [hwords, World.pushed_append (B := B) (l := [w.cpu.eflags]) (h.less (by simp)),
      World.called_machine]
    rfl
  rw [isrCommon_run h40, hesp, World.inHandler_pushed, hesp', ← hptr,
    ← World.pushed_append (by rw [hlen]; exact h.less (by decide)), ← hmachine]
  exact ⟨_, rfl, rfl⟩

theorem stub_extra {v : Nat} (hstub : v ∉ ERROR_STUBS) (code : U32) (h : w.Stacked B 64) :
    (Prog.runAll (step B) (stub v)).run
        ((w.pushed ([w.cpu.eflags, w.cpu.cs, w.cpu.eip] ++ [code])).inHandler B v)
      = (Prog.runAll (step B) isrCommon).run ((w.pushed [w.cpu.eflags, w.cpu.cs, w.cpu.eip, code,
        0, BitVec.ofNat 32 v]).inHandler B v) := by
  have hwords : [w.cpu.eflags, w.cpu.cs, w.cpu.eip] ++ [code] ++ [0] ++ [BitVec.ofNat 32 v]
      = [w.cpu.eflags, w.cpu.cs, w.cpu.eip, code, 0, BitVec.ofNat 32 v] := rfl
  rw [stub, if_neg hstub, isrPlain, Prog.runAll, Prog.bind_ok (pushl_run h (by simp) _),
    Prog.runAll, Prog.bind_ok (pushl_run h (by simp) _), hwords]

/-- The way into `fault_entry` for a vector whose error code the stub does not know. -/
theorem exception_extra (harm : w.Armed B) {v : Nat} (hv : v < 32) (hstub : v ∉ ERROR_STUBS)
    (code : U32) (h : w.Stacked B 64) :
    ∃ cpu, (exception B v (some code)).run w
      = (do faultEntry ((w.shifted code).cpu.esp - 52); leave B).run
        { w with cpu := cpu, machine := ((w.shifted code).called B v 0).machine } ∧
      cpu.cr2 = w.cpu.cr2 := by
  obtain ⟨cpu, hrun, hcr2⟩ := isrCommon_shifted v code h
  have hstub := (stub_extra hstub code h).trans hrun
  refine ⟨cpu, ?_, hcr2⟩
  rw [exception, Prog.bind_ok (raise_run harm hv (h.less (by simp))), getCpu,
    Prog.bind_ok (Prog.run_gets _ _)]
  dsimp only [World.inHandler]
  rw [find_isr B hv]
  exact hstub

/-! ## The way back -/

/-- The bytes that compiled code leaves on the stack, below the stack pointer at its entry. -/
theorem scribble_mem (w : World) {a : Nat} (ha : w.cpu.esp.toNat ≤ a + 0xC0000000) :
    (scribble B w).machine.mem a = w.machine.mem a := by
  show (if _ then _ else _) = _
  rw [if_neg (by omega)]

/-- The interrupted registers are still on the stack of `t`. -/
structure World.Saved (B : Build) (v : Nat) (error : U32) (w t : World) : Prop where
  cpu : t.cpu = (w.called B v error).cpu
  region : t.machine.Region 0xC0000000 B.stackBottom.toNat B.stackTop.toNat
  words : ∀ a, w.cpu.esp.toNat - 60 ≤ a + 0xC0000000 → a + 0xC0000000 < w.cpu.esp.toNat →
    t.machine.mem a = (w.called B v error).machine.mem a

def World.setEsp (w : World) (esp : U32) : World := { w with cpu := { w.cpu with esp := esp } }

/-- A word on the stack after the handler and the code that called it. -/
theorem World.Saved.read {v : Nat} {error : U32} {t : World} (h : w.Stacked B 60)
    (hs : w.Saved B v error t) {i : Nat} {y : U32}
    (hi : (frameWords w v error ++ [w.cpu.esp - 52, B.returnTo])[i]? = some y) :
    (scribble B t).machine.mem.read32 (w.cpu.esp.toNat - 0xC0000000 - 4 * (i + 1)) = y := by
  have hlen := (List.getElem?_eq_some_iff.mp hi).1
  rw [List.length_append, length_frameWords, List.length_cons, List.length_singleton] at hlen
  have hwin := B.stack_window
  have hroom := h.room
  have hesp : t.cpu.esp.toNat = w.cpu.esp.toNat - 60 := by
    rw [hs.cpu, World.called_cpu]
    exact toNat_sub_ofNat (n := 60) (by omega)
  have hbytes : ∀ a, w.cpu.esp.toNat - 0xC0000000 - 4 * (i + 1) ≤ a →
      a < w.cpu.esp.toNat - 0xC0000000 - 4 * (i + 1) + 4 →
      (scribble B t).machine.mem a = (w.called B v error).machine.mem a := fun a h1 h2 => by
    rw [scribble_mem t (by omega), hs.words a (by omega) (by omega)]
  rw [ByteMem.read32_congr hbytes, World.called_machine, World.pushed_mem]
  exact ByteMem.read32_pushed _
    (by rw [List.length_append, length_frameWords, List.length_cons, List.length_singleton]; omega)
    hi

/-- A pop on the way back: word `i` of the saved ones. -/
theorem pop_saved {v : Nat} {error : U32} {t x : World} (h : w.Stacked B 60)
    (hs : w.Saved B v error t) (hx : x.machine = (scribble B t).machine) {i : Nat} {y : U32}
    (hi : (frameWords w v error ++ [w.cpu.esp - 52, B.returnTo])[i]? = some y) :
    pop.run (x.setEsp (w.cpu.esp - BitVec.ofNat 32 (4 * (i + 1))))
      = .ok (y, x.setEsp (w.cpu.esp - BitVec.ofNat 32 (4 * i))) := by
  have hlen := (List.getElem?_eq_some_iff.mp hi).1
  rw [List.length_append, length_frameWords, List.length_cons, List.length_singleton] at hlen
  have hroom := h.room
  have htop := h.top
  have hal := h.aligned
  have hesp : (w.cpu.esp - BitVec.ofNat 32 (4 * (i + 1))).toNat = w.cpu.esp.toNat - 4 * (i + 1) :=
    toNat_sub_ofNat (by omega)
  have hregion : (scribble B t).machine.Region 0xC0000000 B.stackBottom.toNat B.stackTop.toNat := by
    refine hs.region.withMem fun a ha => ?_
    have hcpu : t.cpu.esp.toNat = w.cpu.esp.toNat - 60 := by
      rw [hs.cpu, World.called_cpu]
      exact toNat_sub_ofNat (n := 60) (by omega)
    rw [if_neg (by omega)]
  have hload : (load32 (w.cpu.esp - BitVec.ofNat 32 (4 * (i + 1)))).run
      (x.setEsp (w.cpu.esp - BitVec.ofNat 32 (4 * (i + 1)))).machine
        = .ok (y, (x.setEsp (w.cpu.esp - BitVec.ofNat 32 (4 * (i + 1)))).machine) := by
    show _ = Except.ok (y, x.machine)
    rw [show (x.setEsp (w.cpu.esp - BitVec.ofNat 32 (4 * (i + 1)))).machine = x.machine from rfl,
      hx, hregion.load32_run (by omega) (by omega) (by omega), hesp,
      show w.cpu.esp.toNat - 4 * (i + 1) - 0xC0000000
        = w.cpu.esp.toNat - 0xC0000000 - 4 * (i + 1) from by omega, hs.read h hi]
  have hup : w.cpu.esp - BitVec.ofNat 32 (4 * (i + 1)) + 4
      = w.cpu.esp - BitVec.ofNat 32 (4 * i) := by
    apply BitVec.eq_of_toNat_eq
    have hsum := toNat_add_ofNat (x := w.cpu.esp - BitVec.ofNat 32 (4 * (i + 1))) (n := 4)
      (by have := w.cpu.esp.isLt; omega)
    rw [toNat_sub_ofNat (n := 4 * i) (by omega)]
    refine hsum.trans ?_
    omega
  have hlift := lift_ok (w := x.setEsp (w.cpu.esp - BitVec.ofNat 32 (4 * (i + 1)))) hload
  rw [pop, getCpu, Prog.bind_ok (Prog.run_gets _ _),
    show (x.setEsp (w.cpu.esp - BitVec.ofNat 32 (4 * (i + 1)))).cpu.esp
      = w.cpu.esp - BitVec.ofNat 32 (4 * (i + 1)) from rfl, Prog.bind_ok hlift, setCpu,
    Prog.bind_ok (Prog.run_modify _ _), Prog.run_pure]
  dsimp only [World.setEsp]
  rw [hup]

theorem popa_saved {v : Nat} {error : U32} {t x : World} (h : w.Stacked B 60)
    (hs : w.Saved B v error t) (hx : x.machine = (scribble B t).machine) :
    popa.run (x.setEsp (w.cpu.esp - BitVec.ofNat 32 (4 * 13)))
      = .ok ((), ({ x with cpu := { x.cpu with
          edi := w.cpu.edi, esi := w.cpu.esi, ebp := w.cpu.ebp, ebx := w.cpu.ebx,
          edx := w.cpu.edx, ecx := w.cpu.ecx, eax := w.cpu.eax } } : World).setEsp
        (w.cpu.esp - BitVec.ofNat 32 (4 * 5))) := by
  rw [popa, Prog.bind_ok (pop_saved h hs hx (i := 12) rfl),
    Prog.bind_ok (pop_saved h hs hx (i := 11) rfl), Prog.bind_ok (pop_saved h hs hx (i := 10) rfl),
    Prog.bind_ok (pop_saved h hs hx (i := 9) rfl), Prog.bind_ok (pop_saved h hs hx (i := 8) rfl),
    Prog.bind_ok (pop_saved h hs hx (i := 7) rfl), Prog.bind_ok (pop_saved h hs hx (i := 6) rfl),
    Prog.bind_ok (pop_saved h hs hx (i := 5) rfl), setCpu, Prog.run_modify]
  rfl

theorem iret_saved {v : Nat} {error : U32} {t x : World} (h : w.Stacked B 60)
    (hs : w.Saved B v error t) (hx : x.machine = (scribble B t).machine) :
    iret.run (x.setEsp (w.cpu.esp - BitVec.ofNat 32 (4 * 3)))
      = .ok ((), ({ x with cpu := { x.cpu with
          eip := w.cpu.eip, cs := w.cpu.cs, eflags := w.cpu.eflags } } : World).setEsp
        (w.cpu.esp - BitVec.ofNat 32 (4 * 0))) := by
  rw [iret, Prog.bind_ok (pop_saved h hs hx (i := 2) rfl),
    Prog.bind_ok (pop_saved h hs hx (i := 1) rfl), Prog.bind_ok (pop_saved h hs hx (i := 0) rfl),
    setCpu, Prog.run_modify]
  rfl

/-- The stub drops words that nothing needs any more. -/
theorem addEsp_run (B : Build) (x : World) (esp : U32) {n : U32} {k m : Nat}
    (hn : BitVec.ofNat 32 (4 * k) = BitVec.ofNat 32 (4 * m) + n) :
    (step B (.addEsp n)).run (x.setEsp (esp - BitVec.ofNat 32 (4 * k)))
      = .ok ((), x.setEsp (esp - BitVec.ofNat 32 (4 * m))) := by
  have hup : esp - BitVec.ofNat 32 (4 * k) + n = esp - BitVec.ofNat 32 (4 * m) := by
    rw [hn, ← BitVec.sub_sub, BitVec.sub_add_cancel]
  rw [step, setCpu, Prog.run_modify]
  dsimp only [World.setEsp]
  rw [hup]

/-- `fault_entry` is back, and so is the interrupted program.  The machine is the one that the
handler left, with other bytes below the stack pointer. -/
theorem leave_run {v : Nat} {error : U32} {t : World} (h : w.Stacked B 60)
    (hs : w.Saved B v error t) :
    (leave B).run t = .ok ((), { scribble B t with cpu := w.cpu }) := by
  -- the call leaves the stack pointer at the return address
  have hstart : scribble B t
      = (scribble B t).setEsp (w.cpu.esp - BitVec.ofNat 32 (4 * (14 + 1))) := by
    have hesp : (scribble B t).cpu.esp = w.cpu.esp - BitVec.ofNat 32 (4 * (14 + 1)) := by
      show t.cpu.esp = _
      rw [hs.cpu, World.called_cpu]
      rfl
    rw [World.setEsp, ← hesp]
  have hkept : (scribble B t).cpu.cr2 = w.cpu.cr2 ∧ (scribble B t).cpu.ss = w.cpu.ss ∧
      (scribble B t).cpu.ds = w.cpu.ds ∧ (scribble B t).cpu.idtr = w.cpu.idtr ∧
      (scribble B t).cpu.gdtr = w.cpu.gdtr := by
    show t.cpu.cr2 = _ ∧ t.cpu.ss = _ ∧ t.cpu.ds = _ ∧ t.cpu.idtr = _ ∧ t.cpu.gdtr = _
    rw [hs.cpu, World.called_cpu]
    exact ⟨rfl, rfl, rfl, rfl, rfl⟩
  have hret := pop_saved h hs (x := scribble B t) rfl (i := 14) rfl
  rw [← hstart] at hret
  rw [leave, Prog.bind_ok (Prog.run_modify _ _), Prog.bind_ok hret, Prog.runAll,
    Prog.bind_ok (addEsp_run B _ _ (k := 14) (m := 13) (n := 4) rfl), Prog.runAll, step,
    Prog.bind_ok (popa_saved h hs rfl), Prog.runAll,
    Prog.bind_ok (addEsp_run B _ _ (k := 5) (m := 3) (n := 8) rfl), Prog.runAll, step]
  refine (Prog.bind_ok (iret_saved h hs ?_)).trans ?_
  · rfl
  · simp only [Prog.runAll, Prog.run_pure, World.setEsp, hkept, Nat.mul_zero,
      BitVec.sub_zero]

end

end Kfs
