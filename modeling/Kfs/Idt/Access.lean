import Kfs.Idt.Fault

/-!
# Accesses with their faults

An instruction that the page tables do not let through raises a page fault, and runs again when the
handler is back.  `access` is such an instruction.  `access_cases` says how it ends in every state
of the running kernel: it is done at once, or it is done after the page got its frame, or the kernel
panics with a report of the access.

A program does not see its page faults.  `Act` is what happens in the kernel while the demand zone
is used, and `Flat` is a machine whose memory is all there from the beginning.  `runActs_mirrors`
compares the two: their loads answer the same and their registers agree, until the kernel panics for
want of a frame.
-/

namespace Kfs

open Lib Mem Paging Machine Multiboot

namespace Idt

/-- The error code of a page fault in ring 0.  Bit 0 says that the page is present, and bit 1 that
the access is a write. -/
def pageFaultCode (s : Machine) (write : Bool) (v : U32) : U32 :=
  (if (s.walk v).isSome = true then 1 else 0) ||| (if write = true then 2 else 0)

/-- The page fault of an access to `v`. -/
def pageFault (B : Build) (write : Bool) (v : U32) : Exec Unit := do
  let w ← Prog.gets id
  setCpu fun cpu => { cpu with cr2 := v }
  exception B 14 (some (pageFaultCode w.machine write v))

/-- Try a kernel function.  One that stops leaves the machine as it was. -/
def attempt {α : Type} (k : Kernel α) : Exec (Except Stop α) where
  run w :=
    match k.run w.machine with
    | .ok (a, m) => .ok (.ok a, { w with machine := m })
    | .error why => .ok (.error why, w)

/-- An instruction that accesses memory.  After a fault it runs again, and `fuel` bounds how often:
an instruction whose handler comes back without the page faults for ever. -/
def access {α : Type} (B : Build) (write : Bool) (k : Kernel α) : Nat → Exec α
  | 0 => Prog.stop (.stopped .spins)
  | fuel + 1 => do
    match ← attempt k with
    | .ok a => pure a
    | .error (.fault v) => do
      pageFault B write v
      access B write k fuel
    | .error why => Prog.stop (.stopped why)

end Idt

open Idt

/-! ## One access -/

/-- The page tables let the access through. -/
def Machine.Allows (s : Machine) (write : Bool) (v : U32) : Prop :=
  ∃ a, (resolve write v).run s = .ok (a, s)

/-- The function is one access to the page of `v`. -/
structure OneAccess {α : Type} (k : Kernel α) (write : Bool) (v : U32) : Prop where
  fault : ∀ s, ¬Machine.Allows s write v → k.run s = .error (.fault v)
  done : ∀ s, Machine.Allows s write v → ∃ a t, k.run s = .ok (a, t)

section

variable {s : Machine} {write : Bool} {v : U32}

theorem resolve_refused (h : ¬s.Allows write v) : (resolve write v).run s = .error (.fault v) := by
  unfold Machine.Allows resolve at *
  dsimp only at *
  split
  · rfl
  · split
    · rfl
    · rename_i hwalk hw
      rw [hwalk] at h
      exact absurd ⟨_, if_neg hw⟩ h

theorem Machine.Allows.leaf (h : s.Allows write v) : ∃ e, s.leaf (v.toNat / 4096) = some e := by
  obtain ⟨a, ha⟩ := h
  obtain ⟨_, e, he, _⟩ := resolve_inv ha
  exact ⟨e, he⟩

theorem Machine.Allows.of_mayWrite {e : U32} (he : s.leaf (v.toNat / 4096) = some e)
    (hw : s.MayWrite (v.toNat / 4096) e) : s.Allows write v := by
  cases write with
  | false => exact ⟨_, resolve_read he⟩
  | true => exact ⟨_, resolve_write he hw⟩

/-- The tables do not tell two addresses of one page apart. -/
theorem Machine.Allows.page {u : U32} (h : s.Allows write v)
    (hpage : u.toNat / 4096 = v.toNat / 4096) :
    ∃ a, (resolve write u).run s = .ok (a, s) := by
  have hwalk : s.walk u = s.walk v := by rw [walk_eq, walk_eq, hpage]
  obtain ⟨a, ha⟩ := h
  unfold resolve at *
  dsimp only at *
  rw [hwalk]
  split
  · rename_i hnone
    rw [hnone] at ha
    cases ha
  · rename_i pde pte hsome
    rw [hsome] at ha
    dsimp only at ha
    split at ha
    · cases ha
    · rename_i hok
      exact ⟨_, if_neg hok⟩

theorem oneAccess_load8 (v : U32) : OneAccess (load8 v) false v where
  fault s h := by rw [load8, Prog.bind_error (resolve_refused h)]
  done s h := by
    obtain ⟨a, ha⟩ := h
    exact ⟨_, _, by rw [load8, Prog.bind_ok ha, Prog.run_gets]⟩

theorem oneAccess_store8 (v : U32) (b : U8) : OneAccess (store8 v b) true v where
  fault s h := by rw [store8, Prog.bind_error (resolve_refused h)]
  done s h := by
    obtain ⟨a, ha⟩ := h
    exact ⟨_, _, by rw [store8, Prog.bind_ok ha, Prog.run_modify]⟩

theorem oneAccess_load32 {v : U32} (hv : v.toNat % 4 = 0) : OneAccess (load32 v) false v where
  fault s h := by rw [load32, Prog.bind_error (resolve_refused h)]
  done s h := by
    obtain ⟨a0, h0⟩ := h.page rfl
    obtain ⟨a1, h1⟩ := h.page (u := v + 1#32) (word_in_page hv (i := 1) (by decide)).1
    obtain ⟨a2, h2⟩ := h.page (u := v + 2#32) (word_in_page hv (i := 2) (by decide)).1
    obtain ⟨a3, h3⟩ := h.page (u := v + 3#32) (word_in_page hv (i := 3) (by decide)).1
    exact ⟨_, _, by rw [load32, Prog.bind_ok h0, Prog.bind_ok h1, Prog.bind_ok h2, Prog.bind_ok h3,
      Prog.run_gets]⟩

theorem oneAccess_store32 {v : U32} (hv : v.toNat % 4 = 0) (x : U32) :
    OneAccess (store32 v x) true v where
  fault s h := by rw [store32, Prog.bind_error (resolve_refused h)]
  done s h := by
    obtain ⟨a0, h0⟩ := h.page rfl
    obtain ⟨a1, h1⟩ := h.page (u := v + 1#32) (word_in_page hv (i := 1) (by decide)).1
    obtain ⟨a2, h2⟩ := h.page (u := v + 2#32) (word_in_page hv (i := 2) (by decide)).1
    obtain ⟨a3, h3⟩ := h.page (u := v + 3#32) (word_in_page hv (i := 3) (by decide)).1
    exact ⟨_, _, by rw [store32, Prog.bind_ok h0, Prog.bind_ok h1, Prog.bind_ok h2,
      Prog.bind_ok h3, Prog.run_modify]⟩

end

/-! ## How an access ends -/

section

variable {B : Build} {ram : Ram} {hs : Heaps} {w : World} {α : Type} {k : Kernel α} {write : Bool}
  {v : U32}

theorem access_ok {a : α} {t : Machine} (h : k.run w.machine = .ok (a, t)) (fuel : Nat) :
    (access B write k (fuel + 1)).run w = .ok (a, { w with machine := t }) := by
  have hattempt : (attempt k).run w = .ok (.ok a, { w with machine := t }) := by
    rw [attempt]
    dsimp only
    rw [h]
  rw [access, Prog.bind_ok hattempt, Prog.run_pure]

theorem access_fault (h : k.run w.machine = .error (.fault v)) (fuel : Nat) :
    (access B write k (fuel + 1)).run w = (do
      exception B 14 (some (pageFaultCode w.machine write v))
      access B write k fuel : Exec α).run { w with cpu := { w.cpu with cr2 := v } } := by
  have hattempt : (attempt k).run w = .ok (.error (.fault v), w) := by
    rw [attempt]
    dsimp only
    rw [h]
  rw [access, Prog.bind_ok hattempt]
  rfl

/-- The processor after a fault at `v`. -/
def World.withCr2 (w : World) (v : U32) : World := { w with cpu := { w.cpu with cr2 := v } }

theorem World.Live.withCr2 (h : w.Live B ram hs) (v : U32) : (w.withCr2 v).Live B ram hs :=
  ⟨h.machine, h.idtr, h.gdtr, h.aligned, h.room, h.top⟩

/-- An access is done at once, or the page gets its frame first, or the kernel panics with the
registers of the instruction and the kind of the access. -/
theorem access_cases (h : w.Live B ram hs) (hk : OneAccess k write v) (fuel : Nat) :
    (w.machine.Allows write v ∧ ∃ a t, k.run w.machine = .ok (a, t) ∧
      (access B write k (fuel + 2)).run w = .ok (a, { w with machine := t })) ∨
    (¬w.machine.Allows write v ∧ w.machine.Serves v (pageFaultCode w.machine write v) ∧
      ∃ w' a t, w'.Live B ram hs ∧ (w.withCr2 v).Resumed v w' ∧ k.run w'.machine = .ok (a, t) ∧
        (access B write k (fuel + 2)).run w = .ok (a, { w' with machine := t })) ∨
    (¬w.machine.Allows write v ∧ ¬w.machine.Serves v (pageFaultCode w.machine write v) ∧
      ∃ n, (access B write k (fuel + 2)).run w = .error (.panicked (faultLines
        (frameOf w 14 (pageFaultCode w.machine write v)) w.machine.cr0 v w.machine.cr3 n))) := by
  by_cases hallow : w.machine.Allows write v
  · obtain ⟨a, t, hrun⟩ := hk.done _ hallow
    exact Or.inl ⟨hallow, a, t, hrun, access_ok hrun _⟩
  right
  have hstart : (access B write k (fuel + 1 + 1)).run w = _ :=
    access_fault (hk.fault _ hallow) (fuel + 1)
  rcases exception_pageFault (h.withCr2 v) (pageFaultCode w.machine write v) with
    ⟨hserve, w', hrun, hlive, hres⟩ | ⟨hserve, n, hrun⟩
  · left
    obtain ⟨e, he⟩ := hres.mapped
    have hzone : v.toNat / 4096 ∈ zonePages :=
      demand_zone.mp ((isDemand_iff _).mpr ⟨hserve.2.1, hserve.2.2.1⟩)
    have hdir := hlive.machine.paged.dirWritable (v.toNat / 4096 / 1024)
      (by have := v.isLt; omega) (present_of_leaf he).1
    obtain ⟨a, t, hagain⟩ := hk.done w'.machine
      (.of_mayWrite he ⟨hdir, hlive.machine.zone _ hzone e he⟩)
    refine ⟨hallow, hserve, w', a, t, hlive, hres, hagain, ?_⟩
    exact hstart.trans ((Prog.bind_ok hrun).trans (access_ok hagain fuel))
  · right
    exact ⟨hallow, hserve, n, hstart.trans (Prog.bind_error hrun)⟩

/-- A page of the zone with a frame lets every access through. -/
theorem Machine.Alive.zone_allows {s : Machine} (h : s.Alive B ram hs)
    (hv : v.toNat / 4096 ∈ zonePages) {e : U32} (he : s.leaf (v.toNat / 4096) = some e) :
    s.Allows write v :=
  .of_mayWrite he ⟨h.paged.dirWritable _ (by have := v.isLt; omega) (present_of_leaf he).1,
    h.zone _ hv e he⟩

/-- The page of `v` has no frame, and there are too few for it and its table. -/
def Machine.Short (s : Machine) (v : U32) : Prop :=
  s.leaf (v.toNat / 4096) = none ∧
    s.pmm.frames.card < if present (s.dirWord (v.toNat / 2 ^ 22)) = true then 1 else 2

theorem getLsbD_pageFaultCode (s : Machine) (write : Bool) (v : U32) :
    (pageFaultCode s write v).getLsbD 0 = (s.walk v).isSome := by
  unfold pageFaultCode
  cases (s.walk v).isSome <;> cases write <;> decide

theorem pageFaultCode_unmapped {s : Machine} (h : s.leaf (v.toNat / 4096) = none) :
    pageFaultCode s write v = if write = true then 2 else 0 := by
  rw [pageFaultCode, walk_eq, h, Option.map_none, Option.isSome_none]
  cases write <;> decide

/-- In the zone only a shortage of frames is fatal. -/
theorem Machine.Alive.zone_short {s : Machine} (h : s.Alive B ram hs)
    (hv : v.toNat / 4096 ∈ zonePages) (hallow : ¬s.Allows write v)
    (hserve : ¬s.Serves v (pageFaultCode s write v)) : s.Short v := by
  have hnone : s.leaf (v.toNat / 4096) = none := by
    cases he : s.leaf (v.toNat / 4096) with
    | none => rfl
    | some e => exact absurd (h.zone_allows hv he) hallow
  have hcode : (pageFaultCode s write v).getLsbD 0 = false := by
    rw [getLsbD_pageFaultCode, walk_eq, hnone]
    rfl
  obtain ⟨hlo, hhi⟩ := (isDemand_iff _).mp (demand_zone.mpr hv)
  exact ⟨hnone, Nat.lt_of_not_le fun hle => hserve ⟨hcode, hlo, hhi, hnone, hle⟩⟩

end

/-! ## Runs in the demand zone -/

/-- What happens while the zone is used: a call of the system, a load or a store in the zone, or
code that computes with the registers and the stack. -/
inductive Act where
  | op (call : Op)
  | load (v : U32)
  | store (v : U32) (b : U8)
  | code (cpu : Cpu) (stack : ByteMem)

namespace Act

/-- The access of the step, and whether it is a write. -/
def touches : Act → Option (Bool × U32)
  | .load v => some (false, v)
  | .store v _ => some (true, v)
  | _ => none

/-- The accesses are in the demand zone, and code leaves the table registers alone and the stack
pointer where there is room for an exception. -/
def Allowed (B : Build) : Act → Prop
  | .op _ => True
  | .load v => isDemand v = true
  | .store v _ => isDemand v = true
  | .code cpu _ =>
    cpu.idtr = { limit := BitVec.ofNat 16 (SLOTS * 8 - 1), base := B.idtTable } ∧
      cpu.gdtr = { limit := Gdt.LIMIT, base := Gdt.BASE } ∧
      cpu.esp.toNat % 4 = 0 ∧ B.stackBottom.toNat + 64 ≤ cpu.esp.toNat ∧
      cpu.esp.toNat ≤ B.stackTop.toNat

/-- One step on the machine, with the byte that a load answers. -/
def step (B : Build) (fuel : Nat) (hs : Heaps) : Act → Exec (Heaps × Option U8)
  | .op call => do
    let hs ← lift (call.step hs)
    pure (hs, none)
  | .load v => do
    let b ← access B false (load8 v) fuel
    pure (hs, some b)
  | .store v b => do
    access B true (store8 v b) fuel
    pure (hs, none)
  | .code cpu stack => do
    Prog.modify fun w => { w with cpu := cpu, machine := w.machine.patch B.onStack stack }
    pure (hs, none)

end Act

def runActs (B : Build) (fuel : Nat) : Heaps → List Act → Exec (Heaps × List U8)
  | hs, [] => pure (hs, [])
  | hs, act :: acts => do
    let (hs, b) ← act.step B fuel hs
    let (hs, bs) ← runActs B fuel hs acts
    pure (hs, b.toList ++ bs)

/-! ## The same on flat memory -/

/-- A processor with flat memory, which has no pages and no faults. -/
structure Flat where
  cpu : Cpu
  mem : ByteMem

def Flat.step (f : Flat) : Act → Option U8 × Flat
  | .op _ => (none, f)
  | .load v => (some (f.mem v.toNat), f)
  | .store v b => (none, { f with mem := f.mem.write8 v.toNat b })
  | .code cpu _ => (none, { f with cpu := cpu })

def Flat.run (f : Flat) : List Act → List U8 × Flat
  | [] => ([], f)
  | act :: acts =>
    let (b, f) := f.step act
    let (bs, f) := f.run acts
    (b.toList ++ bs, f)

/-- The registers are the same but for the address of the last fault, and so are the bytes of the
zone. -/
structure World.Mirrors (w : World) (f : Flat) : Prop where
  cpu : w.cpu = { f.cpu with cr2 := w.cpu.cr2 }
  zone : ∀ a, a / 4096 ∈ zonePages → w.machine.virt a = f.mem a

/-- The panic of an access in the zone that finds no frame. -/
def shortagePanic (w : World) (write : Bool) (v : U32) (oops : Nat) : Halt :=
  .panicked (faultLines (frameOf w 14 (if write = true then 2 else 0)) w.machine.cr0 v
    w.machine.cr3 oops)

section

variable {B : Build} {ram : Ram} {hs : Heaps} {w : World} {f : Flat} {fuel : Nat}

/-- An access in the zone: the page has a frame when it is done, and the program sees no change. -/
theorem access_zone {α : Type} {k : Kernel α} {write : Bool} {v : U32} (h : w.Live B ram hs)
    (hk : OneAccess k write v) (hv : v.toNat / 4096 ∈ zonePages) (hm : w.Mirrors f) (fuel : Nat) :
    (∃ (w' : World) (a : α) (t : Machine) (e : U32), w'.Live B ram hs ∧ w'.Mirrors f ∧
      w'.machine.leaf (v.toNat / 4096) = some e ∧ k.run w'.machine = .ok (a, t) ∧
      (access B write k (fuel + 2)).run w = .ok (a, { w' with machine := t })) ∨
    w.machine.Short v ∧ ∃ n, (access B write k (fuel + 2)).run w
      = .error (shortagePanic w write v n) := by
  rcases access_cases h hk fuel with ⟨hallow, a, t, hk', hrun⟩ |
    ⟨_, _, w', a, t, hlive, hres, hk', hrun⟩ | ⟨hallow, hserve, n, hrun⟩
  · obtain ⟨e, he⟩ := hallow.leaf
    exact Or.inl ⟨w, a, t, e, h, hm, he, hk', hrun⟩
  · obtain ⟨e, he⟩ := hres.mapped
    refine Or.inl ⟨w', a, t, e, hlive, ⟨?_, fun b hb => (hres.zone b hb).trans (hm.zone b hb)⟩, he,
      hk', hrun⟩
    rw [hres.cpu, World.withCr2, hm.cpu]
  · have hshort := h.machine.zone_short hv hallow hserve
    rw [pageFaultCode_unmapped hshort.1] at hrun
    exact Or.inr ⟨hshort, n, hrun⟩

theorem Act.step_run (h : w.Live B ram hs) {act : Act} (hz : act.Allowed B) (hm : w.Mirrors f)
    (fuel : Nat) :
    (∃ hs' w', (act.step B (fuel + 2) hs).run w = .ok ((hs', (f.step act).1), w') ∧
      w'.Live B ram hs' ∧ w'.Mirrors (f.step act).2) ∨
    ∃ write v n, act.touches = some (write, v) ∧ w.machine.Short v ∧
      (act.step B (fuel + 2) hs).run w = .error (shortagePanic w write v n) := by
  cases act with
  | op call =>
    obtain ⟨hs', t, hrun, halive, hvirt⟩ := h.machine.op_run call
    refine Or.inl ⟨hs', { w with machine := t }, ?_, h.withMachine halive, hm.cpu,
      fun a ha => (hvirt a ha).trans (hm.zone a ha)⟩
    rw [step, Prog.bind_ok (lift_ok hrun), Prog.run_pure]
    rfl
  | load v =>
    have hv := demand_zone.mp hz
    rcases access_zone h (oneAccess_load8 v) hv hm fuel with
      ⟨w', a, t, e, hlive, hm', he, hk, hrun⟩ | ⟨hshort, n, hrun⟩
    · rw [load8_of_leaf he] at hk
      cases hk
      refine Or.inl ⟨hs, w', ?_, hlive, hm'⟩
      rw [step, Prog.bind_ok hrun, Prog.run_pure, ← virt_of_leaf he, hm'.zone _ hv]
      rfl
    · refine Or.inr ⟨false, v, n, rfl, hshort, ?_⟩
      rw [step, Prog.bind_error hrun]
  | store v b =>
    have hv := demand_zone.mp hz
    rcases access_zone h (oneAccess_store8 v b) hv hm fuel with
      ⟨w', a, t, e, hlive, hm', he, hk, hrun⟩ | ⟨hshort, n, hrun⟩
    · obtain ⟨u, hstore, halive, hvirt⟩ := hlive.machine.zone_store b hv he
      rw [hstore] at hk
      cases hk
      refine Or.inl ⟨hs, { w' with machine := t }, ?_, hlive.withMachine halive, hm'.cpu,
        fun c hc => ?_⟩
      · rw [step, Prog.bind_ok hrun, Prog.run_pure]
        rfl
      · show t.virt c = if c = v.toNat then b else f.mem c
        rw [hvirt c hc, hm'.zone c hc]
    · refine Or.inr ⟨true, v, n, rfl, hshort, ?_⟩
      rw [step, Prog.bind_error hrun]
  | code cpu stack =>
    obtain ⟨hidtr, hgdtr, hal, hroom, htop⟩ := hz
    obtain ⟨halive, _, hvirt⟩ := h.machine.stack
      (m := (w.machine.patch B.onStack stack).mem) fun a ha => by
        show (if B.onStack a then _ else _) = _
        rw [ha, if_neg Bool.false_ne_true]
    exact Or.inl ⟨hs, _, rfl, ⟨halive, hidtr, hgdtr, hal, hroom, htop⟩, rfl,
      fun a ha => (hvirt a ha).trans (hm.zone a ha)⟩

theorem runActs_cons {act : Act} {hs' : Heaps} {b : Option U8} {w' : World}
    (h : (act.step B fuel hs).run w = .ok ((hs', b), w')) (acts : List Act) :
    (runActs B fuel hs (act :: acts)).run w = (do
      let (hs'', bs) ← runActs B fuel hs' acts
      pure (hs'', b.toList ++ bs) : Exec (Heaps × List U8)).run w' := by
  rw [runActs, Prog.bind_ok h]

/-- The run up to the access that found no frame.  `w'` is the world before this access. -/
def StuckAt (B : Build) (fuel : Nat) (hs : Heaps) (w : World) (f : Flat) (acts : List Act)
    (write : Bool) (v : U32) (w' : World) : Prop :=
  ∃ before act after hs', acts = before ++ act :: after ∧ act.touches = some (write, v) ∧
    (runActs B fuel hs before).run w = .ok ((hs', (f.run before).1), w') ∧
    w'.Mirrors (f.run before).2 ∧ w'.machine.Short v

theorem StuckAt.cons {act : Act} {hs' : Heaps} {w1 w2 : World} {acts : List Act} {write : Bool}
    {v : U32} (h : (act.step B fuel hs).run w = .ok ((hs', (f.step act).1), w1))
    (hstuck : StuckAt B fuel hs' w1 (f.step act).2 acts write v w2) :
    StuckAt B fuel hs w f (act :: acts) write v w2 := by
  obtain ⟨before, act', after, hs'', rfl, htouch, hrun, hm, hshort⟩ := hstuck
  refine ⟨act :: before, act', after, hs'', rfl, htouch, ?_, hm, hshort⟩
  rw [runActs_cons h, Prog.bind_ok hrun, Prog.run_pure]
  rfl

/-- A run and the run on flat memory, from a zone with the same bytes. -/
theorem runActs_mirrors (fuel : Nat) (acts : List Act) : ∀ {hs : Heaps} {w : World} {f : Flat},
    w.Live B ram hs → (∀ act ∈ acts, act.Allowed B) → w.Mirrors f →
    (∃ hs' w', (runActs B (fuel + 2) hs acts).run w = .ok ((hs', (f.run acts).1), w') ∧
      w'.Live B ram hs' ∧ w'.Mirrors (f.run acts).2) ∨
    ∃ write v w' n, StuckAt B (fuel + 2) hs w f acts write v w' ∧
      (runActs B (fuel + 2) hs acts).run w = .error (shortagePanic w' write v n) := by
  induction acts with
  | nil =>
    intro hs w f h _ hm
    exact Or.inl ⟨hs, w, rfl, h, hm⟩
  | cons act acts ih =>
    intro hs w f h hz hm
    rcases Act.step_run h (hz act List.mem_cons_self) hm fuel with
      ⟨hs1, w1, hstep, hlive, hm1⟩ | ⟨write, v, n, htouch, hshort, hstep⟩
    · have hcons := runActs_cons hstep acts
      rcases ih hlive (fun a ha => hz a (List.mem_cons_of_mem _ ha)) hm1 with
        ⟨hs2, w2, hrun, hlive2, hm2⟩ | ⟨write, v, w2, n, hstuck, hrun⟩
      · refine Or.inl ⟨hs2, w2, ?_, hlive2, hm2⟩
        rw [hcons, Prog.bind_ok hrun, Prog.run_pure]
        rfl
      · refine Or.inr ⟨write, v, w2, n, hstuck.cons hstep, ?_⟩
        rw [hcons, Prog.bind_error hrun]
    · refine Or.inr ⟨write, v, w, n, ⟨[], act, acts, hs, rfl, htouch, rfl, hm, hshort⟩, ?_⟩
      rw [runActs, Prog.bind_error hstep]

end

end Kfs
