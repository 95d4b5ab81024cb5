import Kfs.Shell.Inspect

/-!
# The commands that touch the processor

`user` maps a page and drops it, `fault` and `panic` raise what they say, and `reboot` and `halt` do
not come back.  Each lemma says how its command ends in a running kernel.
-/

namespace Kfs.Shell

open Lib Mem Paging Machine Multiboot Idt

variable {B : Build} {ram : Ram} {hs : Heaps} {s t : Sys} {α : Type}

/-! ## `user` -/

/-- `t` is `s` with the machine `m` and more on the screen. -/
def Sys.Turns (s : Sys) (m : Machine) (t : Sys) : Prop :=
  t = { s with world := { s.world with machine := m }, calls := t.calls }

namespace Sys.Turns

variable {m m' : Machine}

theorem refl (s : Sys) : s.Turns s.world.machine s := rfl

theorem print (h : s.Turns m t) (lines : List String) : s.Turns m (t.print lines) := by
  rw [Turns, h]
  rfl

theorem call (h : s.Turns m t) {k : Kernel α} {a : α} (hk : k.run m = .ok (a, m')) :
    ∃ u, (Shell.call k).run t = .ok (a, u) ∧ s.Turns m' u := by
  have hm : t.world.machine = m := by rw [h]
  refine ⟨_, Sys.call_run (by rw [hm]; exact hk), ?_⟩
  rw [Turns, withMachine, h]

/-- The kernel goes on with the new machine. -/
theorem step (h : s.Turns m t) (hok : s.Ok B ram hs) (hm : m.Alive B ram hs)
    (hz : s.world.machine.SameZone m) : s.Step B ram hs t := by
  rw [h]
  exact ⟨⟨hok.live.withMachine hm, hok.heaps, hok.ram, hok.window⟩, rfl, hz, rfl⟩

end Sys.Turns

/-- The `user` command of the shell makes the calls of `UserRun`, and prints between them. -/
theorem cmdUser_turns {m m' : Machine} {r : Option UserReport} (h : UserRun m r m')
    (ht : s.Turns m t) : ∃ u, cmdUser.run t = .ok ((), u) ∧ s.Turns m' u := by
  cases h with
  | refused hfree hmap =>
    obtain ⟨t1, hrun1, ht1⟩ := ht.call hfree
    obtain ⟨t2, hrun2, ht2⟩ := ht1.call hmap
    refine ⟨_, ?_, ht2.print ["user: no free frame\n"]⟩
    rw [cmdUser, Prog.bind_ok hrun1, Prog.bind_ok hrun2]
    rfl
  | shown hfree hmap hpaged hstore hload hprotect hentry hrefuse hagain hleft =>
    rename_i s1 s2 s3 s4 s5 frame entry
    obtain ⟨t1, hrun1, ht1⟩ := ht.call hfree
    obtain ⟨t2, hrun2, ht2⟩ := ht1.call hmap
    have ht2' := ht2.print ["mapped " ++ hex USER_DEMO ++ " -> frame " ++ hex frame ++
      " in user space\n"]
    obtain ⟨d, _, hrun3⟩ := describeAll_run (s := t2.print ["mapped " ++ hex USER_DEMO ++
      " -> frame " ++ hex frame ++ " in user space\n"]) (by rw [ht2']; exact hpaged) USER_DEMO
    obtain ⟨t4, hrun4, ht4⟩ := (ht2'.print (d.lines USER_DEMO)).call hstore
    obtain ⟨t5, hrun5, ht5⟩ := ht4.call hload
    have ht5' := ht5.print ["wrote " ++ hex 0x42424242 ++ ", read back " ++ hex 0x42424242 ++ "\n"]
    obtain ⟨t6, hrun6, ht6⟩ := ht5'.call hprotect
    obtain ⟨t7, hrun7, ht7⟩ := ht6.call hentry
    have ht7' := (ht7.print ["now read only: table entry " ++ hex (entry.getD 0) ++ ", " ++
      rights (entry.getD 0) ++ "\n"]).print ["a user page in kernel space is refused:\n"]
    obtain ⟨t8, hrun8, ht8⟩ := ht7'.call hrefuse
    obtain ⟨t9, hrun9, ht9⟩ := ht8.call hagain
    obtain ⟨t10, hrun10, ht10⟩ := ht9.call hleft
    refine ⟨_, ?_, ht10.print ["unmapped " ++ hex USER_DEMO ++ ", translate says " ++
      "nothing there" ++ "\n"]⟩
    rw [cmdUser, Prog.bind_ok hrun1, Prog.bind_ok hrun2]
    dsimp only
    rw [Prog.bind_ok (printk_run _), Prog.bind_ok hrun3, Prog.bind_ok hrun4, Prog.bind_ok hrun5,
      Prog.bind_ok (printk_run _), Prog.bind_ok hrun6, Prog.bind_ok hrun7,
      Prog.bind_ok (printk_run _), Prog.bind_ok (printk_run _), Prog.bind_ok hrun8,
      Prog.bind_ok hrun9, Prog.bind_ok hrun10]
    rfl

theorem cmdUser_run (h : s.Ok B ram hs) : ∃ t, cmdUser.run s = .ok ((), t) ∧ s.Step B ram hs t := by
  obtain ⟨_, _, _, _, _, _, hi⟩ := h.live.machine.system
  obtain ⟨r, m, hsteps, _⟩ := cmdUser_on hi.kernel.inv.paged hi.user (Or.inr rfl)
  obtain ⟨hs', m', hop, halive, hzone⟩ := h.live.machine.op_run .user
  rw [Op.step, Prog.bind_ok hsteps.run] at hop
  cases hop
  obtain ⟨t, hrun, ht⟩ := cmdUser_turns hsteps (.refl s)
  exact ⟨t, hrun, ht.step h halive hzone⟩

/-! ## `fault` -/

theorem exec_ok {x : Exec α} {a : α} {w : World} (hx : x.run s.world = .ok (a, w)) :
    (exec x).run s = .ok (a, { s with world := w, calls := s.calls ++ reportCalls s.world w }) := by
  rw [exec]
  dsimp only
  rw [hx]

theorem exec_error {x : Exec α} {e : Halt} (hx : x.run s.world = .error e) :
    (exec x).run s = .error e := by
  rw [exec]
  dsimp only
  rw [hx]

/-- A step that may leave the address of another fault behind. -/
structure Sys.Kept (B : Build) (ram : Ram) (s : Sys) (hs : Heaps) (t : Sys) : Prop where
  ok : t.Ok B ram hs
  cpu : t.world.cpu = { s.world.cpu with cr2 := t.world.cpu.cr2 }
  zone : s.world.machine.SameZone t.world.machine
  controller : t.controller = s.controller

theorem Sys.Step.kept (h : s.Step B ram hs t) : s.Kept B ram hs t :=
  ⟨h.ok, by rw [h.cpu], h.zone, h.controller⟩

theorem Sys.Kept.trans {hs' : Heaps} {u : Sys} (h : s.Kept B ram hs t) (h' : t.Kept B ram hs' u) :
    s.Kept B ram hs' u :=
  ⟨h'.ok, by rw [h'.cpu, h.cpu], h.zone.trans h'.zone, h'.controller.trans h.controller⟩

/-- `fault demand`: the page has a frame in the end, or there are none. -/
theorem faultDemand_run (h : s.Ok B ram hs) (fuel : Nat) :
    (∃ x t, (exec (access B false (load32 DEMAND_BASE) (fuel + 2))).run s = .ok (x, t) ∧
      s.Kept B ram hs t) ∨
    s.world.machine.Short DEMAND_BASE ∧ ∃ n,
      (exec (access B false (load32 DEMAND_BASE) (fuel + 2))).run s
        = .error (shortagePanic s.world false DEMAND_BASE n) := by
  have hzone : DEMAND_BASE.toNat / 4096 ∈ zonePages := ⟨by decide, by decide⟩
  have hm : s.world.Mirrors ⟨s.world.cpu, s.world.machine.virt⟩ := ⟨rfl, fun _ _ => rfl⟩
  rcases access_zone h.live (oneAccess_load32 (by decide)) hzone hm fuel with
    ⟨w, x, m, e, hlive, hmirror, _, hload, hrun⟩ | ⟨hshort, n, hrun⟩
  · obtain rfl := load32_inv hload
    exact Or.inl ⟨x, _, exec_ok hrun, ⟨hlive, h.heaps, h.ram, h.window⟩, hmirror.cpu, hmirror.zone,
      rfl⟩
  · exact Or.inr ⟨hshort, n, exec_error hrun⟩

/-- The panic of a store to `v` that is refused. -/
def storePanic (w : World) (code v : U32) (oops : Nat) : Halt :=
  .panicked (faultLines (frameOf w 14 code) w.machine.cr0 v w.machine.cr3 oops)

/-- A store outside of the demand zone that the tables refuse. -/
theorem store_refused (h : s.Ok B ram hs) {v : U32} (hv : v.toNat % 4 = 0)
    (hdemand : ¬(DEMAND_BASE ≤ v ∧ v < DEMAND_END)) (hallow : ¬s.world.machine.Allows true v)
    (x : U32) (fuel : Nat) :
    ∃ n, (exec (access B true (store32 v x) (fuel + 2))).run s
      = .error (storePanic s.world (pageFaultCode s.world.machine true v) v n) := by
  rcases access_cases h.live (oneAccess_store32 hv x) fuel with
    ⟨hyes, _⟩ | ⟨_, hserve, _⟩ | ⟨_, _, n, hrun⟩
  · exact absurd hyes hallow
  · exact absurd ⟨hserve.2.1, hserve.2.2.1⟩ hdemand
  · exact ⟨n, exec_error hrun⟩

/-- The code of the kernel may not be written. -/
theorem code_page (h : s.Ok B ram hs) : ∃ e,
    s.world.machine.leaf (B.layout.image.start.toNat / 4096) = some e ∧ writable e = false ∧
      s.world.machine.writeProtect = true := by
  obtain ⟨_, _, _, _, _, h0, hi⟩ := h.live.machine.system
  obtain ⟨_, hread, hend⟩ := h0.fits.code_addr
  have hstart := B.layout.start_ge
  have hal := B.start_aligned
  have hisr := B.isr_rodata
  obtain ⟨j, hj⟩ : ∃ j, B.layout.image.start.toNat / 4096 = 0xC0000 + j :=
    ⟨B.layout.image.start.toNat / 4096 - 0xC0000, by omega⟩
  obtain ⟨_, _, hrange⟩ := kernelEntry_bits B.layout.image (j := j) (by omega)
  refine ⟨kernelEntry B.layout.image j, ?_, ?_, ?_⟩
  · rw [hi.confined.leaf _ (by omega) ?_, hj, h0.tables.leaf_kernel (by omega)]
    rintro ((hm | hm) | hm)
    · rw [mem_kernelPages] at hm
      omega
    · rw [mem_virtualPages] at hm
      omega
    · rw [mem_userPages] at hm
      omega
  · exact Bool.eq_false_iff.mpr fun hw => hrange hw ⟨by omega, by omega⟩
  · rw [writeProtect, hi.confined.cr0]
    exact h0.tables.writeProtect

/-- `fault ro`. -/
theorem faultRo_run (h : s.Ok B ram hs) (fuel : Nat) :
    ∃ n, (exec (access B true (store32 B.layout.image.start 0) (fuel + 2))).run s
      = .error (storePanic s.world 3 B.layout.image.start n) := by
  obtain ⟨e, hleaf, hro, hwp⟩ := code_page h
  have hal := B.start_aligned
  have hstart := B.layout.start_ge
  have hdemand : ¬(DEMAND_BASE ≤ B.layout.image.start ∧ B.layout.image.start < DEMAND_END) := by
    bv_omega
  have hwalk := walk_of_leaf hleaf
  have hallow : ¬s.world.machine.Allows true B.layout.image.start := by
    rintro ⟨a, ha⟩
    rw [resolve] at ha
    dsimp only at ha
    rw [hwalk] at ha
    dsimp only at ha
    rw [if_pos ⟨rfl, hwp, by rw [hro]; simp⟩] at ha
    cases ha
  have hcode : pageFaultCode s.world.machine true B.layout.image.start = 3 := by
    rw [pageFaultCode, hwalk, Option.isSome_some, if_pos rfl, if_pos rfl]
    decide
  obtain ⟨n, hrun⟩ := store_refused h (by omega) hdemand hallow 0 fuel
  rw [hcode] at hrun
  exact ⟨n, hrun⟩

/-- `fault kernel`, as long as the kernel's heap does not reach that far. -/
theorem faultKernel_run (h : s.Ok B ram hs) (hlow : hs.kernel.heap.brk.toNat ≤ 0xD1800000)
    (fuel : Nat) :
    ∃ n, (exec (access B true (store32 (KHEAP_BASE + 0x01800000) 0) (fuel + 2))).run s
      = .error (storePanic s.world 2 (KHEAP_BASE + 0x01800000) n) := by
  obtain ⟨_, _, _, _, _, h0, hi⟩ := h.live.machine.system
  obtain ⟨_, hlimit, _⟩ := h.live.machine.kernel_block
  have hnone : s.world.machine.leaf ((KHEAP_BASE + 0x01800000).toNat / 4096) = none := by
    refine hi.kernel_clear _ ?_ ?_
    · rw [show (KHEAP_BASE + 0x01800000).toNat = 0xD1800000 from rfl]
      omega
    · rw [hlimit]
      decide
  have hallow : ¬s.world.machine.Allows true (KHEAP_BASE + 0x01800000) := fun hyes => by
    obtain ⟨e, he⟩ := hyes.leaf
    rw [hnone] at he
    cases he
  obtain ⟨n, hrun⟩ := store_refused h (v := KHEAP_BASE + 0x01800000) (by decide) (by decide) hallow
    0 fuel
  refine ⟨n, ?_⟩
  rw [hrun, pageFaultCode_unmapped hnone]
  rfl

/-! ## `reboot` -/

/-- An answer of port 0x64 that lets a command through. -/
def accepts (b : U8) : Bool := b &&& 2 = 0

/-- With the null table every exception ends in a shutdown. -/
theorem exception_null {w : World} (hidt : w.cpu.idtr.limit = 0) :
    (exception B 3 none).run w = .error .shutdown := by
  have henter : ∀ v error, (enter v error).run w
      = .ok (some (GENERAL_PROTECTION, BitVec.ofNat 32 (8 * v + 2)), w) := by
    intro v error
    rw [enter, getCpu, Prog.bind_ok (Prog.run_gets _ _), hidt]
    dsimp only
    rw [if_pos (by rw [show (0 : U16).toNat = 0 from rfl]; omega), Prog.run_pure]
  have hraise : (raise 3 none).run w = .error .shutdown := by
    rw [raise, raiseFrom, Prog.bind_ok (henter 3 none)]
    dsimp only [escalate]
    rw [if_neg (by decide), if_neg (by decide)]
    dsimp only
    rw [raiseFrom, Prog.bind_ok (henter _ _)]
    dsimp only [escalate]
    rw [if_neg (by decide), if_pos (by decide)]
    dsimp only
    rw [raiseFrom, Prog.bind_ok (henter _ _)]
    dsimp only [escalate]
    rw [if_pos rfl]
    rfl
  rw [exception, Prog.bind_error hraise]

/-- How often the controller is ready for a command. -/
def Controller.ready (c : Controller) : Nat := (c.status.filter accepts).length

/-- The rest of a list from its first `p` on, and how many there are. -/
theorem dropWhile_filter {p : α → Bool} (l : List α) :
    (l.filter p).length = 0 ∧ (l.dropWhile fun b => !p b) = [] ∨
      ∃ b rest, (l.dropWhile fun b => !p b) = b :: rest ∧
        (l.filter p).length = (rest.filter p).length + 1 := by
  induction l with
  | nil => exact Or.inl ⟨rfl, rfl⟩
  | cons b l ih =>
    rw [List.filter_cons, List.dropWhile_cons]
    cases hb : p b with
    | true => exact Or.inr ⟨b, l, rfl, rfl⟩
    | false => exact ih

theorem ready_cases (c : Controller) :
    c.ready = 0 ∧ (c.status.dropWhile fun b => b &&& 2 ≠ 0) = [] ∨
      ∃ b rest, (c.status.dropWhile fun b => b &&& 2 ≠ 0) = b :: rest ∧
        c.ready = (Controller.mk rest c.obeys).ready + 1 := by
  have hbusy : (fun b : U8 => decide (b &&& 2 ≠ 0)) = fun b => !accepts b := by
    funext b
    rw [accepts, decide_not]
  rw [hbusy]
  exact dropWhile_filter c.status

theorem pulse_run (s : Sys) : pulse.run s
    = if s.controller.obeys = true then .error .reset else .ok ((), s) := by
  rw [pulse, Prog.bind_ok (Prog.run_gets _ _), id]
  split <;> rfl

/-- The loop of `reboot`: the first pulse resets the machine, or none does. -/
theorem pulses_run (n : Nat) : ∀ (lo : Nat) (s : Sys),
    (s.controller.ready < n ∧ (s.controller.obeys = true → s.controller.ready = 0) →
      (Prog.forRange (fun _ => do waitInput; pulse) lo n).run s = .error (.stopped .spins)) ∧
    (s.controller.obeys = true → 0 < n → 0 < s.controller.ready →
      (Prog.forRange (fun _ => do waitInput; pulse) lo n).run s = .error .reset) ∧
    (s.controller.obeys = false → n ≤ s.controller.ready →
      ∃ t, (Prog.forRange (fun _ => do waitInput; pulse) lo n).run s = .ok ((), t)) := by
  induction n with
  | zero =>
    exact fun lo s => ⟨fun h => absurd h.1 (Nat.not_lt_zero _), fun _ h => absurd h (by decide),
      fun _ _ => ⟨s, rfl⟩⟩
  | succ n ih =>
    intro lo s
    rcases ready_cases s.controller with ⟨hzero, hdrop⟩ | ⟨b, rest, hdrop, hready⟩
    · have hwait : waitInput.run s = .error (.stopped .spins) := by
        rw [waitInput]
        dsimp only
        rw [hdrop]
      rw [Prog.forRange, Prog.bind_error (Prog.bind_error hwait)]
      exact ⟨fun _ => rfl, fun _ _ h => by omega, fun _ h => by omega⟩
    · have hwait : waitInput.run s
          = .ok ((), { s with controller := ⟨rest, s.controller.obeys⟩ }) := by
        rw [waitInput]
        dsimp only
        rw [hdrop]
      obtain ⟨hspins, _, hthrough⟩ :=
        ih (lo + 1) { s with controller := ⟨rest, s.controller.obeys⟩ }
      dsimp only at hspins hthrough
      cases hobeys : s.controller.obeys with
      | true =>
        have hpass : (do waitInput; pulse : Cmd Unit).run s = .error .reset := by
          rw [Prog.bind_ok hwait, pulse_run, if_pos hobeys]
        rw [Prog.forRange, Prog.bind_error hpass]
        exact ⟨fun h => by have := h.2 rfl; omega, fun _ _ _ => rfl, fun h => by cases h⟩
      | false =>
        have hpass : (do waitInput; pulse : Cmd Unit).run s
            = .ok ((), { s with controller := ⟨rest, s.controller.obeys⟩ }) := by
          rw [Prog.bind_ok hwait, pulse_run, if_neg (by rw [hobeys]; decide)]
        rw [Prog.forRange, Prog.bind_ok hpass]
        exact ⟨fun h => hspins ⟨by omega, fun h' => by rw [hobeys] at h'; cases h'⟩,
          fun h => (by cases h), fun _ h => hthrough hobeys (by omega)⟩

/-- How `reboot` ends with a controller: a reset, if it obeys, and a triple fault, if it does not
but takes the ten commands.  One that stays busy is waited for. -/
def Controller.rebooted (c : Controller) : Halt :=
  if c.ready = 0 then .stopped .spins
  else if c.obeys then .reset
  else if c.ready < 10 then .stopped .spins
  else .shutdown

/-- `reboot` never comes back, and never gets to the `halt` at its end. -/
theorem cmdReboot_run (s : Sys) : (cmdReboot B).run s = .error s.controller.rebooted := by
  obtain ⟨hspins, hreset, hthrough⟩ := pulses_run 10 0 (s.print ["rebooting\n"])
  rw [cmdReboot, Prog.bind_ok (printk_run _), Controller.rebooted]
  have hc : (s.print ["rebooting\n"]).controller = s.controller := rfl
  rw [hc] at hspins hreset hthrough
  split
  · rename_i hzero
    exact Prog.bind_error (hspins ⟨by omega, fun _ => hzero⟩)
  · rename_i hready
    split
    · rename_i hobeys
      exact Prog.bind_error (hreset hobeys (by decide) (by omega))
    · rename_i hobeys
      split
      · rename_i hfew
        exact Prog.bind_error (hspins ⟨hfew, fun h => absurd h hobeys⟩)
      · rename_i hmany
        obtain ⟨t, hloop⟩ := hthrough (by simpa using hobeys) (by omega)
        rw [Prog.bind_ok hloop, Prog.bind_ok (exec_ok (w := { t.world with
          cpu := { t.world.cpu with idtr := { limit := 0, base := 0 } } }) rfl)]
        exact Prog.bind_error (exec_error (exception_null rfl))

end Kfs.Shell
