import Kfs.Shell.Session

/-!
# What the commands report

The results here are about every state in which a prompt is on the screen: after a boot whose block
for the kernel's heap is `NoWrap`, and after any keys that led back to it.

* `alloc_verdict`: the self-test passes, or complains about a heap that cannot get another page.
* `looking_changes_nothing`: seven commands change the screen only.
* `virt_shows`: `virt` shows the walk of the hardware.
* `mem_reports_empty`: nothing is left allocated.
* `reboot_never_returns` is about any state at all.
-/

namespace Kfs.Shell

open Lib Mem Paging Machine Multiboot Idt Keyboard Vga

/-- A prompt is on the screen of a kernel that was booted, with a block for its heap that it cannot
wrap around from, and used. -/
structure AtPrompt (B : Build) (ram : Ram) (t : Terminal) : Prop where
  history : ∃ w0 hs w c v fuel keys, B.Loaded w0.machine ∧
    (start B).run w0 = .ok ((ram, hs), w) ∧ hs.NoWrap ∧
    (Terminal.run B (fuel + 2) keys).run (Terminal.start ram hs w c v) = .ok ((), t)

variable {B : Build} {ram : Ram} {t : Terminal} {line : List Char}

theorem AtPrompt.ok (h : AtPrompt B ram t) : ∃ hs, t.sys.Ok B ram hs ∧ Idle hs := by
  obtain ⟨w0, hs, w, c, v, fuel, keys, hload, hboot, hw, hrun⟩ := h.history
  have hall := Terminal.run_wp (start_back hload hboot hw c v) fuel keys
  rw [Prog.wp_ok hrun] at hall
  obtain ⟨hs', hkept, hidle⟩ := hall
  exact ⟨hs', hkept.ok, hidle⟩

/-- The first prompt after the boot of a plain machine. -/
theorem exists_atPrompt_plain : ∃ t, AtPrompt smallBuild (ramOf plainEntries) t ∧
    t.sys.virtual.brk = VMALLOC_BASE := by
  obtain ⟨hs, w, hboot, hend⟩ := exists_start_plain
  obtain ⟨_, h0⟩ := (start_up smallWorld_loaded hboot).booted.start
  refine ⟨Terminal.start (ramOf plainEntries) hs w ⟨[], true⟩
    (Display.boot (fun _ => 0) ⟨0, fun _ => 0⟩), ⟨_, hs, w, _, _, 0, [],
    smallWorld_loaded, hboot, Or.inl hend, rfl⟩, ?_⟩
  show hs.virtual.heap.brk = _
  rw [h0.heaps]
  rfl

/-! ## `alloc` -/

/-- The complaints of the self-test in a kernel of which only the shell allocates, and the heap that
each is about. -/
def SHORTAGES : List (String × Side) :=
  [("kmalloc(64) returned nothing", .kernel), ("vmalloc(12288) returned nothing", .virtual),
    ("vbrk could not grow the vmalloc area", .virtual),
    ("vbrk could not give the pages back", .virtual)]

theorem Verdict.outcome {hs hs' : Heaps} {m : Machine} {r : Tested Unit} (h : Verdict hs hs' m r)
    (hnever : ∀ why ∈ NEVER, r ≠ .error why) :
    r = .ok ((), 14) ∨ ∃ why ∈ SHORTAGES, r = .error why.1 ∧ Starved hs' m why.2 := by
  cases h with
  | passed _ => exact Or.inl rfl
  | @short why hwhy _ hstarved =>
    refine Or.inr ⟨why, ?_, rfl, hstarved⟩
    have hkbrk : why ≠ ("kbrk could not grow the heap", .kernel) := fun heq =>
      hnever _ (by simp [NEVER]) (congrArg (fun w : String × Side => Except.error w.1) heq)
    simp only [LATER, SHORTAGES, List.mem_cons] at hwhy ⊢
    tauto
  | leaked _ _ _ => exact absurd rfl (hnever _ (by simp [NEVER]))

/-- At every prompt the self-test makes its fourteen checks, or ends with a complaint about a heap
that cannot get another page.  Either way it leaves both heaps empty, and the virtual heap at most
six pages larger. -/
theorem alloc_verdict (h : AtPrompt B ram t) (hline : (parse line).1 = "alloc".toList)
    (fuel : Nat) :
    ∃ (r : Tested Unit) (u : Sys) (hs : Heaps),
      (dispatch B fuel line).run t.sys = .ok ((), u.print [verdictLine r]) ∧ u.Ok B ram hs ∧
      Idle hs ∧ hs.virtual.heap.brk.toNat ≤ t.sys.virtual.brk.toNat + 0x6000 ∧
      (r = .ok ((), 14) ∨
        ∃ why ∈ SHORTAGES, r = .error why.1 ∧ Starved hs u.world.machine why.2) := by
  obtain ⟨hs, hok, hidle⟩ := h.ok
  obtain ⟨r, u, hs', hrun, hstep, _, hbrk, hverdict, hkeeps⟩ := cmdAlloc_run hok
  obtain ⟨hidle', hnever⟩ := hkeeps hidle
  rw [← show t.sys.virtual = hs.virtual.heap from hok.heaps .virtual] at hbrk
  exact ⟨r, u, hs', by rw [dispatch_named .alloc hline]; exact hrun, hstep.ok, hidle', hbrk,
    hverdict.outcome hnever⟩

/-- The plain machine has pages for both heaps. -/
theorem not_starved_plain {s : Sys} {hs : Heaps} (h : s.Ok smallBuild (ramOf plainEntries) hs)
    (hidle : Idle hs) (hfew : hs.virtual.heap.brk.toNat ≤ 0xE0010000) (side : Side) :
    ¬Starved hs s.world.machine side := by
  obtain ⟨_, _, _, _, _, h0, hi⟩ := h.live.machine.system
  have hlow := hidle.low
  intro hzero
  have hone : (hs.of side).heap.offered s.world.machine.supply 1 = 1 := by
    cases side with
    | kernel => exact hi.offered_kernel_plain h0 (by omega) (by omega)
    | virtual => exact hi.offered_virtual_plain h0 (by omega)
  rw [Starved, hone] at hzero
  cases hzero

/-- The first self-test of the plain machine passes. -/
theorem alloc_verdict_plain : ∃ t, AtPrompt smallBuild (ramOf plainEntries) t ∧
    (parse " alloc ".toList).1 = "alloc".toList ∧
    ∃ u : Sys, (dispatch smallBuild 2 " alloc ".toList).run t.sys
      = .ok ((), u.print ["alloc: 14 checks passed\n"]) := by
  obtain ⟨t, ht, hbase⟩ := exists_atPrompt_plain
  have hline : (parse " alloc ".toList).1 = "alloc".toList := by decide
  obtain ⟨r, u, hs, hrun, hok, hidle, hbrk, rfl | ⟨why, _, _, hstarved⟩⟩ := alloc_verdict ht hline 2
  · exact ⟨t, ht, hline, u, hrun⟩
  · refine absurd hstarved (not_starved_plain hok hidle ?_ why.2)
    rw [hbase, show VMALLOC_BASE.toNat = 0xE0000000 from rfl] at hbrk
    omega

/-! ## The commands that look -/

/-- At every prompt the commands that look return and leave everything but the screen. -/
theorem looking_changes_nothing (h : AtPrompt B ram t) {c : Command} (hc : c.Looks)
    (hline : (parse line).1 = c.name.toList) (fuel : Nat) :
    ∃ lines, (dispatch B fuel line).run t.sys = .ok ((), t.sys.print lines) := by
  obtain ⟨hs, hok, _⟩ := h.ok
  rw [dispatch_named c hline]
  exact hc.run hok fuel _

theorem looking_changes_nothing_stack : ∃ t, AtPrompt smallBuild (ramOf plainEntries) t ∧
    (parse "stack".toList).1 = "stack".toList ∧
    ∃ lines, (dispatch smallBuild 2 "stack".toList).run t.sys = .ok ((), t.sys.print lines) := by
  obtain ⟨t, ht, _⟩ := exists_atPrompt_plain
  have hline : (parse "stack".toList).1 = "stack".toList := by decide
  obtain ⟨lines, hrun⟩ := looking_changes_nothing ht (c := .stack) trivial hline 2
  exact ⟨t, ht, hline, lines, hrun⟩

/-- At every prompt `virt` reads as the walk of the hardware.  Without an argument it lists seven
addresses, each with the physical address and the rights that the processor finds; with an address
it shows the entries on the way, and the physical address that they lead to. -/
theorem virt_shows (h : AtPrompt B ram t) (hline : (parse line).1 = "virt".toList) (fuel : Nat) :
    ∃ lines, (dispatch B fuel line).run t.sys = .ok ((), t.sys.print lines) ∧
      ((parse line).2 = [] → lines.flatMap Klib.tokens = Klib.tokens virtHeading ++
        (LANDMARKS B).flatMap (summaryReading t.sys.world.machine) ++ Klib.tokens virtHint) ∧
      ∀ addr, Klib.parseU32 (parse line).2 = some addr →
        ∃ d : Description, d.Shows t.sys.world.machine addr ∧ lines = d.lines addr ∧
          lines.flatMap Klib.tokens = addrReading addr ++ descriptionReading d := by
  obtain ⟨hs, hok, _⟩ := h.ok
  obtain ⟨lines, hrun, hlist, hwalk⟩ := cmdVirt_run (B := B) hok.live.machine.paged (parse line).2
  refine ⟨lines, by rw [dispatch_named .virt hline]; exact hrun, fun hnil => ?_,
    fun addr haddr => ?_⟩
  · rw [hlist hnil, landmarks_reading]
  · have hargs : (parse line).2 ≠ [] := fun hnil => by
      rw [hnil, show Klib.parseU32 [] = none from by decide] at haddr
      cases haddr
    obtain ⟨d, hshows, rfl⟩ := hwalk addr hargs haddr
    exact ⟨d, hshows, rfl, lines_reading addr d⟩

theorem virt_shows_screen : ∃ t, AtPrompt smallBuild (ramOf plainEntries) t ∧
    (parse "virt 0xb8000".toList).1 = "virt".toList ∧
    Klib.parseU32 (parse "virt 0xb8000".toList).2 = some 0xB8000 ∧
    ∃ d : Description, d.Shows t.sys.world.machine 0xB8000 ∧
      (dispatch smallBuild 2 "virt 0xb8000".toList).run t.sys
        = .ok ((), t.sys.print (d.lines 0xB8000)) := by
  obtain ⟨t, ht, _⟩ := exists_atPrompt_plain
  have hline : (parse "virt 0xb8000".toList).1 = "virt".toList := by decide
  have haddr : Klib.parseU32 (parse "virt 0xb8000".toList).2 = some 0xB8000 := by decide
  obtain ⟨lines, hrun, _, hwalk⟩ := virt_shows ht hline 2
  obtain ⟨d, hshows, rfl, _⟩ := hwalk _ haddr
  exact ⟨t, ht, hline, haddr, d, hshows, hrun⟩

/-- The account of a heap that nobody uses. -/
theorem ledger_empty {c : Heap.Client} {m : Machine} {st : Heap.Stats} (h : c.Ledger m st)
    (hc : c.live = []) : st.used = 0 ∧ st.live = 0 ∧
      st.free.toNat + 8 * st.blocks.toNat = c.heap.brk.toNat - c.heap.base.toNat := by
  have hused := h.used
  have hlive := h.live
  have htotal := h.total
  rw [Heap.Client.bytes, hc, List.map_nil, List.sum_nil] at hused
  rw [hc, List.length_nil] at hlive
  exact ⟨BitVec.eq_of_toNat_eq hused, BitVec.eq_of_toNat_eq hlive, by omega⟩

/-- At every prompt `mem` reports two heaps without a byte in use, whatever was run before.
`memReading` says where each number stands in its lines. -/
theorem mem_reports_empty (h : AtPrompt B ram t) (hline : (parse line).1 = "mem".toList)
    (fuel : Nat) :
    ∃ kernel virtual, (dispatch B fuel line).run t.sys
        = .ok ((), t.sys.print (memLines B t.sys kernel virtual)) ∧
      (memLines B t.sys kernel virtual).flatMap Klib.tokens = memReading B t.sys kernel virtual ∧
      kernel.used = 0 ∧ kernel.live = 0 ∧ virtual.used = 0 ∧ virtual.live = 0 ∧
      kernel.free.toNat + 8 * kernel.blocks.toNat
        = t.sys.kernel.brk.toNat - t.sys.kernel.base.toNat ∧
      virtual.free.toNat + 8 * virtual.blocks.toNat
        = t.sys.virtual.brk.toNat - t.sys.virtual.base.toNat := by
  obtain ⟨hs, hok, hidle⟩ := h.ok
  obtain ⟨kernel, virtual, hk, hv, hrun⟩ := cmdMem_run hok
  obtain ⟨hkused, hklive, hktotal⟩ := ledger_empty hk hidle.kernel
  obtain ⟨hvused, hvlive, hvtotal⟩ := ledger_empty hv hidle.virtual
  rw [← show t.sys.kernel = hs.kernel.heap from hok.heaps .kernel] at hktotal
  rw [← show t.sys.virtual = hs.virtual.heap from hok.heaps .virtual] at hvtotal
  exact ⟨kernel, virtual, by rw [dispatch_named .mem hline]; exact hrun,
    memLines_reading B t.sys kernel virtual, hkused, hklive, hvused, hvlive, hktotal, hvtotal⟩

theorem mem_reports_empty_plain : ∃ t, AtPrompt smallBuild (ramOf plainEntries) t ∧
    (parse "mem".toList).1 = "mem".toList ∧
    ∃ kernel virtual, (dispatch smallBuild 2 "mem".toList).run t.sys
        = .ok ((), t.sys.print (memLines smallBuild t.sys kernel virtual)) ∧
      kernel.used = 0 ∧ virtual.used = 0 := by
  obtain ⟨t, ht, _⟩ := exists_atPrompt_plain
  have hline : (parse "mem".toList).1 = "mem".toList := by decide
  obtain ⟨kernel, virtual, hrun, _, hk, _, hv, _⟩ := mem_reports_empty ht hline 2
  exact ⟨t, ht, hline, kernel, virtual, hrun, hk, hv⟩

/-! ## `reboot` -/

/-- From any state at all `reboot` does not come back, and it never gets to the `halt` at its end:
the controller resets the machine at the first command it takes, or the machine shuts down after ten
that had no effect.  Only a controller that stays busy is waited for. -/
theorem reboot_never_returns (hline : (parse line).1 = "reboot".toList) (s : Sys) (fuel : Nat) :
    ∃ halt, (dispatch B fuel line).run s = .error halt ∧
      (halt = .reset ↔ s.controller.obeys = true ∧ 0 < s.controller.ready) ∧
      (halt = .shutdown ↔ s.controller.obeys = false ∧ 10 ≤ s.controller.ready) ∧
      (halt ≠ .reset → halt ≠ .shutdown → halt = .stopped .spins ∧ s.controller.ready < 10) := by
  refine ⟨s.controller.rebooted, by rw [dispatch_named .reboot hline]; exact cmdReboot_run s, ?_⟩
  unfold Controller.rebooted
  split_ifs with hready hobeys hfew
  · simp [hready]
  · simpa [hobeys] using Nat.pos_of_ne_zero hready
  · simp [hobeys, hfew]
  · simpa [hobeys] using hfew

/-- A controller that is busy twice and then resets the machine. -/
theorem reboot_never_returns_plain : (parse "reboot".toList).1 = "reboot".toList ∧
    ∀ s : Sys, s.controller = ⟨[2, 2, 0], true⟩ →
      (dispatch smallBuild 2 "reboot".toList).run s = .error .reset := by
  have hline : (parse "reboot".toList).1 = "reboot".toList := by decide
  refine ⟨hline, fun s hs => ?_⟩
  obtain ⟨halt, hrun, hreset, _⟩ := reboot_never_returns (B := smallBuild) hline s 2
  rw [hrun, hreset.mpr (by rw [hs]; decide)]

end Kfs.Shell
