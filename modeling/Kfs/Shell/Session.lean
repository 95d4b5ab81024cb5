import Kfs.Kmain.Runs
import Kfs.Lib.Wp
import Kfs.Shell.Ends
import Kfs.Shell.ReadLine
import Kfs.Shell.SelfTest

/-!
# Sessions

`Terminal` is the loop of `run`: the line editor with the screen, and the kernel that the lines are
dispatched to.  A line of a running kernel comes back to the prompt with the kernel as sound as
before, or it is one of those in `Ending`, which stop the processor on purpose.  `dispatch_wp` is
this for one line, and `Terminal.run_wp` for every sequence of keys.  `session_survives` begins with
the boot; the block that it found for the kernel's heap must be `NoWrap`.
-/

namespace Kfs.Shell

open Lib Lib.Prog Mem Paging Machine Multiboot Idt Keyboard Vga

/-- The lines after which the prompt does not come back, and how the processor stops. -/
inductive Ending (B : Build) (w : World) (c : Controller) :
    List Char → List Char → Halt → Prop where
  | fatal : Ending B w c "panic".toList "fatal".toList
      (.panicked ["\nKERNEL PANIC: the shell asked for a panic with no way back\n",
        machineLine w.machine.cr0 w.cpu.cr2 w.machine.cr3 (oopsCount w)])
  | short {args : List Char} (hargs : args = [] ∨ args = "demand".toList)
      (hshort : w.machine.Short DEMAND_BASE) (n : Nat) :
      Ending B w c "fault".toList args (shortagePanic w false DEMAND_BASE n)
  | code (n : Nat) : Ending B w c "fault".toList "ro".toList (storePanic w 3 B.layout.image.start n)
  | unmapped (n : Nat) : Ending B w c "fault".toList "kernel".toList
      (storePanic w 2 (KHEAP_BASE + 0x01800000) n)
  | reboot (args : List Char) : Ending B w c "reboot".toList args c.rebooted
  | halt (args : List Char) : Ending B w c "halt".toList args .halted

variable {B : Build} {ram : Ram} {hs : Heaps} {s : Sys}

/-- The prompt comes back, with nothing left allocated. -/
def Back (B : Build) (ram : Ram) (s t : Sys) : Prop := ∃ hs, s.Kept B ram hs t ∧ Idle hs

theorem Sys.Step.back {t : Sys} (h : s.Step B ram hs t) (hidle : Idle hs) : Back B ram s t :=
  ⟨hs, h.kept, hidle⟩

theorem cmdFault_wp (h : s.Ok B ram hs) (hidle : Idle hs) (fuel : Nat) (args : List Char) :
    (cmdFault B (fuel + 2) args).wp (fun _ => Back B ram s)
      (Ending B s.world s.controller "fault".toList args) s := by
  rw [cmdFault]
  have hprint := fun line => h.print [line]
  split
  · rename_i hargs
    simp only [wp_bind]
    rw [wp_ok (printk_run _)]
    rcases faultDemand_run (hprint _).ok fuel with ⟨x, t, hrun, hkept⟩ | ⟨hshort, n, hrun⟩
    · rw [wp_ok hrun, wp_ok (printk_run _)]
      exact ⟨hs, ((hprint _).kept.trans hkept).trans (hkept.ok.print _).kept, hidle⟩
    · rw [wp_error hrun]
      exact .short hargs hshort n
  · split
    · rename_i hargs
      obtain ⟨n, hrun⟩ := faultRo_run (hprint _).ok fuel
      rw [wp_bind, wp_ok (printk_run _), wp_error hrun, hargs]
      exact .code n
    · split
      · rename_i hargs
        have hlow := hidle.low
        obtain ⟨n, hrun⟩ := faultKernel_run (hprint _).ok (by omega) fuel
        rw [wp_bind, wp_ok (printk_run _), wp_error hrun, hargs]
        exact .unmapped n
      · rw [wp_ok (printk_run _)]
        exact (hprint _).back hidle

theorem cmdPanic_wp (h : s.Ok B ram hs) (hidle : Idle hs) (args : List Char) :
    (cmdPanic args).wp (fun _ => Back B ram s)
      (Ending B s.world s.controller "panic".toList args) s := by
  rw [cmdPanic]
  split
  · rw [Shell.koops, wp_ok (exec_ok rfl)]
    exact ⟨hs, ⟨⟨⟨h.live.machine, h.live.idtr, h.live.gdtr, h.live.aligned, h.live.room,
      h.live.top⟩, h.heaps, h.ram, h.window⟩, rfl, .refl _, rfl⟩, hidle⟩
  · split
    · rename_i hargs
      rw [kpanic, wp_bind, wp_gets, wp_stop, hargs]
      exact .fatal
    · rw [wp_ok (printk_run _)]
      exact (h.print _).back hidle

theorem command_wp (h : s.Ok B ram hs) (hidle : Idle hs) (fuel : Nat) (c : Command)
    (args : List Char) :
    (c.run B (fuel + 2) args).wp (fun _ => Back B ram s)
      (Ending B s.world s.controller c.name.toList args) s := by
  have hlook : c.Looks → (c.run B (fuel + 2) args).wp (fun _ => Back B ram s)
      (Ending B s.world s.controller c.name.toList args) s := by
    intro hc
    obtain ⟨lines, hrun⟩ := hc.run h (fuel + 2) args
    rw [wp_ok hrun]
    exact (h.print lines).back hidle
  cases c with
  | alloc =>
    obtain ⟨r, t, hs', hrun, hstep, _, _, _, hkeeps⟩ := cmdAlloc_run h
    exact (wp_ok hrun).mpr ((hstep.trans (hstep.ok.print _)).back (hkeeps hidle).1)
  | user =>
    obtain ⟨t, hrun, hstep⟩ := cmdUser_run h
    exact (wp_ok hrun).mpr (hstep.back hidle)
  | fault => exact cmdFault_wp h hidle fuel args
  | panic => exact cmdPanic_wp h hidle args
  | clear =>
    obtain ⟨t, hrun, hstep, _⟩ := h.say [.clear]
    exact (wp_ok hrun).mpr (hstep.back hidle)
  | reboot => exact (wp_error (cmdReboot_run s)).mpr (.reboot args)
  | halt =>
    show cmdHalt.wp _ _ s
    rw [cmdHalt, wp_bind, wp_ok (printk_run _), wp_stop]
    exact .halt args
  | _ => exact hlook trivial

/-- One line. -/
theorem dispatch_wp (h : s.Ok B ram hs) (hidle : Idle hs) (fuel : Nat) (line : List Char) :
    (dispatch B (fuel + 2) line).wp (fun _ => Back B ram s)
      (Ending B s.world s.controller (parse line).1 (parse line).2) s := by
  rw [dispatch]
  dsimp only
  split
  · exact wp_pure.mpr (h.refl.back hidle)
  · split
    · rename_i c hc
      have hname := List.find?_some hc
      rw [beq_iff_eq] at hname
      rw [← hname]
      exact command_wp h hidle fuel c _
    · rw [wp_ok (printk_run _)]
      exact (h.print _).back hidle

/-- The table has each command under its name. -/
theorem dispatch_named {line : List Char} (c : Command) (hline : (parse line).1 = c.name.toList)
    (fuel : Nat) : dispatch B fuel line = c.run B fuel (parse line).2 := by
  have hfind : CMDS.find? (fun d => d.name.toList == c.name.toList) = some c := by
    cases c <;> decide
  have hne : c.name.toList ≠ [] := by cases c <;> decide
  rw [dispatch]
  dsimp only
  rw [hline, if_neg hne, hfind]

/-! ## The loop of `run` -/

/-- The line editor with the screen, and the kernel. -/
structure Terminal where
  console : Console
  sys : Sys

/-- The keys of a line, and Enter. -/
def typed (text : List U8) : List (Option Key) :=
  text.map (fun b => some (.char b)) ++ [some (.char 0x0A)]

namespace Terminal

/-- The line as `dispatch` gets it: the keyboard sends ASCII. -/
def chars (line : List U8) : List Char := line.map fun b => Char.ofNat b.toNat

/-- One poll of the keyboard.  After Enter the line is dispatched, and what it prints goes to the
screen. -/
def step (B : Build) (fuel : Nat) (key : Option Key) : Prog Terminal Halt Unit where
  run t :=
    match pass t.console.editor key with
    | .again e => .ok ((), { t with console := { t.console with editor := e } })
    | .done e =>
      match (dispatch B fuel (chars e.line)).run { t.sys with calls := [] } with
      | .error halt => .error halt
      | .ok (_, s) => .ok ((),
        { console :=
            { editor :=
                { buf := e.buf
                  n := 0
                  display := prompt (e.display.run (s.calls.map Call.op)) }
              lines := t.console.lines + 1 }
          sys := s })

/-- The polls of a session. -/
def run (B : Build) (fuel : Nat) (keys : List (Option Key)) : Prog Terminal Halt Unit :=
  Prog.runAll (step B fuel) keys

/-- The state in which `kmain` calls `run`. -/
def start (ram : Ram) (hs : Heaps) (w : World) (c : Controller) (v : Display) : Terminal where
  console := Console.start v
  sys :=
    { world := w
      kernel := hs.kernel.heap
      virtual := hs.virtual.heap
      ram := ram
      window := (hs.kernel.heap.physBase, hs.kernel.heap.physEnd)
      controller := c
      calls := [] }

/-- The poll that ends a line, in a terminal in which the line does not come back. -/
def Stops (B : Build) (t : Terminal) (key : Option Key) (halt : Halt) : Prop :=
  ∃ e, pass t.console.editor key = .done e ∧
    Ending B t.sys.world t.sys.controller (parse (chars e.line)).1 (parse (chars e.line)).2 halt

theorem step_wp {t : Terminal} (hback : Back B ram s t.sys) (fuel : Nat) (key : Option Key) :
    (step B (fuel + 2) key).wp (fun _ t' => Back B ram s t'.sys) (Stops B t key) t := by
  obtain ⟨hs, hkept, hidle⟩ := hback
  unfold wp step
  dsimp only
  cases hpass : pass t.console.editor key with
  | again e => exact ⟨hs, hkept, hidle⟩
  | done e =>
    have hok : ({ t.sys with calls := [] } : Sys).Ok B ram hs :=
      ⟨hkept.ok.live, hkept.ok.heaps, hkept.ok.ram, hkept.ok.window⟩
    dsimp only
    rcases wp_iff.mp (dispatch_wp hok hidle fuel (chars e.line)) with
      ⟨_, u, hrun, hs', hkept', hidle'⟩ | ⟨halt, hrun, hends⟩
    · rw [hrun]
      exact ⟨hs', ⟨hkept'.ok, by rw [hkept'.cpu, hkept.cpu], hkept.zone.trans hkept'.zone,
        hkept'.controller.trans hkept.controller⟩, hidle'⟩
    · rw [hrun]
      exact ⟨e, hpass, hends⟩

/-- Every sequence of polls. -/
theorem run_wp {t : Terminal} (hback : Back B ram s t.sys) (fuel : Nat) (keys : List (Option Key)) :
    (run B (fuel + 2) keys).wp (fun _ t' => Back B ram s t'.sys) (fun halt =>
      ∃ before key after u, keys = before ++ key :: after ∧
        (run B (fuel + 2) before).run t = .ok ((), u) ∧ Back B ram s u.sys ∧
        Stops B u key halt) t := by
  unfold run
  exact wp_runAll (I := fun u => Back B ram s u.sys) (S := Stops B)
    (fun _ key h => step_wp h fuel key) keys t hback

/-- Bytes that fit into the line are appended to it. -/
theorem run_chars (fuel : Nat) (text : List U8) : ∀ t : Terminal, (∀ b ∈ text, b ≠ 0x0A) →
    t.console.editor.n + text.length ≤ LINE_MAX →
    ∃ e, (run B fuel (text.map fun b => some (.char b))).run t
        = .ok ((), { t with console := { t.console with editor := e } }) ∧
      e.line = t.console.editor.line ++ text := by
  induction text with
  | nil =>
    intro t _ _
    exact ⟨t.console.editor, rfl, (List.append_nil _).symm⟩
  | cons b text ih =>
    intro t htext hlen
    rw [List.length_cons] at hlen
    have hroom : t.console.editor.n < LINE_MAX := by omega
    have hstep : (step B fuel (some (.char b))).run t = .ok ((), { t with console :=
        { t.console with editor :=
          { buf := Function.update t.console.editor.buf t.console.editor.n b
            n := t.console.editor.n + 1
            display := t.console.editor.display.putChar b } } }) := by
      rw [step]
      dsimp only
      rw [pass, if_neg (htext b List.mem_cons_self), if_pos hroom]
    obtain ⟨e, hrun, hline⟩ := ih { t with console :=
        { t.console with editor :=
          { buf := Function.update t.console.editor.buf t.console.editor.n b
            n := t.console.editor.n + 1
            display := t.console.editor.display.putChar b } } }
      (fun c hc => htext c (List.mem_cons_of_mem b hc)) (by dsimp only; omega)
    refine ⟨e, ?_, ?_⟩
    · rw [List.map_cons, run, Prog.runAll, Prog.bind_ok hstep]
      exact hrun
    · rw [hline, Editor.line_push, List.append_assoc]
      rfl

/-- A line and Enter, on an empty line. -/
theorem run_typed (t : Terminal) (hempty : t.console.editor.n = 0) (text : List U8)
    (hne : ∀ b ∈ text, b ≠ 0x0A) (hlen : text.length ≤ LINE_MAX) (fuel : Nat) :
    (∀ halt, (dispatch B fuel (chars text)).run { t.sys with calls := [] } = .error halt →
      (run B fuel (typed text)).run t = .error halt) ∧
    ∀ s, (dispatch B fuel (chars text)).run { t.sys with calls := [] } = .ok ((), s) →
      ∃ c, (run B fuel (typed text)).run t = .ok ((), ⟨c, s⟩) ∧
        c.editor.n = 0 ∧ c.lines = t.console.lines + 1 := by
  obtain ⟨e, htyped, hline⟩ := run_chars (B := B) fuel text t hne (by omega)
  have hstart : t.console.editor.line = [] := by
    rw [Editor.line, hempty]
    rfl
  rw [hstart, List.nil_append] at hline
  -- Enter is the last key
  have hrun : (run B fuel (typed text)).run t = (step B fuel (some (.char 0x0A))).run
      { t with console := { t.console with editor := e } } := by
    refine (Prog.runAll_append _ htyped).trans ?_
    rw [Prog.runAll, Prog.runAll, bind_pure_unit]
  have hpass : pass e (some (.char 0x0A)) = .done { e with display := e.display.putChar 0x0A } := by
    rw [pass, if_pos rfl]
  have hsame : ({ e with display := e.display.putChar 0x0A } : Editor).line = text := hline
  rw [hrun, step]
  dsimp only
  rw [hpass]
  dsimp only
  rw [hsame]
  refine ⟨fun halt hhalt => ?_, fun s hs => ?_⟩
  · rw [hhalt]
  · rw [hs]
    exact ⟨_, rfl, rfl, rfl⟩

end Terminal

/-! ## The screen -/

/-- The lines that are yet to come are all that a console has to know. -/
theorem Console.run_congr {f g : Nat → List Call} (keys : List (Option Key)) : ∀ {c : Console},
    (∀ n, c.lines ≤ n → f n = g n) → c.run f keys = c.run g keys := by
  induction keys with
  | nil =>
    intro c _
    rw [Console.run, Console.run, List.foldl_nil, List.foldl_nil]
  | cons key keys ih =>
    intro c h
    have hstep : c.step f key = c.step g key ∧ c.lines ≤ (c.step f key).lines := by
      unfold Console.step
      split
      · exact ⟨rfl, Nat.le_refl _⟩
      · rw [h c.lines (Nat.le_refl _)]
        exact ⟨rfl, Nat.le_succ _⟩
    rw [Console.run, Console.run, List.foldl_cons, List.foldl_cons, ← hstep.1]
    exact ih fun n hn => h n (Nat.le_trans hstep.2 hn)

/-- What the screen shows is what the editor and the commands put there. -/
theorem Terminal.run_console {fuel : Nat} (keys : List (Option Key)) : ∀ {t t' : Terminal},
    (Terminal.run B fuel keys).run t = .ok ((), t') →
    ∃ commands, t'.console = t.console.run commands keys := by
  induction keys with
  | nil =>
    intro t t' h
    cases h
    exact ⟨fun _ => [], rfl⟩
  | cons key keys ih =>
    intro t t' h
    rw [Terminal.run, Prog.runAll] at h
    obtain ⟨_, u, hstep, hrest⟩ := Prog.bind_eq_ok.mp h
    obtain ⟨commands, hcommands⟩ := ih hrest
    unfold Terminal.step at hstep
    dsimp only at hstep
    cases hpass : pass t.console.editor key with
    | again e =>
      rw [hpass] at hstep
      cases hstep
      refine ⟨commands, hcommands.trans ?_⟩
      show _ = (t.console.step commands key).run commands keys
      rw [Console.step, hpass]
    | done e =>
      rw [hpass] at hstep
      dsimp only at hstep
      cases hline : (dispatch B fuel (chars e.line)).run { t.sys with calls := [] } with
      | error halt =>
        rw [hline] at hstep
        cases hstep
      | ok r =>
        rw [hline] at hstep
        cases hstep
        -- the calls of this line, before those of the lines to come
        refine ⟨Function.update commands t.console.lines r.2.calls, hcommands.trans ?_⟩
        show _ = (t.console.step _ key).run _ keys
        rw [Console.step, hpass]
        dsimp only
        rw [Function.update_self]
        refine Console.run_congr keys fun n hn => ?_
        rw [Function.update_of_ne (by
          have hlt : t.console.lines + 1 ≤ n := hn
          omega)]

/-! ## From the boot on -/

variable {w w0 : World}

theorem start_back (hload : B.Loaded w0.machine) (hboot : (start B).run w0 = .ok ((ram, hs), w))
    (hw : hs.NoWrap) (c : Controller) (v : Display) :
    Back B ram (Terminal.start ram hs w c v).sys (Terminal.start ram hs w c v).sys := by
  have hup := start_up hload hboot
  obtain ⟨window, h0⟩ := hup.booted.start
  have hok : (Terminal.start ram hs w c v).sys.Ok B ram hs :=
    ⟨(hup.live hw).1, fun side => by cases side <;> rfl, rfl, rfl⟩
  have hidle : Idle hs := by
    rw [h0.heaps]
    exact ⟨rfl, rfl, show (0xD0000000 : U32).toNat ≤ 0xD0003000 by decide⟩
  exact hok.refl.back hidle

/-- Whatever is typed after the boot, the shell comes back to its prompt with the kernel intact:
both heaps are empty again, the registers are the same but for the address of the last fault, the
demand zone still holds zeros, and the screen shows what the editor and the commands put there.  The
one exception is a line that stops the processor on purpose, or that needs a page when there is no
frame.  The growth of the kernel's heap must not wrap around. -/
theorem session_survives (hload : B.Loaded w0.machine)
    (hboot : (start B).run w0 = .ok ((ram, hs), w)) (hw : hs.NoWrap) (c : Controller) (v : Display)
    (fuel : Nat) (keys : List (Option Key)) :
    (∃ t hs', (Terminal.run B (fuel + 2) keys).run (Terminal.start ram hs w c v) = .ok ((), t) ∧
      t.sys.Ok B ram hs' ∧ Idle hs' ∧
      t.sys.world.cpu = { w.cpu with cr2 := t.sys.world.cpu.cr2 } ∧
      (∀ a, a / 4096 ∈ zonePages → t.sys.world.machine.virt a = 0) ∧
      ∃ commands, t.console = (Console.start v).run commands keys) ∨
    ∃ before key after t halt, keys = before ++ key :: after ∧
      (Terminal.run B (fuel + 2) before).run (Terminal.start ram hs w c v) = .ok ((), t) ∧
      t.Stops B key halt ∧
      (Terminal.run B (fuel + 2) keys).run (Terminal.start ram hs w c v) = .error halt := by
  rcases wp_iff.mp (Terminal.run_wp (start_back hload hboot hw c v) fuel keys) with
    ⟨_, t, hrun, hs', hkept, hidle⟩ | ⟨halt, hrun, before, key, after, t, hkeys, hbefore, _, hstops⟩
  · refine Or.inl ⟨t, hs', hrun, hkept.ok, hidle, hkept.cpu, fun a ha => ?_,
      Terminal.run_console keys hrun⟩
    rw [hkept.zone a ha]
    exact ((start_up hload hboot).mirrors hw).zone a ha
  · exact Or.inr ⟨before, key, after, t, halt, hkeys, hbefore, hstops, hrun⟩

/-- On the plain machine "alloc" comes back to the prompt, and "halt" stops the processor. -/
theorem session_survives_plain : ∃ hs w,
    (start smallBuild).run smallWorld = .ok ((ramOf plainEntries, hs), w) ∧ hs.NoWrap ∧
    ∀ c v,
      (∃ t hs', (Terminal.run smallBuild 2 (typed [0x61, 0x6C, 0x6C, 0x6F, 0x63])).run
          (Terminal.start (ramOf plainEntries) hs w c v) = .ok ((), t) ∧
        t.sys.Ok smallBuild (ramOf plainEntries) hs' ∧ Idle hs') ∧
      ∃ before key after t, typed [0x68, 0x61, 0x6C, 0x74] = before ++ key :: after ∧
        (Terminal.run smallBuild 2 before).run (Terminal.start (ramOf plainEntries) hs w c v)
          = .ok ((), t) ∧
        t.Stops smallBuild key .halted := by
  obtain ⟨hs, w, hboot, hend⟩ := exists_start_plain
  refine ⟨hs, w, hboot, Or.inl hend, fun c v => ⟨?_, ?_⟩⟩
  · obtain ⟨_, hkept, _⟩ := start_back smallWorld_loaded hboot (Or.inl hend) c v
    have hline : (parse (Terminal.chars [0x61, 0x6C, 0x6C, 0x6F, 0x63])).1 = "alloc".toList := by
      decide
    obtain ⟨_, t, _, hrun, _⟩ := cmdAlloc_run hkept.ok
    obtain ⟨_, hreturns, _⟩ := (Terminal.run_typed (B := smallBuild)
      (Terminal.start (ramOf plainEntries) hs w c v) rfl [0x61, 0x6C, 0x6C, 0x6F, 0x63] (by decide)
      (by decide) 2).2 _ (by rw [dispatch_named .alloc hline]; exact hrun)
    have hall := session_survives smallWorld_loaded hboot (Or.inl hend) c v 0
      (typed [0x61, 0x6C, 0x6C, 0x6F, 0x63])
    rw [Nat.zero_add] at hall
    rcases hall with ⟨t, hs', hrun, hok, hidle, _⟩ | ⟨_, _, _, _, _, _, _, _, hstop⟩
    · exact ⟨t, hs', hrun, hok, hidle⟩
    · rw [hreturns] at hstop
      cases hstop
  · have hline : (parse (Terminal.chars [0x68, 0x61, 0x6C, 0x74])).1 = "halt".toList := by decide
    have hhalts := (Terminal.run_typed (B := smallBuild)
      (Terminal.start (ramOf plainEntries) hs w c v) rfl [0x68, 0x61, 0x6C, 0x74] (by decide)
      (by decide) 2).1 .halted (by rw [dispatch_named .halt hline]; rfl)
    have hall := session_survives smallWorld_loaded hboot (Or.inl hend) c v 0
      (typed [0x68, 0x61, 0x6C, 0x74])
    rw [Nat.zero_add] at hall
    rcases hall with
      ⟨_, _, hrun, _⟩ | ⟨before, key, after, t, halt, hkeys, hbefore, hstops, hstop⟩
    · rw [hhalts] at hrun
      cases hrun
    · rw [hhalts] at hstop
      cases hstop
      exact ⟨before, key, after, t, hkeys, hbefore, hstops⟩

end Kfs.Shell
