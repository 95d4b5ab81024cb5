import Kfs.Keyboard.Shift
import Kfs.Klib.Parse
import Kfs.Shell.Session

/-!
# From the keys to the command

`typing` is what the keyboard sends when a text is typed: the make and the break code of each key,
with the shift key around those that need it.  However the polls fall between the codes, the text
comes to `dispatch` as it was typed: `typed_line_runs`.

A line is a name, a space and arguments.  `words_dispatched` says which command it runs.
-/

namespace Kfs.Shell

open Lib Lib.Prog Keyboard Vga

/-! ## The codes of a text -/

/-- The codes of the key in position `i` of the tables. -/
def stroke (i : Nat) : List U8 := [BitVec.ofNat 8 i, BitVec.ofNat 8 (i + 0x80)]

/-- The codes that type a byte. -/
def strokes (b : U8) : List U8 :=
  match LOWER.findIdx? (· == b) with
  | some i => stroke i
  | none =>
    match UPPER.findIdx? (· == b) with
    | some i => 0x2A :: stroke i ++ [0xAA]
    | none => []

/-- A line and Enter. -/
def typing (text : List U8) : List U8 := (text ++ [0x0A]).flatMap strokes

/-- The bytes that can be typed into a line: the space, letters, digits and signs of ASCII. -/
def Printable (b : U8) : Prop := 0x20 ≤ b ∧ b ≤ 0x7E

/-- The keys that the codes stand for, and `SHIFT` after them. -/
def decode : Bool → List U8 → List Key × Bool
  | shift, [] => ([], shift)
  | shift, code :: codes =>
    let (key, shift) := poll shift 1 code
    let (keys, shift) := decode shift codes
    (key.toList ++ keys, shift)

theorem decode_append (xs ys : List U8) : ∀ shift, decode shift (xs ++ ys)
    = ((decode shift xs).1 ++ (decode (decode shift xs).2 ys).1,
      (decode (decode shift xs).2 ys).2) := by
  induction xs with
  | nil => exact fun _ => rfl
  | cons code codes ih =>
    intro shift
    rw [List.cons_append, decode, decode]
    dsimp only
    rw [ih, List.append_assoc]

/-- Each byte is decoded as itself, and leaves the shift key up. -/
theorem decode_strokes {b : U8} (hb : Printable b ∨ b = 0x0A) :
    decode false (strokes b) = ([.char b], false) := by
  have hall : ∀ i : Fin 256, Printable (BitVec.ofNat 8 i) ∨ BitVec.ofNat 8 i = (0x0A : U8) →
      decode false (strokes (BitVec.ofNat 8 i)) = ([.char (BitVec.ofNat 8 i)], false) := by
    unfold Printable
    decide +kernel
  have hnum := hall ⟨b.toNat, b.isLt⟩
  simp only [BitVec.ofNat_toNat, BitVec.setWidth_eq] at hnum
  exact hnum hb

theorem decode_flatMap (text : List U8) (htext : ∀ b ∈ text, Printable b ∨ b = 0x0A) :
    decode false (text.flatMap strokes) = (text.map .char, false) := by
  induction text with
  | nil => rfl
  | cons b text ih =>
    rw [List.flatMap_cons, decode_append, decode_strokes (htext b List.mem_cons_self),
      ih fun c hc => htext c (List.mem_cons_of_mem b hc)]
    rfl

/-- Polls that find nothing change nothing. -/
theorem filterMap_polls (ports : List (U8 × U8)) : ∀ shift,
    (polls shift ports).filterMap id = (decode shift (scancodes ports)).1 := by
  induction ports with
  | nil => exact fun _ => rfl
  | cons port ports ih =>
    intro shift
    rw [polls, scancodes_cons]
    dsimp only
    by_cases hready : port.1 &&& 1 ≠ 0
    · rw [if_pos hready, decode, poll_of_ready hready]
      dsimp only
      rw [← ih]
      cases (poll shift 1 port.2).1 <;> rfl
    · rw [if_neg hready, poll, if_pos (not_not.mp hready)]
      exact ih shift

/-! ## The line -/

variable {B : Build} {fuel : Nat}

namespace Terminal

theorem step_none (t : Terminal) : (step B fuel none).run t = .ok ((), t) := rfl

/-- Polls without a key are idle. -/
theorem run_filterMap (keys : List (Option Key)) : ∀ t : Terminal,
    (run B fuel keys).run t = (run B fuel ((keys.filterMap id).map some)).run t := by
  induction keys with
  | nil => exact fun _ => rfl
  | cons key keys ih =>
    intro t
    cases key with
    | none =>
      rw [run, Prog.runAll, Prog.bind_ok (step_none t)]
      exact ih t
    | some key =>
      show (step B fuel (some key) >>= fun _ => run B fuel keys).run t
        = (step B fuel (some key) >>= fun _ => run B fuel ((keys.filterMap id).map some)).run t
      cases hstep : (step B fuel (some key)).run t with
      | error e => rw [Prog.bind_error hstep, Prog.bind_error hstep]
      | ok r =>
        rw [Prog.bind_ok hstep, Prog.bind_ok hstep]
        exact ih r.2

end Terminal

/-- Whatever printable text is typed into an empty line, however the polls fall between the codes of
the keyboard, Enter dispatches that text: the terminal stops if the text stops it, and else it is at
the next prompt, with the kernel that the text leaves. -/
theorem typed_line_runs (t : Terminal) (hempty : t.console.editor.n = 0) {text : List U8}
    (htext : ∀ b ∈ text, Printable b) (hlen : text.length ≤ LINE_MAX) {ports : List (U8 × U8)}
    (hports : scancodes ports = typing text) (fuel : Nat) :
    (∀ halt, (dispatch B fuel (Terminal.chars text)).run { t.sys with calls := [] } = .error halt →
      (Terminal.run B fuel (polls false ports)).run t = .error halt) ∧
    ∀ s, (dispatch B fuel (Terminal.chars text)).run { t.sys with calls := [] } = .ok ((), s) →
      ∃ c, (Terminal.run B fuel (polls false ports)).run t = .ok ((), ⟨c, s⟩) ∧
        c.editor.n = 0 ∧ c.lines = t.console.lines + 1 := by
  have hkeys : (polls false ports).filterMap id = text.map .char ++ [.char 0x0A] := by
    rw [filterMap_polls, hports, typing, decode_flatMap, List.map_append]
    · rfl
    · intro b hb
      rcases List.mem_append.mp hb with hb | hb
      · exact Or.inl (htext b hb)
      · exact Or.inr (List.mem_singleton.mp hb)
  have hne : ∀ b ∈ text, b ≠ 0x0A := fun b hb heq => by
    have hprint := (htext b hb).1
    rw [heq] at hprint
    exact absurd hprint (by decide)
  -- idle polls make no difference
  have hrun : (Terminal.run B fuel (polls false ports)).run t
      = (Terminal.run B fuel (typed text)).run t := by
    rw [Terminal.run_filterMap, hkeys, List.map_append, List.map_map]
    rfl
  rw [hrun]
  exact Terminal.run_typed t hempty text hne hlen fuel

/-- A kernel that nothing was booted on. -/
def plainTerminal : Terminal :=
  Terminal.start (Multiboot.ramOf plainEntries) (heapInit (0, 0)) smallWorld ⟨[], true⟩
    (Display.boot (fun _ => 0) ⟨0, fun _ => 0⟩)

/-- An idle poll, and then "halt". -/
theorem typed_line_runs_halt :
    scancodes ((0, 0) :: (typing [0x68, 0x61, 0x6C, 0x74]).map fun code => (1, code))
      = typing [0x68, 0x61, 0x6C, 0x74] ∧
    (Terminal.run smallBuild 2 (polls false
      ((0, 0) :: (typing [0x68, 0x61, 0x6C, 0x74]).map fun code => (1, code)))).run plainTerminal
      = .error .halted := by
  have hports : scancodes ((0, 0) :: (typing [0x68, 0x61, 0x6C, 0x74]).map fun code => (1, code))
      = typing [0x68, 0x61, 0x6C, 0x74] := by decide
  refine ⟨hports, (typed_line_runs plainTerminal rfl (by unfold Printable; decide) (by decide)
    hports 2).1 .halted ?_⟩
  have hline : (parse (Terminal.chars [0x68, 0x61, 0x6C, 0x74])).1 = "halt".toList := by decide
  rw [dispatch_named .halt hline]
  rfl

/-! ## The words of a line -/

/-- What is left of a text between white space. -/
theorem trim_between {before text after : List Char}
    (hbefore : ∀ c ∈ before, Klib.isWhitespace c = true)
    (hafter : ∀ c ∈ after, Klib.isWhitespace c = true)
    (hhead : ∀ c, text.head? = some c → Klib.isWhitespace c = false)
    (hlast : ∀ c, text.getLast? = some c → Klib.isWhitespace c = false) :
    Klib.trim (before ++ text ++ after) = text := by
  have hstop : ∀ l : List Char, (∀ c, l.head? = some c → Klib.isWhitespace c = false) →
      l.dropWhile Klib.isWhitespace = l := by
    intro l hl
    cases l with
    | nil => rfl
    | cons c l => rw [List.dropWhile_cons_of_neg (by rw [hl c rfl]; decide)]
  rw [Klib.trim, List.append_assoc, List.dropWhile_append_of_pos hbefore]
  cases text with
  | nil =>
    rw [List.nil_append, ← List.append_nil after, List.dropWhile_append_of_pos hafter]
    rfl
  | cons c text =>
    rw [hstop (c :: text ++ after) (fun d hd => hhead d hd), List.reverse_append,
      List.dropWhile_append_of_pos (fun d hd => hafter d (List.mem_reverse.mp hd)),
      hstop _ (fun d hd => hlast d (by rw [List.head?_reverse] at hd; exact hd)),
      List.reverse_reverse]

/-- A word. -/
def Word (name : List Char) : Prop := name ≠ [] ∧ ∀ c ∈ name, Klib.isWhitespace c = false

theorem Word.ends {name : List Char} (h : Word name) :
    (∀ c, name.head? = some c → Klib.isWhitespace c = false) ∧
      ∀ c, name.getLast? = some c → Klib.isWhitespace c = false :=
  ⟨fun c hc => h.2 c (List.mem_of_head? hc), fun c hc => h.2 c (List.mem_of_getLast? hc)⟩

theorem Word.no_space {name : List Char} (h : Word name) : ∀ c ∈ name, (c == ' ') = false :=
  fun c hc => beq_eq_false_iff_ne.mpr fun heq => by
    have hblank := h.2 c hc
    rw [heq] at hblank
    exact absurd hblank (by decide)

theorem parse_word {before name : List Char} (hbefore : ∀ c ∈ before, Klib.isWhitespace c = true)
    (hname : Word name) {rest : List Char} (hrest : rest = [] ∨ ∃ r, rest = ' ' :: r) :
    parse (before ++ name ++ rest) = (name, Klib.trim rest) := by
  obtain ⟨hhead, hlast⟩ := hname.ends
  have hnone : name.findIdx? (· == ' ') = none := List.findIdx?_eq_none_iff.mpr hname.no_space
  have hblank : Klib.isWhitespace ' ' = true := by decide
  -- a name with white space around it
  have hbare : ∀ after, (∀ c ∈ after, Klib.isWhitespace c = true) →
      parse (before ++ name ++ after) = (name, []) := by
    intro after hafter
    rw [parse, trim_between hbefore hafter hhead hlast, hnone]
  rcases hrest with rfl | ⟨r, rfl⟩
  · exact hbare [] (by simp)
  obtain ⟨left, right, hr, hleft, hright, hhead', hlast'⟩ := Klib.trim_spec r
  have htrim : Klib.trim (' ' :: r) = Klib.trim r := by
    rw [Klib.trim, Klib.trim, List.dropWhile_cons_of_pos hblank]
  rw [htrim]
  by_cases hargs : Klib.trim r = []
  · rw [hargs, List.append_nil] at hr
    rw [hargs]
    refine hbare (' ' :: r) fun c hc => ?_
    rcases List.mem_cons.mp hc with rfl | hc
    · exact hblank
    · rw [hr] at hc
      exact (List.mem_append.mp hc).elim (hleft c) (hright c)
  · -- the line ends where the arguments do
    have hline : before ++ name ++ ' ' :: r
        = before ++ (name ++ ' ' :: (left ++ Klib.trim r)) ++ right := by
      conv_lhs => rw [hr]
      simp only [List.append_assoc, List.cons_append]
    obtain ⟨c, name', rfl⟩ := List.exists_cons_of_ne_nil hname.1
    have hwhole : Klib.trim (before ++ (c :: name') ++ ' ' :: r)
        = (c :: name') ++ ' ' :: (left ++ Klib.trim r) := by
      rw [hline]
      refine trim_between hbefore hright (fun d hd => hhead d hd) fun d hd => hlast' d ?_
      rw [← hd, ← List.cons_append, ← List.append_assoc, List.getLast?_append_of_ne_nil _ hargs]
    have hfind : ((c :: name') ++ ' ' :: (left ++ Klib.trim r)).findIdx? (· == ' ')
        = some (c :: name').length := by
      rw [List.findIdx?_append, hnone, Option.none_or, List.findIdx?_cons, if_pos (by decide),
        Option.map_some, Nat.zero_add]
    have hrest : ((c :: name') ++ ' ' :: (left ++ Klib.trim r)).drop ((c :: name').length + 1)
        = left ++ Klib.trim r := by
      rw [← List.drop_drop, List.drop_left]
      rfl
    have hagain := trim_between hleft (show ∀ c ∈ [], Klib.isWhitespace c = true by simp) hhead'
      hlast'
    rw [List.append_nil] at hagain
    rw [parse, hwhole, hfind]
    dsimp only
    rw [List.take_left, hrest, hagain]

/-- A line of a name, a space and arguments, with any white space around it, runs the command of
exactly that name with the arguments, or says that there is none. -/
theorem words_dispatched {before name : List Char}
    (hbefore : ∀ c ∈ before, Klib.isWhitespace c = true) (hname : Word name) {rest : List Char}
    (hrest : rest = [] ∨ ∃ r, rest = ' ' :: r) (fuel : Nat) :
    (∃ c : Command, c.name.toList = name ∧
      dispatch B fuel (before ++ name ++ rest) = c.run B fuel (Klib.trim rest)) ∨
    (∀ c : Command, c.name.toList ≠ name) ∧ dispatch B fuel (before ++ name ++ rest)
      = printk (String.ofList name ++ ": no such command, try `help`\n") := by
  rw [dispatch, parse_word hbefore hname hrest]
  dsimp only
  rw [if_neg hname.1]
  cases hfind : CMDS.find? fun c => c.name.toList == name with
  | some c =>
    have hc := List.find?_some hfind
    exact Or.inl ⟨c, beq_iff_eq.mp hc, rfl⟩
  | none =>
    refine Or.inr ⟨fun c hc => ?_, rfl⟩
    have hmem : c ∈ CMDS := by cases c <;> decide
    have hno := List.find?_eq_none.mp hfind c hmem
    exact hno (beq_iff_eq.mpr hc)

theorem words_dispatched_virt : Word "virt".toList ∧
    ∃ c : Command, c.name.toList = "virt".toList ∧
      dispatch smallBuild 2 "  virt 0xb8000 ".toList = c.run smallBuild 2 "0xb8000".toList := by
  have hletters : "virt".toList.all (fun c => Klib.isWhitespace c = false) = true := by decide
  have hword : Word "virt".toList :=
    ⟨by decide, fun c hc => of_decide_eq_true (List.all_eq_true.mp hletters c hc)⟩
  refine ⟨hword, ?_⟩
  have hbefore : ∀ c ∈ "  ".toList, Klib.isWhitespace c = true := List.all_eq_true.mp (by decide)
  have hrest : " 0xb8000 ".toList = [] ∨ ∃ r, " 0xb8000 ".toList = ' ' :: r :=
    Or.inr ⟨"0xb8000 ".toList, by decide⟩
  rcases words_dispatched (B := smallBuild) hbefore hword hrest 2 with
    ⟨c, hc, hrun⟩ | ⟨hno, _⟩
  · exact ⟨c, hc, hrun⟩
  · exact absurd rfl (hno .virt)

end Kfs.Shell
