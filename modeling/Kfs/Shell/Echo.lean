import Kfs.Shell.ReadLine

/-!
# What Backspace erases

The buffer of `read_line` belongs to the line and the cursor to the screen, and a line may be typed
on several screens.  A `Trace` follows, beside the console, which cell of which screen holds which
echo of the line.  It only watches: its console is the console.

* `Trace.Sound` says that the trace is right about the screens, and holds in every run.
* `Behind` says that echoes stand in the order of their bytes right before a cursor.
* `backspace_erases_echo_iff`: Backspace erases the echo of the byte that it removes if each byte is
  removed on the screen that it was typed on.
-/

namespace Kfs.Shell

open Vga Keyboard

/-! ## The trace of a run -/

/-- The echo of a byte: its number, the screen that was active, and the byte. -/
structure Echo where
  id : Nat
  screen : Nat
  byte : U8
  deriving DecidableEq, Repr

/-- The echo that a cell holds, if it holds one of the line and that is not erased. -/
abbrev Marks : Type := Nat → Option Echo

namespace Marks

def scroll (marks : Marks) : Marks := fun i => if i < CELLS - WIDTH then marks (i + WIDTH) else none

/-- The marks of a screen after an echo at the cursor. -/
def put (marks : Marks) (cursor : Nat) (e : Echo) : Marks :=
  if cursor + 1 ≥ CELLS then scroll (Function.update marks cursor (some e))
  else Function.update marks cursor (some e)

/-- The marks of a screen after a `backspace`. -/
def erase (marks : Marks) (cursor : Nat) : Marks :=
  if cursor > 0 then Function.update marks (cursor - 1) none else marks

end Marks

structure Trace where
  console : Console
  /-- The marks of each screen. -/
  marks : Nat → Marks
  /-- The echoes of the bytes in the buffer, the last one first. -/
  held : List Echo
  next : Nat

namespace Trace

def display (t : Trace) : Display := t.console.editor.display

def start (v : Display) : Trace where
  console := Console.start v
  marks := fun _ _ => none
  held := []
  next := 0

def step (commands : Nat → List Call) (t : Trace) (key : Option Key) : Trace :=
  let a := t.display.active
  let cursor := t.display.live.cursor
  let t' := { t with console := t.console.step commands key }
  match key with
  | some (.char b) =>
    -- the echoes of a line that has ended are output like any other
    if b = 0x0A then { t' with marks := fun _ _ => none, held := [] }
    else if t.console.editor.n < LINE_MAX then
      let e : Echo := ⟨t.next, a, b⟩
      { t' with
        marks := Function.update t.marks a ((t.marks a).put cursor e)
        held := e :: t.held
        next := t.next + 1 }
    else t'
  | some .backspace =>
    if t.console.editor.n > 0 then
      { t' with
        marks := Function.update t.marks a ((t.marks a).erase cursor)
        held := t.held.tail }
    else t'
  | _ => t'

def run (commands : Nat → List Call) (t : Trace) (keys : List (Option Key)) : Trace :=
  keys.foldl (step commands) t

/-- The cell before the cursor holds the echo of the last byte in the buffer, which is not erased,
and shows that byte. -/
def Erases (t : Trace) : Prop :=
  ∃ e rest, t.held = e :: rest ∧ e.byte = t.console.editor.buf (t.console.editor.n - 1) ∧
    t.display.live.cursor > 0 ∧
    t.marks t.display.active (t.display.live.cursor - 1) = some e ∧
    charOf (readCell t.display.live.cells (t.display.live.cursor - 1)) = e.byte

end Trace

/-- Every Backspace that removes a byte erases the echo of that byte. -/
def EchoErased (commands : Nat → List Call) (v : Display) (keys : List (Option Key)) : Prop :=
  ∀ before after, keys = before ++ some .backspace :: after →
    ((Console.start v).run commands before).editor.n > 0 →
    ((Trace.start v).run commands before).Erases

/-- What the keys alone say: the active screen, and the screens that the bytes in the buffer were
typed on, the last one first. -/
structure Typed where
  active : Nat
  homes : List Nat

namespace Typed

def step (p : Typed) : Option Key → Typed
  | some (.char b) =>
    if b = 0x0A then { p with homes := [] }
    else if p.homes.length < LINE_MAX then { p with homes := p.active :: p.homes }
    else p
  | some .backspace => { p with homes := p.homes.tail }
  | some (.screen s) => if s < NB_SCREENS then { p with active := s } else p
  | none => p

def run (p : Typed) (keys : List (Option Key)) : Typed := keys.foldl step p

end Typed

/-- From `p` on, every byte that is removed is removed on the screen that it was typed on. -/
def AtHome (p : Typed) (keys : List (Option Key)) : Prop :=
  ∀ before after, keys = before ++ some .backspace :: after →
    ∀ s ∈ (p.run before).homes.head?, s = (p.run before).active

/-! ## One screen -/

/-- A mark of screen `x` is on the screen, and its cell shows the byte. -/
def SoundOn (x : Nat) (s : Screen) (marks : Marks) : Prop :=
  ∀ i e, marks i = some e →
    i < CELLS ∧ e.screen = x ∧ charOf (readCell s.cells i) = e.byte

/-- The echoes stand right before the cursor, the first of the list next to it. -/
def Behind (cursor : Nat) (marks : Marks) (echoes : List Echo) : Prop :=
  ∀ j e, echoes[j]? = some e → j < cursor ∧ marks (cursor - 1 - j) = some e

namespace SoundOn

variable {x : Nat} {s : Screen} {marks : Marks}

theorem nothing (x : Nat) (s : Screen) : SoundOn x s fun _ => none := by
  intro i e h
  cases h

/-- The marks move up with the cells. -/
theorem scroll (h : SoundOn x s marks) (cursor : Nat) :
    SoundOn x { s.scroll with cursor := cursor } marks.scroll := by
  intro i e hi
  unfold Marks.scroll at hi
  split at hi
  · rename_i hlt
    obtain ⟨hsrc, hscreen, hbyte⟩ := h _ e hi
    have hcell : i < CELLS := by omega
    refine ⟨hcell, hscreen, ?_⟩
    rw [readCell_scroll s hcell, if_pos hlt]
    exact hbyte
  · cases hi

theorem putb (h : SoundOn x s marks) (hcursor : s.cursor < CELLS) (hattr : charOf s.attr = 0)
    {b : U8} (hb : b ≠ 0x0A) (id : Nat) :
    SoundOn x (s.putb b) (marks.put s.cursor ⟨id, x, b⟩) := by
  have hink : SoundOn x
      { s with
        cells := putCell s.cells s.cursor (s.attr ||| b.setWidth 16)
        cursor := s.cursor + 1 }
      (Function.update marks s.cursor (some ⟨id, x, b⟩)) := by
    intro i e hi
    by_cases hic : i = s.cursor
    · rw [hic, Function.update_self, Option.some_inj] at hi
      subst hi hic
      refine ⟨hcursor, rfl, ?_⟩
      rw [readCell_putCell _ hcursor, if_pos rfl]
      exact charOf_or hattr b
    · rw [Function.update_of_ne hic] at hi
      obtain ⟨hlt, hscreen, hbyte⟩ := h i e hi
      exact ⟨hlt, hscreen, by rw [readCell_putCell_ne _ hic]; exact hbyte⟩
  unfold Screen.putb Marks.put
  simp only [if_neg hb]
  split
  · exact hink.scroll _
  · exact hink

theorem backspace (h : SoundOn x s marks) :
    SoundOn x (Vga.Op.edit s .backspace) (marks.erase s.cursor) := by
  rw [Vga.Op.edit, Marks.erase]
  split
  · intro i e hi
    by_cases hic : i = s.cursor - 1
    · rw [hic, Function.update_self] at hi
      cases hi
    · rw [Function.update_of_ne hic] at hi
      obtain ⟨hlt, hscreen, hbyte⟩ := h i e hi
      exact ⟨hlt, hscreen, by rw [Screen.stepBack, readCell_putCell_ne _ hic]; exact hbyte⟩
  · exact h

end SoundOn

theorem backspace_cursor (s : Screen) : (Vga.Op.edit s .backspace).cursor = s.cursor - 1 := by
  rw [Vga.Op.edit]
  split
  · rfl
  · omega

theorem putb_cursor {s : Screen} {b : U8} (hb : b ≠ 0x0A) :
    (s.putb b).cursor = if s.cursor + 1 ≥ CELLS then CELLS - WIDTH else s.cursor + 1 := by
  unfold Screen.putb
  simp only [if_neg hb]
  split <;> rfl

namespace Behind

variable {cursor : Nat} {marks : Marks} {echoes : List Echo}

theorem nil (cursor : Nat) (marks : Marks) : Behind cursor marks [] := by
  intro j e h
  cases h

/-- An echo at the cursor is the one next to it.  The line is shorter than the screen, so its echoes
are all on it after a scroll. -/
theorem put (h : Behind cursor marks echoes) (hcursor : cursor < CELLS)
    (hlen : echoes.length < LINE_MAX) (e : Echo) :
    Behind (if cursor + 1 ≥ CELLS then CELLS - WIDTH else cursor + 1) (marks.put cursor e)
      (e :: echoes) := by
  have hink : Behind (cursor + 1) (Function.update marks cursor (some e)) (e :: echoes) := by
    intro j f hj
    cases j with
    | zero =>
      cases hj
      exact ⟨Nat.succ_pos _, Function.update_self ..⟩
    | succ j =>
      obtain ⟨hlt, hmark⟩ := h j f hj
      have hne : cursor + 1 - 1 - (j + 1) ≠ cursor := by omega
      refine ⟨by omega, ?_⟩
      rw [Function.update_of_ne hne, ← hmark]
      congr 1
      omega
  unfold Marks.put
  split
  · rename_i hend
    intro j f hj
    have hjlen := (List.getElem?_eq_some_iff.mp hj).1
    obtain ⟨hlt, hmark⟩ := hink j f hj
    simp only [List.length_cons, LINE_MAX] at hjlen hlen
    simp only [CELLS, WIDTH, HEIGHT] at hend hcursor ⊢
    refine ⟨by omega, ?_⟩
    rw [Marks.scroll, if_pos (by simp only [CELLS, WIDTH, HEIGHT]; omega), ← hmark]
    congr 1
    simp only [WIDTH]
    omega
  · exact hink

/-- The echo next to the cursor is erased. -/
theorem erase {e : Echo} (h : Behind cursor marks (e :: echoes)) :
    Behind (cursor - 1) (marks.erase cursor) echoes := by
  have hpos := (h 0 e rfl).1
  intro j f hj
  obtain ⟨hlt, hmark⟩ := h (j + 1) f hj
  have hne : cursor - 1 - 1 - j ≠ cursor - 1 := by omega
  refine ⟨by omega, ?_⟩
  rw [Marks.erase, if_pos hpos, Function.update_of_ne hne, ← hmark]
  congr 1
  omega

end Behind

/-! ## One key -/

/-- The calls of `prompt`. -/
def promptCalls : List Vga.Op :=
  [.setColor .brightCyan .black, .print PROMPT, .setColor .white .black]

theorem prompt_eq (v : Display) : prompt v = v.run promptCalls := rfl

/-- A relation between two families that is kept by an update of both at one place. -/
theorem update_related {α β : Type} {R : Nat → α → β → Prop} {f : Nat → α} {g : Nat → β}
    (h : ∀ j, R j (f j) (g j)) {a : Nat} {x : α} {y : β} (hxy : R a x y) (j : Nat) :
    R j (Function.update f a x j) (Function.update g a y j) := by
  by_cases hj : j = a
  · subst hj
    rw [Function.update_self, Function.update_self]
    exact hxy
  · rw [Function.update_of_ne hj, Function.update_of_ne hj]
    exact h j

theorem attr_step {m : Terminals} (h : ∀ j, charOf (m.term j).attr = 0) (op : Vga.Op) (j : Nat) :
    charOf ((m.step op).term j).attr = 0 := by
  show charOf (Function.update m.term m.active _ j).attr = 0
  rw [Function.update_apply]
  split
  · exact charOf_attr_edit (h _) op
  · exact h j

theorem attr_run (ops : List Vga.Op) : ∀ {m : Terminals}, (∀ j, charOf (m.term j).attr = 0) →
    ∀ j, charOf ((m.run ops).term j).attr = 0 := by
  induction ops with
  | nil => exact fun h => h
  | cons op ops ih => exact fun h => ih (attr_step h op)

namespace Trace

variable {commands : Nat → List Call} {t : Trace} {m : Terminals}

theorem step_char {b : U8} (hb : b ≠ 0x0A) (hn : t.console.editor.n < LINE_MAX) :
    t.step commands (some (.char b)) =
      { console :=
          { editor :=
              { buf := Function.update t.console.editor.buf t.console.editor.n b
                n := t.console.editor.n + 1
                display := t.display.step (.putChar b) }
            lines := t.console.lines }
        marks := Function.update t.marks t.display.active
          ((t.marks t.display.active).put t.display.live.cursor ⟨t.next, t.display.active, b⟩)
        held := ⟨t.next, t.display.active, b⟩ :: t.held
        next := t.next + 1 } := by
  simp only [step, Console.step, pass, if_neg hb, if_pos hn]
  rfl

theorem step_full {b : U8} (hb : b ≠ 0x0A) (hn : ¬t.console.editor.n < LINE_MAX) :
    t.step commands (some (.char b)) = t := by
  simp only [step, Console.step, pass, if_neg hb, if_neg hn]

theorem step_enter :
    t.step commands (some (.char 0x0A)) =
      { console :=
          { editor :=
              { buf := t.console.editor.buf
                n := 0
                display := t.display.run
                  (.putChar 0x0A :: (commands t.console.lines).map Call.op ++ promptCalls) }
            lines := t.console.lines + 1 }
        marks := fun _ _ => none
        held := []
        next := t.next } := by
  simp only [step, Console.step, pass, if_true, prompt_eq, Display.run, List.cons_append,
    List.foldl_cons, List.foldl_append]
  rfl

theorem step_backspace (hn : t.console.editor.n > 0) :
    t.step commands (some .backspace) =
      { console :=
          { editor :=
              { buf := t.console.editor.buf
                n := t.console.editor.n - 1
                display := t.display.step .backspace }
            lines := t.console.lines }
        marks := Function.update t.marks t.display.active
          ((t.marks t.display.active).erase t.display.live.cursor)
        held := t.held.tail
        next := t.next } := by
  simp only [step, Console.step, pass, if_pos hn]
  rfl

theorem step_empty (hn : ¬t.console.editor.n > 0) : t.step commands (some .backspace) = t := by
  simp only [step, Console.step, pass, if_neg hn]

theorem step_screen (s : Nat) :
    t.step commands (some (.screen s)) =
      { t with
        console :=
          { t.console with
            editor := { t.console.editor with display := t.display.step (.switchScreen s) } } } :=
  rfl

/-- What the trace says of the screens is right.  `m` is the three terminals that the driver
shows. -/
structure Sound (t : Trace) (m : Terminals) : Prop where
  shows : t.display.Shows m
  attr : ∀ j, charOf (m.term j).attr = 0
  marks : ∀ j, SoundOn j (m.term j) (t.marks j)
  line : t.held.map Echo.byte = t.console.editor.line.reverse
  length_le : t.held.length ≤ LINE_MAX

/-- On every screen the echoes of the bytes that were typed there stand right before the cursor. -/
def Stacked (t : Trace) (m : Terminals) : Prop :=
  ∀ j, Behind (m.term j).cursor (t.marks j) (t.held.filter fun e => e.screen = j)

namespace Sound

theorem length_held (h : t.Sound m) : t.held.length = t.console.editor.n := by
  rw [← List.length_map (f := Echo.byte), h.line, List.length_reverse, Editor.length_line]

theorem exists_held (h : t.Sound m) (hn : t.console.editor.n > 0) :
    ∃ e rest, t.held = e :: rest := by
  apply List.exists_cons_of_length_pos
  rw [h.length_held]
  exact hn

theorem live_eq (h : t.Sound m) : t.display.live = m.term t.display.active := by
  rw [h.shows.active]
  exact h.shows.live

theorem char (h : t.Sound m) {b : U8} (hb : b ≠ 0x0A) (hn : t.console.editor.n < LINE_MAX) :
    (t.step commands (some (.char b))).Sound (m.step (.putChar b)) := by
  have hlen := h.length_held
  have hlive := h.live_eq
  rw [step_char hb hn]
  refine ⟨h.shows.step (.putChar b), attr_step h.attr _, ?_, ?_, ?_⟩
  · rw [hlive, h.shows.active]
    exact update_related h.marks ((h.marks _).putb (h.shows.cursor_lt _) (h.attr _) hb _)
  · rw [List.map_cons, h.line, Editor.line_push, List.reverse_append]
    rfl
  · rw [List.length_cons]
    omega

theorem backspace (h : t.Sound m) (hn : t.console.editor.n > 0) :
    (t.step commands (some .backspace)).Sound (m.step .backspace) := by
  have hlive := h.live_eq
  rw [step_backspace hn]
  refine ⟨h.shows.step .backspace, attr_step h.attr _, ?_, ?_, ?_⟩
  · rw [hlive, h.shows.active]
    exact update_related h.marks (h.marks _).backspace
  · rw [List.map_tail, h.line, Editor.line_pop, List.tail_reverse]
  · rw [List.length_tail]
    exact Nat.le_trans (Nat.sub_le _ 1) h.length_le

theorem screen (h : t.Sound m) (s : Nat) :
    (t.step commands (some (.screen s))).Sound (m.step (.switchScreen s)) := by
  have hterm : (m.step (.switchScreen s)).term = m.term := Function.update_eq_self ..
  rw [step_screen]
  refine ⟨h.shows.step (.switchScreen s), attr_step h.attr _, ?_, h.line, h.length_le⟩
  rw [hterm]
  exact h.marks

theorem enter (h : t.Sound m) (commands : Nat → List Call) :
    ∃ m', (t.step commands (some (.char 0x0A))).Sound m' := by
  rw [step_enter]
  exact ⟨_, h.shows.run _, attr_run _ h.attr, fun j => SoundOn.nothing j _, rfl, Nat.zero_le _⟩

end Sound

namespace Stacked

theorem char (h : t.Sound m) (hstack : t.Stacked m) {b : U8} (hb : b ≠ 0x0A)
    (hn : t.console.editor.n < LINE_MAX) :
    (t.step commands (some (.char b))).Stacked (m.step (.putChar b)) := by
  have hlen := h.length_held
  have hlive := h.live_eq
  rw [step_char hb hn]
  intro j
  show Behind (Function.update m.term m.active ((m.term m.active).putb b) j).cursor
    (Function.update t.marks t.display.active _ j) (List.filter _ (_ :: t.held))
  rw [hlive, h.shows.active]
  by_cases hj : j = m.active
  · subst hj
    rw [Function.update_self, Function.update_self, putb_cursor hb,
      List.filter_cons_of_pos (by simp)]
    refine (hstack _).put (h.shows.cursor_lt _) ?_ _
    exact Nat.lt_of_le_of_lt (List.length_filter_le ..) (by omega)
  · rw [Function.update_of_ne hj, Function.update_of_ne hj,
      List.filter_cons_of_neg (by simpa using Ne.symm hj)]
    exact hstack j

theorem backspace (h : t.Sound m) (hstack : t.Stacked m) {e : Echo} {rest : List Echo}
    (hheld : t.held = e :: rest) (hhome : e.screen = t.display.active)
    (hn : t.console.editor.n > 0) :
    (t.step commands (some .backspace)).Stacked (m.step .backspace) := by
  have hlive := h.live_eq
  rw [step_backspace hn]
  intro j
  show Behind (Function.update m.term m.active (Vga.Op.edit (m.term m.active) .backspace) j).cursor
    (Function.update t.marks t.display.active _ j) (List.filter _ t.held.tail)
  have hbehind := hstack j
  rw [hheld] at hbehind ⊢
  rw [hlive, h.shows.active] at *
  by_cases hj : j = m.active
  · subst hj
    rw [List.filter_cons_of_pos (by simpa using hhome)] at hbehind
    rw [Function.update_self, Function.update_self, backspace_cursor]
    exact hbehind.erase
  · rw [Function.update_of_ne hj, Function.update_of_ne hj]
    rw [List.filter_cons_of_neg (by simpa [hhome] using Ne.symm hj)] at hbehind
    exact hbehind

end Stacked

/-- A key keeps the trace right, and keeps the echoes in place unless it removes a byte away from
the screen that the byte was typed on. -/
theorem Sound.step (h : t.Sound m) (commands : Nat → List Call) (key : Option Key) :
    ∃ m', (t.step commands key).Sound m' ∧
      (t.Stacked m →
        (key = some .backspace → ∀ e ∈ t.held.head?, e.screen = t.display.active) →
        (t.step commands key).Stacked m') := by
  cases key with
  | none => exact ⟨m, h, fun hstack _ => hstack⟩
  | some key =>
    cases key with
    | char b =>
      by_cases hb : b = 0x0A
      · subst hb
        obtain ⟨m', henter⟩ := h.enter commands
        refine ⟨m', henter, fun _ _ j => ?_⟩
        rw [step_enter]
        exact Behind.nil _ _
      by_cases hn : t.console.editor.n < LINE_MAX
      · exact ⟨_, h.char hb hn, fun hstack _ => Stacked.char h hstack hb hn⟩
      · rw [step_full hb hn]
        exact ⟨m, h, fun hstack _ => hstack⟩
    | backspace =>
      by_cases hn : t.console.editor.n > 0
      · refine ⟨_, h.backspace hn, fun hstack hhome => ?_⟩
        obtain ⟨e, rest, hheld⟩ := h.exists_held hn
        exact Stacked.backspace h hstack hheld (hhome rfl e (by rw [hheld]; rfl)) hn
      · rw [step_empty hn]
        exact ⟨m, h, fun hstack _ => hstack⟩
    | screen s =>
      have hterm : (m.step (.switchScreen s)).term = m.term := Function.update_eq_self ..
      refine ⟨_, h.screen s, fun hstack _ j => ?_⟩
      rw [hterm]
      exact hstack j

theorem Sound.run (commands : Nat → List Call) (keys : List (Option Key)) :
    ∀ {t : Trace} {m : Terminals}, t.Sound m → ∃ m', (t.run commands keys).Sound m' := by
  induction keys with
  | nil => exact fun h => ⟨_, h⟩
  | cons key keys ih =>
    intro t m h
    obtain ⟨m', hstep, -⟩ := h.step commands key
    exact ih hstep

/-! ## One Backspace -/

/-- The last echo is that of the last byte. -/
theorem Sound.byte_eq (h : t.Sound m) {e : Echo} {rest : List Echo} (hheld : t.held = e :: rest) :
    e.byte = t.console.editor.buf (t.console.editor.n - 1) := by
  have hline := h.line
  have hlen := h.length_held
  rw [hheld, List.length_cons] at hlen
  rw [hheld, Editor.line, ← hlen, List.range_succ, List.map_append, List.reverse_append] at hline
  rw [← hlen]
  exact (List.cons.inj hline).1

/-- The echo that is erased is on the active screen. -/
theorem Sound.home_of_erases (h : t.Sound m) (herases : t.Erases) :
    ∀ e ∈ t.held.head?, e.screen = t.display.active := by
  obtain ⟨e, rest, hheld, -, -, hmark, -⟩ := herases
  intro f hf
  rw [hheld, List.head?_cons, Option.mem_some_iff] at hf
  subst hf
  exact (h.marks _ _ _ hmark).2.1

theorem Sound.erases (h : t.Sound m) (hstack : t.Stacked m)
    (hhome : ∀ e ∈ t.held.head?, e.screen = t.display.active) (hn : t.console.editor.n > 0) :
    t.Erases := by
  obtain ⟨e, rest, hheld⟩ := h.exists_held hn
  have hscreen : e.screen = t.display.active := hhome e (by rw [hheld]; rfl)
  have hbehind := hstack t.display.active
  rw [hheld, List.filter_cons_of_pos (by simpa using hscreen), ← h.live_eq] at hbehind
  obtain ⟨hpos, hmark⟩ := hbehind 0 e rfl
  rw [Nat.sub_zero] at hmark
  refine ⟨e, rest, hheld, h.byte_eq hheld, hpos, hmark, ?_⟩
  rw [h.live_eq] at hmark ⊢
  exact (h.marks _ _ _ hmark).2.2

/-- The trace only watches. -/
theorem run_console (commands : Nat → List Call) (keys : List (Option Key)) : ∀ t : Trace,
    (t.run commands keys).console = t.console.run commands keys := by
  induction keys with
  | nil => exact fun _ => rfl
  | cons key keys ih =>
    intro t
    have hstep : (t.step commands key).console = t.console.step commands key := by
      unfold step
      dsimp only
      split
      · split
        · rfl
        · split <;> rfl
      · split <;> rfl
      · rfl
    show ((t.step commands key).run commands keys).console = _
    rw [ih, hstep]
    rfl

theorem sound_start (cells : Cells) (crtc : Crtc) (ops : List Vga.Op) :
    ∃ m, (start ((Display.boot cells crtc).run ops)).Sound m ∧
      (start ((Display.boot cells crtc).run ops)).Stacked m := by
  have hattr : ∀ j, charOf ((Terminals.boot cells).term j).attr = 0 := by
    intro j
    show charOf (if j = 0 then (⟨cells, 0, DEFAULT_ATTR⟩ : Screen) else blank).attr = 0
    split <;> exact (by decide : charOf DEFAULT_ATTR = 0)
  refine ⟨((Terminals.boot cells).run ops).run (.print WELCOME :: promptCalls),
    ⟨?_, attr_run _ (attr_run _ hattr), fun j => SoundOn.nothing j _, rfl, Nat.zero_le _⟩,
    fun j => Behind.nil _ _⟩
  exact ((shows_boot cells crtc).run ops).run (.print WELCOME :: promptCalls)

end Trace

/-! ## The screens that the bytes were typed on -/

theorem edit_active (v : Display) (live : Screen) : (v.edit live).active = v.active := rfl

theorem active_step (v : Display) (op : Vga.Op) : (v.step op).active = op.active v.active := by
  cases op with
  | clear => exact edit_active v v.live.clear
  | setColor fg bg => rfl
  | print bytes => exact edit_active v (v.live.putBytes bytes)
  | putChar b => exact edit_active v (v.live.putb b)
  | backspace =>
    rw [Display.step, Display.backspace]
    split <;> rfl
  | switchScreen n =>
    rw [Display.step, Display.switchScreen, Vga.Op.active]
    split <;> rfl

theorem active_run (ops : List Vga.Op) : ∀ {v : Display}, (∀ op ∈ ops, ∀ a, op.active a = a) →
    (v.run ops).active = v.active := by
  induction ops with
  | nil => exact fun _ => rfl
  | cons op ops ih =>
    intro v h
    show ((v.step op).run ops).active = v.active
    rw [ih fun op' hop => h op' (List.mem_cons_of_mem _ hop), active_step,
      h op List.mem_cons_self]

theorem promptCalls_active (op : Vga.Op) (hop : op ∈ promptCalls) (a : Nat) : op.active a = a := by
  simp only [promptCalls, List.mem_cons, List.not_mem_nil, or_false] at hop
  rcases hop with rfl | rfl | rfl <;> rfl

namespace Typed

variable {commands : Nat → List Call} {t : Trace} {m : Terminals} {p : Typed}

/-- The keys say of the trace what the trace knows. -/
structure Agrees (p : Typed) (t : Trace) : Prop where
  active : p.active = t.display.active
  homes : p.homes = t.held.map Echo.screen

theorem Agrees.enter (h : p.Agrees t) :
    (p.step (some (.char 0x0A))).Agrees (t.step commands (some (.char 0x0A))) := by
  rw [Trace.step_enter]
  refine ⟨?_, rfl⟩
  show p.active = (t.display.run _).active
  rw [active_run, h.active]
  intro op hop a
  rw [List.cons_append, List.mem_cons, List.mem_append, List.mem_map] at hop
  rcases hop with rfl | ⟨call, -, rfl⟩ | hop
  · rfl
  · cases call <;> rfl
  · exact promptCalls_active op hop a

theorem Agrees.step (h : p.Agrees t) (hsound : t.Sound m) (key : Option Key) :
    (p.step key).Agrees (t.step commands key) := by
  have hlen : p.homes.length = t.console.editor.n := by
    rw [h.homes, List.length_map, hsound.length_held]
  cases key with
  | none => exact h
  | some key =>
    cases key with
    | char b =>
      by_cases hb : b = 0x0A
      · subst hb
        exact h.enter
      simp only [Typed.step, if_neg hb, hlen]
      by_cases hn : t.console.editor.n < LINE_MAX
      · rw [Trace.step_char hb hn, if_pos hn]
        exact ⟨h.active, by rw [h.active, h.homes]; rfl⟩
      · rw [Trace.step_full hb hn, if_neg hn]
        exact h
    | backspace =>
      by_cases hn : t.console.editor.n > 0
      · rw [Trace.step_backspace hn]
        refine ⟨?_, ?_⟩
        · show p.active = (t.display.step .backspace).active
          rw [active_step, h.active]
          rfl
        · show p.homes.tail = t.held.tail.map Echo.screen
          rw [h.homes, List.map_tail]
      · rw [Trace.step_empty hn]
        have hnil : p.homes = [] := List.eq_nil_of_length_eq_zero (by omega)
        refine ⟨h.active, ?_⟩
        show p.homes.tail = _
        rw [hnil, List.tail_nil, ← h.homes, hnil]
    | screen s =>
      rw [Trace.step_screen]
      refine ⟨?_, ?_⟩
      · show (if s < NB_SCREENS then ({ p with active := s } : Typed) else p).active =
          (t.display.step (.switchScreen s)).active
        rw [active_step, Vga.Op.active, ← h.active]
        by_cases hs : s < NB_SCREENS
        · rw [if_pos hs]
          show s = _
          split <;> omega
        · rw [if_neg hs, if_pos (.inl (Nat.le_of_not_lt hs))]
      · show (if s < NB_SCREENS then ({ p with active := s } : Typed) else p).homes = _
        rw [← h.homes]
        split <;> rfl

theorem Agrees.run (commands : Nat → List Call) (keys : List (Option Key)) :
    ∀ {t : Trace} {m : Terminals} {p : Typed}, p.Agrees t → t.Sound m →
    (p.run keys).Agrees (t.run commands keys) := by
  induction keys with
  | nil => exact fun h _ => h
  | cons key keys ih =>
    intro t m p h hsound
    obtain ⟨m', hstep, -⟩ := hsound.step commands key
    exact ih (h.step hsound key) hstep

theorem Agrees.head (h : p.Agrees t) :
    (∀ s ∈ p.homes.head?, s = p.active) ↔ ∀ e ∈ t.held.head?, e.screen = t.display.active := by
  rw [h.homes, h.active]
  cases t.held with
  | nil => simp
  | cons e rest => simp

end Typed

/-! ## Whole runs -/

theorem atHome_cons {p : Typed} {key : Option Key} {keys : List (Option Key)}
    (h : AtHome p (key :: keys)) :
    (key = some .backspace → ∀ s ∈ p.homes.head?, s = p.active) ∧ AtHome (p.step key) keys := by
  constructor
  · rintro rfl
    exact h [] keys rfl
  · intro before after heq
    exact h (key :: before) after (congrArg (key :: ·) heq)

theorem stacked_run (commands : Nat → List Call) (keys : List (Option Key)) :
    ∀ {t : Trace} {m : Terminals} {p : Typed}, t.Sound m → t.Stacked m → p.Agrees t →
    AtHome p keys → ∃ m', (t.run commands keys).Sound m' ∧ (t.run commands keys).Stacked m' := by
  induction keys with
  | nil => exact fun hsound hstack _ _ => ⟨_, hsound, hstack⟩
  | cons key keys ih =>
    intro t m p hsound hstack hagrees hhome
    obtain ⟨hkey, hkeys⟩ := atHome_cons hhome
    obtain ⟨m', hsound', hstack'⟩ := hsound.step commands key
    exact ih hsound' (hstack' hstack fun hback => hagrees.head.mp (hkey hback))
      (hagrees.step hsound key) hkeys

theorem agrees_start (v : Display) : Typed.Agrees ⟨v.active, []⟩ (Trace.start v) := by
  refine ⟨?_, rfl⟩
  show v.active = (v.run (.print WELCOME :: promptCalls)).active
  rw [active_run]
  intro op hop a
  rcases List.mem_cons.mp hop with rfl | hop
  · rfl
  · exact promptCalls_active op hop a

section Runs

variable {cells : Cells} {crtc : Crtc} {ops : List Vga.Op} {v : Display}
  {commands : Nat → List Call} {keys : List (Option Key)}

/-- An echo is on the screen that it was typed on and on no other. -/
theorem atHome_of_echoErased (hv : v = (Display.boot cells crtc).run ops)
    (h : EchoErased commands v keys) : AtHome ⟨v.active, []⟩ keys := by
  intro before after heq
  obtain ⟨m, hstart, -⟩ := Trace.sound_start cells crtc ops
  rw [← hv] at hstart
  obtain ⟨m', hsound⟩ := hstart.run commands before
  have hagrees := (agrees_start v).run commands before hstart
  rw [hagrees.head]
  cases hheld : ((Trace.start v).run commands before).held with
  | nil => simp
  | cons e rest =>
    rw [← hheld]
    apply hsound.home_of_erases
    apply h before after heq
    have hconsole := Trace.run_console commands before (Trace.start v)
    rw [← show (Trace.start v).console = Console.start v from rfl, ← hconsole,
      ← hsound.length_held, hheld]
    exact Nat.succ_pos _

theorem echoErased_of_atHome (hv : v = (Display.boot cells crtc).run ops)
    (h : AtHome ⟨v.active, []⟩ keys) : EchoErased commands v keys := by
  intro before after heq hn
  obtain ⟨m, hstart, hstack⟩ := Trace.sound_start cells crtc ops
  rw [← hv] at hstart hstack
  have hbefore : AtHome ⟨v.active, []⟩ before := by
    intro first last hsplit
    exact h first (last ++ some .backspace :: after) (by rw [heq, hsplit, List.append_assoc]; rfl)
  obtain ⟨m', hsound', hstack'⟩ :=
    stacked_run commands before hstart hstack (agrees_start v) hbefore
  have hagrees := (agrees_start v).run commands before hstart
  refine hsound'.erases hstack' (hagrees.head.mp (h before after heq)) ?_
  rw [Trace.run_console]
  exact hn

end Runs

/-- Whatever the driver was called for before, whatever the commands print and for every sequence of
keys: Backspace erases the echo of the byte that it removes, each time, if and only if each byte is
removed on the screen that it was typed on. -/
theorem backspace_erases_echo_iff (cells : Cells) (crtc : Crtc) (ops : List Vga.Op)
    (commands : Nat → List Call) (keys : List (Option Key)) :
    EchoErased commands ((Display.boot cells crtc).run ops) keys ↔
      AtHome ⟨((Display.boot cells crtc).run ops).active, []⟩ keys :=
  ⟨atHome_of_echoErased rfl, echoErased_of_atHome rfl⟩

/-! ## A prompt that is erased -/

/-- The prompt is left on the second screen, two bytes are typed on the first one, and one is
removed on the second. -/
def strayKeys : List (Option Key) :=
  [some (.screen 1), some (.char 0x0A), some (.screen 0), some (.char 0x61), some (.char 0x62),
    some (.screen 1), some .backspace]

/-- The calls that the keys make after those of the start, when no line is a command. -/
def strayCalls : List Vga.Op :=
  [.switchScreen 1, .putChar 0x0A] ++ promptCalls ++
    [.switchScreen 0, .putChar 0x61, .putChar 0x62, .switchScreen 1, .backspace]

def strayBuf : Nat → U8 := Function.update (Function.update (fun _ => 0) 0 0x61) 1 0x62

theorem stray_run (d : Display) :
    Console.run (fun _ => []) ⟨⟨fun _ => 0, 0, d⟩, 0⟩ strayKeys =
      ⟨⟨strayBuf, 1, d.run strayCalls⟩, 1⟩ := by
  simp only [Console.run, strayKeys, List.foldl_cons, List.foldl_nil, Console.step, pass,
    List.map_nil]
  rfl

/-- The second screen before the next key, from the calls that were issued to it alone. -/
theorem stray_live :
    ((prompt (firstScreen.print WELCOME)).run strayCalls).live =
      List.foldl Vga.Op.edit blank
        (.putChar 0x0A :: promptCalls ++ [.switchScreen 0, .backspace]) := by
  have hshows := (shows_boot (fun _ => 0) ⟨0, fun _ => 0⟩).run
    (.clear :: .print WELCOME :: promptCalls ++ strayCalls)
  have hrun : (Display.boot (fun _ => 0) ⟨0, fun _ => 0⟩).run
      (.clear :: .print WELCOME :: promptCalls ++ strayCalls) =
      (prompt (firstScreen.print WELCOME)).run strayCalls := by
    rw [firstScreen]
    generalize Display.boot (fun _ => 0) ⟨0, fun _ => 0⟩ = d
    rw [Display.run, List.foldl_append]
    rfl
  have hlive := hshows.live
  rw [hrun, Terminals.run_term] at hlive
  exact hlive

theorem backspace_live (v : Display) : v.backspace.live = Vga.Op.edit v.live .backspace := by
  rw [Display.backspace, Vga.Op.edit]
  split <;> rfl

/-- The second Backspace removes `a` from the buffer and blanks the `>` of the prompt. -/
theorem backspace_erases_prompt :
    let before := (Console.start firstScreen).run (fun _ => []) strayKeys
    let after := (Console.start firstScreen).run (fun _ => []) (strayKeys ++ [some .backspace])
    before.editor.line = [0x61] ∧ after.editor.line = [] ∧
      charOf (readCell before.editor.display.live.cells 83) = 0x3E ∧
      charOf (readCell after.editor.display.live.cells 83) = 0x20 ∧
      ¬EchoErased (fun _ => []) firstScreen (strayKeys ++ [some .backspace]) := by
  intro before after
  have hbefore : before = ⟨⟨strayBuf, 1, (prompt (firstScreen.print WELCOME)).run strayCalls⟩, 1⟩ :=
    stray_run _
  have hafter : after =
      ⟨⟨strayBuf, 0, ((prompt (firstScreen.print WELCOME)).run strayCalls).backspace⟩, 1⟩ := by
    show List.foldl _ _ _ = _
    rw [List.foldl_append]
    exact congrArg (fun c => Console.step (fun _ => []) c (some .backspace)) hbefore
  refine ⟨by rw [hbefore]; rfl, by rw [hafter]; rfl, ?_, ?_, ?_⟩
  · rw [hbefore, stray_live]
    decide
  · rw [hafter, backspace_live, stray_live]
    decide
  · intro herased
    have hfirst : firstScreen = (Display.boot (fun _ => 0) ⟨0, fun _ => 0⟩).run [.clear] := rfl
    have hhome := atHome_of_echoErased hfirst herased strayKeys [] rfl
    exact absurd (hhome 0 rfl) (by decide)

end Kfs.Shell
