import Kfs.Vga.Screens

/-!
# The driver with its assertions

The release build drops the two `debug_assert!`s of `kernel/src/vga.rs`, and `put_cell` and
`read_cell` then go through a raw pointer with whatever index they are given.  The functions here
are those of a build that keeps them: an index outside the buffer ends the call with `none`.

`OnScreen` is the invariant of the cursors.  Under it the two builds agree call by call, so
`accesses_in_bounds` says that no run reaches an index outside the buffer.
-/

namespace Kfs.Vga

namespace Debug

/-! ## The checked functions -/

def putCell (cells : Cells) (i : Nat) (cell : U16) : Option Cells :=
  if i < CELLS then some (Vga.putCell cells i cell) else none

def readCell (cells : Cells) (i : Nat) : Option U16 :=
  if i < CELLS then some (Vga.readCell cells i) else none

/-- `for i in lo..lo + n { put_cell(i, f(i)) }`. -/
def putCells (f : Cells → Nat → Option U16) : Nat → Nat → Cells → Option Cells
  | _, 0, cells => some cells
  | i, n + 1, cells => do
    let cell ← f cells i
    let cells ← putCell cells i cell
    putCells f (i + 1) n cells

def clear (s : Screen) : Option Screen := do
  let cells ← putCells (fun _ _ => some (s.attr ||| 0x20)) 0 CELLS s.cells
  some { s with cells := cells, cursor := 0 }

def scroll (s : Screen) : Option Screen := do
  let cells ← putCells (fun cells i => readCell cells (i + WIDTH)) 0 (CELLS - WIDTH) s.cells
  let cells ← putCells (fun _ _ => some (s.attr ||| 0x20)) (CELLS - WIDTH) WIDTH cells
  some { s with cells := cells }

def putb (s : Screen) (b : U8) : Option Screen := do
  let s ←
    if b = 0x0A then some { s with cursor := s.cursor - s.cursor % WIDTH + WIDTH }
    else do
      let cells ← putCell s.cells s.cursor (s.attr ||| b.setWidth 16)
      some { s with cells := cells, cursor := s.cursor + 1 }
  if s.cursor ≥ CELLS then do
    let s ← scroll s
    some { s with cursor := CELLS - WIDTH }
  else some s

def putBytes (s : Screen) (bytes : List U8) : Option Screen := bytes.foldlM putb s

def stepBack (s : Screen) : Option Screen := do
  let cells ← putCell s.cells (s.cursor - 1) (s.attr ||| 0x20)
  some { s with cursor := s.cursor - 1, cells := cells }

def switchScreen (v : Display) (n : Nat) : Option Display :=
  if n ≥ NB_SCREENS ∨ n = v.active then some v
  else do
    let a := v.active
    let cells ← putCells (fun _ i => readCell v.live.cells i) 0 CELLS (v.screens a).cells
    let saved : Screen := { cells := cells, cursor := v.live.cursor, attr := v.live.attr }
    let screens := Function.update v.screens a saved
    let used := Function.update v.used a true
    let live : Screen ←
      if used n = true then do
        let cells ← putCells (fun _ i => readCell (screens n).cells i) 0 CELLS v.live.cells
        some { cells := cells, cursor := (screens n).cursor, attr := (screens n).attr }
      else do
        let cells ← putCells (fun _ _ => some (DEFAULT_ATTR ||| 0x20)) 0 CELLS v.live.cells
        some { cells := cells, cursor := 0, attr := DEFAULT_ATTR }
    some
      { live := live
        screens := screens
        used := used
        active := n
        crtc := v.crtc.syncHwCursor live.cursor }

def step (v : Display) : Op → Option Display
  | .clear => (clear v.live).map v.edit
  | .setColor fg bg => some (v.setColor fg bg)
  | .print bytes => (putBytes v.live bytes).map v.edit
  | .putChar b => (putb v.live b).map v.edit
  | .backspace => if v.live.cursor > 0 then (stepBack v.live).map v.edit else some v
  | .switchScreen n => switchScreen v n

def run (v : Display) (ops : List Op) : Option Display := ops.foldlM step v

/-! ## The checks pass -/

theorem putCell_eq {i : Nat} (h : i < CELLS) (cells : Cells) (cell : U16) :
    putCell cells i cell = some (Vga.putCell cells i cell) := if_pos h

theorem readCell_eq {i : Nat} (h : i < CELLS) (cells : Cells) :
    readCell cells i = some (Vga.readCell cells i) := if_pos h

/-- A loop over indices of the buffer passes the checks if what it writes does. -/
theorem putCells_eq_some {f : Cells → Nat → Option U16} {g : Cells → Nat → U16} (n : Nat) :
    ∀ (lo : Nat) (cells : Cells), lo + n ≤ CELLS →
      (∀ cells i, lo ≤ i → i < lo + n → f cells i = some (g cells i)) →
      putCells f lo n cells = some (Vga.putCells g lo n cells) := by
  induction n with
  | zero =>
    intro lo cells _ _
    rfl
  | succ n ih =>
    intro lo cells hlo hf
    rw [putCells, hf cells lo (Nat.le_refl lo) (by omega)]
    simp only [Option.bind_eq_bind, Option.bind_some]
    rw [putCell_eq (by omega), Option.bind_some]
    apply ih
    · omega
    · intro cells i hi hn
      exact hf cells i (by omega) (by omega)

/-- Filling the buffer, or a part of it, with one cell. -/
theorem putCells_fill (c : U16) {lo n : Nat} (h : lo + n ≤ CELLS) (cells : Cells) :
    putCells (fun _ _ => some c) lo n cells = some (Vga.putCells (fun _ _ => c) lo n cells) :=
  putCells_eq_some n lo cells h fun _ _ _ _ => rfl

/-- Copying a buffer. -/
theorem putCells_copy (src cells : Cells) :
    putCells (fun _ i => readCell src i) 0 CELLS cells
      = some (Vga.putCells (fun _ i => Vga.readCell src i) 0 CELLS cells) := by
  apply putCells_eq_some
  · decide
  · intro _ i _ hi
    exact readCell_eq (by omega) src

theorem clear_eq (s : Screen) : clear s = some s.clear := by
  rw [clear, putCells_fill _ (by decide)]
  rfl

/-- `scroll` reads one row ahead of what it writes, and stops one row before the end. -/
theorem scroll_eq (s : Screen) : scroll s = some s.scroll := by
  have hmove : putCells (fun cells i => readCell cells (i + WIDTH)) 0 (CELLS - WIDTH) s.cells
      = some (Vga.putCells (fun cells i => Vga.readCell cells (i + WIDTH)) 0 (CELLS - WIDTH)
          s.cells) := by
    apply putCells_eq_some
    · decide
    · intro cells i _ hi
      apply readCell_eq
      simp only [WIDTH, CELLS] at hi ⊢
      omega
  rw [scroll, hmove]
  simp only [Option.bind_eq_bind, Option.bind_some]
  rw [putCells_fill _ (by decide)]
  rfl

/-- The one index of `putb` is the cursor. -/
theorem putb_eq {s : Screen} (h : s.cursor < CELLS) (b : U8) : putb s b = some (s.putb b) := by
  rw [putb, putCell_eq h, Screen.putb]
  by_cases hb : b = 0x0A
  · simp only [if_pos hb, Option.bind_eq_bind, Option.bind_some, scroll_eq]
    split <;> rfl
  · simp only [if_neg hb, Option.bind_eq_bind, Option.bind_some, scroll_eq]
    split <;> rfl

theorem putBytes_eq (bytes : List U8) : ∀ {s : Screen}, s.cursor < CELLS →
    putBytes s bytes = some (s.putBytes bytes) := by
  induction bytes with
  | nil => exact fun _ => rfl
  | cons b bytes ih =>
    intro s h
    rw [putBytes, List.foldlM_cons, putb_eq h]
    exact ih (Screen.putb_cursor_lt s b)

theorem stepBack_eq {s : Screen} (h : s.cursor < CELLS) : stepBack s = some s.stepBack := by
  rw [stepBack, putCell_eq (by omega)]
  rfl

theorem switchScreen_eq (v : Display) (n : Nat) :
    switchScreen v n = some (v.switchScreen n) := by
  unfold switchScreen Display.switchScreen
  split
  · rfl
  · simp only [putCells_copy, putCells_fill _ (show 0 + CELLS ≤ CELLS from Nat.le_refl _),
      Option.bind_eq_bind, Option.bind_some]
    split <;> rfl

end Debug

/-! ## The cursors -/

/-- The cursor is on the screen, and so is the one of every screen that was left. -/
structure Display.OnScreen (v : Display) : Prop where
  live : v.live.cursor < CELLS
  saved : ∀ j, v.used j = true → (v.screens j).cursor < CELLS

theorem onScreen_boot (cells : Cells) (crtc : Crtc) : (Display.boot cells crtc).OnScreen where
  live := (by decide : 0 < CELLS)
  saved j h := by cases h

namespace Display.OnScreen

variable {v : Display}

theorem edit (h : v.OnScreen) {live : Screen} (hlive : live.cursor < CELLS) :
    (v.edit live).OnScreen := ⟨hlive, h.saved⟩

theorem switchScreen (h : v.OnScreen) (n : Nat) : (v.switchScreen n).OnScreen := by
  unfold Display.switchScreen
  split
  · exact h
  · have hsaved : ∀ j (cells : Cells), Function.update v.used v.active true j = true →
        (Function.update v.screens v.active ⟨cells, v.live.cursor, v.live.attr⟩ j).cursor
          < CELLS := by
      intro j cells hused
      by_cases hj : j = v.active
      · rw [hj, Function.update_self]
        exact h.live
      · rw [Function.update_of_ne hj] at hused ⊢
        exact h.saved j hused
    constructor
    · dsimp only
      split
      · rename_i hused
        dsimp only
        exact hsaved n _ hused
      · exact (by decide : 0 < CELLS)
    · intro j hused
      exact hsaved j _ hused

/-- A call keeps the cursors on the screen, and all its checks pass. -/
theorem step (h : v.OnScreen) (op : Op) :
    (v.step op).OnScreen ∧ Debug.step v op = some (v.step op) := by
  cases op with
  | clear =>
    have hcursor : v.live.clear.cursor < CELLS := (by decide : 0 < CELLS)
    refine ⟨h.edit hcursor, ?_⟩
    rw [Debug.step, Debug.clear_eq]
    rfl
  | setColor fg bg => exact ⟨⟨h.live, h.saved⟩, rfl⟩
  | print bytes =>
    refine ⟨h.edit (Screen.putBytes_cursor_lt bytes h.live), ?_⟩
    rw [Debug.step, Debug.putBytes_eq bytes h.live]
    rfl
  | putChar b =>
    refine ⟨h.edit (Screen.putb_cursor_lt _ b), ?_⟩
    rw [Debug.step, Debug.putb_eq h.live]
    rfl
  | backspace =>
    rw [Debug.step, Display.step, Display.backspace, Debug.stepBack_eq h.live]
    split
    · exact ⟨h.edit (Nat.lt_of_le_of_lt (Nat.sub_le _ 1) h.live), rfl⟩
    · exact ⟨h, rfl⟩
  | switchScreen n => exact ⟨h.switchScreen n, Debug.switchScreen_eq v n⟩

theorem run (ops : List Op) : ∀ {v : Display}, v.OnScreen →
    (v.run ops).OnScreen ∧ Debug.run v ops = some (v.run ops) := by
  induction ops with
  | nil => exact fun h => ⟨h, rfl⟩
  | cons op ops ih =>
    intro v h
    obtain ⟨hnext, hstep⟩ := h.step op
    rw [Debug.run, List.foldlM_cons, hstep]
    exact ih hnext

end Display.OnScreen

/-- From boot on, whatever is called: every index of the buffer that is written or read passes its
check, and the cursor of the active screen and of every screen that was left is in the buffer. -/
theorem accesses_in_bounds (cells : Cells) (crtc : Crtc) (ops : List Op) :
    Debug.run (Display.boot cells crtc) ops = some ((Display.boot cells crtc).run ops) ∧
    ((Display.boot cells crtc).run ops).live.cursor < CELLS ∧
    ∀ j, ((Display.boot cells crtc).run ops).used j = true →
      (((Display.boot cells crtc).run ops).screens j).cursor < CELLS := by
  obtain ⟨hon, hrun⟩ := (onScreen_boot cells crtc).run ops
  exact ⟨hrun, hon.live, hon.saved⟩

end Kfs.Vga
