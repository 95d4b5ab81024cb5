import Kfs.Vga
import Mathlib.Tactic.Common

/-!
# Virtual screens are independent terminals

`Terminals` is what the driver is for: one terminal for each screen and the number of the active
one.  A call edits the active terminal and no other, and a switch changes the number only.
`Display.Shows` relates the driver's state to it: the active terminal is in the hardware buffer, a
screen that was left is in its slot, and a screen that was never entered is blank.

* `Shows.step` is the step of the simulation and `Shows.run` the run.
* `Terminals.run_term` says what a run leaves in one terminal: the calls issued while it was
  active, in order.
* `Synced` says that the controller's registers hold the cursor.
-/

namespace Kfs.Vga

/-! ## Loops over the cells -/

theorem readCell_val (cells : Cells) (j : Fin CELLS) : readCell cells j.val = cells j := by
  rw [readCell, dif_pos j.isLt]

/-- A loop that does not read what it writes. -/
theorem putCells_eq (g : Nat → U16) (n : Nat) : ∀ (lo : Nat) (cells : Cells) (j : Fin CELLS),
    putCells (fun _ i => g i) lo n cells j
      = if lo ≤ j.val ∧ j.val < lo + n then g j.val else cells j := by
  induction n with
  | zero =>
    intro lo cells j
    rw [putCells, if_neg (by omega)]
  | succ n ih =>
    intro lo cells j
    rw [putCells, ih, putCell]
    by_cases hj : j.val = lo
    · rw [if_neg (by omega), if_pos hj, if_pos (by omega), hj]
    · rw [if_neg hj]
      by_cases hin : lo + 1 ≤ j.val ∧ j.val < lo + 1 + n
      · rw [if_pos hin, if_pos (by omega)]
      · rw [if_neg hin, if_neg (by omega)]

/-- A loop over the whole buffer leaves nothing of what was there. -/
theorem putCells_all (g : Nat → U16) (cells : Cells) :
    putCells (fun _ i => g i) 0 CELLS cells = fun j => g j.val := by
  funext j
  rw [putCells_eq, if_pos ⟨Nat.zero_le _, by have := j.isLt; omega⟩]

/-- Copying a buffer cell by cell. -/
theorem putCells_copy (src cells : Cells) :
    putCells (fun _ i => readCell src i) 0 CELLS cells = src := by
  rw [putCells_all]
  funext j
  exact readCell_val src j

/-- `clear` leaves nothing of the screen but its colour. -/
theorem clear_eq (s : Screen) : s.clear = ⟨fun _ => s.attr ||| 0x20, 0, s.attr⟩ := by
  rw [Screen.clear, putCells_all]

theorem readCell_putCell_ne (cells : Cells) {i k : Nat} (h : i ≠ k) (c : U16) :
    readCell (putCell cells k c) i = readCell cells i := by
  unfold readCell putCell
  simp [h]

theorem readCell_putCell (cells : Cells) {i k : Nat} (hi : i < CELLS) (c : U16) :
    readCell (putCell cells k c) i = if i = k then c else readCell cells i := by
  unfold readCell putCell
  simp [hi]

/-- A loop that fills a part of the buffer. -/
theorem readCell_fill (c : U16) (lo n : Nat) (cells : Cells) {i : Nat} (hi : i < CELLS) :
    readCell (putCells (fun _ _ => c) lo n cells) i
      = if lo ≤ i ∧ i < lo + n then c else readCell cells i := by
  have h := putCells_eq (fun _ => c) n lo cells ⟨i, hi⟩
  rw [readCell, dif_pos hi, readCell, dif_pos hi]
  exact h

/-- A loop that copies from `k` cells ahead may work in place: what it reads it has not written. -/
theorem readCell_shift {k : Nat} (hk : 0 < k) (n : Nat) : ∀ (lo : Nat) (cells : Cells) {i : Nat},
    i < CELLS →
    readCell (putCells (fun cells i => readCell cells (i + k)) lo n cells) i
      = if lo ≤ i ∧ i < lo + n then readCell cells (i + k) else readCell cells i := by
  induction n with
  | zero =>
    intro lo cells i _
    rw [putCells, if_neg (by omega)]
  | succ n ih =>
    intro lo cells i hi
    rw [putCells, ih _ _ hi]
    by_cases hlo : i = lo
    · rw [if_neg (by omega), if_pos (by omega), readCell_putCell _ hi, if_pos hlo, hlo]
    · rw [readCell_putCell_ne _ hlo]
      by_cases hin : lo + 1 ≤ i ∧ i < lo + 1 + n
      · rw [if_pos hin, if_pos (by omega), readCell_putCell_ne _ (by omega)]
      · rw [if_neg hin, if_neg (by omega)]

/-- `scroll` moves every row up by one and blanks the last. -/
theorem readCell_scroll (s : Screen) {i : Nat} (hi : i < CELLS) :
    readCell s.scroll.cells i
      = if i < CELLS - WIDTH then readCell s.cells (i + WIDTH) else s.attr ||| 0x20 := by
  rw [Screen.scroll, readCell_fill _ _ _ _ hi]
  by_cases hlast : i < CELLS - WIDTH
  · rw [if_neg (by omega), if_pos hlast, readCell_shift (by decide) _ _ _ hi, if_pos (by omega)]
  · rw [if_pos ⟨by omega, by simp only [CELLS, WIDTH, HEIGHT] at hi ⊢; omega⟩, if_neg hlast]

/-! ## The cursor stays on the screen -/

namespace Screen

theorem putb_cursor_lt (s : Screen) (b : U8) : (s.putb b).cursor < CELLS := by
  unfold putb
  extract_lets t
  split
  · show CELLS - WIDTH < CELLS
    decide
  · omega

theorem putBytes_cursor_lt (bytes : List U8) : ∀ {s : Screen}, s.cursor < CELLS →
    (s.putBytes bytes).cursor < CELLS := by
  induction bytes with
  | nil => exact fun h => h
  | cons b bytes ih => exact fun _ => ih (putb_cursor_lt _ b)

end Screen

/-! ## The abstract model -/

/-- The initial state of a screen that is entered for the first time. -/
def blank : Screen := ⟨fun _ => DEFAULT_ATTR ||| 0x20, 0, DEFAULT_ATTR⟩

/-- What a call does to the terminal it is issued to. -/
def Op.edit (s : Screen) : Op → Screen
  | .clear => s.clear
  | .setColor fg bg => s.setColor fg bg
  | .print bytes => s.putBytes bytes
  | .putChar b => s.putb b
  | .backspace => if s.cursor > 0 then s.stepBack else s
  | .switchScreen _ => s

/-- The active screen after a call. -/
def Op.active (a : Nat) : Op → Nat
  | .switchScreen n => if n ≥ NB_SCREENS ∨ n = a then a else n
  | _ => a

theorem Op.edit_cursor_lt {s : Screen} (h : s.cursor < CELLS) (op : Op) :
    (op.edit s).cursor < CELLS := by
  cases op with
  | clear => exact (by decide : 0 < CELLS)
  | setColor fg bg => exact h
  | print bytes => exact Screen.putBytes_cursor_lt bytes h
  | putChar b => exact Screen.putb_cursor_lt s b
  | backspace =>
    simp only [Op.edit]
    split
    · show s.cursor - 1 < CELLS
      omega
    · exact h
  | switchScreen n => exact h

/-- The three terminals and the number of the active one. -/
structure Terminals where
  term : Nat → Screen
  active : Nat

namespace Terminals

/-- At boot: screen 0 is what the buffer holds, the others are blank. -/
def boot (cells : Cells) : Terminals where
  term j := if j = 0 then ⟨cells, 0, DEFAULT_ATTR⟩ else blank
  active := 0

def step (m : Terminals) (op : Op) : Terminals where
  term := Function.update m.term m.active (op.edit (m.term m.active))
  active := op.active m.active

def run (m : Terminals) (ops : List Op) : Terminals := ops.foldl step m

/-- The calls of a list that are issued while screen `j` is active. -/
def issuedTo (j : Nat) : Nat → List Op → List Op
  | _, [] => []
  | a, op :: ops =>
    if a = j then op :: issuedTo j (op.active a) ops else issuedTo j (op.active a) ops

/-- A terminal holds what the calls issued to it, and no others, left in it. -/
theorem run_term (j : Nat) (ops : List Op) : ∀ m : Terminals,
    (m.run ops).term j = (issuedTo j m.active ops).foldl Op.edit (m.term j) := by
  induction ops with
  | nil => exact fun _ => rfl
  | cons op ops ih =>
    intro m
    show ((m.step op).run ops).term j = _
    rw [ih (m.step op), issuedTo]
    by_cases hj : m.active = j
    · rw [if_pos hj, List.foldl_cons]
      subst hj
      rw [show (m.step op).term m.active = op.edit (m.term m.active) from
        Function.update_self ..]
      rfl
    · rw [if_neg hj, show (m.step op).term j = m.term j from
        Function.update_of_ne (Ne.symm hj) ..]
      rfl

end Terminals

/-! ## The simulation -/

/-- The driver's state shows the terminals. -/
structure Display.Shows (v : Display) (m : Terminals) : Prop where
  active : v.active = m.active
  active_lt : m.active < NB_SCREENS
  live : v.live = m.term m.active
  saved : ∀ j, j ≠ m.active → v.used j = true → v.screens j = m.term j
  fresh : ∀ j, j ≠ m.active → v.used j = false → m.term j = blank
  cursor_lt : ∀ j, (m.term j).cursor < CELLS

theorem shows_boot (cells : Cells) (crtc : Crtc) :
    (Display.boot cells crtc).Shows (Terminals.boot cells) where
  active := rfl
  active_lt := (by decide : 0 < NB_SCREENS)
  live := rfl
  saved j _ h := by cases h
  fresh j hj _ := if_neg hj
  cursor_lt j := by
    show (if j = 0 then (⟨cells, 0, DEFAULT_ATTR⟩ : Screen) else blank).cursor < CELLS
    split <;> exact (by decide : 0 < CELLS)

namespace Display.Shows

variable {v : Display} {m : Terminals}

/-- An edit changes the live screen on both sides. -/
theorem edit (h : v.Shows m) (op : Op) (hop : op.active m.active = m.active) {w : Display}
    (hlive : w.live = op.edit v.live) (hscreens : w.screens = v.screens)
    (hused : w.used = v.used) (hactive : w.active = v.active) : w.Shows (m.step op) where
  active := by rw [hactive, h.active]; exact hop.symm
  active_lt := by
    show op.active m.active < NB_SCREENS
    rw [hop]
    exact h.active_lt
  live := by
    show w.live = Function.update m.term m.active _ (op.active m.active)
    rw [hop, Function.update_self, hlive, h.live]
  saved j hj hu := by
    have hj : j ≠ m.active := fun e => hj (by rw [e]; exact hop.symm)
    rw [hscreens, h.saved j hj (by rw [← hused]; exact hu)]
    exact (Function.update_of_ne hj ..).symm
  fresh j hj hu := by
    have hj : j ≠ m.active := fun e => hj (by rw [e]; exact hop.symm)
    rw [show (m.step op).term j = m.term j from Function.update_of_ne hj ..]
    exact h.fresh j hj (by rw [← hused]; exact hu)
  cursor_lt j := by
    show (Function.update m.term m.active _ j).cursor < CELLS
    rw [Function.update_apply]
    split
    · exact Op.edit_cursor_lt (h.cursor_lt _) op
    · exact h.cursor_lt j

/-- The edits that are followed by a write of the cursor. -/
theorem edit_sync (h : v.Shows m) (op : Op) (hop : op.active m.active = m.active) {live : Screen}
    (hlive : live = op.edit v.live) : (v.edit live).Shows (m.step op) :=
  h.edit op hop hlive rfl rfl rfl

/-- A switch that goes through saves the live screen and shows the one it enters. -/
theorem switch (h : v.Shows m) {n : Nat} (hn : ¬(n ≥ NB_SCREENS ∨ n = v.active)) :
    (v.switchScreen n).Shows (m.step (.switchScreen n)) := by
  have hactive : Op.active m.active (.switchScreen n) = n := by
    rw [Op.active, ← h.active, if_neg hn]
  have hterm : (m.step (.switchScreen n)).term = m.term := Function.update_eq_self ..
  obtain ⟨hlt, hne⟩ := not_or.mp hn
  have hne' : n ≠ m.active := fun e => hne (by rw [e, h.active])
  have hscreen : ∀ j, j ≠ v.active → (v.switchScreen n).screens j = v.screens j := by
    intro j hj
    rw [Display.switchScreen, if_neg hn]
    exact Function.update_of_ne hj ..
  have hsaved : (v.switchScreen n).screens v.active = v.live := by
    rw [Display.switchScreen, if_neg hn]
    dsimp only
    rw [Function.update_self, putCells_copy]
  have hused : (v.switchScreen n).used = Function.update v.used v.active true := by
    rw [Display.switchScreen, if_neg hn]
  have hlive : (v.switchScreen n).live = m.term n := by
    rw [Display.switchScreen, if_neg hn]
    dsimp only
    rw [Function.update_of_ne hne, Function.update_of_ne hne]
    split
    · rename_i hu
      rw [putCells_copy, h.saved n hne' hu]
    · rename_i hu
      rw [putCells_all, h.fresh n hne' (by simpa using hu)]
      rfl
  refine ⟨?_, ?_, ?_, fun j hj hu => ?_, fun j hj hu => ?_, ?_⟩
  · show (v.switchScreen n).active = Op.active m.active (.switchScreen n)
    rw [hactive, Display.switchScreen, if_neg hn]
  · show Op.active m.active (.switchScreen n) < NB_SCREENS
    rw [hactive]
    omega
  · rw [hlive, hterm]
    show m.term n = m.term (Op.active m.active (.switchScreen n))
    rw [hactive]
  · rw [hterm]
    by_cases hj' : j = v.active
    · rw [hj', hsaved, h.live, h.active]
    · rw [hscreen j hj']
      rw [hused, Function.update_of_ne hj'] at hu
      exact h.saved j (by rw [← h.active]; exact hj') hu
  · rw [hterm]
    by_cases hj' : j = v.active
    · rw [hused, hj', Function.update_self] at hu
      cases hu
    · rw [hused, Function.update_of_ne hj'] at hu
      exact h.fresh j (by rw [← h.active]; exact hj') hu
  · rw [hterm]
    exact h.cursor_lt

theorem step (h : v.Shows m) (op : Op) : (v.step op).Shows (m.step op) := by
  cases op with
  | clear => exact h.edit_sync .clear rfl rfl
  | setColor fg bg => exact h.edit (.setColor fg bg) rfl rfl rfl rfl rfl
  | print bytes => exact h.edit_sync (.print bytes) rfl rfl
  | putChar b => exact h.edit_sync (.putChar b) rfl rfl
  | backspace =>
    by_cases hc : v.live.cursor > 0
    · refine h.edit _ rfl ?_ ?_ ?_ ?_ <;>
        simp [Display.step, Display.backspace, Op.edit, hc, Display.edit]
    · refine h.edit _ rfl ?_ ?_ ?_ ?_ <;> simp [Display.step, Display.backspace, Op.edit, hc]
  | switchScreen n =>
    by_cases hn : n ≥ NB_SCREENS ∨ n = v.active
    · have hop : Op.active m.active (.switchScreen n) = m.active := by
        rw [Op.active, ← h.active, if_pos hn]
      refine h.edit _ hop ?_ ?_ ?_ ?_ <;>
        simp only [Display.step, Display.switchScreen, if_pos hn, Op.edit]
    · exact h.switch hn

theorem run (ops : List Op) : ∀ {v : Display} {m : Terminals}, v.Shows m →
    (v.run ops).Shows (m.run ops) := by
  induction ops with
  | nil => exact fun h => h
  | cons op ops ih => exact fun h => ih (h.step op)

end Display.Shows

/-- What every call keeps of one screen, and what a blank screen has, the live screen always
has. -/
theorem live_invariant {P : Screen → Prop} (hstep : ∀ s (op : Op), P s → P (op.edit s))
    (hblank : P blank) {cells : Cells} (hboot : P ⟨cells, 0, DEFAULT_ATTR⟩) (crtc : Crtc)
    (ops : List Op) : P ((Display.boot cells crtc).run ops).live := by
  have hfold : ∀ (ops : List Op) (s : Screen), P s → P (ops.foldl Op.edit s) := by
    intro ops
    induction ops with
    | nil => exact fun _ h => h
    | cons op ops ih => exact fun s h => ih _ (hstep s op h)
  have h := (shows_boot cells crtc).run ops
  rw [h.live, Terminals.run_term]
  apply hfold
  show P (if _ = 0 then (⟨cells, 0, DEFAULT_ATTR⟩ : Screen) else blank)
  split
  · exact hboot
  · exact hblank

/-! ## The hardware cursor -/

theorem position_syncHwCursor (c : Crtc) {cursor : Nat} (h : cursor < CELLS) :
    (c.syncHwCursor cursor).position = cursor := by
  have hlt : cursor < 2000 := h
  have hlow : (c.syncHwCursor cursor).regs 0x0F = (BitVec.ofNat 16 cursor).setWidth 8 := by
    simp [Crtc.syncHwCursor, Crtc.outb]
  have hhigh : (c.syncHwCursor cursor).regs 0x0E = (BitVec.ofNat 16 cursor >>> 8).setWidth 8 := by
    simp [Crtc.syncHwCursor, Crtc.outb]
  rw [Crtc.position, hlow, hhigh, BitVec.toNat_setWidth, BitVec.toNat_setWidth,
    BitVec.toNat_ushiftRight, BitVec.toNat_ofNat, Nat.shiftRight_eq_div_pow]
  omega

/-- The controller's registers hold the cursor. -/
def Display.Synced (v : Display) : Prop := v.crtc.position = v.live.cursor

instance (v : Display) : Decidable v.Synced := inferInstanceAs (Decidable (_ = _))

/-- The call writes the cursor to the controller.  A change of colour does not, and neither do a
`backspace` at the start of the screen and a switch that is refused. -/
def Display.Writes (v : Display) : Op → Prop
  | .setColor _ _ => False
  | .backspace => v.live.cursor > 0
  | .switchScreen n => ¬(n ≥ NB_SCREENS ∨ n = v.active)
  | _ => True

section Cursor

variable {v : Display} {m : Terminals}

theorem Display.Shows.live_cursor_lt (h : v.Shows m) : v.live.cursor < CELLS := by
  rw [h.live]
  exact h.cursor_lt _

theorem synced_edit (v : Display) (live : Screen) (h : live.cursor < CELLS) :
    (v.edit live).Synced := position_syncHwCursor _ h

theorem synced_of_writes (h : v.Shows m) {op : Op} (hw : v.Writes op) : (v.step op).Synced := by
  have hlt := (h.step op).live_cursor_lt
  cases op with
  | setColor => exact hw.elim
  | clear => exact synced_edit v v.live.clear (by decide : 0 < CELLS)
  | print => exact synced_edit v _ hlt
  | putChar => exact synced_edit v _ hlt
  | backspace =>
    have hstep : v.step .backspace = v.edit v.live.stepBack := if_pos hw
    rw [hstep] at hlt ⊢
    exact synced_edit v _ hlt
  | switchScreen n =>
    have hn : ¬(n ≥ NB_SCREENS ∨ n = v.active) := hw
    rw [Display.step, Display.switchScreen, if_neg hn] at hlt ⊢
    exact position_syncHwCursor _ hlt

/-- A call that writes nothing to the controller leaves the cursor where it was. -/
theorem cursor_of_not_writes {op : Op} (hw : ¬v.Writes op) :
    (v.step op).live.cursor = v.live.cursor ∧ (v.step op).crtc = v.crtc := by
  cases op with
  | setColor => exact ⟨rfl, rfl⟩
  | clear => exact absurd trivial hw
  | print => exact absurd trivial hw
  | putChar => exact absurd trivial hw
  | backspace =>
    have hstep : v.step .backspace = v := if_neg hw
    rw [hstep]
    exact ⟨rfl, rfl⟩
  | switchScreen n =>
    have hstep : v.step (.switchScreen n) = v := if_pos (not_not.mp hw)
    rw [hstep]
    exact ⟨rfl, rfl⟩

theorem synced_step (h : v.Shows m) (op : Op) (hs : v.Synced) : (v.step op).Synced := by
  by_cases hw : v.Writes op
  · exact synced_of_writes h hw
  · obtain ⟨hcursor, hcrtc⟩ := cursor_of_not_writes hw
    rw [Display.Synced, hcursor, hcrtc]
    exact hs

end Cursor

/-- The controller need not hold the cursor after a call that is no change of colour: at boot the
registers hold what the firmware left, and a `backspace` at the start of the screen writes
nothing. -/
theorem backspace_not_synced :
    ¬∀ (cells : Cells) (crtc : Crtc) (ops : List Op) (op : Op), (∀ fg bg, op ≠ .setColor fg bg) →
      (((Display.boot cells crtc).run ops).step op).Synced := by
  intro h
  have hsync := h (fun _ => 0) ⟨0, fun _ => 1⟩ [] .backspace (fun _ _ => by simp)
  exact absurd hsync (by decide)

/-- What the driver holds after any calls is what the active terminal alone would hold after the
calls issued to it, starting from its own initial state.  A switch to a screen that does not exist
or is active changes nothing.  Every call that writes the controller's registers leaves the cursor
in them, and once they hold the cursor they do so for good. -/
theorem screens_independent (cells : Cells) (crtc : Crtc) (ops : List Op) :
    ((Display.boot cells crtc).run ops).active < NB_SCREENS ∧
    ((Display.boot cells crtc).run ops).live
      = (Terminals.issuedTo ((Display.boot cells crtc).run ops).active 0 ops).foldl Op.edit
          (if ((Display.boot cells crtc).run ops).active = 0 then ⟨cells, 0, DEFAULT_ATTR⟩
            else blank) ∧
    (∀ n, n ≥ NB_SCREENS ∨ n = ((Display.boot cells crtc).run ops).active →
      ((Display.boot cells crtc).run ops).step (.switchScreen n)
        = (Display.boot cells crtc).run ops) ∧
    (∀ op, ((Display.boot cells crtc).run ops).Writes op →
      (((Display.boot cells crtc).run ops).step op).Synced) ∧
    (∀ op, ((Display.boot cells crtc).run ops).Synced →
      (((Display.boot cells crtc).run ops).step op).Synced) := by
  have h := (shows_boot cells crtc).run ops
  refine ⟨by rw [h.active]; exact h.active_lt, ?_, fun n hn => if_pos hn,
    fun op hw => synced_of_writes h hw, fun op hs => synced_step h op hs⟩
  rw [h.live, h.active, Terminals.run_term]
  rfl

end Kfs.Vga
