import Kfs.Vga.Screens

/-!
# The screen as the end of an unbounded page

`Sheet` is what the output of the kernel looks like without a screen: rows of eighty columns
without end, and a pen.  `Screen.ShowsFrom` says that a screen shows the 25 rows of a sheet from a
given one on.

* `ShowsFrom.newline` and `ShowsFrom.byte` are the two ways to move the pen, and `ShowsFrom.scroll`
  moves the window when the pen has left it.
* `Displays.putb` puts them together, and the calls follow from it.
* `screen_shows_last_rows` is the run: the screen shows the rows up to the pen's.
-/

namespace Kfs.Vga

/-! ## Cells -/

/-- The character of a cell. -/
def charOf (cell : U16) : U8 := cell.setWidth 8

/-- The attribute of a cell, or of `ATTR`. -/
def attrOf (cell : U16) : U8 := (cell >>> 8).setWidth 8

theorem charOf_or {attr : U16} (h : charOf attr = 0) (b : U8) :
    charOf (attr ||| b.setWidth 16) = b := by
  rw [charOf] at h
  rw [charOf, BitVec.setWidth_or, h]
  simp

theorem attrOf_or (attr : U16) (b : U8) : attrOf (attr ||| b.setWidth 16) = attrOf attr := by
  have hlow : (b.setWidth 16 >>> 8 : U16) = 0 := by bv_omega
  simp only [attrOf, BitVec.ushiftRight_or_distrib, BitVec.setWidth_or, hlow]
  simp

theorem charOf_space {attr : U16} (h : charOf attr = 0) : charOf (attr ||| 0x20) = 0x20 :=
  charOf_or h 0x20

/-- `set_color` leaves the low byte of the attribute free for the character. -/
theorem charOf_setColor (s : Screen) (fg bg : Color) : charOf (s.setColor fg bg).attr = 0 := by
  have hbg : (bg.code <<< 12).setWidth 8 = (0 : U8) := by bv_omega
  have hfg : (fg.code <<< 8).setWidth 8 = (0 : U8) := by bv_omega
  rw [Screen.setColor, charOf, BitVec.setWidth_or, hbg, hfg]
  rfl

theorem putb_attr (s : Screen) (b : U8) : (s.putb b).attr = s.attr := by
  simp only [Screen.putb, Screen.scroll]
  split <;> split <;> simp only

theorem charOf_attr_edit {s : Screen} (h : charOf s.attr = 0) (op : Op) :
    charOf (op.edit s).attr = 0 := by
  cases op with
  | clear =>
    rw [Op.edit, clear_eq]
    exact h
  | setColor fg bg => exact charOf_setColor s fg bg
  | print bytes =>
    show charOf (bytes.foldl Screen.putb s).attr = 0
    induction bytes generalizing s with
    | nil => exact h
    | cons b bytes ih => exact ih (by rwa [putb_attr])
  | putChar b =>
    show charOf (s.putb b).attr = 0
    rwa [putb_attr]
  | backspace =>
    simp only [Op.edit]
    split <;> exact h
  | switchScreen n => exact h

/-! ## The sheet -/

/-- What was written where, as attribute and character, and the pen. -/
structure Sheet where
  cell : Nat → Nat → Option (U8 × U8)
  row : Nat
  col : Nat
  attr : U8

/-- The attribute byte of a pair of colours. -/
def colours (fg bg : Color) : U8 := (bg.code.setWidth 8 <<< 4) ||| fg.code.setWidth 8

theorem attrOf_setColor (s : Screen) (fg bg : Color) :
    attrOf (s.setColor fg bg).attr = colours fg bg := by
  have hbg : (bg.code <<< 12 >>> 8).setWidth 8 = (bg.code.setWidth 8 <<< 4 : U8) := by bv_omega
  have hfg : (fg.code <<< 8 >>> 8).setWidth 8 = (fg.code.setWidth 8 : U8) := by bv_omega
  rw [Screen.setColor, attrOf, BitVec.ushiftRight_or_distrib, BitVec.setWidth_or, hbg, hfg,
    colours]

/-- The calls that write. -/
inductive Write where
  | setColor (fg bg : Color)
  | print (bytes : List U8)
  | putChar (b : U8)

def Write.op : Write → Op
  | setColor fg bg => .setColor fg bg
  | print bytes => .print bytes
  | putChar b => .putChar b

namespace Sheet

def empty (attr : U8) : Sheet := ⟨fun _ _ => none, 0, 0, attr⟩

def newline (p : Sheet) : Sheet := { p with row := p.row + 1, col := 0 }

/-- A character at the pen. -/
def ink (p : Sheet) (b : U8) : Sheet :=
  { p with cell := fun r c => if r = p.row ∧ c = p.col then some (p.attr, b) else p.cell r c }

/-- The pen moves right, and to the next row after the last column. -/
def advance (p : Sheet) : Sheet :=
  if p.col + 1 < WIDTH then { p with col := p.col + 1 } else p.newline

def put (p : Sheet) (b : U8) : Sheet := if b = 0x0A then p.newline else (p.ink b).advance

def step (p : Sheet) : Write → Sheet
  | .setColor fg bg => { p with attr := colours fg bg }
  | .print bytes => bytes.foldl put p
  | .putChar b => p.put b

def run (p : Sheet) (writes : List Write) : Sheet := writes.foldl step p

/-- The first row of the last 25 up to the pen's. -/
def top (p : Sheet) : Nat := p.row - (HEIGHT - 1)

theorem ink_cell (p : Sheet) (b : U8) (r c : Nat) :
    (p.ink b).cell r c = if r = p.row ∧ c = p.col then some (p.attr, b) else p.cell r c := rfl

@[simp] theorem advance_attr (p : Sheet) : p.advance.attr = p.attr := by
  unfold advance
  split <;> rfl

@[simp] theorem advance_cell (p : Sheet) : p.advance.cell = p.cell := by
  unfold advance
  split <;> rfl

/-- Eighty columns make a row: the pen moves by one place. -/
theorem advance_pos (p : Sheet) (h : p.col < WIDTH) :
    p.row ≤ p.advance.row ∧ p.advance.col < WIDTH ∧
      p.advance.row * WIDTH + p.advance.col = p.row * WIDTH + p.col + 1 := by
  unfold advance
  split
  · rename_i hcol
    exact ⟨Nat.le_refl _, hcol, rfl⟩
  · simp only [newline, WIDTH] at *
    omega

/-- What is past the pen after the move is past the place it was at. -/
theorem after_advance (p : Sheet) {r c : Nat}
    (hpast : p.advance.row < r ∨ r = p.advance.row ∧ p.advance.col ≤ c) :
    p.row < r ∨ r = p.row ∧ p.col < c := by
  unfold advance at hpast
  split at hpast <;> simp only [newline] at hpast <;> omega

theorem advance_row (p : Sheet) : p.advance.row = p.row ∨ p.advance.row = p.row + 1 := by
  unfold advance
  split
  · exact Or.inl rfl
  · exact Or.inr rfl

theorem put_row (p : Sheet) (b : U8) : (p.put b).row = p.row ∨ (p.put b).row = p.row + 1 := by
  unfold put
  split
  · exact Or.inr rfl
  · exact (p.ink b).advance_row

end Sheet

/-! ## The window -/

theorem cell_lt {i j : Nat} (hi : i < HEIGHT) (hj : j < WIDTH) : i * WIDTH + j < CELLS := by
  simp only [WIDTH, HEIGHT, CELLS] at *
  omega

/-- A cell of the screen shows what was written there.  Where nothing was, it is a space of some
colour. -/
def Shown (cell : U16) : Option (U8 × U8) → Prop
  | some (attr, b) => attrOf cell = attr ∧ charOf cell = b
  | none => charOf cell = 0x20

/-- The screen shows the rows of the sheet from `top` on, and its cursor is the pen. -/
structure Screen.ShowsFrom (s : Screen) (p : Sheet) (top : Nat) : Prop where
  attr : charOf s.attr = 0 ∧ attrOf s.attr = p.attr
  col_lt : p.col < WIDTH
  top_le : top ≤ p.row
  cursor : s.cursor = (p.row - top) * WIDTH + p.col
  ahead : ∀ r c, p.row < r ∨ r = p.row ∧ p.col ≤ c → p.cell r c = none
  cells : ∀ i j, i < HEIGHT → j < WIDTH →
    Shown (readCell s.cells (i * WIDTH + j)) (p.cell (top + i) j)

/-- The screen shows the last rows of the sheet. -/
def Screen.Displays (s : Screen) (p : Sheet) : Prop := s.ShowsFrom p p.top

namespace Screen.ShowsFrom

variable {s : Screen} {p : Sheet} {top : Nat}

theorem newline (h : s.ShowsFrom p top) :
    ({ s with cursor := s.cursor - s.cursor % WIDTH + WIDTH } : Screen).ShowsFrom p.newline
      top where
  attr := h.attr
  col_lt := (by decide : 0 < WIDTH)
  top_le := Nat.le_succ_of_le h.top_le
  cursor := by
    have hcol := h.col_lt
    have htop := h.top_le
    have hcursor := h.cursor
    simp only [Sheet.newline, WIDTH] at hcol hcursor ⊢
    omega
  ahead := by
    intro r c hr
    apply h.ahead
    simp only [Sheet.newline] at hr
    omega
  cells := h.cells

theorem byte (h : s.ShowsFrom p top) (b : U8) :
    ({ s with
        cells := putCell s.cells s.cursor (s.attr ||| b.setWidth 16)
        cursor := s.cursor + 1 } : Screen).ShowsFrom (p.ink b).advance top := by
  have hcol := h.col_lt
  have htop := h.top_le
  have hcursor := h.cursor
  obtain ⟨hrow, hcol', hpos⟩ := (p.ink b).advance_pos hcol
  refine ⟨?_, hcol', Nat.le_trans htop hrow, ?_, ?_, ?_⟩
  · rw [Sheet.advance_attr]
    exact h.attr
  · simp only [WIDTH, Sheet.ink] at hpos hrow hcursor ⊢
    omega
  · intro r c hpast
    have hafter : p.row < r ∨ r = p.row ∧ p.col < c := (p.ink b).after_advance hpast
    rw [Sheet.advance_cell, Sheet.ink_cell, if_neg (by omega)]
    exact h.ahead r c (by omega)
  · intro i j hi hj
    rw [Sheet.advance_cell, readCell_putCell _ (cell_lt hi hj), Sheet.ink_cell]
    by_cases hpen : top + i = p.row ∧ j = p.col
    · rw [if_pos hpen, if_pos (by simp only [WIDTH] at hcursor ⊢; omega)]
      exact ⟨(attrOf_or _ b).trans h.attr.2, charOf_or h.attr.1 b⟩
    · rw [if_neg hpen, if_neg (by simp only [WIDTH] at hcursor hcol hj ⊢; omega)]
      exact h.cells i j hi hj

/-- The pen has left the last row of the window, and the window follows it. -/
theorem scroll (h : s.ShowsFrom p top) (hend : s.cursor = CELLS) :
    ({ s.scroll with cursor := CELLS - WIDTH } : Screen).ShowsFrom p (top + 1) := by
  have hcol := h.col_lt
  have htop := h.top_le
  have hcursor := h.cursor
  have hpen : p.row = top + HEIGHT ∧ p.col = 0 := by
    simp only [WIDTH, HEIGHT, CELLS] at hcol hcursor hend ⊢
    omega
  refine ⟨h.attr, hcol, ?_, ?_, h.ahead, ?_⟩
  · simp only [HEIGHT] at hpen
    omega
  · simp only [WIDTH, HEIGHT, CELLS] at hpen ⊢
    omega
  · intro i j hi hj
    dsimp only
    rw [readCell_scroll s (cell_lt hi hj)]
    by_cases hlast : i + 1 < HEIGHT
    · have hnext := h.cells (i + 1) j hlast hj
      rw [if_pos (by simp only [WIDTH, HEIGHT, CELLS] at hlast hj ⊢; omega),
        Nat.add_right_comm, ← Nat.succ_mul, Nat.add_assoc top 1 i, Nat.add_comm 1 i]
      exact hnext
    · -- the new row is the pen's, and nothing is written there yet
      rw [if_neg (by simp only [WIDTH, HEIGHT, CELLS] at hlast ⊢; omega),
        h.ahead (top + 1 + i) j (by omega)]
      exact charOf_space h.attr.1

end Screen.ShowsFrom

namespace Screen.Displays

variable {s : Screen} {p : Sheet}

theorem cursor_lt (h : s.Displays p) : s.cursor < CELLS := by
  have hcol := h.col_lt
  have hcursor := h.cursor
  simp only [Sheet.top, WIDTH, HEIGHT, CELLS] at hcol hcursor ⊢
  omega

/-- The window is moved when the pen has left it, and then by one row. -/
theorem settle {t : Screen} {q : Sheet} (h : t.ShowsFrom q p.top)
    (hrow : q.row = p.row ∨ q.row = p.row + 1) (hle : t.cursor ≤ CELLS) :
    (if t.cursor ≥ CELLS then { t.scroll with cursor := CELLS - WIDTH } else t).Displays q := by
  have hcol := h.col_lt
  have htop := h.top_le
  have hcursor := h.cursor
  unfold Displays
  split
  · rename_i hge
    have hend : t.cursor = CELLS := by omega
    have hq : q.top = p.top + 1 := by
      simp only [Sheet.top, WIDTH, HEIGHT, CELLS] at hcol htop hcursor hend ⊢
      omega
    rw [hq]
    exact h.scroll hend
  · rename_i hlt
    have hq : q.top = p.top := by
      simp only [Sheet.top, WIDTH, HEIGHT, CELLS] at hcol htop hcursor hlt ⊢
      omega
    rwa [hq]

theorem putb (h : s.Displays p) (b : U8) : (s.putb b).Displays (p.put b) := by
  have hlt := h.cursor_lt
  have hrow := p.put_row b
  unfold Screen.putb Sheet.put at *
  by_cases hb : b = 0x0A
  · simp only [if_pos hb] at hrow ⊢
    apply settle (ShowsFrom.newline h) hrow
    simp only [WIDTH, HEIGHT, CELLS] at hlt ⊢
    omega
  · simp only [if_neg hb] at hrow ⊢
    exact settle (ShowsFrom.byte h b) hrow hlt

theorem putBytes (bytes : List U8) : ∀ {s : Screen} {p : Sheet}, s.Displays p →
    (s.putBytes bytes).Displays (bytes.foldl Sheet.put p) := by
  induction bytes with
  | nil => exact fun h => h
  | cons b bytes ih => exact fun h => ih (h.putb b)

theorem clear (s : Screen) (h : charOf s.attr = 0) :
    s.clear.Displays (Sheet.empty (attrOf s.attr)) := by
  rw [clear_eq]
  refine ⟨⟨h, rfl⟩, (by decide : 0 < WIDTH), Nat.le_refl 0, rfl, fun _ _ _ => rfl, ?_⟩
  intro i j hi hj
  rw [readCell, dif_pos (cell_lt hi hj)]
  exact charOf_space h

end Screen.Displays

/-! ## Runs -/

/-- A call does to the screen what it does to the sheet. -/
theorem displays_step {v : Display} {p : Sheet} (h : v.live.Displays p) (w : Write) :
    (v.step w.op).live.Displays (p.step w) := by
  cases w with
  | setColor fg bg =>
    exact ⟨⟨charOf_setColor v.live fg bg, attrOf_setColor v.live fg bg⟩, h.col_lt, h.top_le,
      h.cursor, h.ahead, h.cells⟩
  | print bytes => exact h.putBytes bytes
  | putChar b => exact h.putb b

theorem displays_run (writes : List Write) : ∀ {v : Display} {p : Sheet}, v.live.Displays p →
    (v.run (writes.map Write.op)).live.Displays (p.run writes) := by
  induction writes with
  | nil => exact fun h => h
  | cons w writes ih => exact fun h => ih (displays_step h w)

/-- After a `clear`, whatever came before it, the screen shows the last 25 rows up to the pen of
all that is written, and the cursor is the pen. -/
theorem screen_shows_last_rows (cells : Cells) (crtc : Crtc) (before : List Op)
    (writes : List Write) :
    (((Display.boot cells crtc).run before).clear.run (writes.map Write.op)).live.Displays
      ((Sheet.empty (attrOf ((Display.boot cells crtc).run before).live.attr)).run writes) := by
  have hattr : charOf ((Display.boot cells crtc).run before).live.attr = 0 :=
    live_invariant (P := fun s => charOf s.attr = 0) (fun _ op h => charOf_attr_edit h op)
      (by decide) (by decide : charOf DEFAULT_ATTR = 0) crtc before
  exact displays_run writes (Screen.Displays.clear _ hattr)

end Kfs.Vga
