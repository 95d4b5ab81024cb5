import Kfs.Vga.Sheet

/-!
# A line of text on the screen

`Tidy` is what the screen has after the first `clear`, whatever is called: the cells from the cursor
on are spaces.  `Line` is a screen on which a line is being written: the row of the cursor holds the
text and spaces behind it, and the other rows are those of the screen that the line was begun on.  A
character at the end and a `backspace` are the two ways to edit it.
-/

namespace Kfs.Vga

namespace Screen

/-! ## Blank behind the cursor -/

structure Tidy (s : Screen) : Prop where
  cursor_lt : s.cursor < CELLS
  attr : charOf s.attr = 0
  blank : ∀ i, s.cursor ≤ i → i < CELLS → charOf (readCell s.cells i) = 0x20

theorem tidy_blank (attr : U16) (h : charOf attr = 0) :
    (⟨fun _ => attr ||| 0x20, 0, attr⟩ : Screen).Tidy where
  cursor_lt := (by decide : 0 < CELLS)
  attr := h
  blank := by
    intro i _ hi
    rw [readCell, dif_pos hi]
    exact charOf_space h

namespace Tidy

variable {s : Screen}

/-- The cursor goes to the end of the buffer at most, and the buffer then moves up. -/
theorem settle (t : Screen) (hattr : charOf t.attr = 0)
    (hblank : ∀ i, t.cursor ≤ i → i < CELLS → charOf (readCell t.cells i) = 0x20) :
    (if t.cursor ≥ CELLS then { t.scroll with cursor := CELLS - WIDTH } else t).Tidy := by
  split
  · refine ⟨(by decide : CELLS - WIDTH < CELLS), hattr, fun i hlo hi => ?_⟩
    have hlast : ¬i < CELLS - WIDTH := Nat.not_lt.mpr hlo
    dsimp only
    rw [readCell_scroll t hi, if_neg hlast]
    exact charOf_space hattr
  · rename_i hlt
    exact ⟨Nat.lt_of_not_le hlt, hattr, hblank⟩

theorem putb (h : s.Tidy) (b : U8) : (s.putb b).Tidy := by
  unfold Screen.putb
  by_cases hb : b = 0x0A
  · simp only [if_pos hb]
    refine settle { s with cursor := s.cursor - s.cursor % WIDTH + WIDTH } h.attr ?_
    intro i hlo hi
    apply h.blank i _ hi
    simp only [WIDTH] at hlo
    omega
  · simp only [if_neg hb]
    refine settle
      { s with
        cells := putCell s.cells s.cursor (s.attr ||| b.setWidth 16)
        cursor := s.cursor + 1 } h.attr ?_
    intro i hlo hi
    simp only at hlo
    rw [readCell_putCell_ne _ (by omega)]
    exact h.blank i (by omega) hi

theorem putBytes (bytes : List U8) : ∀ {s : Screen}, s.Tidy → (s.putBytes bytes).Tidy := by
  induction bytes with
  | nil => exact fun h => h
  | cons b bytes ih => exact fun h => ih (h.putb b)

theorem stepBack (h : s.Tidy) : s.stepBack.Tidy where
  cursor_lt := Nat.lt_of_le_of_lt (Nat.sub_le _ 1) h.cursor_lt
  attr := h.attr
  blank := by
    intro i hlo hi
    simp only [Screen.stepBack] at hlo ⊢
    rw [readCell_putCell _ hi]
    split
    · exact charOf_space h.attr
    · exact h.blank i (by omega) hi

/-- Every call keeps it. -/
theorem edit (h : s.Tidy) (op : Op) : (op.edit s).Tidy := by
  cases op with
  | clear =>
    rw [Op.edit, clear_eq]
    exact tidy_blank s.attr h.attr
  | setColor fg bg => exact ⟨h.cursor_lt, charOf_setColor s fg bg, h.blank⟩
  | print bytes => exact h.putBytes bytes
  | putChar b => exact h.putb b
  | backspace =>
    rw [Op.edit]
    split
    · exact h.stepBack
    · exact h
  | switchScreen n => exact h

end Tidy

/-- From the first `clear` on, which is the first call of the kernel. -/
theorem tidy_run (cells : Cells) (crtc : Crtc) (ops : List Op) :
    ((Display.boot cells crtc).run (.clear :: ops)).live.Tidy := by
  have hstart : (Display.boot cells crtc).clear
      = Display.boot (fun _ => DEFAULT_ATTR ||| 0x20) (crtc.syncHwCursor 0) := by
    rw [Display.clear, clear_eq]
    rfl
  rw [Display.run, List.foldl_cons, Display.step, hstart]
  have hblank := tidy_blank DEFAULT_ATTR (by decide)
  exact live_invariant (fun _ op h => h.edit op) hblank hblank _ ops

/-! ## One line -/

/-- Row `r` holds `text` with the cursor right behind it, and the other rows are those of `base`. -/
structure Line (s base : Screen) (r : Nat) (text : List U8) : Prop where
  row_lt : r < HEIGHT
  length_lt : text.length < WIDTH
  attr : charOf s.attr = 0
  cursor : s.cursor = r * WIDTH + text.length
  row : ∀ j, j < WIDTH → charOf (readCell s.cells (r * WIDTH + j)) = text.getD j 0x20
  others : ∀ i, i < CELLS → i / WIDTH ≠ r → readCell s.cells i = readCell base.cells i

namespace Line

variable {s base : Screen} {r : Nat} {text : List U8}

/-- A line begins at the start of a row. -/
theorem start (h : s.Tidy) (hcol : s.cursor % WIDTH = 0) :
    s.Line s (s.cursor / WIDTH) [] := by
  have hcursor := h.cursor_lt
  have hrow : s.cursor = s.cursor / WIDTH * WIDTH := by
    simp only [WIDTH] at hcol ⊢
    omega
  have hlt : s.cursor / WIDTH < HEIGHT := by
    simp only [WIDTH, HEIGHT, CELLS] at hcursor ⊢
    omega
  refine ⟨hlt, (by decide : 0 < WIDTH), h.attr, hrow, fun j hj => ?_, fun _ _ _ => rfl⟩
  exact h.blank _ (by omega) (cell_lt hlt hj)

theorem setColor (h : s.Line base r text) (fg bg : Color) :
    (s.setColor fg bg).Line base r text :=
  ⟨h.row_lt, h.length_lt, charOf_setColor s fg bg, h.cursor, h.row, h.others⟩

/-- A cell of the row is written, and no other. -/
theorem put (h : s.Line base r text) {k : Nat} (hk : k < WIDTH) (b : U8) :
    (∀ j, j < WIDTH →
      charOf (readCell (putCell s.cells (r * WIDTH + k) (s.attr ||| b.setWidth 16))
        (r * WIDTH + j)) = if j = k then b else text.getD j 0x20) ∧
    ∀ i, i < CELLS → i / WIDTH ≠ r →
      readCell (putCell s.cells (r * WIDTH + k) (s.attr ||| b.setWidth 16)) i
        = readCell base.cells i := by
  constructor
  · intro j hj
    rw [readCell_putCell _ (cell_lt h.row_lt hj)]
    by_cases hjk : j = k
    · rw [if_pos (by omega), if_pos hjk]
      exact charOf_or h.attr b
    · rw [if_neg (by omega), if_neg hjk]
      exact h.row j hj
  · intro i hi hir
    rw [readCell_putCell_ne]
    · exact h.others i hi hir
    · rintro rfl
      apply hir
      simp only [WIDTH] at hk ⊢
      omega

/-- A character behind the text.  The last column stays free, so nothing wraps. -/
theorem putb (h : s.Line base r text) {b : U8} (hb : b ≠ 0x0A) (hlen : text.length + 1 < WIDTH) :
    (s.putb b).Line base r (text ++ [b]) := by
  have hrow := h.row_lt
  have hcursor := h.cursor
  obtain ⟨hput, hothers⟩ := h.put h.length_lt b
  rw [← hcursor] at hput hothers
  have hlt : ¬s.cursor + 1 ≥ CELLS := by
    simp only [WIDTH, HEIGHT, CELLS] at hrow hcursor hlen ⊢
    omega
  have hputb : s.putb b = { s with
      cells := putCell s.cells s.cursor (s.attr ||| b.setWidth 16), cursor := s.cursor + 1 } := by
    simp only [Screen.putb, if_neg hb, if_neg hlt]
  rw [hputb]
  refine ⟨hrow, by simpa using hlen, h.attr, ?_, fun j hj => ?_, hothers⟩
  · simp only [List.length_append, List.length_singleton]
    omega
  · rw [hput j hj]
    rcases Nat.lt_trichotomy j text.length with hj' | hj' | hj'
    · rw [if_neg (by omega), List.getD_append _ _ _ _ hj']
    · rw [if_pos hj', hj', List.getD_append_right _ _ _ _ (Nat.le_refl _), Nat.sub_self]
      rfl
    · rw [if_neg (by omega), List.getD_eq_default _ _ (by omega),
        List.getD_eq_default _ _ (by simp; omega)]

theorem putBytes (bytes : List U8) : ∀ {s : Screen} {text : List U8}, s.Line base r text →
    (0x0A : U8) ∉ bytes → text.length + bytes.length < WIDTH →
    (s.putBytes bytes).Line base r (text ++ bytes) := by
  induction bytes with
  | nil =>
    intro s text h _ _
    rwa [List.append_nil]
  | cons b bytes ih =>
    intro s text h hb hlen
    rw [List.mem_cons, not_or] at hb
    rw [List.length_cons] at hlen
    have hnext := ih (h.putb (Ne.symm hb.1) (by omega)) hb.2
      (by rw [List.length_append, List.length_singleton]; omega)
    rwa [List.append_assoc] at hnext

/-- `backspace` takes the last character away. -/
theorem stepBack (h : s.Line base r text) (hne : text ≠ []) :
    s.stepBack.Line base r text.dropLast := by
  have hpos : 0 < text.length := List.length_pos_iff.mpr hne
  have hlen := h.length_lt
  have hcursor := h.cursor
  have hback : s.cursor - 1 = r * WIDTH + (text.length - 1) := by omega
  obtain ⟨hput, hothers⟩ := h.put (k := text.length - 1) (by omega) 0x20
  rw [← hback] at hput hothers
  refine ⟨h.row_lt, ?_, h.attr, ?_, fun j hj => ?_, hothers⟩
  · rw [List.length_dropLast]
    omega
  · rw [List.length_dropLast]
    exact hback
  · refine (hput j hj).trans ?_
    rcases Nat.lt_trichotomy j (text.length - 1) with hj' | hj' | hj'
    · rw [if_neg (by omega), List.getD_eq_getElem?_getD, List.getD_eq_getElem?_getD,
        List.getElem?_dropLast, if_pos hj']
    · rw [if_pos hj', List.getD_eq_default _ _ (by rw [List.length_dropLast]; omega)]
    · rw [if_neg (by omega), List.getD_eq_default _ _ (by omega),
        List.getD_eq_default _ _ (by rw [List.length_dropLast]; omega)]

end Line

end Screen

end Kfs.Vga
