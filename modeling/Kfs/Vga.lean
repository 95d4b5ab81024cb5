import Kfs.Mem

/-!
# The text screen

The functions of `kernel/src/vga.rs`.  The hardware buffer together with the statics `CURSOR` and
`ATTR` is the record `live`, and `SCREENS`, `USED` and `ACTIVE` are the fields beside it.  The CRT
controller is the pair of ports `sync_hw_cursor` writes: an index register and the data registers
it selects.
-/

namespace Kfs.Vga

abbrev WIDTH : Nat := 80
abbrev HEIGHT : Nat := 25
abbrev CELLS : Nat := WIDTH * HEIGHT

abbrev NB_SCREENS : Nat := 3

inductive Color where
  | black | blue | green | cyan | red | magenta | brown | lightGrey
  | darkGrey | brightBlue | brightGreen | brightCyan | brightRed | brightMagenta | yellow | white
  deriving DecidableEq, Repr

/-- `color as u16`. -/
def Color.code (c : Color) : U16 := BitVec.ofNat 16 c.ctorIdx

abbrev DEFAULT_ATTR : U16 := Color.white.code <<< 8

/-! ## One screen -/

/-- The cells of a screen. -/
abbrev Cells : Type := Fin CELLS → U16

def putCell (cells : Cells) (i : Nat) (cell : U16) : Cells :=
  fun j => if j.val = i then cell else cells j

def readCell (cells : Cells) (i : Nat) : U16 := if h : i < CELLS then cells ⟨i, h⟩ else 0

/-- `for i in lo..lo + n { put_cell(i, f(i)) }`, where `f` may read the buffer. -/
def putCells (f : Cells → Nat → U16) : Nat → Nat → Cells → Cells
  | _, 0, cells => cells
  | i, n + 1, cells => putCells f (i + 1) n (putCell cells i (f cells i))

/-- Cells, cursor and colour: a save slot, and also the hardware buffer with `CURSOR` and
`ATTR`. -/
structure Screen where
  cells : Cells
  cursor : Nat
  attr : U16

namespace Screen

/-- `ZERO`. -/
def zero : Screen := ⟨fun _ => 0, 0, 0⟩

def setColor (s : Screen) (fg bg : Color) : Screen :=
  { s with attr := (bg.code <<< 12) ||| (fg.code <<< 8) }

def clear (s : Screen) : Screen :=
  { s with cells := putCells (fun _ _ => s.attr ||| 0x20) 0 CELLS s.cells, cursor := 0 }

def scroll (s : Screen) : Screen :=
  let cells := putCells (fun cells i => readCell cells (i + WIDTH)) 0 (CELLS - WIDTH) s.cells
  let cells := putCells (fun _ _ => s.attr ||| 0x20) (CELLS - WIDTH) WIDTH cells
  { s with cells := cells }

def putb (s : Screen) (b : U8) : Screen :=
  let s :=
    if b = 0x0A then { s with cursor := s.cursor - s.cursor % WIDTH + WIDTH }
    else
      { s with
        cells := putCell s.cells s.cursor (s.attr ||| b.setWidth 16)
        cursor := s.cursor + 1 }
  if s.cursor ≥ CELLS then { s.scroll with cursor := CELLS - WIDTH } else s

/-- The loop of `print` over the bytes of a string. -/
def putBytes (s : Screen) (bytes : List U8) : Screen := bytes.foldl putb s

/-- The part of `backspace` under its test. -/
def stepBack (s : Screen) : Screen :=
  { s with
    cursor := s.cursor - 1
    cells := putCell s.cells (s.cursor - 1) (s.attr ||| 0x20) }

end Screen

/-! ## The CRT controller -/

abbrev CRTC_INDEX : U16 := 0x3D4
abbrev CRTC_DATA : U16 := 0x3D5

structure Crtc where
  index : U8
  regs : U8 → U8

namespace Crtc

/-- `outb` to one of the controller's two ports. -/
def outb (c : Crtc) (port : U16) (value : U8) : Crtc :=
  if port = CRTC_INDEX then { c with index := value }
  else if port = CRTC_DATA then { c with regs := Function.update c.regs c.index value }
  else c

/-- The cursor position that the registers 0x0E and 0x0F hold. -/
def position (c : Crtc) : Nat := 256 * (c.regs 0x0E).toNat + (c.regs 0x0F).toNat

def syncHwCursor (c : Crtc) (cursor : Nat) : Crtc :=
  let pos : U16 := BitVec.ofNat 16 cursor
  let c := c.outb CRTC_INDEX 0x0F
  let c := c.outb CRTC_DATA (pos.setWidth 8)
  let c := c.outb CRTC_INDEX 0x0E
  c.outb CRTC_DATA ((pos >>> 8).setWidth 8)

end Crtc

/-! ## The driver -/

structure Display where
  live : Screen
  screens : Nat → Screen
  used : Nat → Bool
  active : Nat
  crtc : Crtc

/-- The statics at boot, with what the buffer and the controller hold then. -/
def Display.boot (cells : Cells) (crtc : Crtc) : Display where
  live := ⟨cells, 0, DEFAULT_ATTR⟩
  screens := fun _ => Screen.zero
  used := fun _ => false
  active := 0
  crtc := crtc

namespace Display

/-- An edit of the live screen followed by `sync_hw_cursor`. -/
def edit (v : Display) (live : Screen) : Display :=
  { v with live := live, crtc := v.crtc.syncHwCursor live.cursor }

def setColor (v : Display) (fg bg : Color) : Display := { v with live := v.live.setColor fg bg }

def clear (v : Display) : Display := v.edit v.live.clear

def print (v : Display) (bytes : List U8) : Display := v.edit (v.live.putBytes bytes)

def putChar (v : Display) (b : U8) : Display := v.edit (v.live.putb b)

def backspace (v : Display) : Display := if v.live.cursor > 0 then v.edit v.live.stepBack else v

def switchScreen (v : Display) (n : Nat) : Display :=
  if n ≥ NB_SCREENS ∨ n = v.active then v
  else
    let a := v.active
    let saved : Screen :=
      { cells := putCells (fun _ i => readCell v.live.cells i) 0 CELLS (v.screens a).cells
        cursor := v.live.cursor
        attr := v.live.attr }
    let screens := Function.update v.screens a saved
    let used := Function.update v.used a true
    let live : Screen :=
      if used n = true then
        { cells := putCells (fun _ i => readCell (screens n).cells i) 0 CELLS v.live.cells
          cursor := (screens n).cursor
          attr := (screens n).attr }
      else
        { cells := putCells (fun _ _ => DEFAULT_ATTR ||| 0x20) 0 CELLS v.live.cells
          cursor := 0
          attr := DEFAULT_ATTR }
    { live := live
      screens := screens
      used := used
      active := n
      crtc := v.crtc.syncHwCursor live.cursor }

end Display

/-- The calls of the driver. -/
inductive Op where
  | clear
  | setColor (fg bg : Color)
  | print (bytes : List U8)
  | putChar (b : U8)
  | backspace
  | switchScreen (n : Nat)
  deriving DecidableEq, Repr

def Display.step (v : Display) : Op → Display
  | .clear => v.clear
  | .setColor fg bg => v.setColor fg bg
  | .print bytes => v.print bytes
  | .putChar b => v.putChar b
  | .backspace => v.backspace
  | .switchScreen n => v.switchScreen n

def Display.run (v : Display) (ops : List Op) : Display := ops.foldl Display.step v

end Kfs.Vga
