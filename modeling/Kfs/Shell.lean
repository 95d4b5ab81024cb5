import Kfs.Keyboard
import Kfs.Klib
import Kfs.Vga

/-!
# The shell

`run`, `read_line` and `seg_range` of `kernel/src/shell.rs`.  `read_line` polls the keyboard until
Enter, so it is a loop over the results of the polls.  A pass either goes on or ends with the line.
-/

namespace Kfs.Shell

open Vga Keyboard

abbrev LINE_MAX : Nat := 74

/-- `"kfs> "`. -/
def PROMPT : List U8 := [0x6B, 0x66, 0x73, 0x3E, 0x20]

/-- The variables of `read_line` and the driver it echoes to. -/
structure Editor where
  buf : Nat → U8
  n : Nat
  display : Display

/-- `&buf[..n]`. -/
def Editor.line (e : Editor) : List U8 := (List.range e.n).map e.buf

/-- What a pass of the loop does next: poll again, or leave the loop with the line. -/
inductive Next where
  | again (e : Editor)
  | done (e : Editor)

/-- The `match` of `read_line`. -/
def pass (e : Editor) : Option Key → Next
  | some (.char b) =>
    if b = 0x0A then .done { e with display := e.display.putChar 0x0A }
    else if e.n < LINE_MAX then
      .again
        { buf := Function.update e.buf e.n b
          n := e.n + 1
          display := e.display.putChar b }
    else .again e
  | some .backspace =>
    if e.n > 0 then .again { e with n := e.n - 1, display := e.display.backspace } else .again e
  | some (.screen s) => .again { e with display := e.display.switchScreen s }
  | none => .again e

/-- The loop of `read_line` over the keys that the polls return. -/
def readLineFrom : Editor → List (Option Key) → Next
  | e, [] => .again e
  | e, key :: keys =>
    match pass e key with
    | .again e => readLineFrom e keys
    | .done e => .done e

def readLine (buf : Nat → U8) (v : Display) (keys : List (Option Key)) : Next :=
  readLineFrom { buf := buf, n := 0, display := v } keys

/-- The prompt that `run` prints before each line. -/
def prompt (v : Display) : Display :=
  ((v.setColor .brightCyan .black).print PROMPT).setColor .white .black

/-! ## The loop of `run` -/

/-- "type `help` for the command list" and the end of the line. -/
def WELCOME : List U8 :=
  [0x74, 0x79, 0x70, 0x65, 0x20, 0x60, 0x68, 0x65, 0x6C, 0x70, 0x60, 0x20, 0x66, 0x6F, 0x72, 0x20,
    0x74, 0x68, 0x65, 0x20, 0x63, 0x6F, 0x6D, 0x6D, 0x61, 0x6E, 0x64, 0x20, 0x6C, 0x69, 0x73, 0x74,
    0x0A]

/-- What `dispatch` calls of the driver.  The commands and the panics that they cause print, set the
colour or clear, and no more. -/
inductive Call where
  | clear
  | setColor (fg bg : Color)
  | print (bytes : List U8)

def Call.op : Call → Vga.Op
  | clear => .clear
  | setColor fg bg => .setColor fg bg
  | print bytes => .print bytes

/-- `run` between two polls: the line that is read and the number of those before it. -/
structure Console where
  editor : Editor
  lines : Nat

namespace Console

/-- At the first poll.  The driver is in the state in which `run` is called. -/
def start (v : Display) : Console where
  editor := { buf := fun _ => 0, n := 0, display := prompt (v.print WELCOME) }
  lines := 0

/-- One poll.  After Enter the line is dispatched, which makes the calls that `commands` lists for
it, and the next one is begun in the same buffer. -/
def step (commands : Nat → List Call) (c : Console) (key : Option Key) : Console :=
  match pass c.editor key with
  | .again e => { c with editor := e }
  | .done e =>
    let display := e.display.run ((commands c.lines).map Call.op)
    { editor := { buf := e.buf, n := 0, display := prompt display }
      lines := c.lines + 1 }

def run (commands : Nat → List Call) (c : Console) (keys : List (Option Key)) : Console :=
  keys.foldl (step commands) c

end Console

/-! ## The `gdt` command -/

/-- The first and the last address of a segment. -/
def segRange (descriptor : U64) : Option (U32 × U32) :=
  if descriptor = 0 then none
  else
    let base : U32 := (((descriptor >>> 16) &&& 0xFFFFFF#64) |||
      (((descriptor >>> 56) &&& 0xFF#64) <<< 24)).setWidth 32
    let raw : U32 := ((descriptor &&& 0xFFFF#64) |||
      (((descriptor >>> 48) &&& 0xF#64) <<< 16)).setWidth 32
    let limit := if descriptor &&& (1#64 <<< 55) ≠ 0 then (raw <<< 12) ||| 0xFFF#32 else raw
    let code := descriptor &&& (1#64 <<< 43) ≠ 0
    if ¬code ∧ descriptor &&& (1#64 <<< 42) ≠ 0 then do
      let lo ← Klib.checkedAdd limit 1
      some (base + lo, BitVec.allOnes 32)
    else some (base, base + limit)

end Kfs.Shell
