import Kfs.Mem

/-!
# The keyboard

The functions of `kernel/src/keyboard.rs`.  A poll reads the status port and, when a scancode is
waiting, the data port, so the two bytes that the ports hold are arguments here.  `SHIFT` is passed
on from one poll to the next.
-/

namespace Kfs.Keyboard

inductive Key where
  | char (b : U8)
  | backspace
  | screen (n : Nat)
  deriving DecidableEq, Repr

def LOWER : List U8 :=
  -- 1234567890-=
  [0x00, 0x00, 0x31, 0x32, 0x33, 0x34, 0x35, 0x36, 0x37, 0x38, 0x39, 0x30, 0x2D, 0x3D, 0x00, 0x00,
    -- qwertyuiop[] and Enter
    0x71, 0x77, 0x65, 0x72, 0x74, 0x79, 0x75, 0x69, 0x6F, 0x70, 0x5B, 0x5D, 0x0A, 0x00,
    -- asdfghjkl;'`
    0x61, 0x73, 0x64, 0x66, 0x67, 0x68, 0x6A, 0x6B, 0x6C, 0x3B, 0x27, 0x60, 0x00,
    -- \zxcvbnm,./
    0x5C, 0x7A, 0x78, 0x63, 0x76, 0x62, 0x6E, 0x6D, 0x2C, 0x2E, 0x2F, 0x00,
    -- * and the space bar
    0x2A, 0x00, 0x20]

def UPPER : List U8 :=
  -- !@#$%^&*()_+
  [0x00, 0x00, 0x21, 0x40, 0x23, 0x24, 0x25, 0x5E, 0x26, 0x2A, 0x28, 0x29, 0x5F, 0x2B, 0x00, 0x00,
    -- QWERTYUIOP{} and Enter
    0x51, 0x57, 0x45, 0x52, 0x54, 0x59, 0x55, 0x49, 0x4F, 0x50, 0x7B, 0x7D, 0x0A, 0x00,
    -- ASDFGHJKL:"~
    0x41, 0x53, 0x44, 0x46, 0x47, 0x48, 0x4A, 0x4B, 0x4C, 0x3A, 0x22, 0x7E, 0x00,
    -- |ZXCVBNM<>?
    0x7C, 0x5A, 0x58, 0x43, 0x56, 0x42, 0x4E, 0x4D, 0x3C, 0x3E, 0x3F, 0x00,
    -- * and the space bar
    0x2A, 0x00, 0x20]

/-- The key of a poll, and `SHIFT` after it. -/
def poll (shift : Bool) (status scancode : U8) : Option Key × Bool :=
  if status &&& 1 = 0 then (none, shift)
  else if scancode = 0x2A ∨ scancode = 0x36 then (none, true)
  else if scancode = 0xAA ∨ scancode = 0xB6 then (none, false)
  else if scancode = 0x0E then (some .backspace, shift)
  else if 0x3B ≤ scancode ∧ scancode ≤ 0x3D then (some (.screen (scancode - 0x3B).toNat), shift)
  else if scancode &&& 0x80 ≠ 0 then (none, shift)
  else
    let table := if shift = true then UPPER else LOWER
    match table[scancode.toNat]? with
    | some b => if b ≠ 0 then (some (.char b), shift) else (none, shift)
    | none => (none, shift)

/-- The keys of one poll after the other, for what the two ports hold at each. -/
def polls : Bool → List (U8 × U8) → List (Option Key)
  | _, [] => []
  | shift, (status, scancode) :: ports =>
    let (key, shift) := poll shift status scancode
    key :: polls shift ports

end Kfs.Keyboard
