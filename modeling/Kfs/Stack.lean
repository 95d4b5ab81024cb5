import Kfs.Lib.Chunks
import Kfs.Lib.Query
import Kfs.Panic

/-!
# The dump of the stack

The functions of `kernel/src/stack.rs`.  They read memory and do not write it, so a dump is a
`Query` for the bytes at addresses.  Its result is the texts that it prints, one for each row after
the first line.  `bottom` and `top` are the symbols of the linker script that delimit the stack.
-/

namespace Kfs.Stack

open Lib

abbrev WINDOW : Nat := 256

abbrev PER_ROW : Nat := 16

/-- `u32::saturating_sub`. -/
def saturatingSub (a b : U32) : U32 := if b ≤ a then a - b else 0

/-- The loop of `snapshot`, from index `i` on. -/
def snapshotFrom (base : U32) : Nat → Nat → Query U32 U8 Stop (List U8)
  | _, 0 => pure []
  | i, n + 1 => do
    let byte ← Query.get (base + BitVec.ofNat 32 i)
    let rest ← snapshotFrom base (i + 1) n
    pure (byte :: rest)

/-- The bytes from `base` on, for a buffer of `len` bytes. -/
def snapshot (top base : U32) (len : Nat) : Query U32 U8 Stop (List U8) :=
  snapshotFrom base 0 (min (saturatingSub top base).toNat len)

/-! ## Rows -/

/-- `{:0width$x}`. -/
def hexPadded (width : Nat) (x : Nat) : String :=
  let digits := Nat.toDigits 16 x
  String.ofList (List.replicate (width - digits.length) '0' ++ digits)

/-- The column of a row for index `i`. -/
def column (chunk : List U8) (i : Nat) : String :=
  (match chunk[i]? with
    | some b => hexPadded 2 b.toNat ++ " "
    | none => "   ") ++ if i = 7 then " " else ""

def printable (b : U8) : Char := if 0x20 ≤ b ∧ b < 0x7F then Char.ofNat b.toNat else '.'

/-- The row of a chunk that was read at `addr`. -/
def row (addr : U32) (chunk : List U8) : String :=
  hexPadded 8 addr.toNat ++ "  " ++ String.join ((List.range PER_ROW).map (column chunk)) ++
    "|" ++ String.ofList (chunk.map printable) ++ "|\n"

def render (base : U32) (bytes : List U8) : List String :=
  (chunks PER_ROW bytes).mapIdx fun i chunk => row (base + BitVec.ofNat 32 (i * PER_ROW)) chunk

/-! ## The dump -/

/-- The loop of `print`.  A pass takes a byte at least, so `left` passes are enough. -/
def printFrom (top : U32) : Nat → U32 → Nat → Query U32 U8 Stop (List String)
  | _, _, 0 => pure []
  | 0, _, _ + 1 => .stop .spins
  | fuel + 1, addr, left + 1 => do
    let got ← snapshot top addr (min (left + 1) WINDOW)
    if got = [] then pure []
    else do
      let rest ← printFrom top fuel (addr + BitVec.ofNat 32 got.length) (left + 1 - got.length)
      pure (render addr got ++ rest)

def header (bottom top esp : U32) : String :=
  "stack: esp " ++ hex esp ++ " -> top " ++ hex top ++ ", " ++
    toString (saturatingSub top esp).toNat ++ " of " ++ toString (top - bottom).toNat ++
    " bytes in use\n"

def print (bottom top esp bytes : U32) : Query U32 U8 Stop (List String) := do
  let left := min bytes.toNat (saturatingSub top esp).toNat
  let rows ← printFrom top left esp left
  pure (header bottom top esp :: rows)

end Kfs.Stack
