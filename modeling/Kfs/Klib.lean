import Mathlib.Data.List.Basic
import Kfs.Mem

/-!
# The small library

The functions of `kernel/src/klib.rs`.  A `&str` is the list of its characters, and `bytes` is its
UTF-8 encoding.  `trim`, `strip_prefix`, `checked_mul` and `checked_add` are those of Rust's `core`.
-/

namespace Kfs.Klib

/-- The loop of `utoa` from index `i` down.  Below index 0 there is no byte to write to. -/
def utoaFrom : Nat → U32 → (Nat → U8) → Option (Nat × (Nat → U8))
  | 0, _, _ => none
  | i + 1, n, buf =>
    let buf := Function.update buf i (0x30 + (n % 10).setWidth 8)
    if n / 10 = 0 then some (i, buf) else utoaFrom i (n / 10) buf

/-- The bytes `&buf[i..]` of the text, in a buffer of ten bytes. -/
def utoa (n : U32) (buf : Nat → U8) : Option (List U8) :=
  (utoaFrom 10 n buf).map fun (i, buf) => (List.range' i (10 - i)).map buf

/-- `char::is_whitespace`: the characters with the property `White_Space`. -/
def isWhitespace (c : Char) : Bool :=
  let n := c.toNat
  decide (0x09 ≤ n ∧ n ≤ 0x0D) || decide (0x2000 ≤ n ∧ n ≤ 0x200A) ||
    [0x20, 0x85, 0xA0, 0x1680, 0x2028, 0x2029, 0x202F, 0x205F, 0x3000].contains n

def trim (text : List Char) : List Char :=
  ((text.dropWhile isWhitespace).reverse.dropWhile isWhitespace).reverse

def bytes (text : List Char) : List U8 :=
  text.flatMap fun c => (String.utf8EncodeChar c).map UInt8.toBitVec

def checkedMul (a b : U32) : Option U32 := if a.toNat * b.toNat < 2 ^ 32 then some (a * b) else none

def checkedAdd (a b : U32) : Option U32 := if a.toNat + b.toNat < 2 ^ 32 then some (a + b) else none

/-- The `match` of `parse_u32` on a byte. -/
def digitOf (byte : U8) : Option U32 :=
  if 0x30 ≤ byte ∧ byte ≤ 0x39 then some ((byte - 0x30).setWidth 32)
  else if 0x61 ≤ byte ∧ byte ≤ 0x66 then some ((byte - 0x61 + 10).setWidth 32)
  else if 0x41 ≤ byte ∧ byte ≤ 0x46 then some ((byte - 0x41 + 10).setWidth 32)
  else none

/-- The loop of `parse_u32`. -/
def parseDigits (radix : U32) : List U8 → U32 → Option U32
  | [], value => some value
  | byte :: rest, value => do
    let digit ← digitOf byte
    if digit ≥ radix then none
    else
      let shifted ← checkedMul value radix
      let value ← checkedAdd shifted digit
      parseDigits radix rest value

/-- What follows `0x` or `0X`, with the radix it selects, or else all of the text. -/
def splitRadix (text : List Char) : List Char × U32 :=
  match (text.dropPrefix? ['0', 'x']).or (text.dropPrefix? ['0', 'X']) with
  | some rest => (rest, 16)
  | none => (text, 10)

def parseU32 (text : List Char) : Option U32 :=
  let text := trim text
  let (digits, radix) := splitRadix text
  if digits = [] then none else parseDigits radix (bytes digits) 0

end Kfs.Klib
