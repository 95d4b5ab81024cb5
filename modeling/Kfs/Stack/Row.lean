import Mathlib.Algebra.BigOperators.Group.List.Basic
import Kfs.Klib.Digits
import Kfs.Stack

/-!
# Reading a row of the dump

`readRow` takes a row apart by its columns, as a reader of the screen does: eight digits for the
address, then two for each byte, which are blank where there is no byte.  `readRow_row` says that a
row tells the address and the bytes that it was printed for.  `text_row` is the column on the right.
-/

namespace Kfs.Stack

open Klib

/-! ## Hexadecimal fields -/

theorem toList_hexPadded (width x : Nat) : (hexPadded width x).toList =
    List.replicate (width - (Nat.toDigits 16 x).length) '0' ++ Nat.toDigits 16 x := by
  rw [hexPadded, String.toList_ofList]

theorem length_hexPadded {width x : Nat} (hpos : 0 < width) (hx : x < 16 ^ width) :
    (hexPadded width x).toList.length = width := by
  have hle := (Nat.length_toDigits_le_iff (by decide) hpos).mpr hx
  rw [toList_hexPadded, List.length_append, List.length_replicate]
  omega

theorem readDigits_hexPadded (width x : Nat) :
    readDigits 16 (hexPadded width x).toList = some x := by
  rw [toList_hexPadded]
  exact readDigits_padded (by decide) (by decide) _ x

/-! ## Columns -/

/-- Where the digits of column `i` stand in a row. -/
def place (i : Nat) : Nat := 10 + (3 * i + if 7 < i then 1 else 0)

/-- The address and the bytes of a row. -/
def readRow (line : String) : Option (U32 × List U8) := do
  let label ← readDigits 16 (line.toList.take 8)
  pure (BitVec.ofNat 32 label, (List.range PER_ROW).filterMap fun i =>
    (readDigits 16 ((line.toList.drop (place i)).take 2)).map (BitVec.ofNat 8))

variable (addr : U32) (chunk : List U8)

def columns : List (List Char) := (List.range PER_ROW).map fun i => (column chunk i).toList

theorem toList_row : (row addr chunk).toList = (hexPadded 8 addr.toNat).toList ++ ([' ', ' '] ++
    ((columns chunk).flatten ++ ('|' :: (chunk.map printable ++ ['|', '\n'])))) := by
  rw [row, columns, ← List.flatMap_def]
  simp [String.toList_join, List.flatMap_map]

theorem length_label : (hexPadded 8 addr.toNat).toList.length = 8 :=
  length_hexPadded (by decide) (Nat.lt_of_lt_of_le addr.isLt (by decide))

/-- The two characters for the byte of column `i`. -/
def cell (i : Nat) : List Char := (chunk[i]?.elim [' ', ' '] fun b => (hexPadded 2 b.toNat).toList)

theorem length_cell (i : Nat) : (cell chunk i).length = 2 := by
  rw [cell]
  cases chunk[i]? with
  | none => rfl
  | some b => exact length_hexPadded (by decide) b.isLt

theorem readDigits_cell (i : Nat) :
    (readDigits 16 (cell chunk i)).map (BitVec.ofNat 8) = chunk[i]? := by
  rw [cell]
  cases chunk[i]? with
  | none => decide
  | some b => simp [readDigits_hexPadded]

theorem toList_column (i : Nat) :
    (column chunk i).toList = cell chunk i ++ (' ' :: if i = 7 then [' '] else []) := by
  have hgap : (if i = 7 then " " else "").toList = if i = 7 then [' '] else [] := by
    split <;> rfl
  rw [column, cell, String.toList_append, hgap]
  cases chunk[i]? with
  | none => rfl
  | some b => simp

theorem length_column (i : Nat) : (column chunk i).toList.length = if i = 7 then 4 else 3 := by
  rw [toList_column, List.length_append, length_cell]
  split <;> rfl

theorem length_columns : (columns chunk).map List.length =
    [3, 3, 3, 3, 3, 3, 3, 4, 3, 3, 3, 3, 3, 3, 3, 3] := by
  have hlen : (List.length ∘ fun i => (column chunk i).toList) = fun i => if i = 7 then 4 else 3 :=
    funext fun i => length_column chunk i
  rw [columns, List.map_map, hlen]
  decide

theorem length_flatten_columns : (columns chunk).flatten.length = 49 := by
  rw [List.length_flatten, length_columns]
  rfl

/-- What follows the address. -/
theorem drop_label : (row addr chunk).toList.drop 10 =
    (columns chunk).flatten ++ ('|' :: (chunk.map printable ++ ['|', '\n'])) := by
  rw [toList_row, ← List.append_assoc, List.drop_append, List.drop_of_length_le, List.nil_append]
  all_goals rw [List.length_append, length_label]
  · rfl
  · exact Nat.le_refl 10

/-- What stands in the columns from column `i` on. -/
theorem drop_columns {i : Nat} (hi : i < PER_ROW) : ∃ rest,
    (columns chunk).flatten.drop (place i - 10) = (column chunk i).toList ++ rest := by
  have hsum : ((List.map List.length (columns chunk)).take i).sum = place i - 10 := by
    rw [length_columns]
    revert i
    decide
  have hlen : i < (columns chunk).length := by rwa [columns, List.length_map, List.length_range]
  refine ⟨((columns chunk).drop (i + 1)).flatten, ?_⟩
  rw [← hsum, List.drop_sum_flatten, List.drop_eq_getElem_cons hlen, List.flatten_cons]
  simp [columns]

/-- The digits of column `i` are in their place. -/
theorem take_place {i : Nat} (hi : i < PER_ROW) :
    ((row addr chunk).toList.drop (place i)).take 2 = cell chunk i := by
  obtain ⟨rest, hdrop⟩ := drop_columns chunk hi
  have hin : place i - 10 ≤ (columns chunk).flatten.length := by
    have hlt : i < 16 := hi
    rw [length_flatten_columns, place]
    split <;> omega
  have hplace : place i = 10 + (place i - 10) := by
    rw [place]
    omega
  rw [hplace, ← List.drop_drop, drop_label, List.drop_append_of_le_length hin, hdrop, toList_column,
    List.append_assoc, List.append_assoc, List.take_append, length_cell, Nat.sub_self,
    List.take_zero, List.append_nil, List.take_of_length_le (Nat.le_of_eq (length_cell chunk i))]

/-- The elements of a list, by their indices. -/
theorem filterMap_getElem? {n : Nat} (hlen : chunk.length ≤ n) :
    (List.range n).filterMap (fun i => chunk[i]?) = chunk := by
  induction n generalizing chunk with
  | zero => rw [List.eq_nil_of_length_eq_zero (Nat.le_zero.mp hlen)]; rfl
  | succ n ih =>
    cases chunk with
    | nil => simp
    | cons b chunk =>
      rw [List.length_cons] at hlen
      rw [List.range_succ_eq_map, List.filterMap_cons, List.filterMap_map]
      simpa using ih chunk (by omega)

/-- A row tells what it was printed for. -/
theorem readRow_row (hlen : chunk.length ≤ PER_ROW) :
    readRow (row addr chunk) = some (addr, chunk) := by
  have hlabel : (row addr chunk).toList.take 8 = (hexPadded 8 addr.toNat).toList := by
    rw [toList_row, List.take_append, length_label, Nat.sub_self, List.take_zero, List.append_nil,
      List.take_of_length_le (Nat.le_of_eq (length_label addr))]
  have hbytes : (List.range PER_ROW).filterMap (fun i =>
      (readDigits 16 (((row addr chunk).toList.drop (place i)).take 2)).map (BitVec.ofNat 8))
      = chunk := by
    rw [List.filterMap_congr fun i hi => by
      rw [take_place addr chunk (List.mem_range.mp hi), readDigits_cell]]
    exact filterMap_getElem? chunk hlen
  rw [readRow, hlabel, readDigits_hexPadded, hbytes]
  simp

/-- The column on the right. -/
theorem text_row : (row addr chunk).toList.drop 59 =
    '|' :: (chunk.map printable ++ ['|', '\n']) := by
  rw [show 59 = 10 + 49 from rfl, ← List.drop_drop, drop_label, List.drop_append,
    length_flatten_columns, List.drop_of_length_le (Nat.le_of_eq (length_flatten_columns chunk))]
  rfl

end Kfs.Stack
