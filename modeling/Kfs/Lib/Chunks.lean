import Mathlib.Tactic.Common

/-!
# Chunks of a list

The parts of `n` elements that a list falls into, where the last one may be shorter.  A list that is
cut at a multiple of `n` first has the chunks of its two parts.
-/

namespace Lib

variable {α : Type} {n : Nat}

/-- The list in parts of `n` elements. -/
def chunks (n : Nat) (l : List α) : List (List α) :=
  (List.range ((l.length + n - 1) / n)).map fun i => (l.drop (i * n)).take n

@[simp] theorem length_chunks (n : Nat) (l : List α) :
    (chunks n l).length = (l.length + n - 1) / n := by
  rw [chunks, List.length_map, List.length_range]

theorem chunks_append (hn : 0 < n) {a : List α} (ha : n ∣ a.length) (b : List α) :
    chunks n (a ++ b) = chunks n a ++ chunks n b := by
  obtain ⟨q, hq⟩ := ha
  have hlen : (a.length + n - 1) / n = q := by
    rw [hq, Nat.add_sub_assoc hn, Nat.mul_add_div hn, Nat.div_eq_of_lt (Nat.sub_lt hn Nat.one_pos),
      Nat.add_zero]
  have hcount : ((a ++ b).length + n - 1) / n = q + (b.length + n - 1) / n := by
    rw [List.length_append, hq, Nat.add_assoc, Nat.add_sub_assoc (by omega), Nat.mul_add_div hn]
  unfold chunks
  rw [hcount, hlen, List.range_add, List.map_append, List.map_map]
  congr 1
  · -- the chunk ends inside the first part
    apply List.map_congr_left
    intro i hi
    have hend : i * n + n ≤ a.length := by
      rw [hq, ← Nat.succ_mul, Nat.mul_comm]
      exact Nat.mul_le_mul_left n (List.mem_range.mp hi)
    rw [List.drop_append_of_le_length (by omega), List.take_append_of_le_length]
    rw [List.length_drop]
    omega
  · apply List.map_congr_left
    intro i _
    have hdrop : (q + i) * n = a.length + i * n := by rw [hq, Nat.add_mul, Nat.mul_comm q]
    show ((a ++ b).drop ((q + i) * n)).take n = _
    rw [hdrop, List.drop_append, List.drop_of_length_le (by omega), List.nil_append,
      Nat.add_sub_cancel_left]

end Lib
