import Kfs.Lib.ByteMem

/-!
# Words pushed onto a stack in a byte memory

A stack that grows downwards: `pushed m top xs` is the memory after the words `xs` were pushed
below the address `top`, one after the other.  Word `i` of the list is then at
`top - 4 * (i + 1)`, and no byte outside of the words changed.
-/

namespace Lib.ByteMem

/-- The memory after `xs` was pushed below `top`, the first word highest. -/
def pushed (m : ByteMem) (top : Nat) : List (BitVec 32) → ByteMem
  | [] => m
  | x :: xs => pushed (m.write32 (top - 4) x) (top - 4) xs

theorem pushed_append (m : ByteMem) (top : Nat) (xs ys : List (BitVec 32)) :
    pushed m top (xs ++ ys) = pushed (pushed m top xs) (top - 4 * xs.length) ys := by
  induction xs generalizing m top with
  | nil => rfl
  | cons x xs ih =>
    rw [List.cons_append, pushed, pushed, ih, List.length_cons,
      show top - 4 - 4 * xs.length = top - 4 * (xs.length + 1) from by omega]

theorem pushed_other (m : ByteMem) {top a : Nat} {xs : List (BitVec 32)}
    (hroom : 4 * xs.length ≤ top) (h : a < top - 4 * xs.length ∨ top ≤ a) :
    pushed m top xs a = m a := by
  induction xs generalizing m top with
  | nil => rfl
  | cons x xs ih =>
    rw [List.length_cons] at hroom h
    rw [pushed, ih _ (by omega) (by omega)]
    exact write32_other _ _ (by omega)

/-- A pushed word reads back. -/
theorem read32_pushed (m : ByteMem) {top i : Nat} {xs : List (BitVec 32)} {x : BitVec 32}
    (hroom : 4 * xs.length ≤ top) (hx : xs[i]? = some x) :
    read32 (pushed m top xs) (top - 4 * (i + 1)) = x := by
  induction xs generalizing m top i with
  | nil => cases hx
  | cons y xs ih =>
    rw [List.length_cons] at hroom
    rw [pushed]
    cases i with
    | zero =>
      -- the words below it leave the first one alone
      rw [List.getElem?_cons_zero, Option.some.injEq] at hx
      rw [read32_congr fun a h1 h2 => pushed_other _ (by omega) (by omega),
        show top - 4 * (0 + 1) = top - 4 from by omega, read32_write32_same, hx]
    | succ i =>
      rw [List.getElem?_cons_succ] at hx
      rw [show top - 4 * (i + 1 + 1) = top - 4 - 4 * (i + 1) from by omega]
      exact ih _ (by omega) hx

end Lib.ByteMem
