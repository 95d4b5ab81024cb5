import Mathlib.Data.Finset.Card
import Mathlib.Data.Finset.Range

/-!
# Iterating a partial step

`orbit f n a` is what `n` steps of `f` make of `a`, or nothing when a step is undefined on the way.

* `orbit_forever`: an orbit that comes back to a point it has passed never ends.
* `exists_orbit_eq`: over a finite type, an orbit that is long enough comes back, so that
  `exists_lt_orbit_eq` finds each of its points early.
-/

namespace Lib

variable {α : Type} {f : α → Option α} {a b : α}

def orbit (f : α → Option α) : Nat → α → Option α
  | 0, a => some a
  | n + 1, a => (f a).bind (orbit f n)

theorem orbit_add (m n : Nat) : ∀ a, orbit f (m + n) a = (orbit f m a).bind (orbit f n) := by
  induction m with
  | zero =>
    intro a
    rw [Nat.zero_add]
    rfl
  | succ m ih =>
    intro a
    rw [Nat.succ_add, orbit, orbit]
    cases f a with
    | none => rfl
    | some c => exact ih c

theorem orbit_succ (n : Nat) (a : α) : orbit f (n + 1) a = (orbit f n a).bind f := by
  rw [orbit_add]
  congr 1
  funext c
  rw [orbit]
  cases f c <;> rfl

/-- A point that is reached was reached through all the points before it. -/
theorem isSome_orbit_of_le {m n : Nat} (hle : m ≤ n) (h : (orbit f n a).isSome) :
    (orbit f m a).isSome := by
  rw [show n = m + (n - m) from by omega, orbit_add] at h
  cases hm : orbit f m a with
  | none =>
    rw [hm] at h
    cases h
  | some c => rfl

theorem orbit_mul {p : Nat} (h : orbit f p b = some b) (k : Nat) :
    orbit f (k * p) b = some b := by
  induction k with
  | zero =>
    rw [Nat.zero_mul]
    rfl
  | succ k ih =>
    rw [Nat.succ_mul, orbit_add, ih]
    exact h

theorem orbit_forever {i j : Nat} (hij : i < j) (hi : orbit f i a = some b)
    (hj : orbit f j a = some b) (n : Nat) : (orbit f n a).isSome := by
  have hcycle : orbit f (j - i) b = some b := by
    rw [show j = i + (j - i) from by omega, orbit_add, hi] at hj
    exact hj
  have hpos : 1 ≤ j - i := by omega
  -- n rounds of the cycle lead at least n steps on
  have hfar : (orbit f (i + n * (j - i)) a).isSome := by
    rw [orbit_add, hi]
    show (orbit f (n * (j - i)) b).isSome
    rw [orbit_mul hcycle]
    rfl
  have hle : n * 1 ≤ n * (j - i) := Nat.mul_le_mul_left n hpos
  exact isSome_orbit_of_le (by omega) hfar

/-- A type whose points are numbered below `N` has no orbit of more than `N` different points. -/
theorem exists_orbit_eq {e : α → Nat} (he : Function.Injective e) {N : Nat} (hlt : ∀ c, e c < N)
    (h : (orbit f N a).isSome) :
    ∃ i j c, i < j ∧ j ≤ N ∧ orbit f i a = some c ∧ orbit f j a = some c := by
  have hpoint : ∀ n, n ≤ N → ∃ c, orbit f n a = some c :=
    fun n hn => Option.isSome_iff_exists.mp (isSome_orbit_of_le hn h)
  have hmaps : ∀ n ∈ Finset.range (N + 1), e ((orbit f n a).getD a) ∈ Finset.range N :=
    fun n _ => Finset.mem_range.mpr (hlt _)
  obtain ⟨i, hi, j, hj, hne, heq⟩ := Finset.exists_ne_map_eq_of_card_lt_of_maps_to
    (by rw [Finset.card_range, Finset.card_range]; exact Nat.lt_succ_self N) hmaps
  have hi' : i ≤ N := Nat.lt_succ_iff.mp (Finset.mem_range.mp hi)
  have hj' : j ≤ N := Nat.lt_succ_iff.mp (Finset.mem_range.mp hj)
  obtain ⟨c, hc⟩ := hpoint i hi'
  obtain ⟨d, hd⟩ := hpoint j hj'
  have hcd : c = d := by
    have := he heq
    rwa [hc, hd] at this
  subst hcd
  rcases Nat.lt_or_gt_of_ne hne with hij | hij
  · exact ⟨i, j, c, hij, hj', hc, hd⟩
  · exact ⟨j, i, c, hij, hi', hd, hc⟩

/-- Every point of an orbit over such a type is reached in fewer than `N` steps. -/
theorem exists_lt_orbit_eq {e : α → Nat} (he : Function.Injective e) {N : Nat}
    (hlt : ∀ c, e c < N) (n : Nat) : orbit f n a = some b → ∃ m, m < N ∧ orbit f m a = some b := by
  induction n using Nat.strong_induction_on with
  | _ n ih =>
    intro hn
    by_cases hsmall : n < N
    · exact ⟨n, hsmall, hn⟩
    · have hlong : (orbit f N a).isSome :=
        isSome_orbit_of_le (by omega) (Option.isSome_iff_exists.mpr ⟨b, hn⟩)
      obtain ⟨i, j, c, hij, hjN, hi, hj⟩ := exists_orbit_eq he hlt hlong
      -- the steps from i to j lead back, so they can be left out
      refine ih (i + (n - j)) (by omega) ?_
      rw [orbit_add, hi]
      rw [show n = j + (n - j) from by omega, orbit_add, hj] at hn
      exact hn

end Lib
