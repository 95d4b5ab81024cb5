import Mathlib.Data.Finset.Card
import Kfs.Lib.Word

/-!
# A bitmap kept in machine words

Bit `k` of the map is bit `k % w` of word `k / w`.  `test`, `set` and `clear` are the word
operations, and `members` is the finite set a map stands for.  A set or a clear changes one
member and no other, also inside the word it rewrites.
-/

namespace Lib.Bitmap

variable {w : Nat}

/-- `map[k / w] & (1 << (k % w)) != 0`. -/
def test (m : Nat → BitVec w) (k : Nat) : Bool :=
  m (k / w) &&& (1#w <<< (k % w)) != 0#w

/-- `map[k / w] |= 1 << (k % w)`. -/
def set (m : Nat → BitVec w) (k : Nat) : Nat → BitVec w :=
  Function.update m (k / w) (m (k / w) ||| (1#w <<< (k % w)))

/-- `map[k / w] &= !(1 << (k % w))`. -/
def clear (m : Nat → BitVec w) (k : Nat) : Nat → BitVec w :=
  Function.update m (k / w) (m (k / w) &&& ~~~(1#w <<< (k % w)))

theorem test_eq_getLsbD (m : Nat → BitVec w) (k : Nat) :
    test m k = (m (k / w)).getLsbD (k % w) := by
  have h := Word.and_twoPow_eq_zero (m (k / w)) (k % w)
  rw [BitVec.twoPow_eq] at h
  cases hb : (m (k / w)).getLsbD (k % w) with
  | false => simp [test, h.mpr hb]
  | true =>
    have hne : m (k / w) &&& (1#w <<< (k % w)) ≠ 0#w := fun h0 => by
      rw [h.mp h0] at hb
      cases hb
    simp [test, hne]

/-- Two bits are the same bit when their words and their places agree. -/
private theorem index_inj {j k : Nat} (hdiv : j / w = k / w) (hmod : j % w = k % w) : j = k := by
  rw [← Nat.div_add_mod j w, ← Nat.div_add_mod k w, hdiv, hmod]

theorem test_set (hw : 0 < w) (m : Nat → BitVec w) (k j : Nat) :
    test (set m k) j = (decide (j = k) || test m j) := by
  rw [test_eq_getLsbD, test_eq_getLsbD, set, Function.update_apply]
  have hjw : j % w < w := Nat.mod_lt _ hw
  by_cases hdiv : j / w = k / w
  · rw [if_pos hdiv, BitVec.getLsbD_or, ← BitVec.twoPow_eq, BitVec.getLsbD_twoPow, hdiv,
      Bool.or_comm]
    by_cases hjk : j = k
    · subst hjk
      simp [hjw]
    · have hmod : k % w ≠ j % w := fun h => hjk (index_inj hdiv h.symm)
      simp [hjk, hmod]
  · have hjk : j ≠ k := fun h => hdiv (by rw [h])
    simp [hdiv, hjk]

theorem test_clear (hw : 0 < w) (m : Nat → BitVec w) (k j : Nat) :
    test (clear m k) j = (!decide (j = k) && test m j) := by
  rw [test_eq_getLsbD, test_eq_getLsbD, clear, Function.update_apply]
  have hjw : j % w < w := Nat.mod_lt _ hw
  by_cases hdiv : j / w = k / w
  · rw [if_pos hdiv, BitVec.getLsbD_and, BitVec.getLsbD_not, ← BitVec.twoPow_eq,
      BitVec.getLsbD_twoPow, hdiv, Bool.and_comm]
    by_cases hjk : j = k
    · subst hjk
      simp [hjw]
    · have hmod : k % w ≠ j % w := fun h => hjk (index_inj hdiv h.symm)
      simp [hjk, hmod, hjw]
  · have hjk : j ≠ k := fun h => hdiv (by rw [h])
    simp [hdiv, hjk]

/-- A map is its bits. -/
theorem map_ext (hw : 0 < w) {m m' : Nat → BitVec w} (h : ∀ k, test m k = test m' k) :
    m = m' := by
  funext q
  apply BitVec.eq_of_getLsbD_eq
  intro r hr
  have hbit := h (q * w + r)
  rw [test_eq_getLsbD, test_eq_getLsbD, Nat.mul_comm, Nat.mul_add_div hw, Nat.div_eq_of_lt hr,
    Nat.add_zero, Nat.mul_add_mod, Nat.mod_eq_of_lt hr] at hbit
  rw [hbit]

/-- Setting a bit undoes clearing it. -/
theorem set_clear (hw : 0 < w) {m : Nat → BitVec w} {k : Nat} (h : test m k = true) :
    set (clear m k) k = m := by
  refine map_ext hw fun j => ?_
  rw [test_set hw, test_clear hw]
  by_cases hjk : j = k
  · rw [hjk, h]
    simp
  · simp [hjk]

/-! ## The set a map stands for -/

/-- The members of the map below `n`. -/
def members (m : Nat → BitVec w) (n : Nat) : Finset Nat :=
  (Finset.range n).filter fun k => test m k = true

@[simp] theorem mem_members {m : Nat → BitVec w} {n k : Nat} :
    k ∈ members m n ↔ k < n ∧ test m k = true := by
  simp [members]

theorem members_set (hw : 0 < w) (m : Nat → BitVec w) {n k : Nat} (hk : k < n) :
    members (set m k) n = insert k (members m n) := by
  ext j
  simp only [mem_members, test_set hw, Finset.mem_insert, Bool.or_eq_true, decide_eq_true_eq]
  constructor
  · rintro ⟨hj, rfl | h⟩
    · exact Or.inl rfl
    · exact Or.inr ⟨hj, h⟩
  · rintro (rfl | ⟨hj, h⟩)
    · exact ⟨hk, Or.inl rfl⟩
    · exact ⟨hj, Or.inr h⟩

theorem members_clear (hw : 0 < w) (m : Nat → BitVec w) (n k : Nat) :
    members (clear m k) n = (members m n).erase k := by
  ext j
  simp only [mem_members, test_clear hw, Finset.mem_erase, Bool.and_eq_true, Bool.not_eq_true',
    decide_eq_false_iff_not]
  tauto

/-- A word is zero when none of its bits is a member. -/
theorem word_eq_zero_iff (hw : 0 < w) (m : Nat → BitVec w) (q : Nat) :
    m q = 0#w ↔ ∀ r, r < w → test m (q * w + r) = false := by
  constructor
  · intro h r hr
    rw [test_eq_getLsbD, Nat.mul_comm, Nat.mul_add_div hw, Nat.div_eq_of_lt hr, Nat.add_zero, h]
    simp
  · intro h
    apply BitVec.eq_of_getLsbD_eq
    intro r hr
    have hbit := h r hr
    rw [test_eq_getLsbD, Nat.mul_comm, Nat.mul_add_div hw, Nat.div_eq_of_lt hr, Nat.add_zero,
      Nat.mul_add_mod, Nat.mod_eq_of_lt hr] at hbit
    rw [hbit]
    simp

/-- The first member of a word that has one. -/
theorem test_ctz (hw : 0 < w) (m : Nat → BitVec w) {q : Nat} (h : m q ≠ 0#w) :
    (m q).ctz.toNat < w ∧ test m (q * w + (m q).ctz.toNat) = true ∧
      ∀ r, r < (m q).ctz.toNat → test m (q * w + r) = false := by
  have hbit := BitVec.getLsbD_true_ctz_of_ne_zero h
  have hlt : (m q).ctz.toNat < w := BitVec.lt_of_getLsbD hbit
  have hread : ∀ r, r < w → test m (q * w + r) = (m q).getLsbD r := by
    intro r hr
    rw [test_eq_getLsbD, Nat.mul_comm, Nat.mul_add_div hw, Nat.div_eq_of_lt hr, Nat.add_zero,
      Nat.mul_add_mod, Nat.mod_eq_of_lt hr]
  refine ⟨hlt, by rw [hread _ hlt, hbit], fun r hr => ?_⟩
  rw [hread r (by omega)]
  exact BitVec.getLsbD_false_of_lt_ctz hr

end Lib.Bitmap
