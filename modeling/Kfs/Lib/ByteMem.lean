import Mathlib.Algebra.Group.Nat.Defs
import Mathlib.Tactic.Common

/-!
# Byte memories and their little-endian words

A byte memory is a total function from addresses to bytes.  `read32` and `write32` see four
neighbouring bytes as one word, least significant byte first.  The lemmas are the usual ones of
a memory: a word reads back what was written over it, and a word or a byte that the write does
not cover keeps its value.
-/

namespace Lib

/-- A byte memory. -/
abbrev ByteMem := Nat → BitVec 8

namespace ByteMem

/-- Byte `i` of a word, least significant first. -/
def byteOf (x : BitVec 32) (i : Nat) : BitVec 8 := BitVec.ofNat 8 (x.toNat / 256 ^ i)

/-- The word made of four bytes, least significant first. -/
def ofBytes (b0 b1 b2 b3 : BitVec 8) : BitVec 32 :=
  BitVec.ofNat 32 (b0.toNat + 256 * b1.toNat + 256 ^ 2 * b2.toNat + 256 ^ 3 * b3.toNat)

/-- The word at `a`. -/
def read32 (m : ByteMem) (a : Nat) : BitVec 32 :=
  ofBytes (m a) (m (a + 1)) (m (a + 2)) (m (a + 3))

/-- The memory with the byte at `a` replaced. -/
def write8 (m : ByteMem) (a : Nat) (b : BitVec 8) : ByteMem :=
  fun p => if p = a then b else m p

/-- The memory with the word at `a` replaced. -/
def write32 (m : ByteMem) (a : Nat) (x : BitVec 32) : ByteMem :=
  fun p => if a ≤ p ∧ p < a + 4 then byteOf x (p - a) else m p

@[simp] theorem write8_same (m : ByteMem) (a : Nat) (b : BitVec 8) : write8 m a b a = b := by
  simp [write8]

theorem write8_other (m : ByteMem) {a p : Nat} (b : BitVec 8) (h : p ≠ a) :
    write8 m a b p = m p := by
  simp [write8, h]

/-- A byte after a write depends on that byte alone. -/
theorem write32_congr {m m' : ByteMem} {a p : Nat} (x : BitVec 32) (h : m p = m' p) :
    write32 m a x p = write32 m' a x p := by
  rw [write32, write32, h]

theorem write32_other (m : ByteMem) {a p : Nat} (x : BitVec 32) (h : p < a ∨ a + 4 ≤ p) :
    write32 m a x p = m p := by
  rw [write32, if_neg (by omega)]

theorem ofBytes_byteOf (x : BitVec 32) :
    ofBytes (byteOf x 0) (byteOf x 1) (byteOf x 2) (byteOf x 3) = x := by
  apply BitVec.eq_of_toNat_eq
  have hx := x.isLt
  simp only [ofBytes, byteOf, BitVec.toNat_ofNat]
  omega

/-- A written word reads back. -/
@[simp] theorem read32_write32_same (m : ByteMem) (a : Nat) (x : BitVec 32) :
    read32 (write32 m a x) a = x := by
  conv_rhs => rw [← ofBytes_byteOf x]
  simp [read32, write32]

/-- Writing the word that stands there changes nothing. -/
theorem write32_read32 (m : ByteMem) (a : Nat) : write32 m a (read32 m a) = m := by
  have hbyte : ∀ i, i < 4 → byteOf (read32 m a) i = m (a + i) := by
    intro i hi
    have h0 := (m a).isLt
    have h1 := (m (a + 1)).isLt
    have h2 := (m (a + 2)).isLt
    have h3 := (m (a + 3)).isLt
    apply BitVec.eq_of_toNat_eq
    simp only [byteOf, read32, ofBytes, BitVec.toNat_ofNat]
    rcases (by omega : i = 0 ∨ i = 1 ∨ i = 2 ∨ i = 3) with rfl | rfl | rfl | rfl
    · simp only [Nat.add_zero]
      omega
    · omega
    · omega
    · omega
  funext p
  unfold write32
  split
  · rename_i hp
    rw [hbyte _ (by omega), Nat.add_sub_cancel' hp.1]
  · rfl

/-- A byte store as a word store. -/
theorem write8_eq_write32 (m : ByteMem) (a : Nat) (b : BitVec 8) :
    write8 m a b = write32 m a (read32 (write8 m a b) a) := by
  refine (write32_read32 (write8 m a b) a).symm.trans ?_
  funext p
  by_cases h : a ≤ p ∧ p < a + 4
  · rw [write32, if_pos h, write32, if_pos h]
  · rw [write32_other _ _ (by omega), write32_other _ _ (by omega), write8_other _ _ (by omega)]

/-- A word of one becomes zero when its first byte does. -/
theorem write8_zero_one {m : ByteMem} {a : Nat} (h : read32 m a = 1) :
    write8 m a 0 = write32 m a 0 := by
  have hword : read32 (write8 m a 0) a = 0 := by
    have hnat := congrArg BitVec.toNat h
    have h0 := (m a).isLt
    have h1 := (m (a + 1)).isLt
    have h2 := (m (a + 2)).isLt
    have h3 := (m (a + 3)).isLt
    rw [read32, ofBytes, BitVec.toNat_ofNat, show (1 : BitVec 32).toNat = 1 from rfl] at hnat
    rw [read32, write8_same, write8_other _ _ (by omega), write8_other _ _ (by omega),
      write8_other _ _ (by omega)]
    apply BitVec.eq_of_toNat_eq
    rw [ofBytes, BitVec.toNat_ofNat, show (0 : BitVec 8).toNat = 0 from rfl,
      show (0 : BitVec 32).toNat = 0 from rfl]
    omega
  rw [write8_eq_write32, hword]

/-- A word depends on its four bytes only. -/
theorem read32_congr {m m' : ByteMem} {a : Nat} (h : ∀ p, a ≤ p → p < a + 4 → m' p = m p) :
    read32 m' a = read32 m a := by
  rw [read32, read32, h a (by omega) (by omega), h (a + 1) (by omega) (by omega),
    h (a + 2) (by omega) (by omega), h (a + 3) (by omega) (by omega)]

theorem read32_write32_other (m : ByteMem) {a b : Nat} (x : BitVec 32)
    (h : b + 4 ≤ a ∨ a + 4 ≤ b) : read32 (write32 m a x) b = read32 m b :=
  read32_congr fun _ _ _ => write32_other m x (by omega)

theorem read32_write8_other (m : ByteMem) {a b : Nat} (x : BitVec 8)
    (h : a < b ∨ b + 4 ≤ a) : read32 (write8 m a x) b = read32 m b :=
  read32_congr fun _ _ _ => write8_other m x (by omega)

/-- Four byte stores make one word store. -/
theorem write8_bytes (m : ByteMem) (a : Nat) (x : BitVec 32) :
    write8 (write8 (write8 (write8 m a (byteOf x 0)) (a + 1) (byteOf x 1)) (a + 2)
      (byteOf x 2)) (a + 3) (byteOf x 3) = write32 m a x := by
  funext p
  by_cases h : a ≤ p ∧ p < a + 4
  · obtain ⟨i, rfl⟩ : ∃ i, p = a + i := ⟨p - a, by omega⟩
    have hi : i = 0 ∨ i = 1 ∨ i = 2 ∨ i = 3 := by omega
    rcases hi with rfl | rfl | rfl | rfl <;> simp [write8, write32]
  · rw [write32, if_neg h]
    simp [write8, show p ≠ a by omega, show p ≠ a + 1 by omega, show p ≠ a + 2 by omega,
      show p ≠ a + 3 by omega]

/-! ## Zeroed ranges -/

/-- The memory with `n` bytes from `a` set to zero. -/
def zeros (m : ByteMem) (a n : Nat) : ByteMem :=
  fun p => if a ≤ p ∧ p < a + n then 0 else m p

theorem zeros_other (m : ByteMem) {a n p : Nat} (h : p < a ∨ a + n ≤ p) : zeros m a n p = m p := by
  rw [zeros, if_neg (by omega)]

theorem zeros_inside (m : ByteMem) {a n p : Nat} (h : a ≤ p ∧ p < a + n) : zeros m a n p = 0 := by
  rw [zeros, if_pos h]

theorem read32_zeros (m : ByteMem) {a n b : Nat} (h : a ≤ b ∧ b + 4 ≤ a + n) :
    read32 (zeros m a n) b = 0 := by
  rw [read32, zeros_inside m (by omega), zeros_inside m (by omega), zeros_inside m (by omega),
    zeros_inside m (by omega)]
  rfl

/-! ## Arrays of words -/

/-- The memory with the words `f 0, …, f (n - 1)` from `a` on. -/
def fill32 (m : ByteMem) (a : Nat) (f : Nat → BitVec 32) (n : Nat) : ByteMem :=
  fun p => if a ≤ p ∧ p < a + 4 * n then byteOf (f ((p - a) / 4)) ((p - a) % 4) else m p

theorem fill32_other (m : ByteMem) {a p n : Nat} (f : Nat → BitVec 32)
    (h : p < a ∨ a + 4 * n ≤ p) : fill32 m a f n p = m p := by
  rw [fill32, if_neg (by omega)]

@[simp] theorem fill32_zero (m : ByteMem) (a : Nat) (f : Nat → BitVec 32) :
    fill32 m a f 0 = m := by
  funext p
  exact fill32_other m f (by omega)

/-- One more word: the step of a loop that writes an array. -/
theorem write32_fill32 (m : ByteMem) (a : Nat) (f : Nat → BitVec 32) (n : Nat) :
    write32 (fill32 m a f n) (a + 4 * n) (f n) = fill32 m a f (n + 1) := by
  funext p
  by_cases h : a + 4 * n ≤ p ∧ p < a + 4 * n + 4
  · rw [write32, if_pos h, fill32, if_pos (by omega), show (p - a) / 4 = n from by omega,
      show (p - a) % 4 = p - (a + 4 * n) from by omega]
  · rw [write32_other _ _ (by omega)]
    by_cases hp : a ≤ p ∧ p < a + 4 * n
    · rw [fill32, fill32, if_pos hp, if_pos (by omega)]
    · rw [fill32_other m f (by omega), fill32_other m f (by omega)]

theorem read32_fill32 (m : ByteMem) (a : Nat) (f : Nat → BitVec 32) {n i : Nat} (hi : i < n) :
    read32 (fill32 m a f n) (a + 4 * i) = f i := by
  have hbyte : ∀ j, j < 4 → fill32 m a f n (a + 4 * i + j) = byteOf (f i) j := by
    intro j hj
    rw [fill32, if_pos (by omega), show (a + 4 * i + j - a) / 4 = i from by omega,
      show (a + 4 * i + j - a) % 4 = j from by omega]
  rw [read32, hbyte 1 (by decide), hbyte 2 (by decide), hbyte 3 (by decide)]
  have h0 := hbyte 0 (by decide)
  rw [Nat.add_zero] at h0
  rw [h0, ofBytes_byteOf]

/-- A word of the array is written again. -/
theorem write32_fill32_update (m : ByteMem) (a : Nat) (f : Nat → BitVec 32) {n i : Nat} (hi : i < n)
    (x : BitVec 32) :
    write32 (fill32 m a f n) (a + 4 * i) x = fill32 m a (Function.update f i x) n := by
  funext p
  by_cases h : a + 4 * i ≤ p ∧ p < a + 4 * i + 4
  · rw [write32, if_pos h, fill32, if_pos (by omega), show (p - a) / 4 = i from by omega,
      Function.update_self, show (p - a) % 4 = p - (a + 4 * i) from by omega]
  · rw [write32_other _ _ (by omega)]
    by_cases hp : a ≤ p ∧ p < a + 4 * n
    · rw [fill32, fill32, if_pos hp, if_pos hp, Function.update_of_ne (by omega)]
    · rw [fill32_other m f (by omega), fill32_other m _ (by omega)]

theorem fill32_congr (m : ByteMem) (a : Nat) {f g : Nat → BitVec 32} {n : Nat}
    (h : ∀ i, i < n → f i = g i) : fill32 m a f n = fill32 m a g n := by
  funext p
  by_cases hp : a ≤ p ∧ p < a + 4 * n
  · rw [fill32, fill32, if_pos hp, if_pos hp, h _ (by omega)]
  · rw [fill32_other m f (by omega), fill32_other m g (by omega)]

theorem fill32_eq_zeros (m : ByteMem) (a n : Nat) :
    fill32 m a (fun _ => 0) n = zeros m a (4 * n) := by
  funext p
  rw [fill32, zeros]
  simp [byteOf]

end ByteMem

end Lib
