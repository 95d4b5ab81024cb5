import Mathlib.Data.Nat.Digits.Defs
import Mathlib.Tactic.Ring
import Kfs.Klib

/-!
# The numerals of `parse_u32`

`Numeral` is the grammar: digits of radix 16 behind `0x` or `0X`, or else digits of radix 10, and
the number that they stand for.  `parseDigits_eq_some` follows the loop over the digits.  A prefix
of a numeral stands for no more than the whole, so the loop runs over exactly when the whole number
does not fit, and `parse_accepts_numerals` puts this together with the text around the digits.
-/

namespace Kfs.Klib

/-! ## Digits -/

def IsDecimal (c : Char) : Prop := '0' ≤ c ∧ c ≤ '9'

def IsHex (c : Char) : Prop := IsDecimal c ∨ 'a' ≤ c ∧ c ≤ 'f' ∨ 'A' ≤ c ∧ c ≤ 'F'

instance (c : Char) : Decidable (IsDecimal c) := inferInstanceAs (Decidable (_ ∧ _))
instance (c : Char) : Decidable (IsHex c) := inferInstanceAs (Decidable (_ ∨ _))

/-- The value of a digit. -/
def digitVal (c : Char) : Nat :=
  if IsDecimal c then c.toNat - '0'.toNat
  else if 'a' ≤ c ∧ c ≤ 'f' then c.toNat - 'a'.toNat + 10
  else c.toNat - 'A'.toNat + 10

/-- The number that a list of digits stands for, the most significant one first. -/
def numeral (radix : Nat) (digits : List Char) : Nat :=
  Nat.ofDigits radix (digits.map digitVal).reverse

/-- The text is a numeral of the number `n`. -/
def Numeral (text : List Char) (n : Nat) : Prop :=
  (∃ digits, (text = '0' :: 'x' :: digits ∨ text = '0' :: 'X' :: digits) ∧ digits ≠ [] ∧
    (∀ c ∈ digits, IsHex c) ∧ n = numeral 16 digits) ∨
  ((¬∃ digits, text = '0' :: 'x' :: digits ∨ text = '0' :: 'X' :: digits) ∧ text ≠ [] ∧
    (∀ c ∈ text, IsDecimal c) ∧ n = numeral 10 text)

/-- The loop of `parse_u32` without a bound. -/
def scan (radix : Nat) (digits : List Char) (n : Nat) : Nat :=
  digits.foldl (fun n c => n * radix + digitVal c) n

theorem scan_eq (radix : Nat) (digits : List Char) : ∀ n,
    scan radix digits n = n * radix ^ digits.length + numeral radix digits := by
  induction digits with
  | nil =>
    intro n
    simp [scan, numeral]
  | cons c digits ih =>
    intro n
    have h := ih (n * radix + digitVal c)
    simp only [scan, numeral, List.foldl_cons, List.map_cons, List.reverse_cons,
      Nat.ofDigits_append, List.length_reverse, List.length_map, List.length_cons,
      Nat.ofDigits_singleton] at h ⊢
    rw [h]
    ring

theorem scan_zero (radix : Nat) (digits : List Char) :
    scan radix digits 0 = numeral radix digits := by
  rw [scan_eq, Nat.zero_mul, Nat.zero_add]

theorem numeral_append (radix : Nat) (s : List Char) (c : Char) :
    numeral radix (s ++ [c]) = radix * numeral radix s + digitVal c := by
  rw [← scan_zero, ← scan_zero, scan, scan, List.foldl_append, List.foldl_cons, List.foldl_nil,
    Nat.mul_comm]

/-- What has been read stands for no more than the whole. -/
theorem le_scan {radix : Nat} (hr : 0 < radix) (digits : List Char) (n : Nat) :
    n ≤ scan radix digits n := by
  rw [scan_eq]
  have := Nat.le_mul_of_pos_right n (Nat.pow_pos (n := digits.length) hr)
  omega

/-! ## Bytes -/

/-- A character below 0x80 is one byte, and the others begin with a byte from 0x80 up. -/
theorem bytes_cons (c : Char) (text : List Char) :
    (c.toNat < 0x80 ∧ bytes (c :: text) = BitVec.ofNat 8 c.toNat :: bytes text) ∨
    (0x80 ≤ c.toNat ∧ ∃ b rest, bytes (c :: text) = b :: rest ∧ 0x80 ≤ b.toNat) := by
  have hval : c.val.toNat = c.toNat := rfl
  simp only [bytes, List.flatMap_cons, String.utf8EncodeChar, hval]
  by_cases h7 : c.toNat ≤ 127
  · refine Or.inl ⟨by omega, ?_⟩
    rw [if_pos h7]
    rfl
  · refine Or.inr ⟨by omega, ?_⟩
    rw [if_neg h7]
    split
    · exact ⟨_, _, rfl, by simp; omega⟩
    · split
      · exact ⟨_, _, rfl, by simp; omega⟩
      · exact ⟨_, _, rfl, by simp; omega⟩

theorem isDecimal_iff {c : Char} : IsDecimal c ↔ 0x30 ≤ c.toNat ∧ c.toNat ≤ 0x39 := Iff.rfl

theorem isHex_iff {c : Char} : IsHex c ↔ (0x30 ≤ c.toNat ∧ c.toNat ≤ 0x39) ∨
    (0x61 ≤ c.toNat ∧ c.toNat ≤ 0x66) ∨ (0x41 ≤ c.toNat ∧ c.toNat ≤ 0x46) := Iff.rfl

theorem digitVal_eq (c : Char) : digitVal c =
    if 0x30 ≤ c.toNat ∧ c.toNat ≤ 0x39 then c.toNat - 0x30
    else if 0x61 ≤ c.toNat ∧ c.toNat ≤ 0x66 then c.toNat - 0x61 + 10
    else c.toNat - 0x41 + 10 := rfl

/-- The digits below ten are the decimal ones. -/
theorem digitVal_lt_ten_iff (c : Char) : digitVal c < 10 ↔ IsDecimal c := by
  rw [isDecimal_iff, digitVal_eq]
  split
  · omega
  · split <;> omega

theorem digitVal_lt {c : Char} (h : IsHex c) : digitVal c < 16 := by
  rw [isHex_iff] at h
  rw [digitVal_eq]
  split
  · omega
  · split <;> omega

/-- The `match` of the source knows the hexadecimal digits and no other byte. -/
theorem digitOf_char {c : Char} (h : c.toNat < 0x80) :
    digitOf (BitVec.ofNat 8 c.toNat)
      = if IsHex c then some (BitVec.ofNat 32 (digitVal c)) else none := by
  rw [digitVal_eq, digitOf]
  simp only [isHex_iff]
  generalize c.toNat = n at h
  by_cases h1 : 0x30 ≤ n ∧ n ≤ 0x39
  · rw [if_pos (by bv_omega), if_pos (Or.inl h1), if_pos h1]
    congr 1
    bv_omega
  · rw [if_neg (by bv_omega), if_neg h1]
    by_cases h2 : 0x61 ≤ n ∧ n ≤ 0x66
    · rw [if_pos (by bv_omega), if_pos (Or.inr (Or.inl h2)), if_pos h2]
      congr 1
      bv_omega
    · rw [if_neg (by bv_omega), if_neg h2]
      by_cases h3 : 0x41 ≤ n ∧ n ≤ 0x46
      · rw [if_pos (by bv_omega), if_pos (Or.inr (Or.inr h3))]
        congr 1
        bv_omega
      · rw [if_neg (by bv_omega), if_neg (by omega)]

theorem digitOf_high {b : U8} (h : 0x80 ≤ b.toNat) : digitOf b = none := by
  unfold digitOf
  rw [if_neg (by bv_omega), if_neg (by bv_omega), if_neg (by bv_omega)]

/-! ## The loop -/

/-- One digit more, if the result fits. -/
theorem checked_digit (value radix digit : U32) :
    ((checkedMul value radix).bind fun shifted => checkedAdd shifted digit)
      = if value.toNat * radix.toNat + digit.toNat < 2 ^ 32
        then some (BitVec.ofNat 32 (value.toNat * radix.toNat + digit.toNat)) else none := by
  unfold checkedMul
  by_cases hmul : value.toNat * radix.toNat < 2 ^ 32
  · have hshift : (value * radix).toNat = value.toNat * radix.toNat := by
      rw [BitVec.toNat_mul, Nat.mod_eq_of_lt hmul]
    rw [if_pos hmul]
    simp only [Option.bind_some, checkedAdd, hshift]
    split
    · congr 1
      apply BitVec.eq_of_toNat_eq
      rw [BitVec.toNat_add, hshift, BitVec.toNat_ofNat]
    · rfl
  · rw [if_neg hmul, if_neg (by omega)]
    rfl

/-- The character is a digit of the radix. -/
def IsDigit (radix : Nat) (c : Char) : Prop := IsHex c ∧ digitVal c < radix

instance (radix : Nat) (c : Char) : Decidable (IsDigit radix c) :=
  inferInstanceAs (Decidable (_ ∧ _))

theorem isDigit_ten (c : Char) : IsDigit 10 c ↔ IsDecimal c := by
  rw [IsDigit, digitVal_lt_ten_iff]
  exact ⟨fun h => h.2, fun h => ⟨Or.inl h, h⟩⟩

theorem isDigit_sixteen (c : Char) : IsDigit 16 c ↔ IsHex c :=
  ⟨fun h => h.1, fun h => ⟨h, digitVal_lt h⟩⟩

/-- One pass of the loop over a character. -/
theorem parseDigits_cons (radix : U32) (c : Char) (digits : List Char) (value : U32) :
    parseDigits radix (bytes (c :: digits)) value
      = if IsDigit radix.toNat c ∧ value.toNat * radix.toNat + digitVal c < 2 ^ 32 then
          parseDigits radix (bytes digits)
            (BitVec.ofNat 32 (value.toNat * radix.toNat + digitVal c))
        else none := by
  rcases bytes_cons c digits with ⟨hlow, hbytes⟩ | ⟨hhigh, b, rest, hbytes, hb⟩
  · rw [hbytes, parseDigits, digitOf_char hlow]
    by_cases hhex : IsHex c
    · have hval : (BitVec.ofNat 32 (digitVal c)).toNat = digitVal c := by
        have := digitVal_lt hhex
        rw [BitVec.toNat_ofNat]
        omega
      have hdigit : BitVec.ofNat 32 (digitVal c) ≥ radix ↔ ¬digitVal c < radix.toNat := by
        rw [ge_iff_le, BitVec.le_def, hval]
        omega
      simp only [if_pos hhex, Option.bind_eq_bind, Option.bind_some, hdigit]
      rw [← Option.bind_assoc, checked_digit, hval]
      by_cases hlt : digitVal c < radix.toNat
      · rw [if_neg (not_not.mpr hlt)]
        by_cases hfit : value.toNat * radix.toNat + digitVal c < 2 ^ 32
        · rw [if_pos hfit, if_pos ⟨⟨hhex, hlt⟩, hfit⟩, Option.bind_some]
        · rw [if_neg hfit, if_neg fun h => hfit h.2, Option.bind_none]
      · rw [if_pos hlt, if_neg fun h => hlt h.1.2]
    · rw [if_neg hhex, if_neg fun h => hhex h.1.1]
      rfl
  · rw [hbytes, parseDigits, digitOf_high hb, if_neg]
    · rfl
    · rintro ⟨⟨hhex, _⟩, _⟩
      rw [isHex_iff] at hhex
      omega

/-- The loop accepts digits of its radix whose number fits. -/
theorem parseDigits_eq_some {radix : U32} (hr : 0 < radix.toNat) (digits : List Char) :
    ∀ {value v : U32}, parseDigits radix (bytes digits) value = some v ↔
      (∀ c ∈ digits, IsDigit radix.toNat c) ∧ v.toNat = scan radix.toNat digits value.toNat := by
  induction digits with
  | nil =>
    intro value v
    simp only [bytes, List.flatMap_nil, parseDigits, Option.some.injEq, scan, List.foldl_nil]
    constructor
    · rintro rfl
      exact ⟨fun _ hc => absurd hc List.not_mem_nil, rfl⟩
    · exact fun h => BitVec.eq_of_toNat_eq h.2.symm
  | cons c digits ih =>
    intro value v
    rw [parseDigits_cons]
    have hscan : scan radix.toNat (c :: digits) value.toNat
        = scan radix.toNat digits (value.toNat * radix.toNat + digitVal c) := rfl
    have hle := le_scan hr digits (value.toNat * radix.toNat + digitVal c)
    rw [hscan, List.forall_mem_cons]
    split
    · rename_i h
      have hnext : (BitVec.ofNat 32 (value.toNat * radix.toNat + digitVal c)).toNat
          = value.toNat * radix.toNat + digitVal c := by
        rw [BitVec.toNat_ofNat, Nat.mod_eq_of_lt h.2]
      rw [ih, hnext]
      exact ⟨fun hs => ⟨⟨h.1, hs.1⟩, hs.2⟩, fun hs => ⟨hs.1.2, hs.2⟩⟩
    · rename_i h
      constructor
      · intro hs
        cases hs
      · -- the number does not fit already, and it does not get smaller
        rintro ⟨⟨hc, _⟩, hv⟩
        have := v.isLt
        exact absurd ⟨hc, by omega⟩ h

/-! ## The text -/

/-- `trim` takes white space away at both ends, and all of it. -/
theorem trim_spec (text : List Char) : ∃ before after, text = before ++ trim text ++ after ∧
    (∀ c ∈ before, isWhitespace c = true) ∧ (∀ c ∈ after, isWhitespace c = true) ∧
    (∀ c, (trim text).head? = some c → isWhitespace c = false) ∧
    ∀ c, (trim text).getLast? = some c → isWhitespace c = false := by
  have hhead : ∀ (l : List Char) c, (l.dropWhile isWhitespace).head? = some c →
      isWhitespace c = false := by
    intro l c hc
    have := List.head?_dropWhile_not isWhitespace l
    rw [hc] at this
    exact this
  have hwhite : ∀ (l : List Char), ∀ c ∈ l.takeWhile isWhitespace, isWhitespace c = true :=
    fun l c hc => List.all_eq_true.mp List.all_takeWhile c hc
  have hright : text.dropWhile isWhitespace
      = trim text ++ ((text.dropWhile isWhitespace).reverse.takeWhile isWhitespace).reverse := by
    rw [trim, ← List.reverse_append, List.takeWhile_append_dropWhile, List.reverse_reverse]
  refine ⟨text.takeWhile isWhitespace,
    ((text.dropWhile isWhitespace).reverse.takeWhile isWhitespace).reverse, ?_, hwhite text,
    ?_, ?_, ?_⟩
  · rw [List.append_assoc, ← hright, List.takeWhile_append_dropWhile]
  · intro c hc
    exact hwhite _ c (List.mem_reverse.mp hc)
  · intro c hc
    apply hhead text c
    rw [hright, List.head?_append, hc]
    rfl
  · intro c hc
    rw [trim, List.getLast?_reverse] at hc
    exact hhead _ c hc

theorem dropPrefix_eq_some_iff {text : List Char} {a b : Char} {rest : List Char} :
    text.dropPrefix? [a, b] = some rest ↔ text = a :: b :: rest := by
  rw [List.dropPrefix?_eq_some_iff]
  constructor
  · rintro ⟨p, rfl, hp⟩
    rw [beq_iff_eq.mp hp]
    rfl
  · rintro rfl
    exact ⟨[a, b], rfl, by simp⟩

theorem splitRadix_spec (text : List Char) :
    (∃ digits, (text = '0' :: 'x' :: digits ∨ text = '0' :: 'X' :: digits) ∧
      splitRadix text = (digits, 16)) ∨
    (¬∃ digits, text = '0' :: 'x' :: digits ∨ text = '0' :: 'X' :: digits) ∧
      splitRadix text = (text, 10) := by
  unfold splitRadix
  cases hx : text.dropPrefix? ['0', 'x'] with
  | some digits => exact Or.inl ⟨digits, Or.inl (dropPrefix_eq_some_iff.mp hx), rfl⟩
  | none =>
    rw [Option.none_or]
    cases hX : text.dropPrefix? ['0', 'X'] with
    | some digits => exact Or.inl ⟨digits, Or.inr (dropPrefix_eq_some_iff.mp hX), rfl⟩
    | none =>
      refine Or.inr ⟨?_, rfl⟩
      rintro ⟨digits, h | h⟩
      · rw [dropPrefix_eq_some_iff.mpr h] at hx
        cases hx
      · rw [dropPrefix_eq_some_iff.mpr h] at hX
        cases hX

/-- What is left of the text must be digits, one at least, and their number must fit. -/
theorem parseDigits_iff {radix v : U32} (hr : 0 < radix.toNat) {digits : List Char} :
    (if digits = [] then none else parseDigits radix (bytes digits) 0) = some v ↔
      digits ≠ [] ∧ (∀ c ∈ digits, IsDigit radix.toNat c) ∧
        v.toNat = numeral radix.toNat digits := by
  by_cases hd : digits = []
  · simp [hd]
  · rw [if_neg hd, parseDigits_eq_some hr, show (0 : U32).toNat = 0 from rfl, scan_zero]
    exact (and_iff_right hd).symm

theorem parseU32_iff (text : List Char) (v : U32) :
    parseU32 text = some v ↔ Numeral (trim text) v.toNat := by
  unfold parseU32 Numeral
  rcases splitRadix_spec (trim text) with ⟨digits, htext, hsplit⟩ | ⟨hno, hsplit⟩
  · simp only [hsplit]
    rw [parseDigits_iff (by decide)]
    simp only [show (16 : U32).toNat = 16 from rfl, isDigit_sixteen]
    constructor
    · exact fun h => Or.inl ⟨digits, htext, h⟩
    · rintro (⟨digits', htext', h⟩ | ⟨hno, _⟩)
      · have hdrop : ∀ {l}, trim text = '0' :: 'x' :: l ∨ trim text = '0' :: 'X' :: l →
            (trim text).drop 2 = l := by
          rintro l (h | h) <;> rw [h] <;> rfl
        rwa [← hdrop htext', hdrop htext] at h
      · exact absurd ⟨digits, htext⟩ hno
  · simp only [hsplit]
    rw [parseDigits_iff (by decide)]
    simp only [show (10 : U32).toNat = 10 from rfl, isDigit_ten]
    constructor
    · exact fun h => Or.inr ⟨hno, h⟩
    · rintro (⟨digits, htext, _⟩ | ⟨_, h⟩)
      · exact absurd ⟨digits, htext⟩ hno
      · exact h

/-- `parse_u32` accepts exactly the numerals, without the white space around them, of the numbers
that fit in 32 bits, and returns the number. -/
theorem parse_accepts_numerals (text : List Char) :
    (∀ v : U32, parseU32 text = some v ↔ Numeral (trim text) v.toNat) ∧
    (parseU32 text = none ↔ ¬∃ n, n < 2 ^ 32 ∧ Numeral (trim text) n) ∧
    ∃ before after, text = before ++ trim text ++ after ∧
      (∀ c ∈ before, isWhitespace c = true) ∧ (∀ c ∈ after, isWhitespace c = true) ∧
      (∀ c, (trim text).head? = some c → isWhitespace c = false) ∧
      ∀ c, (trim text).getLast? = some c → isWhitespace c = false := by
  refine ⟨parseU32_iff text, ?_, trim_spec text⟩
  rw [Option.eq_none_iff_forall_ne_some]
  constructor
  · rintro h ⟨n, hn, hnum⟩
    apply h (BitVec.ofNat 32 n)
    rwa [parseU32_iff, BitVec.toNat_ofNat, Nat.mod_eq_of_lt hn]
  · intro h v hv
    exact h ⟨v.toNat, v.isLt, (parseU32_iff text v).mp hv⟩

end Kfs.Klib
