import Kfs.Klib.Parse

/-!
# `utoa` and `parse_u32` undo each other

`Canonical` is the decimal numeral of a number without a superfluous zero in front.

* `Canonical.unique` says that a number has no two of them.
* `utoaFrom_run` follows the loop of `utoa`, which writes the digits from the last one on.  A number
  below `10 ^ i` has at most `i` digits, so the loop ends before it runs out of the buffer.
* `parseU32_decimal` is what `parse_u32` does on decimal digits.
-/

namespace Kfs.Klib

/-- The text is the decimal numeral of `n`, and begins with a zero only if that is all of it. -/
structure Canonical (text : List Char) (n : Nat) : Prop where
  ne_nil : text ≠ []
  decimal : ∀ c ∈ text, IsDecimal c
  value : numeral 10 text = n
  lead : text.head? = some '0' → text = ['0']

/-! ## Digits -/

/-- The digit of a number below ten. -/
def digitChar (d : Nat) : Char := Char.ofNat (0x30 + d)

theorem toNat_digitChar {d : Nat} (h : d < 10) : (digitChar d).toNat = 0x30 + d := by
  have hvalid : (0x30 + d).isValidChar := Or.inl (by omega)
  rw [digitChar, Char.ofNat, dif_pos hvalid]
  rfl

theorem isDecimal_digitChar {d : Nat} (h : d < 10) : IsDecimal (digitChar d) := by
  rw [isDecimal_iff, toNat_digitChar h]
  omega

theorem digitVal_digitChar {d : Nat} (h : d < 10) : digitVal (digitChar d) = d := by
  rw [digitVal_eq, toNat_digitChar h, if_pos (by omega)]
  omega

theorem digitChar_digitVal {c : Char} (h : IsDecimal c) : digitChar (digitVal c) = c := by
  have hval : digitVal c = c.toNat - 0x30 := by rw [digitVal_eq, if_pos (isDecimal_iff.mp h)]
  rw [isDecimal_iff] at h
  apply Char.toNat_inj.mp
  rw [hval, toNat_digitChar (by omega)]
  omega

theorem digitVal_eq_zero {c : Char} (h : IsDecimal c) (hz : digitVal c = 0) : c = '0' := by
  rw [← digitChar_digitVal h, hz]
  rfl

theorem bytes_append (s t : List Char) : bytes (s ++ t) = bytes s ++ bytes t :=
  List.flatMap_append

theorem bytes_digitChar {d : Nat} (h : d < 10) :
    bytes [digitChar d] = [BitVec.ofNat 8 (0x30 + d)] := by
  have hd := toNat_digitChar h
  rcases bytes_cons (digitChar d) [] with ⟨_, hb⟩ | ⟨hge, _⟩
  · rw [hb, hd]
    rfl
  · omega

theorem not_isWhitespace {c : Char} (h : IsDecimal c) : isWhitespace c = false := by
  rw [isDecimal_iff] at h
  unfold isWhitespace
  simp
  omega

/-! ## The numeral of a number -/

namespace Canonical

variable {s t : List Char} {n : Nat}

theorem digit {d : Nat} (h : d < 10) : Canonical [digitChar d] d where
  ne_nil := List.cons_ne_nil _ _
  decimal := by
    intro c hc
    rw [List.mem_singleton.mp hc]
    exact isDecimal_digitChar h
  value := by
    rw [← List.nil_append [digitChar d], numeral_append, digitVal_digitChar h]
    exact Nat.zero_add d
  lead := by
    intro hhead
    rw [List.head?_cons, Option.some.injEq] at hhead
    rw [hhead]

/-- One more digit behind the numeral of a number that is not zero. -/
theorem snoc (h : Canonical s n) (hn : n ≠ 0) {d : Nat} (hd : d < 10) :
    Canonical (s ++ [digitChar d]) (10 * n + d) where
  ne_nil := by simp
  decimal := by
    intro c hc
    rcases List.mem_append.mp hc with hc | hc
    · exact h.decimal c hc
    · rw [List.mem_singleton.mp hc]
      exact isDecimal_digitChar hd
  value := by rw [numeral_append, h.value, digitVal_digitChar hd]
  lead := by
    intro hhead
    rw [List.head?_append_of_ne_nil _ h.ne_nil] at hhead
    -- a numeral that begins with a zero is the one of zero
    have hzero := h.value
    rw [h.lead hhead] at hzero
    exact absurd hzero.symm hn

/-- The digits of the numeral, the last one first. -/
theorem digits (h : Canonical s n) (hn : n ≠ 0) : (s.map digitVal).reverse = Nat.digits 10 n := by
  have hlt : ∀ d ∈ (s.map digitVal).reverse, d < 10 := by
    intro d hd
    obtain ⟨c, hc, rfl⟩ := List.mem_map.mp (List.mem_reverse.mp hd)
    exact (digitVal_lt_ten_iff c).mpr (h.decimal c hc)
  obtain ⟨c, s', rfl⟩ := List.exists_cons_of_ne_nil h.ne_nil
  have hlast : ∀ hne : ((c :: s').map digitVal).reverse ≠ [],
      ((c :: s').map digitVal).reverse.getLast hne ≠ 0 := by
    intro hne hzero
    rw [List.getLast_reverse, List.head_map, List.head_cons] at hzero
    have hc := digitVal_eq_zero (h.decimal c List.mem_cons_self) hzero
    have hval := h.value
    rw [h.lead (by rw [hc]; rfl)] at hval
    exact hn hval.symm
  rw [← h.value]
  exact (Nat.digits_ofDigits 10 (by decide) _ hlt hlast).symm

theorem zero (h : Canonical s 0) : s = ['0'] := by
  apply h.lead
  obtain ⟨c, s', rfl⟩ := List.exists_cons_of_ne_nil h.ne_nil
  have hval := h.value
  rw [← scan_zero, scan, List.foldl_cons, Nat.zero_mul, Nat.zero_add] at hval
  have hle : digitVal c ≤ scan 10 s' (digitVal c) := le_scan (by decide) s' (digitVal c)
  rw [scan] at hle
  rw [List.head?_cons, digitVal_eq_zero (h.decimal c List.mem_cons_self) (by omega)]

theorem map_digitChar (h : Canonical s n) : (s.map digitVal).map digitChar = s := by
  rw [List.map_map]
  conv_rhs => rw [← List.map_id s]
  exact List.map_congr_left fun c hc => digitChar_digitVal (h.decimal c hc)

/-- A number has one numeral. -/
theorem unique (hs : Canonical s n) (ht : Canonical t n) : s = t := by
  by_cases hn : n = 0
  · subst hn
    rw [hs.zero, ht.zero]
  · have hmap : s.map digitVal = t.map digitVal := by
      rw [← List.reverse_inj, hs.digits hn, ht.digits hn]
    rw [← hs.map_digitChar, hmap, ht.map_digitChar]

end Canonical

/-! ## Decimal digits as the text of `parse_u32` -/

/-- No digit is white space. -/
theorem trim_decimal {s : List Char} (h : ∀ c ∈ s, IsDecimal c) : trim s = s := by
  have hdrop : ∀ l : List Char, (∀ c ∈ l, IsDecimal c) → l.dropWhile isWhitespace = l := by
    intro l hl
    cases l with
    | nil => rfl
    | cons c l =>
      have hc := not_isWhitespace (hl c List.mem_cons_self)
      exact List.dropWhile_cons_of_neg (by simp [hc])
  rw [trim, hdrop s h, hdrop s.reverse fun c hc => h c (List.mem_reverse.mp hc),
    List.reverse_reverse]

/-- On decimal digits `parse_u32` returns the number, if there is any digit and the number fits. -/
theorem parseU32_decimal {s : List Char} (h : ∀ c ∈ s, IsDecimal c) {v : U32} :
    parseU32 s = some v ↔ s ≠ [] ∧ numeral 10 s = v.toNat := by
  have hno : ¬∃ digits, s = '0' :: 'x' :: digits ∨ s = '0' :: 'X' :: digits := by
    rintro ⟨digits, hd | hd⟩
    · exact absurd (h 'x' (by simp [hd])) (by decide)
    · exact absurd (h 'X' (by simp [hd])) (by decide)
  rw [parseU32_iff, trim_decimal h]
  constructor
  · rintro (⟨digits, hd, _⟩ | ⟨_, hne, _, hval⟩)
    · exact absurd ⟨digits, hd⟩ hno
    · exact ⟨hne, hval.symm⟩
  · rintro ⟨hne, hval⟩
    exact Or.inr ⟨hno, hne, h, hval.symm⟩

/-! ## The loop of `utoa` -/

/-- The text that the loop writes below index `i`, for a number of at most `i` digits.  The bytes
from `i` on stay. -/
theorem utoaFrom_run (i : Nat) : ∀ (n : U32) (buf : Nat → U8), 0 < i → n.toNat < 10 ^ i →
    ∃ j buf' text, utoaFrom i n buf = some (j, buf') ∧ j ≤ i ∧
      (List.range' j (i - j)).map buf' = bytes text ∧ (∀ k, i ≤ k → buf' k = buf k) ∧
      Canonical text n.toNat := by
  induction i with
  | zero =>
    intro n buf hi _
    exact absurd hi (Nat.lt_irrefl 0)
  | succ i ih =>
    intro n buf _ hn
    have hdigit : (0x30 + (n % 10).setWidth 8 : U8) = BitVec.ofNat 8 (0x30 + n.toNat % 10) := by
      apply BitVec.eq_of_toNat_eq
      rw [BitVec.toNat_add, BitVec.toNat_setWidth, BitVec.toNat_umod, BitVec.toNat_ofNat,
        show (10 : U32).toNat = 10 from rfl, show (0x30 : U8).toNat = 0x30 from rfl]
      omega
    have hmod : n.toNat % 10 < 10 := Nat.mod_lt _ (by decide)
    have hdiv : (n / 10).toNat = n.toNat / 10 := BitVec.toNat_udiv
    rw [utoaFrom, hdigit]
    by_cases hlast : n / 10 = 0
    · -- the first digit of the text
      have hlt : n.toNat / 10 = 0 := by rw [← hdiv, hlast]; rfl
      refine ⟨i, _, [digitChar (n.toNat % 10)], if_pos hlast, Nat.le_succ i, ?_, fun k hk => ?_, ?_⟩
      · rw [Nat.add_sub_cancel_left, List.range'_one, List.map_singleton, Function.update_self,
          bytes_digitChar hmod]
      · exact Function.update_of_ne (by omega) _ _
      · have hdig := Canonical.digit hmod
        rwa [show n.toNat % 10 = n.toNat from by omega] at hdig ⊢
    · have hne : n.toNat / 10 ≠ 0 := by
        intro hz
        exact hlast (BitVec.eq_of_toNat_eq (hdiv.trans hz))
      have hbound : n.toNat / 10 < 10 ^ i := by
        rw [Nat.div_lt_iff_lt_mul (by decide), ← Nat.pow_succ]
        exact hn
      have hpos : 0 < i := by
        rcases Nat.eq_zero_or_pos i with rfl | hpos
        · omega
        · exact hpos
      obtain ⟨j, buf', text, hrun, hj, hslice, hkeep, htext⟩ :=
        ih (n / 10) (Function.update buf i (BitVec.ofNat 8 (0x30 + n.toNat % 10))) hpos
          (by rw [hdiv]; exact hbound)
      rw [hdiv] at htext
      refine ⟨j, buf', text ++ [digitChar (n.toNat % 10)], (if_neg hlast).trans hrun, by omega, ?_,
        fun k hk => ?_, ?_⟩
      · rw [show i + 1 - j = (i - j) + 1 from by omega, List.range'_concat, List.map_append, hslice,
          bytes_append, bytes_digitChar hmod, List.map_singleton, Nat.one_mul,
          show j + (i - j) = i from by omega, hkeep i (Nat.le_refl i), Function.update_self]
      · rw [hkeep k (by omega), Function.update_of_ne (by omega)]
      · have hnext := htext.snoc hne hmod
        rwa [Nat.div_add_mod] at hnext

theorem utoa_run (n : U32) (buf : Nat → U8) :
    ∃ text, utoa n buf = some (bytes text) ∧ Canonical text n.toNat := by
  have hlt := n.isLt
  obtain ⟨j, buf', text, hrun, _, hslice, _, htext⟩ :=
    utoaFrom_run 10 n buf (by decide) (by omega)
  refine ⟨text, ?_, htext⟩
  rw [utoa, hrun, Option.map_some]
  exact congrArg some hslice

/-- `utoa` never leaves its buffer and writes the one decimal numeral of the number, which
`parse_u32` reads back.  A numeral without a superfluous zero in front that `parse_u32` reads is
the one that `utoa` writes. -/
theorem utoa_parse_inverse :
    (∀ (n : U32) (buf : Nat → U8), ∃ text, utoa n buf = some (bytes text) ∧
      (∀ s, Canonical s n.toNat ↔ s = text) ∧ parseU32 text = some n) ∧
    ∀ (s : List Char) (n : U32), (∀ c ∈ s, IsDecimal c) → (s.head? = some '0' → s = ['0']) →
      parseU32 s = some n → ∀ buf : Nat → U8, utoa n buf = some (bytes s) := by
  constructor
  · intro n buf
    obtain ⟨text, hrun, htext⟩ := utoa_run n buf
    refine ⟨text, hrun, fun s => ⟨fun hs => hs.unique htext, ?_⟩, ?_⟩
    · rintro rfl
      exact htext
    · exact (parseU32_decimal htext.decimal).mpr ⟨htext.ne_nil, htext.value⟩
  · intro s n hdecimal hlead hparse buf
    obtain ⟨text, hrun, htext⟩ := utoa_run n buf
    obtain ⟨hne, hval⟩ := (parseU32_decimal hdecimal).mp hparse
    have hs : Canonical s n.toNat := ⟨hne, hdecimal, hval, hlead⟩
    rw [hrun, hs.unique htext]

end Kfs.Klib
