import Kfs.Klib.Parse

/-!
# Digits as the formatter prints them

`Nat.toDigits` is the text of `{}` and of `{:x}`.  `readDigits` reads the number back from it,
whatever zeros are put in front.
-/

namespace Kfs.Klib

variable {radix : Nat}

theorem digitChar_hex : ∀ d < 16, IsHex (Nat.digitChar d) ∧ digitVal (Nat.digitChar d) = d := by
  decide

theorem isDigit_natDigitChar (hr : radix ≤ 16) {d : Nat} (hd : d < radix) :
    IsDigit radix (Nat.digitChar d) := by
  obtain ⟨hhex, hval⟩ := digitChar_hex d (by omega)
  exact ⟨hhex, by rwa [hval]⟩

/-- The digits of a number, and the number they stand for. -/
theorem toDigits_spec (h1 : 1 < radix) (hr : radix ≤ 16) (n : Nat) :
    (∀ c ∈ Nat.toDigits radix n, IsDigit radix c) ∧
      numeral radix (Nat.toDigits radix n) = n := by
  induction n using Nat.strong_induction_on with
  | _ n ih =>
    by_cases hn : n < radix
    · rw [Nat.toDigits_of_lt_base hn]
      refine ⟨fun c hc => ?_, ?_⟩
      · rw [List.mem_singleton.mp hc]
        exact isDigit_natDigitChar hr hn
      · rw [← List.nil_append [Nat.digitChar n], numeral_append, (digitChar_hex n (by omega)).2]
        exact Nat.zero_add n
    · have hmod : n % radix < radix := Nat.mod_lt _ (by omega)
      obtain ⟨hdigits, hval⟩ := ih (n / radix) (Nat.div_lt_self (by omega) h1)
      rw [Nat.toDigits_of_base_le h1 (by omega)]
      refine ⟨fun c hc => ?_, ?_⟩
      · rcases List.mem_append.mp hc with hc | hc
        · exact hdigits c hc
        · rw [List.mem_singleton.mp hc]
          exact isDigit_natDigitChar hr hmod
      · rw [numeral_append, hval, (digitChar_hex _ (by omega)).2, Nat.div_add_mod]

/-- Zeros in front do not count. -/
theorem numeral_zeros (radix k : Nat) (digits : List Char) :
    numeral radix (List.replicate k '0' ++ digits) = numeral radix digits := by
  rw [← scan_zero, ← scan_zero, scan, scan, List.foldl_append]
  congr 1
  induction k with
  | zero => rfl
  | succ k ih => rwa [List.replicate_succ, List.foldl_cons, Nat.zero_mul]

/-- The number that is written in the digits of a radix. -/
def readDigits (radix : Nat) (digits : List Char) : Option Nat :=
  if digits ≠ [] ∧ digits.all (fun c => decide (IsDigit radix c)) then some (numeral radix digits)
  else none

theorem isDigit_padded (h1 : 1 < radix) (hr : radix ≤ 16) (k n : Nat) :
    ∀ c ∈ List.replicate k '0' ++ Nat.toDigits radix n, IsDigit radix c := by
  intro c hc
  rcases List.mem_append.mp hc with hc | hc
  · rw [(List.mem_replicate.mp hc).2]
    exact isDigit_natDigitChar hr (d := 0) (by omega)
  · exact (toDigits_spec h1 hr n).1 c hc

theorem padded_ne_nil (radix k n : Nat) : List.replicate k '0' ++ Nat.toDigits radix n ≠ [] := by
  have hpos := Nat.length_toDigits_pos (b := radix) (n := n)
  rw [← List.length_pos_iff, List.length_append]
  omega

theorem readDigits_padded (h1 : 1 < radix) (hr : radix ≤ 16) (k n : Nat) :
    readDigits radix (List.replicate k '0' ++ Nat.toDigits radix n) = some n := by
  have hall : (List.replicate k '0' ++ Nat.toDigits radix n).all
      (fun c => decide (IsDigit radix c)) = true :=
    List.all_eq_true.mpr fun c hc => decide_eq_true (isDigit_padded h1 hr k n c hc)
  rw [readDigits, if_pos ⟨padded_ne_nil radix k n, hall⟩, numeral_zeros, (toDigits_spec h1 hr n).2]

end Kfs.Klib
