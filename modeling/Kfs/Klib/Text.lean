import Kfs.Klib.Digits
import Kfs.Lib.Words
import Kfs.Panic

/-!
# Reading a line of the screen

`tokens` is what a reader takes from a printed line: its words, where one of digits, or of
hexadecimal digits after `0x`, is a number.  A line is made of fixed texts, which begin and end with
a character that belongs to no word, and of numbers between them.  `tokens_gap` takes it apart
there, and `tokens_hex` and `tokens_toString` say that a number is read as the number it was printed
for.
-/

namespace Kfs.Klib

open Lib

inductive Token where
  | number (n : Nat)
  | word (text : String)
  deriving DecidableEq, Repr

/-- Words are made of letters and digits. -/
def separates (c : Char) : Bool :=
  !decide (0x30 ≤ c.toNat ∧ c.toNat ≤ 0x39 ∨ 0x41 ≤ c.toNat ∧ c.toNat ≤ 0x5A ∨
    0x61 ≤ c.toNat ∧ c.toNat ≤ 0x7A)

/-- The number that a word stands for. -/
def number (word : List Char) : Option Nat :=
  match word with
  | '0' :: 'x' :: digits => readDigits 16 digits
  | digits => readDigits 10 digits

def token (word : List Char) : Token :=
  (number word).elim (.word (String.ofList word)) .number

def tokens (line : String) : List Token := (words separates line.toList).map token

/-! ## Taking a line apart -/

/-- The text begins and ends between words. -/
def Gap (text : String) : Prop := isGap separates text.toList = true

instance (text : String) : Decidable (Gap text) := inferInstanceAs (Decidable (_ = _))

variable {gap : String}

theorem tokens_gap (h : Gap gap) (s t : String) :
    tokens (s ++ gap ++ t) = tokens s ++ tokens gap ++ tokens t := by
  rw [tokens, String.toList_append, String.toList_append, words_gap h, List.map_append,
    List.map_append]
  rfl

theorem tokens_append_gap (h : Gap gap) (s : String) :
    tokens (s ++ gap) = tokens s ++ tokens gap := by
  rw [tokens, String.toList_append, words_append_gap h, List.map_append]
  rfl

/-- The text ends between words. -/
def Front (text : String) : Prop := text.toList.getLast?.any separates = true

instance (text : String) : Decidable (Front text) := inferInstanceAs (Decidable (_ = _))

theorem tokens_front {front : String} (h : Front front) (t : String) :
    tokens (front ++ t) = tokens front ++ tokens t := by
  rw [tokens, String.toList_append, words_front h, List.map_append]
  rfl

/-! ## Numbers -/

theorem separates_digit {radix : Nat} {c : Char} (h : IsDigit radix c) : separates c = false := by
  have hhex := h.1
  rw [isHex_iff] at hhex
  simp only [separates, Bool.not_eq_false', decide_eq_true_eq]
  omega

/-- A numeral that stands alone. -/
theorem tokens_numeral {s : String} {n : Nat} (hs : ∀ c ∈ s.toList, separates c = false)
    (hne : s.toList ≠ []) (hnum : number s.toList = some n) : tokens s = [.number n] := by
  rw [tokens, words_word hs hne, List.map_singleton, token, hnum]
  rfl

theorem tokens_hex (x : U32) : tokens (hex x) = [.number x.toNat] := by
  have hdigits := isDigit_padded (show 1 < 16 by decide) (by decide)
    (8 - (Nat.toDigits 16 x.toNat).length) x.toNat
  have hread := readDigits_padded (show 1 < 16 by decide) (by decide)
    (8 - (Nat.toDigits 16 x.toNat).length) x.toNat
  have htext : (hex x).toList = '0' :: 'x' ::
      (List.replicate (8 - (Nat.toDigits 16 x.toNat).length) '0' ++ Nat.toDigits 16 x.toNat) := by
    rw [hex, String.toList_append, String.toList_ofList, String.toList_ofList]
    rfl
  refine tokens_numeral (fun c hc => ?_) (by rw [htext]; exact List.cons_ne_nil _ _) ?_
  · rw [htext] at hc
    rcases List.mem_cons.mp hc with rfl | hc
    · decide
    · rcases List.mem_cons.mp hc with rfl | hc
      · decide
      · exact separates_digit (hdigits c hc)
  · rw [htext]
    exact hread

theorem tokens_toString (n : Nat) : tokens (toString n) = [.number n] := by
  have hdigits := isDigit_padded (show 1 < 10 by decide) (by decide) 0 n
  have hread := readDigits_padded (show 1 < 10 by decide) (by decide) 0 n
  have hne := padded_ne_nil 10 0 n
  rw [List.replicate_zero, List.nil_append] at hdigits hread hne
  have htext : (toString n).toList = Nat.toDigits 10 n := by simp
  refine tokens_numeral (fun c hc => ?_) (by rwa [htext]) ?_
  · rw [htext] at hc
    exact separates_digit (hdigits c hc)
  · rw [htext]
    unfold number
    split
    · -- no decimal digit is an `x`
      rename_i digits heq
      exact absurd (hdigits 'x' (by rw [heq]; simp)) (by decide)
    · exact hread

example : tokens "  0 bytes used, 0x00000ff8 free" =
    [.number 0, .word "bytes", .word "used", .number 0xFF8, .word "free"] := by decide

end Kfs.Klib
