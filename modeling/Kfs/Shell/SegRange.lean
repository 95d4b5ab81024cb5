import Mathlib.Order.Bounds.Basic
import Kfs.Lib.Word
import Kfs.Shell

/-!
# The range of a segment

What a descriptor of a code or data segment means: its base, its limit and the offsets that are
valid.  `Describes` is the answer that `seg_range` should give, the first and the last linear
address.

* `segRange_eq` reads the source in these terms.
* `seg_range_describes_iff` says for which descriptors the answer is right.  For an expand-down
  segment the source takes the last address of the address space, whatever the base and the size of
  the segment.
-/

namespace Kfs.Shell

open Lib

namespace Segment

/-- The field of `n` bits of a descriptor from bit `lo` on. -/
def bits (d : U64) (lo n : Nat) : Nat := d.toNat / 2 ^ lo % 2 ^ n

def base (d : U64) : Nat := bits d 16 24 + 2 ^ 24 * bits d 56 8

def limitField (d : U64) : Nat := bits d 0 16 + 2 ^ 16 * bits d 48 4

/-- The limit in bytes.  The granularity bit counts it in pages, the last one in full. -/
def limit (d : U64) : Nat :=
  if d.getLsbD 55 = true then 4096 * limitField d + 4095 else limitField d

/-- A data segment whose valid offsets are those above the limit. -/
def ExpandDown (d : U64) : Prop := d.getLsbD 43 = false ∧ d.getLsbD 42 = true

instance (d : U64) : Decidable (ExpandDown d) := inferInstanceAs (Decidable (_ ∧ _))

/-- The last offset of an expand-down segment, by the default-size bit. -/
def top (d : U64) : Nat := if d.getLsbD 54 = true then 0xFFFFFFFF else 0xFFFF

/-- The valid offsets. -/
def offsets (d : U64) : Set Nat :=
  if ExpandDown d then Set.Icc (limit d + 1) (top d) else Set.Icc 0 (limit d)

/-- The first and the last linear address, or that there is none. -/
def Describes (d : U64) : Option (U32 × U32) → Prop
  | none => offsets d = ∅
  | some (lo, hi) => ∃ first last, IsLeast (offsets d) first ∧ IsGreatest (offsets d) last ∧
      lo = BitVec.ofNat 32 (base d + first) ∧ hi = BitVec.ofNat 32 (base d + last)

/-! ## The fields -/

theorem base_lt (d : U64) : base d < 2 ^ 32 := by
  unfold base bits
  omega

theorem limitField_lt (d : U64) : limitField d < 2 ^ 20 := by
  unfold limitField bits
  omega

theorem limit_lt (d : U64) : limit d < 2 ^ 32 := by
  have hfield := limitField_lt d
  unfold limit
  split <;> omega

theorem toNat_bits (d : U64) (lo n : Nat) {m : U64} (hm : m.toNat = 2 ^ n - 1) :
    ((d >>> lo) &&& m).toNat = bits d lo n := by
  rw [Word.toNat_and_low _ hm, Word.toNat_shiftRight, bits]

/-- Two fields, the second shifted into its place above the first. -/
theorem toNat_join {x y : U64} {k : Nat} (hx : x.toNat < 2 ^ k)
    (hsum : x.toNat + 2 ^ k * y.toNat < 2 ^ 32) :
    ((x ||| (y <<< k)).setWidth 32).toNat = x.toNat + 2 ^ k * y.toNat := by
  have hshift : (y <<< k).toNat = 2 ^ k * y.toNat := by
    rw [BitVec.toNat_shiftLeft, Nat.shiftLeft_eq, Nat.mul_comm, Nat.mod_eq_of_lt (by omega)]
  have hor : (x ||| (y <<< k)).toNat = x.toNat + 2 ^ k * y.toNat := by
    rw [BitVec.or_comm, Word.toNat_or_of_aligned (k := k) _ hx, hshift, Nat.add_comm]
    rw [hshift, Nat.mul_mod_right]
  rw [BitVec.toNat_setWidth, hor, Nat.mod_eq_of_lt hsum]

theorem and_bit (d : U64) (i : Nat) : d &&& (1#64 <<< i) ≠ 0 ↔ d.getLsbD i = true := by
  have hbit : 1#64 <<< i = BitVec.twoPow 64 i := rfl
  have hzero := Word.and_twoPow_eq_zero d i
  rw [hbit, ne_eq, ← Bool.not_eq_false]
  exact not_congr hzero

theorem base_eq (d : U64) :
    (((d >>> 16) &&& 0xFFFFFF#64) ||| (((d >>> 56) &&& 0xFF#64) <<< 24)).setWidth 32 =
      BitVec.ofNat 32 (base d) := by
  have hlow : ((d >>> 16) &&& 0xFFFFFF#64).toNat = bits d 16 24 := toNat_bits d 16 24 rfl
  have hhigh : ((d >>> 56) &&& 0xFF#64).toNat = bits d 56 8 := toNat_bits d 56 8 rfl
  apply BitVec.eq_of_toNat_eq
  rw [toNat_join, hlow, hhigh, BitVec.toNat_ofNat, Nat.mod_eq_of_lt (base_lt d), base]
  · rw [hlow]
    exact Nat.mod_lt _ (by decide)
  · rw [hlow, hhigh]
    exact base_lt d

theorem limitField_eq (d : U64) :
    ((d &&& 0xFFFF#64) ||| (((d >>> 48) &&& 0xF#64) <<< 16)).setWidth 32 =
      BitVec.ofNat 32 (limitField d) := by
  have hlow : (d &&& 0xFFFF#64).toNat = bits d 0 16 := toNat_bits d 0 16 rfl
  have hhigh : ((d >>> 48) &&& 0xF#64).toNat = bits d 48 4 := toNat_bits d 48 4 rfl
  have hlt := limitField_lt d
  apply BitVec.eq_of_toNat_eq
  rw [toNat_join, hlow, hhigh, BitVec.toNat_ofNat, ← limitField, Nat.mod_eq_of_lt (by omega)]
  · rw [hlow]
    exact Nat.mod_lt _ (by decide)
  · rw [hlow, hhigh, ← limitField]
    omega

theorem limit_eq (d : U64) :
    (if d.getLsbD 55 = true then (BitVec.ofNat 32 (limitField d) <<< 12) ||| 0xFFF#32
      else BitVec.ofNat 32 (limitField d)) = BitVec.ofNat 32 (limit d) := by
  have hlt := limitField_lt d
  unfold limit
  split
  · have hshift : (BitVec.ofNat 32 (limitField d) <<< 12).toNat = 4096 * limitField d := by
      rw [BitVec.toNat_shiftLeft, Nat.shiftLeft_eq, BitVec.toNat_ofNat]
      omega
    have hlow : (0xFFF#32).toNat = 4095 := rfl
    apply BitVec.eq_of_toNat_eq
    rw [Word.toNat_or_of_aligned (k := 12), hshift, hlow, BitVec.toNat_ofNat,
      Nat.mod_eq_of_lt (by omega)]
    · omega
    · omega
  · rfl

/-! ## The function -/

/-- The source in terms of the base and the limit. -/
theorem segRange_eq {d : U64} (hd : d ≠ 0) :
    segRange d =
      if ExpandDown d then
        if limit d + 1 < 2 ^ 32 then
          some (BitVec.ofNat 32 (base d + (limit d + 1)), BitVec.ofNat 32 0xFFFFFFFF)
        else none
      else some (BitVec.ofNat 32 (base d), BitVec.ofNat 32 (base d + limit d)) := by
  have hlimit := limit_lt d
  simp only [segRange, hd, if_false, and_bit, base_eq, limitField_eq, limit_eq, Bool.not_eq_true,
    Klib.checkedAdd, BitVec.toNat_ofNat, Nat.mod_eq_of_lt hlimit]
  have hone : BitVec.toNat (1 : U32) = 1 := rfl
  by_cases hdown : ExpandDown d
  · have hbits : d.getLsbD 43 = false ∧ d.getLsbD 42 = true := hdown
    rw [if_pos hdown, if_pos hbits, hone]
    split
    · rw [BitVec.ofNat_add, BitVec.ofNat_add]
      rfl
    · rfl
  · have hbits : ¬(d.getLsbD 43 = false ∧ d.getLsbD 42 = true) := hdown
    rw [if_neg hdown, if_neg hbits, BitVec.ofNat_add]

theorem describes_none_iff {d : U64} {first last : Nat} (h : offsets d = Set.Icc first last) :
    Describes d none ↔ last < first := by
  rw [Describes, h, Set.Icc_eq_empty_iff, not_le]

theorem describes_some_iff {d : U64} {first last : Nat} (h : offsets d = Set.Icc first last)
    (lo hi : U32) : Describes d (some (lo, hi)) ↔
      first ≤ last ∧ lo = BitVec.ofNat 32 (base d + first) ∧
        hi = BitVec.ofNat 32 (base d + last) := by
  rw [Describes, h]
  constructor
  · rintro ⟨x, y, hx, hy, hlo, hhi⟩
    have hle : first ≤ last := hx.1.1.trans hx.1.2
    rw [hx.unique (isLeast_Icc hle)] at hlo
    rw [hy.unique (isGreatest_Icc hle)] at hhi
    exact ⟨hle, hlo, hhi⟩
  · rintro ⟨hle, hlo, hhi⟩
    exact ⟨first, last, isLeast_Icc hle, isGreatest_Icc hle, hlo, hhi⟩

/-- The last address of the address space is the last address of an expand-down segment only at
one base, which the default size selects. -/
theorem last_eq_iff (d : U64) :
    BitVec.ofNat 32 0xFFFFFFFF = BitVec.ofNat 32 (base d + top d) ↔
      base d = if d.getLsbD 54 = true then 0 else 0xFFFF0000 := by
  have hbase := base_lt d
  rw [← BitVec.toNat_inj, BitVec.toNat_ofNat, BitVec.toNat_ofNat]
  unfold top
  split <;> omega

end Segment

open Segment

/-- The answer for a code or data segment is right except for an expand-down segment, where it is
right when nothing is valid because of the largest limit, or when the segment ends with the address
space. -/
theorem seg_range_describes_iff {d : U64} (hseg : d.getLsbD 44 = true) :
    Describes d (segRange d) ↔
      (ExpandDown d →
        limit d = 0xFFFFFFFF ∨
          (d.getLsbD 54 = true ∧ base d = 0) ∨
          (d.getLsbD 54 = false ∧ limit d < 0xFFFF ∧ base d = 0xFFFF0000)) := by
  have hd : d ≠ 0 := by
    rintro rfl
    exact absurd hseg (by decide)
  have hlimit := limit_lt d
  rw [segRange_eq hd]
  by_cases hdown : ExpandDown d
  · have hoffsets : offsets d = Set.Icc (limit d + 1) (top d) := if_pos hdown
    have htop : top d = if d.getLsbD 54 = true then 0xFFFFFFFF else 0xFFFF := rfl
    rw [if_pos hdown]
    split
    · rw [describes_some_iff hoffsets, last_eq_iff, htop]
      cases d.getLsbD 54 <;> grind
    · rw [describes_none_iff hoffsets, htop]
      cases d.getLsbD 54 <;> grind
  · have hoffsets : offsets d = Set.Icc 0 (limit d) := if_neg hdown
    rw [if_neg hdown, describes_some_iff hoffsets]
    simp [hdown]

/-- A 32-bit expand-down segment at base 0. -/
theorem seg_range_describes_stack :
    (0x0040960000001000 : U64).getLsbD 44 = true ∧
      Describes 0x0040960000001000 (segRange 0x0040960000001000) :=
  ⟨by decide, (seg_range_describes_iff (by decide)).mpr fun _ => .inr (.inl (by decide))⟩

/-- A 32-bit expand-down segment at `0x100000` ends below its base, and the source prints the end of
the address space. -/
theorem seg_range_ends_above_segment :
    (0x0040961000000000 : U64).getLsbD 44 = true ∧
      segRange 0x0040961000000000 = some (0x100001, 0xFFFFFFFF) ∧
      Describes 0x0040961000000000 (some (0x100001, 0x000FFFFF)) ∧
      ¬Describes 0x0040961000000000 (segRange 0x0040961000000000) := by
  have hoffsets : offsets 0x0040961000000000 = Set.Icc 1 0xFFFFFFFF := if_pos (by decide)
  have hrange : segRange 0x0040961000000000 = some (0x100001, 0xFFFFFFFF) := by decide
  refine ⟨by decide, hrange, ?_, ?_⟩
  · rw [describes_some_iff hoffsets]
    decide
  · rw [hrange, describes_some_iff hoffsets]
    decide

end Kfs.Shell
