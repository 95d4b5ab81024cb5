import Kfs.Klib
import Kfs.Lib.Query
import Kfs.Machine

/-!
# Strings that end in a zero

`strlen` and `strcmp` of `kernel/src/klib.rs`.  They read memory byte by byte until they know the
answer, so a run is a `Query`, and what it asks for are the bytes of the strings.  The results let
every other byte fault.
-/

namespace Kfs.Klib

open Lib

/-- The loop of `strlen` from index `n` on. -/
def strlenFrom (s : U32) : Nat → Nat → Query U32 U8 Stop Nat
  | 0, _ => .stop .spins
  | fuel + 1, n => do
    let c ← Query.get (s + BitVec.ofNat 32 n)
    if c ≠ 0 then strlenFrom s fuel (n + 1) else pure n

def strlen (s : U32) (fuel : Nat) : Query U32 U8 Stop Nat := strlenFrom s fuel 0

/-- The loop of `strcmp` from index `i` on. -/
def strcmpFrom (a b : U32) : Nat → Nat → Query U32 U8 Stop Int
  | 0, _ => .stop .spins
  | fuel + 1, i => do
    let ca ← Query.get (a + BitVec.ofNat 32 i)
    let cb ← Query.get (b + BitVec.ofNat 32 i)
    if ca ≠ cb ∨ ca = 0 then pure ((ca.toNat : Int) - cb.toNat) else strcmpFrom a b fuel (i + 1)

def strcmp (a b : U32) (fuel : Nat) : Query U32 U8 Stop Int := strcmpFrom a b fuel 0

/-- The string `text` from index `i` of `p` on, and the zero behind it. -/
structure Terminated (f : U32 → Except Stop U8) (p : U32) (i : Nat) (text : List U8) : Prop where
  noZero : (0 : U8) ∉ text
  byte : ∀ k (hk : k < text.length), f (p + BitVec.ofNat 32 (i + k)) = .ok (text.get ⟨k, hk⟩)
  zero : f (p + BitVec.ofNat 32 (i + text.length)) = .ok 0

variable {f : U32 → Except Stop U8} {p a b : U32} {i : Nat} {x y : List U8}

theorem Terminated.tail {c : U8} (h : Terminated f p i (c :: x)) : Terminated f p (i + 1) x where
  noZero := fun hx => h.noZero (List.mem_cons_of_mem c hx)
  byte k hk := by
    have hbyte := h.byte (k + 1) (Nat.succ_lt_succ hk)
    rwa [show i + (k + 1) = i + 1 + k from by omega] at hbyte
  zero := by
    have hzero := h.zero
    rwa [List.length_cons, show i + (x.length + 1) = i + 1 + x.length from by omega] at hzero

/-- The byte at the index. -/
theorem Terminated.get (h : Terminated f p i x) :
    f (p + BitVec.ofNat 32 i) = .ok (x.headD 0) ∧ (x.headD 0 = 0 ↔ x = []) := by
  cases x with
  | nil => exact ⟨h.zero, by simp⟩
  | cons c x =>
    refine ⟨h.byte 0 (Nat.succ_pos _), ?_⟩
    simp only [List.headD_cons, reduceCtorEq, iff_false]
    exact fun hc => h.noZero (by rw [hc]; exact List.mem_cons_self)

theorem strlenFrom_run (x : List U8) : ∀ {i fuel : Nat}, Terminated f p i x → x.length < fuel →
    (strlenFrom p fuel i).run f = .ok (i + x.length) := by
  induction x with
  | nil =>
    intro i fuel h hfuel
    obtain ⟨fuel, rfl⟩ := Nat.exists_eq_succ_of_ne_zero (Nat.ne_of_gt hfuel)
    rw [strlenFrom, Query.run_bind_ok ((Query.run_get f _).trans h.get.1)]
    rfl
  | cons c x ih =>
    intro i fuel h hfuel
    obtain ⟨fuel, rfl⟩ := Nat.exists_eq_succ_of_ne_zero (Nat.ne_of_gt (Nat.zero_lt_of_lt hfuel))
    have hc : c ≠ 0 := fun hz => h.noZero (by rw [hz]; exact List.mem_cons_self)
    rw [strlenFrom, Query.run_bind_ok ((Query.run_get f _).trans h.get.1), List.headD_cons,
      if_pos hc, ih h.tail (by rw [List.length_cons] at hfuel; omega), List.length_cons]
    exact congrArg _ (by omega)

/-- One pass of the loop of `strcmp`. -/
theorem strcmpFrom_pass (hx : Terminated f a i x) (hy : Terminated f b i y) (fuel : Nat) :
    (strcmpFrom a b (fuel + 1) i).run f
      = if x.headD 0 ≠ y.headD 0 ∨ x.headD 0 = 0 then
          .ok (((x.headD 0).toNat : Int) - (y.headD 0).toNat)
        else (strcmpFrom a b fuel (i + 1)).run f := by
  rw [strcmpFrom, Query.run_bind_ok ((Query.run_get f _).trans hx.get.1),
    Query.run_bind_ok ((Query.run_get f _).trans hy.get.1)]
  split <;> rfl

/-- The order of C strings: the first byte that differs decides, and the end of a string is below
every byte. -/
theorem strcmpFrom_run (x : List U8) : ∀ {y : List U8} {i fuel : Nat}, Terminated f a i x →
    Terminated f b i y → min x.length y.length < fuel →
    ∃ r, (strcmpFrom a b fuel i).run f = .ok r ∧ (r = 0 ↔ x = y) ∧ (r < 0 ↔ x < y) ∧
      (0 < r ↔ y < x) := by
  induction x with
  | nil =>
    intro y i fuel hx hy hfuel
    obtain ⟨fuel, rfl⟩ := Nat.exists_eq_succ_of_ne_zero (Nat.ne_of_gt (Nat.zero_lt_of_lt hfuel))
    rw [strcmpFrom_pass hx hy, List.headD_nil, if_pos (Or.inr rfl)]
    refine ⟨_, rfl, ?_⟩
    cases y with
    | nil => simp
    | cons d y =>
      have hd : d.toNat ≠ 0 := fun hz => hy.noZero (by
        rw [show (0 : U8) = d from (BitVec.eq_of_toNat_eq hz).symm]
        exact List.mem_cons_self)
      simp only [List.headD_cons, reduceCtorEq, iff_false, List.nil_lt_cons, iff_true,
        List.not_lt_nil]
      show ¬((0 : Nat) : Int) - d.toNat = 0 ∧ ((0 : Nat) : Int) - d.toNat < 0 ∧
        ¬0 < ((0 : Nat) : Int) - d.toNat
      omega
  | cons c x ih =>
    intro y i fuel hx hy hfuel
    obtain ⟨fuel, rfl⟩ := Nat.exists_eq_succ_of_ne_zero (Nat.ne_of_gt (Nat.zero_lt_of_lt hfuel))
    have hc : c ≠ 0 := fun hz => hx.noZero (by rw [hz]; exact List.mem_cons_self)
    rw [strcmpFrom_pass hx hy, List.headD_cons]
    cases y with
    | nil =>
      have hpos : c.toNat ≠ 0 := fun hz => hc (BitVec.eq_of_toNat_eq hz)
      rw [List.headD_nil, if_pos (Or.inl hc)]
      refine ⟨_, rfl, ?_⟩
      simp only [reduceCtorEq, iff_false, List.not_lt_nil, List.nil_lt_cons, iff_true]
      show ¬(c.toNat : Int) - (0 : Nat) = 0 ∧ ¬(c.toNat : Int) - (0 : Nat) < 0 ∧
        0 < (c.toNat : Int) - (0 : Nat)
      omega
    | cons d y =>
      rw [List.headD_cons, List.cons_lt_cons_iff, List.cons_lt_cons_iff, List.cons.injEq]
      by_cases hcd : c = d
      · subst hcd
        -- the same byte: the rest decides
        rw [if_neg (not_or.mpr ⟨not_not.mpr rfl, hc⟩)]
        obtain ⟨r, hrun, hzero, hless, hmore⟩ := ih hx.tail hy.tail (show _ < fuel by
          rw [List.length_cons, List.length_cons] at hfuel
          omega)
        exact ⟨r, hrun, by simpa using hzero, by simpa using hless, by simpa using hmore⟩
      · rw [if_pos (Or.inl hcd)]
        have hne : c.toNat ≠ d.toNat := fun h => hcd (BitVec.eq_of_toNat_eq h)
        refine ⟨_, rfl, ?_⟩
        simp only [hcd, Ne.symm hcd, false_and, or_false, iff_false, BitVec.lt_def]
        omega

/-- `strlen` and `strcmp` on strings that end in a zero, wherever they lie and whatever else is in
memory: the length, the order of the bytes, and no read behind the zeros. -/
theorem strings_compared (hx : Terminated f a 0 x) (hy : Terminated f b 0 y) {fuel : Nat}
    (hxf : x.length < fuel) (hyf : y.length < fuel) :
    (strlen a fuel).run f = .ok x.length ∧ (strlen b fuel).run f = .ok y.length ∧
      ∃ r, (strcmp a b fuel).run f = .ok r ∧ (r = 0 ↔ x = y) ∧ (r < 0 ↔ x < y) ∧
        (0 < r ↔ y < x) := by
  have hlenx := strlenFrom_run x hx hxf
  have hleny := strlenFrom_run y hy hyf
  rw [Nat.zero_add] at hlenx hleny
  exact ⟨hlenx, hleny, strcmpFrom_run x hx hy (by omega)⟩

/-- The strings "ab" and "b" in a memory that ends behind them. -/
def twoStrings (p : U32) : Except Stop U8 :=
  match ([0x61, 0x62, 0, 0x62, 0] : List U8)[p.toNat]? with
  | some c => .ok c
  | none => .error (.fault p)

theorem strings_compared_two : (strlen 0 3).run twoStrings = .ok 2 ∧
    ∃ r, (strcmp 0 3 3).run twoStrings = .ok r ∧ r < 0 := by
  have hx : Terminated twoStrings 0 0 [0x61, 0x62] :=
    ⟨by decide, by decide, rfl⟩
  have hy : Terminated twoStrings 3 0 [0x62] :=
    ⟨by decide, by decide, rfl⟩
  obtain ⟨hlen, _, r, hrun, _, hless, _⟩ :=
    strings_compared hx hy (show _ < 3 by decide) (by decide)
  exact ⟨hlen, r, hrun, hless.mpr (by decide)⟩

end Kfs.Klib
