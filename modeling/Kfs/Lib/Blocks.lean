import Kfs.Lib.ByteMem

/-!
# Blocks that tile a range of memory

A block is a header of two words, its size and a flag, followed by that many bytes of payload.
`Tiles w a bs` says that the headers of the blocks `bs`, one right after the other from the
address `a` on, stand in the memory `w`.  Sizes are multiples of eight and at least eight, which
is part of the type.

There are four groups.

* Where the blocks lie: `span`, `HeaderByte`, `usedAt` (the blocks in use with their addresses) and
  the lemmas that keep them apart.
* Memory.  `tiles_congr` says that only the bytes of headers matter, and `tiles_splice` replaces a
  stretch of blocks by other blocks of the same extent.
* The search.  `absorb` joins a free block with the free blocks behind it, and `fit` looks for the
  first block that is large enough, joining on its way.
* The ends: `split` takes the front of a free block, `extend` adds room behind the last block, and
  `cut` takes room from its end.
-/

namespace Lib

/-- A block: payload size and flag. -/
structure Block where
  size : Nat
  used : Bool
  aligned : size % 8 = 0
  large : 8 ≤ size

namespace Block

/-- The block with the next one taken in. -/
def join (b c : Block) : Block where
  size := b.size + (8 + c.size)
  used := b.used
  aligned := by
    have := b.aligned
    have := c.aligned
    omega
  large := by
    have := b.large
    omega

/-- The block with its flag replaced. -/
def setUsed (b : Block) (used : Bool) : Block := { b with used := used }

end Block

namespace Blocks

variable {w w' : ByteMem}

/-! ## Where the blocks lie -/

/-- The bytes that the blocks take, headers included. -/
def span : List Block → Nat
  | [] => 0
  | b :: bs => 8 + b.size + span bs

@[simp] theorem span_nil : span [] = 0 := rfl

@[simp] theorem span_cons (b : Block) (bs : List Block) :
    span (b :: bs) = 8 + b.size + span bs := rfl

@[simp] theorem span_append (xs ys : List Block) : span (xs ++ ys) = span xs + span ys := by
  induction xs with
  | nil => simp
  | cons b xs ih =>
    rw [List.cons_append, span_cons, span_cons, ih]
    omega

theorem span_mod (bs : List Block) : span bs % 8 = 0 := by
  induction bs with
  | nil => rfl
  | cons b bs ih =>
    have := b.aligned
    rw [span_cons]
    omega

/-- A block takes at least sixteen bytes. -/
theorem length_le_span (bs : List Block) : 16 * bs.length ≤ span bs := by
  induction bs with
  | nil => simp
  | cons b bs ih =>
    have := b.large
    rw [span_cons, List.length_cons]
    omega

/-- The address is in a header. -/
def HeaderByte : Nat → List Block → Nat → Prop
  | _, [], _ => False
  | a, b :: bs, p => a ≤ p ∧ p < a + 8 ∨ HeaderByte (a + (8 + b.size)) bs p

theorem HeaderByte.bounds {bs : List Block} : ∀ {a p : Nat}, HeaderByte a bs p →
    a ≤ p ∧ p < a + span bs := by
  induction bs with
  | nil => exact fun h => h.elim
  | cons b bs ih =>
    intro a p h
    rw [span_cons]
    rcases h with h | h
    · omega
    · have := ih h
      omega

/-- The header of a block in the middle. -/
theorem headerByte_middle {xs ys : List Block} {b : Block} : ∀ {a p : Nat}, a + span xs ≤ p →
    p < a + span xs + 8 → HeaderByte a (xs ++ b :: ys) p := by
  induction xs with
  | nil => exact fun h1 h2 => Or.inl ⟨by simpa using h1, by simpa using h2⟩
  | cons x xs ih =>
    intro a p h1 h2
    rw [span_cons] at h1 h2
    exact Or.inr (ih (by omega) (by omega))

/-- The blocks in use: address and size. -/
def usedAt : Nat → List Block → List (Nat × Nat)
  | _, [] => []
  | a, b :: bs =>
    if b.used then (a, b.size) :: usedAt (a + (8 + b.size)) bs
    else usedAt (a + (8 + b.size)) bs

theorem usedAt_append (xs ys : List Block) : ∀ a,
    usedAt a (xs ++ ys) = usedAt a xs ++ usedAt (a + span xs) ys := by
  induction xs with
  | nil => exact fun _ => rfl
  | cons b xs ih =>
    intro a
    rw [List.cons_append, usedAt, usedAt, ih, span_cons,
      show a + (8 + b.size) + span xs = a + (8 + b.size + span xs) from by omega]
    split <;> rfl

theorem usedAt_free {b : Block} (h : b.used = false) (a : Nat) (bs : List Block) :
    usedAt a (b :: bs) = usedAt (a + (8 + b.size)) bs := by
  rw [usedAt, h]
  rfl

theorem usedAt_used {b : Block} (h : b.used = true) (a : Nat) (bs : List Block) :
    usedAt a (b :: bs) = (a, b.size) :: usedAt (a + (8 + b.size)) bs := by
  rw [usedAt, h]
  rfl

/-- A block in use, and the blocks before and behind it. -/
theorem mem_usedAt {bs : List Block} : ∀ {a q n : Nat}, (q, n) ∈ usedAt a bs ↔
    ∃ xs b ys, bs = xs ++ b :: ys ∧ q = a + span xs ∧ b.used = true ∧ b.size = n := by
  induction bs with
  | nil =>
    intro a q n
    simp [usedAt]
  | cons c bs ih =>
    intro a q n
    constructor
    · intro h
      rw [usedAt] at h
      split at h
      · rename_i hc
        rcases List.mem_cons.mp h with h | h
        · cases h
          exact ⟨[], c, bs, rfl, rfl, hc, rfl⟩
        · obtain ⟨xs, b, ys, rfl, rfl, hb⟩ := ih.mp h
          exact ⟨c :: xs, b, ys, rfl, by rw [span_cons]; omega, hb⟩
      · obtain ⟨xs, b, ys, rfl, rfl, hb⟩ := ih.mp h
        exact ⟨c :: xs, b, ys, rfl, by rw [span_cons]; omega, hb⟩
    · rintro ⟨xs, b, ys, hbs, rfl, hb, rfl⟩
      cases xs with
      | nil =>
        obtain ⟨rfl, rfl⟩ := List.cons.inj hbs
        rw [usedAt_used hb]
        exact List.mem_cons_self
      | cons x xs =>
        obtain ⟨rfl, rfl⟩ := List.cons.inj hbs
        have hrest := (ih (a := a + (8 + c.size))).mpr ⟨xs, b, ys, rfl, rfl, hb, rfl⟩
        rw [span_cons, show a + (8 + c.size + span xs) = a + (8 + c.size) + span xs from by omega]
        rw [usedAt]
        split
        · exact List.mem_cons_of_mem _ hrest
        · exact hrest

theorem usedAt_bounds {bs : List Block} {a q n : Nat} (h : (q, n) ∈ usedAt a bs) :
    a ≤ q ∧ q + 8 + n ≤ a + span bs := by
  obtain ⟨xs, b, ys, rfl, rfl, _, rfl⟩ := mem_usedAt.mp h
  rw [span_append, span_cons]
  omega

theorem usedAt_aligned {bs : List Block} {a q n : Nat} (ha : a % 8 = 0)
    (h : (q, n) ∈ usedAt a bs) : q % 8 = 0 := by
  obtain ⟨xs, b, ys, rfl, rfl, _, rfl⟩ := mem_usedAt.mp h
  have := span_mod xs
  omega

/-- The payload of a block in use holds no byte of a header. -/
theorem usedAt_payload {bs : List Block} : ∀ {a q n p : Nat}, (q, n) ∈ usedAt a bs →
    q + 8 ≤ p → p < q + 8 + n → ¬HeaderByte a bs p := by
  induction bs with
  | nil =>
    intro a q n p h
    simp [usedAt] at h
  | cons b bs ih =>
    intro a q n p h hlo hhi hp
    have htail : ∀ {q n}, (q, n) ∈ usedAt (a + (8 + b.size)) bs → a + (8 + b.size) ≤ q :=
      fun h => (usedAt_bounds h).1
    rw [usedAt] at h
    split at h
    · rcases List.mem_cons.mp h with h | h
      · cases h
        rcases hp with hp | hp
        · omega
        · have := hp.bounds
          omega
      · rcases hp with hp | hp
        · have := htail h
          omega
        · exact ih h hlo hhi hp
    · rcases hp with hp | hp
      · have := htail h
        omega
      · exact ih h hlo hhi hp

/-- Two blocks in use are one block or lie apart. -/
theorem usedAt_apart {bs : List Block} : ∀ {a q n q' n' : Nat}, (q, n) ∈ usedAt a bs →
    (q', n') ∈ usedAt a bs → q = q' ∧ n = n' ∨ q + 8 + n ≤ q' ∨ q' + 8 + n' ≤ q := by
  induction bs with
  | nil =>
    intro a q n q' n' h
    simp [usedAt] at h
  | cons b bs ih =>
    intro a q n q' n' h h'
    have htail : ∀ {q n}, (q, n) ∈ usedAt (a + (8 + b.size)) bs → a + (8 + b.size) ≤ q :=
      fun h => (usedAt_bounds h).1
    rw [usedAt] at h h'
    split at h
    · rename_i hb
      rw [if_pos hb] at h'
      rcases List.mem_cons.mp h with h | h <;> rcases List.mem_cons.mp h' with h' | h'
      · cases h
        cases h'
        exact Or.inl ⟨rfl, rfl⟩
      · cases h
        have := htail h'
        omega
      · cases h'
        have := htail h
        omega
      · exact ih h h'
    · rename_i hb
      rw [if_neg hb] at h'
      exact ih h h'

/-- No two blocks in use start at one address. -/
theorem usedAt_nodup (bs : List Block) : ∀ a, ((usedAt a bs).map Prod.fst).Nodup := by
  induction bs with
  | nil => exact fun _ => List.nodup_nil
  | cons b bs ih =>
    intro a
    rw [usedAt]
    split
    · rw [List.map_cons, List.nodup_cons]
      refine ⟨fun hm => ?_, ih _⟩
      obtain ⟨⟨q, n⟩, hq, hqa⟩ := List.mem_map.mp hm
      have := (usedAt_bounds hq).1
      dsimp only at hqa
      omega
    · exact ih _

/-- Clearing the flag of a block takes it out of the blocks in use. -/
theorem usedAt_setFree (xs ys : List Block) (b : Block) (a : Nat) :
    usedAt a (xs ++ b.setUsed false :: ys)
      = (usedAt a (xs ++ b :: ys)).filter fun x => x.1 ≠ a + span xs := by
  have hxs : (usedAt a xs).filter (fun x => x.1 ≠ a + span xs) = usedAt a xs := by
    refine List.filter_eq_self.mpr fun x hx => decide_eq_true ?_
    have := usedAt_bounds (q := x.1) (n := x.2) hx
    omega
  have hys : (usedAt (a + span xs + (8 + b.size)) ys).filter (fun x => x.1 ≠ a + span xs)
      = usedAt (a + span xs + (8 + b.size)) ys := by
    refine List.filter_eq_self.mpr fun x hx => decide_eq_true ?_
    have := usedAt_bounds (q := x.1) (n := x.2) hx
    omega
  rw [usedAt_append, usedAt_append, List.filter_append, hxs, usedAt_free rfl]
  cases hb : b.used with
  | true =>
    rw [usedAt_used hb, List.filter_cons_of_neg (by simp), hys]
    rfl
  | false =>
    rw [usedAt_free hb, hys]
    rfl

/-- The block at an address is determined by the address. -/
theorem decomp_unique {bs : List Block} : ∀ {xs ys xs' ys' : List Block} {b b' : Block},
    bs = xs ++ b :: ys → bs = xs' ++ b' :: ys' → span xs = span xs' →
    xs = xs' ∧ b = b' ∧ ys = ys' := by
  induction bs with
  | nil =>
    intro xs ys xs' ys' b b' h
    simp at h
  | cons c bs ih =>
    intro xs ys xs' ys' b b' h h' hs
    cases xs with
    | nil =>
      cases xs' with
      | nil =>
        obtain ⟨rfl, rfl⟩ := List.cons.inj h
        obtain ⟨rfl, rfl⟩ := List.cons.inj h'
        exact ⟨rfl, rfl, rfl⟩
      | cons x' xs' =>
        rw [span_nil, span_cons] at hs
        omega
    | cons x xs =>
      cases xs' with
      | nil =>
        rw [span_nil, span_cons] at hs
        omega
      | cons x' xs' =>
        obtain ⟨rfl, htail⟩ := List.cons.inj h
        obtain ⟨rfl, htail'⟩ := List.cons.inj h'
        rw [span_cons, span_cons] at hs
        obtain ⟨rfl, rfl, rfl⟩ := ih htail htail' (by omega)
        exact ⟨rfl, rfl, rfl⟩

/-! ## Headers in memory -/

/-- The flag of a header. -/
def flag (used : Bool) : BitVec 32 := if used then 1 else 0

/-- The header of `b` stands at `a`. -/
def Header (w : ByteMem) (a : Nat) (b : Block) : Prop :=
  w.read32 a = BitVec.ofNat 32 b.size ∧ w.read32 (a + 4) = flag b.used

/-- The headers of the blocks stand in memory, one block right after the other. -/
def Tiles (w : ByteMem) : Nat → List Block → Prop
  | _, [] => True
  | a, b :: bs => Header w a b ∧ Tiles w (a + (8 + b.size)) bs

theorem header_congr {a : Nat} {b : Block} (h : ∀ p, a ≤ p → p < a + 8 → w' p = w p)
    (hb : Header w a b) : Header w' a b := by
  obtain ⟨hsize, hflag⟩ := hb
  refine ⟨?_, ?_⟩
  · rw [ByteMem.read32_congr fun p h1 h2 => h p h1 (by omega)]
    exact hsize
  · rw [ByteMem.read32_congr fun p h1 h2 => h p (by omega) (by omega)]
    exact hflag

/-- The blocks depend on the bytes of their headers only. -/
theorem tiles_congr {bs : List Block} : ∀ {a : Nat}, (∀ p, HeaderByte a bs p → w' p = w p) →
    Tiles w a bs → Tiles w' a bs := by
  induction bs with
  | nil => exact fun _ _ => trivial
  | cons b bs ih =>
    intro a h hb
    exact ⟨header_congr (fun p h1 h2 => h p (Or.inl ⟨h1, h2⟩)) hb.1,
      ih (fun p hp => h p (Or.inr hp)) hb.2⟩

theorem tiles_append {xs ys : List Block} : ∀ {a : Nat},
    Tiles w a (xs ++ ys) ↔ Tiles w a xs ∧ Tiles w (a + span xs) ys := by
  induction xs with
  | nil =>
    intro a
    simp [Tiles]
  | cons b xs ih =>
    intro a
    rw [List.cons_append, Tiles, Tiles, ih, span_cons, and_assoc,
      show a + (8 + b.size) + span xs = a + (8 + b.size + span xs) from by omega]

/-- The header of a block in the middle. -/
theorem tiles_header {xs ys : List Block} {b : Block} {a : Nat} (h : Tiles w a (xs ++ b :: ys)) :
    Header w (a + span xs) b :=
  (tiles_append.mp h).2.1

/-- The headers determine the blocks. -/
theorem tiles_unique {bs : List Block} : ∀ {a : Nat} {bs' : List Block}, Tiles w a bs →
    Tiles w a bs' → span bs = span bs' → span bs < 2 ^ 32 → bs = bs' := by
  induction bs with
  | nil =>
    intro a bs' _ _ hspan _
    cases bs' with
    | nil => rfl
    | cons c cs =>
      rw [span_nil, span_cons] at hspan
      omega
  | cons b bs ih =>
    intro a bs' h h' hspan hlt
    cases bs' with
    | nil =>
      rw [span_nil, span_cons] at hspan
      omega
    | cons c cs =>
      obtain ⟨⟨hsize, hflag⟩, htail⟩ := h
      obtain ⟨⟨hsize', hflag'⟩, htail'⟩ := h'
      rw [span_cons, span_cons] at hspan
      rw [span_cons] at hlt
      have hbc : b.size = c.size := by
        have heq := congrArg BitVec.toNat (hsize.symm.trans hsize')
        rw [BitVec.toNat_ofNat, BitVec.toNat_ofNat] at heq
        omega
      have hused : b.used = c.used := by
        have heq := hflag.symm.trans hflag'
        cases hb : b.used <;> cases hc : c.used <;> rw [hb, hc] at heq <;> first | rfl | cases heq
      obtain rfl : b = c := by
        cases b
        cases c
        simp_all
      rw [ih htail htail' (by omega) (by omega)]

/-- Other blocks of the same extent in place of `mid`. -/
theorem tiles_splice {xs mid mid' ys : List Block} {a : Nat}
    (h : Tiles w a (xs ++ mid ++ ys)) (hspan : span mid' = span mid)
    (hmid : Tiles w' (a + span xs) mid')
    (hout : ∀ p, p < a + span xs ∨ a + span xs + span mid ≤ p → w' p = w p) :
    Tiles w' a (xs ++ mid' ++ ys) := by
  obtain ⟨hpre, hys⟩ := tiles_append.mp h
  obtain ⟨hxs, _⟩ := tiles_append.mp hpre
  rw [span_append] at hys
  refine tiles_append.mpr ⟨tiles_append.mpr ⟨tiles_congr (fun p hp => ?_) hxs, hmid⟩, ?_⟩
  · have := hp.bounds
    exact hout p (by omega)
  · rw [span_append, hspan]
    refine tiles_congr (fun p hp => ?_) hys
    have := hp.bounds
    exact hout p (by omega)

/-- The memory with a header written. -/
def putHeader (w : ByteMem) (a : Nat) (size : BitVec 32) (used : Bool) : ByteMem :=
  (w.write32 a size).write32 (a + 4) (flag used)

theorem putHeader_other (w : ByteMem) {a p : Nat} (size : BitVec 32) (used : Bool)
    (h : p < a ∨ a + 8 ≤ p) : putHeader w a size used p = w p := by
  rw [putHeader, ByteMem.write32_other _ _ (by omega), ByteMem.write32_other _ _ (by omega)]

theorem header_putHeader (w : ByteMem) (a : Nat) (b : Block) :
    Header (putHeader w a (BitVec.ofNat 32 b.size) b.used) a b := by
  refine ⟨?_, ByteMem.read32_write32_same _ _ _⟩
  rw [putHeader, ByteMem.read32_write32_other _ _ (by omega), ByteMem.read32_write32_same]

/-! ## The search -/

/-- A block joined with the free blocks right behind it, and what is left. -/
def absorb (b : Block) : List Block → Block × List Block
  | [] => (b, [])
  | c :: cs => if c.used then (b, c :: cs) else absorb (b.join c) cs

theorem used_absorb (bs : List Block) : ∀ b : Block, (absorb b bs).1.used = b.used := by
  induction bs with
  | nil => exact fun _ => rfl
  | cons c bs ih =>
    intro b
    rw [absorb]
    split
    · rfl
    · exact ih (b.join c)

theorem span_absorb (bs : List Block) : ∀ b : Block,
    span ((absorb b bs).1 :: (absorb b bs).2) = span (b :: bs) := by
  induction bs with
  | nil => exact fun _ => rfl
  | cons c bs ih =>
    intro b
    rw [absorb]
    split
    · rfl
    · rw [ih (b.join c), span_cons, span_cons, span_cons, Block.join]
      dsimp only
      omega

theorem length_absorb (bs : List Block) : ∀ b : Block, (absorb b bs).2.length ≤ bs.length := by
  induction bs with
  | nil => exact fun _ => Nat.le_refl _
  | cons c bs ih =>
    intro b
    rw [absorb]
    split
    · exact Nat.le_refl _
    · exact Nat.le_succ_of_le (ih (b.join c))

/-- Joining free blocks leaves the blocks in use where they are. -/
theorem usedAt_absorb (bs : List Block) : ∀ {b : Block} (a : Nat), b.used = false →
    usedAt a ((absorb b bs).1 :: (absorb b bs).2) = usedAt a (b :: bs) := by
  induction bs with
  | nil => exact fun _ _ => rfl
  | cons c bs ih =>
    intro b a hb
    rw [absorb]
    split
    · rfl
    · rename_i hc
      rw [ih a (b := b.join c) hb, usedAt_free hb, usedAt_free (b := b.join c) hb,
        usedAt_free (by simpa using hc), Block.join]
      dsimp only
      congr 1
      omega

/-- The search for the first block of at least `need` bytes: its address, and the blocks as the
search leaves them. -/
def fit (need : Nat) (a : Nat) : List Block → Option Nat × List Block
  | [] => (none, [])
  | b :: bs =>
    if b.used then
      let r := fit need (a + (8 + b.size)) bs
      (r.1, b :: r.2)
    else
      let m := absorb b bs
      if need ≤ m.1.size then (some a, m.1 :: m.2)
      else
        let r := fit need (a + (8 + m.1.size)) m.2
        (r.1, m.1 :: r.2)
termination_by bs => bs.length
decreasing_by
  · simp
  · have := length_absorb bs b
    rw [List.length_cons]
    omega

theorem fit_used {b : Block} (hb : b.used = true) (need a : Nat) (bs : List Block) :
    fit need a (b :: bs)
      = ((fit need (a + (8 + b.size)) bs).1, b :: (fit need (a + (8 + b.size)) bs).2) := by
  rw [fit, if_pos hb]

theorem fit_found {b : Block} (hb : b.used = false) {need a : Nat} {bs : List Block}
    (h : need ≤ (absorb b bs).1.size) :
    fit need a (b :: bs) = (some a, (absorb b bs).1 :: (absorb b bs).2) := by
  rw [fit, if_neg (by rw [hb]; decide)]
  exact if_pos h

theorem fit_small {b : Block} (hb : b.used = false) {need a : Nat} {bs : List Block}
    (h : ¬need ≤ (absorb b bs).1.size) :
    fit need a (b :: bs)
      = ((fit need (a + (8 + (absorb b bs).1.size)) (absorb b bs).2).1, (absorb b bs).1 ::
          (fit need (a + (8 + (absorb b bs).1.size)) (absorb b bs).2).2) := by
  rw [fit, if_neg (by rw [hb]; decide)]
  exact if_neg h

/-- The search keeps the range, and the blocks in use where they are. -/
theorem fit_keeps (need : Nat) (n : Nat) : ∀ (bs : List Block) (a : Nat), bs.length ≤ n →
    span (fit need a bs).2 = span bs ∧ usedAt a (fit need a bs).2 = usedAt a bs := by
  induction n with
  | zero =>
    intro bs a h
    rw [List.length_eq_zero_iff.mp (Nat.le_zero.mp h), fit]
    exact ⟨rfl, rfl⟩
  | succ n ih =>
    intro bs a h
    cases bs with
    | nil =>
      rw [fit]
      exact ⟨rfl, rfl⟩
    | cons b bs =>
      rw [List.length_cons] at h
      cases hb : b.used with
      | true =>
        obtain ⟨hspan, hused⟩ := ih bs (a + (8 + b.size)) (by omega)
        rw [fit_used hb, span_cons, span_cons, usedAt_used hb, usedAt_used hb]
        rw [hspan, hused]
        exact ⟨rfl, rfl⟩
      | false =>
        have hlen := length_absorb bs b
        have hspan := span_absorb bs b
        have hused := usedAt_absorb bs a hb
        have hfree : (absorb b bs).1.used = false := (used_absorb bs b).trans hb
        by_cases hneed : need ≤ (absorb b bs).1.size
        · rw [fit_found hb hneed]
          exact ⟨hspan, hused⟩
        · obtain ⟨hspan', hused'⟩ :=
            ih (absorb b bs).2 (a + (8 + (absorb b bs).1.size)) (by omega)
          rw [fit_small hb hneed, ← hspan, ← hused]
          dsimp only
          rw [span_cons, span_cons, usedAt_free hfree, usedAt_free hfree, hspan', hused']
          exact ⟨rfl, rfl⟩

theorem span_fit (need a : Nat) (bs : List Block) : span (fit need a bs).2 = span bs :=
  (fit_keeps need bs.length bs a (Nat.le_refl _)).1

theorem usedAt_fit (need a : Nat) (bs : List Block) :
    usedAt a (fit need a bs).2 = usedAt a bs :=
  (fit_keeps need bs.length bs a (Nat.le_refl _)).2

/-- The address of the block whose payload is at `p`. -/
def lookup (p : Nat) : Nat → List Block → Option Nat
  | _, [] => none
  | a, b :: bs => if a + 8 = p then some a else lookup p (a + (8 + b.size)) bs

theorem lookup_eq_some {bs : List Block} : ∀ {a p q : Nat}, lookup p a bs = some q →
    q + 8 = p ∧ ∃ xs b ys, bs = xs ++ b :: ys ∧ q = a + span xs := by
  induction bs with
  | nil =>
    intro a p q h
    cases h
  | cons b bs ih =>
    intro a p q h
    rw [lookup] at h
    split at h
    · rename_i ha
      cases h
      exact ⟨ha, [], b, bs, rfl, rfl⟩
    · obtain ⟨hq, xs, c, ys, rfl, rfl⟩ := ih h
      exact ⟨hq, b :: xs, c, ys, rfl, by rw [span_cons]; omega⟩

theorem lookup_payload {xs ys : List Block} {b : Block} : ∀ {a : Nat},
    lookup (a + span xs + 8) a (xs ++ b :: ys) = some (a + span xs) := by
  induction xs with
  | nil =>
    intro a
    rw [List.nil_append, span_nil, lookup, if_pos rfl, Nat.add_zero]
  | cons x xs ih =>
    intro a
    have h := ih (a := a + (8 + x.size))
    rw [List.cons_append, lookup, if_neg (by rw [span_cons]; omega), span_cons,
      show a + (8 + x.size + span xs) = a + (8 + x.size) + span xs from by omega, h]

/-- The address of the last block, or `last` if there is none. -/
def lastAt (last : Option Nat) : Nat → List Block → Option Nat
  | _, [] => last
  | a, b :: bs => lastAt (some a) (a + (8 + b.size)) bs

theorem lastAt_snoc (xs : List Block) (b : Block) : ∀ (last : Option Nat) (a : Nat),
    lastAt last a (xs ++ [b]) = some (a + span xs) := by
  induction xs with
  | nil => exact fun _ _ => rfl
  | cons x xs ih =>
    intro last a
    rw [List.cons_append, lastAt, ih, span_cons]
    congr 1
    omega

/-! ## Taking a block and moving the end -/

/-- The front of a free block in use, with the rest as a block of its own when it is large
enough for one. -/
def split (m : Block) (need : Nat) (hal : need % 8 = 0) (hlarge : 8 ≤ need) : List Block :=
  if h : need + 16 ≤ m.size then
    [⟨need, true, hal, hlarge⟩,
      ⟨m.size - need - 8, false, by have := m.aligned; omega, by omega⟩]
  else [m.setUsed true]

theorem span_split (m : Block) {need : Nat} (hal : need % 8 = 0) (hlarge : 8 ≤ need) :
    span (split m need hal hlarge) = 8 + m.size := by
  unfold split
  split
  · simp only [span_cons, span_nil]
    omega
  · simp only [span_cons, span_nil, Block.setUsed]
    omega

/-- The size of the block that a split puts in use. -/
def taken (m : Block) (need : Nat) : Nat := if need + 16 ≤ m.size then need else m.size

theorem need_le_taken {m : Block} {need : Nat} (h : need ≤ m.size) : need ≤ taken m need := by
  unfold taken
  split <;> omega

theorem usedAt_split (m : Block) {need : Nat} (hal : need % 8 = 0) (hlarge : 8 ≤ need) (a : Nat) :
    usedAt a (split m need hal hlarge) = [(a, taken m need)] := by
  unfold split taken
  split
  · rw [usedAt_used rfl, usedAt_free rfl]
    rfl
  · rw [usedAt_used rfl]
    rfl

/-- Taking a free block adds it to the blocks in use. -/
theorem usedAt_take {m : Block} (hm : m.used = false) (xs ys : List Block) {need : Nat}
    (hal : need % 8 = 0) (hlarge : 8 ≤ need) (a : Nat) :
    (usedAt a (xs ++ split m need hal hlarge ++ ys)).Perm
      ((a + span xs, taken m need) :: usedAt a (xs ++ m :: ys)) := by
  rw [usedAt_append, usedAt_append, usedAt_split, usedAt_append, usedAt_free hm, span_append,
    span_split, List.append_assoc, Nat.add_assoc]
  exact List.perm_middle

/-- A free block that takes `room` bytes with its header. -/
def room (n : Nat) (hal : n % 8 = 0) (hlarge : 16 ≤ n) : Block :=
  ⟨n - 8, false, by omega, by omega⟩

/-- The block with `n` more bytes. -/
def grown (b : Block) (n : Nat) (hal : n % 8 = 0) : Block :=
  ⟨b.size + n, b.used, by have := b.aligned; omega, by have := b.large; omega⟩

/-- The block with `n` bytes less. -/
def cut (b : Block) (n : Nat) (hal : n % 8 = 0) (hlarge : n + 8 ≤ b.size) : Block :=
  ⟨b.size - n, b.used, by have := b.aligned; omega, by omega⟩

/-- What a block grew by can be cut off again. -/
theorem cut_grown (b : Block) {n : Nat} (hal : n % 8 = 0) (hlarge : n + 8 ≤ (grown b n hal).size) :
    cut (grown b n hal) n hal hlarge = b := by
  cases b
  simp [cut, grown]

/-- Room behind the last block: a free last block grows by it, and otherwise it becomes a free
block. -/
def extend (bs : List Block) (n : Nat) (hal : n % 8 = 0) (hlarge : 16 ≤ n) : List Block :=
  match bs.getLast? with
  | some b => if b.used then bs ++ [room n hal hlarge] else bs.dropLast ++ [grown b n hal]
  | none => bs ++ [room n hal hlarge]

section Extend

variable {n : Nat} (hal : n % 8 = 0) (hlarge : 16 ≤ n)

theorem extend_nil : extend [] n hal hlarge = [room n hal hlarge] := rfl

theorem extend_snoc_used (xs : List Block) {b : Block} (hb : b.used = true) :
    extend (xs ++ [b]) n hal hlarge = xs ++ [b, room n hal hlarge] := by
  simp [extend, hb]

theorem extend_snoc_free (xs : List Block) {b : Block} (hb : b.used = false) :
    extend (xs ++ [b]) n hal hlarge = xs ++ [grown b n hal] := by
  simp [extend, hb]

theorem span_extend (bs : List Block) : span (extend bs n hal hlarge) = span bs + n := by
  rcases List.eq_nil_or_concat bs with rfl | ⟨xs, b, rfl⟩
  · simp only [extend_nil, room, span_cons, span_nil]
    omega
  · rw [List.concat_eq_append]
    cases hb : b.used
    · rw [extend_snoc_free hal hlarge xs hb, span_append, span_append]
      simp only [grown, span_cons, span_nil]
      omega
    · rw [extend_snoc_used hal hlarge xs hb, span_append, span_append]
      simp only [room, span_cons, span_nil]
      omega

theorem usedAt_extend (bs : List Block) (a : Nat) :
    usedAt a (extend bs n hal hlarge) = usedAt a bs := by
  rcases List.eq_nil_or_concat bs with rfl | ⟨xs, b, rfl⟩
  · rw [extend_nil, usedAt_free rfl]
    rfl
  · rw [List.concat_eq_append]
    cases hb : b.used
    · rw [extend_snoc_free hal hlarge xs hb, usedAt_append, usedAt_append, usedAt_free hb,
        usedAt_free (b := grown b n hal) hb]
      rfl
    · rw [extend_snoc_used hal hlarge xs hb, usedAt_append, usedAt_append, usedAt_used hb,
        usedAt_used hb, usedAt_free (b := room n hal hlarge) rfl]
      rfl

end Extend

end Blocks

end Lib
