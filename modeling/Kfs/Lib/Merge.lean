import Kfs.Lib.Blocks

/-!
# Free blocks joined early and late

`merged` joins every free block with the free blocks behind it.  Its free blocks are the maximal
runs of adjacent free blocks of the list it starts from, inner headers counted.

The search of `Blocks` joins blocks only as far as it walks, so the lists it leaves are merged to
some extent and no more.  The lemmas say that this cannot be seen from `merged`: the search finds
what the plain search `place` finds in the merged list (`fit_place`), and taking a block, clearing
a flag and adding room at the end lead to the same merged list whether the list was merged before
or not (`fit_place`, `merged_clearAt`, `merged_extend`).
-/

namespace Lib.Blocks

variable {b c : Block} {bs ms : List Block}

/-! ## The merged list -/

/-- A block in front of a merged list. -/
def push (b : Block) : List Block → List Block
  | [] => [b]
  | c :: cs => if b.used = false ∧ c.used = false then b.join c :: cs else b :: c :: cs

/-- Every free block joined with the free blocks right behind it. -/
def merged : List Block → List Block
  | [] => []
  | b :: bs => push b (merged bs)

/-- The list does not start with a free block. -/
def Fenced (bs : List Block) : Prop := ∀ c ∈ bs.head?, c.used = true

/-- No two free blocks are adjacent. -/
def Separate : List Block → Prop
  | [] => True
  | b :: bs => (b.used = false → Fenced bs) ∧ Separate bs

@[simp] theorem merged_cons (b : Block) (bs : List Block) : merged (b :: bs) = push b (merged bs) :=
  rfl

@[simp] theorem merged_one (b : Block) : merged [b] = [b] := rfl

theorem fenced_nil : Fenced [] := fun _ hc => by cases hc

theorem fenced_cons : Fenced (b :: bs) ↔ b.used = true := by
  simp [Fenced]

theorem push_used (hb : b.used = true) (ms : List Block) : push b ms = b :: ms := by
  cases ms with
  | nil => rfl
  | cons c cs => simp [push, hb]

theorem push_fenced (b : Block) (h : Fenced ms) : push b ms = b :: ms := by
  cases ms with
  | nil => rfl
  | cons c cs => simp [push, fenced_cons.mp h]

theorem push_free (hb : b.used = false) (hc : c.used = false) (cs : List Block) :
    push b (c :: cs) = b.join c :: cs := by
  simp [push, hb, hc]

theorem join_join (b c d : Block) : (b.join c).join d = b.join (c.join d) := by
  simp only [Block.join, Block.mk.injEq, and_true]
  omega

/-- Two free blocks in front, one after the other or joined. -/
theorem push_join (hb : b.used = false) (hc : c.used = false) (ms : List Block) :
    push (b.join c) ms = push b (push c ms) := by
  have hjoin : (b.join c).used = false := hb
  cases ms with
  | nil => simp [push, hb, hc]
  | cons d ds =>
    cases hd : d.used with
    | true => simp [push, hb, hc, hd]
    | false =>
      rw [push_free hjoin hd, push_free hc hd, push_free (c := c.join d) hb hc, join_join]

theorem span_push (b : Block) (ms : List Block) : span (push b ms) = span (b :: ms) := by
  cases ms with
  | nil => rfl
  | cons c cs =>
    rw [push]
    split
    · simp only [Block.join, span_cons]
      omega
    · rfl

theorem span_merged (bs : List Block) : span (merged bs) = span bs := by
  induction bs with
  | nil => rfl
  | cons b bs ih => rw [merged_cons, span_push, span_cons, span_cons, ih]

theorem usedAt_push (b : Block) (ms : List Block) (a : Nat) :
    usedAt a (push b ms) = usedAt a (b :: ms) := by
  cases ms with
  | nil => rfl
  | cons c cs =>
    rw [push]
    split
    · rename_i h
      rw [usedAt_free (b := b.join c) h.1, usedAt_free h.1, usedAt_free h.2]
      simp only [Block.join]
      congr 1
      omega
    · rfl

theorem usedAt_merged (bs : List Block) : ∀ a, usedAt a (merged bs) = usedAt a bs := by
  induction bs with
  | nil => exact fun _ => rfl
  | cons b bs ih =>
    intro a
    rw [merged_cons, usedAt_push, usedAt, usedAt, ih]

theorem separate_push (b : Block) (h : Separate ms) : Separate (push b ms) := by
  cases ms with
  | nil => exact ⟨fun _ => fenced_nil, trivial⟩
  | cons c cs =>
    rw [push]
    split
    · rename_i hfree
      exact ⟨fun _ => h.1 hfree.2, h.2⟩
    · rename_i hfree
      refine ⟨fun hb => fenced_cons.mpr ?_, h⟩
      simpa [hb] using hfree

theorem separate_merged (bs : List Block) : Separate (merged bs) := by
  induction bs with
  | nil => trivial
  | cons b bs ih => exact separate_push b ih

theorem merged_eq_self (h : Separate bs) : merged bs = bs := by
  induction bs with
  | nil => rfl
  | cons b bs ih =>
    rw [merged_cons, ih h.2]
    cases hb : b.used with
    | true => exact push_used hb bs
    | false => exact push_fenced b (h.1 hb)

theorem merged_merged (bs : List Block) : merged (merged bs) = merged bs :=
  merged_eq_self (separate_merged bs)

/-- Free blocks alone make one block. -/
theorem separate_free {a : Nat} (h : Separate bs) (hu : usedAt a bs = []) :
    bs = [] ∨ ∃ b, bs = [b] ∧ b.used = false := by
  cases bs with
  | nil => exact Or.inl rfl
  | cons b bs =>
    cases hb : b.used with
    | true =>
      rw [usedAt_used hb] at hu
      cases hu
    | false =>
      rw [usedAt_free hb] at hu
      have hfence := h.1 hb
      refine Or.inr ⟨b, ?_, hb⟩
      cases bs with
      | nil => rfl
      | cons c bs =>
        rw [usedAt_used (fenced_cons.mp hfence)] at hu
        cases hu

/-- One block in use in front of free ones. -/
theorem separate_first {a n : Nat} (h : Separate bs) (hu : usedAt a bs = [(a, n)]) :
    ∃ b, b.used = true ∧ b.size = n ∧ (bs = [b] ∨ ∃ c, bs = [b, c] ∧ c.used = false) := by
  cases bs with
  | nil => cases hu
  | cons b bs =>
    cases hb : b.used with
    | false =>
      rw [usedAt_free hb] at hu
      have hle := usedAt_bounds (q := a) (n := n) (by rw [hu]; exact List.mem_singleton_self _)
      omega
    | true =>
      rw [usedAt_used hb] at hu
      injection hu with hhead hrest
      refine ⟨b, hb, congrArg Prod.snd hhead, ?_⟩
      rcases separate_free h.2 hrest with rfl | ⟨c, rfl, hc⟩
      · exact Or.inl rfl
      · exact Or.inr ⟨c, rfl, hc⟩

theorem Fenced.merged (h : Fenced bs) : Fenced (merged bs) := by
  cases bs with
  | nil => exact h
  | cons b bs =>
    rw [merged_cons, push_used (fenced_cons.mp h), fenced_cons]
    exact fenced_cons.mp h

/-! ## The search -/

theorem fenced_absorb (bs : List Block) : ∀ b : Block, Fenced (absorb b bs).2 := by
  induction bs with
  | nil => exact fun _ => fenced_nil
  | cons c bs ih =>
    intro b
    unfold absorb
    split
    · rename_i hc
      exact fenced_cons.mpr hc
    · exact ih (b.join c)

/-- Joining the blocks behind the first one is a part of merging. -/
theorem merged_absorb (bs : List Block) : ∀ {b : Block}, b.used = false →
    merged (b :: bs) = (absorb b bs).1 :: merged (absorb b bs).2 := by
  induction bs with
  | nil => exact fun _ => rfl
  | cons c bs ih =>
    intro b hb
    unfold absorb
    split
    · rename_i hc
      exact push_fenced b (Fenced.merged (fenced_cons.mpr hc))
    · rename_i hc
      have hc' : c.used = false := by simpa using hc
      rw [← ih (b := b.join c) hb, merged_cons, merged_cons, merged_cons, push_join hb hc']

/-- The free blocks: address and size. -/
def freeAt : Nat → List Block → List (Nat × Nat)
  | _, [] => []
  | a, b :: bs =>
    if b.used then freeAt (a + (8 + b.size)) bs
    else (a, b.size) :: freeAt (a + (8 + b.size)) bs

theorem freeAt_bounds {a q n : Nat} (h : (q, n) ∈ freeAt a bs) : a ≤ q := by
  induction bs generalizing a with
  | nil => cases h
  | cons b bs ih =>
    unfold freeAt at h
    split at h
    · have := ih h
      omega
    · rcases List.mem_cons.mp h with h | h
      · cases h
        exact Nat.le_refl _
      · have := ih h
        omega

section Place

variable (need : Nat) (hal : need % 8 = 0) (hlarge : 8 ≤ need)

/-- The first free block of at least `need` bytes is taken: how far behind the start it is, and the
blocks with it split. -/
def place : List Block → Option (Nat × List Block)
  | [] => none
  | b :: bs =>
    if b.used = false ∧ need ≤ b.size then some (0, split b need hal hlarge ++ bs)
    else (place bs).map fun r => (8 + b.size + r.1, b :: r.2)

variable {need}

theorem place_skip (h : ¬(b.used = false ∧ need ≤ b.size)) (bs : List Block) :
    place need hal hlarge (b :: bs)
      = (place need hal hlarge bs).map fun r => (8 + b.size + r.1, b :: r.2) := by
  rw [place, if_neg h]

theorem place_eq_none : ∀ {bs : List Block} (a : Nat),
    place need hal hlarge bs = none ↔ ∀ q n, (q, n) ∈ freeAt a bs → n < need := by
  intro bs
  induction bs with
  | nil => simp [place, freeAt]
  | cons b bs ih =>
    intro a
    cases hb : b.used with
    | true =>
      rw [place_skip hal hlarge (by simp [hb]), Option.map_eq_none_iff, ih (a + (8 + b.size)),
        freeAt, if_pos hb]
    | false =>
      rw [freeAt, if_neg (by simp [hb])]
      by_cases hn : need ≤ b.size
      · rw [place, if_pos ⟨hb, hn⟩]
        simp only [reduceCtorEq, false_iff, not_forall]
        exact ⟨a, b.size, List.mem_cons_self, Nat.not_lt.mpr hn⟩
      · rw [place_skip hal hlarge (fun h => hn h.2), Option.map_eq_none_iff,
          ih (a + (8 + b.size))]
        refine ⟨fun h q n hq => ?_, fun h q n hq => h q n (List.mem_cons_of_mem _ hq)⟩
        rcases List.mem_cons.mp hq with hq | hq
        · cases hq
          omega
        · exact h q n hq

/-- What is taken is the free block with the lowest address among those that are large enough. -/
theorem place_lowest : ∀ {bs : List Block} {a o : Nat} {ms : List Block},
    place need hal hlarge bs = some (o, ms) →
    (∃ n, (a + o, n) ∈ freeAt a bs ∧ need ≤ n) ∧
      ∀ q n, (q, n) ∈ freeAt a bs → need ≤ n → a + o ≤ q := by
  intro bs
  induction bs with
  | nil => exact fun h => by cases h
  | cons b bs ih =>
    intro a o ms h
    by_cases hfit : b.used = false ∧ need ≤ b.size
    · rw [place, if_pos hfit] at h
      cases h
      rw [freeAt, if_neg (by simp [hfit.1])]
      refine ⟨⟨b.size, List.mem_cons_self, hfit.2⟩, fun q n hq _ => ?_⟩
      rcases List.mem_cons.mp hq with hq | hq
      · cases hq
        exact Nat.le_refl _
      · have := freeAt_bounds hq
        omega
    · rw [place_skip hal hlarge hfit, Option.map_eq_some_iff] at h
      obtain ⟨⟨o', ms'⟩, hplace, heq⟩ := h
      cases heq
      obtain ⟨⟨n, hn, hneed⟩, hlow⟩ := ih (a := a + (8 + b.size)) hplace
      rw [Nat.add_assoc] at hn hlow
      unfold freeAt
      split
      · exact ⟨⟨n, hn, hneed⟩, hlow⟩
      · rename_i hb
        refine ⟨⟨n, List.mem_cons_of_mem _ hn, hneed⟩, fun q n' hq hle => ?_⟩
        rcases List.mem_cons.mp hq with hq | hq
        · cases hq
          exact absurd ⟨by simpa using hb, hle⟩ hfit
        · exact hlow q n' hq hle

/-- Taking a block adds it to the blocks in use. -/
theorem usedAt_place : ∀ {bs : List Block} {a o : Nat} {ms : List Block},
    place need hal hlarge bs = some (o, ms) →
    ∃ size, need ≤ size ∧ (usedAt a ms).Perm ((a + o, size) :: usedAt a bs) := by
  intro bs
  induction bs with
  | nil => exact fun h => by cases h
  | cons b bs ih =>
    intro a o ms h
    by_cases hfit : b.used = false ∧ need ≤ b.size
    · rw [place, if_pos hfit] at h
      cases h
      refine ⟨taken b need, need_le_taken hfit.2, ?_⟩
      exact usedAt_take hfit.1 [] bs hal hlarge a
    · rw [place_skip hal hlarge hfit, Option.map_eq_some_iff] at h
      obtain ⟨⟨o', ms'⟩, hplace, heq⟩ := h
      cases heq
      obtain ⟨size, hsize, hperm⟩ := ih (a := a + (8 + b.size)) hplace
      rw [Nat.add_assoc] at hperm
      refine ⟨size, hsize, ?_⟩
      unfold usedAt
      split
      · exact (hperm.cons _).trans (List.Perm.swap _ _ _)
      · exact hperm

theorem merged_fit (a : Nat) (bs : List Block) : merged (fit need a bs).2 = merged bs := by
  fun_induction fit need a bs with
  | case1 => rfl
  | case2 a b bs hb r ih => simp only [merged_cons, ih, r]
  | case3 a b bs hb m hm =>
    have hb' : b.used = false := by simpa using hb
    rw [merged_absorb bs hb', merged_cons, push_fenced _ (fenced_absorb bs b).merged]
  | case4 a b bs hb m hm r ih =>
    have hb' : b.used = false := by simpa using hb
    dsimp only [r, m] at ih ⊢
    rw [merged_absorb bs hb', merged_cons, ih, push_fenced _ (fenced_absorb bs b).merged]

/-- A block in front that `place` passes over, before and after merging. -/
theorem place_push (h : ¬(b.used = false ∧ need ≤ b.size)) (hb : b.used = false → Fenced bs) :
    place need hal hlarge (merged (b :: bs))
      = (place need hal hlarge (merged bs)).map fun r => (8 + b.size + r.1, b :: r.2) := by
  have hpush : push b (merged bs) = b :: merged bs := by
    cases hu : b.used with
    | true => exact push_used hu _
    | false => exact push_fenced b (hb hu).merged
  rw [merged_cons, hpush, place_skip hal hlarge h]

/-- A split block keeps apart what is before it and what is behind it. -/
theorem merged_split (m : Block) (hys : Fenced bs) :
    merged (split m need hal hlarge ++ bs) = split m need hal hlarge ++ merged bs := by
  unfold split
  split
  · simp only [List.cons_append, List.nil_append, merged_cons]
    rw [push_fenced _ hys.merged, push_used rfl]
  · simp only [List.cons_append, List.nil_append, merged_cons]
    exact push_used rfl _

theorem fenced_split (m : Block) (bs : List Block) :
    Fenced (split m need hal hlarge ++ bs) := by
  unfold split
  split <;> exact fenced_cons.mpr rfl

/-- The search finds what the plain search finds in the merged list, and taking it there and here
are the same. -/
theorem fit_place (a : Nat) (bs : List Block) :
    ((fit need a bs).1 = none ∧ place need hal hlarge (merged bs) = none) ∨
      ∃ xs m ys, fit need a bs = (some (a + span xs), xs ++ m :: ys) ∧ m.used = false ∧
        need ≤ m.size ∧ place need hal hlarge (merged bs)
          = some (span xs, merged (xs ++ split m need hal hlarge ++ ys)) ∧
        (Fenced bs → Fenced (xs ++ split m need hal hlarge ++ ys)) := by
  fun_induction fit need a bs with
  | case1 => exact Or.inl ⟨rfl, rfl⟩
  | case2 a b bs hb r ih =>
    have hfenced : b.used = false → Fenced bs := fun h => by simp [hb] at h
    have hpush := place_push hal hlarge (b := b) (fun h => by simp [hb] at h) hfenced
    rcases ih with ⟨hnone, hplace⟩ | ⟨xs, m, ys, hfit, hm, hneed, hplace, _⟩
    · refine Or.inl ⟨hnone, ?_⟩
      rw [hpush, hplace, Option.map_none]
    · refine Or.inr ⟨b :: xs, m, ys, ?_, hm, hneed, ?_, fun _ => fenced_cons.mpr hb⟩
      · simp only [r, hfit, span_cons, List.cons_append, Prod.mk.injEq, Option.some.injEq, and_true]
        omega
      · rw [hpush, hplace, Option.map_some, List.cons_append, List.cons_append, merged_cons,
          push_used hb, span_cons]
  | case3 a b bs hb m hm =>
    have hb' : b.used = false := by simpa using hb
    have hfree : m.1.used = false := (used_absorb bs b).trans hb'
    refine Or.inr ⟨[], m.1, m.2, rfl, hfree, hm, ?_, fun _ => ?_⟩
    · rw [merged_absorb bs hb', place, if_pos ⟨hfree, hm⟩, List.nil_append,
        merged_split hal hlarge m.1 (fenced_absorb bs b), span_nil]
    · rw [List.nil_append]
      exact fenced_split hal hlarge m.1 _
  | case4 a b bs hb m hm r ih =>
    have hb' : b.used = false := by simpa using hb
    have hfence : Fenced m.2 := fenced_absorb bs b
    have hmerge : merged (b :: bs) = merged (m.1 :: m.2) := by
      rw [merged_absorb bs hb', merged_cons, push_fenced _ hfence.merged]
    have hpush := place_push hal hlarge (b := m.1) (fun h => hm h.2) (fun _ => hfence)
    rw [hmerge, hpush]
    rcases ih with ⟨hnone, hplace⟩ | ⟨xs, m', ys, hfit, hm', hneed, hplace, hhead⟩
    · refine Or.inl ⟨hnone, ?_⟩
      rw [hplace, Option.map_none]
    · refine Or.inr ⟨m.1 :: xs, m', ys, ?_, hm', hneed, ?_, fun hf => ?_⟩
      · simp only [r, hfit, span_cons, List.cons_append, Prod.mk.injEq, Option.some.injEq, and_true]
        omega
      · rw [hplace, Option.map_some, List.cons_append, List.cons_append, merged_cons,
          push_fenced _ (hhead hfence).merged, span_cons]
      · rw [fenced_cons.mp hf] at hb'
        cases hb'

end Place

/-! ## Clearing a flag -/

/-- The flag of the block at `q` cleared. -/
def clearAt (q : Nat) : Nat → List Block → List Block
  | _, [] => []
  | a, b :: bs =>
    if a = q then b.setUsed false :: bs else b :: clearAt q (a + (8 + b.size)) bs

theorem clearAt_here (a : Nat) (b : Block) (bs : List Block) :
    clearAt a a (b :: bs) = b.setUsed false :: bs := by
  rw [clearAt, if_pos rfl]

theorem clearAt_skip {q a : Nat} (h : a ≠ q) (b : Block) (bs : List Block) :
    clearAt q a (b :: bs) = b :: clearAt q (a + (8 + b.size)) bs := by
  rw [clearAt, if_neg h]

theorem clearAt_middle (xs : List Block) (b : Block) (ys : List Block) : ∀ a,
    clearAt (a + span xs) a (xs ++ b :: ys) = xs ++ b.setUsed false :: ys := by
  induction xs with
  | nil => exact fun a => clearAt_here a b ys
  | cons x xs ih =>
    intro a
    have := x.large
    rw [List.cons_append, clearAt_skip (by rw [span_cons]; omega), span_cons,
      show a + (8 + x.size + span xs) = a + (8 + x.size) + span xs from by omega, ih,
      List.cons_append]

/-- Clearing the flag of a block in use, before and after merging. -/
theorem merged_clearAt {q n : Nat} (bs : List Block) : ∀ a, (q, n) ∈ usedAt a bs →
    merged (clearAt q a (merged bs)) = merged (clearAt q a bs) := by
  induction bs with
  | nil => exact fun a _ => rfl
  | cons b bs ih =>
    intro a hq
    by_cases ha : a = q
    · subst ha
      have hb : b.used = true := by
        by_contra hb
        rw [usedAt_free (by simpa using hb)] at hq
        have := usedAt_bounds hq
        omega
      rw [merged_cons, push_used hb, clearAt_here, clearAt_here, merged_cons, merged_cons,
        merged_merged]
    · have hrest : (q, n) ∈ usedAt (a + (8 + b.size)) bs := by
        unfold usedAt at hq
        split at hq
        · refine (List.mem_cons.mp hq).resolve_left fun h => ha ?_
          cases h
          rfl
        · exact hq
      have hih := ih _ hrest
      rw [clearAt_skip ha, merged_cons, merged_cons, ← hih]
      rw [← usedAt_merged] at hrest
      cases hm : merged bs with
      | nil =>
        rw [push_fenced b fenced_nil, clearAt_skip ha, merged_cons]
      | cons c cs =>
        by_cases hfree : b.used = false ∧ c.used = false
        · -- the free block behind `b` is not the one at `q`
          have hne : a + (8 + b.size) ≠ q := fun h => by
            rw [hm, usedAt_free hfree.2] at hrest
            have := usedAt_bounds hrest
            omega
          rw [push_free hfree.1 hfree.2, clearAt_skip ha, clearAt_skip hne, merged_cons,
            push_join hfree.1 hfree.2, merged_cons,
            show a + (8 + (b.join c).size) = a + (8 + b.size) + (8 + c.size) from by
              simp only [Block.join]
              omega]
        · rw [push, if_neg hfree, clearAt_skip ha, merged_cons]

/-! ## Room at the end -/

section Extend

variable {n : Nat} (hal : n % 8 = 0) (hlarge : 16 ≤ n)

theorem extend_cons (b : Block) (h : bs ≠ []) :
    extend (b :: bs) n hal hlarge = b :: extend bs n hal hlarge := by
  obtain ⟨xs, c, rfl⟩ := (List.eq_nil_or_concat bs).resolve_left h
  rw [List.concat_eq_append, ← List.cons_append]
  cases hc : c.used with
  | true =>
    rw [extend_snoc_used hal hlarge _ hc, extend_snoc_used hal hlarge _ hc, List.cons_append]
  | false =>
    rw [extend_snoc_free hal hlarge _ hc, extend_snoc_free hal hlarge _ hc, List.cons_append]

theorem extend_one_used (hb : b.used = true) :
    extend [b] n hal hlarge = [b, room n hal hlarge] := extend_snoc_used hal hlarge [] hb

theorem extend_one_free (hb : b.used = false) : extend [b] n hal hlarge = [grown b n hal] :=
  extend_snoc_free hal hlarge [] hb

/-- The first block stays, or it is the last one and grows. -/
theorem extend_head (c : Block) (cs : List Block) :
    ∃ d ds, extend (c :: cs) n hal hlarge = d :: ds ∧ d.used = c.used := by
  cases cs with
  | nil =>
    cases hc : c.used with
    | true => exact ⟨_, _, extend_one_used hal hlarge hc, hc⟩
    | false => exact ⟨_, _, extend_one_free hal hlarge hc, hc⟩
  | cons d ds => exact ⟨_, _, extend_cons hal hlarge c (by simp), rfl⟩

theorem push_extend (b : Block) (h : ms ≠ []) :
    extend (push b ms) n hal hlarge = push b (extend ms n hal hlarge) := by
  obtain ⟨c, cs, rfl⟩ := List.exists_cons_of_ne_nil h
  obtain ⟨d, ds, hext, hd⟩ := extend_head hal hlarge c cs
  by_cases hfree : b.used = false ∧ c.used = false
  · rw [push_free hfree.1 hfree.2]
    cases cs with
    | nil =>
      rw [extend_one_free hal hlarge hfree.2,
        extend_one_free (b := b.join c) hal hlarge hfree.1,
        push_free (c := grown c n hal) hfree.1 hfree.2]
      simp only [grown, Block.join, List.cons.injEq, Block.mk.injEq, and_true]
      omega
    | cons e es =>
      have hne : e :: es ≠ [] := List.cons_ne_nil e es
      rw [extend_cons hal hlarge _ hne, extend_cons hal hlarge _ hne, push_free hfree.1 hfree.2]
  · rw [push, if_neg hfree, extend_cons hal hlarge b h, hext, push,
      if_neg (by rw [hd]; exact hfree)]

theorem merged_ne_nil (h : bs ≠ []) : merged bs ≠ [] := fun hm => by
  have hspan := span_merged bs
  obtain ⟨b, bs, rfl⟩ := List.exists_cons_of_ne_nil h
  rw [hm, span_nil, span_cons] at hspan
  omega

/-- Adding room, before and after merging. -/
theorem merged_extend (bs : List Block) :
    merged (extend bs n hal hlarge) = extend (merged bs) n hal hlarge := by
  induction bs with
  | nil => rfl
  | cons b bs ih =>
    by_cases hbs : bs = []
    · subst hbs
      cases hb : b.used with
      | true =>
        rw [extend_one_used hal hlarge hb, merged_one, extend_one_used hal hlarge hb, merged_cons,
          merged_one, push_used hb]
      | false =>
        rw [extend_one_free hal hlarge hb, merged_one, merged_one, extend_one_free hal hlarge hb]
    · rw [extend_cons hal hlarge b hbs, merged_cons, merged_cons, ih,
        push_extend hal hlarge b (merged_ne_nil hbs)]

/-- Adding room and merging is adding a free block and merging. -/
theorem merged_snoc_room (bs : List Block) :
    merged (bs ++ [room n hal hlarge]) = merged (extend bs n hal hlarge) := by
  induction bs with
  | nil => rfl
  | cons b bs ih =>
    by_cases hbs : bs = []
    · subst hbs
      cases hb : b.used with
      | true => rw [extend_one_used hal hlarge hb, List.cons_append, List.nil_append]
      | false =>
        rw [extend_one_free hal hlarge hb, List.cons_append, List.nil_append, merged_cons,
          merged_one, merged_one, push_free hb rfl]
        simp only [Block.join, grown, room, List.cons.injEq, Block.mk.injEq, and_true]
        omega
    · rw [extend_cons hal hlarge b hbs, List.cons_append, merged_cons, merged_cons, ih]

/-- New room of `n` bytes holds a block of `n - 8`. -/
theorem freeAt_extend (bs : List Block) : ∀ a, ∃ q m, (q, m) ∈ freeAt a (extend bs n hal hlarge) ∧
    n ≤ m + 8 := by
  induction bs with
  | nil => exact fun a => ⟨a, n - 8, List.mem_cons_self, by omega⟩
  | cons b bs ih =>
    intro a
    by_cases hbs : bs = []
    · subst hbs
      cases hb : b.used with
      | true =>
        rw [extend_one_used hal hlarge hb, freeAt, if_pos hb]
        exact ⟨_, n - 8, List.mem_cons_self, by omega⟩
      | false =>
        rw [extend_one_free hal hlarge hb, freeAt, if_neg (by simp [grown, hb])]
        exact ⟨a, b.size + n, List.mem_cons_self, by omega⟩
    · obtain ⟨q, m, hq, hm⟩ := ih (a + (8 + b.size))
      rw [extend_cons hal hlarge b hbs]
      unfold freeAt
      split
      · exact ⟨q, m, hq, hm⟩
      · exact ⟨q, m, List.mem_cons_of_mem _ hq, hm⟩

end Extend

/-- The first block keeps its flag. -/
theorem push_head (b : Block) (ms : List Block) :
    ∃ c cs, push b ms = c :: cs ∧ c.used = b.used := by
  unfold push
  split
  · exact ⟨b, [], rfl, rfl⟩
  · split
    · exact ⟨_, _, rfl, rfl⟩
    · exact ⟨b, _, rfl, rfl⟩

theorem push_length_le (b : Block) (ms : List Block) : (push b ms).length ≤ ms.length + 1 := by
  unfold push
  split
  · exact Nat.le_refl 1
  · split <;> simp

theorem merged_length_le (bs : List Block) : (merged bs).length ≤ bs.length := by
  induction bs with
  | nil => exact Nat.le_refl 0
  | cons b bs ih =>
    have hpush := push_length_le b (merged bs)
    rw [merged_cons, List.length_cons]
    omega

/-! ## The free end -/

/-- Where the last block starts if it is free, and else where the blocks end. -/
def topAt (a : Nat) (bs : List Block) : Nat :=
  match bs.getLast? with
  | some b => if b.used then a + span bs else a + span bs.dropLast
  | none => a

theorem topAt_nil (a : Nat) : topAt a [] = a := rfl

theorem topAt_snoc_used (a : Nat) (xs : List Block) (hb : b.used = true) :
    topAt a (xs ++ [b]) = a + span (xs ++ [b]) := by
  simp [topAt, hb]

theorem topAt_snoc_free (a : Nat) (xs : List Block) (hb : b.used = false) :
    topAt a (xs ++ [b]) = a + span xs := by
  simp [topAt, hb]

theorem topAt_one (a : Nat) (hb : b.used = false) : topAt a [b] = a := by
  simp [topAt, hb]

theorem topAt_cons (a : Nat) (b : Block) (h : bs ≠ []) :
    topAt a (b :: bs) = topAt (a + (8 + b.size)) bs := by
  obtain ⟨xs, c, rfl⟩ := (List.eq_nil_or_concat bs).resolve_left h
  rw [List.concat_eq_append, ← List.cons_append]
  cases hc : c.used with
  | true =>
    rw [topAt_snoc_used _ _ hc, topAt_snoc_used _ _ hc, List.cons_append, span_cons]
    omega
  | false =>
    rw [topAt_snoc_free _ _ hc, topAt_snoc_free _ _ hc, span_cons]
    omega

theorem le_topAt (a : Nat) (bs : List Block) : a ≤ topAt a bs := by
  unfold topAt
  split
  · split <;> omega
  · exact Nat.le_refl a

theorem topAt_le (a : Nat) (bs : List Block) : topAt a bs ≤ a + span bs := by
  rcases List.eq_nil_or_concat bs with rfl | ⟨xs, b, rfl⟩
  · rw [topAt_nil]
    omega
  · rw [List.concat_eq_append]
    cases hb : b.used with
    | true => exact Nat.le_of_eq (topAt_snoc_used _ _ hb)
    | false =>
      rw [topAt_snoc_free _ _ hb, span_append]
      omega

/-- The blocks in use end below the free end. -/
theorem usedAt_le_topAt {a q n : Nat} (h : (q, n) ∈ usedAt a bs) : q + 8 + n ≤ topAt a bs := by
  rcases List.eq_nil_or_concat bs with rfl | ⟨xs, b, rfl⟩
  · cases h
  · rw [List.concat_eq_append] at h ⊢
    cases hb : b.used with
    | true =>
      rw [topAt_snoc_used _ _ hb]
      exact (usedAt_bounds h).2
    | false =>
      rw [usedAt_append, usedAt_free hb] at h
      rw [topAt_snoc_free _ _ hb]
      exact (usedAt_bounds ((List.mem_append.mp h).resolve_right List.not_mem_nil)).2

theorem Separate.append_right (xs : List Block) (h : Separate (xs ++ bs)) : Separate bs := by
  induction xs with
  | nil => exact h
  | cons x xs ih => exact ih h.2

/-- The block in front of a maximal free end is in use. -/
theorem Separate.exists_used {a : Nat} (h : Separate bs) (ha : a < topAt a bs) :
    ∃ q n, (q, n) ∈ usedAt a bs ∧ q + 8 + n = topAt a bs := by
  rcases List.eq_nil_or_concat bs with rfl | ⟨xs, b, rfl⟩
  · rw [topAt_nil] at ha
    omega
  rw [List.concat_eq_append] at h ha ⊢
  cases hb : b.used with
  | true =>
    refine ⟨a + span xs, b.size, mem_usedAt.mpr ⟨xs, b, [], rfl, rfl, hb, rfl⟩, ?_⟩
    rw [topAt_snoc_used _ _ hb, span_append, span_cons, span_nil]
    omega
  | false =>
    rw [topAt_snoc_free _ _ hb] at ha ⊢
    rcases List.eq_nil_or_concat xs with rfl | ⟨ys, d, rfl⟩
    · rw [span_nil] at ha
      omega
    rw [List.concat_eq_append] at h ⊢
    have hd : d.used = true := by
      rw [List.append_assoc] at h
      by_contra hd
      have hfence : Fenced [b] := (Separate.append_right ys h).1 (by simpa using hd)
      rw [fenced_cons, hb] at hfence
      cases hfence
    refine ⟨a + span ys, d.size, mem_usedAt.mpr ⟨ys, d, [b], ?_, rfl, hd, rfl⟩, ?_⟩
    · rw [List.append_assoc]
      rfl
    · rw [span_append, span_cons, span_nil]
      omega

/-- Merging moves the start of the free end down by whole blocks. -/
theorem topAt_merged (bs : List Block) : ∀ a,
    topAt a (merged bs) = topAt a bs ∨ topAt a (merged bs) + 16 ≤ topAt a bs := by
  induction bs with
  | nil => exact fun a => Or.inl rfl
  | cons b bs ih =>
    intro a
    by_cases hbs : bs = []
    · subst hbs
      exact Or.inl rfl
    have hstep : topAt a (push b (merged bs)) = topAt (a + (8 + b.size)) (merged bs) ∨
        topAt a (push b (merged bs)) = a ∧
          topAt (a + (8 + b.size)) (merged bs) = a + (8 + b.size) := by
      obtain ⟨c, cs, hm⟩ := List.exists_cons_of_ne_nil (merged_ne_nil hbs)
      rw [hm]
      by_cases hfree : b.used = false ∧ c.used = false
      · rw [push_free hfree.1 hfree.2]
        by_cases hcs : cs = []
        · subst hcs
          exact Or.inr ⟨topAt_snoc_free (b := b.join c) a [] hfree.1, topAt_snoc_free _ [] hfree.2⟩
        · rw [topAt_cons a _ hcs, topAt_cons _ c hcs]
          refine Or.inl (congrArg (topAt · cs) ?_)
          simp only [Block.join]
          omega
      · rw [push, if_neg hfree, topAt_cons a b (by simp)]
        exact Or.inl rfl
    have hb := b.large
    rw [topAt_cons a b hbs, merged_cons]
    have hrec := ih (a + (8 + b.size))
    omega

end Lib.Blocks
