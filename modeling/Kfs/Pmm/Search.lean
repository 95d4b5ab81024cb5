import Mathlib.Order.Bounds.Basic
import Kfs.Pmm.Refine

/-!
# The search for contiguous frames

`find_run` and `largest_run` are two loops over the same map.  `Scanned` is the invariant of the
second one, and `findRun_isSome_iff` says that the two agree.  `carve` halves its size until it is
not above `largest_run`: `carveFrom_some` and `carveFrom_none` follow its loop, and `search_exact`
puts the four functions together.
-/

namespace Kfs.Pmm

open Mem

variable {p : Pmm}

/-! ## The longest run -/

theorem IsRun.mono {b n m : Nat} (h : p.IsRun b n) (hm : m ≤ n) : p.IsRun b m := by
  intro k hlo hhi
  exact h k hlo (by omega)

theorem isRun_zero (b : Nat) : p.IsRun b 0 := by
  intro k hlo hhi
  omega

theorem IsRun.snoc {b n : Nat} (h : p.IsRun b n) (hfree : b + n ∈ p.frames) :
    p.IsRun b (n + 1) := by
  intro k hlo hhi
  rcases Nat.lt_or_ge k (b + n) with hk | hk
  · exact h k hlo hk
  · rwa [show k = b + n from by omega]

/-- What `largest_run` knows when it comes to `frame`: `run` free frames are right below it and no
more, and `best` is the length of the longest run below it. -/
structure Scanned (p : Pmm) (frame best run : Nat) : Prop where
  below : run ≤ frame
  free : p.IsRun (frame - run) run
  stop : ∀ b n, b + n = frame → p.IsRun b n → n ≤ run
  found : ∃ b, b + best ≤ frame ∧ p.IsRun b best
  most : ∀ b n, b + n ≤ frame → p.IsRun b n → n ≤ best

theorem scanned_zero : p.Scanned 0 0 0 where
  below := Nat.le_refl 0
  free := isRun_zero 0
  stop := by
    intro b n hn _
    omega
  found := ⟨0, Nat.le_refl 0, isRun_zero 0⟩
  most := by
    intro b n hn _
    omega

/-- A free frame makes the run right below it longer. -/
theorem Scanned.step_free {frame best run : Nat} (h : p.Scanned frame best run)
    (hfree : frame ∈ p.frames) :
    p.Scanned (frame + 1) (if run + 1 > best then run + 1 else best) (run + 1) := by
  have hrun : p.IsRun (frame - run) (run + 1) := by
    apply h.free.snoc
    rwa [Nat.sub_add_cancel h.below]
  have hstop : ∀ b n, b + n = frame + 1 → p.IsRun b n → n ≤ run + 1 := by
    intro b n hn hbn
    cases n with
    | zero => omega
    | succ n =>
      have := h.stop b n (by omega) (hbn.mono (Nat.le_succ n))
      omega
  have hmost : ∀ b n, b + n ≤ frame + 1 → p.IsRun b n → n ≤ best ∨ n ≤ run + 1 := by
    intro b n hn hbn
    rcases Nat.lt_or_ge frame (b + n) with hlast | hlast
    · exact Or.inr (hstop b n (by omega) hbn)
    · exact Or.inl (h.most b n hlast hbn)
  refine ⟨Nat.succ_le_succ h.below, by rwa [Nat.add_sub_add_right], hstop, ?_, ?_⟩
  · split
    · exact ⟨frame - run, by have := h.below; omega, hrun⟩
    · obtain ⟨b, hb, hbest⟩ := h.found
      exact ⟨b, by omega, hbest⟩
  · intro b n hn hbn
    have := hmost b n hn hbn
    split <;> omega

/-- No run goes over a used frame. -/
theorem Scanned.step_used {frame best run : Nat} (h : p.Scanned frame best run)
    (hused : frame ∉ p.frames) : p.Scanned (frame + 1) best 0 := by
  have hover : ∀ b n, b + n = frame + 1 → p.IsRun b n → n = 0 := by
    intro b n hn hbn
    by_contra hpos
    exact hused (hbn frame (by omega) (by omega))
  refine ⟨Nat.zero_le _, isRun_zero _, ?_, ?_, ?_⟩
  · intro b n hn hbn
    exact Nat.le_of_eq (hover b n hn hbn)
  · obtain ⟨b, hb, hbest⟩ := h.found
    exact ⟨b, by omega, hbest⟩
  · intro b n hn hbn
    rcases Nat.lt_or_ge frame (b + n) with hlast | hlast
    · rw [hover b n (by omega) hbn]
      exact Nat.zero_le _
    · exact h.most b n hlast hbn

/-- The loop of `largest_run` ends with the longest run below the frame it ends at. -/
theorem Scanned.largestRunFrom (n : Nat) : ∀ {frame best run}, p.Scanned frame best run →
    ∃ run', p.Scanned (frame + n) (p.largestRunFrom frame n best run) run' := by
  induction n with
  | zero => exact fun h => ⟨_, h⟩
  | succ n ih =>
    intro frame best run h
    rw [Pmm.largestRunFrom, show frame + (n + 1) = frame + 1 + n from by omega]
    split
    · rename_i hbit
      exact ih (h.step_free (mem_frames.mpr hbit))
    · rename_i hbit
      exact ih (h.step_used fun hmem => hbit (mem_frames.mp hmem))

/-- There is a run of `n` frames exactly when `largest_run` is not below `n`. -/
theorem exists_isRun_iff {n : Nat} : (∃ b, p.IsRun b n) ↔ n ≤ p.largestRun := by
  obtain ⟨run, h⟩ := scanned_zero.largestRunFrom (p := p) MAX_FRAMES
  rw [Nat.zero_add] at h
  constructor
  · rintro ⟨b, hb⟩
    cases n with
    | zero => exact Nat.zero_le _
    | succ n => exact h.most b (n + 1) (hb.add_le (Nat.succ_pos n)) hb
  · intro hn
    obtain ⟨b, _, hb⟩ := h.found
    exact ⟨b, hb.mono hn⟩

/-! ## First fit -/

theorem findRun_eq_some_iff {n b : Nat} :
    p.findRun n = some b ↔ 1 ≤ n ∧ IsLeast {b | p.IsRun b n} b := by
  rcases findRun_spec p n with ⟨b', hb', hn, hrun, hmin⟩ | ⟨hnone, hall⟩
  · have hleast : IsLeast {b | p.IsRun b n} b' := by
      refine ⟨hrun, fun c hc => ?_⟩
      by_contra hlt
      exact hmin c (by omega) hc
    rw [hb', Option.some.injEq]
    constructor
    · rintro rfl
      exact ⟨hn, hleast⟩
    · exact fun h => hleast.unique h.2
  · rw [hnone]
    constructor
    · intro h
      cases h
    · rintro ⟨hn, hb, _⟩
      rcases hall with hzero | hall
      · omega
      · exact absurd hb (hall b)

theorem findRun_isSome_iff {n : Nat} :
    (p.findRun n).isSome = true ↔ 1 ≤ n ∧ n ≤ p.largestRun := by
  rw [← exists_isRun_iff]
  rcases findRun_spec p n with ⟨b, hb, hn, hrun, _⟩ | ⟨hnone, hall⟩
  · rw [hb]
    exact ⟨fun _ => ⟨hn, b, hrun⟩, fun _ => rfl⟩
  · rw [hnone]
    constructor
    · intro h
      cases h
    · rintro ⟨hn, b, hb⟩
      rcases hall with hzero | hall
      · omega
      · exact absurd hb (hall b)

theorem largestRun_lt {n : Nat} (h : p.findRun n = none) (hn : 1 ≤ n) : p.largestRun < n := by
  by_contra hfit
  have hsome := findRun_isSome_iff.mpr ⟨hn, Nat.le_of_not_lt hfit⟩
  rw [h] at hsome
  cases hsome

/-! ## Halving -/

/-- The first of `pages`, its half, its quarter and so on that is not above the longest run, if it
is sixteen at least. -/
def Halved (p : Pmm) (pages m : Nat) : Prop :=
  ∃ i, m = pages / 2 ^ i ∧ 16 ≤ m ∧ m ≤ p.largestRun ∧ ∀ j, j < i → p.largestRun < pages / 2 ^ j

theorem div_two_pow_succ (pages i : Nat) : pages / 2 / 2 ^ i = pages / 2 ^ (i + 1) := by
  rw [Nat.div_div_eq_div_mul, Nat.pow_succ, Nat.mul_comm]

theorem Halved.double {pages m : Nat} (h : p.Halved (pages / 2) m)
    (habove : p.largestRun < pages) : p.Halved pages m := by
  obtain ⟨i, hm, h16, hle, hbefore⟩ := h
  refine ⟨i + 1, by rw [hm, div_two_pow_succ], h16, hle, fun j hj => ?_⟩
  cases j with
  | zero => simpa using habove
  | succ j =>
    rw [← div_two_pow_succ]
    exact hbefore j (by omega)

/-- The loop of `carve` takes the lowest run of the first size that there is. -/
theorem carveFrom_some (fuel : Nat) : ∀ {pages : Nat} {r : U32 × U32} {p' : Pmm},
    carveFrom fuel pages p = (some r, p') →
    ∃ m b, p.Halved pages m ∧ m ≤ pages ∧ IsLeast {b | p.IsRun b m} b ∧
      r = (addressOf b, addressOf b + BitVec.ofNat 32 m * PAGE_SIZE) ∧ p' = useFrames b m p := by
  induction fuel with
  | zero =>
    intro pages r p' h
    cases h
  | succ fuel ih =>
    intro pages r p' h
    rw [carveFrom, allocRange] at h
    split at h
    · rename_i h16
      cases hfind : p.findRun pages with
      | some b =>
        rw [hfind] at h
        cases h
        have hfit := findRun_isSome_iff.mp (by rw [hfind]; rfl)
        exact ⟨pages, b, ⟨0, by simp, h16, hfit.2, fun _ hj => absurd hj (Nat.not_lt_zero _)⟩,
          Nat.le_refl _, (findRun_eq_some_iff.mp hfind).2, rfl, rfl⟩
      | none =>
        rw [hfind] at h
        obtain ⟨m, b, hm, hle, hb, hr, hp⟩ := ih h
        exact ⟨m, b, hm.double (largestRun_lt hfind (by omega)), by omega, hb, hr, hp⟩
    · cases h

/-- The loop of `carve` gives up when no size is left, and leaves the map alone. -/
theorem carveFrom_none (fuel : Nat) : ∀ {pages : Nat} {p' : Pmm},
    pages < fuel → carveFrom fuel pages p = (none, p') →
    p' = p ∧ ∀ i, 16 ≤ pages / 2 ^ i → p.largestRun < pages / 2 ^ i := by
  induction fuel with
  | zero =>
    intro pages p' hfuel
    omega
  | succ fuel ih =>
    intro pages p' hfuel h
    rw [carveFrom, allocRange] at h
    split at h
    · rename_i h16
      cases hfind : p.findRun pages with
      | some b =>
        rw [hfind] at h
        cases h
      | none =>
        rw [hfind] at h
        obtain ⟨hp, hall⟩ := ih (by omega) h
        refine ⟨hp, fun i hi => ?_⟩
        cases i with
        | zero =>
          rw [Nat.pow_zero, Nat.div_one] at hi ⊢
          exact largestRun_lt hfind (by omega)
        | succ i =>
          rw [← div_two_pow_succ] at hi ⊢
          exact hall i hi
    · cases h
      refine ⟨rfl, fun i hi => ?_⟩
      have := Nat.div_le_self pages (2 ^ i)
      omega

/-! ## The four functions -/

/-- The two ends that `carve` returns are the addresses of a run, in 32-bit arithmetic. -/
theorem carved_ends {b m : Nat} (hb : b < MAX_FRAMES) (hm : m < MAX_FRAMES) :
    (addressOf b).toNat = 4096 * b ∧
      (addressOf b + BitVec.ofNat 32 m * PAGE_SIZE - addressOf b).toNat = 4096 * m := by
  refine ⟨toNat_addressOf hb, ?_⟩
  rw [maxFrames_eq] at hm
  rw [BitVec.add_comm, BitVec.add_sub_cancel, BitVec.toNat_mul, BitVec.toNat_ofNat,
    show PAGE_SIZE.toNat = 4096 from rfl]
  omega

/-- For every bitmap: `find_run` is first fit and complete, it agrees with `largest_run`, and
`carve` takes the lowest run of the first size that there is, or nothing. -/
theorem search_exact (p : Pmm) :
    (∀ n b, p.findRun n = some b ↔ 1 ≤ n ∧ IsLeast {b | p.IsRun b n} b) ∧
    (∀ n, (p.findRun n).isSome = true ↔ 1 ≤ n ∧ ∃ b, p.IsRun b n) ∧
    (∀ n, (p.findRun n).isSome = true ↔ 1 ≤ n ∧ n ≤ p.largestRun) ∧
    ∀ size : U32,
      (∀ b e, (p.carve size).1 = some (b, e) → ∃ m k, p.Halved (size.toNat / 4096) m ∧
        IsLeast {b | p.IsRun b m} k ∧ b.toNat = 4096 * k ∧ (e - b).toNat = 4096 * m ∧
        (p.carve size).2.frames = p.frames \ Finset.Ico k (k + m)) ∧
      ((p.carve size).1 = none ↔
        ∀ i, 16 ≤ size.toNat / 4096 / 2 ^ i → p.largestRun < size.toNat / 4096 / 2 ^ i) ∧
      ((p.carve size).1 = none → (p.carve size).2 = p) := by
  refine ⟨fun n b => findRun_eq_some_iff, fun n => ?_, fun n => findRun_isSome_iff, fun size => ?_⟩
  · rw [exists_isRun_iff]
    exact findRun_isSome_iff
  have hpages : (size / PAGE_SIZE).toNat = size.toNat / 4096 := by
    rw [BitVec.toNat_udiv, show PAGE_SIZE.toNat = 4096 from rfl]
  have hlt : size.toNat / 4096 < MAX_FRAMES := by
    have := size.isLt
    rw [maxFrames_eq]
    omega
  rw [carve, hpages]
  rcases hcarve : carveFrom (size.toNat / 4096 + 1) (size.toNat / 4096) p with ⟨_ | r, p'⟩
  · obtain ⟨hp, hall⟩ := carveFrom_none _ (Nat.lt_succ_self _) hcarve
    exact ⟨fun b e h => (by cases h), ⟨fun _ => hall, fun _ => rfl⟩, fun _ => hp⟩
  · obtain ⟨m, k, hm, hle, hk, rfl, rfl⟩ := carveFrom_some _ hcarve
    obtain ⟨i, hi, h16, hfit, _⟩ := id hm
    have hend := hk.1.add_le (by omega)
    obtain ⟨hstart, hlength⟩ := carved_ends (b := k) (m := m) (by omega) (by omega)
    refine ⟨?_, ⟨fun h => (by cases h), fun hall => ?_⟩, fun h => (by cases h)⟩
    · intro b e h
      cases h
      exact ⟨m, k, hm, hk, hstart, hlength, frames_useFrames _ _ _⟩
    · have := hall i (by omega)
      omega

end Kfs.Pmm
