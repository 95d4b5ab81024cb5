import Mathlib.Order.Interval.Finset.Nat
import Kfs.Pmm

/-!
# The frame allocator as a finite set

`Pmm.frames` is the set of the frames whose bit is set.  Every operation of the allocator is an
operation on that set, and `Counted` says that `AVAILABLE` is its size.

There are four groups.

* One bit.  `frames_setFree` and `frames_setUsed` say that the two bit operations insert and
  erase one frame, and `Counted.setFree` and `Counted.setUsed` that the counter follows.
* The loops over a range of frames, `initFrames` and `useFrames`.
* The search for one frame.  `allocFrom_spec` follows the scan over the words.
* The search for a run.  `findRun_spec` says that `find_run` returns the lowest run and gives up
  only when there is none.
-/

namespace Kfs.Pmm

open Mem Multiboot

/-! ## Addresses and frame numbers -/

theorem maxFrames_eq : MAX_FRAMES = 1048576 := rfl

theorem frameOf_eq (phys : U32) : frameOf phys = phys.toNat / 4096 :=
  Lib.Word.toNat_shiftRight phys 12

theorem frameOf_lt (phys : U32) : frameOf phys < MAX_FRAMES := by
  have h := phys.isLt
  rw [frameOf_eq, maxFrames_eq]
  omega

theorem toNat_addressOf {frame : Nat} (h : frame < MAX_FRAMES) :
    (addressOf frame).toNat = 4096 * frame := by
  rw [maxFrames_eq] at h
  rw [addressOf, BitVec.toNat_shiftLeft, BitVec.toNat_ofNat, Nat.shiftLeft_eq,
    show 2 ^ PAGE_SHIFT = 4096 from rfl]
  omega

/-! ## One bit -/

/-- The frames whose bit is set. -/
def frames (p : Pmm) : Finset Nat := Lib.Bitmap.members p.free MAX_FRAMES

theorem mem_frames {p : Pmm} {k : Nat} : k ∈ p.frames ↔ p.freeBit k = true := by
  simp [frames, freeBit]

theorem not_mem_frames {p : Pmm} {k : Nat} : k ∉ p.frames ↔ p.freeBit k = false := by
  rw [mem_frames, Bool.not_eq_true]

theorem lt_of_mem_frames {p : Pmm} {k : Nat} (h : k ∈ p.frames) : k < MAX_FRAMES := by
  simp only [frames, Lib.Bitmap.mem_members] at h
  exact h.1

theorem card_frames_le (p : Pmm) : p.frames.card ≤ MAX_FRAMES := by
  have h : p.frames ⊆ Finset.range MAX_FRAMES := Finset.filter_subset _ _
  simpa using Finset.card_le_card h

@[simp] theorem frames_zero : zero.frames = ∅ := by
  ext k
  simp [frames, zero, Lib.Bitmap.test]

/-- `AVAILABLE` is the number of set bits. -/
def Counted (p : Pmm) : Prop := p.available.toNat = p.frames.card

theorem counted_zero : zero.Counted := by
  rw [Counted, frames_zero]
  rfl

theorem frames_setFree (p : Pmm) {k : Nat} (hk : k < MAX_FRAMES) :
    (p.setFree k).frames = insert k p.frames := by
  unfold setFree
  split
  · rename_i h
    rcases h with h | h
    · exact absurd hk (by omega)
    · exact (Finset.insert_eq_of_mem (mem_frames.mpr h)).symm
  · exact Lib.Bitmap.members_set (by decide) p.free hk

theorem setFree_eq_self {p : Pmm} {k : Nat} (h : k ∈ p.frames) : p.setFree k = p := by
  rw [setFree, if_pos (Or.inr (mem_frames.mp h))]

theorem frames_setUsed (p : Pmm) (k : Nat) : (p.setUsed k).frames = p.frames.erase k := by
  unfold setUsed
  split
  · rename_i h
    rw [Finset.erase_eq_of_notMem]
    rcases h with h | h
    · exact fun hm => absurd (lt_of_mem_frames hm) (by omega)
    · exact not_mem_frames.mpr h
  · exact Lib.Bitmap.members_clear (by decide) p.free MAX_FRAMES k

/-- Freeing a frame undoes taking it: the bit and the counter are what they were. -/
theorem setFree_setUsed {p : Pmm} {k : Nat} (h : k ∈ p.frames) :
    (p.setUsed k).setFree k = p := by
  have hlt := lt_of_mem_frames h
  have hbit : p.freeBit k = true := mem_frames.mp h
  have hused : p.setUsed k
      = { p with free := Lib.Bitmap.clear p.free k, available := p.available - 1 } := by
    rw [setUsed, if_neg]
    rw [hbit]
    simp only [Bool.true_eq_false, or_false]
    omega
  have hnew : (p.setUsed k).freeBit k = false := by
    rw [← not_mem_frames, frames_setUsed]
    exact Finset.notMem_erase k _
  rw [setFree, if_neg (by rw [hnew]; simp only [Bool.false_eq_true, or_false]; omega), hused]
  have htest : Lib.Bitmap.test p.free k = true := (Lib.Bitmap.mem_members.mp h).2
  show { p with free := _, available := p.available - 1 + 1 } = p
  rw [Lib.Bitmap.set_clear (by decide) htest, BitVec.sub_add_cancel]

theorem Counted.setFree {p : Pmm} (h : p.Counted) (k : Nat) : (p.setFree k).Counted := by
  unfold Pmm.setFree
  split
  · exact h
  · rename_i hk
    obtain ⟨hlt, hbit⟩ := not_or.mp hk
    have hnew : k ∉ p.frames := fun hm => hbit (mem_frames.mp hm)
    have hset : (Lib.Bitmap.members (Lib.Bitmap.set p.free k) MAX_FRAMES).card
        = p.frames.card + 1 := by
      rw [Lib.Bitmap.members_set (by decide) p.free (by omega)]
      exact Finset.card_insert_of_notMem hnew
    have hle := p.card_frames_le
    rw [maxFrames_eq] at hle
    show (p.available + 1).toNat
      = (Lib.Bitmap.members (Lib.Bitmap.set p.free k) MAX_FRAMES).card
    rw [hset, BitVec.toNat_add, h, show (1 : U32).toNat = 1 from rfl]
    omega

/-- The counter does not go below zero: a frame that is marked used was counted. -/
theorem Counted.setUsed {p : Pmm} (h : p.Counted) (k : Nat) : (p.setUsed k).Counted := by
  unfold Pmm.setUsed
  split
  · exact h
  · rename_i hk
    obtain ⟨_, hbit⟩ := not_or.mp hk
    have hold : k ∈ p.frames := mem_frames.mpr (by simpa using hbit)
    have hpos : 0 < p.frames.card := Finset.card_pos.mpr ⟨k, hold⟩
    have hset : (Lib.Bitmap.members (Lib.Bitmap.clear p.free k) MAX_FRAMES).card
        = p.frames.card - 1 := by
      rw [Lib.Bitmap.members_clear (by decide)]
      exact Finset.card_erase_of_mem hold
    have hle := p.card_frames_le
    rw [maxFrames_eq] at hle
    show (p.available - 1).toNat
      = (Lib.Bitmap.members (Lib.Bitmap.clear p.free k) MAX_FRAMES).card
    rw [hset, BitVec.toNat_sub, h, show (1 : U32).toNat = 1 from rfl]
    omega

@[simp] theorem total_setFree (p : Pmm) (k : Nat) : (p.setFree k).total = p.total := by
  unfold setFree
  split <;> rfl

@[simp] theorem total_setUsed (p : Pmm) (k : Nat) : (p.setUsed k).total = p.total := by
  unfold setUsed
  split <;> rfl

/-! ## A range of frames -/

theorem frames_useFrames (n : Nat) : ∀ (frame : Nat) (p : Pmm),
    (useFrames frame n p).frames = p.frames \ Finset.Ico frame (frame + n) := by
  induction n with
  | zero =>
    intro frame p
    simp [useFrames]
  | succ n ih =>
    intro frame p
    rw [useFrames, ih, frames_setUsed]
    ext k
    simp only [Finset.mem_sdiff, Finset.mem_erase, Finset.mem_Ico]
    constructor
    · rintro ⟨⟨hne, hm⟩, hk⟩
      exact ⟨hm, by omega⟩
    · rintro ⟨hm, hk⟩
      exact ⟨⟨by omega, hm⟩, by omega⟩

theorem Counted.useFrames (n : Nat) : ∀ (frame : Nat) {p : Pmm},
    p.Counted → (useFrames frame n p).Counted := by
  induction n with
  | zero => exact fun _ _ h => h
  | succ n ih => exact fun frame _ h => ih (frame + 1) (h.setUsed frame)

theorem total_useFrames (n : Nat) : ∀ (frame : Nat) (p : Pmm),
    (useFrames frame n p).total = p.total := by
  induction n with
  | zero => exact fun _ _ => rfl
  | succ n ih =>
    intro frame p
    rw [useFrames, ih, total_setUsed]

/-- One pass of the loop of `init`. -/
theorem initFrames_succ {frame : Nat} (n : Nat) (p : Pmm) (h : frame < MAX_FRAMES) :
    initFrames frame (n + 1) p = initFrames (frame + 1) n
      (if p.freeBit frame = false then { p with total := p.total + 1 }.setFree frame else p) := by
  rw [initFrames, if_neg (by omega)]

/-- The pass inserts the frame, whether its bit was set or not. -/
theorem frames_initStep {p : Pmm} {frame : Nat} (h : frame < MAX_FRAMES) :
    (if p.freeBit frame = false then { p with total := p.total + 1 }.setFree frame
      else p).frames = insert frame p.frames := by
  split
  · exact frames_setFree { p with total := p.total + 1 } h
  · rename_i hbit
    exact (Finset.insert_eq_of_mem (mem_frames.mpr (by simpa using hbit))).symm

theorem frames_initFrames (n : Nat) : ∀ (frame : Nat) (p : Pmm), frame + n ≤ MAX_FRAMES →
    (initFrames frame n p).frames = p.frames ∪ Finset.Ico frame (frame + n) := by
  induction n with
  | zero =>
    intro frame p _
    simp [initFrames]
  | succ n ih =>
    intro frame p hle
    rw [initFrames_succ n p (by omega), ih (frame + 1) _ (by omega), frames_initStep (by omega)]
    ext k
    simp only [Finset.mem_union, Finset.mem_insert, Finset.mem_Ico]
    constructor
    · rintro ((rfl | hm) | hk)
      · exact Or.inr (by omega)
      · exact Or.inl hm
      · exact Or.inr (by omega)
    · rintro (hm | hk)
      · exact Or.inl (Or.inr hm)
      · by_cases hkf : k = frame
        · exact Or.inl (Or.inl hkf)
        · exact Or.inr (by omega)

theorem Counted.initStep {p : Pmm} (h : p.Counted) (frame : Nat) :
    (if p.freeBit frame = false then { p with total := p.total + 1 }.setFree frame
      else p).Counted := by
  split
  · exact Counted.setFree (p := { p with total := p.total + 1 }) h frame
  · exact h

theorem Counted.initFrames (n : Nat) : ∀ (frame : Nat) {p : Pmm},
    p.Counted → (initFrames frame n p).Counted := by
  induction n with
  | zero => exact fun _ _ h => h
  | succ n ih =>
    intro frame p h
    rw [Pmm.initFrames]
    split
    · exact h
    · exact ih (frame + 1) (h.initStep frame)

/-- `TOTAL` and `AVAILABLE` move together while `init` runs. -/
theorem total_initFrames (n : Nat) : ∀ (frame : Nat) (p : Pmm), p.total = p.available →
    (initFrames frame n p).total = (initFrames frame n p).available := by
  induction n with
  | zero => exact fun _ _ h => h
  | succ n ih =>
    intro frame p h
    rw [Pmm.initFrames]
    split
    · exact h
    · rename_i hlt
      refine ih (frame + 1) _ ?_
      split
      · rename_i hbit
        have hguard : ¬(frame ≥ MAX_FRAMES ∨
            ({ p with total := p.total + 1 } : Pmm).freeBit frame = true) := by
          rintro (h1 | h1)
          · exact hlt h1
          · rw [show ({ p with total := p.total + 1 } : Pmm).freeBit frame
              = p.freeBit frame from rfl, hbit] at h1
            cases h1
        rw [Pmm.setFree, if_neg hguard]
        simp only [h]
      · exact h

/-! ## The search for one frame -/

/-- A word below `WORDS` is zero exactly when none of its frames is free. -/
theorem word_eq_zero_iff (p : Pmm) {word : Nat} (hw : word < WORDS) :
    p.free word = 0 ↔ ∀ k, word * 32 ≤ k → k < word * 32 + 32 → k ∉ p.frames := by
  have hbits := Lib.Bitmap.word_eq_zero_iff (w := 32) (by decide) p.free word
  rw [show (0 : U32) = 0#32 from rfl, hbits]
  have hwords : WORDS = 32768 := rfl
  constructor
  · intro h k hlo hhi hm
    have hbit := h (k - word * 32) (by omega)
    rw [show word * 32 + (k - word * 32) = k from by omega] at hbit
    simp [frames, hbit] at hm
  · intro h r hr
    have hm := h (word * 32 + r) (by omega) (by omega)
    have hlt : word * 32 + r < MAX_FRAMES := by
      rw [maxFrames_eq]
      omega
    simpa [frames, hlt] using hm

/-- The scan over the words, from a word below which nothing is free. -/
theorem allocFrom_spec (p : Pmm) (n : Nat) : ∀ word, word + n = WORDS →
    (∀ k, k < word * 32 → k ∉ p.frames) →
    (p.frames = ∅ ∧ p.allocFrom word n = (none, p)) ∨
      ∃ k, k ∈ p.frames ∧ (∀ j, j < k → j ∉ p.frames) ∧
        p.allocFrom word n = (some (addressOf k), p.setUsed k) := by
  have hwords : WORDS = 32768 := rfl
  induction n with
  | zero =>
    intro word hword hbelow
    refine Or.inl ⟨Finset.eq_empty_of_forall_notMem fun k hk => ?_, rfl⟩
    have hlt := lt_of_mem_frames hk
    rw [maxFrames_eq] at hlt
    exact hbelow k (by omega) hk
  | succ n ih =>
    intro word hword hbelow
    rw [allocFrom]
    by_cases hz : p.free word = 0
    · rw [if_pos hz]
      have hskip := (word_eq_zero_iff p (by omega)).mp hz
      refine ih (word + 1) (by omega) fun k hk => ?_
      rcases Nat.lt_or_ge k (word * 32) with h | h
      · exact hbelow k h
      · exact hskip k h (by omega)
    · rw [if_neg hz]
      -- the first member of the first word that is not zero is the least member
      obtain ⟨hlt, hbit, hmin⟩ := Lib.Bitmap.test_ctz (w := 32) (by decide) p.free hz
      have hmem : word * 32 + (p.free word).ctz.toNat ∈ p.frames := by
        have hlt : word * 32 + (p.free word).ctz.toNat < MAX_FRAMES := by
          rw [maxFrames_eq]
          omega
        simp [frames, hlt, hbit]
      refine Or.inr ⟨_, hmem, fun j hj => ?_, rfl⟩
      rcases Nat.lt_or_ge j (word * 32) with h | h
      · exact hbelow j h
      · have hbit := hmin (j - word * 32) (by omega)
        rw [show word * 32 + (j - word * 32) = j from by omega] at hbit
        simp [frames, hbit]

/-- `alloc_frame` takes the lowest free frame, or finds none and changes nothing. -/
theorem allocFrame_spec (p : Pmm) :
    (p.frames = ∅ ∧ p.allocFrame = (none, p)) ∨
      ∃ k, k ∈ p.frames ∧ (∀ j, j < k → j ∉ p.frames) ∧
        p.allocFrame = (some (addressOf k), p.setUsed k) :=
  allocFrom_spec p WORDS 0 (by decide) fun k hk => absurd hk (by omega)

/-! ## The search for a run -/

/-- `count` free frames in a row from `base`. -/
def IsRun (p : Pmm) (base count : Nat) : Prop := ∀ k, base ≤ k → k < base + count → k ∈ p.frames

/-- The inner loop stops at `count` or at the first frame that is not free. -/
theorem spanFrom_spec (p : Pmm) (frame count : Nat) (fuel : Nat) : ∀ span,
    span ≤ count → count ≤ span + fuel → p.IsRun frame span →
    let r := p.spanFrom frame count fuel span
    r ≤ count ∧ p.IsRun frame r ∧ (r < count → frame + r ∉ p.frames) := by
  induction fuel with
  | zero =>
    intro span hle hfuel hrun
    exact ⟨hle, hrun, fun h => absurd h (by simp only [spanFrom]; omega)⟩
  | succ fuel ih =>
    intro span hle hfuel hrun
    dsimp only
    rw [spanFrom]
    split
    · rename_i h
      refine ih (span + 1) (by omega) (by omega) fun k hlo hhi => ?_
      rcases Nat.lt_or_ge k (frame + span) with hk | hk
      · exact hrun k hlo hk
      · rw [show k = frame + span from by omega]
        exact mem_frames.mpr h.2
    · rename_i h
      refine ⟨hle, hrun, fun hlt hm => h ⟨hlt, mem_frames.mp hm⟩⟩

/-- The outer loop, from a frame below which no run starts: it returns the lowest run, or finds
none. -/
theorem findRunFrom_spec (p : Pmm) {count : Nat} (hc : 0 < count) (fuel : Nat) : ∀ frame,
    MAX_FRAMES < frame + fuel → (∀ b, b < frame → ¬p.IsRun b count) →
    (∃ b, p.findRunFrom count fuel frame = some b ∧ p.IsRun b count ∧
        ∀ b', b' < b → ¬p.IsRun b' count) ∨
      p.findRunFrom count fuel frame = none ∧ ∀ b, ¬p.IsRun b count := by
  -- a run that starts past the last place it fits would hold a frame past the last one
  have hfit : ∀ b, MAX_FRAMES < b + count → ¬p.IsRun b count := fun b hb hrun =>
    absurd (lt_of_mem_frames (hrun (b + count - 1) (by omega) (by omega))) (by omega)
  induction fuel with
  | zero =>
    intro frame hfuel hbelow
    refine Or.inr ⟨rfl, fun b => ?_⟩
    rcases Nat.lt_or_ge b frame with h | h
    · exact hbelow b h
    · exact hfit b (by omega)
  | succ fuel ih =>
    intro frame hfuel hbelow
    rw [findRunFrom]
    split
    · split
      · rename_i hbit
        refine ih (frame + 1) (by omega) fun b hb hrun => ?_
        rcases Nat.lt_or_ge b frame with h | h
        · exact hbelow b h hrun
        · exact not_mem_frames.mpr hbit (hrun frame (by omega) (by omega))
      · rename_i hbit
        have hone : p.IsRun frame 1 := fun k hlo hhi => by
          rw [show k = frame from by omega]
          exact mem_frames.mpr (by simpa using hbit)
        obtain ⟨hle, hrun, hstop⟩ := spanFrom_spec p frame count count 1 hc (by omega) hone
        dsimp only
        split
        · rename_i heq
          rw [heq] at hrun
          exact Or.inl ⟨frame, rfl, hrun, hbelow⟩
        · rename_i hne
          -- a run that starts before the frame that stopped the span would hold that frame
          refine ih _ (by omega) fun b hb hb' => ?_
          rcases Nat.lt_or_ge b frame with h | h
          · exact hbelow b h hb'
          · exact hstop (by omega) (hb' _ (by omega) (by omega))
    · rename_i hlast
      refine Or.inr ⟨rfl, fun b => ?_⟩
      rcases Nat.lt_or_ge b frame with h | h
      · exact hbelow b h
      · exact hfit b (by omega)

/-- `find_run` returns the lowest run of `count` free frames, and gives up only when `count` is
zero or no such run exists. -/
theorem findRun_spec (p : Pmm) (count : Nat) :
    (∃ b, p.findRun count = some b ∧ 0 < count ∧ p.IsRun b count ∧
        ∀ b', b' < b → ¬p.IsRun b' count) ∨
      p.findRun count = none ∧ (count = 0 ∨ ∀ b, ¬p.IsRun b count) := by
  unfold findRun
  split
  · rename_i h
    exact Or.inr ⟨rfl, Or.inl h⟩
  · rename_i h
    have hc : 0 < count := Nat.pos_of_ne_zero h
    rcases findRunFrom_spec p hc (MAX_FRAMES + 1) 0 (by omega)
      (fun b hb => absurd hb (by omega)) with ⟨b, hb, hrun, hmin⟩ | ⟨hnone, hall⟩
    · exact Or.inl ⟨b, hb, hc, hrun, hmin⟩
    · exact Or.inr ⟨hnone, Or.inr hall⟩

/-- A run of frames ends at or below the last frame. -/
theorem IsRun.add_le {p : Pmm} {base count : Nat} (h : p.IsRun base count) (hc : 0 < count) :
    base + count ≤ MAX_FRAMES := by
  have := lt_of_mem_frames (h (base + count - 1) (by omega) (by omega))
  omega

end Kfs.Pmm
