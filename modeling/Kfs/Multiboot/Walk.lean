import Kfs.Lib.Orbit
import Kfs.Lib.Query
import Kfs.Multiboot.Probe

/-!
# What `probe` reads

`probe` writes nothing, so it is also a `Query` that asks for the words of memory: `Reads.probe`
here, and `toProg_probe` says that it is the same program.  The query shows each word that is read.

`reach` is the cursor of the loop over the memory map after a number of passes, and `visit` the
entry that a pass reads.

* `mem_asked_walkMap` lists the words that the loop reads: those of the entries it visits.
* `visit_finite_iff` says when the loop ends: it must not come back to an entry.
-/

namespace Kfs

open Lib

/-- The word at a virtual address, as a load of the kernel gets it. -/
def Machine.word (s : Machine) (v : U32) : Except Stop U32 := ((load32 v).run s).map Prod.fst

namespace Multiboot

/-- A program that reads words of memory. -/
abbrev Reads (α : Type) : Type := Query U32 U32 Stop α

/-- `MmapEntry`. -/
structure Entry where
  size : U32
  base : U64
  length : U64
  kind : U32
  deriving DecidableEq, Repr

/-- The body of the loop on the map that is built. -/
def Ram.add (ram : Ram) (e : Entry) : Ram :=
  if e.kind = AVAILABLE then ram.push e.base e.length else ram

/-! ## `probe` as a query -/

namespace Reads

def load64 (v : U32) : Reads U64 := do
  let lo ← Query.get v
  let hi ← Query.get (v + 4)
  pure (hi ++ lo)

/-- The fields of the entry at `entry`, in the order of the source. -/
def fields (entry : U32) : Reads Entry := do
  let size ← Query.get entry
  let kind ← Query.get (entry + 20)
  let base ← load64 (entry + 4)
  let len ← load64 (entry + 12)
  pure ⟨size, base, len, kind⟩

def walkMap (stop : U32) : Nat → U32 → Ram → Reads Ram
  | 0, _, _ => .stop .spins
  | fuel + 1, entry, ram =>
    if entry + 8 ≤ stop then do
      let e ← fields entry
      if e.size = 0 then pure (ram.add e) else walkMap stop fuel (entry + (e.size + 4)) (ram.add e)
    else pure ram

def probeMap (info flags : U32) : Reads Ram := do
  if flags &&& FLAG_MMAP ≠ 0 then
    let length ← Query.get (info + 44)
    let start ← Query.get (info + 48)
    if start ≠ 0 ∧ start < REACHABLE then
      walkMap (saturatingAdd start length) (2 ^ 32) start
        { Ram.nothing with source := "multiboot memory map" }
    else pure Ram.nothing
  else pure Ram.nothing

def probeSizes (info flags : U32) (ram : Ram) : Reads Ram := do
  if ram.count = 0 ∧ flags &&& FLAG_MEMORY ≠ 0 then
    let ram := { ram with source := "multiboot mem_lower and mem_upper" }
    let lower ← Query.get (info + 4)
    let upper ← Query.get (info + 8)
    let ram := ram.push 0 (lower.setWidth 64 * 1024)
    pure (ram.push 0x00100000 (upper.setWidth 64 * 1024))
  else pure ram

def probe (magic info : U32) : Reads (Except String Ram) := do
  if magic ≠ BOOT_MAGIC then
    pure (.error "no multiboot magic in eax, this kernel needs a multiboot loader")
  else if info = 0 ∨ info ≥ REACHABLE then
    pure (.error "the multiboot information is out of the low window")
  else
    let flags ← Query.get info
    let ram ← probeMap info flags
    let ram ← probeSizes info flags ram
    if ram.count = 0 then pure (.error "the loader described no usable memory")
    else pure (.ok ram)

end Reads

theorem toProg_load64 (v : U32) : (Reads.load64 v).toProg load32 = load64 v := by
  rw [Reads.load64, load64, Query.toProg_bind, Query.toProg_get]
  refine congrArg (load32 v >>= ·) (funext fun lo => ?_)
  rw [Query.toProg_bind, Query.toProg_get]
  rfl

theorem toProg_walkMap (stop : U32) (fuel : Nat) : ∀ (entry : U32) (ram : Ram),
    (Reads.walkMap stop fuel entry ram).toProg load32 = walkMap stop fuel entry ram := by
  induction fuel with
  | zero => exact fun _ _ => rfl
  | succ fuel ih =>
    intro entry ram
    rw [Reads.walkMap, walkMap]
    split
    · simp only [Reads.fields, Query.toProg_bind, Query.toProg_get, toProg_load64, bind_assoc]
      refine congrArg (load32 entry >>= ·) (funext fun size => ?_)
      refine congrArg (load32 (entry + 20) >>= ·) (funext fun kind => ?_)
      refine congrArg (load64 (entry + 4) >>= ·) (funext fun base => ?_)
      refine congrArg (load64 (entry + 12) >>= ·) (funext fun len => ?_)
      show (if size = 0 then _ else _ : Reads Ram).toProg load32 = _
      dsimp only
      split
      · rfl
      · exact ih _ _
    · rfl

theorem toProg_probeMap (info flags : U32) :
    (Reads.probeMap info flags).toProg load32 = probeMap info flags := by
  rw [Reads.probeMap, probeMap]
  split
  · rw [Query.toProg_bind, Query.toProg_get]
    refine congrArg (load32 (info + 44) >>= ·) (funext fun length => ?_)
    rw [Query.toProg_bind, Query.toProg_get]
    refine congrArg (load32 (info + 48) >>= ·) (funext fun start => ?_)
    split
    · exact toProg_walkMap _ _ _ _
    · rfl
  · rfl

theorem toProg_probeSizes (info flags : U32) (ram : Ram) :
    (Reads.probeSizes info flags ram).toProg load32 = probeSizes info flags ram := by
  rw [Reads.probeSizes, probeSizes]
  split
  · rw [Query.toProg_bind, Query.toProg_get]
    refine congrArg (load32 (info + 4) >>= ·) (funext fun lower => ?_)
    rw [Query.toProg_bind, Query.toProg_get]
    rfl
  · rfl

/-- The query is the program. -/
theorem toProg_probe (magic info : U32) :
    (Reads.probe magic info).toProg load32 = probe magic info := by
  rw [Reads.probe, probe]
  split
  · rfl
  · split
    · rfl
    · rw [Query.toProg_bind, Query.toProg_get]
      refine congrArg (load32 info >>= ·) (funext fun flags => ?_)
      rw [Query.toProg_bind, toProg_probeMap]
      refine congrArg (probeMap info flags >>= ·) (funext fun ram => ?_)
      rw [Query.toProg_bind, toProg_probeSizes]
      refine congrArg (probeSizes info flags ram >>= ·) (funext fun ram => ?_)
      split <;> rfl

/-- What `probe` returns is what the query returns on the words of memory. -/
theorem probe_run (s : Machine) (magic info : U32) :
    (probe magic info).run s = ((Reads.probe magic info).run s.word).map fun r => (r, s) := by
  rw [← toProg_probe]
  exact Query.run_toProg (fun _ _ _ => load32_inv) _

/-! ## The passes of the loop -/

section Passes

variable (f : U32 → Except Stop U32) (stop : U32)

/-- Where the loop goes from `entry`, unless it ends there. -/
def next (entry : U32) : Option U32 :=
  if entry + 8 ≤ stop then
    match (Reads.fields entry).run f with
    | .ok e => if e.size = 0 then none else some (entry + (e.size + 4))
    | .error _ => none
  else none

/-- The cursor after `n` passes from `start`. -/
def reach (start : U32) (n : Nat) : Option U32 := orbit (next f stop) n start

/-- The entry that pass `n` reads. -/
def visit (start : U32) (n : Nat) : Option U32 :=
  (reach f stop start n).filter fun entry => entry + 8 ≤ stop

variable {f stop}

theorem reach_of_visit {start entry : U32} {n : Nat} (h : visit f stop start n = some entry) :
    reach f stop start n = some entry ∧ entry + 8 ≤ stop := by
  rw [visit, Option.filter_eq_some_iff] at h
  exact ⟨h.1, of_decide_eq_true h.2⟩

theorem visit_of_reach {start entry : U32} {n : Nat} (h : reach f stop start n = some entry)
    (hle : entry + 8 ≤ stop) : visit f stop start n = some entry := by
  rw [visit, h, Option.filter_some, if_pos (decide_eq_true hle)]

/-- The cursor moves on only from an entry that is read. -/
theorem visit_of_reach_succ {start : U32} {n : Nat} {c : U32}
    (h : reach f stop start (n + 1) = some c) : ∃ b, visit f stop start n = some b := by
  rw [reach, orbit_succ, Option.bind_eq_some_iff] at h
  obtain ⟨b, hb, hnext⟩ := h
  refine ⟨b, visit_of_reach hb ?_⟩
  unfold next at hnext
  split at hnext
  · assumption
  · cases hnext

theorem reach_succ {start : U32} {n : Nat} :
    reach f stop start (n + 1) = (next f stop start).bind fun b => reach f stop b n := rfl

theorem visit_succ {start : U32} {n : Nat} :
    visit f stop start (n + 1) = (next f stop start).bind fun b => visit f stop b n := by
  rw [visit, reach_succ]
  cases next f stop start <;> rfl

/-- Past the guard of the loop there are no passes. -/
theorem visit_eq_none {start : U32} (hle : ¬start + 8 ≤ stop) (n : Nat) :
    visit f stop start n = none := by
  cases n with
  | zero =>
    rw [visit, reach, orbit, Option.filter_some, if_neg (by simpa using hle)]
  | succ n =>
    rw [visit_succ, next, if_neg hle]
    rfl

/-- The loop reads the words of the entries it visits, and no others. -/
theorem mem_asked_walkMap {v : U32} (fuel : Nat) : ∀ (entry : U32) (ram : Ram),
    v ∈ (Reads.walkMap stop fuel entry ram).asked f ↔
      ∃ n, n < fuel ∧ ∃ b, visit f stop entry n = some b ∧ v ∈ (Reads.fields b).asked f := by
  induction fuel with
  | zero =>
    intro entry ram
    simp [Reads.walkMap, Query.asked]
  | succ fuel ih =>
    intro entry ram
    rw [Reads.walkMap]
    by_cases hle : entry + 8 ≤ stop
    · have hzero : visit f stop entry 0 = some entry := visit_of_reach rfl hle
      have hsplit : (∃ n, n < fuel + 1 ∧ ∃ b, visit f stop entry n = some b ∧
            v ∈ (Reads.fields b).asked f) ↔
          v ∈ (Reads.fields entry).asked f ∨ ∃ n, n < fuel ∧ ∃ b,
            ((next f stop entry).bind fun c => visit f stop c n) = some b ∧
              v ∈ (Reads.fields b).asked f := by
        constructor
        · intro h
          obtain ⟨n, hn, b, hb, hv⟩ := h
          cases n with
          | zero =>
            rw [hzero] at hb
            exact .inl (Option.some.inj hb ▸ hv)
          | succ n => exact .inr ⟨n, by omega, b, by rwa [← visit_succ], hv⟩
        · intro h
          rcases h with hv | ⟨n, hn, b, hb, hv⟩
          · exact ⟨0, by omega, entry, hzero, hv⟩
          · exact ⟨n + 1, by omega, b, by rwa [visit_succ], hv⟩
      rw [if_pos hle, hsplit]
      cases hrun : (Reads.fields entry).run f with
      | error e =>
        have hnext : next f stop entry = none := by rw [next, if_pos hle, hrun]
        rw [Query.asked_bind_error hrun, hnext]
        simp
      | ok e =>
        rw [Query.asked_bind_ok hrun, List.mem_append]
        refine or_congr_right ?_
        by_cases hsize : e.size = 0
        · have hnext : next f stop entry = none := by
            rw [next, if_pos hle, hrun]
            exact if_pos hsize
          rw [if_pos hsize, hnext]
          simp
        · have hnext : next f stop entry = some (entry + (e.size + 4)) := by
            rw [next, if_pos hle, hrun]
            exact if_neg hsize
          rw [if_neg hsize, hnext]
          exact ih _ _
    · rw [if_neg hle]
      simp [visit_eq_none hle]

/-- The loop runs out of passes exactly when the cursor moved that often. -/
theorem walkMap_spins_iff (hf : ∀ v, f v ≠ .error .spins) (fuel : Nat) :
    ∀ (entry : U32) (ram : Ram), (Reads.walkMap stop fuel entry ram).run f = .error .spins ↔
      (reach f stop entry fuel).isSome := by
  have hfields : ∀ entry, (Reads.fields entry).run f ≠ .error .spins := by
    intro entry h
    simp only [Reads.fields, Reads.load64, Query.run_bind_eq_error, Query.run_get, hf,
      Query.run_pure, reduceCtorEq, false_or, and_false, exists_false] at h
  induction fuel with
  | zero =>
    intro entry ram
    exact ⟨fun _ => rfl, fun _ => rfl⟩
  | succ fuel ih =>
    intro entry ram
    rw [Reads.walkMap, reach_succ, next]
    by_cases hle : entry + 8 ≤ stop
    · rw [if_pos hle, if_pos hle]
      cases hrun : (Reads.fields entry).run f with
      | error e =>
        rw [Query.run_bind_error hrun]
        have hne := hfields entry
        rw [hrun] at hne
        simpa using hne
      | ok e =>
        rw [Query.run_bind_ok hrun]
        dsimp only
        split
        · simp
        · exact ih _ _
    · rw [if_neg hle, if_neg hle]
      simp

/-- A loop that goes on long enough comes back to an entry: there are only `2 ^ 32` addresses. -/
theorem exists_visit_eq {start : U32} (h : (reach f stop start (2 ^ 32)).isSome) :
    ∃ i j b, i < j ∧ visit f stop start i = some b ∧ visit f stop start j = some b := by
  obtain ⟨i, j, b, hij, _, hi, hj⟩ :=
    exists_orbit_eq (fun _ _ => BitVec.eq_of_toNat_eq) (fun c : U32 => c.isLt) h
  have hreach : (reach f stop start (i + 1)).isSome := isSome_orbit_of_le (by omega) h
  obtain ⟨c, hc⟩ := Option.isSome_iff_exists.mp hreach
  obtain ⟨b', hb'⟩ := visit_of_reach_succ hc
  obtain ⟨hb, hle⟩ := reach_of_visit hb'
  have heq : b' = b := Option.some.inj (hb.symm.trans hi)
  rw [heq] at hle
  exact ⟨i, j, b, hij, visit_of_reach hi hle, visit_of_reach hj hle⟩

/-- The passes of the loop are finitely many exactly when no entry is visited twice. -/
theorem visit_finite_iff {start : U32} :
    (∃ N, ∀ n, N ≤ n → visit f stop start n = none) ↔
      ∀ i j b, visit f stop start i = some b → visit f stop start j = some b → i = j := by
  constructor
  · intro h
    obtain ⟨N, hN⟩ := h
    -- an entry that comes twice leads to a cursor after any number of passes
    have hlt : ∀ i j b, i < j → visit f stop start i = some b →
        visit f stop start j = some b → False := by
      intro i j b hij hi hj
      obtain ⟨c, hc⟩ := Option.isSome_iff_exists.mp
        (orbit_forever hij (reach_of_visit hi).1 (reach_of_visit hj).1 (N + 1))
      obtain ⟨b', hb'⟩ := visit_of_reach_succ hc
      rw [hN N (Nat.le_refl N)] at hb'
      cases hb'
    intro i j b hi hj
    rcases Nat.lt_trichotomy i j with hij | hij | hij
    · exact (hlt i j b hij hi hj).elim
    · exact hij
    · exact (hlt j i b hij hj hi).elim
  · intro hinj
    refine ⟨2 ^ 32, fun n hn => ?_⟩
    cases hv : visit f stop start n with
    | none => rfl
    | some c =>
      have hlong : (reach f stop start (2 ^ 32)).isSome :=
        isSome_orbit_of_le hn (Option.isSome_iff_exists.mpr ⟨c, (reach_of_visit hv).1⟩)
      obtain ⟨i, j, b, hij, hi, hj⟩ := exists_visit_eq hlong
      exact absurd (hinj i j b hi hj) (by omega)

/-- `2 ^ 32` passes are enough to tell. -/
theorem reach_isSome_iff {start : U32} :
    (reach f stop start (2 ^ 32)).isSome ↔ ¬∃ N, ∀ n, N ≤ n → visit f stop start n = none := by
  constructor
  · intro h hfin
    obtain ⟨i, j, b, hij, hi, hj⟩ := exists_visit_eq h
    exact absurd (visit_finite_iff.mp hfin i j b hi hj) (by omega)
  · intro h
    by_contra hnone
    refine h ⟨2 ^ 32, fun n hn => ?_⟩
    cases hv : visit f stop start n with
    | none => rfl
    | some c =>
      exact absurd (isSome_orbit_of_le hn
        (Option.isSome_iff_exists.mpr ⟨c, (reach_of_visit hv).1⟩)) hnone

theorem fields_size {entry : U32} {e : Entry} (h : (Reads.fields entry).run f = .ok e) :
    f entry = .ok e.size := by
  simp only [Reads.fields, Query.run_bind_eq_ok, Query.run_get, Query.run_pure] at h
  obtain ⟨size, hsize, _, _, _, _, _, _, he⟩ := h
  cases he
  exact hsize

/-- Where no step wraps, the cursor goes up. -/
theorem visit_lt {start : U32}
    (hstep : ∀ n b size, visit f stop start n = some b → f b = .ok size →
      b.toNat + (size.toNat + 4) < 2 ^ 32) {i j : Nat} (hij : i < j) : ∀ {b c : U32},
    visit f stop start i = some b → visit f stop start j = some c → b.toNat < c.toNat := by
  have hsucc : ∀ n b c, visit f stop start n = some b → reach f stop start (n + 1) = some c →
      b.toNat < c.toNat := by
    intro n b c hb hc
    rw [reach, orbit_succ, show orbit (next f stop) n start = some b from (reach_of_visit hb).1,
      Option.bind_some, next, if_pos (reach_of_visit hb).2] at hc
    split at hc
    · rename_i e he
      split at hc
      · cases hc
      · have hlt := hstep n b e.size hb (fields_size he)
        rw [← Option.some.inj hc]
        bv_omega
    · cases hc
  induction j, hij using Nat.le_induction with
  | base =>
    intro b c hi hj
    exact hsucc i b c hi (reach_of_visit hj).1
  | succ j hle ih =>
    intro b c hi hj
    obtain ⟨d, hd⟩ := visit_of_reach_succ (reach_of_visit hj).1
    exact Nat.lt_trans (ih hi hd) (hsucc j d c hd (reach_of_visit hj).1)

end Passes

/-! ## When the walk ends -/

/-- The first entry of the memory map and the end of the map, when `probe` walks it. -/
def mapArea (f : U32 → Except Stop U32) (magic info : U32) : Option (U32 × U32) :=
  if magic ≠ BOOT_MAGIC ∨ info = 0 ∨ info ≥ REACHABLE then none
  else
    match f info, f (info + 44), f (info + 48) with
    | .ok flags, .ok length, .ok start =>
      if flags &&& FLAG_MMAP ≠ 0 ∧ start ≠ 0 ∧ start < REACHABLE then
        some (start, saturatingAdd start length)
      else none
    | _, _, _ => none

theorem mapArea_eq_some {f : U32 → Except Stop U32} {magic info : U32} {area : U32 × U32} :
    mapArea f magic info = some area ↔
      (magic = BOOT_MAGIC ∧ info ≠ 0 ∧ info < REACHABLE) ∧ ∃ flags length start,
        f info = .ok flags ∧ f (info + 44) = .ok length ∧ f (info + 48) = .ok start ∧
        (flags &&& FLAG_MMAP ≠ 0 ∧ start ≠ 0 ∧ start < REACHABLE) ∧
        area = (start, saturatingAdd start length) := by
  unfold mapArea
  constructor
  · intro h
    split at h
    · cases h
    · rename_i hgo
      obtain ⟨hmagic, hinfo⟩ := not_or.mp hgo
      obtain ⟨h0, hge⟩ := not_or.mp hinfo
      refine ⟨⟨not_not.mp hmagic, h0, BitVec.not_le.mp hge⟩, ?_⟩
      split at h
      · rename_i flags length start hflags hlength hstart
        split at h
        · rename_i hin
          exact ⟨flags, length, start, hflags, hlength, hstart, hin, (Option.some.inj h).symm⟩
        · cases h
      · cases h
  · intro h
    obtain ⟨⟨hmagic, h0, hlt⟩, flags, length, start, hflags, hlength, hstart, hin, harea⟩ := h
    have hgo : ¬(magic ≠ BOOT_MAGIC ∨ info = 0 ∨ info ≥ REACHABLE) := by
      rintro (hne | hz | hge)
      · exact hne hmagic
      · exact h0 hz
      · exact BitVec.not_le.mpr hlt hge
    rw [if_neg hgo, hflags, hlength, hstart, harea]
    exact if_pos hin

/-- The entry that pass `n` of the loop of `probe` reads. -/
def pass (s : Machine) (magic info : U32) (n : Nat) : Option U32 :=
  (mapArea s.word magic info).bind fun area => visit s.word area.2 area.1 n

theorem word_ne_spins (s : Machine) (v : U32) : s.word v ≠ .error .spins := by
  have hresolve : ∀ (w : U32) (t : Machine), (resolve false w).run t ≠ .error .spins := by
    intro w t h
    simp only [resolve] at h
    split at h <;> simp at h
  have hload : (load32 v).run s ≠ .error .spins := by
    intro h
    simp only [load32, Prog.bind_eq_error, hresolve, Prog.run_gets, reduceCtorEq, and_false,
      exists_false, or_false] at h
  intro h
  rw [Machine.word] at h
  cases hrun : (load32 v).run s with
  | ok r =>
    rw [hrun] at h
    cases h
  | error e =>
    rw [hrun] at h
    cases h
    exact hload hrun

section Spins

variable {f : U32 → Except Stop U32} {magic info : U32}

theorem probeMap_spins_iff (hf : ∀ v, f v ≠ .error .spins) {flags : U32} :
    (Reads.probeMap info flags).run f = .error .spins ↔
      ∃ length start, f (info + 44) = .ok length ∧ f (info + 48) = .ok start ∧
        (flags &&& FLAG_MMAP ≠ 0 ∧ start ≠ 0 ∧ start < REACHABLE) ∧
        (reach f (saturatingAdd start length) start (2 ^ 32)).isSome := by
  rw [Reads.probeMap]
  split
  · rename_i hflag
    simp only [Query.run_bind_eq_error, Query.run_get, hf, false_or]
    constructor
    · intro h
      obtain ⟨length, hlength, start, hstart, h⟩ := h
      split at h
      · rename_i hin
        exact ⟨length, start, hlength, hstart, ⟨hflag, hin⟩, (walkMap_spins_iff hf _ _ _).mp h⟩
      · cases h
    · intro h
      obtain ⟨length, start, hlength, hstart, ⟨_, hin⟩, h⟩ := h
      refine ⟨length, hlength, start, hstart, ?_⟩
      rw [if_pos hin]
      exact (walkMap_spins_iff hf _ _ _).mpr h
  · rename_i hflag
    constructor
    · intro h
      cases h
    · intro h
      obtain ⟨_, _, _, _, hin, _⟩ := h
      exact absurd hin.1 hflag

theorem probeSizes_ne_spins (hf : ∀ v, f v ≠ .error .spins) (flags : U32) (ram : Ram) :
    (Reads.probeSizes info flags ram).run f ≠ .error .spins := by
  intro h
  rw [Reads.probeSizes] at h
  split at h
  · simp only [Query.run_bind_eq_error, Query.run_get, hf, Query.run_pure, reduceCtorEq, and_false,
      exists_false, or_false] at h
  · cases h

/-- `probe` runs for ever exactly when the walk over the map does. -/
theorem probe_spins_iff (hf : ∀ v, f v ≠ .error .spins) :
    (Reads.probe magic info).run f = .error .spins ↔
      ∃ area, mapArea f magic info = some area ∧ (reach f area.2 area.1 (2 ^ 32)).isSome := by
  have htail : ∀ flags ram, ((Reads.probeSizes info flags ram >>= fun ram =>
      if ram.count = 0 then pure (Except.error "the loader described no usable memory")
      else pure (.ok ram)) : Reads (Except String Ram)).run f ≠ .error .spins := by
    intro flags ram h
    rw [Query.run_bind_eq_error] at h
    rcases h with h | ⟨ram', _, h⟩
    · exact probeSizes_ne_spins hf flags ram h
    · split at h <;> cases h
  simp only [mapArea_eq_some]
  rw [Reads.probe]
  split
  · rename_i hmagic
    constructor
    · intro h
      cases h
    · intro h
      obtain ⟨_, ⟨hgo, _⟩, _⟩ := h
      exact absurd hgo.1 hmagic
  · rename_i hmagic
    split
    · rename_i hinfo
      constructor
      · intro h
        cases h
      · intro h
        obtain ⟨_, ⟨⟨_, h0, hlt⟩, _⟩, _⟩ := h
        rcases hinfo with hz | hge
        · exact absurd hz h0
        · exact absurd hge (BitVec.not_le.mpr hlt)
    · rename_i hinfo
      obtain ⟨h0, hge⟩ := not_or.mp hinfo
      rw [Query.run_bind_eq_error, Query.run_get]
      constructor
      · intro h
        rcases h with h | ⟨flags, hflags, h⟩
        · exact absurd h (hf info)
        rw [Query.run_bind_eq_error] at h
        rcases h with h | ⟨ram, _, h⟩
        · obtain ⟨length, start, hlength, hstart, hin, hreach⟩ := (probeMap_spins_iff hf).mp h
          exact ⟨_, ⟨⟨not_not.mp hmagic, h0, BitVec.not_le.mp hge⟩, flags, length, start, hflags,
            hlength, hstart, hin, rfl⟩, hreach⟩
        · exact absurd h (htail flags ram)
      · intro h
        obtain ⟨area, ⟨_, flags, length, start, hflags, hlength, hstart, hin, harea⟩, hreach⟩ := h
        subst harea
        refine .inr ⟨flags, hflags, ?_⟩
        rw [Query.run_bind_eq_error]
        exact .inl ((probeMap_spins_iff hf).mpr ⟨length, start, hlength, hstart, hin, hreach⟩)

end Spins

/-- The passes of the loop of `probe`, when it walks the map at all. -/
theorem pass_cases (s : Machine) (magic info : U32) :
    (mapArea s.word magic info = none ∧ ∀ n, pass s magic info n = none) ∨
      ∃ area, mapArea s.word magic info = some area ∧
        pass s magic info = visit s.word area.2 area.1 := by
  cases harea : mapArea s.word magic info with
  | none => exact .inl ⟨rfl, fun n => by rw [pass, harea]; rfl⟩
  | some area => exact .inr ⟨area, rfl, funext fun n => by rw [pass, harea]; rfl⟩

/-- The loop of `probe` makes finitely many passes exactly when no entry is read twice, and it
does when no step of the cursor wraps.  Otherwise `probe` does not return. -/
theorem probe_ends_iff (s : Machine) (magic info : U32) :
    ((∃ N, ∀ n, N ≤ n → pass s magic info n = none) ↔
      ∀ i j b, pass s magic info i = some b → pass s magic info j = some b → i = j) ∧
    ((probe magic info).run s = .error .spins ↔
      ¬∃ N, ∀ n, N ≤ n → pass s magic info n = none) ∧
    ((∀ n b size, pass s magic info n = some b → s.word b = .ok size →
        b.toNat + (size.toNat + 4) < 2 ^ 32) →
      ∃ N, ∀ n, N ≤ n → pass s magic info n = none) := by
  have hrun : (probe magic info).run s = .error .spins ↔
      (Reads.probe magic info).run s.word = .error .spins := by
    rw [probe_run]
    cases (Reads.probe magic info).run s.word <;> simp [Except.map]
  rw [hrun, probe_spins_iff (word_ne_spins s)]
  rcases pass_cases s magic info with ⟨harea, hnone⟩ | ⟨area, harea, hpass⟩
  · simp [harea, hnone]
  · rw [harea, hpass]
    simp only [Option.some.injEq, exists_eq_left']
    refine ⟨visit_finite_iff, reach_isSome_iff, fun hstep => visit_finite_iff.mpr ?_⟩
    intro i j b hi hj
    rcases Nat.lt_trichotomy i j with hij | hij | hij
    · exact absurd (visit_lt hstep hij hi hj) (Nat.lt_irrefl _)
    · exact hij
    · exact absurd (visit_lt hstep hij hj hi) (Nat.lt_irrefl _)

/-! ## The low window -/

/-- The entry whose bytes start at the physical address `a`. -/
def entryAt (m : ByteMem) (a : Nat) : Entry where
  size := m.read32 a
  base := m.read32 (a + 8) ++ m.read32 (a + 4)
  length := m.read32 (a + 16) ++ m.read32 (a + 12)
  kind := m.read32 (a + 20)

section Low

variable {L : Layout} {s : Machine} (h : BootTables L s)

include h

theorem word_low {v : U32} (hv : v.toNat + 4 ≤ 0x400000) :
    s.word v = .ok (s.mem.read32 v.toNat) := by
  rw [Machine.word, load32_low h hv]
  rfl

theorem word_add_low {v : U32} {n : Nat} (hv : v.toNat + n + 4 ≤ 0x400000) :
    s.word (v + BitVec.ofNat 32 n) = .ok (s.mem.read32 (v.toNat + n)) := by
  have hadd : (v + BitVec.ofNat 32 n).toNat = v.toNat + n := by
    rw [BitVec.toNat_add, BitVec.toNat_ofNat]
    omega
  rw [word_low h (by omega), hadd]

/-- An entry that lies whole in the low window is read as it is stored. -/
theorem fields_low {a : U32} (ha : a.toNat + 24 ≤ 0x400000) :
    (Reads.fields a).run s.word = .ok (entryAt s.mem a.toNat) ∧
      (Reads.fields a).asked s.word = [a, a + 20, a + 4, a + 8, a + 12, a + 16] := by
  have h0 := word_low h (v := a) (by omega)
  have h4 : s.word (a + 4) = _ := word_add_low h (n := 4) (by omega)
  have h8 : s.word (a + 8) = _ := word_add_low h (n := 8) (by omega)
  have h12 : s.word (a + 12) = _ := word_add_low h (n := 12) (by omega)
  have h16 : s.word (a + 16) = _ := word_add_low h (n := 16) (by omega)
  have h20 : s.word (a + 20) = _ := word_add_low h (n := 20) (by omega)
  have e8 : a + 4 + 4 = a + 8 := by bv_omega
  have e16 : a + 12 + 4 = a + 16 := by bv_omega
  simp only [Reads.fields, Reads.load64, Query.run_bind, Query.asked_bind, Query.run_get,
    Query.asked_get, Query.run_pure, Query.asked_pure, e8, e16, h0, h4, h8, h12, h16, h20]
  exact ⟨rfl, rfl⟩

/-- The header, when it lies whole in the low window. -/
theorem mapArea_low {info : U32} (h0 : info ≠ 0) (hinfo : info.toNat + 52 ≤ 0x400000) :
    mapArea s.word BOOT_MAGIC info =
      if s.mem.read32 info.toNat &&& FLAG_MMAP ≠ 0 ∧ s.mem.read32 (info.toNat + 48) ≠ 0 ∧
          s.mem.read32 (info.toNat + 48) < REACHABLE then
        some (s.mem.read32 (info.toNat + 48),
          saturatingAdd (s.mem.read32 (info.toNat + 48)) (s.mem.read32 (info.toNat + 44)))
      else none := by
  have hw0 := word_low h (v := info) (by omega)
  have hw44 : s.word (info + 44) = _ := word_add_low h (n := 44) (by omega)
  have hw48 : s.word (info + 48) = _ := word_add_low h (n := 48) (by omega)
  have hlow : ¬(info = 0 ∨ info ≥ REACHABLE) := by
    intro hor
    rcases hor with hz | hge
    · exact h0 hz
    · have : (0x400000 : U32).toNat ≤ info.toNat := hge
      have hnum : (0x400000 : U32).toNat = 0x400000 := rfl
      omega
  rw [mapArea, if_neg (not_or.mpr ⟨not_not.mpr rfl, hlow⟩), hw0, hw44, hw48]

end Low

/-! ## A map that never ends -/

/-- A loader with the header at 0x9000 and its map at 0xA000. -/
theorem mapArea_rawLoader {info : Nat → U32} (map : Nat → U32) {n : Nat} (hn : n ≤ 6000)
    (hflags : info 0 = FLAG_MMAP) (hstart : info 12 = 0xA000) :
    mapArea (bootAsm smallLayout (rawLoader info map n)).word BOOT_MAGIC 0x9000
      = some (0xA000, saturatingAdd 0xA000 (info 11)) := by
  have hword : ∀ i, i < 13 → (bootAsm smallLayout (rawLoader info map n)).mem.read32
      ((0x9000 : U32).toNat + 4 * i) = info i := fun i hi => rawLoader_info info map n hi
  rw [mapArea_low (bootAsm_tables (loaded_rawLoader info map hn)) (by decide) (by decide),
    show (bootAsm smallLayout (rawLoader info map n)).mem.read32 (0x9000 : U32).toNat = info 0 from
      hword 0 (by decide), hword 11 (by decide), hword 12 (by decide), hflags, hstart]
  exact if_pos (by decide)

/-- One entry whose size is four short of `2 ^ 32`: the cursor steps from it to itself. -/
def stuckWord (i : Nat) : U32 := if i = 0 then 0xFFFFFFFC else 0

theorem walk_stuck : ∃ s, Loaded smallLayout s ∧
    (∀ n, pass (bootAsm smallLayout s) BOOT_MAGIC 0x9000 n = some 0xA000) ∧
    (probe BOOT_MAGIC 0x9000).run (bootAsm smallLayout s) = .error .spins := by
  have hloaded : Loaded smallLayout (rawLoader (infoWord 1) stuckWord 6) :=
    loaded_rawLoader _ _ (by decide)
  have hboot := bootAsm_tables hloaded
  have harea : mapArea (bootAsm smallLayout (rawLoader (infoWord 1) stuckWord 6)).word BOOT_MAGIC
      0x9000 = some (0xA000, 0xA018) := mapArea_rawLoader stuckWord (by decide) rfl rfl
  have hsize := rawLoader_map (infoWord 1) stuckWord (n := 6) (by decide) (i := 0) (by decide)
  refine ⟨_, hloaded, ?_⟩
  generalize bootAsm smallLayout (rawLoader (infoWord 1) stuckWord 6) = s at *
  have hnext : next s.word 0xA018 0xA000 = some 0xA000 := by
    rw [next, if_pos (by decide), (fields_low hboot (by decide)).1]
    show (if s.mem.read32 (0xA000 + 4 * 0) = 0 then none
      else some (0xA000 + (s.mem.read32 (0xA000 + 4 * 0) + 4))) = _
    rw [hsize]
    decide
  have hreach : ∀ n, reach s.word 0xA018 0xA000 n = some 0xA000 := by
    intro n
    induction n with
    | zero => rfl
    | succ n ih => rw [reach_succ, hnext, Option.bind_some, ih]
  have hpass : ∀ n, pass s BOOT_MAGIC 0x9000 n = some 0xA000 := by
    intro n
    rw [pass, harea]
    exact visit_of_reach (hreach n) (by decide)
  refine ⟨hpass, ?_⟩
  have hspins : (Reads.probe BOOT_MAGIC 0x9000).run s.word = .error .spins :=
    (probe_spins_iff (word_ne_spins s)).mpr ⟨_, harea, by rw [hreach]; rfl⟩
  rw [probe_run, hspins]
  rfl

end Multiboot

end Kfs
