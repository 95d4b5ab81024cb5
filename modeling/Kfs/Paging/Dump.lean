import Kfs.Paging.Refine

/-!
# The listing of the mappings

`dump` walks the directory and every table in it, and joins the pages it finds to runs.  `listed` is
what there is to say about the pages below a given one, and `Listing.Covers` is the invariant of the
walk: the rows that are printed and the run that is not, page by page, are `listed`, and no two of
them in a row could be one.

* `Covers.page` and `Covers.skip` are the two steps, a page that is present and pages that are not.
* `dumpTable_run` and `dumpFrom_run` are the two loops.
* `dump_run` is the whole walk, and `dump_faithful` adds what the rights mean.
-/

namespace Kfs.Paging

open Lib Mem Machine

/-! ## Rights -/

theorem and_user_eq_zero (e : U32) : e &&& USER = 0 ↔ user e = false :=
  Word.and_twoPow_eq_zero e 2

theorem rights_eq (e : U32) : rights e =
    (if writable e = true then "rw " else "r  ") ++
      (if user e = true then "user" else "kernel") := by
  unfold rights
  simp only [ne_eq, and_writable_eq_zero, and_user_eq_zero, Bool.not_eq_false,
    Bool.decide_eq_true]
  cases writable e <;> cases user e <;> rfl

/-- The text gives the two bits, and no other. -/
theorem rights_eq_iff {x y : U32} :
    rights x = rights y ↔ writable x = writable y ∧ user x = user y := by
  rw [rights_eq, rights_eq]
  cases writable x <;> cases user x <;> cases writable y <;> cases user y <;> decide

/-- The mask of `extend_run` keeps the two bits. -/
theorem mask_eq_iff {x y : U32} : x &&& (WRITABLE ||| USER) = y &&& (WRITABLE ||| USER) ↔
    writable x = writable y ∧ user x = user y := by
  have hbit : ∀ i : Fin 32, (WRITABLE ||| USER).getLsbD i.val
      = (decide (i.val = 1) || decide (i.val = 2)) := by decide
  have hmask : ∀ (z : U32) i, i < 32 → (z &&& (WRITABLE ||| USER)).getLsbD i
      = (z.getLsbD i && (decide (i = 1) || decide (i = 2))) := by
    intro z i hi
    rw [BitVec.getLsbD_and, hbit ⟨i, hi⟩]
  constructor
  · intro h
    have h1 := congrArg (fun z => z.getLsbD 1) h
    have h2 := congrArg (fun z => z.getLsbD 2) h
    simp only [hmask _ 1 (by decide), hmask _ 2 (by decide)] at h1 h2
    simpa [writable, user] using And.intro h1 h2
  · rintro ⟨h1, h2⟩
    apply BitVec.eq_of_getLsbD_eq
    intro i hi
    rw [hmask x i hi, hmask y i hi]
    by_cases hi1 : i = 1
    · rw [hi1]
      exact congrArg (· && _) h1
    · by_cases hi2 : i = 2
      · rw [hi2]
        exact congrArg (· && _) h2
      · simp [hi1, hi2]

theorem rights_and_flags (e : U32) : rights (e &&& FLAGS) = rights e := by
  rw [rights_eq_iff]
  simp [writable, user]

/-! ## What there is to list -/

/-- A row page by page: the address, the frame and the rights of each. -/
def Row.expand (r : Row) : List (U32 × U32 × String) :=
  (List.range r.pages.toNat).map fun i =>
    (r.virt + BitVec.ofNat 32 (4096 * i), r.phys + BitVec.ofNat 32 (4096 * i), r.rights)

/-- The second row goes on where the first one ends, in both directions and with its rights. -/
def Row.Meets (r r' : Row) : Prop :=
  r'.virt = r.virt + r.pages * PAGE_SIZE ∧ r'.phys = r.phys + r.pages * PAGE_SIZE ∧
    r'.rights = r.rights

/-- The pages below page `p` that are present at both levels, in order. -/
def listed (s : Machine) (p : Nat) : List (U32 × U32 × String) :=
  (List.range p).filterMap fun q =>
    (s.leaf q).map fun e => (BitVec.ofNat 32 (4096 * q), e &&& FRAME, rights e)

section

variable {s : Machine}

theorem listed_page {p : Nat} {e : U32} (he : s.leaf p = some e) :
    listed s (p + 1) = listed s p ++ [(BitVec.ofNat 32 (4096 * p), e &&& FRAME, rights e)] := by
  simp [listed, List.range_succ, he]

theorem listed_skip {p : Nat} (k : Nat) (hnone : ∀ q, p ≤ q → q < p + k → s.leaf q = none) :
    listed s (p + k) = listed s p := by
  induction k with
  | zero => rfl
  | succ k ih =>
    have hlast := hnone (p + k) (by omega) (by omega)
    have hbefore := ih fun q hlo hhi => hnone q hlo (by omega)
    rw [← Nat.add_assoc, ← hbefore]
    simp [listed, List.range_succ, hlast]

end

/-! ## The invariant -/

/-- The row of a run that is still open. -/
def Run.row (r : Run) : Row := printRun r.virt r.phys r.flags r.pages

/-- The address right after a row, not reduced. -/
def Row.stop (r : Row) : Nat := r.virt.toNat + 4096 * r.pages.toNat

/-- All rows, with that of the open run. -/
def Listing.all (out : Listing) : List Row := out.rows ++ (out.run.map Run.row).toList

/-- The pages below page `p` are listed.  An open run ends at `p`; without one the last row ends
below `p`. -/
structure Listing.Covers (out : Listing) (s : Machine) (p : Nat) : Prop where
  listed : out.all.flatMap Row.expand = listed s p
  apart : out.all.IsChain fun r r' => ¬r.Meets r'
  run : ∀ r, out.run = some r → r.row.stop = 4096 * p
  rows : out.run = none → ∀ r, out.rows.getLast? = some r → r.stop < 4096 * p

theorem covers_empty (s : Machine) : (⟨[], none⟩ : Listing).Covers s 0 where
  listed := rfl
  apart := List.isChain_nil
  run := fun _ hr => by cases hr
  rows := fun _ _ hr => by cases hr

/-- The end of a row that is in the address space. -/
theorem Row.toNat_stop {r : Row} (h : r.stop < 2 ^ 32) :
    (r.virt + r.pages * PAGE_SIZE).toNat = r.stop := by
  unfold Row.stop at *
  rw [BitVec.toNat_add, BitVec.toNat_mul, show PAGE_SIZE.toNat = 4096 from rfl]
  omega

/-- A page right behind a row, with the frame and the rights that go on, makes it longer. -/
theorem Run.expand_grow {r : Run} (h : r.pages.toNat + 1 < 2 ^ 32) :
    ({ r with pages := r.pages + 1 } : Run).row.expand
      = r.row.expand ++ [(r.virt + r.pages * PAGE_SIZE, r.phys + r.pages * PAGE_SIZE,
          rights r.flags)] := by
  have hsucc : (r.pages + 1).toNat = r.pages.toNat + 1 := by bv_omega
  have hspan : BitVec.ofNat 32 (4096 * r.pages.toNat) = r.pages * PAGE_SIZE := by
    apply BitVec.eq_of_toNat_eq
    rw [BitVec.toNat_ofNat, BitVec.toNat_mul, show PAGE_SIZE.toNat = 4096 from rfl, Nat.mul_comm]
  unfold Row.expand
  show (List.range (r.pages + 1).toNat).map _ = (List.range r.pages.toNat).map _ ++ _
  rw [hsucc, List.range_succ, List.map_append]
  simp only [List.map_cons, List.map_nil, hspan]
  rfl

theorem expand_one (virt frame flags : U32) :
    (⟨virt, frame, flags, 1⟩ : Run).row.expand = [(virt, frame, rights flags)] := by
  simp [Row.expand, Run.row, printRun]

theorem isChain_concat {R : Row → Row → Prop} {rows : List Row} {r : Row} (h : rows.IsChain R)
    (hr : ∀ x, rows.getLast? = some x → R x r) : (rows ++ [r]).IsChain R := by
  refine List.isChain_append.mpr ⟨h, List.isChain_singleton r, ?_⟩
  intro x hx y hy
  cases hy
  exact hr x hx

/-- Whether a row goes on in another does not depend on the length of the other. -/
theorem Row.meets_row_iff (x : Row) (r : Run) (n : U32) :
    x.Meets ({ r with pages := n } : Run).row ↔ x.Meets r.row := by
  simp only [Row.Meets, Run.row, printRun]

namespace Listing.Covers

variable {s : Machine} {out : Listing} {p : Nat}

/-- Absent pages close the open run. -/
theorem skip (h : out.Covers s p) {k : Nat} (hk : 0 < k)
    (hnone : ∀ q, p ≤ q → q < p + k → s.leaf q = none) : (out.extend none).Covers s (p + k) := by
  obtain ⟨rows, run⟩ := out
  cases run with
  | none =>
    have hall : ((⟨rows, none⟩ : Listing).extend none) = ⟨rows, none⟩ := by
      simp [Listing.extend, extendRun]
    rw [hall]
    refine ⟨by rw [listed_skip k hnone]; exact h.listed, h.apart, fun _ hr => (by cases hr),
      fun _ r hr => ?_⟩
    have := h.rows rfl r hr
    omega
  | some r =>
    have hall : ((⟨rows, some r⟩ : Listing).extend none) = ⟨rows ++ [r.row], none⟩ := rfl
    rw [hall]
    refine ⟨?_, ?_, fun _ hr => (by cases hr), fun _ r' hr' => ?_⟩
    · rw [listed_skip k hnone, ← h.listed]
      simp [Listing.all]
    · have := h.apart
      simpa [Listing.all] using this
    · rw [List.getLast?_concat, Option.some.injEq] at hr'
      rw [← hr', h.run r rfl]
      omega

section Page

variable {rows : List Row} {e : U32}

/-- The run that a page opens. -/
def fresh (p : Nat) (e : U32) : Run := ⟨BitVec.ofNat 32 (4096 * p), e &&& FRAME, e &&& FLAGS, 1⟩

theorem toNat_page (hp : p < 2 ^ 20) : (BitVec.ofNat 32 (4096 * p) : U32).toNat = 4096 * p := by
  rw [BitVec.toNat_ofNat]
  omega

theorem fresh_stop (hp : p < 2 ^ 20) (e : U32) : (fresh p e).row.stop = 4096 * (p + 1) := by
  show (BitVec.ofNat 32 (4096 * p) : U32).toNat + 4096 * (1 : U32).toNat = 4096 * (p + 1)
  rw [toNat_page hp]
  rfl

theorem fresh_expand (p : Nat) (e : U32) :
    (fresh p e).row.expand = [(BitVec.ofNat 32 (4096 * p), e &&& FRAME, rights e)] := by
  rw [fresh, expand_one, rights_and_flags]

/-- Without an open run the page opens one: the last row ends below it. -/
theorem start (h : (⟨rows, none⟩ : Listing).Covers s p) (hp : p < 2 ^ 20)
    (he : s.leaf p = some e) : (⟨rows, some (fresh p e)⟩ : Listing).Covers s (p + 1) := by
  have hlisted := h.listed
  have hapart := h.apart
  simp only [Listing.all, Option.map_none, Option.toList_none, List.append_nil] at hlisted hapart
  refine ⟨?_, ?_, ?_, fun hr => (by cases hr)⟩
  · rw [listed_page he, ← hlisted, ← fresh_expand]
    simp [Listing.all]
  · refine isChain_concat hapart fun r hr => ?_
    have hbelow := h.rows rfl r hr
    rintro ⟨hmeet, _⟩
    have hend : (BitVec.ofNat 32 (4096 * p) : U32).toNat = r.stop := by
      rw [← Row.toNat_stop (by omega), ← hmeet]
      rfl
    rw [toNat_page hp] at hend
    omega
  · intro r hr
    rw [← Option.some.inj hr]
    exact fresh_stop hp e

/-- The page goes on where the open run ends. -/
theorem grow {r : Run} (h : (⟨rows, some r⟩ : Listing).Covers s p) (hp : p < 2 ^ 20)
    (he : s.leaf p = some e) (haddr : BitVec.ofNat 32 (4096 * p) = r.virt + r.pages * PAGE_SIZE)
    (hframe : e &&& FRAME = r.phys + r.pages * PAGE_SIZE) (hrights : rights e = rights r.flags) :
    (⟨rows, some { r with pages := r.pages + 1 }⟩ : Listing).Covers s (p + 1) := by
  have hstop : r.virt.toNat + 4096 * r.pages.toNat = 4096 * p := h.run r rfl
  have hlisted := h.listed
  have hapart := h.apart
  simp only [Listing.all, Option.map_some, Option.toList_some] at hlisted hapart
  rw [List.isChain_append] at hapart
  refine ⟨?_, ?_, ?_, fun hr => (by cases hr)⟩
  · rw [listed_page he, ← hlisted, haddr, hframe, hrights]
    simp only [Listing.all, Option.map_some, Option.toList_some, List.flatMap_append,
      List.flatMap_cons, List.flatMap_nil, List.append_nil, List.append_assoc]
    rw [Run.expand_grow (by omega)]
  · refine isChain_concat hapart.1 fun x hx => ?_
    rw [Row.meets_row_iff]
    exact hapart.2.2 x hx r.row rfl
  · intro r' hr'
    rw [← Option.some.inj hr']
    show r.virt.toNat + 4096 * (r.pages + 1).toNat = 4096 * (p + 1)
    bv_omega

/-- The page does not go on where the open run ends, and opens another. -/
theorem turn {r : Run} (h : (⟨rows, some r⟩ : Listing).Covers s p) (hp : p < 2 ^ 20)
    (he : s.leaf p = some e) (hbreak : ¬r.row.Meets (fresh p e).row) :
    (⟨rows ++ [r.row], some (fresh p e)⟩ : Listing).Covers s (p + 1) := by
  have hlisted := h.listed
  have hapart := h.apart
  simp only [Listing.all, Option.map_some, Option.toList_some] at hlisted hapart
  refine ⟨?_, ?_, ?_, fun hr => (by cases hr)⟩
  · rw [listed_page he, ← hlisted, ← fresh_expand]
    simp [Listing.all]
  · refine isChain_concat hapart fun x hx => ?_
    rw [List.getLast?_concat, Option.some.injEq] at hx
    rwa [← hx]
  · intro r' hr'
    rw [← Option.some.inj hr']
    exact fresh_stop hp e

/-- A page that is present goes to the open run or opens one. -/
theorem page (h : out.Covers s p) (hp : p < 2 ^ 20) (he : s.leaf p = some e) :
    (out.extend (some (BitVec.ofNat 32 (4096 * p), e &&& FRAME, e &&& FLAGS))).Covers s
      (p + 1) := by
  obtain ⟨rows, run⟩ := out
  cases run with
  | none =>
    simp only [Listing.extend, extendRun, List.append_nil]
    exact h.start hp he
  | some r =>
    simp only [Listing.extend, extendRun]
    split
    · rename_i hfollows
      obtain ⟨haddr, hframe, hbits⟩ := hfollows
      rw [List.append_nil]
      refine h.grow hp he haddr hframe ?_
      rw [← rights_and_flags e]
      exact rights_eq_iff.mpr (mask_eq_iff.mp hbits)
    · rename_i hbreak
      refine h.turn hp he fun hmeet => hbreak ?_
      obtain ⟨haddr, hframe, hrights⟩ := hmeet
      exact ⟨haddr, hframe, mask_eq_iff.mpr (rights_eq_iff.mp hrights)⟩

end Page

/-- What `dump` prints at the end. -/
theorem flush (out : Listing) : (out.extend none).rows = out.all := by
  obtain ⟨rows, run⟩ := out
  cases run <;> rfl

end Listing.Covers

/-! ## The walk -/

section Walk

variable {s : Machine} {dir : Nat}

theorem toNat_virt {index : Nat} (hdir : dir < 1024) (hindex : index < 1024) :
    BitVec.ofNat 32 dir <<< 22 ||| BitVec.ofNat 32 index <<< 12
      = (BitVec.ofNat 32 (4096 * (1024 * dir + index)) : U32) := by
  have hd : (BitVec.ofNat 32 dir <<< 22 : U32).toNat = dir * 2 ^ 22 := by
    rw [BitVec.toNat_shiftLeft, BitVec.toNat_ofNat, Nat.shiftLeft_eq]
    omega
  have hi : (BitVec.ofNat 32 index <<< 12 : U32).toNat = index * 2 ^ 12 := by
    rw [BitVec.toNat_shiftLeft, BitVec.toNat_ofNat, Nat.shiftLeft_eq]
    omega
  apply BitVec.eq_of_toNat_eq
  rw [Word.toNat_or_of_aligned (k := 22) (by omega) (by omega), hd, hi, BitVec.toNat_ofNat]
  omega

variable (hself : frameNo (s.dirWord 1023) = frameNo s.cr3)
  (hpres : present (s.dirWord 1023) = true)
include hself hpres

/-- The entries of a table, from `index` on. -/
theorem dumpTable_run (hdir : dir < 1024) (hp : present (s.dirWord dir) = true) (n : Nat) :
    ∀ (index : Nat) {out : Listing}, index + n ≤ 1024 → out.Covers s (1024 * dir + index) →
      ∃ out', (dumpTable dir index n out).run s = .ok (out', s) ∧
        out'.Covers s (1024 * dir + (index + n)) := by
  induction n with
  | zero => exact fun _ {out} _ h => ⟨out, rfl, h⟩
  | succ n ih =>
    intro index out hle h
    have hslot : (1024 * dir + index) / 1024 = dir ∧ (1024 * dir + index) % 1024 = index := by
      omega
    rw [dumpTable, Prog.bind_ok (load32_table_of_self hself hpres hdir (by omega) hp),
      toNat_virt hdir (by omega), show index + (n + 1) = index + 1 + n from by omega]
    by_cases hpte : present (s.tabWord dir index) = true
    · rw [if_neg (by rw [and_present_eq_zero, hpte]; decide)]
      have hleaf : s.leaf (1024 * dir + index) = some (s.tabWord dir index) := by
        have := leaf_eq_some (s := s) (p := 1024 * dir + index)
        rw [hslot.1, hslot.2] at this
        exact this hp hpte
      exact ih _ (by omega) (h.page (by omega) hleaf)
    · rw [if_pos ((and_present_eq_zero _).mpr (by simpa using hpte))]
      refine ih _ (by omega) (h.skip Nat.one_pos fun q hlo hhi => ?_)
      apply leaf_eq_none_of_tab
      rw [show q = 1024 * dir + index from by omega, hslot.1, hslot.2]
      simpa using hpte

/-- The entries of the directory, from `dir` on. -/
theorem dumpFrom_run (n : Nat) : ∀ (dir : Nat) {out : Listing}, dir + n ≤ 1024 →
    out.Covers s (1024 * dir) →
    ∃ out', (dumpFrom dir n out).run s = .ok (out', s) ∧ out'.Covers s (1024 * (dir + n)) := by
  induction n with
  | zero => exact fun _ {out} _ h => ⟨out, rfl, h⟩
  | succ n ih =>
    intro dir out hle h
    rw [dumpFrom, directoryEntry,
      Prog.bind_ok (load32_directory_of_self hself hpres (by omega : dir < 1024)),
      show dir + (n + 1) = dir + 1 + n from by omega]
    by_cases hpde : present (s.dirWord dir) = true
    · rw [if_neg (by rw [and_present_eq_zero, hpde]; decide)]
      obtain ⟨out', hrun, hout⟩ :=
        dumpTable_run hself hpres (by omega) hpde ENTRIES 0 (by decide) h
      rw [Prog.bind_ok hrun]
      exact ih _ (by omega) hout
    · rw [if_pos ((and_present_eq_zero _).mpr (by simpa using hpde))]
      refine ih _ (by omega) (h.skip (k := 1024) (by decide) fun q hlo hhi => ?_)
      apply leaf_eq_none_of_dir
      rw [show q / 1024 = dir from by omega]
      simpa using hpde

end Walk

/-- The whole walk. -/
theorem dump_run {s : Machine} (hself : frameNo (s.dirWord 1023) = frameNo s.cr3)
    (hpres : present (s.dirWord 1023) = true) :
    ∃ d, dump.run s = .ok (d, s) ∧ d.rows.flatMap Row.expand = listed s (2 ^ 20) ∧
      d.rows.IsChain fun r r' => ¬r.Meets r' := by
  obtain ⟨out, hrun, hout⟩ :=
    dumpFrom_run hself hpres ENTRIES 0 (by decide) (covers_empty s)
  rw [dump, Prog.bind_ok (Prog.run_gets _ s), Prog.bind_ok (Prog.run_gets _ s),
    Prog.bind_ok hrun]
  refine ⟨_, rfl, ?_, ?_⟩
  · rw [Listing.Covers.flush]
    exact hout.listed
  · rw [Listing.Covers.flush]
    exact hout.apart

/-- Whatever the directory and the tables hold, the rows page by page are the pages that are present
at both levels, in order, each with its frame and its rights.  No two rows in a row could be one,
and the text of the rights stands for the two bits. -/
theorem dump_faithful {s : Machine} (hself : frameNo (s.dirWord 1023) = frameNo s.cr3)
    (hpres : present (s.dirWord 1023) = true) :
    ∃ d, dump.run s = .ok (d, s) ∧ d.rows.flatMap Row.expand = listed s (2 ^ 20) ∧
      (d.rows.IsChain fun r r' => ¬r.Meets r') ∧
      ∀ x y, rights x = rights y ↔ writable x = writable y ∧ user x = user y := by
  obtain ⟨d, hrun, hrows, hapart⟩ := dump_run hself hpres
  exact ⟨d, hrun, hrows, hapart, fun x y => rights_eq_iff⟩

/-- A page that is mapped is listed. -/
theorem mem_listed {s : Machine} {p n : Nat} {e : U32} (he : s.leaf p = some e) (hp : p < n) :
    (BitVec.ofNat 32 (4096 * p), e &&& FRAME, rights e) ∈ listed s n :=
  List.mem_filterMap.mpr ⟨p, List.mem_range.mpr hp, by rw [he]; rfl⟩

/-- Pages with other rights are in other rows. -/
theorem two_le_rows {rows : List Row} {x y : U32 × U32 × String}
    (hx : x ∈ rows.flatMap Row.expand) (hy : y ∈ rows.flatMap Row.expand)
    (hne : x.2.2 ≠ y.2.2) : 2 ≤ rows.length := by
  have hrights : ∀ {r : Row} {z : U32 × U32 × String}, z ∈ r.expand → z.2.2 = r.rights := by
    intro r z hz
    obtain ⟨i, _, rfl⟩ := List.mem_map.mp hz
    rfl
  obtain ⟨r, hr, hxr⟩ := List.mem_flatMap.mp hx
  obtain ⟨r', hr', hyr⟩ := List.mem_flatMap.mp hy
  by_contra hone
  obtain ⟨q, rfl⟩ : ∃ q, rows = [q] := List.length_eq_one_iff.mp (by
    have hpos := List.length_pos_of_mem hr
    omega)
  rw [List.mem_singleton] at hr hr'
  exact hne ((hrights hxr).trans (by rw [hr, ← hr', hrights hyr]))

/-- After `paging::init` and a call that has mapped a user page: the low window and that page are
listed, in rows of their own. -/
theorem dump_faithful_smallLayout : ∃ s d, Reachable smallLayout s ∧
    frameNo (s.dirWord 1023) = frameNo s.cr3 ∧ present (s.dirWord 1023) = true ∧
    dump.run s = .ok (d, s) ∧ d.rows.flatMap Row.expand = listed s (2 ^ 20) ∧
    (0xB8000, 0xB8000, "rw kernel") ∈ d.rows.flatMap Row.expand ∧
    (0x800000, 0x201000, "rw user") ∈ d.rows.flatMap Row.expand ∧ 2 ≤ d.rows.length := by
  obtain ⟨s, t, hs, htab, _, _, hmap, ht, huser⟩ := exists_demand_smallLayout
  have hpaged := ht.paged smallLayout_fits
  obtain ⟨d, hrun, hrows, _⟩ := dump_faithful hpaged.self hpaged.selfPresent
  have hscreen : ∃ e, t.leaf 0xB8 = some e ∧ e.toNat = 0xB8003 := by
    obtain ⟨hframe, hpres, _⟩ := entry_bits htab.dirLow
    have hword : (s.tabWord 0 0xB8).toNat = 4096 * 0xB8 + 3 := by
      rw [tabWord, hframe]
      exact htab.low 0xB8 (by decide)
    refine ⟨_, ?_, hword⟩
    rw [hmap.leaf_done (hs.paged smallLayout_fits) (by decide) (by decide), if_neg (by decide)]
    exact leaf_eq_some hpres (entry_bits hword).2.1
  obtain ⟨e, he, hval⟩ := hscreen
  obtain rfl : e = 0xB8003 := BitVec.eq_of_toNat_eq hval
  have hlow := mem_listed he (show 0xB8 < 2 ^ 20 by decide)
  have hhigh := mem_listed huser (show 0x800 < 2 ^ 20 by decide)
  rw [← hrows] at hlow hhigh
  exact ⟨t, d, ht, hpaged.self, hpaged.selfPresent, hrun, hrows, hlow, hhigh,
    two_le_rows hlow hhigh (by decide)⟩

end Kfs.Paging
