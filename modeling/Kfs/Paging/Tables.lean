import Kfs.Paging
import Kfs.Pmm.Refine

/-!
# The tables in physical memory

`Paged` is the shape of the tables that every paging function keeps: the directory maps itself at
entry 1023, a present entry of the directory is writable, no two of them hold one table, and no
table is a free frame.

There are two groups.

* The entries as numbers: what the masks and shifts of the source compute.
* What a change of memory outside the tables (`SameTables`), of one table entry (`setEntry`) and
  of one directory entry (`installTable`) does to `dirWord`, `tabWord` and `leaf`.
-/

namespace Kfs

open Lib Mem

namespace Paging

/-! ## Entries and addresses as numbers -/

theorem and_present_eq_zero (e : U32) : e &&& PRESENT = 0 ↔ present e = false :=
  Word.and_twoPow_eq_zero e 0

theorem and_writable_eq_zero (e : U32) : e &&& WRITABLE = 0 ↔ writable e = false :=
  Word.and_twoPow_eq_zero e 1

theorem toNat_and_frame (e : U32) : (e &&& FRAME).toNat = 4096 * frameNo e :=
  Word.toNat_and_high (k := 12) e (by decide) (by decide)

theorem dirIndex_eq (addr : U32) : dirIndex addr = addr.toNat / 4096 / 1024 := by
  rw [dirIndex, Word.toNat_shiftRight, Nat.div_div_eq_div_mul]
  rfl

theorem tableIndex_eq (addr : U32) : tableIndex addr = addr.toNat / 4096 % 1024 := by
  rw [tableIndex, Word.toNat_and_low (k := 10) _ (by decide), Word.toNat_shiftRight]
  rfl

theorem toNat_offset (addr : U32) : (offset addr).toNat = addr.toNat % 4096 :=
  Word.toNat_and_low (k := 12) addr (by decide)

theorem dirIndex_lt (addr : U32) : dirIndex addr < 1024 := by
  have h := addr.isLt
  rw [dirIndex_eq]
  omega

theorem tableIndex_lt (addr : U32) : tableIndex addr < 1024 := by
  rw [tableIndex_eq]
  omega

/-- An address below the window is not governed by the directory's own entry. -/
theorem dirIndex_lt_of_lt {addr : U32} (h : addr < TABLE_WINDOW) : dirIndex addr < 1023 := by
  rw [dirIndex_eq]
  bv_omega

theorem toNat_ptrAdd_directory {i : Nat} (hi : i < 1024) :
    (ptrAdd DIRECTORY i).toNat = 0xFFFFF000 + 4 * i := by
  rw [ptrAdd, BitVec.toNat_add, BitVec.toNat_ofNat, show DIRECTORY.toNat = 0xFFFFF000 from rfl]
  omega

theorem toNat_ptrAdd_table {d j : Nat} (hd : d < 1024) (hj : j < 1024) :
    (ptrAdd (table d) j).toNat = 0xFFC00000 + 4096 * d + 4 * j := by
  rw [ptrAdd, table, BitVec.toNat_add, BitVec.toNat_add, BitVec.toNat_ofNat, BitVec.toNat_ofNat,
    show TABLE_WINDOW.toNat = 0xFFC00000 from rfl]
  omega

/-- The entry that `map_page` and `protect` write. -/
abbrev entryFor (frame flags : U32) : U32 := (frame &&& FRAME) ||| flags ||| PRESENT

theorem present_entry (e flags : U32) : present (entryFor e flags) = true := by
  have h : PRESENT.getLsbD 0 = true := by decide
  rw [present, BitVec.getLsbD_or, h, Bool.or_true]

/-- The frame and the flags of the entry that `map_page` and `protect` write. -/
theorem toNat_entry (e : U32) {flags : U32} (h : flags.toNat < 4096) :
    (entryFor e flags).toNat = 4096 * frameNo e + (flags ||| PRESENT).toNat := by
  have hlow : (flags ||| PRESENT).toNat < 2 ^ 12 :=
    Word.toNat_or_lt h (by decide)
  rw [entryFor, BitVec.or_assoc, Word.toNat_or_of_aligned (k := 12) _ hlow, toNat_and_frame]
  rw [toNat_and_frame]
  omega

theorem frameNo_entry (e : U32) {flags : U32} (h : flags.toNat < 4096) :
    frameNo (entryFor e flags) = frameNo e := by
  have hlow : (flags ||| PRESENT).toNat < 2 ^ 12 := Word.toNat_or_lt h (by decide)
  rw [frameNo, toNat_entry e h]
  omega

theorem writable_entry (e flags : U32) :
    writable (entryFor e flags) = writable flags := by
  have haligned : (e &&& FRAME).toNat % 2 ^ 12 = 0 := by
    rw [toNat_and_frame]
    omega
  have h : PRESENT.getLsbD 1 = false := by decide
  rw [writable, entryFor, BitVec.or_assoc, Word.getLsbD_or_of_aligned haligned _ (by decide),
    BitVec.getLsbD_or, h, Bool.or_false]
  rfl

theorem user_entry (e flags : U32) :
    Machine.user (entryFor e flags) = Machine.user flags := by
  have haligned : (e &&& FRAME).toNat % 2 ^ 12 = 0 := by
    rw [toNat_and_frame]
    omega
  have h : PRESENT.getLsbD 2 = false := by decide
  rw [Machine.user, entryFor, BitVec.or_assoc, Word.getLsbD_or_of_aligned haligned _ (by decide),
    BitVec.getLsbD_or, h, Bool.or_false]
  rfl

/-- The two halves of the entry, as the walk reads them back. -/
theorem entry_and_frame (e : U32) {flags : U32} (h : flags.toNat < 4096) :
    entryFor e flags &&& FRAME = e &&& FRAME := by
  apply BitVec.eq_of_toNat_eq
  rw [toNat_and_frame, toNat_and_frame, frameNo_entry e h]

theorem entry_and_low (e : U32) {flags : U32} (h : flags.toNat < 4096) :
    entryFor e flags &&& 0xFFF = flags ||| PRESENT := by
  apply BitVec.eq_of_toNat_eq
  have hlow : (flags ||| PRESENT).toNat < 2 ^ 12 := Word.toNat_or_lt h (by decide)
  rw [Word.toNat_and_low (k := 12) _ (by decide), toNat_entry e h]
  omega

/-- A second entry for the same page keeps the frame. -/
theorem entryFor_entryFor (e flags : U32) {flags' : U32} (h : flags'.toNat < 4096) :
    entryFor (entryFor e flags') flags = entryFor e flags := by
  rw [entryFor, entry_and_frame e h]

theorem or_writable_eq {flags : U32} (h : writable flags = true) : flags ||| WRITABLE = flags := by
  apply BitVec.eq_of_getLsbD_eq
  intro i hi
  rw [BitVec.getLsbD_or, show WRITABLE = BitVec.twoPow 32 1 from rfl, BitVec.getLsbD_twoPow]
  by_cases hi1 : i = 1
  · subst hi1
    have hbit : flags.getLsbD 1 = true := h
    rw [hbit, Bool.true_or]
  · simp [Ne.symm hi1]

/-- The directory entry of a table that `get_page` installs. -/
theorem tableEntry_bits {frame : U32} {k : Nat} (hf : frame.toNat = 4096 * k) (addr : U32) :
    frameNo (frame ||| tableFlags addr) = k ∧
      present (frame ||| tableFlags addr) = true ∧
      writable (frame ||| tableFlags addr) = true := by
  have haligned : frame.toNat % 2 ^ 12 = 0 := by omega
  have hflags : (tableFlags addr).toNat < 2 ^ 12 ∧ (tableFlags addr).getLsbD 0 = true ∧
      (tableFlags addr).getLsbD 1 = true := by
    unfold tableFlags
    split <;> decide
  obtain ⟨hlt, h0, h1⟩ := hflags
  refine ⟨?_, ?_, ?_⟩
  · rw [frameNo, Word.toNat_or_of_aligned haligned hlt]
    omega
  · rw [present, Word.getLsbD_or_of_aligned haligned _ (by decide), h0]
  · rw [writable, Word.getLsbD_or_of_aligned haligned _ (by decide), h1]

/-- It is open to ring 3 exactly in the slots of user space. -/
theorem user_or_tableFlags {frame : U32} {k : Nat} (hf : frame.toNat = 4096 * k) (addr : U32) :
    Machine.user (frame ||| tableFlags addr)
      = decide (1 ≤ dirIndex addr ∧ dirIndex addr < 768) := by
  rw [Machine.user, Word.getLsbD_or_of_aligned (k := 12) (by omega) _ (by decide), tableFlags]
  cases hkernel : isKernel addr with
  | true =>
    have hnot : ¬(0x00400000 ≤ addr.toNat ∧ addr.toNat < 0xC0000000) := fun h => by
      rw [(isKernel_eq_false_iff addr).mpr h] at hkernel
      cases hkernel
    have hslot : ¬(1 ≤ dirIndex addr ∧ dirIndex addr < 768) := by
      rw [dirIndex_eq]
      omega
    rw [decide_eq_false hslot]
    decide
  | false =>
    rw [isKernel_eq_false_iff] at hkernel
    have hslot : 1 ≤ dirIndex addr ∧ dirIndex addr < 768 := by
      rw [dirIndex_eq]
      omega
    rw [decide_eq_true hslot]
    decide

end Paging

namespace Machine

/-! ## The frames of the tables -/

/-- Frame `k` holds the directory or a page table. -/
def IsTable (s : Machine) (k : Nat) : Prop :=
  ∃ i, i < 1024 ∧ present (s.dirWord i) = true ∧ frameNo (s.dirWord i) = k

/-- The slots of the directory that hold a table. -/
def slots (s : Machine) : Finset Nat :=
  (Finset.range 1024).filter fun d => present (s.dirWord d) = true

theorem mem_slots {s : Machine} {d : Nat} :
    d ∈ s.slots ↔ d < 1024 ∧ present (s.dirWord d) = true := by
  simp [slots]

/-- Directory entry 1023 points at the directory, and the kernel may write through it. -/
structure SelfMapped (s : Machine) : Prop where
  self : frameNo (s.dirWord 1023) = frameNo s.cr3
  selfPresent : present (s.dirWord 1023) = true
  selfWritable : writable (s.dirWord 1023) = true

/-- The shape that every paging function keeps. -/
structure Paged (s : Machine) : Prop where
  self : frameNo (s.dirWord 1023) = frameNo s.cr3
  selfPresent : present (s.dirWord 1023) = true
  dirWritable : ∀ i, i < 1024 → present (s.dirWord i) = true → writable (s.dirWord i) = true
  tablesInj : ∀ i j, i < 1024 → j < 1024 → present (s.dirWord i) = true →
    present (s.dirWord j) = true → frameNo (s.dirWord i) = frameNo (s.dirWord j) → i = j
  tablesUsed : ∀ k, s.IsTable k → k ∉ s.pmm.frames

theorem Paged.selfMapped {s : Machine} (h : s.Paged) : s.SelfMapped :=
  ⟨h.self, h.selfPresent, h.dirWritable 1023 (by decide) h.selfPresent⟩

theorem Paged.isTable_cr3 {s : Machine} (h : s.Paged) : s.IsTable (frameNo s.cr3) :=
  ⟨1023, by decide, h.selfPresent, h.self⟩

theorem isTable_dir {s : Machine} {i : Nat} (hi : i < 1024)
    (hp : present (s.dirWord i) = true) : s.IsTable (frameNo (s.dirWord i)) :=
  ⟨i, hi, hp, rfl⟩

/-- A free frame is not a table. -/
theorem Paged.not_isTable {s : Machine} (h : s.Paged) {k : Nat} (hk : k ∈ s.pmm.frames) :
    ¬s.IsTable k := fun ht => h.tablesUsed k ht hk

/-- The table of a slot below the last is not the directory. -/
theorem Paged.table_ne_cr3 {s : Machine} (h : s.Paged) {i : Nat} (hi : i < 1023)
    (hp : present (s.dirWord i) = true) : frameNo (s.dirWord i) ≠ frameNo s.cr3 := by
  intro heq
  rw [← h.self] at heq
  have := h.tablesInj i 1023 (by omega) (by decide) hp h.selfPresent heq
  omega

/-! ## What a change of memory does to the tables -/

/-- A word depends on the bytes of its frame only. -/
theorem read32_frame_congr {m m' : ByteMem} {k j : Nat} (hj : j < 1024)
    (h : ∀ a, a / 4096 = k → m' a = m a) :
    m'.read32 (4096 * k + 4 * j) = m.read32 (4096 * k + 4 * j) :=
  ByteMem.read32_congr fun a _ _ => h a (by omega)

theorem dirWord_congr {s t : Machine} (hcr3 : t.cr3 = s.cr3)
    (h : ∀ a, a / 4096 = frameNo s.cr3 → t.mem a = s.mem a) {i : Nat} (hi : i < 1024) :
    t.dirWord i = s.dirWord i := by
  rw [dirWord, dirWord, hcr3, read32_frame_congr hi h]

theorem tabWord_congr {s t : Machine} {i j : Nat} (hdir : t.dirWord i = s.dirWord i)
    (hj : j < 1024) (h : ∀ a, a / 4096 = frameNo (s.dirWord i) → t.mem a = s.mem a) :
    t.tabWord i j = s.tabWord i j := by
  rw [tabWord, tabWord, hdir, read32_frame_congr hj h]

/-- A page keeps its entry when its directory entry and its table keep their words. -/
theorem leaf_congr {s t : Machine} {p : Nat} (hdir : t.dirWord (p / 1024) = s.dirWord (p / 1024))
    (htab : present (s.dirWord (p / 1024)) = true →
      t.tabWord (p / 1024) (p % 1024) = s.tabWord (p / 1024) (p % 1024)) :
    t.leaf p = s.leaf p := by
  unfold leaf
  rw [hdir]
  split
  · rename_i hp
    rw [htab hp]
  · rfl

theorem isTable_congr {s t : Machine} (h : ∀ i, i < 1024 → t.dirWord i = s.dirWord i) {k : Nat} :
    t.IsTable k ↔ s.IsTable k := by
  constructor <;> rintro ⟨i, hi, hp, hk⟩
  · rw [h i hi] at hp hk
    exact ⟨i, hi, hp, hk⟩
  · refine ⟨i, hi, ?_, ?_⟩ <;> rw [h i hi] <;> assumption

/-- The shape is a matter of the directory, as long as no table becomes free. -/
theorem Paged.congr {s t : Machine} (hs : s.Paged) (hcr3 : t.cr3 = s.cr3)
    (h : ∀ i, i < 1024 → t.dirWord i = s.dirWord i)
    (hfree : ∀ k, s.IsTable k → k ∉ t.pmm.frames) : t.Paged where
  self := by rw [h 1023 (by decide), hcr3]; exact hs.self
  selfPresent := by rw [h 1023 (by decide)]; exact hs.selfPresent
  dirWritable i hi hp := by
    rw [h i hi] at hp ⊢
    exact hs.dirWritable i hi hp
  tablesInj i j hi hj hpi hpj heq := by
    rw [h i hi] at hpi heq
    rw [h j hj] at hpj heq
    exact hs.tablesInj i j hi hj hpi hpj heq
  tablesUsed k hk := hfree k ((isTable_congr h).mp hk)

/-- Memory agrees on the directory and on every page table. -/
structure SameTables (s t : Machine) : Prop where
  cr3 : t.cr3 = s.cr3
  mem : ∀ a, s.IsTable (a / 4096) → t.mem a = s.mem a

namespace SameTables

variable {s t : Machine}

theorem dirWord (h : SameTables s t) (hs : s.Paged) {i : Nat} (hi : i < 1024) :
    t.dirWord i = s.dirWord i :=
  dirWord_congr h.cr3 (fun a ha => h.mem a (by rw [ha]; exact hs.isTable_cr3)) hi

theorem tabWord (h : SameTables s t) (hs : s.Paged) {i j : Nat} (hi : i < 1024) (hj : j < 1024)
    (hp : present (s.dirWord i) = true) : t.tabWord i j = s.tabWord i j :=
  tabWord_congr (h.dirWord hs hi) hj fun a ha => h.mem a (by rw [ha]; exact isTable_dir hi hp)

theorem leaf (h : SameTables s t) (hs : s.Paged) {p : Nat} (hp : p < 1024 * 1024) :
    t.leaf p = s.leaf p :=
  leaf_congr (h.dirWord hs (by omega)) fun hdir => h.tabWord hs (by omega) (by omega) hdir

theorem isTable_iff (h : SameTables s t) (hs : s.Paged) {k : Nat} :
    t.IsTable k ↔ s.IsTable k :=
  isTable_congr fun _ hi => h.dirWord hs hi

theorem slots (h : SameTables s t) (hs : s.Paged) : t.slots = s.slots := by
  ext d
  simp only [mem_slots]
  exact and_congr_right fun hd => by rw [h.dirWord hs hd]

/-- The shape survives a change of other memory. -/
theorem paged (h : SameTables s t) (hs : s.Paged)
    (hfree : ∀ k, s.IsTable k → k ∉ t.pmm.frames) : t.Paged :=
  hs.congr h.cr3 (fun _ hi => h.dirWord hs hi) hfree

end SameTables

/-! ## One table entry -/

/-- The machine with entry `j` of the table in slot `i` replaced. -/
def setEntry (s : Machine) (i j : Nat) (x : U32) : Machine :=
  { s with mem := s.mem.write32 (4096 * frameNo (s.dirWord i) + 4 * j) x }

/-- An entry whose first byte is zero. -/
theorem present_write8_zero (m : ByteMem) (a : Nat) :
    present (ByteMem.read32 (m.write8 a 0) a) = false := by
  rw [present, ByteMem.read32, ByteMem.write8_same, ByteMem.ofBytes, BitVec.getLsbD,
    BitVec.toNat_ofNat, Nat.testBit_zero, decide_eq_false_iff_not,
    show (0 : BitVec 8).toNat = 0 from rfl]
  omega

section SetEntry

variable {s : Machine} {i j : Nat} (x : U32)

theorem mem_setEntry_other {a : Nat} (ha : a / 4096 ≠ frameNo (s.dirWord i)) (hj : j < 1024) :
    (s.setEntry i j x).mem a = s.mem a :=
  ByteMem.write32_other s.mem x (by omega)

theorem dirWord_setEntry (hs : s.Paged) (hi : i < 1023) (hp : present (s.dirWord i) = true)
    (hj : j < 1024) {k : Nat} (hk : k < 1024) :
    (s.setEntry i j x).dirWord k = s.dirWord k := by
  refine dirWord_congr (s := s) (t := s.setEntry i j x) rfl
    (fun a ha => mem_setEntry_other x ?_ hj) hk
  rw [ha]
  exact (hs.table_ne_cr3 hi hp).symm

theorem tabWord_setEntry_same (hs : s.Paged) (hi : i < 1023) (hp : present (s.dirWord i) = true)
    (hj : j < 1024) : (s.setEntry i j x).tabWord i j = x := by
  rw [tabWord, dirWord_setEntry x hs hi hp hj (by omega)]
  exact ByteMem.read32_write32_same _ _ _

theorem tabWord_setEntry_other (hs : s.Paged) (hi : i < 1023) (hp : present (s.dirWord i) = true)
    (hj : j < 1024) {i' j' : Nat} (hi' : i' < 1024) (hj' : j' < 1024)
    (hp' : present (s.dirWord i') = true) (hne : ¬(i' = i ∧ j' = j)) :
    (s.setEntry i j x).tabWord i' j' = s.tabWord i' j' := by
  rw [tabWord, tabWord, dirWord_setEntry x hs hi hp hj hi']
  refine ByteMem.read32_write32_other s.mem x ?_
  by_cases hii : i' = i
  · subst hii
    have hjj : j' ≠ j := fun h => hne ⟨rfl, h⟩
    omega
  · have hframe : frameNo (s.dirWord i') ≠ frameNo (s.dirWord i) := fun h =>
      hii (hs.tablesInj i' i hi' (by omega) hp' hp h)
    omega

/-- Only the page of the entry changes. -/
theorem leaf_setEntry (hs : s.Paged) (hi : i < 1023) (hp : present (s.dirWord i) = true)
    (hj : j < 1024) {p : Nat} (hlt : p < 1024 * 1024) :
    (s.setEntry i j x).leaf p
      = if p = 1024 * i + j then (if present x = true then some x else none) else s.leaf p := by
  split
  · rename_i hpe
    have hdiv : p / 1024 = i := by omega
    have hmod : p % 1024 = j := by omega
    have htab : (s.setEntry i j x).tabWord (p / 1024) (p % 1024) = x := by
      rw [hdiv, hmod]
      exact tabWord_setEntry_same x hs hi hp hj
    have hdir : present ((s.setEntry i j x).dirWord (p / 1024)) = true := by
      rw [hdiv, dirWord_setEntry x hs hi hp hj (by omega)]
      exact hp
    split
    · rename_i hx
      rw [leaf_eq_some hdir (by rw [htab]; exact hx), htab]
    · rename_i hx
      exact leaf_eq_none_of_tab (by rw [htab]; simpa using hx)
  · rename_i hpe
    exact leaf_congr (dirWord_setEntry x hs hi hp hj (by omega)) fun hp' =>
      tabWord_setEntry_other x hs hi hp hj (by omega) (by omega) hp' (by omega)

theorem isTable_setEntry (hs : s.Paged) (hi : i < 1023) (hp : present (s.dirWord i) = true)
    (hj : j < 1024) {k : Nat} : (s.setEntry i j x).IsTable k ↔ s.IsTable k :=
  isTable_congr fun _ hk => dirWord_setEntry x hs hi hp hj hk

theorem Paged.setEntry (hs : s.Paged) (hi : i < 1023) (hp : present (s.dirWord i) = true)
    (hj : j < 1024) : (s.setEntry i j x).Paged :=
  hs.congr rfl (fun _ hk => dirWord_setEntry x hs hi hp hj hk) hs.tablesUsed

end SetEntry

/-! ## One new table -/

/-- The machine after `get_page` took frame `k` for the table of slot `i`: the directory entry
`x` is written and the frame is zero. -/
def installTable (s : Machine) (i k : Nat) (x : U32) : Machine :=
  { s with
    mem := (s.mem.write32 (4096 * frameNo s.cr3 + 4 * i) x).zeros (4096 * k) 4096
    pmm := s.pmm.setUsed k }

section InstallTable

variable {s : Machine} {i k : Nat} {x : U32}

theorem mem_installTable_other (hi : i < 1024) {a : Nat} (hdir : a / 4096 ≠ frameNo s.cr3)
    (hk : a / 4096 ≠ k) : (s.installTable i k x).mem a = s.mem a := by
  show ByteMem.zeros _ _ _ a = s.mem a
  rw [ByteMem.zeros_other _ (by omega), ByteMem.write32_other _ _ (by omega)]

theorem dirWord_installTable (hs : s.Paged) (hk : k ∈ s.pmm.frames) {j : Nat} (hj : j < 1024) :
    (s.installTable i k x).dirWord j = if j = i then x else s.dirWord j := by
  have hne : k ≠ frameNo s.cr3 := fun h => hs.not_isTable hk (h ▸ hs.isTable_cr3)
  have hzero : (s.installTable i k x).dirWord j
      = (s.mem.write32 (4096 * frameNo s.cr3 + 4 * i) x).read32
          (4096 * frameNo s.cr3 + 4 * j) :=
    read32_frame_congr (k := frameNo s.cr3) hj fun a ha => ByteMem.zeros_other _ (by omega)
  rw [hzero]
  split
  · rename_i hji
    rw [hji, ByteMem.read32_write32_same]
  · rename_i hji
    rw [ByteMem.read32_write32_other _ _ (by omega)]
    rfl

/-- The new table is empty, and the other tables keep their entries. -/
theorem tabWord_installTable (hs : s.Paged) (hi : i < 1023) (hk : k ∈ s.pmm.frames)
    (hx : frameNo x = k) {j l : Nat} (hj : j < 1023) (hl : l < 1024)
    (hp : present ((s.installTable i k x).dirWord j) = true) :
    (s.installTable i k x).tabWord j l = if j = i then 0 else s.tabWord j l := by
  have hdir := dirWord_installTable (x := x) hs hk (i := i) (j := j) (by omega)
  rw [hdir] at hp
  rw [tabWord, hdir]
  split
  · rename_i hji
    rw [hx]
    exact ByteMem.read32_zeros _ (by omega)
  · rename_i hji
    rw [if_neg hji] at hp
    rw [tabWord]
    refine read32_frame_congr hl fun a ha => mem_installTable_other (by omega) ?_ ?_
    · rw [ha]
      exact hs.table_ne_cr3 hj hp
    · rw [ha]
      exact fun h => hs.not_isTable hk (h ▸ isTable_dir (by omega) hp)

/-- A new table maps nothing. -/
theorem leaf_installTable (hs : s.Paged) (hi : i < 1023) (hp : present (s.dirWord i) = false)
    (hk : k ∈ s.pmm.frames) (hx : frameNo x = k) {p : Nat} (hlt : p < 1023 * 1024) :
    (s.installTable i k x).leaf p = s.leaf p := by
  have hdir := dirWord_installTable (x := x) hs hk (i := i) (j := p / 1024) (by omega)
  by_cases hpi : p / 1024 = i
  · rw [leaf_eq_none_of_dir (s := s) (by rw [hpi]; exact hp)]
    by_cases hx' : present x = true
    · refine leaf_eq_none_of_tab ?_
      rw [tabWord_installTable hs hi hk hx (by omega) (by omega)
        (by rw [hdir, if_pos hpi]; exact hx'), if_pos hpi]
      decide
    · exact leaf_eq_none_of_dir (by rw [hdir, if_pos hpi]; simpa using hx')
  · rw [if_neg hpi] at hdir
    refine leaf_congr hdir fun hp' => ?_
    rw [tabWord_installTable hs hi hk hx (by omega) (by omega) (by rw [hdir]; exact hp'),
      if_neg hpi]

theorem isTable_installTable (hs : s.Paged) (hi : i < 1024) (hp : present (s.dirWord i) = false)
    (hk : k ∈ s.pmm.frames) (hx : frameNo x = k) (hxp : present x = true) {l : Nat} :
    (s.installTable i k x).IsTable l ↔ l = k ∨ s.IsTable l := by
  have hdir : ∀ {j}, j < 1024 →
      (s.installTable i k x).dirWord j = if j = i then x else s.dirWord j := fun hj =>
    dirWord_installTable hs hk hj
  constructor
  · rintro ⟨j, hj, hpj, hl⟩
    rw [hdir hj] at hpj hl
    split at hl
    · exact Or.inl (hl.symm.trans hx)
    · rename_i hji
      rw [if_neg hji] at hpj
      exact Or.inr ⟨j, hj, hpj, hl⟩
  · rintro (rfl | ⟨j, hj, hpj, hl⟩)
    · exact ⟨i, hi, by rw [hdir hi, if_pos rfl]; exact hxp, by rw [hdir hi, if_pos rfl]; exact hx⟩
    · have hji : j ≠ i := fun h => by
        rw [h, hp] at hpj
        cases hpj
      exact ⟨j, hj, by rw [hdir hj, if_neg hji]; exact hpj,
        by rw [hdir hj, if_neg hji]; exact hl⟩

theorem Paged.installTable (hs : s.Paged) (hi : i < 1023) (hp : present (s.dirWord i) = false)
    (hk : k ∈ s.pmm.frames) (hx : frameNo x = k) (hxp : present x = true)
    (hxw : writable x = true) : (s.installTable i k x).Paged := by
  have hdir : ∀ {j}, j < 1024 →
      (s.installTable i k x).dirWord j = if j = i then x else s.dirWord j := fun hj =>
    dirWord_installTable hs hk hj
  have hold : ∀ {j}, j < 1024 → present (s.dirWord j) = true → frameNo (s.dirWord j) ≠ k :=
    fun hj hpj h => hs.not_isTable hk (h ▸ isTable_dir hj hpj)
  refine ⟨?_, ?_, fun j hj hpj => ?_, fun j l hj hl hpj hpl heq => ?_, fun l hl hfree => ?_⟩
  · rw [hdir (by decide), if_neg (by omega)]
    exact hs.self
  · rw [hdir (by decide), if_neg (by omega)]
    exact hs.selfPresent
  · rw [hdir hj] at hpj ⊢
    split at hpj
    · rename_i hji
      rw [if_pos hji]
      exact hxw
    · rename_i hji
      rw [if_neg hji]
      exact hs.dirWritable j hj hpj
  · rw [hdir hj] at hpj heq
    rw [hdir hl] at hpl heq
    by_cases hji : j = i <;> by_cases hli : l = i
    · rw [hji, hli]
    · rw [if_pos hji, if_neg hli, hx] at heq
      rw [if_neg hli] at hpl
      exact absurd heq.symm (hold hl hpl)
    · rw [if_neg hji, if_pos hli, hx] at heq
      rw [if_neg hji] at hpj
      exact absurd heq (hold hj hpj)
    · rw [if_neg hji] at hpj heq
      rw [if_neg hli] at hpl heq
      exact hs.tablesInj j l hj hl hpj hpl heq
  · have hmem : l ∈ s.pmm.frames.erase k := by
      rw [← Pmm.frames_setUsed]
      exact hfree
    rw [Finset.mem_erase] at hmem
    rcases (isTable_installTable hs (by omega) hp hk hx hxp).mp hl with h | h
    · exact hmem.1 h
    · exact hs.tablesUsed l h hmem.2

end InstallTable

end Machine

end Kfs
