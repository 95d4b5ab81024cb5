import Kfs.Boot
import Kfs.Multiboot

/-!
# Reading the loader's memory map

`probe` of `kernel/src/multiboot.rs`.  It runs on the tables of `boot.asm`, reads the loader's
structures through the low window, and builds a `Ram` with `push`.

`probe_wf` says what holds of every map it returns.  `loader` is a machine whose loader left a given
list of entries.
-/

namespace Kfs.Multiboot

open Lib Mem Machine

/-- A load of eight bytes. -/
def load64 (v : U32) : Kernel U64 := do
  let lo ← load32 v
  let hi ← load32 (v + 4)
  pure (hi ++ lo)

/-- `u32::saturating_add`. -/
def saturatingAdd (a b : U32) : U32 :=
  if a.toNat + b.toNat < 2 ^ 32 then a + b else BitVec.allOnes 32

/-- The loop over the entries of the memory map.  Where the next entry lies depends on the
address alone, so a walk that passes `2 ^ 32` entries repeats one and never ends. -/
def walkMap (stop : U32) : Nat → U32 → Ram → Kernel Ram
  | 0, _, _ => Prog.stop .spins
  | fuel + 1, entry, ram =>
    if entry + 8 ≤ stop then do
      let size ← load32 entry
      let kind ← load32 (entry + 20)
      let base ← load64 (entry + 4)
      let len ← load64 (entry + 12)
      let ram := if kind = AVAILABLE then ram.push base len else ram
      if size = 0 then pure ram else walkMap stop fuel (entry + (size + 4)) ram
    else pure ram

/-- The part of `probe` that reads the memory map. -/
def probeMap (info flags : U32) : Kernel Ram := do
  if flags &&& FLAG_MMAP ≠ 0 then
    let length ← load32 (info + 44)
    let start ← load32 (info + 48)
    if start ≠ 0 ∧ start < REACHABLE then
      walkMap (saturatingAdd start length) (2 ^ 32) start
        { Ram.nothing with source := "multiboot memory map" }
    else pure Ram.nothing
  else pure Ram.nothing

/-- The part of `probe` that falls back to `mem_lower` and `mem_upper`. -/
def probeSizes (info flags : U32) (ram : Ram) : Kernel Ram := do
  if ram.count = 0 ∧ flags &&& FLAG_MEMORY ≠ 0 then
    let ram := { ram with source := "multiboot mem_lower and mem_upper" }
    let lower ← load32 (info + 4)
    let upper ← load32 (info + 8)
    let ram := ram.push 0 (lower.setWidth 64 * 1024)
    pure (ram.push 0x00100000 (upper.setWidth 64 * 1024))
  else pure ram

def probe (magic info : U32) : Kernel (Except String Ram) := do
  if magic ≠ BOOT_MAGIC then
    pure (.error "no multiboot magic in eax, this kernel needs a multiboot loader")
  else if info = 0 ∨ info ≥ REACHABLE then
    pure (.error "the multiboot information is out of the low window")
  else
    let flags ← load32 info
    let ram ← probeMap info flags
    let ram ← probeSizes info flags ram
    if ram.count = 0 then pure (.error "the loader described no usable memory")
    else pure (.ok ram)

/-! ## What every map satisfies -/

theorem load32_inv {s t : Machine} {v x : U32} (h : (load32 v).run s = .ok (x, t)) : t = s := by
  simp only [load32, Prog.bind_eq_ok] at h
  obtain ⟨_, s0, h0, _, s1, h1, _, s2, h2, _, s3, h3, hg⟩ := h
  cases hg
  rw [(resolve_inv h3).1, (resolve_inv h2).1, (resolve_inv h1).1, (resolve_inv h0).1]

theorem load64_inv {s t : Machine} {v : U32} {x : U64} (h : (load64 v).run s = .ok (x, t)) :
    t = s := by
  simp only [load64, Prog.bind_eq_ok] at h
  obtain ⟨_, s0, h0, _, s1, h1, hg⟩ := h
  cases hg
  rw [load32_inv h1, load32_inv h0]

theorem walkMap_wf (stop : U32) (fuel : Nat) : ∀ {entry : U32} {ram ram' : Ram} {s t : Machine},
    ram.Wf → (walkMap stop fuel entry ram).run s = .ok (ram', t) → ram'.Wf ∧ t = s := by
  induction fuel with
  | zero =>
    intro _ _ _ _ _ _ h
    cases h
  | succ fuel ih =>
    intro entry ram ram' s t hwf h
    rw [walkMap] at h
    split at h
    · simp only [Prog.bind_eq_ok] at h
      obtain ⟨size, s1, h1, kind, s2, h2, base, s3, h3, len, s4, h4, hrest⟩ := h
      have hs : s4 = s := by
        rw [load64_inv h4, load64_inv h3, load32_inv h2, load32_inv h1]
      have hnext : (if kind = AVAILABLE then ram.push base len else ram).Wf := by
        split
        · exact hwf.push base len
        · exact hwf
      split at hrest
      · cases hrest
        exact ⟨hnext, hs⟩
      · rw [hs] at hrest
        exact ih hnext hrest
    · cases h
      exact ⟨hwf, rfl⟩

theorem probeMap_wf {info flags : U32} {ram : Ram} {s t : Machine}
    (h : (probeMap info flags).run s = .ok (ram, t)) : ram.Wf ∧ t = s := by
  rw [probeMap] at h
  split at h
  · simp only [Prog.bind_eq_ok] at h
    obtain ⟨_, s1, h1, _, s2, h2, hrest⟩ := h
    have hs : s2 = s := by rw [load32_inv h2, load32_inv h1]
    rw [hs] at hrest
    split at hrest
    · exact walkMap_wf _ _ (Ram.wf_nothing.withSource _) hrest
    · cases hrest
      exact ⟨Ram.wf_nothing, rfl⟩
  · cases h
    exact ⟨Ram.wf_nothing, rfl⟩

theorem probeSizes_wf {info flags : U32} {ram ram' : Ram} {s t : Machine} (hwf : ram.Wf)
    (h : (probeSizes info flags ram).run s = .ok (ram', t)) : ram'.Wf ∧ t = s := by
  rw [probeSizes] at h
  split at h
  · simp only [Prog.bind_eq_ok] at h
    obtain ⟨_, s1, h1, _, s2, h2, hrest⟩ := h
    cases hrest
    exact ⟨((hwf.withSource _).push _ _).push _ _, by rw [load32_inv h2, load32_inv h1]⟩
  · cases h
    exact ⟨hwf, rfl⟩

/-- A map that `probe` returns is well formed and not empty, and `probe` writes nothing. -/
theorem probe_wf {magic info : U32} {ram : Ram} {s t : Machine}
    (h : (probe magic info).run s = .ok (.ok ram, t)) : ram.Wf ∧ ram.count ≠ 0 ∧ t = s := by
  rw [probe] at h
  split at h
  · cases h
  · split at h
    · cases h
    · simp only [Prog.bind_eq_ok] at h
      obtain ⟨_, s1, h1, ram1, s2, h2, ram2, s3, h3, hrest⟩ := h
      obtain ⟨hwf1, hs2⟩ := probeMap_wf h2
      obtain ⟨hwf2, hs3⟩ := probeSizes_wf hwf1 h3
      split at hrest
      · cases hrest
      · rename_i hcount
        cases hrest
        exact ⟨hwf2, hcount, by rw [hs3, hs2, load32_inv h1]⟩

/-- The maps that `probe` can return when the kernel starts. -/
def Reported (ram : Ram) : Prop :=
  ∃ L s magic info t, Loaded L s ∧ (probe magic info).run (bootAsm L s) = .ok (.ok ram, t)

theorem Reported.wf {ram : Ram} (h : Reported ram) : ram.Wf ∧ ram.count ≠ 0 := by
  obtain ⟨_, _, _, _, _, _, hrun⟩ := h
  obtain ⟨hwf, hcount, _⟩ := probe_wf hrun
  exact ⟨hwf, hcount⟩

/-! ## The low window -/

/-- A load below 4 MB reads the same physical address, whatever its alignment. -/
theorem load32_low {L : Layout} {s : Machine} (h : BootTables L s) {v : U32}
    (hv : v.toNat + 4 ≤ 0x400000) : (load32 v).run s = .ok (s.mem.read32 v.toNat, s) := by
  have hbyte : ∀ i, i < 4 →
      (resolve false (v + BitVec.ofNat 32 i)).run s = .ok (v.toNat + i, s) := by
    intro i hi
    have hsum : (v + BitVec.ofNat 32 i).toNat = v.toNat + i := by
      rw [BitVec.toNat_add, BitVec.toNat_ofNat]
      omega
    obtain ⟨e, hleaf, hframe, _⟩ :=
      leaf_identity h.dirLow h.low (p := (v.toNat + i) / 4096) (by omega)
    rw [resolve_read (e := e) (by rw [hsum]; exact hleaf), hsum, hframe, Nat.div_add_mod]
  have h0 : (resolve false v).run s = .ok (v.toNat, s) := by
    have := hbyte 0 (by decide)
    rwa [BitVec.add_zero, Nat.add_zero] at this
  rw [load32, Prog.bind_ok h0, Prog.bind_ok (hbyte 1 (by decide)),
    Prog.bind_ok (hbyte 2 (by decide)), Prog.bind_ok (hbyte 3 (by decide)), Prog.run_gets]
  rfl

/-! ## A loader for any short map -/

/-- The six words of an entry: its size, base, length and kind. -/
def entryWords (e : U64 × U64) : List U32 :=
  [20, e.1.setWidth 32, (e.1 >>> 32).setWidth 32, e.2.setWidth 32, (e.2 >>> 32).setWidth 32, 1]

/-- The entries lie in memory one after the other from `a` on. -/
def Stored (m : ByteMem) : Nat → List (U64 × U64) → Prop
  | _, [] => True
  | a, e :: es => (∀ i (h : i < 6), m.read32 (a + 4 * i) = (entryWords e)[i]) ∧ Stored m (a + 24) es

theorem append_words (x : U64) : (x >>> 32).setWidth 32 ++ x.setWidth 32 = x := by
  apply BitVec.eq_of_toNat_eq
  have hx := x.isLt
  rw [BitVec.toNat_append, BitVec.toNat_setWidth, BitVec.toNat_setWidth,
    BitVec.toNat_ushiftRight, Nat.shiftRight_eq_div_pow,
    ← Nat.shiftLeft_add_eq_or_of_lt (by omega), Nat.shiftLeft_eq]
  omega

/-- Word `i` of a list of entries. -/
def wordAt (es : List (U64 × U64)) (i : Nat) : U32 :=
  match es[i / 6]? with
  | some e => (entryWords e).getD (i % 6) 0
  | none => 0

theorem stored_of_words (m : ByteMem) (es : List (U64 × U64)) : ∀ a,
    (∀ i, i < 6 * es.length → m.read32 (a + 4 * i) = wordAt es i) → Stored m a es := by
  induction es with
  | nil => exact fun _ _ => trivial
  | cons e es ih =>
    intro a h
    simp only [List.length_cons] at h
    refine ⟨fun i hi => ?_, ih (a + 24) fun i hi => ?_⟩
    · rw [h i (by omega), wordAt, Nat.div_eq_of_lt hi, Nat.mod_eq_of_lt hi]
      have hlen : i < (entryWords e).length := hi
      simp only [List.getElem?_cons_zero]
      rw [List.getD_eq_getElem _ _ hlen]
      rfl
    · have hi' := h (i + 6) (by omega)
      rw [show a + 4 * (i + 6) = a + 24 + 4 * i from by omega] at hi'
      rw [hi', wordAt, wordAt, show (i + 6) / 6 = i / 6 + 1 from by omega,
        show (i + 6) % 6 = i % 6 from by omega, List.getElem?_cons_succ]

/-- Memory with the words `info` at 0x9000 and `n` words `map` at 0xA000, and nothing else. -/
def rawMem (info map : Nat → U32) (n : Nat) : ByteMem :=
  ByteMem.fill32 (ByteMem.fill32 (fun _ => 0) 0x9000 info 13) 0xA000 map n

/-- The machine of a loader that leaves this memory. -/
def rawLoader (info map : Nat → U32) (n : Nat) : Machine := ⟨rawMem info map n, 0, 0, Pmm.zero, []⟩

section Raw

variable (info map : Nat → U32) {n : Nat}

theorem loaded_rawLoader (hn : n ≤ 6000) : Loaded smallLayout (rawLoader info map n) := by
  obtain ⟨_, _, hd, _⟩ := smallLayout.dir_addr
  intro a ha
  show rawMem info map n a = 0
  rw [rawMem, ByteMem.fill32_other _ _ (by omega), ByteMem.fill32_other _ _ (by omega)]

/-- `boot.asm` writes nothing below the image. -/
theorem rawLoader_mem (n : Nat) {a : Nat} (ha : a < 0x100000) :
    (bootAsm smallLayout (rawLoader info map n)).mem a = rawMem info map n a := by
  obtain ⟨_, _, hd, _⟩ := smallLayout.dir_addr
  obtain ⟨_, _, hl, _⟩ := smallLayout.low_addr
  exact bootAsm_mem (rawLoader info map n) (by omega) (by omega)

theorem rawLoader_info (n : Nat) {i : Nat} (hi : i < 13) :
    (bootAsm smallLayout (rawLoader info map n)).mem.read32 (0x9000 + 4 * i) = info i := by
  rw [ByteMem.read32_congr fun p _ _ => rawLoader_mem info map n (by omega), rawMem,
    ByteMem.read32_congr fun p _ _ => ByteMem.fill32_other _ _ (by omega),
    ByteMem.read32_fill32 _ _ _ hi]

theorem rawLoader_map (hn : n ≤ 6000) {i : Nat} (hi : i < n) :
    (bootAsm smallLayout (rawLoader info map n)).mem.read32 (0xA000 + 4 * i) = map i := by
  rw [ByteMem.read32_congr fun p _ _ => rawLoader_mem info map n (by omega), rawMem,
    ByteMem.read32_fill32 _ _ _ hi]

end Raw

/-- The information structure of a loader with a map of `n` entries at 0xA000. -/
def infoWord (n i : Nat) : U32 :=
  if i = 0 then FLAG_MMAP else if i = 11 then BitVec.ofNat 32 (24 * n)
  else if i = 12 then 0xA000 else 0

/-- Memory as such a loader leaves it. -/
def loaderMem (es : List (U64 × U64)) : ByteMem :=
  ByteMem.fill32 (ByteMem.fill32 (fun _ => 0) 0x9000 (infoWord es.length) 13) 0xA000 (wordAt es)
    (6 * es.length)

/-- The map that the walk over these entries builds. -/
def ramOf (es : List (U64 × U64)) : Ram :=
  es.foldl (fun ram e => ram.push e.1 e.2)
    ({ Ram.nothing with source := "multiboot memory map" } : Ram)

/-- The machine that such a loader hands over. -/
def loader (es : List (U64 × U64)) : Machine := ⟨loaderMem es, 0, 0, Pmm.zero, []⟩

theorem loaded_loader (es : List (U64 × U64)) (hlen : es.length ≤ 1000) :
    Loaded smallLayout (loader es) := loaded_rawLoader _ _ (by omega)

end Kfs.Multiboot
