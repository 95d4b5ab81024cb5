import Kfs.Multiboot.Walk

/-!
# Where `probe` reads

The checks of `probe` are on the addresses where the header and the map start.  `Described` is what
they are meant to ensure of each byte that is read: it is in the low window, and in the header or
in the map.  `Contained` is what a loader must do for it, because the header is 52 bytes long, an
entry takes 24, and the loop goes on while eight bytes are left.
-/

namespace Kfs.Multiboot

open Lib Mem Machine

/-- The bytes that `probe` reads. -/
def bytesRead (s : Machine) (magic info : U32) : List U32 :=
  ((Reads.probe magic info).asked s.word).flatMap fun v => [v, v + 1, v + 2, v + 3]

/-- The byte at `a` is in the low window, and in the header or in the memory map. -/
def Described (m : ByteMem) (info : U32) (a : Nat) : Prop :=
  a < REACHABLE.toNat ∧
    ((info.toNat ≤ a ∧ a < info.toNat + 52) ∨
      ((m.read32 (info.toNat + 48)).toNat ≤ a ∧
        a < (m.read32 (info.toNat + 48)).toNat + (m.read32 (info.toNat + 44)).toNat))

/-- How much of the header `probe` reads. -/
def headerSize (flags : U32) : Nat :=
  if flags &&& FLAG_MMAP ≠ 0 then 52 else if flags &&& FLAG_MEMORY ≠ 0 then 12 else 4

theorem headerSize_bounds (flags : U32) : 4 ≤ headerSize flags ∧ headerSize flags ≤ 52 ∧
    (flags &&& FLAG_MEMORY ≠ 0 → 12 ≤ headerSize flags) := by
  unfold headerSize
  split_ifs <;> simp_all

/-- The header ends in the low window, and the 24 bytes of each entry that the loop comes to are
described. -/
structure Contained (s : Machine) (magic info : U32) : Prop where
  header : magic = BOOT_MAGIC → info ≠ 0 → info < REACHABLE →
    info.toNat + headerSize (s.mem.read32 info.toNat) ≤ REACHABLE.toNat
  entries : ∀ n b, pass s magic info n = some b → ∀ i, i < 24 →
    Described s.mem info (b.toNat + i)

/-! ## The words that are asked for -/

section Asked

variable {f : U32 → Except Stop U32} {magic info flags v : U32}

theorem mem_asked_probeMap : v ∈ (Reads.probeMap info flags).asked f ↔
    flags &&& FLAG_MMAP ≠ 0 ∧ (v = info + 44 ∨ ∃ length, f (info + 44) = .ok length ∧
      (v = info + 48 ∨ ∃ start, f (info + 48) = .ok start ∧ (start ≠ 0 ∧ start < REACHABLE) ∧
        ∃ n b, visit f (saturatingAdd start length) start n = some b ∧
          v ∈ (Reads.fields b).asked f)) := by
  have hwalk : ∀ {length start : U32} {ram : Ram},
      v ∈ (Reads.walkMap (saturatingAdd start length) (2 ^ 32) start ram).asked f ↔
        ∃ n b, visit f (saturatingAdd start length) start n = some b ∧
          v ∈ (Reads.fields b).asked f := by
    intro length start ram
    rw [mem_asked_walkMap]
    constructor
    · intro h
      obtain ⟨n, _, b, hb, hv⟩ := h
      exact ⟨n, b, hb, hv⟩
    · intro h
      obtain ⟨n, b, hb, hv⟩ := h
      obtain ⟨hreach, hle⟩ := reach_of_visit hb
      obtain ⟨m, hm, hm'⟩ :=
        exists_lt_orbit_eq (fun _ _ => BitVec.eq_of_toNat_eq) (fun c : U32 => c.isLt) n hreach
      exact ⟨m, hm, b, visit_of_reach hm' hle, hv⟩
  rw [Reads.probeMap]
  split
  · rename_i hflag
    simp only [Query.mem_asked_bind, Query.asked_get, Query.run_get, List.mem_singleton, hflag,
      true_and, ne_eq, not_false_eq_true]
    refine or_congr_right (exists_congr fun length => and_congr_right fun _ => or_congr_right
      (exists_congr fun start => and_congr_right fun _ => ?_))
    split
    · rename_i hin
      rw [hwalk]
      exact ⟨fun h => ⟨hin, h⟩, fun h => h.2⟩
    · rename_i hin
      simp only [Query.asked_pure, List.not_mem_nil, false_iff]
      exact fun h => hin h.1
  · rename_i hflag
    simp only [Query.asked_pure, List.not_mem_nil, false_iff]
    exact fun h => hflag h.1

theorem mem_asked_probeSizes {ram : Ram} : v ∈ (Reads.probeSizes info flags ram).asked f ↔
    (ram.count = 0 ∧ flags &&& FLAG_MEMORY ≠ 0) ∧
      (v = info + 4 ∨ ∃ lower, f (info + 4) = .ok lower ∧ v = info + 8) := by
  rw [Reads.probeSizes]
  split
  · rename_i hin
    simp only [Query.mem_asked_bind, Query.asked_get, Query.run_get, List.mem_singleton, hin,
      true_and, Query.asked_pure, List.not_mem_nil, and_false, exists_false, or_false, ne_eq,
      not_false_eq_true, and_self]
  · rename_i hin
    simp only [Query.asked_pure, List.not_mem_nil, false_iff]
    exact fun h => hin h.1

theorem mem_asked_probe : v ∈ (Reads.probe magic info).asked f ↔
    (magic = BOOT_MAGIC ∧ info ≠ 0 ∧ info < REACHABLE) ∧ (v = info ∨ ∃ flags, f info = .ok flags ∧
      (v ∈ (Reads.probeMap info flags).asked f ∨
        ∃ ram, (Reads.probeMap info flags).run f = .ok ram ∧
          v ∈ (Reads.probeSizes info flags ram).asked f)) := by
  rw [Reads.probe]
  split
  · rename_i hmagic
    simp only [Query.asked_pure, List.not_mem_nil, false_iff]
    exact fun h => hmagic h.1.1
  · rename_i hmagic
    split
    · rename_i hinfo
      simp only [Query.asked_pure, List.not_mem_nil, false_iff]
      intro h
      rcases hinfo with h0 | hge
      · exact h.1.2.1 h0
      · exact BitVec.not_le.mpr h.1.2.2 hge
    · rename_i hinfo
      obtain ⟨h0, hge⟩ := not_or.mp hinfo
      have hlast : ∀ ram : Ram, v ∉ ((if ram.count = 0 then
          pure (Except.error "the loader described no usable memory") else pure (.ok ram)) :
          Reads (Except String Ram)).asked f := by
        intro ram
        split <;> simp
      simp only [Query.mem_asked_bind, Query.asked_get, Query.run_get, List.mem_singleton, hlast,
        and_false, exists_false, or_false]
      exact ⟨fun h => ⟨⟨not_not.mp hmagic, h0, BitVec.not_le.mp hge⟩, h⟩, fun h => h.2⟩

end Asked

/-! ## The bytes that are read -/

section Bytes

variable {L : Layout} {s : Machine} {magic info : U32}

theorem Described.lt {m : ByteMem} {a : Nat} (h : Described m info a) : a < 0x400000 := h.1

/-- A word in the low window does not wrap. -/
theorem described_word_iff {m : ByteMem} {v : U32} :
    (∀ b ∈ [v, v + 1, v + 2, v + 3], Described m info b.toNat) ↔
      ∀ i, i < 4 → Described m info (v.toNat + i) := by
  have hadd : v.toNat < 0x400000 → (v + 1).toNat = v.toNat + 1 ∧ (v + 2).toNat = v.toNat + 2 ∧
      (v + 3).toNat = v.toNat + 3 := by
    intro hv
    refine ⟨?_, ?_, ?_⟩ <;> bv_omega
  constructor
  · intro h i hi
    have h0 := h v (by simp)
    obtain ⟨h1, h2, h3⟩ := hadd h0.lt
    have : i = 0 ∨ i = 1 ∨ i = 2 ∨ i = 3 := by omega
    rcases this with rfl | rfl | rfl | rfl
    · exact h0
    · exact h1 ▸ h (v + 1) (by simp)
    · exact h2 ▸ h (v + 2) (by simp)
    · exact h3 ▸ h (v + 3) (by simp)
  · intro h b hb
    have h0 := h 0 (by decide)
    obtain ⟨h1, h2, h3⟩ := hadd h0.lt
    simp only [List.mem_cons, List.not_mem_nil, or_false] at hb
    rcases hb with rfl | rfl | rfl | rfl
    · exact h0
    · exact h1 ▸ h 1 (by decide)
    · exact h2 ▸ h 2 (by decide)
    · exact h3 ▸ h 3 (by decide)

theorem bytesRead_iff : (∀ b ∈ bytesRead s magic info, Described s.mem info b.toNat) ↔
    ∀ v ∈ (Reads.probe magic info).asked s.word, ∀ i, i < 4 →
      Described s.mem info (v.toNat + i) := by
  simp only [bytesRead, List.mem_flatMap, forall_exists_index, and_imp]
  constructor
  · intro h v hv
    exact described_word_iff.mp fun b hb => h b v hv hb
  · intro h b v hv hb
    exact described_word_iff.mpr (h v hv) b hb

/-- A field of the header is described when it lies in the low window. -/
theorem described_header {m : ByteMem} {a : Nat} (hge : info.toNat ≤ a)
    (hlt : a < info.toNat + 52) (hlow : a < 0x400000) : Described m info a :=
  ⟨hlow, .inl ⟨hge, hlt⟩⟩

variable (h : BootTables L s)

include h

/-- An entry that lies whole in the low window is read word by word. -/
theorem mem_asked_fields {b v : U32} (hb : b.toNat + 24 ≤ 0x400000) :
    v ∈ (Reads.fields b).asked s.word ↔ ∃ k, k < 6 ∧ v.toNat = b.toNat + 4 * k := by
  rw [(fields_low h hb).2]
  simp only [List.mem_cons, List.not_mem_nil, or_false]
  constructor
  · intro hv
    rcases hv with rfl | rfl | rfl | rfl | rfl | rfl
    · exact ⟨0, by decide, rfl⟩
    · exact ⟨5, by decide, by bv_omega⟩
    · exact ⟨1, by decide, by bv_omega⟩
    · exact ⟨2, by decide, by bv_omega⟩
    · exact ⟨3, by decide, by bv_omega⟩
    · exact ⟨4, by decide, by bv_omega⟩
  · intro h
    obtain ⟨k, hk, hv⟩ := h
    have : k = 0 ∨ k = 1 ∨ k = 2 ∨ k = 3 ∨ k = 4 ∨ k = 5 := by omega
    bv_omega

/-- The bytes of the words that are read of an entry are its 24 bytes. -/
theorem described_entry_iff {b : U32} :
    (∀ v ∈ (Reads.fields b).asked s.word, ∀ i, i < 4 → Described s.mem info (v.toNat + i)) ↔
      ∀ i, i < 24 → Described s.mem info (b.toNat + i) := by
  constructor
  · intro hv
    -- the first word is always read, and then so is the last
    have hfirst : b ∈ (Reads.fields b).asked s.word := by
      rw [Reads.fields, Query.mem_asked_bind]
      exact .inl (by simp)
    have h0 := (hv b hfirst 3 (by decide)).lt
    have hlast : b + 20 ∈ (Reads.fields b).asked s.word := by
      rw [Reads.fields, Query.mem_asked_bind]
      refine .inr ⟨_, (Query.run_get _ _).trans (word_low h (by omega)), ?_⟩
      rw [Query.mem_asked_bind]
      exact .inl (by simp)
    have h20 := (hv (b + 20) hlast 3 (by decide)).lt
    have hlow : b.toNat + 24 ≤ 0x400000 := by bv_omega
    intro i hi
    have hword : (b + BitVec.ofNat 32 (4 * (i / 4))).toNat = b.toNat + 4 * (i / 4) := by
      rw [BitVec.toNat_add, BitVec.toNat_ofNat]
      omega
    have := hv _ ((mem_asked_fields h hlow).mpr ⟨i / 4, by omega, hword⟩) (i % 4) (by omega)
    rwa [hword, Nat.add_assoc, Nat.div_add_mod] at this
  · intro hb v hv i hi
    have h23 := (hb 23 (by decide)).lt
    obtain ⟨k, hk, hvk⟩ := (mem_asked_fields h (by omega)).mp hv
    rw [hvk, Nat.add_assoc]
    exact hb (4 * k + i) (by omega)

/-- What is read of the header, and of the entries. -/
theorem contained_of_described
    (hv : ∀ v ∈ (Reads.probe magic info).asked s.word, ∀ i, i < 4 →
      Described s.mem info (v.toNat + i)) : Contained s magic info where
  header hmagic h0 hlt := by
    have hin : magic = BOOT_MAGIC ∧ info ≠ 0 ∧ info < REACHABLE := ⟨hmagic, h0, hlt⟩
    have hfirst := (hv info (mem_asked_probe.mpr ⟨hin, .inl rfl⟩) 3 (by decide)).lt
    have hflags := word_low h (v := info) (by omega)
    show info.toNat + headerSize (s.mem.read32 info.toNat) ≤ 0x400000
    rw [headerSize]
    split
    · rename_i hmmap
      have hmap : ∀ v, v ∈ (Reads.probeMap info (s.mem.read32 info.toNat)).asked s.word →
          v.toNat + 3 < 0x400000 := fun v hv' =>
        (hv v (mem_asked_probe.mpr ⟨hin, .inr ⟨_, hflags, .inl hv'⟩⟩) 3 (by decide)).lt
      have h44 := hmap (info + 44) (mem_asked_probeMap.mpr ⟨hmmap, .inl rfl⟩)
      have hlength := word_low h (v := info + 44) (by omega)
      have h48 := hmap (info + 48)
        (mem_asked_probeMap.mpr ⟨hmmap, .inr ⟨_, hlength, .inl rfl⟩⟩)
      bv_omega
    · rename_i hmmap
      split
      · rename_i hmemory
        have hnone : (Reads.probeMap info (s.mem.read32 info.toNat)).run s.word
            = .ok Ram.nothing := by
          rw [Reads.probeMap, if_neg hmmap]
          rfl
        have hsizes : ∀ v, v ∈ (Reads.probeSizes info (s.mem.read32 info.toNat)
            Ram.nothing).asked s.word → v.toNat + 3 < 0x400000 := fun v hv' =>
          (hv v (mem_asked_probe.mpr ⟨hin, .inr ⟨_, hflags, .inr ⟨_, hnone, hv'⟩⟩⟩) 3
            (by decide)).lt
        have h4 := hsizes (info + 4) (mem_asked_probeSizes.mpr ⟨⟨rfl, hmemory⟩, .inl rfl⟩)
        have hlower := word_low h (v := info + 4) (by omega)
        have h8 := hsizes (info + 8)
          (mem_asked_probeSizes.mpr ⟨⟨rfl, hmemory⟩, .inr ⟨_, hlower, rfl⟩⟩)
        bv_omega
      · omega
  entries n b hb := by
    refine (described_entry_iff h).mp fun v hv' => hv v ?_
    rw [pass, Option.bind_eq_some_iff] at hb
    obtain ⟨area, harea, hvisit⟩ := hb
    obtain ⟨hin, flags, length, start, hflags, hlength, hstart, ⟨hmmap, hlow⟩, rfl⟩ :=
      mapArea_eq_some.mp harea
    exact mem_asked_probe.mpr ⟨hin, .inr ⟨flags, hflags, .inl (mem_asked_probeMap.mpr ⟨hmmap,
      .inr ⟨length, hlength, .inr ⟨start, hstart, hlow, n, b, hvisit, hv'⟩⟩⟩)⟩⟩

theorem described_of_contained (hc : Contained s magic info) :
    ∀ v ∈ (Reads.probe magic info).asked s.word, ∀ i, i < 4 →
      Described s.mem info (v.toNat + i) := by
  intro v hv
  obtain ⟨hin, hv⟩ := mem_asked_probe.mp hv
  obtain ⟨hmagic, h0, hlt⟩ := hin
  have hheader : info.toNat + headerSize (s.mem.read32 info.toNat) ≤ 0x400000 :=
    hc.header hmagic h0 hlt
  obtain ⟨hfour, hle52, htwelve⟩ := headerSize_bounds (s.mem.read32 info.toNat)
  -- a field at offset k of the header
  have hfield : ∀ k, k + 4 ≤ headerSize (s.mem.read32 info.toNat) → v.toNat = info.toNat + k →
      ∀ i, i < 4 → Described s.mem info (v.toNat + i) := by
    intro k hk hvk i hi
    exact described_header (by omega) (by omega) (by omega)
  have hword := word_low h (v := info) (by omega)
  rcases hv with rfl | ⟨flags, hflags, hv⟩
  · exact hfield 0 (by omega) rfl
  obtain rfl : s.mem.read32 info.toNat = flags := Except.ok.inj (hword.symm.trans hflags)
  rcases hv with hv | ⟨ram, hram, hv⟩
  · obtain ⟨hmmap, hv⟩ := mem_asked_probeMap.mp hv
    have hsize : headerSize (s.mem.read32 info.toNat) = 52 := if_pos hmmap
    rcases hv with rfl | ⟨length, hlength, hv⟩
    · exact hfield 44 (by omega) (by bv_omega)
    rcases hv with rfl | ⟨start, hstart, hlow, n, b, hvisit, hv⟩
    · exact hfield 48 (by omega) (by bv_omega)
    refine (described_entry_iff h).mpr (hc.entries n b ?_) v hv
    rw [pass, mapArea_eq_some.mpr ⟨⟨hmagic, h0, hlt⟩, _, length, start, hflags, hlength, hstart,
      ⟨hmmap, hlow⟩, rfl⟩]
    exact hvisit
  · obtain ⟨⟨_, hmemory⟩, hv⟩ := mem_asked_probeSizes.mp hv
    have hsize := htwelve hmemory
    rcases hv with rfl | ⟨lower, _, rfl⟩
    · exact hfield 4 (by omega) (by bv_omega)
    · exact hfield 8 (by omega) (by bv_omega)

/-- Memory that agrees on the described bytes gives the same answers. -/
theorem word_congr {L' : Layout} {s' : Machine} (h' : BootTables L' s')
    (hmem : ∀ a, Described s.mem info a → s'.mem a = s.mem a) {v : U32}
    (hv : ∀ i, i < 4 → Described s.mem info (v.toNat + i)) : s'.word v = s.word v := by
  have hlow := (hv 3 (by decide)).lt
  rw [word_low h (by omega), word_low h' (by omega)]
  refine congrArg Except.ok (ByteMem.read32_congr fun p hp hlt => hmem p ?_)
  have := hv (p - v.toNat) (by omega)
  rwa [Nat.add_sub_cancel' hp] at this

end Bytes

/-- Each byte that `probe` reads is described exactly when the loader keeps the header and the
entries inside what it describes.  Then no other byte of memory has a part in the result. -/
theorem probe_reads_described {L : Layout} {s : Machine} (h : BootTables L s) (magic info : U32) :
    ((∀ b ∈ bytesRead s magic info, Described s.mem info b.toNat) ↔ Contained s magic info) ∧
    (Contained s magic info → ∀ (L' : Layout) (s' : Machine), BootTables L' s' →
      (∀ a, Described s.mem info a → s'.mem a = s.mem a) →
      ((probe magic info).run s').map Prod.fst = ((probe magic info).run s).map Prod.fst) := by
  refine ⟨bytesRead_iff.trans ⟨contained_of_described h, described_of_contained h⟩, ?_⟩
  intro hc L' s' h' hmem
  have hasked := described_of_contained h hc
  obtain ⟨hrun, _⟩ := Query.run_congr (Reads.probe magic info)
    fun v hv => word_congr h h' hmem (hasked v hv)
  rw [probe_run, probe_run, hrun]
  cases (Reads.probe magic info).run s.word <;> rfl

/-- A loader with one entry keeps to it. -/
theorem probe_reads_described_loader :
    BootTables smallLayout (bootAsm smallLayout (loader [(0, 0x100000)])) ∧
    ∀ b ∈ bytesRead (bootAsm smallLayout (loader [(0, 0x100000)])) BOOT_MAGIC 0x9000,
      Described (bootAsm smallLayout (loader [(0, 0x100000)])).mem 0x9000 b.toNat := by
  have hboot := bootAsm_tables (loaded_loader [(0, 0x100000)] (by decide))
  refine ⟨hboot, (probe_reads_described hboot BOOT_MAGIC 0x9000).1.mpr ⟨?_, ?_⟩⟩
  · intro _ _ _
    have := (headerSize_bounds ((bootAsm smallLayout (loader [(0, 0x100000)])).mem.read32
      (0x9000 : U32).toNat)).2.1
    exact Nat.le_trans (Nat.add_le_add_left this _) (by decide)
  · have harea : mapArea (bootAsm smallLayout (loader [(0, 0x100000)])).word BOOT_MAGIC 0x9000
        = some (0xA000, 0xA018) := mapArea_rawLoader _ (by decide) rfl rfl
    have hsize : (bootAsm smallLayout (loader [(0, 0x100000)])).mem.read32 0xA000 = 20 :=
      rawLoader_map (infoWord 1) (wordAt [(0, 0x100000)]) (n := 6) (by decide) (i := 0) (by decide)
    have hlength : (bootAsm smallLayout (loader [(0, 0x100000)])).mem.read32
        ((0x9000 : U32).toNat + 44) = 24 :=
      rawLoader_info (infoWord 1) (wordAt [(0, 0x100000)]) 6 (i := 11) (by decide)
    have hstart : (bootAsm smallLayout (loader [(0, 0x100000)])).mem.read32
        ((0x9000 : U32).toNat + 48) = 0xA000 :=
      rawLoader_info (infoWord 1) (wordAt [(0, 0x100000)]) 6 (i := 12) (by decide)
    generalize bootAsm smallLayout (loader [(0, 0x100000)]) = s at *
    have hnext : next s.word 0xA018 0xA000 = some 0xA018 := by
      rw [next, if_pos (by decide), (fields_low hboot (by decide)).1]
      show (if s.mem.read32 0xA000 = 0 then none
        else some (0xA000 + (s.mem.read32 0xA000 + 4))) = _
      rw [hsize]
      decide
    intro n b hb i hi
    rw [pass, harea, Option.bind_some] at hb
    cases n with
    | succ n =>
      rw [visit_succ, hnext, Option.bind_some, visit_eq_none (by decide)] at hb
      cases hb
    | zero =>
      obtain rfl : (0xA000 : U32) = b := Option.some.inj (reach_of_visit hb).1
      rw [Described, hlength, hstart]
      exact ⟨by show 0xA000 + i < 0x400000; omega, .inr ⟨by show 0xA000 ≤ 0xA000 + i; omega,
        by show 0xA000 + i < 0xA000 + 24; omega⟩⟩

/-- A header that gives its map eight bytes. -/
def shortInfo (i : Nat) : U32 :=
  if i = 0 then FLAG_MMAP else if i = 11 then 8 else if i = 12 then 0xA000 else 0

/-- The loop reads the kind of an entry, sixteen bytes past the end of such a map. -/
theorem probe_reads_undescribed : ∃ s, Loaded smallLayout s ∧
    ∃ b ∈ bytesRead (bootAsm smallLayout s) BOOT_MAGIC 0x9000,
      ¬Described (bootAsm smallLayout s).mem 0x9000 b.toNat := by
  have hloaded : Loaded smallLayout (rawLoader shortInfo stuckWord 6) :=
    loaded_rawLoader _ _ (by decide)
  have hboot := bootAsm_tables hloaded
  have harea : mapArea (bootAsm smallLayout (rawLoader shortInfo stuckWord 6)).word BOOT_MAGIC
      0x9000 = some (0xA000, 0xA008) := mapArea_rawLoader stuckWord (by decide) rfl rfl
  have hlength := rawLoader_info shortInfo stuckWord 6 (i := 11) (by decide)
  have hstart := rawLoader_info shortInfo stuckWord 6 (i := 12) (by decide)
  refine ⟨_, hloaded, ?_⟩
  generalize bootAsm smallLayout (rawLoader shortInfo stuckWord 6) = s at *
  have hpass : pass s BOOT_MAGIC 0x9000 0 = some 0xA000 := by
    rw [pass, harea]
    exact visit_of_reach rfl (by decide)
  by_contra hall
  simp only [not_exists, not_and, not_not] at hall
  have hc := contained_of_described hboot (bytesRead_iff.mp hall)
  obtain ⟨_, hin⟩ := hc.entries 0 0xA000 hpass 20 (by decide)
  rw [show s.mem.read32 ((0x9000 : U32).toNat + 48) = 0xA000 from hstart,
    show s.mem.read32 ((0x9000 : U32).toNat + 44) = 8 from hlength] at hin
  exact absurd hin (by decide)

end Kfs.Multiboot
