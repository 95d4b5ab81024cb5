import Kfs.Multiboot.Walk

/-!
# Decoding a well-formed memory map

`Encoded` is the layout of the Multiboot specification: entries of any size from 20 bytes on, one
behind the other.  `survivors` is what the map describes, as pairs of numbers and without a limit:
the available entries, cut to 32 bits.  `Ram.Holds` relates it to the twelve slots that `push`
fills.

* `push_holds` is the step and `foldl_holds` the run over the entries.
* `walkMap_encoded` says that the loop stays in step with the entries, whatever their sizes.
* `reported_entries` goes the other way: a loader can make `probe` return the map of any short list
  of entries.
-/

namespace Kfs.Multiboot

open Lib Mem Machine

/-! ## What a map describes -/

/-- A range of memory cut to 32 bits, as its two ends, unless nothing is left of it. -/
def clamp (base length : Nat) : Option (Nat × Nat) :=
  let finish := if base + length > 2 ^ 32 - 1 then 0xFFFFF000 else base + length
  if length = 0 ∨ base ≥ 2 ^ 32 - 1 ∨ finish ≤ base then none else some (base, finish)

/-- The ranges that the available entries describe. -/
def survivors (es : List Entry) : List (Nat × Nat) :=
  (es.filter fun e => e.kind = AVAILABLE).filterMap fun e => clamp e.base.toNat e.length.toNat

/-- The two ranges that `mem_lower` and `mem_upper` describe, in kilobytes. -/
def sizeRanges (lower upper : U32) : List (Nat × Nat) :=
  (clamp 0 (lower.toNat * 1024)).toList ++ (clamp 0x00100000 (upper.toNat * 1024)).toList

/-- The map holds the first twelve ranges of a list, the sum of their lengths and their greatest
end. -/
structure Ram.Holds (ram : Ram) (all : List (Nat × Nat)) : Prop where
  regions : ram.regions.map (fun r => (r.base.toNat, r.finish.toNat)) = all.take MAX_REGIONS
  usable : ram.usable.toNat = ((all.take MAX_REGIONS).map fun r => r.2 - r.1).sum
  highest : ram.highest.toNat = ((all.take MAX_REGIONS).map Prod.snd).foldl max 0

namespace Ram.Holds

variable {ram : Ram} {all : List (Nat × Nat)}

theorem nothing (source : String) : Holds { Ram.nothing with source := source } [] :=
  ⟨rfl, rfl, rfl⟩

theorem withSource (h : ram.Holds all) (source : String) :
    Holds { ram with source := source } all := ⟨h.regions, h.usable, h.highest⟩

theorem count (h : ram.Holds all) : ram.count = min MAX_REGIONS all.length := by
  have := congrArg List.length h.regions
  rwa [List.length_map, List.length_take] at this

theorem count_eq_zero (h : ram.Holds all) : ram.count = 0 ↔ all = [] := by
  rw [h.count, ← List.length_eq_zero_iff, show MAX_REGIONS = 12 from rfl]
  omega

/-- A full map takes no more. -/
theorem full (h : ram.Holds all) (hfull : ram.count = MAX_REGIONS) (more : List (Nat × Nat)) :
    ram.Holds (all ++ more) := by
  have hle : MAX_REGIONS ≤ all.length := by
    have := h.count
    omega
  have htake : (all ++ more).take MAX_REGIONS = all.take MAX_REGIONS :=
    List.take_append_of_le_length hle
  exact ⟨by rw [htake, h.regions], by rw [htake, h.usable], by rw [htake, h.highest]⟩

/-- One more region in a map that is not full. -/
theorem snoc (h : ram.Holds all) (hroom : ram.count < MAX_REGIONS) {base finish : U32}
    (hlt : base < finish) :
    Holds { ram with
      regions := ram.regions ++ [⟨base, finish⟩]
      usable := ram.usable + (finish - base).setWidth 64
      highest := if finish > ram.highest then finish else ram.highest }
      (all ++ [(base.toNat, finish.toNat)]) := by
  have hlen : all.length < MAX_REGIONS := by
    have := h.count
    omega
  have htake : all.take MAX_REGIONS = all := List.take_of_length_le (by omega)
  have htake' : (all ++ [(base.toNat, finish.toNat)]).take MAX_REGIONS
      = all ++ [(base.toNat, finish.toNat)] :=
    List.take_of_length_le (by rw [List.length_append, List.length_singleton]; omega)
  have hreg := h.regions
  have husable := h.usable
  have hhigh := h.highest
  rw [htake] at hreg husable hhigh
  have hsum := sum_lengths_le ram.regions
  have hpairs : (ram.regions.map fun r => r.finish.toNat - r.base.toNat).sum
      = (all.map fun r => r.2 - r.1).sum := by
    rw [← hreg, List.map_map]
    rfl
  simp only [Ram.count, MAX_REGIONS] at hroom
  refine ⟨?_, ?_, ?_⟩
  · rw [htake', List.map_append, hreg]
    rfl
  · rw [htake', List.map_append, List.sum_append, ← husable]
    simp only [List.map_cons, List.map_nil, List.sum_cons, List.sum_nil, Nat.add_zero]
    rw [BitVec.toNat_add, BitVec.toNat_setWidth, BitVec.toNat_sub]
    bv_omega
  · rw [htake', List.map_append, List.foldl_append, ← hhigh]
    show (if finish > ram.highest then finish else ram.highest).toNat
      = max ram.highest.toNat finish.toNat
    split <;> bv_omega

end Ram.Holds

/-- The end of a range as `push` computes it. -/
theorem toNat_finish (base length : U64) :
    (if Ram.saturatingAdd base length > 0xFFFFFFFF then 0xFFFFFFFF &&& ~~~0xFFF
      else (Ram.saturatingAdd base length).setWidth 32 : U32).toNat
    = if base.toNat + length.toNat > 2 ^ 32 - 1 then 0xFFFFF000 else base.toNat + length.toNat := by
  have hcut : ((0xFFFFFFFF &&& ~~~0xFFF : U32)).toNat = 0xFFFFF000 := by decide
  have hmax : (0xFFFFFFFF : U64).toNat = 2 ^ 32 - 1 := by decide
  rw [Ram.saturatingAdd]
  by_cases hfit : base.toNat + length.toNat < 2 ^ 64
  · have hadd : (base + length).toNat = base.toNat + length.toNat := by
      rw [BitVec.toNat_add]
      omega
    rw [if_pos hfit]
    by_cases hbig : base.toNat + length.toNat > 2 ^ 32 - 1
    · rw [if_pos hbig, if_pos (by bv_omega), hcut]
    · rw [if_neg hbig, if_neg (by bv_omega), BitVec.toNat_setWidth, hadd]
      omega
  · rw [if_neg hfit, if_pos (by decide), if_pos (by omega), hcut]

theorem push_holds {ram : Ram} {all : List (Nat × Nat)} (h : ram.Holds all) (base length : U64) :
    (ram.push base length).Holds (all ++ (clamp base.toNat length.toNat).toList) := by
  have hfinish := toNat_finish base length
  have hcount := h.count
  unfold Ram.push
  split
  · rename_i hnot
    rcases hnot with hfull | hzero
    · exact h.full hfull _
    · have hnone : clamp base.toNat length.toNat = none := if_pos (.inl (by rw [hzero]; rfl))
      rw [hnone]
      simpa using h
  · rename_i hgo
    obtain ⟨hroom, hzero⟩ := not_or.mp hgo
    extract_lets top base32 finish
    split
    · rename_i hbase
      have hnone : clamp base.toNat length.toNat = none := if_pos (.inr (.inl hbase))
      rw [hnone]
      simpa using h
    · rename_i hbase
      have hbase32 : base32.toNat = base.toNat := by
        show (base.setWidth 32).toNat = base.toNat
        rw [BitVec.toNat_setWidth]
        bv_omega
      split
      · rename_i hempty
        have hle : finish.toNat ≤ base32.toNat := hempty
        have hnone : clamp base.toNat length.toNat = none :=
          if_pos (.inr (.inr (by rw [← hfinish, ← hbase32]; exact hle)))
        rw [hnone]
        simpa using h
      · rename_i hempty
        have hlt : base32 < finish := BitVec.not_le.mp hempty
        have hsome : clamp base.toNat length.toNat = some (base32.toNat, finish.toNat) := by
          rw [clamp, ← hfinish, if_neg, hbase32]
          rintro (hz | hb | hf)
          · exact hzero (BitVec.eq_of_toNat_eq hz)
          · exact hbase hb
          · rw [← hbase32] at hf
            exact hempty hf
        rw [hsome]
        exact h.snoc (by omega) hlt

theorem add_holds {ram : Ram} {all : List (Nat × Nat)} (h : ram.Holds all) (e : Entry) :
    (ram.add e).Holds (all ++ survivors [e]) := by
  rw [Ram.add]
  by_cases hkind : e.kind = AVAILABLE
  · have hone : survivors [e] = (clamp e.base.toNat e.length.toNat).toList := by
      rw [survivors, List.filter_cons, if_pos (decide_eq_true hkind), List.filter_nil,
        List.filterMap_cons]
      cases clamp e.base.toNat e.length.toNat <;> rfl
    rw [if_pos hkind, hone]
    exact push_holds h e.base e.length
  · have hone : survivors [e] = [] := by
      rw [survivors, List.filter_cons, if_neg (by simpa using hkind)]
      rfl
    rw [if_neg hkind, hone, List.append_nil]
    exact h

theorem push_source (ram : Ram) (base length : U64) :
    (ram.push base length).source = ram.source := by
  unfold Ram.push
  extract_lets
  split_ifs <;> rfl

theorem foldl_source (es : List Entry) : ∀ ram : Ram,
    (es.foldl Ram.add ram).source = ram.source := by
  induction es with
  | nil => exact fun _ => rfl
  | cons e es ih =>
    intro ram
    rw [List.foldl_cons, ih, Ram.add]
    split
    · exact push_source ram e.base e.length
    · rfl

theorem survivors_cons (e : Entry) (es : List Entry) :
    survivors (e :: es) = survivors [e] ++ survivors es := by
  rw [survivors, survivors, survivors, ← List.filterMap_append, ← List.filter_append]
  rfl

theorem foldl_holds (es : List Entry) : ∀ {ram : Ram} {all : List (Nat × Nat)}, ram.Holds all →
    (es.foldl Ram.add ram).Holds (all ++ survivors es) := by
  induction es with
  | nil =>
    intro ram all h
    rw [show survivors [] = [] from rfl, List.append_nil]
    exact h
  | cons e es ih =>
    intro ram all h
    rw [survivors_cons, ← List.append_assoc]
    exact ih (add_holds h e)

/-! ## The walk over the entries -/

/-- The bytes that an entry takes: `size` does not count its own four. -/
def Entry.span (e : Entry) : Nat := e.size.toNat + 4

/-- The entries lie in memory one behind the other from `a` on. -/
def Encoded (m : ByteMem) : Nat → List Entry → Prop
  | _, [] => True
  | a, e :: es => entryAt m a = e ∧ Encoded m (a + e.span) es

/-- Where these entries start. -/
def starts : Nat → List Entry → List Nat
  | _, [] => []
  | a, e :: es => a :: starts (a + e.span) es

section Walk

variable {L : Layout} {s : Machine} (h : BootTables L s) {stop : U32}
  (hstop : stop.toNat ≤ 0x400000)

include h hstop

/-- One pass on an entry of the map. -/
theorem next_encoded {a : U32} {e : Entry} (he : entryAt s.mem a.toNat = e)
    (hsize : 20 ≤ e.size.toNat) (hle : a.toNat + e.span ≤ stop.toNat) :
    a + 8 ≤ stop ∧ (Reads.fields a).run s.word = .ok e ∧ e.size ≠ 0 ∧
      (a + (e.size + 4)).toNat = a.toNat + e.span := by
  rw [Entry.span] at hle ⊢
  refine ⟨by bv_omega, ?_, ?_, by bv_omega⟩
  · rw [(fields_low h (by omega)).1, he]
  · intro hz
    rw [hz] at hsize
    exact absurd hsize (by decide)

theorem walkMap_encoded (es : List Entry) : ∀ (fuel : Nat) (a : U32) (ram : Ram),
    es.length < fuel → (∀ e ∈ es, 20 ≤ e.size.toNat) →
    a.toNat + (es.map Entry.span).sum = stop.toNat → Encoded s.mem a.toNat es →
    (Reads.walkMap stop fuel a ram).run s.word = .ok (es.foldl Ram.add ram) := by
  induction es with
  | nil =>
    intro fuel a ram hfuel _ hend _
    obtain ⟨fuel, rfl⟩ : ∃ n, fuel = n + 1 := ⟨fuel - 1, by simp at hfuel; omega⟩
    have hne : ¬a + 8 ≤ stop := by
      simp only [List.map_nil, List.sum_nil] at hend
      bv_omega
    rw [Reads.walkMap, if_neg hne]
    rfl
  | cons e es ih =>
    intro fuel a ram hfuel hsize hend henc
    obtain ⟨fuel, rfl⟩ : ∃ n, fuel = n + 1 := ⟨fuel - 1, by simp at hfuel; omega⟩
    simp only [List.map_cons, List.sum_cons] at hend
    obtain ⟨he, hrest⟩ := henc
    obtain ⟨hle, hfields, hnz, hadd⟩ :=
      next_encoded h hstop he (hsize e List.mem_cons_self) (by omega)
    rw [Reads.walkMap, if_pos hle, Query.run_bind_ok hfields, if_neg hnz, List.foldl_cons]
    exact ih fuel _ _ (by simp at hfuel; omega) (fun e' h' => hsize e' (List.mem_cons_of_mem e h'))
      (by omega) (by rw [hadd]; exact hrest)

theorem visit_encoded (es : List Entry) : ∀ (a : U32) (n : Nat),
    (∀ e ∈ es, 20 ≤ e.size.toNat) → a.toNat + (es.map Entry.span).sum = stop.toNat →
    Encoded s.mem a.toNat es →
    visit s.word stop a n = ((starts a.toNat es)[n]?).map (BitVec.ofNat 32) := by
  induction es with
  | nil =>
    intro a n _ hend _
    have hne : ¬a + 8 ≤ stop := by
      simp only [List.map_nil, List.sum_nil] at hend
      bv_omega
    rw [visit_eq_none hne]
    rfl
  | cons e es ih =>
    intro a n hsize hend henc
    simp only [List.map_cons, List.sum_cons] at hend
    obtain ⟨he, hrest⟩ := henc
    obtain ⟨hle, hfields, hnz, hadd⟩ :=
      next_encoded h hstop he (hsize e List.mem_cons_self) (by omega)
    cases n with
    | zero =>
      rw [visit_of_reach rfl hle, starts, List.getElem?_cons_zero, Option.map_some,
        BitVec.ofNat_toNat, BitVec.setWidth_eq]
    | succ n =>
      have hnext : next s.word stop a = some (a + (e.size + 4)) := by
        rw [next, if_pos hle, hfields]
        exact if_neg hnz
      rw [visit_succ, hnext, Option.bind_some, starts, List.getElem?_cons_succ, ← hadd]
      exact ih _ n (fun e' h' => hsize e' (List.mem_cons_of_mem e h')) (by omega)
        (by rw [hadd]; exact hrest)

end Walk

/-! ## The whole of `probe` -/

/-- A loader that left a header at `info` and a well-formed map with the entries `es`, all of it
in the low window. -/
structure WellFormed (m : ByteMem) (info : U32) (es : List Entry) : Prop where
  info_ne : info ≠ 0
  info_low : info.toNat + 52 ≤ REACHABLE.toNat
  flag : m.read32 info.toNat &&& FLAG_MMAP ≠ 0
  start_ne : m.read32 (info.toNat + 48) ≠ 0
  start_low : m.read32 (info.toNat + 48) < REACHABLE
  length : (m.read32 (info.toNat + 44)).toNat = (es.map Entry.span).sum
  map_low : (m.read32 (info.toNat + 48)).toNat + (es.map Entry.span).sum ≤ REACHABLE.toNat
  size : ∀ e ∈ es, 20 ≤ e.size.toNat
  entries : Encoded m (m.read32 (info.toNat + 48)).toNat es

theorem length_le_span (es : List Entry) : es.length ≤ (es.map Entry.span).sum := by
  induction es with
  | nil => exact Nat.le_refl 0
  | cons e es ih =>
    simp only [List.length_cons, List.map_cons, List.sum_cons, Entry.span]
    omega

namespace WellFormed

variable {L : Layout} {s : Machine} (h : BootTables L s) {info : U32} {es : List Entry}
  (hwf : WellFormed s.mem info es)

include hwf

/-- The end of the map, as the loop has it. -/
theorem toNat_stop : (saturatingAdd (s.mem.read32 (info.toNat + 48))
      (s.mem.read32 (info.toNat + 44))).toNat
    = (s.mem.read32 (info.toNat + 48)).toNat + (es.map Entry.span).sum := by
  have hlow : (s.mem.read32 (info.toNat + 48)).toNat + (es.map Entry.span).sum ≤ 0x400000 :=
    hwf.map_low
  have hlength := hwf.length
  rw [saturatingAdd, if_pos (by omega), BitVec.toNat_add, hlength]
  omega

include h

theorem probeMap_run : (Reads.probeMap info (s.mem.read32 info.toNat)).run s.word
    = .ok (es.foldl Ram.add { Ram.nothing with source := "multiboot memory map" }) := by
  have hinfo : info.toNat + 52 ≤ 0x400000 := hwf.info_low
  have hmap : (s.mem.read32 (info.toNat + 48)).toNat + (es.map Entry.span).sum ≤ 0x400000 :=
    hwf.map_low
  have hstop := hwf.toNat_stop
  have hlen := length_le_span es
  have hw44 : s.word (info + 44) = _ := word_add_low h (n := 44) (by omega)
  have hw48 : s.word (info + 48) = _ := word_add_low h (n := 48) (by omega)
  rw [Reads.probeMap, if_pos hwf.flag, Query.run_bind_ok ((Query.run_get _ _).trans hw44),
    Query.run_bind_ok ((Query.run_get _ _).trans hw48), if_pos ⟨hwf.start_ne, hwf.start_low⟩]
  exact walkMap_encoded h (by omega) es _ _ _ (by omega) hwf.size hstop.symm hwf.entries

theorem pass_eq (n : Nat) : pass s BOOT_MAGIC info n
    = ((starts (s.mem.read32 (info.toNat + 48)).toNat es)[n]?).map (BitVec.ofNat 32) := by
  have hmap : (s.mem.read32 (info.toNat + 48)).toNat + (es.map Entry.span).sum ≤ 0x400000 :=
    hwf.map_low
  have hstop := hwf.toNat_stop
  rw [pass, mapArea_low h hwf.info_ne hwf.info_low,
    if_pos ⟨hwf.flag, hwf.start_ne, hwf.start_low⟩, Option.bind_some]
  dsimp only
  exact visit_encoded h (by omega) es _ n hwf.size hstop.symm hwf.entries

/-- What is left of `probe` once the map is read. -/
theorem probe_eq : (Reads.probe BOOT_MAGIC info).run s.word
    = (Reads.probeSizes info (s.mem.read32 info.toNat)
        (es.foldl Ram.add { Ram.nothing with source := "multiboot memory map" }) >>= fun ram =>
          if ram.count = 0 then pure (.error "the loader described no usable memory")
          else pure (.ok ram) : Reads (Except String Ram)).run s.word := by
  have hinfo : info.toNat + 52 ≤ 0x400000 := hwf.info_low
  have hge : ¬info ≥ REACHABLE := by
    show ¬(0x400000 : U32) ≤ info
    bv_omega
  rw [Reads.probe, if_neg (by decide), if_neg (not_or.mpr ⟨hwf.info_ne, hge⟩),
    Query.run_bind_ok ((Query.run_get _ _).trans (word_low h (by omega))),
    Query.run_bind_ok (hwf.probeMap_run h)]

/-- A map that describes any memory is what `probe` returns. -/
theorem probe_found (ram : Ram)
    (hram : es.foldl Ram.add { Ram.nothing with source := "multiboot memory map" } = ram)
    (hcount : ram.count ≠ 0) : (probe BOOT_MAGIC info).run s = .ok (.ok ram, s) := by
  rw [probe_run, hwf.probe_eq h, hram, Reads.probeSizes, if_neg (fun hc => hcount hc.1)]
  show ((if ram.count = 0 then _ else _ : Reads (Except String Ram)).run s.word).map _ = _
  rw [if_neg hcount]
  rfl

end WellFormed

/-- The fallback on a map that is empty. -/
theorem probeSizes_holds {L : Layout} {s : Machine} (h : BootTables L s) {info flags : U32}
    (hinfo : info.toNat + 52 ≤ REACHABLE.toNat) {ram : Ram} (hram : ram.Holds [])
    (hflag : flags &&& FLAG_MEMORY ≠ 0) :
    ∃ ram', (Reads.probeSizes info flags ram).run s.word = .ok ram' ∧
      ram'.Holds (sizeRanges (s.mem.read32 (info.toNat + 4)) (s.mem.read32 (info.toNat + 8))) ∧
      ram'.source = "multiboot mem_lower and mem_upper" := by
  have hlow : info.toNat + 52 ≤ 0x400000 := hinfo
  have hw4 : s.word (info + 4) = _ := word_add_low h (n := 4) (by omega)
  have hw8 : s.word (info + 8) = _ := word_add_low h (n := 8) (by omega)
  have hkb : ∀ x : U32, (x.setWidth 64 * 1024 : U64).toNat = x.toNat * 1024 := by
    intro x
    rw [BitVec.toNat_mul, BitVec.toNat_setWidth, show (1024 : U64).toNat = 1024 from rfl]
    omega
  rw [Reads.probeSizes, if_pos ⟨hram.count_eq_zero.mpr rfl, hflag⟩,
    Query.run_bind_ok ((Query.run_get _ _).trans hw4),
    Query.run_bind_ok ((Query.run_get _ _).trans hw8)]
  refine ⟨_, rfl, ?_, by rw [push_source, push_source]⟩
  have hlower := push_holds (hram.withSource "multiboot mem_lower and mem_upper") 0
    ((s.mem.read32 (info.toNat + 4)).setWidth 64 * 1024)
  have hupper := push_holds hlower 0x00100000
    ((s.mem.read32 (info.toNat + 8)).setWidth 64 * 1024)
  rw [hkb, hkb] at hupper
  exact hupper

/-- `probe` reads the entries of a well-formed map one by one.  It returns the first twelve ranges
they describe, or else those of `mem_lower` and `mem_upper`, and an error when there are none. -/
theorem probe_decodes {L : Layout} {s : Machine} (h : BootTables L s) {info : U32}
    {es : List Entry} (hwf : WellFormed s.mem info es) :
    (∀ n, pass s BOOT_MAGIC info n
      = ((starts (s.mem.read32 (info.toNat + 48)).toNat es)[n]?).map (BitVec.ofNat 32)) ∧
    (survivors es ≠ [] → ∃ ram, (probe BOOT_MAGIC info).run s = .ok (.ok ram, s) ∧
      ram.Holds (survivors es) ∧ ram.source = "multiboot memory map") ∧
    (survivors es = [] → s.mem.read32 info.toNat &&& FLAG_MEMORY ≠ 0 →
      sizeRanges (s.mem.read32 (info.toNat + 4)) (s.mem.read32 (info.toNat + 8)) ≠ [] →
      ∃ ram, (probe BOOT_MAGIC info).run s = .ok (.ok ram, s) ∧
        ram.Holds (sizeRanges (s.mem.read32 (info.toNat + 4)) (s.mem.read32 (info.toNat + 8))) ∧
        ram.source = "multiboot mem_lower and mem_upper") ∧
    (survivors es = [] → s.mem.read32 info.toNat &&& FLAG_MEMORY = 0 ∨
        sizeRanges (s.mem.read32 (info.toNat + 4)) (s.mem.read32 (info.toNat + 8)) = [] →
      (probe BOOT_MAGIC info).run s
        = .ok (.error "the loader described no usable memory", s)) := by
  refine ⟨hwf.pass_eq h, ?_⟩
  have hfound := hwf.probe_found h
  rw [probe_run, hwf.probe_eq h] at hfound ⊢
  have hram := foldl_holds es (Ram.Holds.nothing "multiboot memory map")
  have hsource := foldl_source es { Ram.nothing with source := "multiboot memory map" }
  rw [List.nil_append] at hram
  generalize es.foldl Ram.add { Ram.nothing with source := "multiboot memory map" } = ram at *
  refine ⟨fun hsome => ?_, fun hnone hflag hsizes => ?_, fun hnone hempty => ?_⟩
  · -- the map is enough
    have hcount : ram.count ≠ 0 := fun hz => hsome (hram.count_eq_zero.mp hz)
    exact ⟨ram, hfound ram rfl hcount, hram, hsource⟩
  · -- the map describes nothing, and the two sizes do
    obtain ⟨ram', hrun, hram', hsource'⟩ := probeSizes_holds h hwf.info_low (hnone ▸ hram) hflag
    refine ⟨ram', ?_, hram', hsource'⟩
    rw [Query.run_bind_ok hrun, if_neg (fun hz => hsizes (hram'.count_eq_zero.mp hz))]
    rfl
  · by_cases hflag : s.mem.read32 info.toNat &&& FLAG_MEMORY = 0
    · have hcount : ram.count = 0 := hram.count_eq_zero.mpr hnone
      rw [Reads.probeSizes, if_neg (fun hc => hc.2 hflag)]
      show ((if ram.count = 0 then _ else _ : Reads (Except String Ram)).run s.word).map _ = _
      rw [if_pos hcount]
      rfl
    · obtain ⟨ram', hrun, hram', _⟩ := probeSizes_holds h hwf.info_low (hnone ▸ hram) hflag
      have hzero := hram'.count_eq_zero.mpr (hempty.resolve_left hflag)
      rw [Query.run_bind_ok hrun, if_pos hzero]
      rfl

/-- The header of a map of 52 bytes at 0xA000. -/
def mixedInfo (i : Nat) : U32 :=
  if i = 0 then FLAG_MMAP else if i = 11 then 52 else if i = 12 then 0xA000 else 0

/-- Two entries of different sizes, the second past the end of the 32-bit space. -/
def mixedEntries : List Entry := [⟨20, 0, 0x9FC00, 1⟩, ⟨24, 0x100000, 0x100000000, 1⟩]

/-- Their words. -/
def mixedWord (i : Nat) : U32 :=
  [20, 0, 0, 0x9FC00, 0, 1, 24, 0x100000, 0, 0, 1, 1, 0].getD i 0

theorem probe_decodes_mixed :
    WellFormed (bootAsm smallLayout (rawLoader mixedInfo mixedWord 13)).mem 0x9000 mixedEntries ∧
    ∃ ram, (probe BOOT_MAGIC 0x9000).run (bootAsm smallLayout (rawLoader mixedInfo mixedWord 13))
        = .ok (.ok ram, bootAsm smallLayout (rawLoader mixedInfo mixedWord 13)) ∧
      ram.Holds [(0, 0x9FC00), (0x100000, 0xFFFFF000)] := by
  have hboot := bootAsm_tables (loaded_rawLoader mixedInfo mixedWord (n := 13) (by decide))
  have hinfo : ∀ i, i < 13 → (bootAsm smallLayout (rawLoader mixedInfo mixedWord 13)).mem.read32
      ((0x9000 : U32).toNat + 4 * i) = mixedInfo i := fun i hi => rawLoader_info _ _ _ hi
  have hmap : ∀ i, i < 13 → (bootAsm smallLayout (rawLoader mixedInfo mixedWord 13)).mem.read32
      (0xA000 + 4 * i) = mixedWord i := fun i hi => rawLoader_map _ _ (by decide) hi
  generalize bootAsm smallLayout (rawLoader mixedInfo mixedWord 13) = s at *
  have hflags : s.mem.read32 (0x9000 : U32).toNat = FLAG_MMAP := hinfo 0 (by decide)
  have hlength : s.mem.read32 ((0x9000 : U32).toNat + 44) = 52 := hinfo 11 (by decide)
  have hstart : s.mem.read32 ((0x9000 : U32).toNat + 48) = 0xA000 := hinfo 12 (by decide)
  have hentry : ∀ k, k + 5 < 13 → entryAt s.mem (0xA000 + 4 * k)
      = ⟨mixedWord k, mixedWord (k + 2) ++ mixedWord (k + 1),
          mixedWord (k + 4) ++ mixedWord (k + 3), mixedWord (k + 5)⟩ := by
    intro k hk
    rw [entryAt, hmap k (by omega), ← hmap (k + 1) (by omega), ← hmap (k + 2) (by omega),
      ← hmap (k + 3) (by omega), ← hmap (k + 4) (by omega), ← hmap (k + 5) (by omega)]
    rfl
  have hwf : WellFormed s.mem 0x9000 mixedEntries := by
    refine ⟨by decide, by decide, ?_, ?_, ?_, ?_, ?_, by decide, ?_⟩
    · rw [hflags]
      decide
    · rw [hstart]
      decide
    · rw [hstart]
      decide
    · rw [hlength]
      decide
    · rw [hstart]
      decide
    · rw [hstart]
      exact ⟨hentry 0 (by decide), hentry 6 (by decide), trivial⟩
  obtain ⟨ram, hrun, hram, _⟩ := (probe_decodes hboot hwf).2.1 (by decide)
  exact ⟨hwf, ram, hrun, hram⟩

/-! ## A loader for any short map -/

/-- What `entryWords` writes down. -/
def available (e : U64 × U64) : Entry := ⟨20, e.1, e.2, AVAILABLE⟩

theorem encoded_of_stored (m : ByteMem) (es : List (U64 × U64)) : ∀ a, Stored m a es →
    Encoded m a (es.map available) := by
  induction es with
  | nil => exact fun _ _ => trivial
  | cons e es ih =>
    intro a h
    obtain ⟨hword, hrest⟩ := h
    refine ⟨?_, ih (a + 24) hrest⟩
    rw [entryAt, show m.read32 a = 20 from hword 0 (by decide),
      show m.read32 (a + 4) = _ from hword 1 (by decide),
      show m.read32 (a + 8) = _ from hword 2 (by decide),
      show m.read32 (a + 12) = _ from hword 3 (by decide),
      show m.read32 (a + 16) = _ from hword 4 (by decide),
      show m.read32 (a + 20) = 1 from hword 5 (by decide)]
    exact congrArg₂ (fun base length => Entry.mk 20 base length 1) (append_words e.1)
      (append_words e.2)

theorem sum_span_available (es : List (U64 × U64)) :
    ((es.map available).map Entry.span).sum = 24 * es.length := by
  induction es with
  | nil => rfl
  | cons e es ih =>
    rw [List.map_cons, List.map_cons, List.sum_cons, ih, List.length_cons,
      show (available e).span = 24 from rfl]
    omega

/-- Memory with the words of such a loader. -/
theorem wellFormed_words {m : ByteMem} (es : List (U64 × U64)) (hlen : es.length ≤ 1000)
    (hinfo : ∀ i, i < 13 → m.read32 ((0x9000 : U32).toNat + 4 * i) = infoWord es.length i)
    (hstored : Stored m 0xA000 es) : WellFormed m 0x9000 (es.map available) := by
  have hflags : m.read32 (0x9000 : U32).toNat = FLAG_MMAP := hinfo 0 (by decide)
  have hlength : m.read32 ((0x9000 : U32).toNat + 44) = BitVec.ofNat 32 (24 * es.length) :=
    hinfo 11 (by decide)
  have hstart : m.read32 ((0x9000 : U32).toNat + 48) = 0xA000 := hinfo 12 (by decide)
  have hspan := sum_span_available es
  refine ⟨by decide, by decide, ?_, ?_, ?_, ?_, ?_, fun e he => ?_, ?_⟩
  · rw [hflags]
    decide
  · rw [hstart]
    decide
  · rw [hstart]
    decide
  · rw [hlength, hspan, BitVec.toNat_ofNat]
    omega
  · rw [hstart, hspan]
    show 0xA000 + 24 * es.length ≤ 0x400000
    omega
  · obtain ⟨_, _, rfl⟩ := List.mem_map.mp he
    exact Nat.le_refl 20
  · rw [hstart]
    exact encoded_of_stored m es _ hstored

theorem wellFormed_loader (es : List (U64 × U64)) (hlen : es.length ≤ 1000) :
    WellFormed (bootAsm smallLayout (loader es)).mem 0x9000 (es.map available) :=
  wellFormed_words es hlen (fun _ hi => rawLoader_info _ _ _ hi)
    (stored_of_words _ es _ fun _ hi => rawLoader_map _ _ (by omega) hi)

/-- A loader can make `probe` return the map of any list of at most a thousand entries, if one
of them is kept. -/
theorem probe_entries (es : List (U64 × U64)) (hlen : es.length ≤ 1000)
    (hcount : (ramOf es).count ≠ 0) :
    (probe BOOT_MAGIC 0x9000).run (bootAsm smallLayout (loader es))
      = .ok (.ok (ramOf es), bootAsm smallLayout (loader es)) := by
  refine (wellFormed_loader es hlen).probe_found (bootAsm_tables (loaded_loader es hlen)) _ ?_
    hcount
  rw [List.foldl_map]
  rfl

theorem reported_entries (es : List (U64 × U64)) (hlen : es.length ≤ 1000)
    (hcount : (ramOf es).count ≠ 0) : Reported (ramOf es) :=
  ⟨smallLayout, loader es, BOOT_MAGIC, 0x9000, _, loaded_loader es hlen,
    probe_entries es hlen hcount⟩

end Kfs.Multiboot
