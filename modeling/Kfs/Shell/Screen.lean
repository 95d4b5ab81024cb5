import Kfs.Klib.Text
import Kfs.Paging.Describe
import Kfs.Paging.Dump
import Kfs.Shell.Commands

/-!
# What the lines say

The lines that `virt` and `mem` print, read word by word.  A reading lists the words and the
numbers of a line in order, so it says which number stands where.

* `lines_reading` is the walk of one address.
* `landmarks_reading` is the list of `virt`, with what the hardware walk finds for each address.
* `memLines_reading` is all of `mem`, and `reportLines_reading` the part about one heap.
-/

namespace Kfs.Shell

open Lib Mem Paging Machine Multiboot Klib

/-! ## Fixed texts -/

/-- The texts between the numbers. -/
theorem tokens_texts :
    tokens "" = [] ∧ tokens "\n" = [] ∧ tokens " " = [] ∧ tokens "  " = [] ∧ tokens ", " = [] ∧
    tokens ".." = [] ∧ tokens " -> " = [] ∧ tokens ": " = [] ∧ tokens " at " = [.word "at"] ∧
    tokens " in " = [.word "in"] ∧ tokens " space\n" = [.word "space"] ∧
    tokens ": directory " = [.word "directory"] ∧ tokens " table " = [.word "table"] ∧
    tokens " offset " = [.word "offset"] ∧
    tokens "  directory entry " = [.word "directory", .word "entry"] ∧
    tokens "  table entry     " = [.word "table", .word "entry"] ∧
    tokens "table" = [.word "table"] ∧ tokens "frame" = [.word "frame"] ∧
    tokens ", not present\n" = [.word "not", .word "present"] ∧
    tokens "  physical        " = [.word "physical"] := by
  decide +kernel

theorem tokens_space (space : Space) : tokens space.name = [.word space.name] := by
  cases space <;> decide +kernel

/-- Writable or not, and whose page it is. -/
def rightsReading (entry : U32) : List Token :=
  [.word (if writable entry = true then "rw" else "r"),
    .word (if user entry = true then "user" else "kernel")]

theorem tokens_rights (entry : U32) : tokens (rights entry) = rightsReading entry := by
  rw [rights_eq, rightsReading]
  cases writable entry <;> cases user entry <;> decide +kernel

/-- The flags of an entry, in the order in which they are printed. -/
def FLAGS : List (String × U32) :=
  [("p", PRESENT), ("rw", WRITABLE), ("us", USER), ("a", ACCESSED), ("d", DIRTY), ("ps", LARGE),
    ("g", GLOBAL), ("pwt", WRITE_THROUGH), ("pcd", NO_CACHE)]

def flagsReading (entry : U32) : List Token :=
  FLAGS.flatMap fun flag => [.word flag.1, .number (bit entry flag.2)]

theorem tokens_printFlags (entry : U32) : tokens (printFlags entry) = flagsReading entry := by
  have htexts : tokens "    p " = [.word "p"] ∧ tokens " rw " = [.word "rw"] ∧
      tokens " us " = [.word "us"] ∧ tokens " a " = [.word "a"] ∧ tokens " d " = [.word "d"] ∧
      tokens " ps " = [.word "ps"] ∧ tokens " g " = [.word "g"] ∧
      tokens " pwt " = [.word "pwt"] ∧ tokens " pcd " = [.word "pcd"] := by decide +kernel
  rw [printFlags, String.join]
  simp (disch := decide) only [List.foldl_cons, List.foldl_nil, tokens_gap, tokens_append_gap,
    tokens_toString, tokens_texts, htexts, flagsReading, FLAGS, List.flatMap_cons,
    List.flatMap_nil, List.append_nil, List.cons_append, List.nil_append]

/-! ## `virt` -/

/-- A present entry. -/
def entryReading (level goal : String) (entry : U32) : List Token :=
  [.word level, .word "entry", .number entry.toNat, .word goal, .word "at",
    .number (entry &&& FRAME).toNat] ++ rightsReading entry ++ flagsReading entry

/-- An address and its parts. -/
def addrReading (addr : U32) : List Token :=
  [.number addr.toNat, .word "directory", .number (addr.toNat / 2 ^ 22), .word "table",
    .number (addr.toNat / 2 ^ 12 % 1024), .word "offset", .number (addr.toNat % 4096), .word "in",
    .word (spaceOf addr).name, .word "space"]

/-- The entries, one not present or the physical address at the end. -/
def descriptionReading : Description → List Token
  | .noTable pde => [.word "directory", .word "entry", .number pde.toNat, .word "not",
      .word "present"]
  | .noPage pde pte => entryReading "directory" "table" pde ++
      [.word "table", .word "entry", .number pte.toNat, .word "not", .word "present"]
  | .page pde pte phys => entryReading "directory" "table" pde ++
      entryReading "table" "frame" pte ++ [.word "physical", .number phys.toNat]

theorem dirIndex_reading (addr : U32) : dirIndex addr = addr.toNat / 2 ^ 22 := by
  rw [dirIndex_eq, Nat.div_div_eq_div_mul]
  rfl

theorem entryLines_reading {level goal : String} (hfront : Front level)
    (entry : U32) : (entryLines level goal entry).flatMap tokens =
      tokens level ++ [.number entry.toNat] ++ tokens goal ++
        [.word "at", .number (entry &&& FRAME).toNat] ++ rightsReading entry ++
        flagsReading entry := by
  rw [entryLines, List.flatMap_cons, List.flatMap_singleton, tokens_printFlags]
  simp (disch := first | exact hfront | decide) only [tokens_gap, tokens_append_gap,
    tokens_front, tokens_hex, tokens_rights, tokens_texts, List.append_nil, List.append_assoc]
  rfl

/-- The walk of one address. -/
theorem lines_reading (addr : U32) (d : Description) :
    (d.lines addr).flatMap tokens = addrReading addr ++ descriptionReading d := by
  have hfirst : tokens (hex addr ++ ": directory " ++ toString (dirIndex addr) ++ " table " ++
      toString (tableIndex addr) ++ " offset " ++ toString (offset addr).toNat ++ " in " ++
      (spaceOf addr).name ++ " space\n") = addrReading addr := by
    simp (disch := decide) only [tokens_gap, tokens_append_gap, tokens_hex, tokens_toString,
      tokens_space, tokens_texts, dirIndex_reading, tableIndex_eq, toNat_offset, List.cons_append,
      List.nil_append]
    rfl
  rw [Description.lines.eq_def, List.flatMap_cons, hfirst]
  cases d <;>
    simp (disch := decide) only [List.flatMap_append, List.flatMap_singleton, entryLines_reading,
      tokens_front, tokens_append_gap, tokens_hex, tokens_texts,
      descriptionReading, entryReading, List.cons_append, List.nil_append, List.append_assoc]

/-- An address in the list of `virt`, with what the hardware walk finds. -/
def summaryReading (m : Machine) (addr : U32) : List Token :=
  [.number addr.toNat, .number (addr.toNat / 2 ^ 22), .number (addr.toNat / 2 ^ 12 % 1024),
    .number (addr.toNat % 4096)] ++
  match m.walk addr, m.translation addr with
  | some e, some phys => .number phys :: rightsReading e.2
  | _, _ => [.word "nothing", .word "not", .word "mapped"]

theorem tokens_padNumber (width n : Nat) : tokens (padNumber width n) = [.number n] := by
  rw [← tokens_toString n, padNumber, tokens, String.toList_append, String.toList_ofList,
    words_replicate_append (by decide)]
  rfl

theorem summaryLine_reading (m : Machine) (addr : U32) :
    tokens (summaryLine addr (found m addr)) = summaryReading m addr := by
  obtain ⟨hphys, hrights⟩ := found_shows m addr
  have hnothing : tokens "nothing      not mapped\n"
      = [.word "nothing", .word "not", .word "mapped"] := by decide +kernel
  unfold summaryLine summaryReading
  cases hfound : found m addr with
  | none =>
    rw [hfound, Option.map_none] at hphys hrights
    rw [← hphys, Option.map_eq_none_iff.mp hrights.symm]
    simp (disch := decide) only [tokens_gap, tokens_front, tokens_hex, tokens_padNumber,
      tokens_texts, hnothing, dirIndex_reading, tableIndex_eq, toNat_offset, List.cons_append,
      List.nil_append]
    rfl
  | some r =>
    obtain ⟨phys, text⟩ := r
    rw [hfound, Option.map_some] at hphys hrights
    obtain ⟨e, hwalk, rfl⟩ := Option.map_eq_some_iff.mp hrights.symm
    rw [← hphys, hwalk]
    simp (disch := decide) only [tokens_gap, tokens_front, tokens_append_gap, tokens_hex,
      tokens_padNumber, tokens_texts, tokens_rights, dirIndex_reading, tableIndex_eq, toNat_offset,
      List.cons_append, List.nil_append, List.append_nil]
    rfl

/-- The list of `virt`. -/
theorem landmarks_reading (B : Build) (m : Machine) :
    (virtHeading :: (LANDMARKS B).map (fun addr => summaryLine addr (found m addr)) ++
        [virtHint]).flatMap tokens
      = tokens virtHeading ++ (LANDMARKS B).flatMap (summaryReading m) ++ tokens virtHint := by
  rw [List.flatMap_append, List.flatMap_cons, List.flatMap_map, List.flatMap_singleton]
  simp only [summaryLine_reading]

/-! ## `mem` -/

/-- What `mem` prints, for the accounts of the two heaps. -/
def memLines (B : Build) (s : Sys) (kernel virtual : Heap.Stats) : List String :=
  ramLines s.ram s.world.machine.pmm ++ imageLines B.layout.image B.codeEnd ++
    [carvedLine s.window] ++ reportLines s.kernel kernel ++ reportLines s.virtual virtual

/-- The account of a heap. -/
def reportReading (h : Heap) (st : Heap.Stats) : List Token :=
  tokens h.name ++ [.number h.base.toNat, .number h.brk.toNat, .word "ceiling",
    .number h.limit.toNat, .number ((h.brk - h.base) / 1024).toNat, .word "kb", .word "mapped",
    .number st.used.toNat, .word "bytes", .word "used", .number st.free.toNat, .word "free",
    .number st.live.toNat, .word "of", .number st.blocks.toNat, .word "blocks", .word "live",
    .word "physically"] ++
  if h.backing = .contiguous then
    [.word "contiguous", .word "physical", .number h.physBase.toNat, .number h.physEnd.toNat]
  else [.word "scattered"]

theorem reportLines_reading (h : Heap) (st : Heap.Stats) :
    (reportLines h st).flatMap tokens = reportReading h st := by
  have htexts : tokens ", ceiling " = [.word "ceiling"] ∧
      tokens " kb mapped\n" = [.word "kb", .word "mapped"] ∧
      tokens " bytes used, " = [.word "bytes", .word "used"] ∧ tokens " free, " = [.word "free"] ∧
      tokens " of " = [.word "of"] ∧ tokens " blocks live, " = [.word "blocks", .word "live"] ∧
      tokens "physically contiguous" = [.word "physically", .word "contiguous"] ∧
      tokens "physically scattered" = [.word "physically", .word "scattered"] ∧
      tokens "  physical " = [.word "physical"] := by decide +kernel
  unfold reportLines reportReading
  split <;>
    simp (disch := decide) only [List.flatMap_cons, List.flatMap_nil, tokens_gap,
      tokens_front, tokens_append_gap, tokens_hex, tokens_toString, tokens_texts, htexts,
      List.cons_append, List.nil_append, List.append_nil, List.append_assoc]

/-- The memory of the machine. -/
def ramReading (ram : Ram) (p : Pmm) : List Token :=
  [.word "ram", .number (ram.usable / 1024).toNat, .word "kb", .word "usable", .word "in",
    .number ram.count, .word "regions", .word "from", .word "the"] ++ tokens ram.source ++
  (ram.regions.flatMap fun r => [.number r.base.toNat, .number r.finish.toNat,
    .number ((r.finish - r.base) / 1024).toNat, .word "kb"]) ++
  [.word "frames", .number p.freeFrames.toNat, .word "of", .number p.totalFrames.toNat,
    .word "free", .number p.usedFrames.toNat, .word "used", .word "largest", .word "free",
    .word "run", .number p.largestRun, .word "frames", .word "of", .number 4, .word "kb"]

theorem ramLines_reading (ram : Ram) (p : Pmm) :
    (ramLines ram p).flatMap tokens = ramReading ram p := by
  have htexts : tokens "ram: " = [.word "ram"] ∧
      tokens " kb usable in " = [.word "kb", .word "usable", .word "in"] ∧
      tokens " regions, from the " = [.word "regions", .word "from", .word "the"] ∧
      tokens " kb\n" = [.word "kb"] ∧ tokens "frames: " = [.word "frames"] ∧
      tokens " of " = [.word "of"] ∧ tokens " free, " = [.word "free"] ∧
      tokens " used, largest free run "
        = [.word "used", .word "largest", .word "free", .word "run"] ∧
      tokens " frames of " = [.word "frames", .word "of"] := by decide +kernel
  have hpage : (PAGE_SIZE / 1024).toNat = 4 := by decide
  unfold ramLines ramReading
  simp (disch := decide) only [List.flatMap_append, List.flatMap_cons, List.flatMap_nil,
    List.flatMap_map, tokens_gap, tokens_front, tokens_append_gap, tokens_hex,
    tokens_toString, tokens_texts, htexts, hpage, List.cons_append, List.nil_append,
    List.append_nil, List.append_assoc]

/-- The image, as addresses and as physical addresses. -/
def imageReading (image : Image) (codeEnd : U32) : List Token :=
  [.word "kernel", .number image.start.toNat, .number image.finish.toNat, .word "code", .word "to",
    .number codeEnd.toNat, .word "read", .word "only", .word "to", .number image.readonlyEnd.toNat,
    .word "physical", .number (kernelPhys image.start).toNat,
    .number (kernelPhys image.finish).toNat, .number ((image.finish - image.start) / 1024).toNat,
    .word "kb"]

theorem imageLines_reading (image : Image) (codeEnd : U32) :
    (imageLines image codeEnd).flatMap tokens = imageReading image codeEnd := by
  have htexts : tokens "kernel: " = [.word "kernel"] ∧
      tokens ", code to " = [.word "code", .word "to"] ∧
      tokens ", read only to " = [.word "read", .word "only", .word "to"] ∧
      tokens "        physical " = [.word "physical"] ∧ tokens " kb\n" = [.word "kb"] := by
    decide +kernel
  unfold imageLines imageReading
  simp (disch := decide) only [List.flatMap_cons, List.flatMap_nil, tokens_gap, tokens_front,
    tokens_append_gap, tokens_hex, tokens_toString, tokens_texts, htexts, List.cons_append,
    List.nil_append, List.append_nil]

/-- All of `mem`. -/
def memReading (B : Build) (s : Sys) (kernel virtual : Heap.Stats) : List Token :=
  ramReading s.ram s.world.machine.pmm ++ imageReading B.layout.image B.codeEnd ++
    [.word "carved", .number s.window.1.toNat, .number s.window.2.toNat, .word "physical",
      .word "kept", .word "for", .word "kmalloc"] ++
    reportReading s.kernel kernel ++ reportReading s.virtual virtual

theorem memLines_reading (B : Build) (s : Sys) (kernel virtual : Heap.Stats) :
    (memLines B s kernel virtual).flatMap tokens = memReading B s kernel virtual := by
  have htexts : tokens "carved: " = [.word "carved"] ∧ tokens " physical, kept for kmalloc\n"
      = [.word "physical", .word "kept", .word "for", .word "kmalloc"] := by decide +kernel
  rw [memLines, List.flatMap_append, List.flatMap_append, List.flatMap_append, List.flatMap_append,
    ramLines_reading, imageLines_reading, reportLines_reading, reportLines_reading,
    List.flatMap_singleton, carvedLine, memReading]
  simp (disch := decide) only [tokens_gap, tokens_front, tokens_append_gap, tokens_hex,
    tokens_texts, htexts, List.cons_append, List.nil_append, List.append_nil]

end Kfs.Shell
