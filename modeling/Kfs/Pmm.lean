import Kfs.Lib.Bitmap
import Kfs.Multiboot

/-!
# The frame allocator

The functions of `kernel/src/pmm.rs` over the value of its three statics.  A frame number is a
`usize` of the source that stays below `2 ^ 21`, so it is a `Nat` here; the words of the map, the
two counters and the addresses are 32-bit and wrap.
-/

namespace Kfs

open Mem Multiboot

/-- `FREE`, `TOTAL` and `AVAILABLE`.  A set bit is a free frame. -/
structure Pmm where
  free : Nat → U32
  total : U32
  available : U32

namespace Pmm

abbrev MAX_FRAMES : Nat := 2 ^ 20
abbrev WORDS : Nat := MAX_FRAMES / 32

/-- The statics before the first line of Rust runs: `.bss` is zero, so nothing is free. -/
def zero : Pmm where
  free := fun _ => 0
  total := 0
  available := 0

def frameOf (phys : U32) : Nat := (phys >>> PAGE_SHIFT).toNat

def addressOf (frame : Nat) : U32 := BitVec.ofNat 32 frame <<< PAGE_SHIFT

def freeBit (p : Pmm) (frame : Nat) : Bool :=
  decide (frame < MAX_FRAMES) && Lib.Bitmap.test p.free frame

def setFree (p : Pmm) (frame : Nat) : Pmm :=
  if frame ≥ MAX_FRAMES ∨ p.freeBit frame = true then p
  else { p with free := Lib.Bitmap.set p.free frame, available := p.available + 1 }

def setUsed (p : Pmm) (frame : Nat) : Pmm :=
  if frame ≥ MAX_FRAMES ∨ p.freeBit frame = false then p
  else { p with free := Lib.Bitmap.clear p.free frame, available := p.available - 1 }

/-- The loop of `init` over `n` frames from `frame`. -/
def initFrames : Nat → Nat → Pmm → Pmm
  | _, 0, p => p
  | frame, n + 1, p =>
    if frame ≥ MAX_FRAMES then p
    else
      initFrames (frame + 1) n
        (if p.freeBit frame = false then { p with total := p.total + 1 }.setFree frame else p)

/-- The first frame `init` marks for a region: the base rounded up, in 32-bit arithmetic. -/
def firstOf (r : Region) : Nat := frameOf (r.base + PAGE_SIZE - 1)

/-- The first frame past those `init` marks for a region: the end rounded down. -/
def lastOf (r : Region) : Nat := frameOf r.finish

def initRegion (p : Pmm) (r : Region) : Pmm := initFrames (firstOf r) (lastOf r - firstOf r) p

def init (p : Pmm) (ram : Ram) : Pmm := ram.regions.foldl initRegion p

/-- `for frame in frame..frame + n { set_used(frame) }`. -/
def useFrames : Nat → Nat → Pmm → Pmm
  | _, 0, p => p
  | frame, n + 1, p => useFrames (frame + 1) n (p.setUsed frame)

def reserve (p : Pmm) (start finish : U32) : Pmm :=
  useFrames (frameOf start) (frameOf (finish + PAGE_SIZE - 1) - frameOf start) p

def totalFrames (p : Pmm) : U32 := p.total

def freeFrames (p : Pmm) : U32 := p.available

def usedFrames (p : Pmm) : U32 := p.totalFrames - p.freeFrames

/-- The loop of `alloc_frame` over `n` words from `word`. -/
def allocFrom (p : Pmm) : Nat → Nat → Option U32 × Pmm
  | _, 0 => (none, p)
  | word, n + 1 =>
    let bits := p.free word
    if bits = 0 then allocFrom p (word + 1) n
    else
      let frame := word * 32 + bits.ctz.toNat
      (some (addressOf frame), p.setUsed frame)

def allocFrame (p : Pmm) : Option U32 × Pmm := allocFrom p 0 WORDS

/-- The inner loop of `find_run`: the length of the free run at `frame`, cut at `count`. -/
def spanFrom (p : Pmm) (frame count : Nat) : Nat → Nat → Nat
  | 0, span => span
  | fuel + 1, span =>
    if span < count ∧ p.freeBit (frame + span) = true then spanFrom p frame count fuel (span + 1)
    else span

/-- The outer loop of `find_run`.  Every pass moves `frame` up, so `MAX_FRAMES + 1` passes are
enough. -/
def findRunFrom (p : Pmm) (count : Nat) : Nat → Nat → Option Nat
  | 0, _ => none
  | fuel + 1, frame =>
    if frame + count ≤ MAX_FRAMES then
      if p.freeBit frame = false then findRunFrom p count fuel (frame + 1)
      else
        let span := spanFrom p frame count count 1
        if span = count then some frame else findRunFrom p count fuel (frame + (span + 1))
    else none

def findRun (p : Pmm) (count : Nat) : Option Nat :=
  if count = 0 then none else findRunFrom p count (MAX_FRAMES + 1) 0

/-- The loop of `largest_run` over `n` frames from `frame`. -/
def largestRunFrom (p : Pmm) : Nat → Nat → Nat → Nat → Nat
  | _, 0, best, _ => best
  | frame, n + 1, best, run =>
    if p.freeBit frame = true then
      largestRunFrom p (frame + 1) n (if run + 1 > best then run + 1 else best) (run + 1)
    else largestRunFrom p (frame + 1) n best 0

def largestRun (p : Pmm) : Nat := largestRunFrom p 0 MAX_FRAMES 0 0

def allocRange (p : Pmm) (count : Nat) : Option U32 × Pmm :=
  match p.findRun count with
  | none => (none, p)
  | some base => (some (addressOf base), useFrames base count p)

def freeFrame (p : Pmm) (phys : U32) : Pmm := p.setFree (frameOf phys)

/-- The loop of `carve`.  A pass halves `pages`, so `pages + 1` passes are enough. -/
def carveFrom : Nat → Nat → Pmm → Option (U32 × U32) × Pmm
  | 0, _, p => (none, p)
  | fuel + 1, pages, p =>
    if pages ≥ 16 then
      match p.allocRange pages with
      | (some base, p') => (some (base, base + BitVec.ofNat 32 pages * PAGE_SIZE), p')
      | (none, p') => carveFrom fuel (pages / 2) p'
    else (none, p)

def carve (p : Pmm) (size : U32) : Option (U32 × U32) × Pmm :=
  let pages := (size / PAGE_SIZE).toNat
  carveFrom (pages + 1) pages p

end Pmm

end Kfs
