import Kfs.Paging

/-!
# The two heaps

The functions of `kernel/src/heap.rs`.  A heap is a range of virtual addresses in which the pages
below the break are mapped.  Its blocks are found by walking from the base: a header of two words,
the size and a flag, stands in front of each payload.  All accesses to headers are loads and
stores of virtual addresses.

A walk that does not move its address up could go on for ever.  Where such a loop only reads, the
address is its whole state, so `2 ^ 32` passes without an end mean that it has none; the loops
stop with `Stop.spins` then.
-/

namespace Kfs

open Lib Mem

inductive Backing where
  | contiguous
  | scattered
  deriving DecidableEq, Repr

structure Heap where
  name : String
  base : U32
  limit : U32
  brk : U32
  backing : Backing
  physBase : U32
  physEnd : U32
  flags : U32
  deriving DecidableEq, Repr

namespace Heap

abbrev HEADER : U32 := 8
abbrev ALIGN : U32 := 8
abbrev SMALLEST : U32 := 8

/-- More passes than a loop over addresses can make without repeating one. -/
abbrev PASSES : Nat := 2 ^ 32

def sizeAt (block : U32) : Kernel U32 := load32 block

def usedAt (block : U32) : Kernel Bool := do
  let flag ← load32 (block + 4)
  pure (flag != 0)

def writeHeader (block size : U32) (used : Bool) : Kernel Unit := do
  store32 block size
  store32 (block + 4) (if used then 1 else 0)

def roundUp (size : U32) : U32 :=
  let size := if size < SMALLEST then SMALLEST else size
  (size + ALIGN - 1) &&& ~~~(ALIGN - 1)

/-- `Heap::new`. -/
def new (name : String) (base limit : U32) (backing : Backing) (flags : U32) : Heap where
  name := name
  base := base
  limit := limit
  brk := base
  backing := backing
  physBase := 0
  physEnd := 0
  flags := flags

def attach (h : Heap) (window : U32 × U32) : Heap :=
  { h with physBase := window.1, physEnd := window.2 }

def frameFor (h : Heap) (page : U32) : Kernel (Option U32) :=
  match h.backing with
  | .contiguous => do
    let frame := h.physBase + (page - h.base)
    if frame + PAGE_SIZE > h.physEnd then
      koops (.outOfBlock h.name)
      pure none
    else pure (some frame)
  | .scattered => do
    match ← allocFrame with
    | some frame => pure (some frame)
    | none =>
      koops (.noFrame h.name)
      pure none

/-- The loop of `grow` over `pages` pages from `page` on.  It returns where it stopped. -/
def growLoop (h : Heap) : Nat → U32 → Kernel U32
  | 0, page => pure page
  | pages + 1, page =>
    if page + PAGE_SIZE > h.limit then do
      koops (.endOfRange h.name)
      pure page
    else do
      match ← frameFor h page with
      | none => pure page
      | some frame =>
        if ← Paging.mapPage page frame h.flags then growLoop h pages (page + PAGE_SIZE)
        else
          if h.backing = .scattered then freeFrame frame
          pure page

/-- The loop of `last_block` up to `finish`. -/
def lastFrom (finish : U32) : Nat → U32 → Option U32 → Kernel (Option U32)
  | 0, _, _ => Prog.stop .spins
  | fuel + 1, block, last =>
    if block + HEADER ≤ finish then do
      let size ← sizeAt block
      lastFrom finish fuel (block + (HEADER + size)) (some block)
    else pure last

def lastBlock (h : Heap) (finish : U32) : Kernel (Option U32) :=
  lastFrom finish PASSES h.base none

/-- The header that `grow` writes once the pages from `start` up to `top` are mapped. -/
def growTail (h : Heap) (start top : U32) : Kernel Unit := do
  match ← h.lastBlock start with
  | some block =>
    if ← usedAt block then writeHeader start ((top - start) - HEADER) false
    else
      let size ← sizeAt block
      writeHeader block (size + (top - start)) false
  | none => writeHeader start ((top - start) - HEADER) false

def grow (h : Heap) (pages : U32) : Kernel (Bool × Heap) := do
  let start := h.brk
  let top ← growLoop h pages.toNat start
  if top = start then pure (false, h)
  else
    h.growTail start top
    pure (true, { h with brk := top })

/-- The loop of `shrink` that gives the pages from `page` up to the break back. -/
def shrinkLoop (h : Heap) : Nat → U32 → Kernel Unit
  | 0, _ => Prog.stop .spins
  | fuel + 1, page =>
    if page < h.brk then do
      match ← Paging.unmapPage page with
      | some frame => if h.backing = .scattered then freeFrame frame
      | none => pure ()
      shrinkLoop h fuel (page + PAGE_SIZE)
    else pure ()

/-- The tests of `shrink` on the last block, and its new header. -/
def shrinkTail (h : Heap) (target block : U32) : Kernel Bool := do
  if (← usedAt block) ∨ target < block then
    koops (.topInUse h.name)
    pure false
  else if target > block then
    if target < block + HEADER + SMALLEST then
      koops (.topTooSmall h.name)
      pure false
    else
      writeHeader block (target - block - HEADER) false
      pure true
  else pure true

def shrink (h : Heap) (pages : U32) : Kernel (Bool × Heap) := do
  let most := h.brk - h.base
  let span := if pages * PAGE_SIZE ≤ most then pages * PAGE_SIZE else most
  let target := h.brk - span
  if span = 0 then pure (true, h)
  else
    let go ← match ← h.lastBlock h.brk with
      | some block => h.shrinkTail target block
      | none => pure true
    if go = true then
      h.shrinkLoop PASSES target
      pure (true, { h with brk := target })
    else pure (false, h)

/-- `brk(delta)`.  The argument is an `i32`. -/
def moveBrk (h : Heap) (delta : U32) : Kernel (U32 × Heap) := do
  let was := h.brk
  if delta = 0 then pure (was, h)
  else
    let size := if delta.msb then -delta else delta
    let pages := (size + PAGE_SIZE - 1) / PAGE_SIZE
    let (moved, h) ← if delta.msb then h.shrink pages else h.grow pages
    pure (if moved then was else 0, h)

/-- The loop of `find_block`. -/
def findFrom (h : Heap) (payload : U32) : Nat → U32 → Kernel (Option U32)
  | 0, _ => Prog.stop .spins
  | fuel + 1, block =>
    if block + HEADER ≤ h.brk then
      if block + HEADER = payload then pure (some block)
      else do
        let size ← sizeAt block
        findFrom h payload fuel (block + (HEADER + size))
    else pure none

def findBlock (h : Heap) (payload : U32) : Kernel (Option U32) :=
  findFrom h payload PASSES h.base

/-- The inner loop of `first_fit`: the free block at `block`, of `size` bytes so far, takes in the
free blocks behind it. -/
def mergeFrom (h : Heap) (block : U32) : Nat → U32 → Kernel U32
  | 0, _ => Prog.stop .spins
  | fuel + 1, size => do
    let next := block + HEADER + size
    if next + HEADER > h.brk then pure size
    else if ← usedAt next then pure size
    else
      let more ← sizeAt next
      let size := size + (HEADER + more)
      writeHeader block size false
      mergeFrom h block fuel size

/-- The outer loop of `first_fit`. -/
def firstFitFrom (h : Heap) (need : U32) : Nat → U32 → Kernel (Option U32)
  | 0, _ => Prog.stop .spins
  | fuel + 1, block =>
    if block + HEADER ≤ h.brk then do
      let size ← sizeAt block
      if ← usedAt block then firstFitFrom h need fuel (block + (HEADER + size))
      else
        let size ← mergeFrom h block PASSES size
        if size ≥ need then pure (some block)
        else firstFitFrom h need fuel (block + (HEADER + size))
    else pure none

def firstFit (h : Heap) (need : U32) : Kernel (Option U32) :=
  firstFitFrom h need PASSES h.base

def take (block need : U32) : Kernel U32 := do
  let size ← sizeAt block
  if size ≥ need + HEADER + SMALLEST then
    writeHeader block need true
    writeHeader (block + HEADER + need) (size - need - HEADER) false
  else
    writeHeader block size true
  pure (block + HEADER)

def alloc (h : Heap) (want : U32) : Kernel (U32 × Heap) := do
  if want = 0 then pure (0, h)
  else if want > h.limit - h.base - HEADER then
    koops (.tooLarge want h.name)
    pure (0, h)
  else
    let need := roundUp want
    match ← h.firstFit need with
    | some block =>
      let pointer ← take block need
      pure (pointer, h)
    | none =>
      let pages := (need + HEADER + PAGE_SIZE - 1) / PAGE_SIZE
      let (grown, h) ← h.grow pages
      if grown = true then
        match ← h.firstFit need with
        | some block =>
          let pointer ← take block need
          pure (pointer, h)
        | none => pure (0, h)
      else pure (0, h)

def free (h : Heap) (pointer : U32) : Kernel Unit := do
  if pointer = 0 then pure ()
  else
    match ← h.findBlock pointer with
    | none => koops (.notFrom pointer h.name)
    | some block =>
      if ← usedAt block then
        let size ← sizeAt block
        writeHeader block size false
      else koops (.freedTwice pointer h.name)

def size (h : Heap) (pointer : U32) : Kernel U32 := do
  if pointer = 0 then pure 0
  else
    match ← h.findBlock pointer with
    | some block => sizeAt block
    | none =>
      koops (.notFrom pointer h.name)
      pure 0

/-- The counters of `Stats`.  Its other fields are copied from the heap. -/
structure Stats where
  used : U32
  free : U32
  blocks : U32
  live : U32
  deriving DecidableEq, Repr

/-- The loop of `stats`. -/
def statsFrom (h : Heap) : Nat → U32 → Stats → Kernel Stats
  | 0, _, _ => Prog.stop .spins
  | fuel + 1, block, stats =>
    if block + HEADER ≤ h.brk then do
      let size ← sizeAt block
      let used ← usedAt block
      let stats := { stats with blocks := stats.blocks + 1 }
      let stats :=
        if used = true then { stats with used := stats.used + size, live := stats.live + 1 }
        else { stats with free := stats.free + size }
      statsFrom h fuel (block + (HEADER + size)) stats
    else pure stats

def stats (h : Heap) : Kernel Stats := statsFrom h PASSES h.base ⟨0, 0, 0, 0⟩

end Heap

/-! ## The statics -/

/-- `KERNEL_HEAP` before `attach`. -/
def kernelHeap : Heap :=
  Heap.new "kmalloc" KHEAP_BASE KHEAP_LIMIT .contiguous Paging.KERNEL_PAGE

def virtualHeap : Heap :=
  Heap.new "vmalloc" VMALLOC_BASE VMALLOC_LIMIT .scattered Paging.KERNEL_PAGE

end Kfs
