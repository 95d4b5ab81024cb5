import Kfs.Machine

/-!
# The page tables

The functions of `kernel/src/paging.rs`.  The kernel edits its tables through the recursive
window: directory entry 1023 points at the directory, so table `dir` is at
`TABLE_WINDOW + dir * 4096` and the directory itself at `DIRECTORY`.  Every access below is an
ordinary load or store of such an address.
-/

namespace Kfs.Paging

open Lib Mem

abbrev PRESENT : U32 := 1
abbrev WRITABLE : U32 := 2
abbrev USER : U32 := 4

abbrev KERNEL_PAGE : U32 := PRESENT ||| WRITABLE
abbrev KERNEL_READONLY : U32 := PRESENT
abbrev USER_PAGE : U32 := PRESENT ||| WRITABLE ||| USER
abbrev USER_READONLY : U32 := PRESENT ||| USER

abbrev FLAGS : U32 := 0xFFF
abbrev FRAME : U32 := ~~~0xFFF

abbrev PAGING_ON : U32 := 0x80000000
abbrev WRITE_PROTECT : U32 := 0x00010000

abbrev DIRECTORY : U32 := 0xFFFFF000

def dirIndex (addr : U32) : Nat := (addr >>> 22).toNat

def tableIndex (addr : U32) : Nat := ((addr >>> 12) &&& 0x3FF).toNat

def offset (addr : U32) : U32 := addr &&& (PAGE_SIZE - 1)

def table (dir : Nat) : U32 := TABLE_WINDOW + BitVec.ofNat 32 (dir * 4096)

/-- `pointer.add(i)` for a pointer to words. -/
def ptrAdd (p : U32) (i : Nat) : U32 := p + BitVec.ofNat 32 (4 * i)

/-- One pass of the loop of `init`: the entry of the kernel window for the page `i`. -/
def kernelEntry (image : Image) (i : Nat) : U32 :=
  let virt := KERNEL_SPACE + BitVec.ofNat 32 i * PAGE_SIZE
  let phys := BitVec.ofNat 32 i * PAGE_SIZE
  let flags := if virt ≥ image.start ∧ virt < image.readonlyEnd then KERNEL_READONLY
    else KERNEL_PAGE
  phys ||| flags

/-- `init`, with the address of the static `KERNEL_TABLE`. -/
def init (image : Image) (kernelTable : U32) : Kernel Unit := do
  Prog.forRange (fun i => store32 (ptrAdd kernelTable i) (kernelEntry image i)) 0 ENTRIES
  let phys := kernelPhys kernelTable
  store32 (ptrAdd DIRECTORY (dirIndex KERNEL_SPACE)) (phys ||| KERNEL_PAGE)
  Prog.modify fun s => { s with cr0 := s.cr0 ||| WRITE_PROTECT }

def directoryEntry (dir : Nat) : Kernel U32 := load32 (ptrAdd DIRECTORY dir)

/-- The rights of a table that `get_page` installs. -/
def tableFlags (addr : U32) : U32 := if isKernel addr then KERNEL_PAGE else KERNEL_PAGE ||| USER

/-- The pointer to the entry that governs `addr`. -/
def entryPtr (addr : U32) : U32 := ptrAdd (table (dirIndex addr)) (tableIndex addr)

def getPage (addr : U32) (create : Bool) : Kernel (Option U32) := do
  let dir := dirIndex addr
  let pde ← directoryEntry dir
  if pde &&& PRESENT = 0 then
    if create = false then
      pure none
    else
      match ← allocFrame with
      | none => pure none
      | some frame =>
        store32 (ptrAdd DIRECTORY dir) (frame ||| tableFlags addr)
        Prog.forRange (fun i => store32 (ptrAdd (table dir) i) 0) 0 ENTRIES
        pure (some (entryPtr addr))
  else
    pure (some (entryPtr addr))

def entryOf (addr : U32) : Kernel (Option U32) := do
  match ← getPage addr false with
  | none => pure none
  | some entry =>
    let value ← load32 entry
    if value &&& PRESENT = 0 then pure none else pure (some value)

def translate (addr : U32) : Kernel (Option U32) := do
  match ← entryOf addr with
  | none => pure none
  | some entry => pure (some ((entry &&& FRAME) ||| offset addr))

def mapPage (addr frame flags : U32) : Kernel Bool := do
  if flags &&& USER ≠ 0 ∧ isKernel addr = true then
    koops (.kernelSpace addr)
    pure false
  else
    match ← getPage addr true with
    | none =>
      koops (.noTableFrame addr)
      pure false
    | some entry =>
      let value ← load32 entry
      if value &&& PRESENT ≠ 0 then
        koops (.mappedAlready addr)
        pure false
      else
        store32 entry ((frame &&& FRAME) ||| flags ||| PRESENT)
        pure true

def unmapPage (addr : U32) : Kernel (Option U32) := do
  match ← getPage addr false with
  | none => pure none
  | some entry =>
    let value ← load32 entry
    if value &&& PRESENT = 0 then
      pure none
    else
      store32 entry 0
      pure (some (value &&& FRAME))

def protect (addr flags : U32) : Kernel Bool := do
  match ← getPage addr false with
  | none => pure false
  | some entry =>
    let value ← load32 entry
    if value &&& PRESENT = 0 then
      pure false
    else
      store32 entry ((value &&& FRAME) ||| flags ||| PRESENT)
      pure true

def mapNew (addr flags : U32) : Kernel (Option U32) := do
  match ← allocFrame with
  | none => pure none
  | some frame =>
    if ← mapPage addr frame (flags ||| WRITABLE) then
      Prog.forRange (fun i => store32 (ptrAdd (pageOf addr) i) 0) 0 1024
      if flags &&& WRITABLE = 0 then
        let _ ← protect addr flags
        pure (some frame)
      else
        pure (some frame)
    else
      freeFrame frame
      pure none

def handleFault (addr error : U32) : Kernel Bool := do
  if error &&& PRESENT ≠ 0 ∨ isDemand addr = false then
    pure false
  else
    let mapped ← mapNew (pageOf addr) USER_PAGE
    pure mapped.isSome

/-! ## The listing of the mappings -/

def rights (entry : U32) : String :=
  match decide (entry &&& WRITABLE ≠ 0), decide (entry &&& USER ≠ 0) with
  | true, true => "rw user"
  | false, true => "r  user"
  | true, false => "rw kernel"
  | false, false => "r  kernel"

/-- A row that `print_run` prints: the first and the last address, the physical address, the number
of pages and the rights. -/
structure Row where
  virt : U32
  last : U32
  phys : U32
  pages : U32
  rights : String
  deriving DecidableEq

def printRun (virt phys flags pages : U32) : Row :=
  let span := pages * PAGE_SIZE
  { virt := virt, last := virt + (span - 1), phys := phys, pages := pages, rights := rights flags }

/-- The run of pages that `dump` has not printed yet. -/
structure Run where
  virt : U32
  phys : U32
  flags : U32
  pages : U32

/-- The rows that `extend_run` prints, and the run that it returns. -/
def extendRun : Option Run → Option (U32 × U32 × U32) → List Row × Option Run
  | some r, some (addr, frame, bits) =>
    if addr = r.virt + r.pages * PAGE_SIZE ∧ frame = r.phys + r.pages * PAGE_SIZE ∧
        bits &&& (WRITABLE ||| USER) = r.flags &&& (WRITABLE ||| USER) then
      ([], some { r with pages := r.pages + 1 })
    else ([printRun r.virt r.phys r.flags r.pages], some ⟨addr, frame, bits, 1⟩)
  | some r, none => ([printRun r.virt r.phys r.flags r.pages], none)
  | none, some (addr, frame, bits) => ([], some ⟨addr, frame, bits, 1⟩)
  | none, none => ([], none)

/-- What `dump` has printed below its header, and its variable `run`. -/
structure Listing where
  rows : List Row
  run : Option Run

def Listing.extend (out : Listing) (next : Option (U32 × U32 × U32)) : Listing :=
  let (rows, run) := extendRun out.run next
  { rows := out.rows ++ rows, run := run }

/-- The inner loop of `dump` over `n` entries of a table from `index`. -/
def dumpTable (dir : Nat) : Nat → Nat → Listing → Kernel Listing
  | _, 0, out => pure out
  | index, n + 1, out => do
    let pte ← load32 (ptrAdd (table dir) index)
    let virt := BitVec.ofNat 32 dir <<< 22 ||| BitVec.ofNat 32 index <<< 12
    if pte &&& PRESENT = 0 then
      dumpTable dir (index + 1) n (out.extend none)
    else
      dumpTable dir (index + 1) n (out.extend (some (virt, pte &&& FRAME, pte &&& FLAGS)))

/-- The outer loop of `dump` over `n` entries of the directory from `dir`. -/
def dumpFrom : Nat → Nat → Listing → Kernel Listing
  | _, 0, out => pure out
  | dir, n + 1, out => do
    let pde ← directoryEntry dir
    if pde &&& PRESENT = 0 then
      dumpFrom (dir + 1) n (out.extend none)
    else
      let out ← dumpTable dir 0 ENTRIES out
      dumpFrom (dir + 1) n out

/-- What `dump` prints: the three values of its header, and the rows. -/
structure Dump where
  directory : U32
  paging : Bool
  writeProtect : Bool
  rows : List Row

def dump : Kernel Dump := do
  let cr3 ← Prog.gets Machine.cr3
  let cr0 ← Prog.gets Machine.cr0
  let out ← dumpFrom 0 ENTRIES { rows := [], run := none }
  pure
    { directory := cr3 &&& FRAME
      paging := decide (cr0 &&& PAGING_ON ≠ 0)
      writeProtect := decide (cr0 &&& WRITE_PROTECT ≠ 0)
      rows := (out.extend none).rows }

end Kfs.Paging
