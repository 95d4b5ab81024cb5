import Kfs.Paging.Runs

/-!
# The walk of one address

`describe` and `summary` of `kernel/src/paging.rs`, which the shell's `virt` command prints.  They
read the tables through the recursive window.  `describe_shows` and `found_shows` say that they
print what the processor finds on its way from CR3.
-/

namespace Kfs.Paging

open Lib Mem Machine

abbrev WRITE_THROUGH : U32 := 0x08
abbrev NO_CACHE : U32 := 0x10
abbrev ACCESSED : U32 := 0x20
abbrev DIRTY : U32 := 0x40
abbrev LARGE : U32 := 0x80
abbrev GLOBAL : U32 := 0x100

def bit (entry mask : U32) : Nat := if entry &&& mask ≠ 0 then 1 else 0

def printFlags (entry : U32) : String :=
  String.join
    (["    p ", toString (bit entry PRESENT), " rw ", toString (bit entry WRITABLE), " us ",
      toString (bit entry USER), " a ", toString (bit entry ACCESSED), " d ",
      toString (bit entry DIRTY), " ps ", toString (bit entry LARGE), " g ",
      toString (bit entry GLOBAL), " pwt ", toString (bit entry WRITE_THROUGH), " pcd ",
      toString (bit entry NO_CACHE), "\n"])

/-- How far the walk gets, with the entries on the way. -/
inductive Description where
  | noTable (pde : U32)
  | noPage (pde pte : U32)
  | page (pde pte phys : U32)
  deriving DecidableEq, Repr

def describe (addr : U32) : Kernel Description := do
  let dir := dirIndex addr
  let index := tableIndex addr
  let pde ← directoryEntry dir
  if pde &&& PRESENT = 0 then pure (.noTable pde)
  else
    let pte ← load32 (ptrAdd (table dir) index)
    if pte &&& PRESENT = 0 then pure (.noPage pde pte)
    else pure (.page pde pte ((pte &&& FRAME) ||| offset addr))

/-- The line for a present entry and the line of its flags. -/
def entryLines (level goal : String) (entry : U32) : List String :=
  [level ++ hex entry ++ " -> " ++ goal ++ " at " ++ hex (entry &&& FRAME) ++ ", " ++
    rights entry ++ "\n", printFlags entry]

/-- The lines that `describe` prints. -/
def Description.lines (addr : U32) (d : Description) : List String :=
  (hex addr ++ ": directory " ++ toString (dirIndex addr) ++ " table " ++
    toString (tableIndex addr) ++ " offset " ++ toString (offset addr).toNat ++ " in " ++
    (spaceOf addr).name ++ " space\n") ::
  match d with
  | .noTable pde => ["  directory entry " ++ hex pde ++ ", not present\n"]
  | .noPage pde pte => entryLines "  directory entry " "table" pde ++
      ["  table entry     " ++ hex pte ++ ", not present\n"]
  | .page pde pte phys => entryLines "  directory entry " "table" pde ++
      entryLines "  table entry     " "frame" pte ++ ["  physical        " ++ hex phys ++ "\n"]

/-- The physical address and the rights that `summary` prints, or nothing for a page that is not
mapped. -/
def summary (addr : U32) : Kernel (Option (U32 × String)) := do
  let entry ← entryOf addr
  pure (entry.map fun entry => ((entry &&& FRAME) ||| offset addr, rights entry))

/-! ## The hardware walk -/

/-- The entries are those of the hardware walk, and the physical address is the one it ends at. -/
def Description.Shows (s : Machine) (addr : U32) : Description → Prop
  | .noTable pde => pde = s.dirWord (addr.toNat / 2 ^ 22) ∧ present pde = false
  | .noPage pde pte => pde = s.dirWord (addr.toNat / 2 ^ 22) ∧ present pde = true ∧
      pte = s.mem.read32 (4096 * frameNo pde + 4 * (addr.toNat / 2 ^ 12 % 1024)) ∧
      present pte = false
  | .page pde pte phys => s.walk addr = some (pde, pte) ∧ s.translation addr = some phys.toNat

/-- What `summary` finds at an address. -/
def found (s : Machine) (addr : U32) : Option (U32 × String) :=
  (s.leaf (addr.toNat / 4096)).map fun e => ((e &&& FRAME) ||| offset addr, rights e)

section

variable {s : Machine} (hs : s.Paged)
include hs

theorem describe_shows (addr : U32) :
    ∃ d, (describe addr).run s = .ok (d, s) ∧ d.Shows s addr := by
  have hd := dirIndex_lt addr
  have hdir : dirIndex addr = addr.toNat / 2 ^ 22 := by
    rw [dirIndex_eq, Nat.div_div_eq_div_mul]
    rfl
  have hindex : tableIndex addr = addr.toNat / 2 ^ 12 % 1024 := tableIndex_eq addr
  rw [describe, directoryEntry, Prog.bind_ok (load32_directory hs.selfMapped hd)]
  cases hp : present (s.dirWord (dirIndex addr)) with
  | false =>
    rw [if_pos ((and_present_eq_zero _).mpr hp)]
    exact ⟨_, rfl, by rw [hdir], hp⟩
  | true =>
    have hload := load32_entry hs hp
    rw [entryPtr] at hload
    rw [if_neg (by rw [and_present_eq_zero, hp]; decide), Prog.bind_ok hload]
    have hwalk := s.walk_eq addr
    rw [leaf_page, if_pos hp] at hwalk
    cases hpte : present (s.tabWord (dirIndex addr) (tableIndex addr)) with
    | false =>
      rw [if_pos ((and_present_eq_zero _).mpr hpte)]
      refine ⟨_, rfl, by rw [hdir], hp, ?_, hpte⟩
      rw [tabWord, hindex]
    | true =>
      rw [if_neg (by rw [and_present_eq_zero, hpte]; decide)]
      rw [if_pos hpte, Option.map_some] at hwalk
      refine ⟨_, rfl, ?_, ?_⟩
      · rw [hwalk, dirIndex_eq]
      · rw [translation, hwalk, Option.map_some, toNat_translate]

theorem summary_run (addr : U32) : (summary addr).run s = .ok (found s addr, s) := by
  rw [summary, Prog.bind_ok (run_entryOf hs addr)]
  rfl

end

/-- The physical address is the one that the hardware walk ends at, and the rights are those of its
table entry. -/
theorem found_shows (s : Machine) (addr : U32) :
    (found s addr).map (fun r => r.1.toNat) = s.translation addr ∧
      (found s addr).map Prod.snd = (s.walk addr).map fun e => rights e.2 := by
  rw [found, translation, walk_eq]
  cases s.leaf (addr.toNat / 4096) with
  | none => exact ⟨rfl, rfl⟩
  | some e =>
    refine ⟨?_, rfl⟩
    simp only [Option.map_some]
    rw [toNat_translate]

end Kfs.Paging
