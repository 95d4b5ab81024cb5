import Kfs.Mem

/-!
# The memory the loader reported

`Ram` and `Ram::push` of `kernel/src/multiboot.rs`.  The walk over the loader's structures is in
`Kfs.Multiboot.Probe`, because it reads memory.
-/

namespace Kfs.Multiboot

abbrev BOOT_MAGIC : U32 := 0x2BADB002

abbrev FLAG_MEMORY : U32 := 1
abbrev FLAG_MMAP : U32 := 64

abbrev AVAILABLE : U32 := 1

abbrev MAX_REGIONS : Nat := 12

abbrev REACHABLE : U32 := 0x00400000

structure Region where
  base : U32
  finish : U32
  deriving DecidableEq, Repr

/-- The parsed memory map.  `regions` holds the `count` slots of the source's array that are
filled. -/
structure Ram where
  regions : List Region
  usable : U64
  highest : U32
  source : String
  deriving DecidableEq, Repr

namespace Ram

def count (ram : Ram) : Nat := ram.regions.length

def nothing : Ram where
  regions := []
  usable := 0
  highest := 0
  source := "none"

/-- `u64::saturating_add`. -/
def saturatingAdd (a b : U64) : U64 :=
  if a.toNat + b.toNat < 2 ^ 64 then a + b else BitVec.allOnes 64

def push (ram : Ram) (base length : U64) : Ram :=
  if ram.count = MAX_REGIONS ∨ length = 0 then ram
  else
    let top := saturatingAdd base length
    if base ≥ 0xFFFFFFFF then ram
    else
      let base32 : U32 := base.setWidth 32
      -- a region that reaches past 32 bits is cut at the last whole page
      let finish : U32 := if top > 0xFFFFFFFF then 0xFFFFFFFF &&& ~~~0xFFF else top.setWidth 32
      if finish ≤ base32 then ram
      else
        { ram with
          regions := ram.regions ++ [⟨base32, finish⟩]
          usable := ram.usable + (finish - base32).setWidth 64
          highest := if finish > ram.highest then finish else ram.highest }

/-! ## What `push` keeps -/

/-- What holds of every map that `push` builds: at most twelve regions, none of them empty, and
`usable` the exact sum of their lengths. -/
structure Wf (ram : Ram) : Prop where
  count_le : ram.count ≤ MAX_REGIONS
  nonempty : ∀ r ∈ ram.regions, r.base < r.finish
  usable_eq : ram.usable.toNat
    = (ram.regions.map fun r => r.finish.toNat - r.base.toNat).sum

theorem wf_nothing : nothing.Wf where
  count_le := by decide
  nonempty := by simp [nothing]
  usable_eq := rfl

theorem Wf.withSource {ram : Ram} (h : ram.Wf) (source : String) :
    Wf { ram with source := source } :=
  ⟨h.count_le, h.nonempty, h.usable_eq⟩

/-- Twelve regions of less than 4 GB each do not overflow a 64-bit sum. -/
theorem sum_lengths_le (rs : List Region) :
    (rs.map fun r => r.finish.toNat - r.base.toNat).sum ≤ rs.length * 2 ^ 32 := by
  induction rs with
  | nil => simp
  | cons r rs ih =>
    have hr := r.finish.isLt
    simp only [List.map_cons, List.sum_cons, List.length_cons]
    omega

/-- One more region that is not empty keeps the map well formed. -/
theorem Wf.append {ram : Ram} (h : ram.Wf) {base finish : U32} (highest : U32)
    (hcount : ram.count < MAX_REGIONS) (hlt : base < finish) :
    Wf { ram with
      regions := ram.regions ++ [⟨base, finish⟩]
      usable := ram.usable + (finish - base).setWidth 64
      highest := highest } := by
  obtain ⟨_, hne, hsum⟩ := h
  have hle := sum_lengths_le ram.regions
  simp only [count, MAX_REGIONS] at hcount
  refine ⟨?_, ?_, ?_⟩
  · simp only [count, List.length_append, List.length_singleton, MAX_REGIONS]
    omega
  · intro r hr
    rcases List.mem_append.mp hr with hr | hr
    · exact hne r hr
    · rw [List.mem_singleton.mp hr]
      exact hlt
  · rw [List.map_append, List.sum_append, ← hsum]
    simp only [List.map_cons, List.map_nil, List.sum_cons, List.sum_nil, Nat.add_zero,
      BitVec.toNat_add, BitVec.toNat_setWidth, BitVec.toNat_sub]
    bv_omega

theorem Wf.push {ram : Ram} (h : ram.Wf) (base length : U64) : (ram.push base length).Wf := by
  have hle := h.count_le
  unfold Ram.push
  split
  · exact h
  · rename_i hfull
    extract_lets top
    split
    · exact h
    · split
      · exact h
      · rename_i hlt
        exact h.append _ (by omega) (BitVec.not_le.mp hlt)

end Ram

end Kfs.Multiboot
