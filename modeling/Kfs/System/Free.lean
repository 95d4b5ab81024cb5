import Kfs.System.Reach
import Kfs.System.Blind

/-!
# Pointers and counters

`free` accepts the pointers that `alloc` returned and that were not freed since, and no other
number, whatever the payloads hold: `free_only_live`.  The counters of `stats` are those of the
live allocations: `stats_ledger`.
-/

namespace Kfs

open Lib Mem Multiboot Paging Machine Heap

section

variable {L : Layout} {ram : Ram} {hs : Heaps} {s : Machine}

/-- After a boot and any operations, stores of the clients included, a free clears the flag of the
block if its pointer is live, and changes nothing if not. -/
theorem free_only_live (hb : Booted L ram hs s) (hw : hs.NoWrap) (ops : List Op) :
    ∃ hs' t, (runOps hs ops).run s = .ok (hs', t) ∧ ∀ (side : Side) (p : U32),
      ∃ u, ((hs'.of side).heap.free p).run t = .ok ((), u) ∧ FreeExact (hs'.of side) t u p := by
  obtain ⟨hs', t, hrun, hgood⟩ := hb.reach hw ops
  refine ⟨hs', t, hrun, fun side p => ?_⟩
  obtain ⟨bs, hside⟩ := hgood side
  exact free_exact hside.ok p

/-- A store of a client that looks like a header, and a free of the payload behind it. -/
theorem free_only_live_plain : ∃ hs s, Booted smallLayout (ramOf plainEntries) hs s ∧ hs.NoWrap ∧
    ∃ hs' t, (runOps hs [.kmalloc 100, .kernel (.write 0xD0000008 16),
        .kernel (.write 0xD000000C 1)]).run s = .ok (hs', t) ∧
      ∃ u, ((hs'.of .kernel).heap.free 0xD0000010).run t = .ok ((), u) ∧
        FreeExact (hs'.of .kernel) t u 0xD0000010 := by
  obtain ⟨hs, s, hb, hend⟩ := exists_booted_plain
  obtain ⟨hs', t, hrun, hall⟩ := free_only_live hb (Or.inl hend)
    [.kmalloc 100, .kernel (.write 0xD0000008 16), .kernel (.write 0xD000000C 1)]
  exact ⟨hs, s, hb, Or.inl hend, hs', t, hrun, hall .kernel 0xD0000010⟩

/-- On a machine where the kernel's heap wraps around, a store to one of its payloads can take the
flag off a block of the virtual heap.  Then a free of the live pointer changes nothing. -/
theorem free_live_refused_top : ∃ s, Booted smallLayout (ramOf topEntries) (heapInit topWindow) s ∧
    ∃ v hs t, (runOps (heapInit topWindow) [.kmalloc 0x213FF8, .vmalloc 8,
        .kernel (.write v 0)]).run s = .ok (hs, t) ∧
      (∃ a ∈ hs.virtual.live, a.pointer = 0xE0000008) ∧
      ∃ u, (hs.virtual.heap.free 0xE0000008).run t = .ok ((), u) ∧ Untouched t u := by
  obtain ⟨s, hb, v, hs1, s1, hs, s2, t, hrun1, hrun2, hrun3, hx⟩ := exists_crossed_top
  obtain ⟨a, hlive, hpointer⟩ := hx.live
  obtain ⟨c, ys, hready, _, hused⟩ := hx.blocks
  obtain ⟨u, bs', hrun, hfreed⟩ := free_run hready.inv 0xE0000008
  refine ⟨s, hb, v, hs, t,
    by rw [runOps_cons hrun1, runOps_cons hrun2, runOps_cons hrun3, runOps_nil],
    ⟨a, by rw [hlive]; exact List.mem_singleton_self a, hpointer⟩, u, hrun, ?_⟩
  cases hfreed with
  | refused _ hu => exact hu
  | done hbs hb hp =>
    -- there is no block in use
    have hmem := (Blocks.mem_usedAt (a := 0xE0000000)).mpr ⟨_, _, _, hbs, rfl, hb, rfl⟩
    rw [hused] at hmem
    cases hmem

/-- After a boot and any operations, the counters of `stats` are those of the live allocations. -/
theorem stats_ledger (hb : Booted L ram hs s) (hw : hs.NoWrap) (ops : List Op) :
    ∃ hs' t, (runOps hs ops).run s = .ok (hs', t) ∧ ∀ side : Side,
      ∃ st, (hs'.of side).heap.stats.run t = .ok (st, t) ∧ Balanced (hs'.of side) t st := by
  obtain ⟨hs', t, hrun, hgood⟩ := hb.reach hw ops
  refine ⟨hs', t, hrun, fun side => ?_⟩
  obtain ⟨bs, hside⟩ := hgood side
  exact stats_balanced hside.ok

theorem stats_ledger_plain : ∃ hs s, Booted smallLayout (ramOf plainEntries) hs s ∧ hs.NoWrap ∧
    ∃ hs' t, (runOps hs [.kmalloc 100, .kmalloc 5000, .kfree 0xD0000008]).run s = .ok (hs', t) ∧
      ∃ st, (hs'.of .kernel).heap.stats.run t = .ok (st, t) ∧ Balanced (hs'.of .kernel) t st := by
  obtain ⟨hs, s, hb, hend⟩ := exists_booted_plain
  obtain ⟨hs', t, hrun, hall⟩ := stats_ledger hb (Or.inl hend)
    [.kmalloc 100, .kmalloc 5000, .kfree 0xD0000008]
  exact ⟨hs, s, hb, Or.inl hend, hs', t, hrun, hall .kernel⟩

/-- On a machine where the kernel's heap wraps around, `stats` of the virtual heap can miss a live
allocation. -/
theorem stats_misses_top : ∃ s, Booted smallLayout (ramOf topEntries) (heapInit topWindow) s ∧
    ∃ v hs t, (runOps (heapInit topWindow) [.kmalloc 0x213FF8, .vmalloc 8,
        .kernel (.write v 0)]).run s = .ok (hs, t) ∧ hs.virtual.live.length = 1 ∧
      ∃ st, hs.virtual.heap.stats.run t = .ok (st, t) ∧ st.live.toNat = 0 := by
  obtain ⟨s, hb, v, hs1, s1, hs, s2, t, hrun1, hrun2, hrun3, hx⟩ := exists_crossed_top
  obtain ⟨a, hlive, _⟩ := hx.live
  obtain ⟨c, ys, hready, _, hused⟩ := hx.blocks
  -- the heap is in order for a client that holds nothing
  have hok : (⟨hs.virtual.heap, []⟩ : Client).Ok t (c :: ys) := by
    refine ⟨hready.inv, ?_, fun x hx => by cases hx⟩
    show (Blocks.usedAt hs.virtual.heap.base.toNat (c :: ys)).Perm []
    rw [hx.heap]
    exact List.Perm.of_eq hused
  obtain ⟨st, hstats, hledger⟩ := hok.ledger
  exact ⟨s, hb, v, hs, t,
    by rw [runOps_cons hrun1, runOps_cons hrun2, runOps_cons hrun3, runOps_nil],
    by rw [hlive]; rfl, st, hstats, hledger.live⟩

end

end Kfs
