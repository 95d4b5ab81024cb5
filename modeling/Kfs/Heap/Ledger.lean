import Kfs.Heap.Laws

/-!
# The statistics of a heap as a ledger

`stats` counts the blocks in one walk.  On a heap in order its counters cannot overflow, since the
blocks lie side by side below the break.  So `Ledger` holds: `live` and `used` are the number and
the bytes of the allocations, and every byte between the base and the break is in one of the
counters.
-/

namespace Kfs.Heap

open Lib Mem Paging Machine Blocks

variable {s t : Machine} {bs : List Block}

/-! ## The counters -/

/-- The bytes that the counters stand for. -/
def Stats.bytes (st : Stats) : Nat := st.used.toNat + st.free.toNat + 8 * st.blocks.toNat

theorem Stats.count_used {b : Block} (hb : b.used = true) {st : Stats}
    (hle : st.live.toNat ≤ st.blocks.toNat) (hlt : st.bytes + (8 + b.size) < 2 ^ 32) :
    (st.count b).live.toNat = st.live.toNat + 1 ∧
      (st.count b).used.toNat = st.used.toNat + b.size ∧
      (st.count b).bytes = st.bytes + (8 + b.size) ∧
      (st.count b).live.toNat ≤ (st.count b).blocks.toNat := by
  have hone : (1 : U32).toNat = 1 := rfl
  unfold Stats.bytes at hlt ⊢
  unfold Stats.count
  simp only [hb, if_true, BitVec.toNat_add, BitVec.toNat_ofNat, hone]
  omega

theorem Stats.count_free {b : Block} (hb : b.used = false) {st : Stats}
    (hle : st.live.toNat ≤ st.blocks.toNat) (hlt : st.bytes + (8 + b.size) < 2 ^ 32) :
    (st.count b).live.toNat = st.live.toNat ∧ (st.count b).used.toNat = st.used.toNat ∧
      (st.count b).bytes = st.bytes + (8 + b.size) ∧
      (st.count b).live.toNat ≤ (st.count b).blocks.toNat := by
  have hone : (1 : U32).toNat = 1 := rfl
  unfold Stats.bytes at hlt ⊢
  unfold Stats.count
  simp only [hb, Bool.false_eq_true, if_false, BitVec.toNat_add, BitVec.toNat_ofNat, hone, true_and]
  omega

/-- The counters after a walk over blocks that fit into the address space. -/
theorem foldl_count (bs : List Block) : ∀ (a : Nat) (st : Stats),
    st.live.toNat ≤ st.blocks.toNat → st.bytes + span bs < 2 ^ 32 →
    (bs.foldl Stats.count st).live.toNat = st.live.toNat + (Blocks.usedAt a bs).length ∧
      (bs.foldl Stats.count st).used.toNat
        = st.used.toNat + ((Blocks.usedAt a bs).map Prod.snd).sum ∧
      (bs.foldl Stats.count st).bytes = st.bytes + span bs := by
  induction bs with
  | nil =>
    intro a st _ _
    exact ⟨rfl, rfl, rfl⟩
  | cons b bs ih =>
    intro a st hle hlt
    rw [span_cons] at hlt
    cases hb : b.used with
    | true =>
      obtain ⟨hlive, hused, hbytes, hle'⟩ := Stats.count_used hb hle (by omega)
      obtain ⟨h1, h2, h3⟩ := ih (a + (8 + b.size)) (st.count b) hle' (by omega)
      rw [usedAt_used hb, List.foldl_cons, List.length_cons, List.map_cons, List.sum_cons,
        span_cons]
      omega
    | false =>
      obtain ⟨hlive, hused, hbytes, hle'⟩ := Stats.count_free hb hle (by omega)
      obtain ⟨h1, h2, h3⟩ := ih (a + (8 + b.size)) (st.count b) hle' (by omega)
      rw [usedAt_free hb, List.foldl_cons, span_cons]
      omega

/-! ## The ledger -/

namespace Client

variable {c : Client}

/-- The bytes of the allocations. -/
def bytes (c : Client) : Nat := (c.live.map fun a => a.size.toNat).sum

/-- The counters are those of the allocations, and nothing below the break is missing from them. -/
structure Ledger (c : Client) (s : Machine) (st : Stats) : Prop where
  nodup : (c.live.map Live.pointer).Nodup
  sizes : ∀ a ∈ c.live, (c.heap.size a.pointer).run s = .ok (a.size, s)
  live : st.live.toNat = c.live.length
  used : st.used.toNat = c.bytes
  total : st.used.toNat + st.free.toNat + 8 * st.blocks.toNat
    = c.heap.brk.toNat - c.heap.base.toNat

theorem Ok.nodup (hc : c.Ok s bs) : (c.live.map Live.pointer).Nodup := by
  have hblocks : ((c.live.map Live.block).map Prod.fst).Nodup :=
    (hc.held.map Prod.fst).nodup_iff.mp (usedAt_nodup bs _)
  rw [List.map_map, List.Nodup, List.pairwise_map] at hblocks
  rw [List.Nodup, List.pairwise_map]
  exact hblocks.imp fun hne heq => hne (by simp only [Function.comp, Live.block, heq])

theorem Ok.size_live (hc : c.Ok s bs) {a : Live} (ha : a ∈ c.live) :
    (c.heap.size a.pointer).run s = .ok (a.size, s) := by
  have h8 := (hc.asked a ha).1
  rw [size_run hc.inv (hc.mem ha) (by omega), BitVec.ofNat_toNat, BitVec.setWidth_eq]

theorem Ok.ledger (hc : c.Ok s bs) : ∃ st, c.heap.stats.run s = .ok (st, s) ∧ c.Ledger s st := by
  have hspan := hc.inv.span
  have hlt := c.heap.brk.isLt
  obtain ⟨hlive, hused, hbytes⟩ := foldl_count bs c.heap.base.toNat ⟨0, 0, 0, 0⟩ (le_refl _) (by
    rw [show Stats.bytes ⟨0, 0, 0, 0⟩ = 0 from rfl]
    omega)
  refine ⟨_, stats_run hc.inv, hc.nodup, fun a ha => hc.size_live ha, ?_, ?_, ?_⟩
  · rw [hlive, hc.held.length_eq, List.length_map]
    exact Nat.zero_add _
  · rw [hused, (hc.held.map Prod.snd).sum_eq, List.map_map, bytes]
    exact Nat.zero_add _
  · rw [Stats.bytes, show Stats.bytes ⟨0, 0, 0, 0⟩ = 0 from rfl] at hbytes
    omega

end Client

/-! ## What a call changes in the ledger -/

/-- One allocation less. -/
theorem sum_filter_pointer {a : Live} : ∀ {l : List Live}, (l.map Live.pointer).Nodup → a ∈ l →
    ((l.filter fun x => x.pointer ≠ a.pointer).map fun x => x.size.toNat).sum + a.size.toNat
      = (l.map fun x => x.size.toNat).sum := by
  intro l
  induction l with
  | nil => exact fun _ ha => absurd ha List.not_mem_nil
  | cons x l ih =>
    intro hnd ha
    rw [List.map_cons, List.nodup_cons] at hnd
    rcases List.mem_cons.mp ha with rfl | ha
    · -- the other pointers differ
      have hself : l.filter (fun x => x.pointer ≠ a.pointer) = l := by
        refine List.filter_eq_self.mpr fun y hy => decide_eq_true fun heq => hnd.1 ?_
        rw [← heq]
        exact List.mem_map_of_mem hy
      rw [List.filter_cons_of_neg (by simp), hself, List.map_cons, List.sum_cons, Nat.add_comm]
    · have hne : x.pointer ≠ a.pointer := fun heq => hnd.1 (by
        rw [heq]
        exact List.mem_map_of_mem ha)
      rw [List.filter_cons_of_pos (by simpa using hne), List.map_cons, List.map_cons, List.sum_cons,
        List.sum_cons, Nat.add_assoc, ih hnd.2 ha]

/-- The ledger holds, a free takes the size of its block off `used`, and an allocation adds the size
of its block. -/
structure Balanced (c : Client) (s : Machine) (st : Stats) : Prop where
  ledger : c.Ledger s st
  free : ∀ a ∈ c.live, ∃ t st', (c.heap.free a.pointer).run s = .ok ((), t) ∧
    c.heap.stats.run t = .ok (st', t) ∧ st'.used.toNat + a.size.toNat = st.used.toNat
  alloc : ∀ want, ∃ p h' t st', (c.heap.alloc want).run s = .ok ((p, h'), t) ∧
    h'.stats.run t = .ok (st', t) ∧
    (p ≠ 0 → ∃ size, (h'.size p).run t = .ok (size, t) ∧
      st'.used.toNat = st.used.toNat + size.toNat)

theorem stats_balanced {c : Client} (hc : c.Ok s bs) :
    ∃ st, c.heap.stats.run s = .ok (st, s) ∧ Balanced c s st := by
  obtain ⟨st, hstats, hledger⟩ := hc.ledger
  refine ⟨st, hstats, hledger, fun a ha => ?_, fun want => ?_⟩
  · obtain ⟨t, bs', hrun, hcase⟩ := free_run hc.inv a.pointer
    obtain ⟨he, hused⟩ := hcase.effect hc.inv
    obtain ⟨st', hstats', hledger'⟩ := (hc.step_free he hused).ok.ledger
    refine ⟨t, st', hrun, hstats', ?_⟩
    rw [hledger'.used, hledger.used]
    exact sum_filter_pointer hc.nodup ha
  · obtain ⟨p, h', t, bs', hrun, hcase⟩ := alloc_run hc.inv want
    obtain ⟨he, hans⟩ := hcase.effect hc.inv
    rcases hans with ⟨rfl, hused⟩ | ⟨q, size, hp, _, hwant, hused⟩
    · obtain ⟨st', hstats', _⟩ := (hc.step_same he hused).ok.ledger
      exact ⟨0, h', t, st', hrun, hstats', fun hne => absurd rfl hne⟩
    · obtain ⟨hsize, hstep⟩ := hc.step_alloc he hp hwant hused
      obtain ⟨st', hstats', hledger'⟩ := hstep.ok.ledger
      refine ⟨p, h', t, st', hrun, hstats', fun _ => ⟨_, hsize, ?_⟩⟩
      rw [hledger'.used, hledger.used]
      exact Nat.add_comm _ _

end Kfs.Heap
