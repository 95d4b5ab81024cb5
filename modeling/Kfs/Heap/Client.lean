import Kfs.Heap.Ops

/-!
# A heap and its clients

A `Client` is a heap together with the allocations that were answered and not freed yet.  A `Call`
is one of the heap's functions, or a store of a client to a payload it holds.  The list of
allocations is not part of the source: it is what the statements about whole runs speak about.

`Client.Ok` ties the list to the blocks of the heap, and `Call.step_run` says that every call
returns, keeps `Ok`, stays within the heap's pages and frames, and changes a payload only where it
stores to it.
-/

namespace Kfs.Heap

open Lib Mem Paging Machine Blocks

/-- An allocation: the pointer, the size that was asked for, and what `size` said about it. -/
structure Live where
  pointer : U32
  want : U32
  size : U32
  deriving DecidableEq, Repr

namespace Live

/-- The address is in the payload. -/
def Holds (a : Live) (v : U32) : Prop :=
  a.pointer.toNat ≤ v.toNat ∧ v.toNat < a.pointer.toNat + a.size.toNat

instance (a : Live) (v : U32) : Decidable (a.Holds v) := inferInstanceAs (Decidable (_ ∧ _))

/-- The block behind the pointer. -/
def block (a : Live) : Nat × Nat := (a.pointer.toNat - 8, a.size.toNat)

end Live

structure Client where
  heap : Heap
  live : List Live

/-- Some allocation holds the address. -/
def Client.Holds (c : Client) (v : U32) : Prop := ∃ a ∈ c.live, a.Holds v

instance (c : Client) (v : U32) : Decidable (c.Holds v) :=
  inferInstanceAs (Decidable (∃ a ∈ c.live, a.Holds v))

inductive Call where
  | alloc (want : U32)
  | free (pointer : U32)
  | brk (delta : U32)
  | write (v : U32) (byte : U8)
  deriving DecidableEq, Repr

/-- One call.  A store outside of every payload is not a store of a client, and is left out. -/
def Call.step (c : Client) : Call → Kernel Client
  | .alloc want => do
    let (pointer, heap) ← c.heap.alloc want
    if pointer = 0 then pure { c with heap := heap }
    else
      let size ← heap.size pointer
      pure ⟨heap, ⟨pointer, want, size⟩ :: c.live⟩
  | .free pointer => do
    c.heap.free pointer
    pure { c with live := c.live.filter fun a => a.pointer ≠ pointer }
  | .brk delta => do
    let (_, heap) ← c.heap.moveBrk delta
    pure { c with heap := heap }
  | .write v byte =>
    if c.Holds v then do
      store8 v byte
      pure c
    else pure c

theorem Call.step_brk {h h' : Heap} {s t : Machine} {delta r : U32}
    (hrun : (h.moveBrk delta).run s = .ok ((r, h'), t)) (live : List Live) :
    ((Call.brk delta).step ⟨h, live⟩).run s = .ok (⟨h', live⟩, t) := by
  rw [step, Prog.bind_ok hrun, Prog.run_pure]

/-- The byte that the call stores at `v`. -/
def Call.byte (c : Client) (v : U32) : Call → Option U8
  | .write v' byte => if v' = v ∧ c.Holds v then some byte else none
  | _ => none

namespace Client

variable {c c' : Client} {s t : Machine} {bs bs' : List Block}

/-- The heap is in order, and the allocations are the blocks in use. -/
structure Ok (c : Client) (s : Machine) (bs : List Block) : Prop where
  inv : Inv c.heap s bs
  held : (Blocks.usedAt c.heap.base.toNat bs).Perm (c.live.map Live.block)
  asked : ∀ a ∈ c.live, 8 ≤ a.pointer.toNat ∧ a.want.toNat ≤ a.size.toNat

/-- What a call does to everything but the bytes of payloads. -/
structure Step (c c' : Client) (s t : Machine) (bs' : List Block) : Prop where
  ok : c'.Ok t bs'
  same : c'.heap = { c.heap with brk := c'.heap.brk }
  confined : Confined c.heap.range c.heap.window s t
  clear : c.heap.Clear s → c'.heap.Clear t

theorem Ok.mem (hc : c.Ok s bs) {a : Live} (ha : a ∈ c.live) :
    (a.pointer.toNat - 8, a.size.toNat) ∈ Blocks.usedAt c.heap.base.toNat bs :=
  hc.held.mem_iff.mpr (List.mem_map.mpr ⟨a, ha, rfl⟩)

/-- A payload lies between the base and the break, behind its header. -/
theorem Ok.bounds (hc : c.Ok s bs) {a : Live} (ha : a ∈ c.live) :
    c.heap.base.toNat + 8 ≤ a.pointer.toNat ∧
      a.pointer.toNat + a.size.toNat ≤ c.heap.brk.toNat := by
  have hb := usedAt_bounds (hc.mem ha)
  have hspan := hc.inv.span
  have := (hc.asked a ha).1
  omega

/-- The bytes of payloads after a call that does not store to them. -/
theorem Ok.keeps (hc : c.Ok s bs) (hk : c.heap.Keeps bs s t) {a : Live} (ha : a ∈ c.live) {v : U32}
    (hv : a.Holds v) : t.virt v.toNat = s.virt v.toNat := by
  obtain ⟨h1, h2⟩ := hv
  have := (hc.asked a ha).1
  exact hk _ _ (hc.mem ha) _ (by omega) (by omega)

/-- An effect that keeps the blocks in use. -/
theorem Ok.step_same (hc : c.Ok s bs) {h' : Heap} (he : Effect c.heap h' s t bs bs')
    (hused : Blocks.usedAt c.heap.base.toNat bs' = Blocks.usedAt c.heap.base.toNat bs) :
    Step c ⟨h', c.live⟩ s t bs' := by
  refine ⟨⟨he.inv, ?_, hc.asked⟩, he.same, he.confined, he.clear⟩
  rw [he.base, hused]
  exact hc.held

theorem Ok.step_alloc (hc : c.Ok s bs) {h' : Heap} (he : Effect c.heap h' s t bs bs')
    {pointer want : U32} {q size : Nat} (hp : pointer.toNat = q + 8) (hwant : want.toNat ≤ size)
    (hused : (Blocks.usedAt c.heap.base.toNat bs').Perm
      ((q, size) :: Blocks.usedAt c.heap.base.toNat bs)) :
    (h'.size pointer).run t = .ok (BitVec.ofNat 32 size, t) ∧
      Step c ⟨h', ⟨pointer, want, BitVec.ofNat 32 size⟩ :: c.live⟩ s t bs' := by
  have hmem : (q, size) ∈ Blocks.usedAt h'.base.toNat bs' := by
    rw [he.base]
    exact hused.mem_iff.mpr List.mem_cons_self
  have hsize : (BitVec.ofNat 32 size).toNat = size := by
    have hb := usedAt_bounds hmem
    have hspan := he.inv.span
    have hlt := h'.brk.isLt
    rw [BitVec.toNat_ofNat]
    omega
  refine ⟨size_run he.inv hmem hp, ⟨he.inv, ?_, fun a ha => ?_⟩, he.same, he.confined, he.clear⟩
  · rw [he.base, List.map_cons, Live.block, hsize, hp, Nat.add_sub_cancel]
    exact hused.trans (hc.held.cons _)
  · rcases List.mem_cons.mp ha with rfl | ha
    · exact ⟨by rw [hp]; omega, by rw [hsize]; exact hwant⟩
    · exact hc.asked a ha

theorem Ok.step_free (hc : c.Ok s bs) {pointer : U32} (he : Effect c.heap c.heap s t bs bs')
    (hused : Blocks.usedAt c.heap.base.toNat bs'
      = (Blocks.usedAt c.heap.base.toNat bs).filter fun x => x.1 + 8 ≠ pointer.toNat) :
    Step c { c with live := c.live.filter fun a => a.pointer ≠ pointer } s t bs' := by
  refine ⟨⟨he.inv, ?_, fun a ha => hc.asked a (List.mem_filter.mp ha).1⟩, rfl, he.confined,
    he.clear⟩
  have hperm := hc.held.filter fun x => x.1 + 8 ≠ pointer.toNat
  rw [List.filter_map] at hperm
  rw [hused]
  refine hperm.trans (List.Perm.of_eq (congrArg _ (List.filter_congr fun a ha => ?_)))
  -- the same allocation by its block and by its pointer
  refine decide_eq_decide.mpr (not_congr ?_)
  have h8 := (hc.asked a ha).1
  rw [Live.block]
  dsimp only
  rw [Nat.sub_add_cancel h8]
  exact BitVec.toNat_inj

/-- A store of a client changes no header. -/
theorem Ok.step_write (hc : c.Ok s bs) {v : U32} (byte : U8) (hv : c.Holds v) :
    ∃ t, (store8 v byte).run s = .ok ((), t) ∧ Step c c s t bs ∧
      ∀ x, c.heap.base.toNat ≤ x → x < c.heap.brk.toNat →
        t.virt x = if x = v.toNat then byte else s.virt x := by
  obtain ⟨a, ha, h1, h2⟩ := hv
  have hi := hc.inv
  obtain ⟨hbase, hbrk⟩ := hi.pages
  obtain ⟨hlo, hhi⟩ := hc.bounds ha
  obtain ⟨t, hrun, hw, hview⟩ := hi.view.store8 (v := v) byte (by omega) (by omega)
  have hvirt : ∀ x, c.heap.base.toNat ≤ x → x < c.heap.brk.toNat →
      t.virt x = if x = v.toNat then byte else s.virt x := by
    intro x hx1 hx2
    rw [hview.sees x (by omega) (by omega)]
    split
    · rename_i hx
      rw [hx, ByteMem.write8_same]
    · rename_i hx
      exact ByteMem.write8_other _ _ hx
  have hspan := hi.span
  have htiles : Tiles t.virt c.heap.base.toNat bs := by
    refine tiles_congr (fun p hp => ?_) hi.tiles
    have hb := hp.bounds
    rw [hvirt p (by omega) (by omega), if_neg]
    rintro rfl
    have h8 := (hc.asked a ha).1
    exact usedAt_payload (hc.mem ha) (by omega) (by omega) hp
  have hinv := hi.wrote hw htiles rfl
  refine ⟨t, hrun, ⟨⟨hinv, hc.held, hc.asked⟩, rfl, hi.wrote_confined hw, fun hcl p hp1 hp2 => ?_⟩,
    hvirt⟩
  have := hi.placed.limit_page
  rw [hw.leaf hi.paged hi.owned (by omega)]
  exact hcl p hp1 hp2

end Client

/-- What a call does to the blocks, by the outcomes of the heap's functions. -/
def Call.Outcome (c c' : Client) (s t : Machine) (bs bs' : List Block) : Call → Prop
  | .alloc want => ∃ p, Alloc c.heap s bs want p c'.heap t bs'
  | .free pointer => c'.heap = c.heap ∧ Freed c.heap s bs pointer t bs'
  | .brk delta => ∃ r, Move c.heap s bs delta r c'.heap t bs'
  | .write _ _ => c'.heap = c.heap ∧ bs' = bs

/-- Every call returns, and keeps the state of the heap and its clients.  An allocation goes away
only when its pointer is freed, and a payload holds what it held, but for the byte that the call
stores. -/
theorem Call.step_run {c : Client} {s : Machine} {bs : List Block} (hc : c.Ok s bs) (call : Call) :
    ∃ c' t bs', (call.step c).run s = .ok (c', t) ∧ Client.Step c c' s t bs' ∧
      call.Outcome c c' s t bs bs' ∧ (∀ a ∈ c.live, call ≠ .free a.pointer → a ∈ c'.live) ∧
      ∀ a ∈ c.live, ∀ v, a.Holds v →
        t.virt v.toNat = (call.byte c v).getD (s.virt v.toNat) := by
  cases call with
  | alloc want =>
    obtain ⟨p, h', t, bs', hrun, hcase⟩ := alloc_run hc.inv want
    obtain ⟨he, hans⟩ := hcase.effect hc.inv
    rcases hans with ⟨rfl, hused⟩ | ⟨q, size, hp, _, hwant, hused⟩
    · refine ⟨_, t, bs', ?_, hc.step_same he hused, ⟨0, hcase⟩, fun a ha _ => ha,
        fun a ha v hv => hc.keeps he.keeps ha hv⟩
      rw [Call.step, Prog.bind_ok hrun]
      rfl
    · obtain ⟨hsize, hstep⟩ := hc.step_alloc he hp hwant hused
      refine ⟨_, t, bs', ?_, hstep, ⟨p, hcase⟩, fun a ha _ => List.mem_cons_of_mem _ ha,
        fun a ha v hv => hc.keeps he.keeps ha hv⟩
      have hne : p ≠ 0 := fun hz => by
        rw [hz] at hp
        exact absurd hp (Nat.succ_ne_zero _).symm
      rw [Call.step, Prog.bind_ok hrun]
      dsimp only
      rw [if_neg hne, Prog.bind_ok hsize, Prog.run_pure]
  | free pointer =>
    obtain ⟨t, bs', hrun, hcase⟩ := free_run hc.inv pointer
    obtain ⟨he, hused⟩ := hcase.effect hc.inv
    refine ⟨_, t, bs', ?_, hc.step_free he hused, ⟨rfl, hcase⟩, fun a ha hne => ?_,
      fun a ha v hv => hc.keeps he.keeps ha hv⟩
    · rw [Call.step, Prog.bind_ok hrun, Prog.run_pure]
    · exact List.mem_filter.mpr ⟨ha, decide_eq_true fun heq => hne (by rw [heq])⟩
  | brk delta =>
    obtain ⟨r, h', t, bs', hrun, hcase⟩ := moveBrk_run hc.inv delta
    obtain ⟨he, hused⟩ := hcase.effect hc.inv
    exact ⟨_, t, bs', Call.step_brk hrun c.live, hc.step_same he hused, ⟨r, hcase⟩,
      fun a ha _ => ha, fun a ha v hv => hc.keeps he.keeps ha hv⟩
  | write v byte =>
    by_cases hv : c.Holds v
    · obtain ⟨t, hrun, hstep, hvirt⟩ := hc.step_write byte hv
      refine ⟨c, t, bs, ?_, hstep, ⟨rfl, rfl⟩, fun a ha _ => ha, fun a ha x hx => ?_⟩
      · rw [Call.step, if_pos hv, Prog.bind_ok hrun, Prog.run_pure]
      · obtain ⟨hlo, hhi⟩ := hc.bounds ha
        obtain ⟨hx1, hx2⟩ := hx
        rw [hvirt _ (by omega) (by omega), Call.byte]
        by_cases hxv : x = v
        · subst hxv
          rw [if_pos rfl, if_pos ⟨rfl, hv⟩, Option.getD_some]
        · rw [if_neg fun h => hxv (BitVec.eq_of_toNat_eq h), if_neg fun h => hxv h.1.symm,
            Option.getD_none]
    · refine ⟨c, s, bs, by rw [Call.step, if_neg hv, Prog.run_pure],
        ⟨hc, rfl, .refl hc.inv.paged, id⟩, ⟨rfl, rfl⟩, fun a ha _ => ha, fun a ha x hx => ?_⟩
      rw [Call.byte, if_neg]
      · rfl
      · rintro ⟨rfl, hh⟩
        exact hv hh

end Kfs.Heap
