import Kfs.System.Inv
import Kfs.Heap.Eager

/-!
# The heaps in every state that is reached

The laws of a single heap ask for `Ready`: the heap is in order, and nothing of its range above the
break is mapped.  `Booted.reach` gives this for both heaps after any run of the kernel whose block
cannot wrap around.
-/

namespace Kfs

open Lib Mem Paging Machine Heap

/-- A heap and its clients are in order, and so are its range and the count of the free frames. -/
structure Heap.Client.Good (c : Client) (s : Machine) (bs : List Block) : Prop where
  ok : c.Ok s bs
  ready : Ready c.heap s bs
  counted : s.pmm.Counted

/-- A heap that has moved nothing but its break since it was set up as `g`. -/
theorem Heap.Ready.of_statics {h g : Heap} {s : Machine} {bs : List Block} (hi : Inv h s bs)
    (hclear : h.Clear s) (hsame : h = { g with brk := h.brk }) (hflags : g.flags &&& USER = 0)
    (hpos : 0 < g.base.toNat) (hrange : g.base.toNat < g.limit.toNat) : Ready h s bs := by
  refine ⟨hi, ⟨?_, hclear⟩, ?_, ?_⟩
  · rw [hsame]
    exact hflags
  · rw [hsame]
    exact hpos
  · rw [hsame]
    exact hrange

namespace Heaps.Inv

variable {L : Layout} {ram : Multiboot.Ram} {s0 s : Machine} {window : U32 × U32} {hs hs0 : Heaps}
  {bk bv : List Block}

theorem ready (hi : hs.Inv s0 window s bk bv) (side : Side) :
    ∃ bs, (hs.of side).Ok s bs ∧ Ready (hs.of side).heap s bs := by
  have hkernel : kernelHeap.flags &&& USER = 0 ∧ 0 < kernelHeap.base.toNat ∧
      kernelHeap.base.toNat < kernelHeap.limit.toNat := by decide
  have hvirtual : virtualHeap.flags &&& USER = 0 ∧ 0 < virtualHeap.base.toNat ∧
      virtualHeap.base.toNat < virtualHeap.limit.toNat := by decide
  cases side with
  | kernel =>
    exact ⟨bk, hi.kernel, .of_statics hi.kernel.inv hi.kernel_clear hi.kernel_heap hkernel.1
      hkernel.2.1 hkernel.2.2⟩
  | virtual =>
    exact ⟨bv, hi.virtual, .of_statics hi.virtual.inv hi.virtual_clear hi.virtual_heap hvirtual.1
      hvirtual.2.1 hvirtual.2.2⟩

/-- The outcome of a call, in terms of blocks of a heap that is ready for it. -/
theorem step_ready (hi : hs.Inv s0 window s bk bv) (op : Op) (side : Side) {call : Call}
    (hcall : op.callOn side = some call) :
    ∃ hs' t bk' bv' bs bs', (op.step hs).run s = .ok (hs', t) ∧ hs'.Inv s0 window t bk' bv' ∧
      (hs.of side).Ok s bs ∧ (hs'.of side).Ok t bs' ∧ Ready (hs.of side).heap s bs ∧
      call.Outcome (hs.of side) (hs'.of side) s t bs bs' := by
  obtain ⟨hs', t, bk', bv', hrun, hi', hleaves⟩ := hi.step_run op
  obtain ⟨bs, bs', hok, hok', hout⟩ := (hleaves side).outcome call hcall
  obtain ⟨bs1, hok1, hready⟩ := hi.ready side
  obtain rfl : bs1 = bs := hok1.inv.unique hok.inv
  exact ⟨hs', t, bk', bv', bs1, bs', hrun, hi', hok, hok', hready, hout⟩

theorem counted (hi : hs.Inv s0 window s bk bv) (h0 : Started L ram hs0 s0 window) :
    s.pmm.Counted := by
  refine hi.confined.counted ?_
  rw [h0.pmm]
  exact (Pmm.bootReserve_counted ram _ _).carve _

theorem good (hi : hs.Inv s0 window s bk bv) (h0 : Started L ram hs0 s0 window) (side : Side) :
    ∃ bs, (hs.of side).Good s bs := by
  obtain ⟨bs, hok, hready⟩ := hi.ready side
  exact ⟨bs, hok, hready, hi.counted h0⟩

end Heaps.Inv

/-- Every run returns, and leaves both heaps in order. -/
theorem Booted.reach {L : Layout} {ram : Multiboot.Ram} {hs : Heaps} {s : Machine}
    (hb : Booted L ram hs s) (hw : hs.NoWrap) (ops : List Op) :
    ∃ hs' t, (runOps hs ops).run s = .ok (hs', t) ∧ ∀ side, ∃ bs, (hs'.of side).Good t bs := by
  obtain ⟨window, h0⟩ := hb.start
  obtain ⟨hs', t, hrun, bk, bv, hi⟩ := (h0.inv hw).run ops
  exact ⟨hs', t, hrun, hi.good h0⟩

end Kfs
