import Kfs.Heap.Ledger
import Kfs.Idt.Live
import Kfs.System.Integrity
import Kfs.System.Mappings
import Kfs.System.Reach

/-!
# The heaps while the kernel runs

One lemma for each function of a heap, in every state of the running kernel: the call returns, the
kernel stays alive with the clients that the call leaves, and the demand zone keeps its bytes.
`Machine.Alive.of_step` derives the last two from the steps of the system, so a lemma here only has
to say what its function answers.
-/

namespace Kfs

open Lib Mem Paging Machine Multiboot Heap

/-- The call on one of the heaps. -/
def Side.op : Side → Heap.Call → Op
  | .kernel, call => .kernel call
  | .virtual, call => .virtual call

def Heaps.put (hs : Heaps) (side : Side) (c : Heap.Client) : Heaps :=
  match side with
  | .kernel => { hs with kernel := c }
  | .virtual => { hs with virtual := c }

namespace Heaps

variable (hs : Heaps) (side : Side) (c : Heap.Client)

@[simp] theorem of_put : (hs.put side c).of side = c := by cases side <;> rfl

@[simp] theorem put_of : hs.put side (hs.of side) = hs := by cases side <;> rfl

@[simp] theorem put_put (c' : Heap.Client) : (hs.put side c).put side c' = hs.put side c' := by
  cases side <;> rfl

end Heaps

theorem Side.op_run {side : Side} {call : Heap.Call} {hs : Heaps} {c : Heap.Client} {s t : Machine}
    (h : (call.step (hs.of side)).run s = .ok (c, t)) :
    ((side.op call).step hs).run s = .ok (hs.put side c, t) := by
  cases side with
  | kernel => exact Op.kernel_run hs h
  | virtual => exact Op.virtual_run hs h

/-- The bytes of the demand zone are the same. -/
def Machine.SameZone (s t : Machine) : Prop := ∀ a, a / 4096 ∈ zonePages → t.virt a = s.virt a

theorem Machine.SameZone.refl (s : Machine) : s.SameZone s := fun _ _ => rfl

theorem Machine.SameZone.trans {s t u : Machine} (h : s.SameZone t) (h' : t.SameZone u) :
    s.SameZone u := fun a ha => (h' a ha).trans (h a ha)

namespace Machine.Alive

variable {B : Build} {ram : Ram} {hs : Heaps} {s t : Machine} {side : Side}

theorem ready (h : s.Alive B ram hs) (side : Side) :
    ∃ bs, (hs.of side).Ok s bs ∧ Ready (hs.of side).heap s bs := by
  obtain ⟨_, _, _, _, _, _, hi⟩ := h.system
  exact hi.ready side

theorem counted (h : s.Alive B ram hs) : s.pmm.Counted := by
  obtain ⟨_, _, _, _, _, h0, hi⟩ := h.system
  exact hi.counted h0

/-- The range of the kernel's heap, and the block behind it. -/
theorem kernel_block (h : s.Alive B ram hs) :
    hs.kernel.heap.base = KHEAP_BASE ∧ hs.kernel.heap.limit = KHEAP_LIMIT ∧
      hs.kernel.heap.backing = .contiguous ∧
      hs.kernel.heap.physBase.toNat + 0x10000 ≤ hs.kernel.heap.physEnd.toNat := by
  obtain ⟨_, _, window, _, _, h0, hi⟩ := h.system
  obtain ⟨b, n, hb⟩ := h0.block
  refine ⟨congrArg Heap.base hi.kernel_heap, congrArg Heap.limit hi.kernel_heap,
    congrArg Heap.backing hi.kernel_heap, ?_⟩
  rw [show hs.kernel.heap.physBase = window.1 from congrArg Heap.physBase hi.kernel_heap,
    show hs.kernel.heap.physEnd = window.2 from congrArg Heap.physEnd hi.kernel_heap, hb.start,
    hb.finish]
  have h16 := hb.some_pages
  omega

/-- The range of the virtual heap. -/
theorem virtual_block (h : s.Alive B ram hs) :
    hs.virtual.heap.base = VMALLOC_BASE ∧ hs.virtual.heap.limit = VMALLOC_LIMIT ∧
      hs.virtual.heap.backing = .scattered := by
  obtain ⟨_, _, _, _, _, _, hi⟩ := h.system
  exact ⟨congrArg Heap.base hi.virtual_heap, congrArg Heap.limit hi.virtual_heap,
    congrArg Heap.backing hi.virtual_heap⟩

/-- What a call on a heap does to the rest of the kernel. -/
theorem of_step (h : s.Alive B ram hs) {call : Heap.Call} {c : Heap.Client}
    (hrun : (call.step (hs.of side)).run s = .ok (c, t)) :
    t.Alive B ram (hs.put side c) ∧ s.SameZone t := by
  obtain ⟨hs', t', hstep, halive, hzone⟩ := h.op_run (side.op call)
  rw [Side.op_run hrun] at hstep
  cases hstep
  exact ⟨halive, hzone⟩

/-- The clients after an allocation: they have the block that was asked for, if there is one. -/
def Answered (c : Heap.Client) (want p : U32) (c' : Heap.Client) : Prop :=
  p = 0 ∧ c'.live = c.live ∨ p ≠ 0 ∧ ∃ size, c'.live = ⟨p, want, size⟩ :: c.live

theorem alloc_run (h : s.Alive B ram hs) (side : Side) (want : U32) :
    ∃ p c t bs bs', ((hs.of side).heap.alloc want).run s = .ok ((p, c.heap), t) ∧
      t.Alive B ram (hs.put side c) ∧ s.SameZone t ∧ Answered (hs.of side) want p c ∧
      (hs.of side).Ok s bs ∧ Ready (hs.of side).heap s bs ∧ c.Ok t bs' ∧
      Alloc (hs.of side).heap s bs want p c.heap t bs' := by
  obtain ⟨bs, hok, hready⟩ := h.ready side
  obtain ⟨p, h', t, bs', hrun, hcase⟩ := Heap.alloc_run hok.inv want
  obtain ⟨he, hans⟩ := hcase.effect hok.inv
  rcases hans with ⟨rfl, hused⟩ | ⟨q, size, hp, _, hwant, hused⟩
  · have hstep : ((Call.alloc want).step (hs.of side)).run s
        = .ok ({ hs.of side with heap := h' }, t) := by
      rw [Call.step, Prog.bind_ok hrun]
      rfl
    exact ⟨0, { hs.of side with heap := h' }, t, bs, bs', hrun, (h.of_step hstep).1,
      (h.of_step hstep).2, Or.inl ⟨rfl, rfl⟩, hok, hready, (hok.step_same he hused).ok, hcase⟩
  · obtain ⟨hsize, hstep'⟩ := hok.step_alloc he hp hwant hused
    have hne : p ≠ 0 := fun hz => by
      rw [hz] at hp
      exact absurd hp (Nat.succ_ne_zero _).symm
    have hstep : ((Call.alloc want).step (hs.of side)).run s
        = .ok (⟨h', ⟨p, want, BitVec.ofNat 32 size⟩ :: (hs.of side).live⟩, t) := by
      rw [Call.step, Prog.bind_ok hrun]
      dsimp only
      rw [if_neg hne, Prog.bind_ok hsize, Prog.run_pure]
    exact ⟨p, ⟨h', ⟨p, want, BitVec.ofNat 32 size⟩ :: (hs.of side).live⟩, t, bs, bs', hrun,
      (h.of_step hstep).1, (h.of_step hstep).2, Or.inr ⟨hne, _, rfl⟩, hok, hready, hstep'.ok, hcase⟩

theorem free_run (h : s.Alive B ram hs) (side : Side) (pointer : U32) :
    ∃ t, ((hs.of side).heap.free pointer).run s = .ok ((), t) ∧ s.SameZone t ∧
      t.Alive B ram (hs.put side
        { hs.of side with live := (hs.of side).live.filter fun a => a.pointer ≠ pointer }) := by
  obtain ⟨bs, hok, _⟩ := h.ready side
  obtain ⟨t, bs', hrun, _⟩ := Heap.free_run hok.inv pointer
  have hstep : ((Call.free pointer).step (hs.of side)).run s = .ok
      ({ hs.of side with live := (hs.of side).live.filter fun a => a.pointer ≠ pointer }, t) := by
    rw [Call.step, Prog.bind_ok hrun, Prog.run_pure]
  exact ⟨t, hrun, (h.of_step hstep).2, (h.of_step hstep).1⟩

theorem brk_run (h : s.Alive B ram hs) (side : Side) (delta : U32) :
    ∃ r h' t bs bs', ((hs.of side).heap.moveBrk delta).run s = .ok ((r, h'), t) ∧
      t.Alive B ram (hs.put side { hs.of side with heap := h' }) ∧ s.SameZone t ∧
      Ready (hs.of side).heap s bs ∧ Move (hs.of side).heap s bs delta r h' t bs' := by
  obtain ⟨bs, hok, hready⟩ := h.ready side
  obtain ⟨r, h', t, bs', hrun, hcase⟩ := moveBrk_run hok.inv delta
  have hstep := Call.step_brk hrun (hs.of side).live
  exact ⟨r, h', t, bs, bs', hrun, (h.of_step hstep).1, (h.of_step hstep).2, hready,
    hcase⟩

/-- A store of a client. -/
theorem payload_store (h : s.Alive B ram hs) {a : Live} (ha : a ∈ (hs.of side).live) {v : U32}
    (hv : a.Holds v) (byte : U8) :
    ∃ t, (store8 v byte).run s = .ok ((), t) ∧ t.Alive B ram hs ∧ s.SameZone t ∧
      ∀ x, a.Holds x → t.virt x.toNat = if x = v then byte else s.virt x.toNat := by
  obtain ⟨bs, hok, _⟩ := h.ready side
  obtain ⟨t, hrun, _, hvirt⟩ := hok.step_write byte ⟨a, ha, hv⟩
  have hstep : ((Call.write v byte).step (hs.of side)).run s = .ok (hs.of side, t) := by
    rw [Call.step, if_pos ⟨a, ha, hv⟩, Prog.bind_ok hrun, Prog.run_pure]
  obtain ⟨halive, hzone⟩ := h.of_step hstep
  rw [Heaps.put_of] at halive
  refine ⟨t, hrun, halive, hzone, fun x hx => ?_⟩
  obtain ⟨h1, h2⟩ := hok.bounds ha
  obtain ⟨h3, h4⟩ := hx
  rw [hvirt _ (by omega) (by omega)]
  by_cases hxv : x = v
  · rw [if_pos hxv, if_pos (by rw [hxv])]
  · rw [if_neg hxv, if_neg fun heq => hxv (BitVec.eq_of_toNat_eq heq)]

theorem payload_load (h : s.Alive B ram hs) {a : Live} (ha : a ∈ (hs.of side).live) {v : U32}
    (hv : a.Holds v) : (load8 v).run s = .ok (s.virt v.toNat, s) := by
  obtain ⟨_, _, _, _, _, _, hi⟩ := h.system
  exact hi.load_payload ha hv

theorem size_run (h : s.Alive B ram hs) {a : Live} (ha : a ∈ (hs.of side).live) :
    ((hs.of side).heap.size a.pointer).run s = .ok (a.size, s) ∧
      a.want.toNat ≤ a.size.toNat := by
  obtain ⟨bs, hok, _⟩ := h.ready side
  exact ⟨hok.size_live ha, (hok.asked a ha).2⟩

theorem stats_run (h : s.Alive B ram hs) (side : Side) :
    ∃ st, (hs.of side).heap.stats.run s = .ok (st, s) ∧ (hs.of side).Ledger s st := by
  obtain ⟨bs, hok, _⟩ := h.ready side
  exact hok.ledger

/-- The kernel's heap lies in one block of physical memory. -/
theorem translate_kernel (h : s.Alive B ram hs) {a : Live} (ha : a ∈ hs.kernel.live) {v : U32}
    (hv : a.Holds v) :
    (Paging.translate v).run s
      = .ok (some (hs.kernel.heap.physBase + (v - hs.kernel.heap.base)), s) := by
  obtain ⟨_, _, _, bk, _, _, hi⟩ := h.system
  obtain ⟨h1, h2⟩ := hi.kernel.bounds ha
  obtain ⟨h3, h4⟩ := hv
  refine hi.kernel.inv.run_translate_contiguous (by rw [hi.kernel_heap]; rfl) ?_ ?_
  · show hs.kernel.heap.base.toNat ≤ v.toNat
    omega
  · show v.toNat < hs.kernel.heap.brk.toNat
    omega

end Machine.Alive

end Kfs
