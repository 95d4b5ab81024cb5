import Kfs.System.Reach
import Kfs.System.Blind

/-!
# Merging late cannot be seen

`Lockstep` runs one of the heaps of the kernel next to the heap that merges at once, `Eager`, which
draws on the supply of the machine.  At every step the two have the same break, the same size for
every live pointer and the same answer to every allocation.
-/

namespace Kfs

open Lib Mem Multiboot Paging Machine Heap Blocks

/-- The reference after an operation. -/
def Heap.Eager.after (r : Eager) (supply : Supply) (op : Op) (side : Side) : Eager :=
  match op.callOn side with
  | some call => r.step supply call
  | none => r

theorem Heap.Eager.after_call (r : Eager) (supply : Supply) {op : Op} {side : Side} {call : Call}
    (h : op.callOn side = some call) : r.after supply op side = r.step supply call := by
  rw [after, h]

theorem Heap.Eager.after_none (r : Eager) (supply : Supply) {op : Op} {side : Side}
    (h : op.callOn side = none) : r.after supply op side = r := by
  rw [after, h]

/-- A heap of the kernel and the reference agree, and go on to agree as long as the calls on the
heap are fair. -/
def Lockstep (side : Side) : List Op → Heaps → Machine → Eager → Prop
  | [], hs, s, r => r.Alike (hs.of side) s
  | op :: ops, hs, s, r => r.Alike (hs.of side) s ∧
    ((∀ call, op.callOn side = some call → call.Fair (hs.of side)) →
      ∃ hs' t, (op.step hs).run s = .ok (hs', t) ∧
        Lockstep side ops hs' t (r.after s.supply op side))

namespace Heaps.Inv

variable {s0 s : Machine} {window : U32 × U32} {hs : Heaps} {bk bv : List Block}

/-- One step: the list of the reference stays the merged list. -/
theorem step_lockstep (hi : hs.Inv s0 window s bk bv) {side : Side} {bs : List Block}
    (hok : (hs.of side).Ok s bs) (hready : Ready (hs.of side).heap s bs) {op : Op}
    (hfair : ∀ call, op.callOn side = some call → call.Fair (hs.of side)) :
    ∃ hs' t bk' bv' bs', (op.step hs).run s = .ok (hs', t) ∧ hs'.Inv s0 window t bk' bv' ∧
      (hs'.of side).Ok t bs' ∧ (⟨(hs.of side).heap, merged bs⟩ : Eager).after s.supply op side
        = ⟨(hs'.of side).heap, merged bs'⟩ := by
  obtain ⟨hs', t, bk', bv', hrun, hinv, hleaves⟩ := hi.step_run op
  cases hcall : op.callOn side with
  | none =>
    obtain ⟨hsame, ⟨bs', hok1, hok2⟩, _⟩ := (hleaves side).same hcall
    obtain rfl := hok1.inv.unique hok.inv
    refine ⟨hs', t, bk', bv', bs', hrun, hinv, hok2, ?_⟩
    rw [Eager.after_none _ _ hcall, hsame]
  | some call =>
    obtain ⟨bs1, bs', hok1, hok2, hout⟩ := (hleaves side).outcome call hcall
    obtain rfl := hok1.inv.unique hok.inv
    refine ⟨hs', t, bk', bv', bs', hrun, hinv, hok2, ?_⟩
    rw [Eager.after_call _ _ hcall]
    exact hout.eager hok hready (hfair call hcall)

theorem lockstep (side : Side) (ops : List Op) :
    ∀ {hs : Heaps} {s : Machine} {bk bv bs : List Block},
    hs.Inv s0 window s bk bv → (hs.of side).Ok s bs →
    Lockstep side ops hs s ⟨(hs.of side).heap, merged bs⟩ := by
  induction ops with
  | nil =>
    intro hs s bk bv bs hi hok
    obtain ⟨bs', hok', hready⟩ := hi.ready side
    obtain rfl := hok.inv.unique hok'.inv
    exact Eager.alike hok hready
  | cons op ops ih =>
    intro hs s bk bv bs hi hok
    obtain ⟨bs', hok', hready⟩ := hi.ready side
    obtain rfl := hok.inv.unique hok'.inv
    refine ⟨Eager.alike hok hready, fun hfair => ?_⟩
    obtain ⟨hs', t, bk', bv', bs', hrun, hinv, hok', hafter⟩ := hi.step_lockstep hok hready hfair
    refine ⟨hs', t, hrun, ?_⟩
    rw [hafter]
    exact ih hinv hok'

end Heaps.Inv

/-- After a boot, each of the heaps runs in lockstep with a heap that merges at once. -/
theorem lazy_merging_unseen {L : Layout} {ram : Ram} {hs : Heaps} {s : Machine}
    (hb : Booted L ram hs s) (hw : hs.NoWrap) (side : Side) (ops : List Op) :
    Lockstep side ops hs s ⟨(hs.of side).heap, []⟩ := by
  obtain ⟨window, h0⟩ := hb.start
  have hi := h0.inv hw
  have hok : (hs.of side).Ok s [] := by
    cases side with
    | kernel => exact hi.kernel
    | virtual => exact hi.virtual
  exact Heaps.Inv.lockstep side ops hi hok

theorem lazy_merging_unseen_plain : ∃ hs s, Booted smallLayout (ramOf plainEntries) hs s ∧
    hs.NoWrap ∧ Lockstep .virtual [.vmalloc 100, .kmalloc 8, .vmalloc 3000, .vfree 0xE0000008,
      .vmalloc 200] hs s ⟨(hs.of .virtual).heap, []⟩ := by
  obtain ⟨hs, s, hb, hend⟩ := exists_booted_plain
  exact ⟨hs, s, hb, Or.inl hend, lazy_merging_unseen hb (Or.inl hend) .virtual
    [.vmalloc 100, .kmalloc 8, .vmalloc 3000, .vfree 0xE0000008, .vmalloc 200]⟩

/-- On a machine where the kernel's heap wraps around, a store to one of its payloads can part the
two: the virtual heap hands out a live pointer again, and the reference does not. -/
theorem lazy_merging_seen_top : ∃ s,
    Booted smallLayout (ramOf topEntries) (heapInit topWindow) s ∧
    ∃ v, ¬Lockstep .virtual [.kmalloc 0x213FF8, .vmalloc 8, .kernel (.write v 0)]
      (heapInit topWindow) s ⟨virtualHeap, []⟩ := by
  obtain ⟨s, hb, v, hs1, s1, hs, s2, t, hrun1, hrun2, hrun3, hx⟩ := exists_crossed_top
  refine ⟨s, hb, v, fun hlock => ?_⟩
  -- the calls are fair, so the two agree after them
  obtain ⟨_, hnext⟩ := hlock
  obtain ⟨_, _, hstep1, _, hnext1⟩ := hnext fun call hcall => by cases hcall
  rw [hrun1] at hstep1
  cases hstep1
  obtain ⟨_, _, hstep2, _, hnext2⟩ := hnext1 fun call hcall => by
    cases hcall
    trivial
  rw [hrun2] at hstep2
  cases hstep2
  obtain ⟨_, _, hstep3, halike⟩ := hnext2 fun call hcall => by cases hcall
  rw [hrun3] at hstep3
  cases hstep3
  -- the reference has its block in use still
  have hkernel : ∀ call, (Op.kernel call).callOn .virtual = none := fun _ => rfl
  have hvirtual : (Op.vmalloc 8).callOn .virtual = some (.alloc 8) := rfl
  rw [Lockstep, Eager.after_none _ _ (hkernel (.write v 0)), Op.kmalloc,
    Eager.after_none _ _ (hkernel (.alloc 0x213FF8)), Eager.after_call _ _ hvirtual, hx.reference]
    at halike
  obtain ⟨p, h', u, halloc, hp⟩ := halike.alloc 8
  have hsecond : p.toNat = 0xE0000018 := hp.trans rfl
  -- the heap does not
  obtain ⟨b, ys, hready, hfree, _⟩ := hx.blocks
  obtain ⟨p', h1, u1, bs', halloc', hcase⟩ := alloc_run hready.inv 8
  rw [show (hs.of .virtual).heap = hs.virtual.heap from rfl, halloc'] at halloc
  obtain rfl : p' = p := congrArg (fun x : (U32 × Heap) × Machine => x.1.1) (Except.ok.inj halloc)
  have hagain := congrArg Prod.fst (Eager.alloc_run hready hcase)
  obtain ⟨d, ds, hd, hdfree⟩ := push_head b (merged ys)
  have hsize : rounded 8 ≤ d.size := d.large
  have hrange : 8 + 8 ≤ virtualHeap.limit.toNat - virtualHeap.base.toNat := by decide
  rw [merged_cons, hd, show (8 : U32).toNat = 8 from rfl, Eager.alloc_head (by decide)
    (by rw [hx.heap]; exact hrange) (hdfree.trans hfree) hsize, hx.heap] at hagain
  have hfirst : p'.toNat = 0xE0000008 := hagain.symm
  omega

end Kfs
