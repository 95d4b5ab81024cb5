import Kfs.Heap.Safety
import Kfs.System.Start

/-!
# The invariant of the system

Three sets of pages share one directory and one allocator: the range of the kernel's heap, the
range of the virtual one, and the user pages.  `Heaps.Inv` says that each set is in order by
itself, that no frame is behind pages of two sets, and that everything since boot was confined to
these pages, the free frames and the carved window.

A step works on one of the sets (`Confined`), so the frame rules `Inv.elsewhere` and
`Held.elsewhere` give the two others for free; `Op.step_run` puts the three cases together.
-/

namespace Kfs

open Lib Mem Paging Machine

namespace Heap

variable {h : Heap} {s : Machine} {bs : List Block}

/-- The pages of a heap are held. -/
theorem Inv.held (hi : Inv h s bs) (hc : h.Clear s) : Held s h.range := by
  have hlim := hi.placed.limit_page
  -- a mapped page of the range lies below the break
  have hbelow : ∀ {p e}, p ∈ h.range → s.leaf p = some e → p < h.brk.toNat / 4096 := by
    intro p e hp he
    by_contra hge
    rw [hc p (Nat.le_of_not_lt hge) hp.2] at he
    cases he
  refine ⟨fun p hp => by have := hp.2; omega, fun hp hq he he' => ?_, fun hp he => ?_,
    fun hp he => ?_⟩
  · exact hi.owned.inj hp.1 (hbelow hp he) hq.1 (hbelow hq he') he he'
  · exact hi.owned.notTable hp.1 (hbelow hp he) he
  · exact hi.owned.notFree hp.1 (hbelow hp he) he

/-- The frames behind a contiguous heap are those of its window. -/
theorem Inv.behind_window (hi : Inv h s bs) (hc : h.Clear s) (hb : h.backing = .contiguous)
    {k : Nat} (hk : s.Behind h.range k) : k ∈ h.window := by
  obtain ⟨p, hp, _, e, he, rfl⟩ := hk
  have hbelow : p < h.brk.toNat / 4096 := by
    by_contra hge
    rw [hc p (Nat.le_of_not_lt hge) hp.2] at he
    cases he
  have hframe := (hi.backed p e hp.1 hbelow he).2 hb
  have hfits := hi.fits hb
  have hblock := hi.placed.block hb
  have hbrk := hi.brk_aligned
  have hbase := hi.placed.base_aligned
  have hle := hp.1
  refine ⟨hb, ?_, ?_⟩ <;> rw [hframe] <;> omega

theorem window_scattered (hb : h.backing = .scattered) : h.window = ∅ := by
  ext k
  simp [window, hb]

/-- The state of a heap and its clients is one of the heap's pages. -/
theorem Client.Ok.elsewhere {c : Client} {t : Machine} {R D : Set Nat} (hc : c.Ok s bs)
    (hclear : c.heap.Clear s) (hconf : Confined R D s t) (hR : ∀ p ∈ c.heap.range, p ∉ R)
    (hfar : ∀ k, s.Behind c.heap.range k → k ∉ D ∧ ¬s.Behind R k)
    (hwin : ∀ k ∈ c.heap.window, ¬s.Mine R D k) :
    c.Ok t bs ∧ c.heap.Clear t ∧ (∀ p ∈ c.heap.range, t.leaf p = s.leaf p) ∧
      ∀ a ∈ c.live, ∀ v, a.Holds v → t.virt v.toNat = s.virt v.toNat := by
  have hi := hc.inv
  have hheld := hi.held hclear
  have hl : ∀ p ∈ c.heap.range, t.leaf p = s.leaf p := fun p hp =>
    hconf.leaf p (hheld.below p hp) (hR p hp)
  obtain ⟨hi', _, hvirt⟩ := hi.elsewhere hconf (hi.outOfReach hR fun p e h1 h2 he =>
    hfar _ (hheld.behind (hi.mem_range h1 h2) he)) hwin
  refine ⟨⟨hi', hc.held, hc.asked⟩, fun p h1 h2 => ?_, hl, fun a ha v hv => ?_⟩
  · have hbase := hi.base_le
    rw [hl p ⟨by omega, h2⟩]
    exact hclear p h1 h2
  · obtain ⟨h1, h2⟩ := hc.bounds ha
    obtain ⟨h3, h4⟩ := hv
    exact hvirt _ (by omega) (by omega)

end Heap

/-! ## The three sets of pages -/

def kernelPages : Set Nat := kernelHeap.range

def virtualPages : Set Nat := virtualHeap.range

/-- The frames of the carved window. -/
def windowFrames (window : U32 × U32) : Set Nat := (kernelHeap.attach window).window

theorem mem_kernelPages {p : Nat} : p ∈ kernelPages ↔ 0xD0000 ≤ p ∧ p < 0xD2000 := Iff.rfl

theorem mem_virtualPages {p : Nat} : p ∈ virtualPages ↔ 0xE0000 ≤ p ∧ p < 0xF0000 := Iff.rfl

theorem mem_userPages {p : Nat} : p ∈ userPages ↔ 0x800 ≤ p ∧ p < 0x900 ∨ p = 0xC00 := Iff.rfl

/-- The state of the two heaps and of the machine since boot left `s0`. -/
structure Heaps.Inv (s0 : Machine) (window : U32 × U32) (hs : Heaps) (s : Machine)
    (bk bv : List Block) : Prop where
  kernel : hs.kernel.Ok s bk
  virtual : hs.virtual.Ok s bv
  kernel_heap : hs.kernel.heap = { kernelHeap.attach window with brk := hs.kernel.heap.brk }
  virtual_heap : hs.virtual.heap = { virtualHeap with brk := hs.virtual.heap.brk }
  kernel_clear : hs.kernel.heap.Clear s
  virtual_clear : hs.virtual.heap.Clear s
  user : Held s userPages
  user_apart : ∀ k, s.Behind userPages k → ¬s.Behind virtualPages k
  user_window : ∀ k, s.Behind userPages k → k ∉ windowFrames window
  virtual_window : ∀ k, s.Behind virtualPages k → k ∉ windowFrames window
  confined : Confined (kernelPages ∪ virtualPages ∪ userPages) (windowFrames window) s0 s

namespace Heaps.Inv

variable {s0 s t : Machine} {window : U32 × U32} {hs : Heaps} {bk bv : List Block}

theorem kernel_range (hi : hs.Inv s0 window s bk bv) : hs.kernel.heap.range = kernelPages := by
  rw [hi.kernel_heap]
  rfl

theorem kernel_window (hi : hs.Inv s0 window s bk bv) :
    hs.kernel.heap.window = windowFrames window := by
  rw [hi.kernel_heap]
  rfl

theorem virtual_range (hi : hs.Inv s0 window s bk bv) :
    hs.virtual.heap.range = virtualPages := by
  rw [hi.virtual_heap]
  rfl

theorem virtual_empty (hi : hs.Inv s0 window s bk bv) : hs.virtual.heap.window = ∅ :=
  Heap.window_scattered (by rw [hi.virtual_heap]; rfl)

theorem behind_kernel (hi : hs.Inv s0 window s bk bv) {k : Nat} (hk : s.Behind kernelPages k) :
    k ∈ windowFrames window := by
  rw [← hi.kernel_range] at hk
  rw [← hi.kernel_window]
  exact hi.kernel.inv.behind_window hi.kernel_clear (by rw [hi.kernel_heap]; rfl) hk

theorem held_virtual (hi : hs.Inv s0 window s bk bv) : Held s virtualPages := by
  rw [← hi.virtual_range]
  exact hi.virtual.inv.held hi.virtual_clear

/-- A frame of the window is out of reach of whoever has no page in front of it. -/
theorem window_far (hi : hs.Inv s0 window s bk bv) {R : Set Nat} {k : Nat}
    (hk : k ∈ windowFrames window) (hR : ¬s.Behind R k) : ¬s.Mine R ∅ k := by
  have hspare := hi.kernel.inv.spare k (by rw [hi.kernel_window]; exact hk)
  exact Machine.not_mine.mpr ⟨hspare.1, hspare.2, Set.notMem_empty k, hR⟩

/-- What a step that is confined to pages of one set adds to the confinement since boot. -/
theorem confined_step (hi : hs.Inv s0 window s bk bv) {R D : Set Nat} (h : Confined R D s t)
    (hR : R ⊆ kernelPages ∪ virtualPages ∪ userPages) (hD : D ⊆ windowFrames window) :
    Confined (kernelPages ∪ virtualPages ∪ userPages) (windowFrames window) s0 t :=
  hi.confined.trans (h.mono hR hD)

/-- The virtual heap during a step elsewhere. -/
theorem virtual_elsewhere (hi : hs.Inv s0 window s bk bv) {R D : Set Nat}
    (h : Confined R D s t) (hR : ∀ p ∈ virtualPages, p ∉ R)
    (hfar : ∀ k, s.Behind virtualPages k → k ∉ D ∧ ¬s.Behind R k) :
    hs.virtual.Ok t bv ∧ hs.virtual.heap.Clear t ∧
      (∀ p ∈ virtualPages, t.leaf p = s.leaf p) ∧
      ∀ a ∈ hs.virtual.live, ∀ v, a.Holds v → t.virt v.toNat = s.virt v.toNat := by
  rw [← hi.virtual_range] at hR hfar ⊢
  refine hi.virtual.elsewhere hi.virtual_clear h hR hfar fun k hk => ?_
  rw [hi.virtual_empty] at hk
  exact hk.elim

/-- The kernel's heap during a step elsewhere. -/
theorem kernel_elsewhere (hi : hs.Inv s0 window s bk bv) {R : Set Nat} (h : Confined R ∅ s t)
    (hR : ∀ p ∈ kernelPages, p ∉ R) (hfar : ∀ k, s.Behind R k → k ∉ windowFrames window) :
    hs.kernel.Ok t bk ∧ hs.kernel.heap.Clear t ∧ (∀ p ∈ kernelPages, t.leaf p = s.leaf p) ∧
      ∀ a ∈ hs.kernel.live, ∀ v, a.Holds v → t.virt v.toNat = s.virt v.toNat := by
  have hnot : ∀ k ∈ windowFrames window, ¬s.Behind R k := fun k hk hb => hfar k hb hk
  have hbehind : ∀ k, s.Behind kernelPages k → k ∉ (∅ : Set Nat) ∧ ¬s.Behind R k := fun k hk =>
    ⟨Set.notMem_empty k, hnot k (hi.behind_kernel hk)⟩
  rw [← hi.kernel_range] at hR hbehind ⊢
  refine hi.kernel.elsewhere hi.kernel_clear h hR hbehind fun k hk => ?_
  rw [hi.kernel_window] at hk
  exact hi.window_far hk (hnot k hk)

/-- No frame of the window gets behind the pages of a step elsewhere. -/
theorem window_after (hi : hs.Inv s0 window s bk bv) {R : Set Nat} (h : Confined R ∅ s t)
    (hfar : ∀ k, s.Behind R k → k ∉ windowFrames window) :
    ∀ k, t.Behind R k → k ∉ windowFrames window := by
  intro k hb hk
  have hnot := hi.window_far hk fun hs => hfar k hs hk
  exact hnot ((h.mine k).mp (Or.inr (Or.inr (Or.inr hb))))

end Heaps.Inv

/-! ## Steps -/

/-- The two heaps. -/
inductive Side where
  | kernel
  | virtual
  deriving DecidableEq, Repr

def Heaps.of (hs : Heaps) : Side → Heap.Client
  | .kernel => hs.kernel
  | .virtual => hs.virtual

def Side.pages : Side → Set Nat
  | .kernel => kernelPages
  | .virtual => virtualPages

/-- The call that an operation makes on one of the heaps. -/
def Op.callOn : Op → Side → Option Heap.Call
  | .kernel call, .kernel => some call
  | .virtual call, .virtual => some call
  | _, _ => none

/-- What an operation leaves of one of the heaps. -/
structure Op.Leaves (op : Op) (hs hs' : Heaps) (s t : Machine) (side : Side) : Prop where
  live : ∀ a ∈ (hs.of side).live, op.callOn side ≠ some (.free a.pointer) →
    a ∈ (hs'.of side).live
  bytes : ∀ a ∈ (hs.of side).live, ∀ v, a.Holds v → t.virt v.toNat
    = ((op.callOn side).bind fun call => call.byte (hs.of side) v).getD (s.virt v.toNat)
  same : op.callOn side = none → hs'.of side = hs.of side ∧
    (∃ bs, (hs.of side).Ok s bs ∧ (hs'.of side).Ok t bs) ∧
    ∀ p ∈ side.pages, t.leaf p = s.leaf p
  outcome : ∀ call, op.callOn side = some call → ∃ bs bs', (hs.of side).Ok s bs ∧
    (hs'.of side).Ok t bs' ∧ call.Outcome (hs.of side) (hs'.of side) s t bs bs'

/-- A heap that an operation does not call. -/
theorem Op.Leaves.of_same {op : Op} {hs hs' : Heaps} {s t : Machine} {side : Side}
    (hcall : op.callOn side = none) (hsame : hs'.of side = hs.of side) {bs : List Block}
    (hs_ok : (hs.of side).Ok s bs) (ht_ok : (hs.of side).Ok t bs)
    (hleaf : ∀ p ∈ side.pages, t.leaf p = s.leaf p)
    (hbytes : ∀ a ∈ (hs.of side).live, ∀ v, a.Holds v → t.virt v.toNat = s.virt v.toNat) :
    op.Leaves hs hs' s t side := by
  refine ⟨fun a ha _ => by rw [hsame]; exact ha, fun a ha v hv => ?_,
    fun _ => ⟨hsame, ⟨bs, hs_ok, ?_⟩, hleaf⟩, fun call hsome => ?_⟩
  · rw [hcall, hbytes a ha v hv]
    rfl
  · rw [hsame]
    exact ht_ok
  · rw [hcall] at hsome
    cases hsome

/-- The heap that an operation calls. -/
theorem Op.Leaves.of_call {op : Op} {hs hs' : Heaps} {s t : Machine} {side : Side}
    {call : Heap.Call} (hcall : op.callOn side = some call) {bs bs' : List Block}
    (hs_ok : (hs.of side).Ok s bs)
    (ht_ok : (hs'.of side).Ok t bs') (hout : call.Outcome (hs.of side) (hs'.of side) s t bs bs')
    (hlive : ∀ a ∈ (hs.of side).live, call ≠ .free a.pointer → a ∈ (hs'.of side).live)
    (hbytes : ∀ a ∈ (hs.of side).live, ∀ v, a.Holds v →
      t.virt v.toNat = (call.byte (hs.of side) v).getD (s.virt v.toNat)) :
    op.Leaves hs hs' s t side := by
  refine ⟨fun a ha hne => hlive a ha fun heq => hne (by rw [hcall, heq]), fun a ha v hv => ?_,
    fun hnone => ?_, fun call' hsome => ?_⟩
  · rw [hcall, hbytes a ha v hv]
    rfl
  · rw [hcall] at hnone
    cases hnone
  · rw [hcall] at hsome
    cases hsome
    exact ⟨bs, bs', hs_ok, ht_ok, hout⟩

namespace Heaps.Inv

variable {s0 s : Machine} {window : U32 × U32} {hs : Heaps} {bk bv : List Block}

/-- The three sets of pages have no page in common. -/
theorem pages_apart {p : Nat} : (p ∈ kernelPages → p ∉ virtualPages ∧ p ∉ userPages) ∧
    (p ∈ virtualPages → p ∉ userPages) := by
  rw [mem_kernelPages, mem_virtualPages, mem_userPages]
  omega

theorem kernel_step (hi : hs.Inv s0 window s bk bv) (call : Heap.Call) :
    ∃ hs' t bk', ((Op.kernel call).step hs).run s = .ok (hs', t) ∧
      hs'.Inv s0 window t bk' bv ∧ ∀ side, (Op.kernel call).Leaves hs hs' s t side := by
  obtain ⟨c, t, bk', hrun, hstep, hout, hlive, hbytes⟩ := call.step_run hi.kernel
  have hconf : Confined kernelPages (windowFrames window) s t := by
    rw [← hi.kernel_range, ← hi.kernel_window]
    exact hstep.confined
  have hfar : ∀ k, k ∉ windowFrames window →
      k ∉ windowFrames window ∧ ¬s.Behind kernelPages k := fun k hk =>
    ⟨hk, fun hb => hk (hi.behind_kernel hb)⟩
  obtain ⟨hvok, hvclear, hvleaf, hvbytes⟩ := hi.virtual_elsewhere hconf
    (fun p hp hk => (pages_apart.1 hk).1 hp) fun k hk => hfar k (hi.virtual_window k hk)
  obtain ⟨huser, hubehind, _⟩ := hi.user.elsewhere hconf
    (fun p hp hk => (pages_apart.1 hk).2 hp) fun k hk => hfar k (hi.user_window k hk)
  have hvbehind : ∀ k, t.Behind virtualPages k ↔ s.Behind virtualPages k := fun k =>
    behind_congr fun p _ hp => hvleaf p hp
  refine ⟨{ hs with kernel := c }, t, bk', Op.kernel_run hs hrun,
    ⟨hstep.ok, hvok, ?_, hi.virtual_heap, hstep.clear hi.kernel_clear, hvclear, huser,
      fun k hk => ?_, fun k hk => hi.user_window k ((hubehind k).mp hk),
      fun k hk => hi.virtual_window k ((hvbehind k).mp hk),
      hi.confined_step hconf (fun p hp => Or.inl (Or.inl hp)) fun _ hk => hk⟩, fun side => ?_⟩
  · show c.heap = _
    rw [hstep.same, hi.kernel_heap]
  · rw [hvbehind]
    exact hi.user_apart k ((hubehind k).mp hk)
  · cases side with
    | kernel => exact .of_call rfl hi.kernel hstep.ok hout hlive hbytes
    | virtual => exact .of_same rfl rfl hi.virtual hvok hvleaf hvbytes

/-- A call on the kernel's heap maps no page of a program. -/
theorem kernel_call_leaf (hi : hs.Inv s0 window s bk bv) {call : Heap.Call} {hs' : Heaps}
    {t : Machine} (hrun : ((Op.kernel call).step hs).run s = .ok (hs', t)) {p : Nat}
    (hp : p ∈ userPages) : t.leaf p = s.leaf p := by
  obtain ⟨c, _, _, hcall, hstep, _⟩ := call.step_run hi.kernel
  rw [Op.kernel_run hs hcall] at hrun
  cases hrun
  refine hstep.confined.leaf p ?_ ?_
  · rw [mem_userPages] at hp
    omega
  · rw [hi.kernel_range]
    exact fun hk => (pages_apart.1 hk).2 hp

theorem virtual_step (hi : hs.Inv s0 window s bk bv) (call : Heap.Call) :
    ∃ hs' t bv', ((Op.virtual call).step hs).run s = .ok (hs', t) ∧
      hs'.Inv s0 window t bk bv' ∧ ∀ side, (Op.virtual call).Leaves hs hs' s t side := by
  obtain ⟨c, t, bv', hrun, hstep, hout, hlive, hbytes⟩ := call.step_run hi.virtual
  have hconf : Confined virtualPages ∅ s t := by
    rw [← hi.virtual_range, ← hi.virtual_empty]
    exact hstep.confined
  obtain ⟨hkok, hkclear, hkleaf, hkbytes⟩ := hi.kernel_elsewhere hconf
    (fun p hp => (pages_apart.1 hp).1) hi.virtual_window
  obtain ⟨huser, hubehind, huapart⟩ := hi.user.elsewhere hconf
    (fun p hp hv => pages_apart.2 hv hp) fun k hk => ⟨Set.notMem_empty k, hi.user_apart k hk⟩
  refine ⟨{ hs with virtual := c }, t, bv', Op.virtual_run hs hrun,
    ⟨hkok, hstep.ok, hi.kernel_heap, ?_, hkclear, hstep.clear hi.virtual_clear, huser,
      fun k hk => (huapart k ((hubehind k).mp hk)).2,
      fun k hk => hi.user_window k ((hubehind k).mp hk),
      hi.window_after hconf hi.virtual_window,
      hi.confined_step hconf (fun p hp => Or.inl (Or.inr hp)) (Set.empty_subset _)⟩,
    fun side => ?_⟩
  · show c.heap = _
    rw [hstep.same, hi.virtual_heap]
  · cases side with
    | kernel => exact .of_same rfl rfl hi.kernel hkok hkleaf hkbytes
    | virtual => exact .of_call rfl hi.virtual hstep.ok hout hlive hbytes

/-- A step on the user pages. -/
theorem user_step (hi : hs.Inv s0 window s bk bv) {t : Machine} (hconf : Confined userPages ∅ s t)
    (huser : Held t userPages) (op : Op) (hop : ∀ side, op.callOn side = none) :
    hs.Inv s0 window t bk bv ∧ ∀ side, op.Leaves hs hs s t side := by
  obtain ⟨hkok, hkclear, hkleaf, hkbytes⟩ := hi.kernel_elsewhere hconf
    (fun p hp => (pages_apart.1 hp).2) hi.user_window
  have hfar : ∀ k, s.Behind virtualPages k → k ∉ (∅ : Set Nat) ∧ ¬s.Behind userPages k :=
    fun k hk => ⟨Set.notMem_empty k, fun hu => hi.user_apart k hu hk⟩
  obtain ⟨hvok, hvclear, hvleaf, hvbytes⟩ := hi.virtual_elsewhere hconf
    (fun p hp => pages_apart.2 hp) hfar
  obtain ⟨_, hvbehind, hvapart⟩ := hi.held_virtual.elsewhere hconf
    (fun p hp => pages_apart.2 hp) hfar
  refine ⟨⟨hkok, hvok, hi.kernel_heap, hi.virtual_heap, hkclear, hvclear, huser,
    fun k hk hv => (hvapart k ((hvbehind k).mp hv)).2 hk, hi.window_after hconf hi.user_window,
    fun k hk => hi.virtual_window k ((hvbehind k).mp hk),
    hi.confined_step hconf (fun p hp => Or.inr hp) (Set.empty_subset _)⟩, fun side => ?_⟩
  cases side with
  | kernel => exact .of_same (hop _) rfl hi.kernel hkok hkleaf hkbytes
  | virtual => exact .of_same (hop _) rfl hi.virtual hvok hvleaf hvbytes

/-- Every operation returns and keeps the invariant. -/
theorem step_run (hi : hs.Inv s0 window s bk bv) (op : Op) :
    ∃ hs' t bk' bv', (op.step hs).run s = .ok (hs', t) ∧ hs'.Inv s0 window t bk' bv' ∧
      ∀ side, op.Leaves hs hs' s t side := by
  cases op with
  | kernel call =>
    obtain ⟨hs', t, bk', hrun, hinv, hleaves⟩ := hi.kernel_step call
    exact ⟨hs', t, bk', bv, hrun, hinv, hleaves⟩
  | virtual call =>
    obtain ⟨hs', t, bv', hrun, hinv, hleaves⟩ := hi.virtual_step call
    exact ⟨hs', t, bk, bv', hrun, hinv, hleaves⟩
  | fault addr error =>
    obtain ⟨b, t, hrun, hconf, huser⟩ := handleFault_run hi.kernel.inv.paged hi.user addr error
    obtain ⟨hinv, hleaves⟩ := hi.user_step hconf huser (.fault addr error)
      fun side => by cases side <;> rfl
    exact ⟨hs, t, bk, bv, by rw [Op.step, Prog.bind_ok hrun, Prog.run_pure], hinv, hleaves⟩
  | user =>
    obtain ⟨r, t, hrun, hconf, huser, _⟩ := cmdUser_run hi.kernel.inv.paged hi.user
    obtain ⟨hinv, hleaves⟩ := hi.user_step hconf huser .user
      fun side => by cases side <;> rfl
    exact ⟨hs, t, bk, bv, by rw [Op.step, Prog.bind_ok hrun, Prog.run_pure], hinv, hleaves⟩

/-- Every run returns and keeps the invariant. -/
theorem run (hi : hs.Inv s0 window s bk bv) (ops : List Op) :
    ∃ hs' t, (runOps hs ops).run s = .ok (hs', t) ∧ ∃ bk' bv', hs'.Inv s0 window t bk' bv' := by
  refine Prog.foldlM_inv (I := fun hs s => ∃ bk bv, hs.Inv s0 window s bk bv) ?_ ops hs s
    ⟨bk, bv, hi⟩
  rintro hs op s ⟨bk, bv, hi⟩
  obtain ⟨hs', t, bk', bv', hrun, hinv, _⟩ := hi.step_run op
  exact ⟨hs', t, hrun, bk', bv', hinv⟩

end Heaps.Inv

/-! ## The start -/

/-- The growth of the kernel's heap cannot wrap around: the carved block ends below the last page
of the address space, or it is as large as the range of the heap. -/
def Heaps.NoWrap (hs : Heaps) : Prop :=
  hs.kernel.heap.physEnd.toNat < 0xFFFFF000 ∨
    KHEAP_LIMIT.toNat - KHEAP_BASE.toNat
      ≤ hs.kernel.heap.physEnd.toNat - hs.kernel.heap.physBase.toNat

instance (hs : Heaps) : Decidable hs.NoWrap := inferInstanceAs (Decidable (_ ∨ _))

namespace Started

variable {L : Layout} {ram : Multiboot.Ram} {hs : Heaps} {s : Machine} {window : U32 × U32}

theorem mem_windowFrames {b n : Nat} (hb : Carved ram L window b n) {k : Nat} :
    k ∈ windowFrames window ↔ b ≤ k ∧ k < b + n := by
  have h1 := hb.start
  have h2 := hb.finish
  have h3 := hb.below
  show (_ ∧ window.1.toNat / 4096 ≤ k ∧ k < window.2.toNat / 4096) ↔ _
  rw [h1, h2]
  constructor
  · rintro ⟨_, h4, h5⟩
    omega
  · rintro ⟨h4, h5⟩
    exact ⟨rfl, by omega, by omega⟩

/-- The block was free when it was carved, the image was not. -/
theorem window_not_image (h : Started L ram hs s window) {k : Nat} (hk : k ∈ windowFrames window) :
    ¬L.InImage k := by
  obtain ⟨b, n, hb⟩ := h.block
  rw [mem_windowFrames hb] at hk
  have hres := (Pmm.mem_bootReserve h.fits.imageFits).mp (hb.run k hk.1 hk.2)
  exact fun himage => hres.2.2 ⟨himage.2, himage.1⟩

/-- The frames of the window are not free and not tables. -/
theorem window_spare (h : Started L ram hs s window) {k : Nat} (hk : k ∈ windowFrames window) :
    k ∉ s.pmm.frames ∧ ¬s.IsTable k := by
  have himage := h.window_not_image hk
  obtain ⟨b, n, hb⟩ := h.block
  rw [mem_windowFrames hb] at hk
  refine ⟨fun hfree => ?_, fun htab => ?_⟩
  · rw [h.pmm, hb.frames, Finset.mem_sdiff, Finset.mem_Ico] at hfree
    exact hfree.2 hk
  · rcases h.isTable.mp htab with rfl | rfl | rfl
    · exact himage L.low_addr.2.2.2
    · exact himage L.kernel_addr.2.2.2
    · exact himage L.dir_addr.2.2.2

theorem kernel_placed (h : Started L ram hs s window) (hw : hs.NoWrap) :
    (kernelHeap.attach window).Placed := by
  obtain ⟨b, n, hb⟩ := h.block
  have h1 := hb.start
  have h2 := hb.finish
  rw [h.heaps] at hw
  have hpages : kernelHeap.base.toNat % 4096 = 0 ∧ kernelHeap.limit.toNat % 4096 = 0 := by decide
  have hrange : kernelHeap.base.toNat ≤ kernelHeap.limit.toNat ∧
      kernelHeap.limit.toNat ≤ TABLE_WINDOW.toNat := by decide
  have hflags : kernelHeap.flags.toNat < 4096 ∧ writable kernelHeap.flags = true := by decide
  refine ⟨hpages.1, hpages.2, hrange.1, hrange.2, hflags.1, hflags.2, fun _ => ⟨?_, ?_, ?_, hw⟩⟩
  · show window.1.toNat % 4096 = 0
    omega
  · show window.2.toNat % 4096 = 0
    omega
  · show window.1.toNat ≤ window.2.toNat
    omega

theorem virtual_placed : virtualHeap.Placed :=
  ⟨by decide, by decide, by decide, by decide, by decide, by decide, fun h => by cases h⟩

/-- None of the pages is mapped yet. -/
theorem unmapped (h : Started L ram hs s window) {p : Nat}
    (hp : p ∈ kernelPages ∪ virtualPages ∪ userPages) : s.leaf p = none := by
  rcases hp with (hp | hp) | hp
  · rw [mem_kernelPages] at hp
    exact h.leaf_none (by omega) (by omega) (by omega)
  · rw [mem_virtualPages] at hp
    exact h.leaf_none (by omega) (by omega) (by omega)
  · rw [mem_userPages] at hp
    exact h.leaf_none (by omega) (by omega) (by omega)

theorem not_behind (h : Started L ram hs s window) {P : Set Nat}
    (hP : P ⊆ kernelPages ∪ virtualPages ∪ userPages) {k : Nat} : ¬s.Behind P k := by
  rintro ⟨p, hp, _, e, he, _⟩
  rw [h.unmapped (hP hp)] at he
  cases he

theorem inv (h : Started L ram hs s window) (hw : hs.NoWrap) : hs.Inv s window s [] [] := by
  have hplaced := h.kernel_placed hw
  have hK : kernelPages ⊆ kernelPages ∪ virtualPages ∪ userPages := fun _ hp => Or.inl (Or.inl hp)
  have hV : virtualPages ⊆ kernelPages ∪ virtualPages ∪ userPages := fun _ hp => Or.inl (Or.inr hp)
  have hU : userPages ⊆ kernelPages ∪ virtualPages ∪ userPages := fun _ hp => Or.inr hp
  have hnone : ∀ {p e}, p ∈ userPages → s.leaf p = some e → False := fun hp he => by
    rw [h.unmapped (hU hp)] at he
    cases he
  rw [h.heaps]
  refine ⟨Heap.Client.ok_new (Heap.inv_new hplaced rfl h.paged fun k hk => h.window_spare hk) rfl,
    Heap.Client.ok_new (Heap.inv_new virtual_placed rfl h.paged fun k hk => ?_) rfl, rfl, rfl,
    fun p h1 h2 => h.unmapped (hK ⟨h1, h2⟩), fun p h1 h2 => h.unmapped (hV ⟨h1, h2⟩),
    ⟨fun p hp => ?_, fun hp _ he => (hnone hp he).elim, fun hp he => (hnone hp he).elim,
      fun hp he => (hnone hp he).elim⟩,
    fun k hk => (h.not_behind hU hk).elim, fun k hk => (h.not_behind hU hk).elim,
    fun k hk => (h.not_behind hV hk).elim, .refl h.paged⟩
  · rw [Heap.window_scattered rfl] at hk
    exact hk.elim
  · rw [mem_userPages] at hp
    omega

end Started

end Kfs
