import Kfs.System.Top

/-!
# The frames of the carved block

`Asks` says at which pages, and in which states, a call on a heap gets to `frame_for`.  For the
kernel's heap the answer is then the frame of the carved block that belongs to the page, as exact
numbers, or a refusal when the block is used up.  `Reaches` carries this through the loop of
`grow`: the loop asks for the next page only if the last one was in the block.

The relation is read off the runs of the calls: `Client.Ok.got` says that every page by which a call
moves the break up was asked for, and mapped to the frame of the answer.
-/

namespace Kfs

open Lib Mem Paging Machine

namespace Heap

/-- The loop of `grow`, with `n` pages to go from `page` on, gets to `frame_for` for the page `q`
in the state `u`. -/
inductive GrowAsks (h : Heap) : Nat → U32 → Machine → U32 → Machine → Prop where
  | here {n : Nat} {page : U32} {s : Machine} (hfits : ¬(page + PAGE_SIZE > h.limit)) :
      GrowAsks h (n + 1) page s page s
  | later {n : Nat} {page frame q : U32} {s s1 s2 u : Machine}
      (hfits : ¬(page + PAGE_SIZE > h.limit))
      (hframe : (frameFor h page).run s = .ok (some frame, s1))
      (hmap : (mapPage page frame h.flags).run s1 = .ok (true, s2))
      (hrest : GrowAsks h n (page + PAGE_SIZE) s2 q u) : GrowAsks h (n + 1) page s q u

/-- The call gets to `frame_for` for the page `q` in the state `u`. -/
inductive Asks (h : Heap) (s : Machine) : Call → U32 → Machine → Prop where
  | alloc {want q : U32} {t u : Machine} (hzero : want ≠ 0)
      (hlarge : ¬(want > h.limit - h.base - HEADER))
      (hfit : (h.firstFit (roundUp want)).run s = .ok (none, t))
      (hgrow : GrowAsks h ((roundUp want + HEADER + PAGE_SIZE - 1) / PAGE_SIZE).toNat h.brk t q u) :
      Asks h s (.alloc want) q u
  | brk {delta q : U32} {u : Machine} (hzero : delta ≠ 0) (hmsb : delta.msb = false)
      (hgrow : GrowAsks h ((delta + PAGE_SIZE - 1) / PAGE_SIZE).toNat h.brk s q u) :
      Asks h s (.brk delta) q u

/-- `frame_for` was asked for the page `q` in the state `u`, and the page mapped to its answer. -/
def Answers (h : Heap) (q : U32) (u : Machine) : Prop :=
  ∃ frame v w, (frameFor h q).run u = .ok (some frame, v) ∧
    (mapPage q frame h.flags).run v = .ok (true, w)

/-- The call asked for the page and got it. -/
def Got (h : Heap) (s : Machine) (call : Call) (q : U32) : Prop :=
  ∃ u, Asks h s call q u ∧ Answers h q u

variable {h : Heap} {s t u : Machine} {q : U32}

/-- Page `i` from `page` on. -/
theorem add_pages (page : U32) (i : Nat) :
    page + PAGE_SIZE + BitVec.ofNat 32 (4096 * i) = page + BitVec.ofNat 32 (4096 * (i + 1)) := by
  rw [BitVec.add_assoc, show PAGE_SIZE = BitVec.ofNat 32 4096 from rfl, ← BitVec.ofNat_add,
    Nat.mul_succ, Nat.add_comm]

/-- The pages that the loop went over. -/
theorem growLoop_asks (n : Nat) : ∀ {page top : U32} {s t : Machine},
    (growLoop h n page).run s = .ok (top, t) →
    ∃ m, m ≤ n ∧ top = page + BitVec.ofNat 32 (4096 * m) ∧ ∀ i, i < m →
      ∃ u, GrowAsks h n page s (page + BitVec.ofNat 32 (4096 * i)) u ∧
        Answers h (page + BitVec.ofNat 32 (4096 * i)) u := by
  -- a pass that stops has not moved
  have hstay : ∀ {n} {page top : U32} {s : Machine}, top = page →
      ∃ m, m ≤ n ∧ top = page + BitVec.ofNat 32 (4096 * m) ∧ ∀ i, i < m →
        ∃ u, GrowAsks h n page s (page + BitVec.ofNat 32 (4096 * i)) u ∧
          Answers h (page + BitVec.ofNat 32 (4096 * i)) u := fun {n page top s} heq =>
    ⟨0, Nat.zero_le _, by rw [heq]; exact (BitVec.add_zero page).symm,
      fun i hi => absurd hi (Nat.not_lt_zero i)⟩
  induction n with
  | zero =>
    intro page top s t hrun
    cases hrun
    exact hstay rfl
  | succ n ih =>
    intro page top s t hrun
    unfold growLoop at hrun
    split at hrun
    · obtain ⟨_, _, _, hlast⟩ := Prog.bind_eq_ok.mp hrun
      cases hlast
      exact hstay rfl
    · rename_i hfits
      obtain ⟨r, u, hframe, hrest⟩ := Prog.bind_eq_ok.mp hrun
      cases r with
      | none =>
        cases hrest
        exact hstay rfl
      | some frame =>
        obtain ⟨ok, v, hmap, hrest⟩ := Prog.bind_eq_ok.mp hrest
        cases ok with
        | false =>
          refine hstay ?_
          rw [if_neg (by decide)] at hrest
          split at hrest
          · obtain ⟨_, _, _, hlast⟩ := Prog.bind_eq_ok.mp hrest
            cases hlast
            rfl
          · cases hrest
            rfl
        | true =>
          obtain ⟨m, hm, htop, hasked⟩ := ih hrest
          refine ⟨m + 1, by omega, by rw [htop, add_pages], fun i hi => ?_⟩
          cases i with
          | zero =>
            rw [show page + BitVec.ofNat 32 (4096 * 0) = page from BitVec.add_zero page]
            exact ⟨s, .here hfits, frame, u, v, hframe, hmap⟩
          | succ i =>
            obtain ⟨x, hx, hgot⟩ := hasked i (by omega)
            rw [add_pages] at hx hgot
            exact ⟨x, .later hfits hframe hmap hx, hgot⟩

theorem grow_asks {pages : U32} {ok : Bool} {h' : Heap}
    (hrun : (h.grow pages).run s = .ok ((ok, h'), t)) :
    ∃ m, m ≤ pages.toNat ∧ h'.brk = h.brk + BitVec.ofNat 32 (4096 * m) ∧ ∀ i, i < m →
      ∃ u, GrowAsks h pages.toNat h.brk s (h.brk + BitVec.ofNat 32 (4096 * i)) u ∧
        Answers h (h.brk + BitVec.ofNat 32 (4096 * i)) u := by
  rw [grow] at hrun
  obtain ⟨top, u, hloop, hrest⟩ := Prog.bind_eq_ok.mp hrun
  obtain ⟨m, hm, htop, hasked⟩ := growLoop_asks _ hloop
  refine ⟨m, hm, ?_, hasked⟩
  split at hrest
  · rename_i hsame
    cases hrest
    rw [← htop, hsame]
  · obtain ⟨_, _, _, hlast⟩ := Prog.bind_eq_ok.mp hrest
    cases hlast
    exact htop

theorem toNat_pages_lt (x : U32) : (x / PAGE_SIZE).toNat < 2 ^ 20 := by
  have hlt := x.isLt
  rw [BitVec.toNat_udiv, show PAGE_SIZE.toNat = 4096 from rfl]
  omega

/-- The break is now at `brk`, and the call got every page on the way. -/
def GotTo (h : Heap) (s : Machine) (call : Call) (brk : U32) : Prop :=
  ∃ m, m < 2 ^ 20 ∧ brk = h.brk + BitVec.ofNat 32 (4096 * m) ∧
    ∀ i, i < m → h.Got s call (h.brk + BitVec.ofNat 32 (4096 * i))

theorem GotTo.same (h : Heap) (s : Machine) (call : Call) : h.GotTo s call h.brk :=
  ⟨0, by decide, (BitVec.add_zero h.brk).symm, fun i hi => absurd hi (Nat.not_lt_zero i)⟩

/-- A call that grows the heap asks for the pages of the loop. -/
theorem GotTo.of_grow {call : Call} {x : U32} {ok : Bool} {h' : Heap} {t u : Machine}
    (hrun : (h.grow (x / PAGE_SIZE)).run t = .ok ((ok, h'), u))
    (hasks : ∀ q v, GrowAsks h (x / PAGE_SIZE).toNat h.brk t q v → Asks h s call q v) :
    h.GotTo s call h'.brk := by
  obtain ⟨m, hm, hbrk, hasked⟩ := grow_asks hrun
  refine ⟨m, Nat.lt_of_le_of_lt hm (toNat_pages_lt _), hbrk, fun i hi => ?_⟩
  obtain ⟨v, hv, hgot⟩ := hasked i hi
  exact ⟨v, hasks _ v hv, hgot⟩

theorem GotTo.got {call : Call} {brk : U32} (hg : h.GotTo s call brk) (hal : h.brk.toNat % 4096 = 0)
    (hq : q.toNat % 4096 = 0) (hlo : h.brk.toNat ≤ q.toNat) (hhi : q.toNat < brk.toNat) :
    h.Got s call q := by
  obtain ⟨m, hm, hbrk, hgot⟩ := hg
  have hsum := congrArg BitVec.toNat hbrk
  have hlt := h.brk.isLt
  have hqlt := q.isLt
  rw [BitVec.toNat_add, BitVec.toNat_ofNat] at hsum
  have hpage : q = h.brk + BitVec.ofNat 32 (4096 * ((q.toNat - h.brk.toNat) / 4096)) := by
    apply BitVec.eq_of_toNat_eq
    rw [BitVec.toNat_add, BitVec.toNat_ofNat]
    omega
  rw [hpage]
  exact hgot _ (by omega)

theorem alloc_gotTo {want p : U32} {h' : Heap} (hrun : (h.alloc want).run s = .ok ((p, h'), t)) :
    h.GotTo s (.alloc want) h'.brk := by
  rw [alloc] at hrun
  split at hrun
  · cases hrun
    exact .same h s _
  rename_i hzero
  split at hrun
  · obtain ⟨_, _, _, hlast⟩ := Prog.bind_eq_ok.mp hrun
    cases hlast
    exact .same h s _
  rename_i hlarge
  obtain ⟨r, x, hfit, hgo⟩ := Prog.bind_eq_ok.mp hrun
  cases r with
  | some block =>
    obtain ⟨_, _, _, hlast⟩ := Prog.bind_eq_ok.mp hgo
    cases hlast
    exact .same h s _
  | none =>
    obtain ⟨⟨grown, h1⟩, y, hgrow, hlast⟩ := Prog.bind_eq_ok.mp hgo
    -- the second search does not touch the break
    have hsame : h' = h1 := by
      dsimp only at hlast
      split at hlast
      · obtain ⟨r, _, _, hend⟩ := Prog.bind_eq_ok.mp hlast
        cases r with
        | none =>
          cases hend
          rfl
        | some block =>
          obtain ⟨_, _, _, hend⟩ := Prog.bind_eq_ok.mp hend
          cases hend
          rfl
      · cases hlast
        rfl
    rw [hsame]
    exact .of_grow hgrow fun _ _ hasks => .alloc hzero hlarge hfit hasks

theorem moveBrk_gotTo {delta r : U32} {h' : Heap} (hzero : delta ≠ 0) (hpos : delta.msb = false)
    (hrun : (h.moveBrk delta).run s = .ok ((r, h'), t)) : h.GotTo s (.brk delta) h'.brk := by
  rw [moveBrk, if_neg hzero, hpos] at hrun
  obtain ⟨⟨moved, h1⟩, x, hgrow, hlast⟩ := Prog.bind_eq_ok.mp hrun
  have hsame : h' = h1 := by
    cases hlast
    rfl
  rw [hsame]
  exact .of_grow hgrow fun _ _ hasks => .brk hzero hpos hasks

/-- Every page by which a call moves the break up was asked for. -/
theorem Client.Ok.got {c c' : Client} {bs : List Block} (hc : c.Ok s bs) {call : Call}
    (hrun : (call.step c).run s = .ok (c', t)) (hq : q.toNat % 4096 = 0)
    (hlo : c.heap.brk.toNat ≤ q.toNat) (hhi : q.toNat < c'.heap.brk.toNat) :
    c.heap.Got s call q := by
  have hal := hc.inv.brk_aligned
  obtain ⟨c1, t1, bs', hrun', _, hout, _⟩ := call.step_run hc
  rw [hrun] at hrun'
  cases hrun'
  cases call with
  | free p =>
    rw [hout.1] at hhi
    omega
  | write v byte =>
    rw [hout.1] at hhi
    omega
  | alloc want =>
    rw [Call.step] at hrun
    obtain ⟨⟨p, h'⟩, u, halloc, hrest⟩ := Prog.bind_eq_ok.mp hrun
    have hheap : c'.heap = h' := by
      dsimp only at hrest
      split at hrest
      · cases hrest
        rfl
      · obtain ⟨_, _, _, hlast⟩ := Prog.bind_eq_ok.mp hrest
        cases hlast
        rfl
    exact (alloc_gotTo halloc).got hal hq hlo (by rw [← hheap]; exact hhi)
  | brk delta =>
    obtain ⟨r, hmove⟩ := hout
    rw [Call.step] at hrun
    obtain ⟨⟨r', h'⟩, u, hbrk, hrest⟩ := Prog.bind_eq_ok.mp hrun
    have hheap : c'.heap = h' := by
      cases hrest
      rfl
    rw [hheap] at hhi hmove
    cases hmove with
    | zero => omega
    | down _ hs =>
      have := hs.brk_le
      omega
    | up hzero hpos _ => exact (moveBrk_gotTo hzero hpos hbrk).got hal hq hlo hhi

/-- Every page that the loop asks for is one of the range, and the block reaches to it. -/
theorem GrowAsks.reaches (hp : h.Placed) {n : Nat} {page : U32} (ha : GrowAsks h n page s q u)
    (hal : page.toNat % 4096 = 0) (hlo : h.base.toNat ≤ page.toNat)
    (hle : page.toNat ≤ h.limit.toNat) (hreach : h.Reaches (page.toNat / 4096)) :
    q.toNat % 4096 = 0 ∧ h.base.toNat ≤ q.toNat ∧ q.toNat + 4096 ≤ h.limit.toNat ∧
      h.Reaches (q.toNat / 4096) := by
  have hpage := hp.limit_page
  have hlim := hp.limit_aligned
  -- the sum of the test is exact
  have hsum : ∀ page : U32, page.toNat ≤ h.limit.toNat →
      (page + PAGE_SIZE).toNat = page.toNat + 4096 := fun page hle => by
    rw [BitVec.toNat_add, show PAGE_SIZE.toNat = 4096 from rfl]
    omega
  induction ha with
  | here hfits =>
    rw [gt_iff_lt, BitVec.lt_def, hsum _ hle] at hfits
    exact ⟨hal, hlo, by omega, hreach⟩
  | later hfits hframe hmap hrest ih =>
    rename_i n page frame q s1 s2 s3 u
    have hnext := hsum _ hle
    rw [gt_iff_lt, BitVec.lt_def, hnext] at hfits
    refine ih (by omega) (by omega) (by omega) fun hb => ?_
    obtain ⟨r, t, hrun, hcase⟩ := frameFor_run hp s1 page
      (a := page.toNat / 4096) (by omega) (by omega) (by omega) hreach
    rw [hframe] at hrun
    cases hrun
    cases hcase with
    | block _ hframe hend => omega
    | free hb' =>
      rw [hb] at hb'
      cases hb'

/-- `frame_for` on a page that a call of a contiguous heap asks for. -/
theorem Inv.frameFor_asked {bs : List Block} (hi : Inv h s bs) (hb : h.backing = .contiguous)
    {call : Call} (ha : Asks h s call q u) :
    ∃ r v, (frameFor h q).run u = .ok (r, v) ∧
      (∀ frame, r = some frame → frame.toNat = h.physBase.toNat + (q.toNat - h.base.toNat) ∧
        frame.toNat + 4096 ≤ h.physEnd.toNat) ∧
      (h.physEnd.toNat < h.physBase.toNat + (q.toNat - h.base.toNat) + 4096 → r = none) := by
  have hbrk := hi.brk_aligned
  have hreach : h.Reaches (h.brk.toNat / 4096) := fun hb => by
    have := hi.fits hb
    omega
  have hq : q.toNat % 4096 = 0 ∧ h.base.toNat ≤ q.toNat ∧ q.toNat + 4096 ≤ h.limit.toNat ∧
      h.Reaches (q.toNat / 4096) := by
    cases ha with
    | alloc _ _ _ hgrow => exact hgrow.reaches hi.placed hbrk hi.base_le hi.brk_le hreach
    | brk _ _ hgrow => exact hgrow.reaches hi.placed hbrk hi.base_le hi.brk_le hreach
  obtain ⟨hal, hlo, hhi, hreach⟩ := hq
  obtain ⟨r, v, hrun, hcase⟩ := frameFor_run hi.placed u q (a := q.toNat / 4096) (by omega)
    (by omega) (by omega) hreach
  refine ⟨r, v, hrun, ?_⟩
  cases hcase with
  | usedUp _ hend => exact ⟨fun _ hr => (by cases hr), fun _ => rfl⟩
  | block _ hframe hend =>
    refine ⟨fun _ hr => ?_, fun hfull => by omega⟩
    cases hr
    omega
  | noFrame hb' =>
    rw [hb] at hb'
    cases hb'
  | free hb' =>
    rw [hb] at hb'
    cases hb'

/-- Where the growth wraps around, the loop gets to every page of the slot. -/
theorem growAsks_wraps {A : Nat} (hw : h.Wraps A) (m : Nat) : ∀ (n : Nat) (page : U32)
    (s : Machine), s.Paged → (∀ p, A + n ≤ p → p < A + 1024 → s.leaf p = none) →
      (present (s.dirWord (A / 1024)) = true ∨ s.pmm.frames ≠ ∅) → n + m < 1024 →
      page.toNat = 4096 * (A + n) →
      ∃ q u, GrowAsks h (m + 1) page s q u ∧ q.toNat = 4096 * (A + (n + m)) := by
  have hbound := hw.bounds
  have hslot := hw.slot
  induction m with
  | zero =>
    intro n page s _ _ _ hn hpage
    exact ⟨page, s, .here (hw.fits hpage hn), hpage⟩
  | succ m ih =>
    intro n page s hs hnone htable hn hpage
    have haddr : page < TABLE_WINDOW := by
      rw [BitVec.lt_def, hpage, show TABLE_WINDOW.toNat = 4096 * (1023 * 1024) from rfl]
      omega
    obtain ⟨t, hrun, hmap⟩ :=
      mapPage_wraps hw hs hpage (by omega) (hnone _ (by omega) (by omega)) htable
    have hleaf : ∀ p, p < 1023 * 1024 → t.leaf p
        = if p = A + n then some (h.wrappedEntry n) else s.leaf p := fun p hlt => by
      rw [hmap.leaf_done hs haddr hlt, hpage, Nat.mul_div_cancel_left _ (by decide)]
      rfl
    have hhere : t.leaf (A + n) = some (h.wrappedEntry n) := by
      rw [hleaf _ (by omega), if_pos rfl]
    have hdir := (present_of_leaf hhere).1
    rw [show (A + n) / 1024 = A / 1024 from by omega] at hdir
    obtain ⟨q, u, hasks, hq⟩ := ih (n + 1) (page + PAGE_SIZE) t (hmap.paged hs haddr)
      (fun p h1 h2 => by
        rw [hleaf p (by omega), if_neg (by omega)]
        exact hnone p (by omega) h2)
      (Or.inl hdir) (by omega) (by
        rw [BitVec.toNat_add, hpage, show PAGE_SIZE.toNat = 4096 from rfl]
        omega)
    refine ⟨q, u, .later (hw.fits hpage (by omega)) (frameFor_wraps hw s hpage) hrun hasks, ?_⟩
    rw [hq, Nat.add_assoc n, Nat.add_comm 1 m]

end Heap

/-- From boot on, whatever the kernel does: every frame that `frame_for` yields for the kernel's
heap lies in the carved block, without a wrap, and `frame_for` refuses once the block is used up.
Every page that a call adds to the heap is one that it asked for.  The growth of the heap must not
wrap around. -/
theorem kernel_frames_in_block {L : Layout} {ram : Multiboot.Ram} {hs : Heaps} {s : Machine}
    (hb : Booted L ram hs s) (hw : hs.NoWrap) (ops : List Op) :
    ∃ hs' t, (runOps hs ops).run s = .ok (hs', t) ∧
      (∀ call page u, hs'.kernel.heap.Asks t call page u →
        ∃ r v, (hs'.kernel.heap.frameFor page).run u = .ok (r, v) ∧
          (∀ frame, r = some frame →
            frame.toNat = hs.kernel.heap.physBase.toNat + (page.toNat - KHEAP_BASE.toNat) ∧
            frame.toNat + 4096 ≤ hs.kernel.heap.physEnd.toNat) ∧
          (hs.kernel.heap.physEnd.toNat
              < hs.kernel.heap.physBase.toNat + (page.toNat - KHEAP_BASE.toNat) + 4096 →
            r = none)) ∧
      ∀ call c u, (call.step hs'.kernel).run t = .ok (c, u) → ∀ page : U32,
        page.toNat % 4096 = 0 → hs'.kernel.heap.brk.toNat ≤ page.toNat →
        page.toNat < c.heap.brk.toNat → hs'.kernel.heap.Got t call page := by
  obtain ⟨window, h0⟩ := hb.start
  obtain ⟨hs', t, hrun, bk, bv, hi⟩ := (h0.inv hw).run ops
  have hheap : hs'.kernel.heap.base = KHEAP_BASE ∧
      hs'.kernel.heap.physBase = hs.kernel.heap.physBase ∧
      hs'.kernel.heap.physEnd = hs.kernel.heap.physEnd ∧
      hs'.kernel.heap.backing = .contiguous := by
    rw [hi.kernel_heap, h0.heaps]
    exact ⟨rfl, rfl, rfl, rfl⟩
  refine ⟨hs', t, hrun, fun call page u ha => ?_,
    fun call c u hcall page hal hlo hhi => hi.kernel.got hcall hal hlo hhi⟩
  rw [← hheap.1, ← hheap.2.1, ← hheap.2.2.1]
  exact hi.kernel.inv.frameFor_asked hheap.2.2.2 ha

/-- The page above the break of the plain machine. -/
theorem kernel_frames_in_block_plain : ∃ hs s,
    Booted smallLayout (Multiboot.ramOf plainEntries) hs s ∧ hs.NoWrap ∧
    ∃ hs' t, (runOps hs [.kmalloc 100, .kbrk 5000, .kfree 0xD0000008]).run s = .ok (hs', t) ∧
      hs'.kernel.heap.Asks t (.brk 4096) hs'.kernel.heap.brk t ∧
        ∃ r v, (hs'.kernel.heap.frameFor hs'.kernel.heap.brk).run t = .ok (r, v) ∧
          ∀ frame, r = some frame → frame.toNat + 4096 ≤ hs.kernel.heap.physEnd.toNat := by
  obtain ⟨hs, s, hb, hend⟩ := exists_booted_plain
  obtain ⟨window, h0⟩ := hb.start
  obtain ⟨hs', t, hrun, hasks, _⟩ := kernel_frames_in_block hb (Or.inl hend)
    [.kmalloc 100, .kbrk 5000, .kfree 0xD0000008]
  obtain ⟨hs1, t1, hrun1, bk, bv, hi⟩ :=
    (h0.inv (Or.inl hend)).run [.kmalloc 100, .kbrk 5000, .kfree 0xD0000008]
  rw [hrun] at hrun1
  cases hrun1
  -- the block ends long before the range
  have hheap : hs'.kernel.heap.base.toNat = 0xD0000000 ∧
      hs'.kernel.heap.limit.toNat = 0xD2000000 ∧ hs'.kernel.heap.backing = .contiguous ∧
      hs'.kernel.heap.physBase = window.1 ∧ hs'.kernel.heap.physEnd = window.2 := by
    rw [hi.kernel_heap]
    exact ⟨rfl, rfl, rfl, rfl, rfl⟩
  have hfits := hi.kernel.inv.fits hheap.2.2.1
  have hmax := h0.plain.2.1
  rw [hheap.2.2.2.1, hheap.2.2.2.2] at hfits
  have hask : hs'.kernel.heap.Asks t (.brk 4096) hs'.kernel.heap.brk t := by
    refine .brk (by decide) (by decide) ?_
    rw [show (((4096 : U32) + PAGE_SIZE - 1) / PAGE_SIZE).toNat = 0 + 1 from by decide]
    refine .here ?_
    rw [gt_iff_lt, BitVec.lt_def, BitVec.toNat_add, show PAGE_SIZE.toNat = 4096 from rfl]
    omega
  obtain ⟨r, v, hframe, hblock, _⟩ := hasks _ _ _ hask
  exact ⟨hs, s, hb, Or.inl hend, hs', t, hrun, hask, r, v, hframe,
    fun frame hr => (hblock frame hr).2⟩

/-- Where the growth wraps around, the heap leaves the block: a break of seventeen pages gets the
frame behind the sixteen of the block. -/
theorem kernel_frame_behind_block : ∃ s,
    Booted smallLayout (Multiboot.ramOf topEntries) (heapInit topWindow) s ∧
    ∃ page u frame, (heapInit topWindow).kernel.heap.Asks s (.brk 0x11000) page u ∧
      ((heapInit topWindow).kernel.heap.frameFor page).run u = .ok (some frame, u) ∧
      (heapInit topWindow).kernel.heap.physEnd.toNat < frame.toNat + 4096 := by
  obtain ⟨s, hb, hframes⟩ := exists_booted_top
  obtain ⟨h0, htop⟩ := hb.atTop hframes
  obtain ⟨page, u, hasks, hpage⟩ := Heap.growAsks_wraps wraps_top 16 0 0xD0000000 s htop.paged
    (fun p h1 h2 => htop.unmapped p h1 h2)
    (Or.inr (Finset.ne_empty_of_mem htop.free)) (by decide) rfl
  rw [Nat.zero_add] at hpage
  have hpages : (((0x11000 : U32) + PAGE_SIZE - 1) / PAGE_SIZE).toNat = 16 + 1 := by decide
  have hyields := Heap.frameFor_wraps wraps_top u hpage
  rw [show (kernelHeap.attach topWindow).wrappedFrame 16 = 0xFFFFF000 from by decide] at hyields
  rw [show (heapInit topWindow).kernel.heap = kernelHeap.attach topWindow from rfl]
  exact ⟨s, hb, page, u, 0xFFFFF000, .brk (by decide) (by decide) (by rw [hpages]; exact hasks),
    hyields, by decide⟩

end Kfs
