import Kfs.Heap.Client

/-!
# Safety of a heap over whole runs

`Walk` is the walk that `last_block`, `find_block`, `first_fit` and `stats` make, stated over the
loads of the source.  `Client.Safe` says what holds of the headers, the break and the allocations
in one state, and `heap_safe` that it holds in every state that calls lead to.
-/

namespace Kfs.Heap

open Lib Mem Paging Machine Blocks

/-- A block as the walk finds it. -/
structure Seen where
  start : U32
  size : U32
  used : Bool
  deriving DecidableEq, Repr

/-- The walk from a block to `finish`, and the blocks it visits. -/
inductive Walk (s : Machine) (finish : U32) : U32 → List Seen → Prop where
  | done : Walk s finish finish []
  | next {block size : U32} {used : Bool} {seen : List Seen}
      (hsize : (sizeAt block).run s = .ok (size, s))
      (hused : (usedAt block).run s = .ok (used, s))
      (aligned : size.toNat % 8 = 0) (large : 8 ≤ size.toNat)
      (inside : block.toNat + 8 + size.toNat ≤ finish.toNat)
      (rest : Walk s finish (block + (HEADER + size)) seen) :
      Walk s finish block (⟨block, size, used⟩ :: seen)

/-- A walk finds what is there. -/
theorem Walk.unique {s : Machine} {finish block : U32} {seen seen' : List Seen}
    (h : Walk s finish block seen) (h' : Walk s finish block seen') : seen = seen' := by
  induction h generalizing seen' with
  | done =>
    cases h' with
    | done => rfl
    | next _ _ _ _ inside => omega
  | next hsize hused _ _ inside _ ih =>
    cases h' with
    | done => omega
    | next hsize' hused' _ _ _ rest' =>
      rw [hsize] at hsize'
      rw [hused] at hused'
      cases hsize'
      cases hused'
      rw [ih rest']

/-- A heap and its allocations are in order, and `seen` are the blocks of the heap. -/
structure Client.Safe (c : Client) (s : Machine) (seen : List Seen) : Prop where
  walk : Walk s c.heap.brk c.heap.base seen
  base_le : c.heap.base.toNat ≤ c.heap.brk.toNat
  brk_le : c.heap.brk.toNat ≤ c.heap.limit.toNat
  brk_aligned : c.heap.brk.toNat % 4096 = 0
  lastBlock : ∃ r, (c.heap.lastBlock c.heap.brk).run s = .ok (r, s)
  findBlock : ∀ p, ∃ r, (c.heap.findBlock p).run s = .ok (r, s)
  firstFit : ∀ need, ∃ r t, (c.heap.firstFit need).run s = .ok (r, t)
  stats : ∃ r, c.heap.stats.run s = .ok (r, s)
  aligned : ∀ a ∈ c.live, a.pointer.toNat % 8 = 0
  asked : ∀ a ∈ c.live, a.want.toNat ≤ a.size.toNat
  block : ∀ a ∈ c.live, ∃ b ∈ seen, (b.start + HEADER = a.pointer ∧ b.used = true ∧
    b.size = a.size) ∧ ∀ b' ∈ seen, b'.start + HEADER = a.pointer → b' = b
  apart : c.live.Pairwise fun a a' => ∀ v, a.Holds v → ¬a'.Holds v
  noHeader : ∀ a ∈ c.live, ∀ v, a.Holds v → ∀ b ∈ seen,
    ¬(b.start.toNat ≤ v.toNat ∧ v.toNat < b.start.toNat + 8)
  within : ∀ a ∈ c.live, c.heap.base.toNat + 8 ≤ a.pointer.toNat ∧
    a.pointer.toNat + a.size.toNat ≤ c.heap.brk.toNat

/-! ## The walk over a list of blocks -/

/-- The blocks from address `a` on, as the walk finds them. -/
def seenFrom : Nat → List Block → List Seen
  | _, [] => []
  | a, b :: bs =>
    ⟨BitVec.ofNat 32 a, BitVec.ofNat 32 b.size, b.used⟩ :: seenFrom (a + (8 + b.size)) bs

theorem map_used_seenFrom (bs : List Block) : ∀ a : Nat,
    (seenFrom a bs).map Seen.used = bs.map Block.used := by
  induction bs with
  | nil => exact fun _ => rfl
  | cons b bs ih =>
    intro a
    rw [seenFrom, List.map_cons, List.map_cons, ih]

theorem mem_seenFrom {bs : List Block} {x : Seen} : ∀ {a : Nat}, x ∈ seenFrom a bs →
    ∃ xs b ys, bs = xs ++ b :: ys ∧
      x = ⟨BitVec.ofNat 32 (a + span xs), BitVec.ofNat 32 b.size, b.used⟩ := by
  induction bs with
  | nil => exact fun hx => absurd hx List.not_mem_nil
  | cons b bs ih =>
    intro a hx
    rcases List.mem_cons.mp hx with rfl | hx
    · exact ⟨[], b, bs, rfl, rfl⟩
    · obtain ⟨xs, c, ys, rfl, rfl⟩ := ih hx
      exact ⟨b :: xs, c, ys, rfl, by rw [span_cons, Nat.add_assoc a]⟩

theorem seenFrom_mem (xs : List Block) (b : Block) (ys : List Block) : ∀ a,
    ⟨BitVec.ofNat 32 (a + span xs), BitVec.ofNat 32 b.size, b.used⟩
      ∈ seenFrom a (xs ++ b :: ys) := by
  induction xs with
  | nil => exact fun a => List.mem_cons_self
  | cons x xs ih =>
    intro a
    have h := ih (a + (8 + x.size))
    rw [Nat.add_assoc a, ← span_cons] at h
    exact List.mem_cons_of_mem _ h

/-- Headers that tile a view are what the walk finds. -/
theorem walk_of_tiles {lo hi : Nat} {w : ByteMem} {s : Machine} {finish : U32}
    (hv : View lo hi w s) (hfin : finish.toNat ≤ 4096 * hi) (bs : List Block) :
    ∀ block : U32, Ahead lo w finish block bs →
      Walk s finish block (seenFrom block.toNat bs) := by
  induction bs with
  | nil =>
    intro block hahead
    have hstop := hahead.stop
    rw [span_nil, Nat.add_zero] at hstop
    rw [show block = finish from BitVec.eq_of_toNat_eq hstop]
    exact .done
  | cons b bs ih =>
    intro block hahead
    obtain ⟨h16, hrest⟩ := step_bounds hahead.stop
    have hlt := finish.isLt
    have hsize : (BitVec.ofNat 32 b.size).toNat = b.size := by
      rw [BitVec.toNat_ofNat]
      omega
    rw [seenFrom, show BitVec.ofNat 32 block.toNat = block from (ofNat_toNat_eq rfl).symm]
    refine .next (hahead.size hv hfin) (hahead.used hv hfin) (by rw [hsize]; exact b.aligned)
      (by rw [hsize]; exact b.large) (by omega) ?_
    rw [← hahead.toNat_next]
    exact ih _ hahead.next

namespace Client

variable {c : Client} {s : Machine} {bs : List Block}

/-- The block behind an allocation, and no other block at its place. -/
theorem Ok.seen (hc : c.Ok s bs) {a : Live} (ha : a ∈ c.live) :
    ∃ b ∈ seenFrom c.heap.base.toNat bs, (b.start + HEADER = a.pointer ∧ b.used = true ∧
      b.size = a.size) ∧ ∀ b' ∈ seenFrom c.heap.base.toNat bs, b'.start + HEADER = a.pointer →
        b' = b := by
  obtain ⟨xs, b, ys, hbs, hq, hused, hsize⟩ := mem_usedAt.mp (hc.mem ha)
  have h8 := (hc.asked a ha).1
  have hstart := (hc.inv.block hbs).1
  refine ⟨_, hbs ▸ seenFrom_mem xs b ys _, ⟨?_, hused, ?_⟩, fun b' hb' heq => ?_⟩
  · apply BitVec.eq_of_toNat_eq
    have := a.pointer.isLt
    rw [BitVec.toNat_add, hstart, show HEADER.toNat = 8 from rfl]
    omega
  · rw [hsize]
    exact (ofNat_toNat_eq rfl).symm
  · -- two blocks with one start have the same blocks before them
    obtain ⟨xs', c', ys', hbs', rfl⟩ := mem_seenFrom hb'
    have hstart' := (hc.inv.block hbs').1
    have hspan : Blocks.span xs = Blocks.span xs' := by
      have hnat := congrArg BitVec.toNat heq
      have := a.pointer.isLt
      rw [BitVec.toNat_add, hstart', show HEADER.toNat = 8 from rfl] at hnat
      have hlt := (BitVec.ofNat 32 (c.heap.base.toNat + Blocks.span xs')).isLt
      rw [hstart'] at hlt
      have hroom := hc.inv.span
      have hbrk := c.heap.brk.isLt
      rw [hbs', span_append, span_cons] at hroom
      omega
    obtain ⟨rfl, rfl, rfl⟩ := decomp_unique hbs hbs' hspan
    rfl

theorem Ok.apart (hc : c.Ok s bs) :
    c.live.Pairwise fun a a' => ∀ v, a.Holds v → ¬a'.Holds v := by
  have hnodup : ((c.live.map Live.block).map Prod.fst).Nodup :=
    (hc.held.map Prod.fst).nodup_iff.mp (usedAt_nodup bs _)
  rw [List.map_map, List.Nodup, List.pairwise_map] at hnodup
  refine hnodup.imp_of_mem fun {a a'} ha ha' hne v hv hv' => ?_
  have h8 := (hc.asked a ha).1
  have h8' := (hc.asked a' ha').1
  obtain ⟨h1, h2⟩ := hv
  obtain ⟨h1', h2'⟩ := hv'
  rcases usedAt_apart (hc.mem ha) (hc.mem ha') with ⟨heq, _⟩ | h | h
  · exact hne heq
  · omega
  · omega

theorem Ok.safe (hc : c.Ok s bs) : c.Safe s (seenFrom c.heap.base.toNat bs) := by
  have hi := hc.inv
  obtain ⟨hbase, hbrk⟩ := hi.pages
  have hal := hi.placed.base_aligned
  refine ⟨walk_of_tiles hi.view (by omega) bs _ hi.ahead, hi.base_le, hi.brk_le,
    hi.brk_aligned, ⟨_, run_lastBlock hi.view _ (by omega) hi.ahead⟩,
    fun p => ⟨_, hi.run_findBlock p⟩, fun need => ?_, ⟨_, stats_run hi⟩, fun a ha => ?_,
    fun a ha => (hc.asked a ha).2, fun a ha => hc.seen ha, hc.apart, fun a ha v hv x hx => ?_,
    fun a ha => hc.bounds ha⟩
  · obtain ⟨t, hrun, _⟩ := firstFit_run hi need
    exact ⟨_, t, hrun⟩
  · have hq := usedAt_aligned (by omega) (hc.mem ha)
    have := (hc.asked a ha).1
    omega
  · obtain ⟨xs, b, ys, hbs, rfl⟩ := mem_seenFrom hx
    rw [(hi.block hbs).1]
    rintro ⟨h1, h2⟩
    obtain ⟨h3, h4⟩ := hv
    have := (hc.asked a ha).1
    refine usedAt_payload (p := v.toNat) (hc.mem ha) (by omega) (by omega) ?_
    rw [hbs]
    exact headerByte_middle h1 h2

/-- A run of calls keeps the state of the heap and its clients. -/
theorem run_ok (hc : c.Ok s bs) (calls : List Call) :
    ∃ c' t, (calls.foldlM Call.step c).run s = .ok (c', t) ∧ ∃ bs', c'.Ok t bs' := by
  refine Prog.foldlM_inv (I := fun c s => ∃ bs, c.Ok s bs) ?_ calls c s ⟨bs, hc⟩
  rintro c call s ⟨bs, hc⟩
  obtain ⟨c', t, bs', hrun, hstep, _, _⟩ := call.step_run hc
  exact ⟨c', t, hrun, bs', hstep.ok⟩

end Client

/-- A heap that has not grown yet. -/
theorem inv_new {h : Heap} (hp : h.Placed) (hbrk : h.brk = h.base) {s : Machine} (hs : s.Paged)
    (hspare : ∀ k ∈ h.window, k ∉ s.pmm.frames ∧ ¬s.IsTable k) : Inv h s [] := by
  have hpage := hp.limit_page
  have hle := hp.base_le
  refine ⟨hp, hs, ?_, ?_, ?_, ?_, ?_, ?_, hspare, trivial, ?_⟩ <;> rw [hbrk]
  · exact hp.base_aligned
  · exact hle
  · exact owned_empty s (by omega)
  · intro p e h1 h2
    omega
  · intro hb
    have := hp.block hb
    omega
  · rfl

theorem Client.ok_new {h : Heap} {s : Machine} {bs : List Block} (hi : Inv h s bs)
    (hnone : Blocks.usedAt h.base.toNat bs = []) : Client.Ok ⟨h, []⟩ s bs :=
  ⟨hi, by rw [hnone]; exact .nil, fun _ ha => absurd ha List.not_mem_nil⟩

/-- Whatever calls its clients make, a heap keeps its headers, its break and its allocations in
order.  The heap is as `new` and `attach` leave it, in a range below the table window and with
rights to write; the frames of its window are its own, and the window ends below the last page or
is as large as the range. -/
theorem heap_safe {name : String} {base limit flags : U32} {backing : Backing} {window : U32 × U32}
    (hp : ((new name base limit backing flags).attach window).Placed) {s : Machine} (hs : s.Paged)
    (hspare : ∀ k ∈ ((new name base limit backing flags).attach window).window,
      k ∉ s.pmm.frames ∧ ¬s.IsTable k) (calls : List Call) :
    ∃ c t, (calls.foldlM Call.step ⟨(new name base limit backing flags).attach window, []⟩).run s
      = .ok (c, t) ∧ ∃ seen, c.Safe t seen := by
  obtain ⟨c, t, hrun, bs, hc⟩ := Client.run_ok (Client.ok_new (inv_new hp rfl hs hspare) rfl) calls
  exact ⟨c, t, hrun, _, hc.safe⟩

end Kfs.Heap
