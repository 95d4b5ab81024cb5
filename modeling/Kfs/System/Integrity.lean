import Kfs.System.Plenty

/-!
# The data of the clients

A client writes to payloads that it holds.  `data_intact` says that a byte written there is read
back until the allocation is freed or the byte is written again, whatever else the kernel does in
between; and that an operation leaves a heap alone that it does not call: its break, its blocks
and the translation of every page in its range.
-/

namespace Kfs

open Lib Mem Paging Machine Heap

/-- A store of a client of one of the heaps. -/
def Side.write (side : Side) (v : U32) (byte : U8) : Op :=
  match side with
  | .kernel => .kernel (.write v byte)
  | .virtual => .virtual (.write v byte)

theorem Side.callOn_write (side : Side) (v : U32) (byte : U8) :
    (side.write v byte).callOn side = some (.write v byte) := by
  cases side <;> rfl

/-- The operation frees the pointer or stores at the address. -/
def Op.Disturbs (op : Op) (side : Side) (pointer v : U32) : Prop :=
  op.callOn side = some (.free pointer) ∨ ∃ byte, op.callOn side = some (.write v byte)

/-- Only a store at the address puts a byte there. -/
theorem Heap.Call.byte_eq_none {c : Client} {v : U32} {call : Call}
    (h : ∀ byte, call ≠ .write v byte) : call.byte c v = none := by
  cases call with
  | write v' byte =>
    rw [Call.byte, if_neg]
    rintro ⟨rfl, _⟩
    exact h byte rfl
  | alloc => rfl
  | free => rfl
  | brk => rfl

namespace Heaps.Inv

variable {s0 s : Machine} {window : U32 × U32} {hs : Heaps} {bk bv : List Block}

theorem ok (hi : hs.Inv s0 window s bk bv) (side : Side) : ∃ bs, (hs.of side).Ok s bs := by
  cases side with
  | kernel => exact ⟨bk, hi.kernel⟩
  | virtual => exact ⟨bv, hi.virtual⟩

/-- What the kernel loads from a payload. -/
theorem load_payload (hi : hs.Inv s0 window s bk bv) {side : Side} {a : Live}
    (ha : a ∈ (hs.of side).live) {v : U32} (hv : a.Holds v) :
    (load8 v).run s = .ok (s.virt v.toNat, s) := by
  obtain ⟨bs, hok⟩ := hi.ok side
  obtain ⟨h1, h2⟩ := hok.bounds ha
  obtain ⟨h3, h4⟩ := hv
  obtain ⟨hbase, hbrk⟩ := hok.inv.pages
  exact hok.inv.view.load8 (by omega) (by omega)

/-- An operation that does not disturb a byte leaves it, and its allocation. -/
theorem step_byte (hi : hs.Inv s0 window s bk bv) {side : Side} {a : Live}
    (ha : a ∈ (hs.of side).live) {v : U32} (hv : a.Holds v) {op : Op}
    (hop : ¬op.Disturbs side a.pointer v) :
    ∃ hs' t bk' bv', (op.step hs).run s = .ok (hs', t) ∧ hs'.Inv s0 window t bk' bv' ∧
      a ∈ (hs'.of side).live ∧ t.virt v.toNat = s.virt v.toNat := by
  obtain ⟨hs', t, bk', bv', hrun, hinv, hleaves⟩ := hi.step_run op
  have hl := hleaves side
  refine ⟨hs', t, bk', bv', hrun, hinv, hl.live a ha fun h => hop (Or.inl h), ?_⟩
  rw [hl.bytes a ha v hv]
  cases hcall : op.callOn side with
  | none => rfl
  | some call =>
    rw [Option.bind_some, Call.byte_eq_none fun byte heq => hop (Or.inr ⟨byte, heq ▸ hcall⟩),
      Option.getD_none]

theorem run_byte {side : Side} {a : Live} {v : U32} (hv : a.Holds v) (ops : List Op) :
    ∀ {hs : Heaps} {s : Machine} {bk bv : List Block}, hs.Inv s0 window s bk bv →
      a ∈ (hs.of side).live → (∀ op ∈ ops, ¬op.Disturbs side a.pointer v) →
      ∃ hs' t bk' bv', (runOps hs ops).run s = .ok (hs', t) ∧ hs'.Inv s0 window t bk' bv' ∧
        a ∈ (hs'.of side).live ∧ t.virt v.toNat = s.virt v.toNat := by
  induction ops with
  | nil =>
    intro hs s bk bv hi ha _
    exact ⟨hs, s, bk, bv, rfl, hi, ha, rfl⟩
  | cons op ops ih =>
    intro hs s bk bv hi ha hops
    obtain ⟨hs1, s1, bk1, bv1, hrun1, hi1, ha1, hvirt1⟩ :=
      hi.step_byte ha hv (hops op List.mem_cons_self)
    obtain ⟨hs2, s2, bk2, bv2, hrun2, hi2, ha2, hvirt2⟩ :=
      ih hi1 ha1 fun op' hop' => hops op' (List.mem_cons_of_mem _ hop')
    exact ⟨hs2, s2, bk2, bv2, (runOps_cons hrun1 ops).trans hrun2, hi2, ha2, hvirt2.trans hvirt1⟩

/-- A store to a payload that is followed by operations that do not disturb it. -/
theorem write_then_read (hi : hs.Inv s0 window s bk bv) {side : Side} {a : Live}
    (ha : a ∈ (hs.of side).live) {v : U32} (hv : a.Holds v) (byte : U8) {ops : List Op}
    (hops : ∀ op ∈ ops, ¬op.Disturbs side a.pointer v) :
    ∃ hs' t, (runOps hs (side.write v byte :: ops)).run s = .ok (hs', t) ∧
      (load8 v).run t = .ok (byte, t) := by
  obtain ⟨hs1, s1, bk1, bv1, hrun1, hi1, hleaves⟩ := hi.step_run (side.write v byte)
  have hl := hleaves side
  have ha1 : a ∈ (hs1.of side).live := hl.live a ha (by
    rw [side.callOn_write]
    intro hcall
    cases hcall)
  have hbyte : s1.virt v.toNat = byte := by
    rw [hl.bytes a ha v hv, side.callOn_write, Option.bind_some, Call.byte,
      if_pos ⟨rfl, a, ha, hv⟩, Option.getD_some]
  obtain ⟨hs2, s2, bk2, bv2, hrun2, hi2, ha2, hvirt⟩ := run_byte hv ops hi1 ha1 hops
  exact ⟨hs2, s2, (runOps_cons hrun1 ops).trans hrun2,
    by rw [hi2.load_payload ha2 hv, hvirt, hbyte]⟩

/-- A heap that the operation does not call keeps its break, its blocks and its pages. -/
theorem step_other (hi : hs.Inv s0 window s bk bv) {op : Op} {side : Side}
    (hop : op.callOn side = none) :
    ∃ hs' t, (op.step hs).run s = .ok (hs', t) ∧
      (hs'.of side).heap.brk = (hs.of side).heap.brk ∧
      (∃ seen, Walk s (hs.of side).heap.brk (hs.of side).heap.base seen ∧
        Walk t (hs'.of side).heap.brk (hs'.of side).heap.base seen) ∧
      ∀ v : U32, v.toNat / 4096 ∈ side.pages →
        ∃ r, (Paging.translate v).run s = .ok (r, s) ∧
          (Paging.translate v).run t = .ok (r, t) := by
  obtain ⟨hs', t, bk', bv', hrun, hinv, hleaves⟩ := hi.step_run op
  obtain ⟨hsame, ⟨bs, hok, hok'⟩, hleaf⟩ := (hleaves side).same hop
  have hwalk' := hok'.safe.walk
  rw [hsame] at hwalk'
  refine ⟨hs', t, hrun, by rw [hsame], ⟨_, hok.safe.walk, by rw [hsame]; exact hwalk'⟩,
    fun v hv => ⟨_, run_translate hok.inv.paged v, ?_⟩⟩
  rw [run_translate hok'.inv.paged v, hleaf _ hv]

end Heaps.Inv

/-- After a boot whose window ends below the last page of the address space, and after any
operations: a byte that a client writes to a payload it holds is read back after any further
operations that neither free the allocation nor write the byte; and an operation leaves a heap
that it does not call as it is. -/
theorem data_intact {L : Layout} {ram : Multiboot.Ram} {hs : Heaps} {s : Machine}
    (hb : Booted L ram hs s) (hend : hs.kernel.heap.physEnd.toNat < 0xFFFFF000)
    (before : List Op) :
    ∃ hs1 s1, (runOps hs before).run s = .ok (hs1, s1) ∧
      (∀ (side : Side), ∀ a ∈ (hs1.of side).live, ∀ v, a.Holds v → ∀ (byte : U8)
        (after : List Op), (∀ op ∈ after, ¬op.Disturbs side a.pointer v) →
        ∃ hs2 s2, (runOps hs1 (side.write v byte :: after)).run s1 = .ok (hs2, s2) ∧
          (load8 v).run s2 = .ok (byte, s2)) ∧
      ∀ (op : Op) (side : Side), op.callOn side = none →
        ∃ hs2 s2, (op.step hs1).run s1 = .ok (hs2, s2) ∧
          (hs2.of side).heap.brk = (hs1.of side).heap.brk ∧
          (∃ seen, Walk s1 (hs1.of side).heap.brk (hs1.of side).heap.base seen ∧
            Walk s2 (hs2.of side).heap.brk (hs2.of side).heap.base seen) ∧
          ∀ v : U32, v.toNat / 4096 ∈ side.pages →
            ∃ r, (Paging.translate v).run s1 = .ok (r, s1) ∧
              (Paging.translate v).run s2 = .ok (r, s2) := by
  obtain ⟨window, h0⟩ := hb.start
  obtain ⟨hs1, s1, hrun, bk, bv, hi⟩ := (h0.inv (Or.inl hend)).run before
  exact ⟨hs1, s1, hrun, fun side a ha v hv byte after hops => hi.write_then_read ha hv byte hops,
    fun op side hop => hi.step_other hop⟩

/-- A byte of the first block of the kernel's heap. -/
theorem data_intact_plain : ∃ hs s, Booted smallLayout (Multiboot.ramOf plainEntries) hs s ∧
    hs.kernel.heap.physEnd.toNat < 0xFFFFF000 ∧
    ∃ hs1 s1, (runOps hs [.kmalloc 100]).run s = .ok (hs1, s1) ∧
      ∃ a ∈ hs1.kernel.live, a.Holds 0xD0000010 ∧
        ∃ hs2 s2, (runOps hs1 [.kernel (.write 0xD0000010 42), .user, .fault 0x802000 0,
            .vmalloc 100, .kbrk 5000]).run s1 = .ok (hs2, s2) ∧
          (load8 0xD0000010).run s2 = .ok (42, s2) := by
  obtain ⟨hs, s, hb, hend⟩ := exists_booted_plain
  obtain ⟨window, h0⟩ := hb.start
  obtain ⟨hs1, s1, _, _, hrun1, hi, _, hlive⟩ := h0.kmalloc_plain (Or.inl hend)
  obtain ⟨hs', t, hrun, hbyte, _⟩ := data_intact hb hend [.kmalloc 100]
  obtain ⟨rfl, rfl⟩ := runOps_one hrun1 hrun
  obtain ⟨a, ha, hblock⟩ : ∃ a ∈ hs'.kernel.live, a.block = (0xD0000000, 104) :=
    List.mem_map.mp (by rw [hlive]; exact List.mem_singleton_self _)
  have hholds : a.Holds 0xD0000010 := by
    have h8 := (hi.kernel.asked a ha).1
    rw [Heap.Live.block, Prod.mk.injEq] at hblock
    rw [Heap.Live.Holds, show (0xD0000010 : U32).toNat = 0xD0000010 from rfl]
    omega
  refine ⟨hs, s, hb, hend, hs', t, hrun, a, ha, hholds,
    hbyte .kernel a ha 0xD0000010 hholds 42 _ fun op hop => ?_⟩
  simp only [List.mem_cons, List.not_mem_nil, or_false] at hop
  rcases hop with rfl | rfl | rfl | rfl <;> rintro (h | ⟨_, h⟩) <;> cases h

end Kfs
