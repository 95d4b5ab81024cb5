import Kfs.Stack.Row

/-!
# The windows of the stack dump

`print` copies the stack window by window and prints each window in rows.  `bytesAt` is the memory
it dumps, and the rows are those of one copy of all of it, because a window is a whole number of
rows unless it is the last one.

* `snapshot_spec` is one copy, `render_append` says how the rows of two windows join.
* `printFrom_spec` is the loop.
* `windowed_dump_is_plain` is the whole dump, with what it reads and what its rows tell.
-/

namespace Kfs.Stack

open Lib

variable {mem : U32 → U8}

/-! ## The memory that is dumped -/

/-- The first `n` addresses from `base` on. -/
def addresses (base : U32) (n : Nat) : List U32 :=
  (List.range n).map fun i => base + BitVec.ofNat 32 i

/-- The content of the first `n` addresses from `base` on. -/
def bytesAt (mem : U32 → U8) (base : U32) (n : Nat) : List U8 := (addresses base n).map mem

theorem addresses_add (base : U32) (n m : Nat) :
    addresses base (n + m) = addresses base n ++ addresses (base + BitVec.ofNat 32 n) m := by
  unfold addresses
  rw [List.range_add, List.map_append, List.map_map]
  congr 1
  apply List.map_congr_left
  intro i _
  show base + BitVec.ofNat 32 (n + i) = _
  rw [BitVec.ofNat_add, BitVec.add_assoc]

theorem bytesAt_add (mem : U32 → U8) (base : U32) (n m : Nat) :
    bytesAt mem base (n + m) = bytesAt mem base n ++ bytesAt mem (base + BitVec.ofNat 32 n) m := by
  rw [bytesAt, addresses_add, List.map_append, bytesAt, bytesAt]

@[simp] theorem length_bytesAt (mem : U32 → U8) (base : U32) (n : Nat) :
    (bytesAt mem base n).length = n := by
  simp [bytesAt, addresses]

theorem drop_bytesAt (base : U32) (n i : Nat) :
    (bytesAt mem base n).drop i = bytesAt mem (base + BitVec.ofNat 32 i) (n - i) := by
  by_cases hi : i ≤ n
  · obtain ⟨m, rfl⟩ := Nat.exists_eq_add_of_le hi
    rw [bytesAt_add, List.drop_append, List.drop_of_length_le (by simp), List.nil_append,
      length_bytesAt, Nat.sub_self, List.drop_zero, Nat.add_sub_cancel_left]
  · rw [List.drop_of_length_le (by simp; omega), Nat.sub_eq_zero_of_le (by omega)]
    rfl

theorem take_bytesAt (base : U32) (n k : Nat) :
    (bytesAt mem base n).take k = bytesAt mem base (min k n) := by
  unfold bytesAt addresses
  rw [← List.map_take, ← List.map_take, List.take_range]

/-- The plain dump of `n` bytes: the parts of 16 bytes in order, each with the address of its first
byte. -/
def plainRows (mem : U32 → U8) (base : U32) (n : Nat) : List (U32 × List U8) :=
  (List.range ((n + 15) / 16)).map fun i =>
    (base + BitVec.ofNat 32 (16 * i),
      bytesAt mem (base + BitVec.ofNat 32 (16 * i)) (min 16 (n - 16 * i)))

theorem length_of_mem_plainRows {r : U32 × List U8} {base : U32} {n : Nat}
    (hr : r ∈ (plainRows mem base n).dropLast) : r.2.length = 16 := by
  rw [plainRows, ← List.map_dropLast] at hr
  obtain ⟨i, hi, rfl⟩ := List.mem_map.mp hr
  have hlt : i < (n + 15) / 16 - 1 := by
    simpa [List.dropLast_eq_take, List.take_range] using hi
  rw [length_bytesAt]
  omega

theorem length_le_of_mem_plainRows {r : U32 × List U8} {base : U32} {n : Nat}
    (hr : r ∈ plainRows mem base n) : r.2.length ≤ PER_ROW := by
  obtain ⟨i, _, rfl⟩ := List.mem_map.mp hr
  rw [length_bytesAt]
  exact Nat.min_le_left _ _

/-- The rows hold every byte once and in order. -/
theorem plainRows_flatten (base : U32) (n : Nat) :
    ((plainRows mem base n).map Prod.snd).flatten = bytesAt mem base n := by
  have hfirst : ∀ k, ((List.range k).map fun i =>
      bytesAt mem (base + BitVec.ofNat 32 (16 * i)) (min 16 (n - 16 * i))).flatten =
        bytesAt mem base (min (16 * k) n) := by
    intro k
    induction k with
    | zero => simp [bytesAt, addresses]
    | succ k ih =>
      rw [List.range_succ, List.map_append, List.flatten_append, ih]
      rcases Nat.le_total (16 * k) n with hk | hk
      · have hsum : min (16 * (k + 1)) n = 16 * k + min 16 (n - 16 * k) := by omega
        rw [hsum, bytesAt_add, Nat.min_eq_left hk]
        simp
      · have hsum : min (16 * (k + 1)) n = n := by omega
        rw [hsum, Nat.min_eq_right hk]
        simp [bytesAt, addresses, Nat.sub_eq_zero_of_le hk]
  rw [plainRows, List.map_map]
  exact (hfirst _).trans (congrArg _ (by omega))

theorem toNat_saturatingSub (a b : U32) : (saturatingSub a b).toNat = a.toNat - b.toNat := by
  unfold saturatingSub
  split <;> bv_omega

/-! ## One copy -/

theorem addresses_succ (base : U32) (i n : Nat) :
    addresses (base + BitVec.ofNat 32 i) (n + 1) =
      (base + BitVec.ofNat 32 i) :: addresses (base + BitVec.ofNat 32 (i + 1)) n := by
  rw [Nat.add_comm n, addresses_add, BitVec.add_assoc, ← BitVec.ofNat_add]
  simp [addresses]

theorem snapshotFrom_spec (mem : U32 → U8) (base : U32) (n : Nat) : ∀ i,
    (snapshotFrom base i n).run (fun a => .ok (mem a)) =
        .ok (bytesAt mem (base + BitVec.ofNat 32 i) n) ∧
      (snapshotFrom base i n).asked (fun a => .ok (mem a)) =
        addresses (base + BitVec.ofNat 32 i) n := by
  induction n with
  | zero =>
    intro i
    exact ⟨rfl, rfl⟩
  | succ n ih =>
    intro i
    obtain ⟨hrun, hasked⟩ := ih (i + 1)
    have hget := Query.run_get (fun a => (.ok (mem a) : Except Stop U8)) (base + BitVec.ofNat 32 i)
    rw [snapshotFrom, Query.run_bind_ok hget, Query.run_bind_ok hrun, Query.asked_bind_ok hget,
      Query.asked_bind_ok hrun, hasked, bytesAt, bytesAt, addresses_succ]
    simp

theorem snapshot_spec (mem : U32 → U8) {top base : U32} {len : Nat}
    (h : base.toNat + len ≤ top.toNat) :
    (snapshot top base len).run (fun a => .ok (mem a)) = .ok (bytesAt mem base len) ∧
      (snapshot top base len).asked (fun a => .ok (mem a)) = addresses base len := by
  have hlen : min (saturatingSub top base).toNat len = len := by
    rw [toNat_saturatingSub]
    omega
  have hspec := snapshotFrom_spec mem base len 0
  rw [BitVec.add_zero] at hspec
  rw [snapshot, hlen]
  exact hspec

/-! ## The rows -/

theorem render_append {a : List U8} (ha : PER_ROW ∣ a.length) (base : U32) (b : List U8) :
    render base (a ++ b) = render base a ++ render (base + BitVec.ofNat 32 a.length) b := by
  have hcount : (a.length + PER_ROW - 1) / PER_ROW * PER_ROW = a.length := by
    unfold PER_ROW at ha ⊢
    omega
  unfold render
  rw [chunks_append (by decide) ha, List.mapIdx_append, length_chunks]
  refine congrArg (_ ++ ·) (congrArg (List.mapIdx · _) (funext fun i => funext fun chunk => ?_))
  rw [Nat.add_mul, hcount, Nat.add_comm, BitVec.ofNat_add, BitVec.add_assoc]

theorem render_nil (base : U32) : render base [] = [] := by
  simp [render, chunks]

/-- A window that something follows has to be a whole number of rows. -/
theorem render_bytesAt_add (base : U32) {n m : Nat} (h : PER_ROW ∣ n ∨ m = 0) :
    render base (bytesAt mem base (n + m)) =
      render base (bytesAt mem base n) ++
        render (base + BitVec.ofNat 32 n) (bytesAt mem (base + BitVec.ofNat 32 n) m) := by
  rcases h with h | rfl
  · rw [bytesAt_add, render_append, length_bytesAt]
    rwa [length_bytesAt]
  · exact (List.append_nil _).symm.trans (congrArg _ (render_nil _).symm)

theorem render_bytesAt (base : U32) (n : Nat) :
    render base (bytesAt mem base n) = (plainRows mem base n).map fun r => row r.1 r.2 := by
  unfold render plainRows
  apply List.ext_getElem
  · rw [List.length_mapIdx, length_chunks, length_bytesAt, List.length_map, List.length_map,
      List.length_range]
    rfl
  · intro i _ _
    simp only [chunks, List.getElem_mapIdx, List.getElem_map, List.getElem_range, drop_bytesAt,
      take_bytesAt, Nat.mul_comm i]

/-! ## The loop -/

theorem printFrom_zero (top : U32) (fuel : Nat) (addr : U32) :
    printFrom top fuel addr 0 = pure [] := by
  cases fuel <;> rfl

/-- The loop prints what one copy of the rest would give, and reads it once. -/
theorem printFrom_spec (mem : U32 → U8) {top : U32} (fuel : Nat) : ∀ {addr : U32} {left : Nat},
    left ≤ fuel → left ≤ top.toNat - addr.toNat →
    (printFrom top fuel addr left).run (fun a => .ok (mem a)) =
        .ok (render addr (bytesAt mem addr left)) ∧
      (printFrom top fuel addr left).asked (fun a => .ok (mem a)) = addresses addr left := by
  induction fuel with
  | zero =>
    intro addr left hleft htop
    obtain rfl : left = 0 := by omega
    rw [printFrom_zero]
    exact ⟨congrArg Except.ok (render_nil addr).symm, rfl⟩
  | succ fuel ih =>
    intro addr left hleft htop
    cases left with
    | zero =>
      rw [printFrom_zero]
      exact ⟨congrArg Except.ok (render_nil addr).symm, rfl⟩
    | succ left =>
      have hwindow : WINDOW = 256 := rfl
      generalize hw : min (left + 1) WINDOW = w
      obtain ⟨m, hm⟩ : ∃ m, left + 1 = w + m := ⟨left + 1 - w, by omega⟩
      obtain ⟨hcopy, hread⟩ := snapshot_spec mem (show addr.toNat + w ≤ top.toNat by omega)
      have hgot : bytesAt mem addr w ≠ [] := by
        rw [← List.length_pos_iff, length_bytesAt]
        omega
      have hnext : (addr + BitVec.ofNat 32 w).toNat = addr.toNat + w := by
        rw [BitVec.toNat_add, BitVec.toNat_ofNat]
        omega
      obtain ⟨hrun, hasked⟩ := ih (show m ≤ fuel by omega)
        (show m ≤ top.toNat - (addr + BitVec.ofNat 32 w).toNat by omega)
      have hrows : PER_ROW ∣ w ∨ m = 0 := by
        unfold PER_ROW
        omega
      have hleft : left + 1 - w = m := by omega
      rw [printFrom, hw, Query.run_bind_ok hcopy, Query.asked_bind_ok hcopy, hread, if_neg hgot,
        length_bytesAt, hleft, Query.run_bind_ok hrun, Query.asked_bind_ok hrun, hasked, hm,
        render_bytesAt_add addr hrows, addresses_add]
      simp

/-! ## The whole dump -/

/-- For every `esp`, count of bytes and content of the memory the dump ends.  It prints the rows of
the plain dump, of which only the last may be short, and reads each of these bytes once and no
byte at or above `top`.  The address and the bytes of a row can be read back from its text, and the
bytes stand on its right as characters too. -/
theorem windowed_dump_is_plain (bottom top esp bytes : U32) (mem : U32 → U8) :
    let n := min bytes.toNat (top.toNat - esp.toNat)
    (print bottom top esp bytes).run (fun a => .ok (mem a)) =
        .ok (header bottom top esp :: (plainRows mem esp n).map fun r => row r.1 r.2) ∧
      ((plainRows mem esp n).map Prod.snd).flatten = bytesAt mem esp n ∧
      (∀ r ∈ (plainRows mem esp n).dropLast, r.2.length = 16) ∧
      (∀ r ∈ plainRows mem esp n, readRow (row r.1 r.2) = some r ∧
        (row r.1 r.2).toList.drop 59 = '|' :: (r.2.map printable ++ ['|', '\n'])) ∧
      (print bottom top esp bytes).asked (fun a => .ok (mem a)) = addresses esp n ∧
      ∀ a ∈ (print bottom top esp bytes).asked (fun a => .ok (mem a)), a.toNat < top.toNat := by
  intro n
  have hn : min bytes.toNat (saturatingSub top esp).toNat = n := by rw [toNat_saturatingSub]
  obtain ⟨hrun, hasked⟩ := printFrom_spec mem n le_rfl
    (show n ≤ top.toNat - esp.toNat from Nat.min_le_right _ _)
  have hprint : print bottom top esp bytes =
      printFrom top n esp n >>= fun rows => pure (header bottom top esp :: rows) := by
    rw [print, hn]
  have hreads : (print bottom top esp bytes).asked (fun a => .ok (mem a)) = addresses esp n := by
    rw [hprint, Query.asked_bind_ok hrun, hasked, Query.asked_pure, List.append_nil]
  refine ⟨?_, plainRows_flatten esp n, fun r hr => length_of_mem_plainRows hr,
    fun r hr => ⟨readRow_row r.1 r.2 (length_le_of_mem_plainRows hr), text_row r.1 r.2⟩, hreads, ?_⟩
  · rw [hprint, Query.run_bind_ok hrun, render_bytesAt, Query.run_pure]
  · intro a ha
    rw [hreads] at ha
    obtain ⟨i, hi, rfl⟩ := List.mem_map.mp ha
    have hlt : i < min bytes.toNat (top.toNat - esp.toNat) := List.mem_range.mp hi
    rw [BitVec.toNat_add, BitVec.toNat_ofNat]
    omega

end Kfs.Stack
