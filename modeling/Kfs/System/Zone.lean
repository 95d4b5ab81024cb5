import Kfs.System.Demand
import Kfs.System.Patch

/-!
# The bytes of the demand zone

A page of the demand zone has no frame until it is accessed, and `virt` is zero there.  The frame
that `handle_fault` gives it holds zeros, so the byte at an address of the zone is the same before
and after; and no other operation of the system changes it (`Heaps.Inv.zone_step`).  A page of the
zone with a frame can be written.
-/

namespace Kfs

open Lib Mem Paging Machine

/-- The pages of the demand zone. -/
def zonePages : Set Nat := { p | 0x800 ≤ p ∧ p < 0x900 }

theorem zone_user : zonePages ⊆ userPages := fun _ hp => Or.inl hp

theorem demand_zone {v : U32} : isDemand v = true ↔ v.toNat / 4096 ∈ zonePages := by
  rw [isDemand_iff]
  show _ ↔ 0x800 ≤ _ ∧ _ < 0x900
  omega

/-- The pages of the zone that have a frame can be written. -/
def Machine.ZoneOpen (s : Machine) : Prop :=
  ∀ p ∈ zonePages, ∀ e, s.leaf p = some e → writable e = true

section

variable {s t : Machine} {P Q R D : Set Nat}

theorem Machine.Held.mono (h : Held s Q) (hP : P ⊆ Q) : Held s P :=
  ⟨fun p hp => h.below p (hP hp), fun hp hq => h.inj (hP hp) (hP hq), fun hp => h.notTable (hP hp),
    fun hp => h.notFree (hP hp)⟩

/-- A step elsewhere leaves the bytes of held pages. -/
theorem Machine.Held.virt_elsewhere (h : Held s P) (hc : Confined R D s t) (hR : ∀ p ∈ P, p ∉ R)
    (hfar : ∀ k, s.Behind P k → k ∉ D ∧ ¬s.Behind R k) {a : Nat} (ha : a / 4096 ∈ P) :
    t.virt a = s.virt a := by
  have hleaf := hc.leaf _ (h.below _ ha) (hR _ ha)
  unfold virt
  rw [hleaf]
  cases he : s.leaf (a / 4096) with
  | none => rfl
  | some e =>
    have hk := h.behind ha he
    obtain ⟨hfree, htab⟩ := h.not_of_behind hk
    refine hc.mem _ ?_
    rw [show (4096 * frameNo e + a % 4096) / 4096 = frameNo e from by omega]
    exact Machine.not_mine.mpr ⟨hfree, htab, hfar _ hk⟩

/-- No frame is behind two disjoint sets of held pages. -/
theorem Machine.Held.behind_apart (h : Held s Q) (hP : P ⊆ Q) (hR : R ⊆ Q)
    (hPR : ∀ p ∈ P, p ∉ R) {k : Nat} (hk : s.Behind P k) : ¬s.Behind R k := by
  obtain ⟨p, hp, _, e, he, rfl⟩ := hk
  rintro ⟨q, hq, _, e', he', heq⟩
  exact hPR p hp (h.inj (hP hp) (hR hq) he he' heq.symm ▸ hq)

/-- A step on other pages of a held set leaves the zone. -/
theorem Machine.Held.zone_elsewhere (h : Held s userPages) (hc : Confined R ∅ s t)
    (hR : R ⊆ userPages) (hapart : ∀ p ∈ P, p ∉ R) (hP : P ⊆ userPages) {a : Nat}
    (ha : a / 4096 ∈ P) : t.virt a = s.virt a :=
  (h.mono hP).virt_elsewhere hc hapart
    (fun _ hk => ⟨Set.notMem_empty _, h.behind_apart hP hR hapart hk⟩) ha

/-- `handle_fault` and the zone: what it does to the tables, and that it changes no byte. -/
theorem handleFault_zone (hs : s.Paged) (hh : Held s userPages) (hz : s.ZoneOpen)
    (hopen : present (s.dirWord 2) = true → user (s.dirWord 2) = true) (addr error : U32) :
    ∃ b t, (handleFault addr error).run s = .ok (b, t) ∧ (b = true ↔ s.Serves addr error) ∧
      (b = true → s.Recovered t addr) ∧ (b = false → Untouched s t) ∧ Confined userPages ∅ s t ∧
      Held t userPages ∧ t.ZoneOpen ∧ ∀ a, a / 4096 ∈ zonePages → t.virt a = s.virt a := by
  obtain ⟨b, t, hrun, hiff, hrec, hunt⟩ := handleFault_exact hs hh hopen addr error
  obtain ⟨b', t', hrun', hconf, hheld⟩ := handleFault_run hs hh addr error
  rw [hrun] at hrun'
  cases hrun'
  cases b with
  | false =>
    have hu := (hunt rfl).eq
    refine ⟨false, t, hrun, hiff, hrec, hunt, hconf, hheld, ?_, fun a _ => ?_⟩
    · rw [hu]
      exact hz
    · rw [hu]
      rfl
  | true =>
    obtain ⟨_, hlo, hhi, hnone, _⟩ := hiff.mp rfl
    have hrec' := hrec rfl
    have hzone : addr.toNat / 4096 ∈ zonePages := demand_zone.mp ((isDemand_iff _).mpr ⟨hlo, hhi⟩)
    -- the step is confined to the one page
    obtain ⟨b'', t'', hrun'', hone, _⟩ := handleFault_on hs
      (P := {addr.toNat / 4096}) (hh.mono fun p hp => zone_user (hp ▸ hzone)) addr error
      fun _ => rfl
    rw [hrun] at hrun''
    cases hrun''
    refine ⟨true, t, hrun, hiff, hrec, hunt, hconf, hheld, fun p hp e he => ?_, fun a ha => ?_⟩
    · by_cases hpage : p = addr.toNat / 4096
      · obtain ⟨pde, pte, hwalk, _, _, hw, _⟩ := hrec'.rights addr rfl
        rw [hpage] at he
        rw [walk_of_leaf he] at hwalk
        cases hwalk
        exact hw
      · rw [hone.leaf p (hh.below p (zone_user hp)) hpage] at he
        exact hz p hp e he
    · by_cases hpage : a / 4096 = addr.toNat / 4096
      · have halt : a < 2 ^ 32 := by
          have h1 : a / 4096 < 0x900 := ha.2
          omega
        have hload := hrec'.zero (BitVec.ofNat 32 a)
          (by rw [BitVec.toNat_ofNat, Nat.mod_eq_of_lt halt]; exact hpage)
        obtain ⟨pde, pte, hwalk, _⟩ := hrec'.rights addr rfl
        obtain ⟨e, he⟩ : ∃ e, t.leaf (a / 4096) = some e := by
          rw [hpage]
          cases he : t.leaf (addr.toNat / 4096) with
          | none => rw [walk_eq, he] at hwalk; cases hwalk
          | some e => exact ⟨e, rfl⟩
        have hv : (BitVec.ofNat 32 a).toNat = a := by
          rw [BitVec.toNat_ofNat, Nat.mod_eq_of_lt halt]
        rw [load8_of_leaf (e := e) (by rw [hv]; exact he), hv, ← virt_of_leaf he] at hload
        have hzero : t.virt a = 0 := by
          injection hload with h
          exact congrArg Prod.fst h
        rw [hzero, virt, hpage, hnone]
      · exact hh.zone_elsewhere hone (fun p hp => zone_user (hp ▸ hzone))
          (P := zonePages \ {addr.toNat / 4096}) (fun p hp => hp.2) (fun p hp => zone_user hp.1)
          ⟨ha, hpage⟩

end

namespace Heaps.Inv

variable {L : Layout} {ram : Multiboot.Ram} {s0 s : Machine} {window : U32 × U32} {hs hs0 : Heaps}
  {bk bv : List Block}

/-- The slot of the demand zone was empty at boot, so its table is open to ring 3. -/
theorem zone_slot (hi : hs.Inv s0 window s bk bv) (h0 : Started L ram hs0 s0 window)
    (hp : present (s.dirWord 2) = true) : Machine.user (s.dirWord 2) = true := by
  have habs : present (s0.dirWord 2) = false := by
    rw [h0.tables.dirElse 2 (by decide) (by decide) (by decide) (by decide)]
    rfl
  rw [hi.confined.fresh 2 (by decide) habs hp, decide_eq_true (by decide)]

/-- No operation changes a byte of the zone. -/
theorem zone_step (hi : hs.Inv s0 window s bk bv) (h0 : Started L ram hs0 s0 window)
    (hz : s.ZoneOpen) (op : Op) :
    ∃ hs' t bk' bv', (op.step hs).run s = .ok (hs', t) ∧ hs'.Inv s0 window t bk' bv' ∧
      t.ZoneOpen ∧ ∀ a, a / 4096 ∈ zonePages → t.virt a = s.virt a := by
  obtain ⟨hs', t, bk', bv', hrun, hinv, _⟩ := hi.step_run op
  refine ⟨hs', t, bk', bv', hrun, hinv, ?_⟩
  have hheld := hi.user
  -- a step on pages outside of the zone, whose frames are not behind it
  have hstep : ∀ {R D : Set Nat}, Confined R D s t → (∀ p ∈ zonePages, p ∉ R) →
      (∀ k, s.Behind zonePages k → k ∉ D ∧ ¬s.Behind R k) →
      t.ZoneOpen ∧ ∀ a, a / 4096 ∈ zonePages → t.virt a = s.virt a := by
    intro R D hc hR hfar
    refine ⟨fun p hp e he => ?_, fun a ha => (hheld.mono zone_user).virt_elsewhere hc hR hfar ha⟩
    rw [hc.leaf p (hheld.below p (zone_user hp)) (hR p hp)] at he
    exact hz p hp e he
  have hbehind : ∀ {k}, s.Behind zonePages k → s.Behind userPages k := by
    rintro k ⟨p, hp, rest⟩
    exact ⟨p, zone_user hp, rest⟩
  cases op with
  | kernel call =>
    obtain ⟨c, u, _, hcall, hc, _⟩ := call.step_run hi.kernel
    rw [Op.kernel_run hs hcall] at hrun
    cases hrun
    have hconf := hc.confined
    rw [hi.kernel_range, hi.kernel_window] at hconf
    refine hstep hconf (fun p hp hk => (pages_apart.1 hk).2 (zone_user hp)) fun k hk => ?_
    have hwin := hi.user_window k (hbehind hk)
    exact ⟨hwin, fun hb => hwin (hi.behind_kernel hb)⟩
  | virtual call =>
    obtain ⟨c, u, _, hcall, hc, _⟩ := call.step_run hi.virtual
    rw [Op.virtual_run hs hcall] at hrun
    cases hrun
    have hconf := hc.confined
    rw [hi.virtual_range, hi.virtual_empty] at hconf
    exact hstep hconf (fun p hp hv => pages_apart.2 hv (zone_user hp)) fun k hk =>
      ⟨Set.notMem_empty k, hi.user_apart k (hbehind hk)⟩
  | fault addr error =>
    obtain ⟨b, u, hfault, _, _, _, _, _, hopen, hvirt⟩ :=
      handleFault_zone hi.kernel.inv.paged hheld hz (hi.zone_slot h0) addr error
    rw [Op.step, Prog.bind_ok hfault] at hrun
    cases hrun
    exact ⟨hopen, hvirt⟩
  | user =>
    have hone : ∀ p ∈ zonePages, p ∉ ({USER_DEMO.toNat / 4096} : Set Nat) := by
      intro p hp heq
      have h1 : p < 0x900 := hp.2
      have h2 : p = 0xC00 := heq
      omega
    have hsub : ({USER_DEMO.toNat / 4096} : Set Nat) ⊆ userPages := fun p hp => Or.inr hp
    obtain ⟨r, u, hsteps, hconf, _⟩ := cmdUser_on hi.kernel.inv.paged (hheld.mono hsub) rfl
    have huser := hsteps.run
    rw [Op.step, Prog.bind_ok huser] at hrun
    cases hrun
    exact hstep hconf hone fun k hk =>
      ⟨Set.notMem_empty k, hheld.behind_apart zone_user hsub hone hk⟩

/-- A store to a page of the zone that has a frame changes the one byte. -/
theorem zone_store (hi : hs.Inv s0 window s bk bv) (hz : s.ZoneOpen) {v e : U32} (b : U8)
    (hv : v.toNat / 4096 ∈ zonePages) (he : s.leaf (v.toNat / 4096) = some e) :
    ∃ t, (store8 v b).run s = .ok ((), t) ∧ hs.Inv s0 window t bk bv ∧ t.ZoneOpen ∧
      ∀ a, a / 4096 ∈ zonePages → t.virt a = if a = v.toNat then b else s.virt a := by
  have hs := hi.kernel.inv.paged
  have hheld := hi.user
  have hlt := hheld.below _ (zone_user hv)
  have hnot := hheld.notTable (zone_user hv) he
  have hwrite : s.MayWrite (v.toNat / 4096) e :=
    ⟨hs.dirWritable _ (by omega) (present_of_leaf he).1, hz _ hv e he⟩
  have hpage : (4096 * frameNo e + v.toNat % 4096) / 4096 = frameNo e := by omega
  have hconf := confined_mem (R := userPages) (D := ∅) hs
    (m := s.mem.write8 (4096 * frameNo e + v.toNat % 4096) b) fun a ha => by
      refine if_neg fun heq => ha ?_
      rw [heq, hpage]
      exact ⟨Or.inr (Or.inr (Or.inr (hheld.behind (zone_user hv) he))), hnot⟩
  have hsame : SameTables s
      { s with mem := s.mem.write8 (4096 * frameNo e + v.toNat % 4096) b } :=
    ⟨rfl, fun a ha => if_neg fun heq => hnot (by rw [heq, hpage] at ha; exact ha)⟩
  have hleaf : ∀ {p}, p ∈ userPages →
      ({ s with mem := s.mem.write8 (4096 * frameNo e + v.toNat % 4096) b } : Machine).leaf p
        = s.leaf p := fun hp => hsame.leaf hs (by have := hheld.below _ hp; omega)
  have hkept : Held { s with mem := s.mem.write8 (4096 * frameNo e + v.toNat % 4096) b }
      userPages := hheld.sub (fun p hp e' he' => ⟨e', by rw [← hleaf hp]; exact he', rfl⟩)
    (fun p _ e' _ ht => (hsame.isTable_iff hs).mp ht) fun p _ e' _ hf => hf
  refine ⟨_, store8_of_leaf b he hwrite,
    (hi.user_step hconf hkept .user fun side => by cases side <;> rfl).1, fun p hp e' he' => ?_,
    fun a ha => ?_⟩
  · rw [hleaf (zone_user hp)] at he'
    exact hz p hp e' he'
  · unfold virt
    rw [hleaf (zone_user ha)]
    by_cases heq : a = v.toNat
    · rw [if_pos heq, heq, he]
      exact if_pos rfl
    · rw [if_neg heq]
      cases he' : s.leaf (a / 4096) with
      | none => rfl
      | some e' =>
        -- two addresses of the zone with one physical byte are the same
        refine if_neg fun hbyte => heq ?_
        have hframe : a / 4096 = v.toNat / 4096 :=
          hheld.inj (zone_user ha) (zone_user hv) he' he (by omega)
        omega

end Heaps.Inv

end Kfs
