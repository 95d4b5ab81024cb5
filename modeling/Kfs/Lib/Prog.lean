import Mathlib.Tactic.Common

/-!
# Programs that read and write a state and may stop

A program over a state `σ` either returns a value together with the next state, or stops with
an error `ε`.  Nothing here fixes the state or the errors.

* `bind_ok` and `bind_eq_ok` are the two directions of sequencing: a caller that knows the run
  of the first program moves on to the second, and a caller that knows the run of the whole
  takes it apart.
* `forRange_inv` is the rule of a counted loop, and `forRange_ok` the one for a loop whose passes
  may stop.
* `foldlM_inv` is the rule of a run: what one step keeps, every finite sequence of steps keeps.
-/

namespace Lib

/-- A program over the state `σ` that returns an `α` or stops with an `ε`. -/
structure Prog (σ ε α : Type) where
  run : σ → Except ε (α × σ)

namespace Prog

variable {σ ε α β ι : Type}

instance : Monad (Prog σ ε) where
  pure a := ⟨fun s => .ok (a, s)⟩
  bind x f := ⟨fun s =>
    match x.run s with
    | .ok (a, s') => (f a).run s'
    | .error e => .error e⟩

/-- Stop with `e`. -/
def stop (e : ε) : Prog σ ε α := ⟨fun _ => .error e⟩

/-- The value of `f` on the state. -/
def gets (f : σ → α) : Prog σ ε α := ⟨fun s => .ok (f s, s)⟩

/-- Replace the state by `f` of it. -/
def modify (f : σ → σ) : Prog σ ε Unit := ⟨fun s => .ok ((), f s)⟩

@[simp] theorem run_pure (a : α) (s : σ) : (pure a : Prog σ ε α).run s = .ok (a, s) := rfl

@[simp] theorem run_stop (e : ε) (s : σ) : (stop e : Prog σ ε α).run s = .error e := rfl

@[simp] theorem run_gets (f : σ → α) (s : σ) : (gets f : Prog σ ε α).run s = .ok (f s, s) := rfl

@[simp] theorem run_modify (f : σ → σ) (s : σ) :
    (modify f : Prog σ ε Unit).run s = .ok ((), f s) := rfl

/-- Sequencing after a program whose run is known. -/
theorem bind_ok {x : Prog σ ε α} {f : α → Prog σ ε β} {s s' : σ} {a : α}
    (h : x.run s = .ok (a, s')) : (x >>= f).run s = (f a).run s' := by
  show (match x.run s with
    | .ok (a, s') => (f a).run s'
    | .error e => .error e) = (f a).run s'
  rw [h]

theorem bind_error {x : Prog σ ε α} {f : α → Prog σ ε β} {s : σ} {e : ε}
    (h : x.run s = .error e) : (x >>= f).run s = .error e := by
  show (match x.run s with
    | .ok (a, s') => (f a).run s'
    | .error e => .error e) = .error e
  rw [h]

/-- A sequence returns only if both its parts do. -/
theorem bind_eq_ok {x : Prog σ ε α} {f : α → Prog σ ε β} {s t : σ} {b : β} :
    (x >>= f).run s = .ok (b, t) ↔
      ∃ a s', x.run s = .ok (a, s') ∧ (f a).run s' = .ok (b, t) := by
  constructor
  · intro h
    cases hx : x.run s with
    | error e =>
      rw [bind_error hx] at h
      cases h
    | ok r =>
      obtain ⟨a, s'⟩ := r
      rw [bind_ok hx] at h
      exact ⟨a, s', rfl, h⟩
  · rintro ⟨a, s', hx, hf⟩
    rw [bind_ok hx, hf]

/-- What the return of the second part says, the return of the sequence says. -/
theorem bind_last {x : Prog σ ε α} {f : α → Prog σ ε β} {s t : σ} {b : β} {P : Prop}
    (h : (x >>= f).run s = .ok (b, t)) (hf : ∀ a s', (f a).run s' = .ok (b, t) → P) : P := by
  obtain ⟨a, s', _, hrest⟩ := bind_eq_ok.mp h
  exact hf a s' hrest

/-- A sequence stops where one of its parts does. -/
theorem bind_eq_error {x : Prog σ ε α} {f : α → Prog σ ε β} {s : σ} {e : ε} :
    (x >>= f).run s = .error e ↔
      x.run s = .error e ∨ ∃ a s', x.run s = .ok (a, s') ∧ (f a).run s' = .error e := by
  cases hx : x.run s with
  | error e' =>
    rw [bind_error hx]
    simp
  | ok r =>
    rw [bind_ok hx]
    simp [Prod.ext_iff]

instance : LawfulMonad (Prog σ ε) := by
  refine LawfulMonad.mk' _ (fun x => ?_) (fun _ _ => rfl) (fun x f g => ?_)
  · refine congrArg mk (funext fun s => ?_)
    show (match x.run s with
      | .ok (a, s') => Except.ok (id a, s')
      | .error e => .error e) = x.run s
    cases x.run s <;> rfl
  · refine congrArg mk (funext fun s => ?_)
    show ((x >>= f) >>= g).run s = (x >>= fun a => f a >>= g).run s
    cases hx : x.run s with
    | error e => rw [bind_error (bind_error hx), bind_error hx]
    | ok r =>
      rw [bind_ok hx]
      cases hf : (f r.1).run r.2 with
      | error e => rw [bind_error ((bind_ok hx).trans hf), bind_error hf]
      | ok q => rw [bind_ok ((bind_ok hx).trans hf), bind_ok hf]

/-! ## Counted loops -/

/-- `for i in lo..lo + n { f(i) }`. -/
def forRange (f : Nat → Prog σ ε Unit) : Nat → Nat → Prog σ ε Unit
  | _, 0 => pure ()
  | lo, n + 1 => do
    f lo
    forRange f (lo + 1) n

/-- The rule of a counted loop.  `I i` holds before the pass `i`, and the last pass leaves
`I (lo + n)`. -/
theorem forRange_inv {f : Nat → Prog σ ε Unit} {I : Nat → σ → Prop} (n : Nat) :
    ∀ (lo : Nat) (s : σ),
      (∀ i t, lo ≤ i → i < lo + n → I i t → ∃ t', (f i).run t = .ok ((), t') ∧ I (i + 1) t') →
      I lo s → ∃ s', (forRange f lo n).run s = .ok ((), s') ∧ I (lo + n) s' := by
  induction n with
  | zero =>
    intro lo s _ hI
    exact ⟨s, rfl, hI⟩
  | succ n ih =>
    intro lo s hstep hI
    obtain ⟨t, hf, ht⟩ := hstep lo s (Nat.le_refl lo) (by omega) hI
    obtain ⟨s', hrun, hs'⟩ := ih (lo + 1) t
      (fun i u hi hlt hu => hstep i u (by omega) (by omega) hu) ht
    refine ⟨s', ?_, ?_⟩
    · rw [forRange, bind_ok hf, hrun]
    · rw [show lo + (n + 1) = lo + 1 + n from by omega]
      exact hs'

/-- The rule of a counted loop that need not return: whatever the passes that return establish
holds when the whole loop returned. -/
theorem forRange_ok {f : Nat → Prog σ ε Unit} {I : Nat → σ → Prop} (n : Nat) :
    ∀ (lo : Nat) (s s' : σ),
      (∀ i t t', lo ≤ i → i < lo + n → I i t → (f i).run t = .ok ((), t') → I (i + 1) t') →
      I lo s → (forRange f lo n).run s = .ok ((), s') → I (lo + n) s' := by
  induction n with
  | zero =>
    intro lo s s' _ hI hrun
    cases hrun
    exact hI
  | succ n ih =>
    intro lo s s' hstep hI hrun
    rw [forRange, bind_eq_ok] at hrun
    obtain ⟨_, t, hf, hrest⟩ := hrun
    rw [show lo + (n + 1) = lo + 1 + n from by omega]
    exact ih (lo + 1) t s' (fun i u u' hi hlt hu => hstep i u u' (by omega) (by omega) hu)
      (hstep lo s t (Nat.le_refl lo) (by omega) hI hf) hrest

/-! ## Runs -/

/-- One program for each entry of the list, in order. -/
def runAll (step : ι → Prog σ ε Unit) : List ι → Prog σ ε Unit
  | [] => pure ()
  | i :: is => do
    step i
    runAll step is

/-- What happened up to some entry, and the rest. -/
theorem runAll_append {step : ι → Prog σ ε Unit} {xs : List ι} (ys : List ι) : ∀ {s t : σ},
    (runAll step xs).run s = .ok ((), t) →
    (runAll step (xs ++ ys)).run s = (runAll step ys).run t := by
  induction xs with
  | nil =>
    intro s t h
    cases h
    rfl
  | cons x xs ih =>
    intro s t h
    obtain ⟨_, u, hx, hrest⟩ := bind_eq_ok.mp h
    rw [List.cons_append, runAll, bind_ok hx]
    exact ih hrest

/-- The rule of a run whose steps pass a value along. -/
theorem foldlM_inv {step : β → ι → Prog σ ε β} {I : β → σ → Prop}
    (hstep : ∀ b i s, I b s → ∃ b' s', (step b i).run s = .ok (b', s') ∧ I b' s') :
    ∀ (is : List ι) (b : β) (s : σ), I b s →
      ∃ b' s', (is.foldlM step b).run s = .ok (b', s') ∧ I b' s' := by
  intro is
  induction is with
  | nil =>
    intro b s hI
    exact ⟨b, s, rfl, hI⟩
  | cons i is ih =>
    intro b s hI
    obtain ⟨b', t, hi, ht⟩ := hstep b i s hI
    obtain ⟨b'', s', hrun, hs'⟩ := ih b' t ht
    exact ⟨b'', s', by rw [List.foldlM_cons, bind_ok hi, hrun], hs'⟩

end Prog

end Lib
