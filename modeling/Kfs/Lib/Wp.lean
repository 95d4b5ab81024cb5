import Kfs.Lib.Prog

/-!
# Weakest preconditions of programs

`wp x Q E` holds of a state from which `x` returns into `Q` or stops with an error in `E`.  A
program always does one of the two, so this is total correctness.  The rules follow the constructors
of a program: `wp_bind` chains the postcondition of the first part to the precondition of the
second, and `wp_runAll` is the rule of a run.
-/

namespace Lib.Prog

variable {σ ε α β ι : Type} {Q Q' : α → σ → Prop} {E E' : ε → Prop} {s : σ}

def wp (x : Prog σ ε α) (Q : α → σ → Prop) (E : ε → Prop) (s : σ) : Prop :=
  match x.run s with
  | .ok (a, t) => Q a t
  | .error e => E e

theorem wp_ok {x : Prog σ ε α} {a : α} {t : σ} (h : x.run s = .ok (a, t)) :
    x.wp Q E s ↔ Q a t := by
  unfold wp
  rw [h]

theorem wp_error {x : Prog σ ε α} {e : ε} (h : x.run s = .error e) : x.wp Q E s ↔ E e := by
  unfold wp
  rw [h]

/-- What the postcondition says about a run. -/
theorem wp_iff {x : Prog σ ε α} : x.wp Q E s ↔
    (∃ a t, x.run s = .ok (a, t) ∧ Q a t) ∨ ∃ e, x.run s = .error e ∧ E e := by
  cases hx : x.run s with
  | error e =>
    rw [wp_error hx]
    simp
  | ok r =>
    obtain ⟨a, t⟩ := r
    rw [wp_ok hx]
    simp

theorem wp_mono {x : Prog σ ε α} (h : x.wp Q E s) (hQ : ∀ a t, Q a t → Q' a t)
    (hE : ∀ e, E e → E' e) : x.wp Q' E' s := by
  rw [wp_iff] at h ⊢
  rcases h with ⟨a, t, hrun, hq⟩ | ⟨e, hrun, he⟩
  · exact Or.inl ⟨a, t, hrun, hQ a t hq⟩
  · exact Or.inr ⟨e, hrun, hE e he⟩

@[simp] theorem wp_pure {a : α} : (pure a : Prog σ ε α).wp Q E s ↔ Q a s := wp_ok rfl

@[simp] theorem wp_gets {f : σ → α} : (gets f : Prog σ ε α).wp Q E s ↔ Q (f s) s := wp_ok rfl

@[simp] theorem wp_stop {e : ε} : (stop e : Prog σ ε α).wp Q E s ↔ E e := wp_error rfl

@[simp] theorem wp_bind {x : Prog σ ε α} {f : α → Prog σ ε β} {Q : β → σ → Prop} :
    (x >>= f).wp Q E s ↔ x.wp (fun a t => (f a).wp Q E t) E s := by
  cases hx : x.run s with
  | error e => rw [wp_error hx, wp_error (bind_error hx)]
  | ok r =>
    obtain ⟨a, t⟩ := r
    rw [wp_ok hx, wp, bind_ok hx]
    rfl

/-- The rule of a run whose steps may stop.  One that stops does so at some step, in a state that
the steps before it reach. -/
theorem wp_runAll {step : ι → Prog σ ε Unit} {I : σ → Prop} {S : σ → ι → ε → Prop}
    (hstep : ∀ s i, I s → (step i).wp (fun _ => I) (S s i) s) (is : List ι) :
    ∀ s, I s → (runAll step is).wp (fun _ => I) (fun e => ∃ before i after t,
      is = before ++ i :: after ∧ (runAll step before).run s = .ok ((), t) ∧ I t ∧ S t i e) s := by
  induction is with
  | nil => exact fun s hI => wp_pure.mpr hI
  | cons i is ih =>
    intro s hI
    rw [runAll, wp_bind]
    rcases wp_iff.mp (hstep s i hI) with ⟨_, t, hrun, ht⟩ | ⟨e, hrun, he⟩
    · rw [wp_ok hrun]
      refine wp_mono (ih t ht) (fun _ _ h => h) fun e he => ?_
      obtain ⟨before, j, after, u, rfl, hbefore, hu, hS⟩ := he
      exact ⟨i :: before, j, after, u, rfl, by rw [runAll, bind_ok hrun, hbefore], hu, hS⟩
    · rw [wp_error hrun]
      exact ⟨[], i, is, s, rfl, rfl, hI, he⟩

end Lib.Prog
