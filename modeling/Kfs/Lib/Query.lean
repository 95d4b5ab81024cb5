import Kfs.Lib.Prog

/-!
# Programs that only read

A `Query` asks for the values at keys, one after the other, and each question may depend on the
answers before it.  It is the part of a program that is left when the state can be read and not
written, and unlike a function of the state it shows what was read.

* `run` is the result under given answers and `asked` the list of the keys it asks for.
* `run_congr` says that a result depends on the answers to those keys alone.
* `toProg` is the program that reads the state, and `run_toProg` its run.
-/

namespace Lib

/-- A program that asks for the values `ν` at keys `κ` and returns an `α` or stops with an `ε`. -/
inductive Query (κ ν ε α : Type) where
  | pure (a : α)
  | stop (e : ε)
  | ask (k : κ) (next : ν → Query κ ν ε α)

namespace Query

variable {κ ν ε α β σ : Type}

def bind (f : α → Query κ ν ε β) : Query κ ν ε α → Query κ ν ε β
  | pure a => f a
  | stop e => stop e
  | ask k next => ask k fun v => (next v).bind f

instance : Monad (Query κ ν ε) where
  pure := .pure
  bind x f := x.bind f

/-- The value at `k`. -/
def get (k : κ) : Query κ ν ε ν := ask k .pure

/-- The result when every question is answered from `f`. -/
def run (f : κ → Except ε ν) : Query κ ν ε α → Except ε α
  | pure a => .ok a
  | stop e => .error e
  | ask k next =>
    match f k with
    | .ok v => (next v).run f
    | .error e => .error e

/-- The keys it asks for when every question is answered from `f`, in order. -/
def asked (f : κ → Except ε ν) : Query κ ν ε α → List κ
  | pure _ => []
  | stop _ => []
  | ask k next =>
    k :: match f k with
      | .ok v => (next v).asked f
      | .error _ => []

variable {f g : κ → Except ε ν}

@[simp] theorem run_pure (f : κ → Except ε ν) (a : α) :
    (Pure.pure a : Query κ ν ε α).run f = .ok a := rfl

@[simp] theorem asked_pure (f : κ → Except ε ν) (a : α) :
    (Pure.pure a : Query κ ν ε α).asked f = [] := rfl

@[simp] theorem run_get (f : κ → Except ε ν) (k : κ) :
    (get k : Query κ ν ε ν).run f = f k := by
  rw [get, run]
  cases f k <;> rfl

@[simp] theorem asked_get (f : κ → Except ε ν) (k : κ) :
    (get k : Query κ ν ε ν).asked f = [k] := by
  rw [get, asked]
  cases f k <;> rfl

theorem run_bind (x : Query κ ν ε α) (h : α → Query κ ν ε β) :
    (x >>= h).run f = x.run f >>= fun a => (h a).run f := by
  induction x with
  | pure a => rfl
  | stop e => rfl
  | ask k next ih =>
    show ((ask k fun v => (next v).bind h) : Query κ ν ε β).run f = _
    rw [run, run]
    cases f k with
    | ok v => exact ih v
    | error e => rfl

/-- What is asked for after `x` depends on the result of `x`. -/
theorem asked_bind (x : Query κ ν ε α) (h : α → Query κ ν ε β) :
    (x >>= h).asked f = x.asked f ++ match x.run f with
      | .ok a => (h a).asked f
      | .error _ => [] := by
  induction x with
  | pure a => rfl
  | stop e => rfl
  | ask k next ih =>
    show ((ask k fun v => (next v).bind h) : Query κ ν ε β).asked f = _
    rw [asked, asked, run, List.cons_append]
    cases f k with
    | ok v => exact congrArg (k :: ·) (ih v)
    | error e => rfl

theorem run_bind_ok {x : Query κ ν ε α} {a : α} (hx : x.run f = .ok a) (h : α → Query κ ν ε β) :
    (x >>= h).run f = (h a).run f := by
  rw [run_bind, hx]
  rfl

theorem run_bind_error {x : Query κ ν ε α} {e : ε} (hx : x.run f = .error e)
    (h : α → Query κ ν ε β) : (x >>= h).run f = .error e := by
  rw [run_bind, hx]
  rfl

theorem run_bind_eq_ok {x : Query κ ν ε α} {h : α → Query κ ν ε β} {b : β} :
    (x >>= h).run f = .ok b ↔ ∃ a, x.run f = .ok a ∧ (h a).run f = .ok b := by
  cases hx : x.run f with
  | ok a =>
    rw [run_bind_ok hx]
    simp
  | error e =>
    rw [run_bind_error hx]
    simp

theorem run_bind_eq_error {x : Query κ ν ε α} {h : α → Query κ ν ε β} {e : ε} :
    (x >>= h).run f = .error e ↔
      x.run f = .error e ∨ ∃ a, x.run f = .ok a ∧ (h a).run f = .error e := by
  cases hx : x.run f with
  | ok a =>
    rw [run_bind_ok hx]
    simp
  | error e' =>
    rw [run_bind_error hx]
    simp

theorem asked_bind_ok {x : Query κ ν ε α} {a : α} (hx : x.run f = .ok a)
    (h : α → Query κ ν ε β) : (x >>= h).asked f = x.asked f ++ (h a).asked f := by
  rw [asked_bind, hx]

theorem asked_bind_error {x : Query κ ν ε α} {e : ε} (hx : x.run f = .error e)
    (h : α → Query κ ν ε β) : (x >>= h).asked f = x.asked f := by
  rw [asked_bind, hx, List.append_nil]

theorem mem_asked_bind {x : Query κ ν ε α} {h : α → Query κ ν ε β} {k : κ} :
    k ∈ (x >>= h).asked f ↔ k ∈ x.asked f ∨ ∃ a, x.run f = .ok a ∧ k ∈ (h a).asked f := by
  cases hx : x.run f with
  | ok a =>
    rw [asked_bind_ok hx]
    simp
  | error e =>
    rw [asked_bind_error hx]
    simp

/-- Answers that agree on what is asked for give the same result, and the same questions. -/
theorem run_congr (x : Query κ ν ε α) (h : ∀ k ∈ x.asked f, g k = f k) :
    x.run g = x.run f ∧ x.asked g = x.asked f := by
  induction x with
  | pure a => exact ⟨rfl, rfl⟩
  | stop e => exact ⟨rfl, rfl⟩
  | ask k next ih =>
    have hk : g k = f k := h k (by rw [asked]; exact List.mem_cons_self)
    simp only [run, asked, hk]
    cases hf : f k with
    | error e => exact ⟨rfl, rfl⟩
    | ok v =>
      obtain ⟨hrun, hasked⟩ := ih v fun j hj => h j (by
        rw [asked, hf]
        exact List.mem_cons_of_mem k hj)
      exact ⟨hrun, congrArg (k :: ·) hasked⟩

/-! ## Reading a state -/

/-- The program that answers each question by a load. -/
def toProg (load : κ → Prog σ ε ν) : Query κ ν ε α → Prog σ ε α
  | pure a => Pure.pure a
  | stop e => Prog.stop e
  | ask k next => load k >>= fun v => (next v).toProg load

theorem toProg_bind (load : κ → Prog σ ε ν) (x : Query κ ν ε α) (h : α → Query κ ν ε β) :
    (x >>= h).toProg load = x.toProg load >>= fun a => (h a).toProg load := by
  induction x with
  | pure a => rfl
  | stop e => rfl
  | ask k next ih =>
    show ((ask k fun v => (next v).bind h) : Query κ ν ε β).toProg load = _
    rw [toProg, toProg, bind_assoc]
    exact congrArg (load k >>= ·) (funext ih)

theorem toProg_get (load : κ → Prog σ ε ν) (k : κ) :
    (get k : Query κ ν ε ν).toProg load = load k := bind_pure (load k)

/-- Loads that leave the state alone make a program that does. -/
theorem run_toProg {load : κ → Prog σ ε ν} {s : σ}
    (hload : ∀ k v t, (load k).run s = .ok (v, t) → t = s) (x : Query κ ν ε α) :
    (x.toProg load).run s
      = (x.run fun k => ((load k).run s).map Prod.fst).map fun a => (a, s) := by
  induction x with
  | pure a => rfl
  | stop e => rfl
  | ask k next ih =>
    rw [toProg, run]
    cases hk : (load k).run s with
    | error e => exact Prog.bind_error hk
    | ok r =>
      obtain ⟨v, t⟩ := r
      obtain rfl : t = s := hload k v t hk
      rw [Prog.bind_ok hk, ih v]
      rfl

end Query

end Lib
