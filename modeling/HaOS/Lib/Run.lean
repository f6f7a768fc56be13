import Mathlib.Algebra.Order.Ring.Nat
import Mathlib.Logic.Relation

/-!
# Runs of a labelled step relation

* `Reaches step s t` : some labels lead from `s` to `t`; `Reaches.invariant` is the invariant rule;
* `Guarded C step` : the steps whose start state and label meet the condition `C`;
* `Steps step s tr` : `tr` lists the labels taken from `s`, each with the state it leads to;
* `Meets C s tr` : every step of the trace starts in a state that meets `C` with the step's label;
* `always_iff_meets` : when the steps that meet `C` keep the invariant and the others spoil the state, all states of a
  trace are good iff all its steps meet `C`; `meets_congr` exchanges conditions that agree under an invariant.
-/

namespace Lib

variable {σ ι : Type*} {step : σ → ι → σ → Prop} {C : σ → ι → Prop} {P : σ → Prop}

/-- Some labels lead from `s` to `t`. -/
def Reaches (step : σ → ι → σ → Prop) : σ → σ → Prop := Relation.ReflTransGen fun s t => ∃ l, step s l t

/-- The steps of `step` whose start state and label meet `C`. -/
def Guarded (C : σ → ι → Prop) (step : σ → ι → σ → Prop) (s : σ) (l : ι) (t : σ) : Prop := C s l ∧ step s l t

theorem Reaches.refl (s : σ) : Reaches step s s := Relation.ReflTransGen.refl

theorem Reaches.snoc {s t u : σ} {l : ι} (h : Reaches step s t) (hl : step t l u) : Reaches step s u :=
  Relation.ReflTransGen.tail h ⟨l, hl⟩

/-- What every step keeps holds in every state reached. -/
theorem Reaches.invariant (hstep : ∀ s l t, P s → step s l t → P t) {s t : σ} (h : Reaches step s t) (h0 : P s) :
    P t := by
  induction h with
  | refl => exact h0
  | tail _ hl ih =>
      obtain ⟨l, hl⟩ := hl
      exact hstep _ l _ ih hl

/-- The labels of `tr`, each with the state it leads to, are steps taken one after another from `s`. -/
def Steps (step : σ → ι → σ → Prop) : σ → List (ι × σ) → Prop
  | _, [] => True
  | s, (l, t) :: tr => step s l t ∧ Steps step t tr

theorem Reaches.head {s t u : σ} {l : ι} (hl : step s l t) (h : Reaches step t u) : Reaches step s u :=
  Relation.ReflTransGen.head ⟨l, hl⟩ h

theorem Steps.reaches : ∀ {tr : List (ι × σ)} {s : σ}, Steps step s tr → ∀ x ∈ tr, Reaches step s x.2
  | [], _, _, _, hx => by cases hx
  | (_, _) :: _, _, ⟨hl, hs⟩, x, hx => by
      rcases List.mem_cons.mp hx with rfl | hx
      · exact (Reaches.refl _).snoc hl
      · exact (hs.reaches x hx).head hl

/-- Every step of the trace starts in a state that meets `C` with the step's label. -/
def Meets (C : σ → ι → Prop) : σ → List (ι × σ) → Prop
  | _, [] => True
  | s, (l, t) :: tr => C s l ∧ Meets C t tr

/-- Steps that meet `C` keep the invariant, which makes a state good; steps that miss it end in a bad state. Then the
states of a trace are all good exactly when its steps all meet `C`. -/
theorem always_iff_meets {I : σ → Prop} (hgood : ∀ s, I s → P s)
    (hmeet : ∀ s l t, I s → step s l t → C s l → I t) (hmiss : ∀ s l t, I s → step s l t → ¬ C s l → ¬ P t) :
    ∀ {tr : List (ι × σ)} {s : σ}, I s → Steps step s tr → ((∀ x ∈ tr, P x.2) ↔ Meets C s tr)
  | [], _, _, _ => by simp [Meets]
  | (l, t) :: tr, s, h0, ⟨hl, hs⟩ => by
      rw [List.forall_mem_cons, Meets]
      by_cases hc : C s l
      · have ht := hmeet s l t h0 hl hc
        simp only [hc, hgood t ht, true_and]
        exact always_iff_meets hgood hmeet hmiss ht hs
      · simp only [hc, hmiss s l t h0 hl hc, false_and]

/-- Along a trace whose steps keep the invariant, conditions that agree under it are met alike. -/
theorem meets_congr {R D : σ → ι → Prop} {I : σ → Prop} (hkeep : ∀ s l t, I s → step s l t → R s l → I t)
    (hiff : ∀ s l, I s → R s l → (C s l ↔ D s l)) :
    ∀ {tr : List (ι × σ)} {s : σ}, I s → Steps step s tr → Meets R s tr → (Meets C s tr ↔ Meets D s tr)
  | [], _, _, _, _ => Iff.rfl
  | (l, t) :: _, s, h0, ⟨hl, hs⟩, ⟨hr, hrest⟩ =>
      and_congr (hiff s l h0 hr) (meets_congr hkeep hiff (hkeep s l t h0 hl hr) hs hrest)

end Lib
