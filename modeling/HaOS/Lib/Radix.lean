import Mathlib.Algebra.Order.Ring.Nat
import Mathlib.Data.List.Basic
import Mathlib.Logic.Function.Basic

/-!
# Radix trees in a memory of tables

A node has at most one child at every index, and a node is found by the indices on the way from a root.

* `descend child r p` : the node at the path `p` below `r`;
* `IsTree child r d` : no node lies at two paths of at most `d` indices;
* `descend_congr` : a change of nodes that lie deeper leaves a path alone; `descend_map` : nodes under other names;
* `setChild` : one child replaced; `descend_setChild`, `IsTree.setChild` : a new leaf grows at one place.
-/

namespace Lib.Radix

variable {ν ι : Type*} {child child' : ν → ι → Option ν} {r n m : ν} {i : ι} {p q : List ι} {d : Nat}

def descend (child : ν → ι → Option ν) : ν → List ι → Option ν
  | n, [] => some n
  | n, i :: p => (child n i).bind fun m => descend child m p

/-- No node lies at two paths of at most `d` indices. -/
def IsTree (child : ν → ι → Option ν) (r : ν) (d : Nat) : Prop :=
  ∀ p q n, p.length ≤ d → q.length ≤ d → descend child r p = some n → descend child r q = some n → p = q

theorem descend_append (p q : List ι) :
    descend child r (p ++ q) = (descend child r p).bind fun n => descend child n q := by
  induction p generalizing r with
  | nil => rfl
  | cons i p ih =>
      simp only [List.cons_append, descend, Option.bind_assoc]
      congr 1
      funext m
      exact ih

theorem descend_snoc (h : descend child r p = some n) : descend child r (p ++ [i]) = child n i := by
  rw [descend_append, h]
  show (child n i).bind some = child n i
  exact Option.bind_fun_some _

/-- Nodes at the end of a path, or further down, do not decide where it leads. -/
theorem descend_congr (h : ∀ q i, q ++ [i] <+: p → ∀ n, descend child r q = some n → child' n i = child n i) :
    descend child' r p = descend child r p := by
  induction p generalizing r with
  | nil => rfl
  | cons i p ih =>
      have hi : child' r i = child r i := h [] i ⟨p, rfl⟩ r rfl
      simp only [descend, hi]
      cases hc : child r i with
      | none => rfl
      | some m =>
          show descend child' m p = descend child m p
          apply ih
          intro q j hq n hn
          refine h (i :: q) j ?_ n ?_
          · obtain ⟨t, ht⟩ := hq
            exact ⟨t, by rw [← ht]; rfl⟩
          · simp only [descend, hc, Option.bind_some, hn]

/-- A change of nodes that no path of less than `d` indices finds. -/
theorem descend_congr_deep (h : ∀ q n, q.length < d → descend child r q = some n → ∀ i, child' n i = child n i)
    (hp : p.length ≤ d) : descend child' r p = descend child r p := by
  apply descend_congr
  intro q i hq n hn
  refine h q n ?_ hn i
  have := hq.length_le
  simp only [List.length_append, List.length_singleton] at this
  omega

theorem IsTree.congr (ht : IsTree child r d) (h : ∀ p, p.length ≤ d → descend child' r p = descend child r p) :
    IsTree child' r d := by
  intro p q n hp hq hpn hqn
  rw [h p hp] at hpn
  rw [h q hq] at hqn
  exact ht p q n hp hq hpn hqn

theorem descend_map {μ : Type*} {child' : μ → ι → Option μ} {f : ν → μ}
    (h : ∀ n i, child' (f n) i = (child n i).map f) (r : ν) (p : List ι) :
    descend child' (f r) p = (descend child r p).map f := by
  induction p generalizing r with
  | nil => rfl
  | cons i p ih =>
      simp only [descend, h]
      cases child r i with
      | none => rfl
      | some m => exact ih m

theorem IsTree.map {μ : Type*} {child' : μ → ι → Option μ} {f : ν → μ} (ht : IsTree child r d)
    (hf : Function.Injective f) (h : ∀ n i, child' (f n) i = (child n i).map f) : IsTree child' (f r) d := by
  intro p q n hp hq hpn hqn
  rw [descend_map h, Option.map_eq_some_iff] at hpn hqn
  obtain ⟨a, ha, rfl⟩ := hpn
  obtain ⟨b, hb, hab⟩ := hqn
  rw [hf hab] at hb
  exact ht p q a hp hq ha hb

section SetChild

variable [DecidableEq ν] [DecidableEq ι]

def setChild (child : ν → ι → Option ν) (n : ν) (i : ι) (v : Option ν) : ν → ι → Option ν :=
  fun a j => if a = n ∧ j = i then v else child a j

theorem setChild_self (v : Option ν) : setChild child n i v n i = v := by
  simp [setChild]

theorem setChild_of_ne {v : Option ν} {a : ν} {j : ι} (h : ¬ (a = n ∧ j = i)) : setChild child n i v a j = child a j :=
  if_neg h

/-- Below a new child that has no children, one path more leads to a node. -/
theorem descend_setChild (ht : IsTree child r d) (hn : descend child r q = some n) (hq : q.length < d)
    (hnone : child n i = none) (hfresh : ∀ p, p.length ≤ d → descend child r p ≠ some m) (hm : ∀ j, child m j = none)
    (hp : p.length ≤ d) :
    descend (setChild child n i (some m)) r p = if p = q ++ [i] then some m else descend child r p := by
  have havoid : ∀ p, p.length ≤ d → ¬ q ++ [i] <+: p →
      descend (setChild child n i (some m)) r p = descend child r p := by
    intro p hp hpre
    apply descend_congr
    intro q' i' hq' n' hn'
    apply setChild_of_ne
    rintro ⟨rfl, rfl⟩
    have hlen := hq'.length_le
    simp only [List.length_append, List.length_singleton] at hlen
    have heq : q' = q := ht q' q n' (by omega) (by omega) hn' hn
    exact hpre (heq ▸ hq')
  by_cases hpre : q ++ [i] <+: p
  · obtain ⟨t, rfl⟩ := hpre
    have hqi : ¬ q ++ [i] <+: q := fun h => by
      have := h.length_le
      simp only [List.length_append, List.length_singleton] at this
      omega
    have hq' : descend (setChild child n i (some m)) r (q ++ [i]) = some m := by
      rw [descend_snoc ((havoid q (by omega) hqi).trans hn), setChild_self]
    rw [descend_append, hq']
    cases t with
    | nil => simp [descend]
    | cons j t =>
        have hne : m ≠ n := fun h => hfresh q (by omega) (h ▸ hn)
        have hj : setChild child n i (some m) m j = none := by
          rw [setChild_of_ne fun h => hne h.1, hm]
        have hold : descend child r (q ++ [i] ++ j :: t) = none := by
          rw [descend_append, descend_snoc hn, hnone]
          rfl
        rw [if_neg (by simp), hold]
        simp only [Option.bind_some, descend, hj, Option.bind_none]
  · rw [havoid p hp hpre, if_neg]
    rintro rfl
    exact hpre (List.prefix_refl _)

theorem IsTree.setChild (ht : IsTree child r d) (hn : descend child r q = some n) (hq : q.length < d)
    (hnone : child n i = none) (hfresh : ∀ p, p.length ≤ d → descend child r p ≠ some m)
    (hm : ∀ j, child m j = none) : IsTree (setChild child n i (some m)) r d := by
  intro p p' a hp hp' hpa hpa'
  rw [descend_setChild ht hn hq hnone hfresh hm hp] at hpa
  rw [descend_setChild ht hn hq hnone hfresh hm hp'] at hpa'
  split_ifs at hpa hpa' with h h' h'
  · exact h.trans h'.symm
  · cases hpa
    exact absurd hpa' (hfresh p' hp')
  · cases hpa'
    exact absurd hpa (hfresh p hp)
  · exact ht p p' a hp hp' hpa hpa'

end SetChild

end Lib.Radix
