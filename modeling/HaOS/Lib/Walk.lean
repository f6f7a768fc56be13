import HaOS.Lib.Chain
import Mathlib.Data.Fintype.Pigeonhole
import Mathlib.Logic.Function.Iterate

/-!
# Walks that stop

`Walk f stop a l` : following `f` from `a`, the cells passed before the first one where it stops are `l`. A walk exists
exactly when some iterate stops (`exists_walk_iff`), it comes to no cell twice (`Walk.nodup`), and in a finite set it
exists exactly when following `f` does not come back before it stops (`exists_stop_iff`).
-/

namespace Lib

variable {α : Type*} {f : α → α} {stop : α → Prop} {a : α} {l m : List α}

inductive Walk (f : α → α) (stop : α → Prop) : α → List α → Prop
  | done {a : α} : stop a → Walk f stop a []
  | pass {a : α} {l : List α} : ¬ stop a → Walk f stop (f a) l → Walk f stop a (a :: l)

theorem Walk.unique (h : Walk f stop a l) (h' : Walk f stop a m) : l = m := by
  induction h generalizing m with
  | done ha =>
      cases h' with
      | done => rfl
      | pass hn _ => exact absurd ha hn
  | pass hn _ ih =>
      cases h' with
      | done ha => exact absurd ha hn
      | pass _ ht => rw [ih ht]

theorem Walk.getElem (h : Walk f stop a l) : ∀ {n : Nat} (hn : n < l.length), l[n] = f^[n] a := by
  induction h with
  | done => exact fun hn => absurd hn (Nat.not_lt_zero _)
  | pass _ _ ih =>
      intro n hn
      cases n with
      | zero => rfl
      | succ n => exact ih (by simpa using hn)

theorem Walk.stops (h : Walk f stop a l) : stop (f^[l.length] a) := by
  induction h with
  | done ha => exact ha
  | pass _ _ ih => exact ih

theorem exists_walk_iff : (∃ l, Walk f stop a l) ↔ ∃ n, stop (f^[n] a) := by
  constructor
  · rintro ⟨l, h⟩
    exact ⟨l.length, h.stops⟩
  · rintro ⟨n, hn⟩
    induction n generalizing a with
    | zero => exact ⟨[], .done hn⟩
    | succ n ih =>
        by_cases ha : stop a
        · exact ⟨[], .done ha⟩
        · obtain ⟨l, hl⟩ := ih hn
          exact ⟨a :: l, .pass ha hl⟩

/-- The cells that are passed are a chain of the cells behind which it does not stop. -/
theorem Walk.chain [DecidablePred stop] (h : Walk f stop a l) (ha : ¬ stop a) :
    Chain (fun x => if stop (f x) then none else some (f x)) a l := by
  induction h with
  | done hstop => exact absurd hstop ha
  | @pass a l _ ht ih =>
      by_cases hnext : stop (f a)
      · cases ht with
        | done => exact .last (if_pos hnext)
        | pass hn _ => exact absurd hnext hn
      · exact .link (if_neg hnext) (ih hnext)

theorem Walk.nodup (h : Walk f stop a l) : l.Nodup := by
  classical
  by_cases ha : stop a
  · rw [h.unique (.done ha)]
    exact List.nodup_nil
  · exact (h.chain ha).nodup

theorem iterate_of_return {i j : Nat} (hij : i < j) (heq : f^[i] a = f^[j] a) (k : Nat) :
    ∃ n ≤ j, f^[k] a = f^[n] a := by
  induction k with
  | zero => exact ⟨0, Nat.zero_le _, rfl⟩
  | succ k ih =>
      obtain ⟨n, hn, hk⟩ := ih
      rcases Nat.lt_or_eq_of_le hn with hlt | rfl
      · exact ⟨n + 1, hlt, by rw [Function.iterate_succ_apply', hk, Function.iterate_succ_apply']⟩
      · exact ⟨i + 1, hij, by rw [Function.iterate_succ_apply', hk, ← heq, Function.iterate_succ_apply']⟩

/-- With finitely many cells to go to, following `f` stops exactly when it does not come back before. -/
theorem exists_stop_iff {s : Finset α} (hs : ∀ x, f x ∈ s) :
    (∃ n, stop (f^[n] a)) ↔ ¬ ∃ i j, i < j ∧ f^[i] a = f^[j] a ∧ ∀ k ≤ j, ¬ stop (f^[k] a) := by
  constructor
  · rintro ⟨n, hn⟩ ⟨i, j, hij, heq, hnot⟩
    obtain ⟨m, hm, heq'⟩ := iterate_of_return hij heq n
    exact hnot m hm (heq' ▸ hn)
  · intro h
    by_contra hnever
    rw [not_exists] at hnever
    have hmem : ∀ k, f^[k + 1] a ∈ s := fun k => by
      rw [Function.iterate_succ_apply']
      exact hs _
    obtain ⟨i, j, hne, heq⟩ := Finite.exists_ne_map_eq_of_infinite fun k : Nat => (⟨f^[k + 1] a, hmem k⟩ : s)
    have heq := congrArg Subtype.val heq
    rcases Nat.lt_or_gt_of_ne hne with hlt | hlt
    · exact h ⟨i + 1, j + 1, Nat.succ_lt_succ hlt, heq, fun k _ => hnever k⟩
    · exact h ⟨j + 1, i + 1, Nat.succ_lt_succ hlt, heq.symm, fun k _ => hnever k⟩

end Lib
