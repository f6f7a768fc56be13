import Mathlib.Algebra.Order.Ring.Nat
import Mathlib.Data.List.Nodup
import Mathlib.Logic.Function.Basic

/-!
# Chains of a successor function

`Chain succ a l` : following `succ` from `a` visits exactly the list `l` and then ends. A chain is determined by its
start (`Chain.unique`), never repeats a cell (`Chain.nodup`), and only depends on `succ` at its own cells
(`Chain.congr`). A cell is added behind the last one by `Chain.snoc` and taken out by `Chain.unlink`.
-/

namespace Lib

variable {α : Type*} {succ succ' : α → Option α} {a b c : α} {l m : List α}

/-- Following `succ` from `a` visits exactly `l`, and then ends. -/
inductive Chain (succ : α → Option α) : α → List α → Prop
  | last {a : α} : succ a = none → Chain succ a [a]
  | link {a b : α} {l : List α} : succ a = some b → Chain succ b l → Chain succ a (a :: l)

theorem Chain.head_mem (h : Chain succ a l) : a ∈ l := by
  cases h <;> simp

theorem Chain.head? (h : Chain succ a l) : l.head? = some a := by
  cases h <;> simp

theorem Chain.ne_nil (h : Chain succ a l) : l ≠ [] := List.ne_nil_of_mem h.head_mem

theorem Chain.unique (h : Chain succ a l) (h' : Chain succ a m) : l = m := by
  induction h generalizing m with
  | last ha =>
      cases h' with
      | last => rfl
      | link hb _ => rw [ha] at hb; cases hb
  | link hb _ ih =>
      cases h' with
      | last ha => rw [ha] at hb; cases hb
      | link hb' ht =>
          rw [hb, Option.some.injEq] at hb'
          rw [ih (hb' ▸ ht)]

theorem Chain.drop (h : Chain succ a l) : ∀ {n : Nat} (hn : n < l.length), Chain succ l[n] (l.drop n) := by
  induction h with
  | last ha =>
      intro n hn
      obtain rfl : n = 0 := by simpa using hn
      exact .last ha
  | link hb ht ih =>
      intro n hn
      cases n with
      | zero => exact .link hb ht
      | succ n => exact ih (by simpa using hn)

theorem Chain.nodup (h : Chain succ a l) : l.Nodup := by
  rw [List.nodup_iff_injective_getElem]
  rintro ⟨i, hi⟩ ⟨j, hj⟩ hij
  simp only at hij
  have hi' := h.drop hi
  rw [hij] at hi'
  have := congrArg List.length (hi'.unique (h.drop hj))
  simp only [List.length_drop] at this
  exact Fin.ext (by simp only; omega)

theorem Chain.succ_getElem (h : Chain succ a l) :
    ∀ {n : Nat} (hn : n + 1 < l.length), succ l[n] = some l[n + 1] := by
  induction h with
  | last => intro n hn; simp at hn
  | link hb ht ih =>
      intro n hn
      cases n with
      | zero =>
          have hl := ht.head?
          rw [List.head?_eq_getElem?, List.getElem?_eq_some_iff] at hl
          obtain ⟨_, hl⟩ := hl
          simpa [hl] using hb
      | succ n => simpa using ih (by simpa using hn)

theorem Chain.succ_last (h : Chain succ a l) : ∀ {n : Nat} (hn : n + 1 = l.length), succ (l.get ⟨n, by omega⟩) = none := by
  induction h with
  | last ha =>
      intro n hn
      obtain rfl : n = 0 := by simpa using hn
      exact ha
  | link _ ht ih =>
      intro n hn
      cases n with
      | zero => exact absurd (List.length_eq_zero_iff.mp (by simpa using hn.symm)) ht.ne_nil
      | succ n => simpa using ih (by simpa using hn)

theorem Chain.congr (h : Chain succ a l) (hl : ∀ x ∈ l, succ' x = succ x) : Chain succ' a l := by
  induction h with
  | last ha => exact .last ((hl _ (by simp)).trans ha)
  | link hb _ ih =>
      exact .link ((hl _ (by simp)).trans hb) (ih fun x hx => hl x (List.mem_cons_of_mem _ hx))

theorem Chain.head_eq (h : Chain succ a (b :: l)) : a = b := by
  cases h <;> rfl

theorem Chain.tail (h : Chain succ a (a :: b :: l)) : succ a = some b ∧ Chain succ b (b :: l) := by
  cases h with
  | link hb ht =>
      obtain rfl := ht.head_eq
      exact ⟨hb, ht⟩

theorem Chain.succ_mem (h : Chain succ a l) (hb : b ∈ l) (hc : succ b = some c) : c ∈ l := by
  induction h with
  | last ha =>
      rw [List.mem_singleton] at hb
      rw [hb, ha] at hc
      cases hc
  | link hd ht ih =>
      rcases List.mem_cons.mp hb with rfl | hb
      · rw [hd, Option.some.injEq] at hc
        exact List.mem_cons_of_mem _ (hc ▸ ht.head_mem)
      · exact List.mem_cons_of_mem _ (ih hb)

theorem Chain.snoc (h : Chain succ a (l ++ [b])) (hb : succ' b = some c) (hc : succ' c = none)
    (hl : ∀ x ∈ l, succ' x = succ x) : Chain succ' a (l ++ [b, c]) := by
  induction l generalizing a with
  | nil =>
      obtain rfl := h.head_eq
      exact .link hb (.last hc)
  | cons x l ih =>
      obtain rfl := h.head_eq
      obtain ⟨d, m, hd⟩ := List.exists_cons_of_ne_nil (l := l ++ [b]) (by simp)
      rw [List.cons_append, hd] at h
      obtain ⟨hx, ht⟩ := h.tail
      rw [← hd] at ht
      exact .link ((hl a (by simp)).trans hx) (ih ht fun y hy => hl y (List.mem_cons_of_mem _ hy))

/-- A cell is taken out: the one before it leads to the one behind it. -/
theorem Chain.unlink (h : Chain succ a (l ++ b :: c :: m)) (hb : succ' b = succ c)
    (hl : ∀ x ∈ l ++ m, succ' x = succ x) : Chain succ' a (l ++ b :: m) := by
  induction l generalizing a with
  | nil =>
      obtain rfl := h.head_eq
      obtain ⟨-, hc⟩ := h.tail
      cases m with
      | nil =>
          cases hc with
          | last hn => exact .last (hb.trans hn)
          | link _ ht => exact absurd rfl ht.ne_nil
      | cons d m =>
          obtain ⟨hd, ht⟩ := hc.tail
          exact .link (hb.trans hd) (ht.congr fun x hx => hl x (by simpa using hx))
  | cons x l ih =>
      obtain rfl := h.head_eq
      obtain ⟨d, k, hd⟩ := List.exists_cons_of_ne_nil (l := l ++ b :: c :: m) (by simp)
      rw [List.cons_append, hd] at h
      obtain ⟨hx, ht⟩ := h.tail
      rw [← hd] at ht
      exact .link ((hl a (by simp)).trans hx) (ih ht fun y hy => hl y (by simp at hy ⊢; tauto))

end Lib
