import HaOS.Lib.Bytes
import Mathlib.Logic.Function.Basic

/-!
# Memories that remember their writes

* `Buffer` : a memory, and the places written so far; `put` writes one place, `puts` a list;
* `Writes P b b'` : from `b` to `b'` only places in `P` were written, and the others are as before;
* `swaps` : the loop that reverses an interval in place; `slice_swaps`, `writes_swaps`.
-/

namespace Lib

/-- A memory, and the places that were written, the last first. -/
structure Buffer (α : Type*) where
  get : Nat → α
  written : List Nat

namespace Buffer

variable {α : Type*} {P Q : Nat → Prop} {b b' b'' : Buffer α} {i j n p : Nat} {a : α} {bs cs : List α}

def put (b : Buffer α) (i : Nat) (a : α) : Buffer α := ⟨Function.update b.get i a, i :: b.written⟩

@[simp] theorem get_put_self (b : Buffer α) (i : Nat) (a : α) : (b.put i a).get i = a := Function.update_self ..

theorem get_put_of_ne (b : Buffer α) (a : α) (h : j ≠ i) : (b.put i a).get j = b.get j := Function.update_of_ne h ..

def puts (b : Buffer α) : Nat → List α → Buffer α
  | _, [] => b
  | p, a :: bs => (b.put p a).puts (p + 1) bs

/-- Only places in `P` were written, and places that were not are as before. -/
def Writes (P : Nat → Prop) (b b' : Buffer α) : Prop :=
  ∃ log, b'.written = log ++ b.written ∧ (∀ i ∈ log, P i) ∧ ∀ i, i ∉ log → b'.get i = b.get i

theorem Writes.refl (P : Nat → Prop) (b : Buffer α) : Writes P b b :=
  ⟨[], rfl, fun _ h => absurd h List.not_mem_nil, fun _ _ => rfl⟩

theorem Writes.trans (h : Writes P b b') (h' : Writes P b' b'') : Writes P b b'' := by
  obtain ⟨log, hlog, hin, hout⟩ := h
  obtain ⟨log', hlog', hin', hout'⟩ := h'
  refine ⟨log' ++ log, by rw [hlog', hlog, List.append_assoc], fun i hi => ?_, fun i hi => ?_⟩
  · rcases List.mem_append.mp hi with hi | hi
    · exact hin' i hi
    · exact hin i hi
  · rw [hout' i fun h => hi (List.mem_append_left _ h), hout i fun h => hi (List.mem_append_right _ h)]

theorem Writes.mono (h : Writes P b b') (hPQ : ∀ i, P i → Q i) : Writes Q b b' := by
  obtain ⟨log, hlog, hin, hout⟩ := h
  exact ⟨log, hlog, fun i hi => hPQ i (hin i hi), hout⟩

theorem Writes.get (h : Writes P b b') (hi : ¬ P i) : b'.get i = b.get i := by
  obtain ⟨log, -, hin, hout⟩ := h
  exact hout i fun hmem => hi (hin i hmem)

theorem Writes.mem (h : Writes P b b') (hi : i ∈ b'.written) : i ∈ b.written ∨ P i := by
  obtain ⟨log, hlog, hin, -⟩ := h
  rw [hlog] at hi
  rcases List.mem_append.mp hi with hi | hi
  · exact .inr (hin i hi)
  · exact .inl hi

theorem writes_put (b : Buffer α) (a : α) (hi : P i) : Writes P b (b.put i a) := by
  refine ⟨[i], rfl, fun j hj => ?_, fun j hj => get_put_of_ne b a fun h => hj (List.mem_singleton.mpr h)⟩
  rw [List.mem_singleton.mp hj]
  exact hi

theorem writes_puts (b : Buffer α) (p : Nat) (bs : List α) :
    Writes (fun i => p ≤ i ∧ i < p + bs.length) b (b.puts p bs) := by
  induction bs generalizing b p with
  | nil => exact Writes.refl _ b
  | cons a bs ih =>
      apply (writes_put b a (i := p) _).trans
      · apply (ih (b.put p a) (p + 1)).mono
        intro i hi
        rw [List.length_cons]
        omega
      · rw [List.length_cons]
        omega

theorem slice_puts (b : Buffer α) (p : Nat) (bs : List α) : slice (b.puts p bs).get p bs.length = bs := by
  induction bs generalizing b p with
  | nil => rfl
  | cons a bs ih =>
      have hfirst : ((b.put p a).puts (p + 1) bs).get p = a := by
        rw [(writes_puts (b.put p a) (p + 1) bs).get (by omega), get_put_self]
      rw [List.length_cons, Nat.add_comm, slice_add, puts, ih]
      show [((b.put p a).puts (p + 1) bs).get p] ++ bs = a :: bs
      rw [hfirst]
      rfl

theorem puts_append (b : Buffer α) (p : Nat) (bs cs : List α) :
    b.puts p (bs ++ cs) = (b.puts p bs).puts (p + bs.length) cs := by
  induction bs generalizing b p with
  | nil => rfl
  | cons a bs ih =>
      rw [List.cons_append, puts, ih, puts, List.length_cons, Nat.add_assoc, Nat.add_comm 1]

/-! ## Reversal in place -/

/-- The values at `i` and `j` change places, then those further inside. -/
def swaps (b : Buffer α) (i j : Nat) : Buffer α :=
  if i < j then ((b.put i (b.get j)).put j (b.get i)).swaps (i + 1) (j - 1) else b
termination_by j - i

theorem swaps_of_le (h : j ≤ i) : b.swaps i j = b := by
  rw [swaps, if_neg (Nat.not_lt.mpr h)]

theorem writes_swaps (b : Buffer α) (i j : Nat) : Writes (fun k => i ≤ k ∧ k ≤ j) b (b.swaps i j) := by
  induction b, i, j using swaps.induct with
  | case1 b i j hij ih =>
      rw [swaps, if_pos hij]
      have hi : Writes (fun k => i ≤ k ∧ k ≤ j) b (b.put i (b.get j)) := writes_put b _ (by omega)
      have hj : Writes (fun k => i ≤ k ∧ k ≤ j) (b.put i (b.get j)) ((b.put i (b.get j)).put j (b.get i)) :=
        writes_put _ _ (by omega)
      exact (hi.trans hj).trans (ih.mono fun k hk => by omega)
  | case2 b i j hij =>
      rw [swaps, if_neg hij]
      exact Writes.refl _ b

theorem get_swaps (b : Buffer α) {i j k : Nat} (hi : i ≤ k) (hj : k ≤ j) : (b.swaps i j).get k = b.get (i + j - k) := by
  induction b, i, j using swaps.induct with
  | case1 b i j hij ih =>
      rw [swaps, if_pos hij]
      have hrest := writes_swaps ((b.put i (b.get j)).put j (b.get i)) (i + 1) (j - 1)
      by_cases hki : k = i
      · rw [hrest.get (by omega), hki, get_put_of_ne _ _ (by omega), get_put_self, show i + j - i = j by omega]
      · by_cases hkj : k = j
        · rw [hrest.get (by omega), hkj, get_put_self, show i + j - j = i by omega]
        · rw [ih (by omega) (by omega), get_put_of_ne _ _ (by omega), get_put_of_ne _ _ (by omega),
            show i + 1 + (j - 1) - k = i + j - k by omega]
  | case2 b i j hij =>
      rw [swaps, if_neg hij, show i + j - k = k by omega]

/-- An interval read backwards. -/
theorem slice_swaps (b : Buffer α) (n : Nat) : slice (b.swaps 0 (n - 1)).get 0 n = (slice b.get 0 n).reverse := by
  apply List.ext_getElem
  · simp only [List.length_reverse, length_slice]
  · intro k h1 h2
    have hk : k < n := by simpa only [length_slice] using h1
    simp only [slice, List.getElem_map, List.getElem_range, List.getElem_reverse, List.length_map, List.length_range,
      Nat.zero_add]
    rw [get_swaps b (Nat.zero_le k) (by omega), Nat.zero_add]

end Buffer

end Lib
