import Mathlib.Algebra.Order.Ring.Nat
import Mathlib.Logic.Function.Basic
import Mathlib.Tactic.Common

/-!
# Stacks of 64-bit words

The memory is read word by word, at the addresses of the words.

* `pushWords mem sp ws` : the memory after pushing `ws` one after another below `sp`;
* `WordsAt mem sp ws` : the words from `sp` upwards are `ws`;
* `wordsAt_pushWords` : what was pushed lies there in reverse order; `pushWords_of_ne` : nothing else is written.
-/

namespace Lib

variable {mem mem' : BitVec 64 → BitVec 64} {sp x : BitVec 64} {ws : List (BitVec 64)}

/-- The memory after pushing `ws` below `sp`. -/
def pushWords (mem : BitVec 64 → BitVec 64) : BitVec 64 → List (BitVec 64) → BitVec 64 → BitVec 64
  | _, [] => mem
  | sp, w :: ws => pushWords (Function.update mem (sp - 8) w) (sp - 8) ws

/-- The words from `sp` upwards are `ws`. -/
def WordsAt (mem : BitVec 64 → BitVec 64) (sp : BitVec 64) (ws : List (BitVec 64)) : Prop :=
  ∀ i (h : i < ws.length), mem (sp + BitVec.ofNat 64 (8 * i)) = ws[i]

theorem pushWords_of_ne (h : ∀ i < ws.length, x ≠ sp - BitVec.ofNat 64 (8 * (i + 1))) :
    pushWords mem sp ws x = mem x := by
  induction ws generalizing mem sp with
  | nil => rfl
  | cons w ws ih =>
      rw [pushWords, ih fun i hi hx => h (i + 1) (by simpa using hi) ?_]
      · exact Function.update_of_ne (by simpa using h 0 (by simp)) _ _
      · rw [hx]
        bv_omega

/-- The word pushed as number `i` lies `i + 1` words below the old top. -/
theorem pushWords_at (mem : BitVec 64 → BitVec 64) (sp : BitVec 64) (hlen : ws.length < 2 ^ 60) {i : Nat}
    (hi : i < ws.length) : pushWords mem sp ws (sp - BitVec.ofNat 64 (8 * (i + 1))) = ws[i] := by
  induction ws generalizing mem sp i with
  | nil => simp at hi
  | cons w ws ih =>
      rw [List.length_cons] at hlen hi
      rw [pushWords]
      cases i with
      | zero =>
          rw [pushWords_of_ne]
          · simp
          · intro j hj
            bv_omega
      | succ i =>
          have := ih (Function.update mem (sp - 8) w) (sp - 8) (by omega) (i := i) (by omega)
          rw [List.getElem_cons_succ, ← this]
          congr 1
          bv_omega

theorem wordsAt_pushWords (mem : BitVec 64 → BitVec 64) (sp : BitVec 64) (hlen : ws.length < 2 ^ 60) :
    WordsAt (pushWords mem sp ws) (sp - BitVec.ofNat 64 (8 * ws.length)) ws.reverse := by
  intro i hi
  rw [List.length_reverse] at hi
  rw [List.getElem_reverse, ← pushWords_at mem sp hlen (show ws.length - 1 - i < ws.length by omega)]
  congr 1
  bv_omega

theorem wordsAt_nil : WordsAt mem sp [] := nofun

theorem wordsAt_cons {w : BitVec 64} : WordsAt mem sp (w :: ws) ↔ mem sp = w ∧ WordsAt mem (sp + 8#64) ws := by
  constructor
  · intro h
    have h0 := h 0 (Nat.zero_lt_succ _)
    rw [List.getElem_cons_zero] at h0
    refine ⟨by simpa using h0, fun i hi => ?_⟩
    rw [← List.getElem_cons_succ w ws i (by simpa using hi), ← h (i + 1) (by simpa using hi)]
    congr 1
    bv_omega
  · rintro ⟨h0, h⟩ i hi
    cases i with
    | zero =>
        rw [List.getElem_cons_zero]
        simpa using h0
    | succ i =>
        rw [List.getElem_cons_succ, ← h i (by simpa using hi)]
        congr 1
        bv_omega

theorem wordsAt_append {ws' : List (BitVec 64)} :
    WordsAt mem sp (ws ++ ws') ↔ WordsAt mem sp ws ∧ WordsAt mem (sp + BitVec.ofNat 64 (8 * ws.length)) ws' := by
  induction ws generalizing sp with
  | nil =>
      rw [List.nil_append, List.length_nil, Nat.mul_zero, BitVec.add_zero]
      exact (and_iff_right wordsAt_nil).symm
  | cons w ws ih =>
      have hsp : sp + 8#64 + BitVec.ofNat 64 (8 * ws.length) = sp + BitVec.ofNat 64 (8 * (ws.length + 1)) := by
        bv_omega
      rw [List.cons_append, wordsAt_cons, wordsAt_cons, ih, List.length_cons, hsp, and_assoc]

theorem WordsAt.congr (h : WordsAt mem sp ws)
    (hm : ∀ i < ws.length, mem' (sp + BitVec.ofNat 64 (8 * i)) = mem (sp + BitVec.ofNat 64 (8 * i))) :
    WordsAt mem' sp ws :=
  fun i hi => (hm i hi).trans (h i hi)

end Lib
