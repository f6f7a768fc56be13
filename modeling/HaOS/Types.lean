import Mathlib.Algebra.Order.Ring.Nat
import Mathlib.Data.Nat.Notation
import Mathlib.Tactic.Common

/-!
# Fixed-width arithmetic

C values are natural numbers taken modulo the width of their type:

* `byte`, `word`, `dword`, `qword` : truncation to 8, 16, 32 and 64 bits;
* `qsub` : subtraction of two qwords;
* `sext32` : a 32-bit `int` widened to a qword.
-/

namespace HaOS

def word (n : Nat) : Nat := n % 2 ^ 16

def dword (n : Nat) : Nat := n % 2 ^ 32

def qword (n : Nat) : Nat := n % 2 ^ 64

/-- `a - b` on qwords. -/
def qsub (a b : Nat) : Nat := (a + (2 ^ 64 - b)) % 2 ^ 64

/-- A 32-bit `int` used in a qword expression: the sign bit fills the upper half. -/
def sext32 (n : Nat) : Nat := if n % 2 ^ 32 < 2 ^ 31 then n % 2 ^ 32 else 2 ^ 64 - 2 ^ 32 + n % 2 ^ 32

theorem word_of_lt {n : Nat} (h : n < 2 ^ 16) : word n = n := Nat.mod_eq_of_lt h

theorem dword_of_lt {n : Nat} (h : n < 2 ^ 32) : dword n = n := Nat.mod_eq_of_lt h

theorem qword_of_lt {n : Nat} (h : n < 2 ^ 64) : qword n = n := Nat.mod_eq_of_lt h

theorem qword_lt (n : Nat) : qword n < 2 ^ 64 := Nat.mod_lt _ (by decide)

theorem qsub_of_le {a b : Nat} (ha : a < 2 ^ 64) (hb : b ≤ a) : qsub a b = a - b := by
  unfold qsub
  omega

theorem sext32_of_lt {n : Nat} (h : n < 2 ^ 31) : sext32 n = n := by
  unfold sext32
  rw [Nat.mod_eq_of_lt (by omega), if_pos h]

end HaOS
