import Mathlib.Data.Set.Basic

/-!
# Caches of translations

A processor keeps translations it has found in the tables. It may look one up and keep it at any time, and it may forget
one at any time; only a flush makes sure that one is gone.

* `Fills walk c c'` : what the cache may do on its own; `see` : what an access finds; `drop` : a flush;
* `changed walk walk'` : the pages whose translation a change of the tables takes away;
* `Sound walk D c` : the cached translations are those of the tables, except at the stale pages `D`;
  `Sound.step`, `Sound.drop`, `Sound.see`.
-/

namespace Lib.Tlb

variable {V E : Type*} {walk walk' : V → Option E} {c c' : V → Option E} {D D' : Set V} {v w : V}

/-- Between two accesses any entry may be forgotten or looked up anew. -/
def Fills (walk c c' : V → Option E) : Prop := ∀ v, c' v = none ∨ c' v = c v ∨ c' v = walk v

/-- The translation that an access uses. -/
def see (walk c : V → Option E) (v : V) : Option E := (c v).or (walk v)

def drop [DecidableEq V] (c : V → Option E) (v : V) : V → Option E := fun w => if w = v then none else c w

def changed (walk walk' : V → Option E) : Set V := {v | ∃ e, walk v = some e ∧ walk' v ≠ some e}

def Sound (walk : V → Option E) (D : Set V) (c : V → Option E) : Prop := ∀ v, v ∉ D → ∀ e, c v = some e → walk v = some e

theorem Fills.refl (walk c : V → Option E) : Fills walk c c := fun _ => .inr (.inl rfl)

theorem Sound.mono (h : Sound walk D c) (hD : D ⊆ D') : Sound walk D' c := fun v hv => h v fun h' => hv (hD h')

theorem Sound.fills (h : Sound walk D c) (hc : Fills walk c c') : Sound walk D c' := by
  intro v hv e he
  obtain hn | ho | hw := hc v
  · rw [hn] at he
    cases he
  · exact h v hv e (ho ▸ he)
  · exact hw ▸ he

/-- A change of the tables leaves stale the translations it takes away. -/
theorem Sound.change (h : Sound walk D c) : Sound walk' (D ∪ changed walk walk') c := by
  intro v hv e he
  have hold := h v (fun hd => hv (.inl hd)) e he
  by_contra hne
  exact hv (.inr ⟨e, hold, hne⟩)

theorem Sound.drop [DecidableEq V] (h : Sound walk D c) (v : V) : Sound walk (D \ {v}) (drop c v) := by
  intro w hw e he
  unfold Tlb.drop at he
  split_ifs at he with hwv
  exact h w (fun hd => hw ⟨hd, hwv⟩) e he

/-- Where the cache is not stale an access uses the translation of the tables. -/
theorem Sound.see (h : Sound walk D c) (hv : v ∉ D) : see walk c v = walk v := by
  unfold Tlb.see
  cases hc : c v with
  | none => rfl
  | some e => exact (h v hv e hc).symm

theorem changed_self (walk : V → Option E) : changed walk walk = ∅ := by
  ext v
  exact iff_of_false (fun ⟨_, h, h'⟩ => h' h) fun h => h

end Lib.Tlb
