import Mathlib.Logic.Equiv.Basic
import HaOS.Paging.Refine

/-!
# Tables in other frames

* `Renaming` : a permutation of the frames; `Renaming.entry`, `Renaming.state` : an entry and a memory under it;
* `mem_state`, `table_state`, `walk_state` : the permuted tables lie at the same paths and name the permuted frames;
* `state_store`, `state_setBit` : what is written to one memory is written to the other.
-/

namespace HaOS.Paging

/-- The numbers that an entry can hold stay such numbers, and an empty entry stays empty. -/
structure Renaming where
  place : Equiv.Perm Nat
  lt : ∀ f < 2 ^ 40, place f < 2 ^ 40
  zero : place 0 = 0

namespace Renaming

def entry (ρ : Renaming) (e : Nat) : Nat := e % pageSize + ρ.place (frameOf e) * pageSize + e / 2 ^ 52 * 2 ^ 52

/-- The frames change their places with all that is in them; the bits stay. -/
def state (ρ : Renaming) (s : State) : State :=
  { mem := fun f i => ρ.entry (s.mem (ρ.place.symm f) i)
    bitmap := s.bitmap
    pmlt4 := ρ.entry s.pmlt4
    refused := s.refused }

variable {ρ : Renaming} {s t : State} {p : List Index} {i : Index} {a e f g flags v : Nat}

theorem place_frameOf_lt (ρ : Renaming) (e : Nat) : ρ.place (frameOf e) < 2 ^ 40 :=
  ρ.lt _ (Nat.mod_lt _ (by decide))

/-! ## Entries -/

theorem frameOf_entry (ρ : Renaming) (e : Nat) : frameOf (ρ.entry e) = ρ.place (frameOf e) := by
  have h := ρ.place_frameOf_lt e
  unfold entry
  generalize ρ.place (frameOf e) = x at h ⊢
  unfold frameOf pageSize
  omega

theorem entry_mod (ρ : Renaming) (e : Nat) : ρ.entry e % pageSize = e % pageSize := by
  unfold entry
  generalize ρ.place (frameOf e) = x
  unfold pageSize
  omega

theorem entry_div (ρ : Renaming) (e : Nat) : ρ.entry e / 2 ^ 52 = e / 2 ^ 52 := by
  have h := ρ.place_frameOf_lt e
  unfold entry
  generalize ρ.place (frameOf e) = x at h ⊢
  unfold pageSize
  omega

theorem eq_of_parts {e e' : Nat} (hlow : e % pageSize = e' % pageSize) (hframe : frameOf e = frameOf e')
    (hhigh : e / 2 ^ 52 = e' / 2 ^ 52) : e = e' := by
  unfold frameOf pageSize at *
  omega

theorem entry_injective (ρ : Renaming) : Function.Injective ρ.entry := by
  intro e e' h
  have hlow := congrArg (· % pageSize) h
  have hframe := congrArg frameOf h
  have hhigh := congrArg (· / 2 ^ 52) h
  simp only [entry_mod, frameOf_entry, entry_div] at hlow hframe hhigh
  exact eq_of_parts hlow (ρ.place.injective hframe) hhigh

@[simp] theorem entry_zero (ρ : Renaming) : ρ.entry 0 = 0 := by
  unfold entry
  rw [show frameOf 0 = 0 from rfl, ρ.zero]
  rfl

theorem entry_eq_zero : ρ.entry e = 0 ↔ e = 0 := by
  refine ⟨fun h => ρ.entry_injective (h.trans ρ.entry_zero.symm), ?_⟩
  rintro rfl
  exact ρ.entry_zero

theorem present_entry : Present (ρ.entry e) ↔ Present e := by
  have h := ρ.entry_mod e
  rw [present_iff, present_iff]
  unfold pageSize at h
  omega

theorem target_entry (ρ : Renaming) (e : Nat) : target (ρ.entry e) = (target e).map ρ.place := by
  unfold target
  simp only [present_entry, frameOf_entry]
  split_ifs <;> rfl

theorem or_mod (a flags : Nat) (h : flags < pageSize) : (a ||| flags) % pageSize = a % pageSize ||| flags := by
  rw [show pageSize = 2 ^ 12 from rfl] at *
  rw [Nat.or_mod_two_pow, Nat.mod_eq_of_lt h]

theorem or_div (a flags : Nat) (h : flags < pageSize) : (a ||| flags) / 2 ^ 52 = a / 2 ^ 52 := by
  rw [Nat.or_div_two_pow, Nat.div_eq_of_lt (Nat.lt_trans h (by decide)), Nat.or_zero]

theorem entry_or (ρ : Renaming) (h : flags < pageSize) (a : Nat) : ρ.entry (a ||| flags) = ρ.entry a ||| flags := by
  apply eq_of_parts
  · rw [entry_mod, or_mod _ _ h, or_mod _ _ h, entry_mod]
  · rw [frameOf_entry, frameOf_or h, frameOf_or h, frameOf_entry]
  · rw [entry_div, or_div _ _ h, or_div _ _ h, entry_div]

theorem entry_mul (ρ : Renaming) (hf : f < 2 ^ 40) : ρ.entry (f * pageSize) = ρ.place f * pageSize := by
  have h := ρ.lt f hf
  unfold entry
  rw [frameOf_mul hf]
  unfold pageSize
  omega

theorem tableAddress_eq (e : Nat) : tableAddress e = e % 2 ^ 64 / 2 ^ 9 * 2 ^ 9 := by
  apply Nat.eq_of_testBit_eq
  intro j
  have hmask : (2 ^ 64 - 1 - 0x1ff).testBit j = (decide (9 ≤ j) && decide (j < 64)) := by
    by_cases hj : j < 64
    · interval_cases j <;> decide
    · rw [Nat.testBit_lt_two_pow (Nat.lt_of_lt_of_le (by decide) (Nat.pow_le_pow_right Nat.two_pos (not_lt.mp hj)))]
      simp [hj]
  rw [tableAddress, Nat.testBit_and, hmask, Nat.testBit_mul_two_pow, Nat.testBit_div_two_pow, Nat.testBit_mod_two_pow]
  by_cases hj : 9 ≤ j
  · rw [Nat.sub_add_cancel hj]
    simp [hj, Bool.and_comm]
  · simp [hj]

theorem entry_tableAddress (ρ : Renaming) (e : Nat) : ρ.entry (tableAddress e) = tableAddress (ρ.entry e) := by
  have h := ρ.place_frameOf_lt e
  unfold entry
  rw [frameOf_tableAddress, tableAddress_eq, tableAddress_eq]
  generalize ρ.place (frameOf e) = x at h ⊢
  unfold pageSize
  omega

/-! ## States -/

theorem mem_state (ρ : Renaming) (s : State) (f : Nat) (i : Index) :
    (ρ.state s).mem (ρ.place f) i = ρ.entry (s.mem f i) := by
  show ρ.entry (s.mem (ρ.place.symm (ρ.place f)) i) = _
  rw [Equiv.symm_apply_apply]

theorem bitmap_state (ρ : Renaming) (s : State) : (ρ.state s).bitmap = s.bitmap := by
  unfold state
  rfl

theorem refused_state (ρ : Renaming) (s : State) : (ρ.state s).refused = s.refused := by
  unfold state
  rfl

theorem root_state (ρ : Renaming) (s : State) : (ρ.state s).root = ρ.place s.root := ρ.frameOf_entry s.pmlt4

theorem state_ext {s t : State} (hmem : ∀ f i, s.mem f i = t.mem f i) (hbitmap : s.bitmap = t.bitmap)
    (hpmlt4 : s.pmlt4 = t.pmlt4) (href : s.refused = t.refused) : s = t := by
  cases s
  cases t
  simp only [State.mk.injEq]
  exact ⟨funext fun f => funext (hmem f), hbitmap, hpmlt4, href⟩

theorem state_store (ρ : Renaming) (s : State) (f : Nat) (i : Index) (e : Nat) :
    ρ.state (s.store f i e) = (ρ.state s).store (ρ.place f) i (ρ.entry e) := by
  refine state_ext (fun g j => ?_) rfl rfl rfl
  show ρ.entry (if ρ.place.symm g = f ∧ j = i then e else _) = if g = ρ.place f ∧ j = i then _ else _
  simp only [Equiv.symm_apply_eq]
  split_ifs <;> rfl

theorem state_setBit (ρ : Renaming) (s : State) (i j : Nat) : ρ.state (s.setBit i j) = (ρ.state s).setBit i j := rfl

theorem state_refuse (ρ : Renaming) (s : State) :
    ρ.state { s with refused := s.refused + 1 } = { ρ.state s with refused := (ρ.state s).refused + 1 } := by
  rw [refused_state]
  rfl

theorem child_state (ρ : Renaming) (s : State) (f : Nat) (i : Index) :
    child (ρ.state s).mem (ρ.place f) i = (child s.mem f i).map ρ.place := by
  unfold child
  rw [mem_state, target_entry]

theorem table_state (ρ : Renaming) (s : State) (p : List Index) : (ρ.state s).table p = (s.table p).map ρ.place := by
  unfold State.table
  rw [root_state]
  exact Lib.Radix.descend_map (ρ.child_state s) s.root p

theorem table_state_eq (ρ : Renaming) (s : State) (p : List Index) (f : Nat) :
    (ρ.state s).table p = some (ρ.place f) ↔ s.table p = some f := by
  rw [table_state]
  exact Option.map_injective ρ.place.injective |>.eq_iff (b := some f)

theorem has_state (ρ : Renaming) (s : State) (p : List Index) : (ρ.state s).has p = s.has p := by
  rw [State.has, State.has, table_state, Option.isSome_map]

theorem entry_state (ρ : Renaming) (s : State) (p : List Index) (i : Index) :
    (ρ.state s).entry p i = ρ.entry (s.entry p i) := by
  cases h : s.table p with
  | none => rw [entry_of_none h, entry_of_none (by rw [table_state, h]; rfl), entry_zero]
  | some f => rw [entry_of_table h, entry_of_table ((ρ.table_state_eq s p f).mpr h), mem_state]

theorem walk_state (ρ : Renaming) (s : State) (v : Nat) : walk (ρ.state s) v = ρ.entry (walk s v) :=
  ρ.entry_state s _ _

end Renaming

end HaOS.Paging
