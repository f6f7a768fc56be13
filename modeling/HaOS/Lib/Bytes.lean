import Mathlib.Algebra.Order.Ring.Nat
import Mathlib.Data.List.Range
import Mathlib.Tactic.Common

/-!
# Byte memories and slices

* `slice f p n` : the `n` values of `f` from `p` on; slices concatenate (`slice_add`) and depend on `f` inside only
  (`slice_congr`);
* `storeBytes m a bs` : the memory `m` with the list `bs` stored from `a` on (`storeBytes_in`, `storeBytes_out`);
* `byteOf q k`, `setByte q k b` : byte `k` of a number, and the number with another byte there;
* `littleEndian f p n` : the number in the `n` bytes from `p` on, `bytesOf q n` : the `n` lowest bytes of a number; one
  undoes the other (`bytesOf_littleEndian`).
-/

namespace Lib

variable {α : Type*} {f g m : Nat → α} {p n k a x : Nat} {bs : List α}

/-- The `n` values of `f` from `p` on. -/
def slice (f : Nat → α) (p n : Nat) : List α := (List.range n).map fun i => f (p + i)

@[simp] theorem length_slice (f : Nat → α) (p n : Nat) : (slice f p n).length = n := by simp [slice]

@[simp] theorem slice_zero (f : Nat → α) (p : Nat) : slice f p 0 = [] := rfl

theorem slice_add (f : Nat → α) (p n k : Nat) : slice f p (n + k) = slice f p n ++ slice f (p + n) k := by
  simp only [slice, List.range_add, List.map_append, List.map_map, Function.comp_def, Nat.add_assoc]

theorem getElem?_slice (h : k < n) : (slice f p n)[k]? = some (f (p + k)) := by
  simp [slice, h]

theorem slice_congr (h : ∀ i, i < n → f (p + i) = g (k + i)) : slice f p n = slice g k n := by
  unfold slice
  exact List.map_congr_left fun i hi => h i (List.mem_range.mp hi)

theorem slice_eq_iff : slice f p n = slice g k n ↔ ∀ i < n, f (p + i) = g (k + i) := by
  refine ⟨fun h i hi => ?_, slice_congr⟩
  have hget := congrArg (·[i]?) h
  simp only [getElem?_slice hi, Option.some.injEq] at hget
  exact hget

/-- The memory `m` with `bs` stored from `a` on. -/
def storeBytes (m : Nat → α) (a : Nat) (bs : List α) (x : Nat) : α :=
  if a ≤ x then (bs[x - a]?).getD (m x) else m x

theorem storeBytes_in {b : α} (h : bs[k]? = some b) : storeBytes m a bs (a + k) = b := by
  simp [storeBytes, h]

theorem storeBytes_out (h : x < a ∨ a + bs.length ≤ x) : storeBytes m a bs x = m x := by
  unfold storeBytes
  split_ifs with ha
  · rw [List.getElem?_eq_none (by omega), Option.getD_none]
  · rfl

@[simp] theorem storeBytes_nil (m : Nat → α) (a : Nat) : storeBytes m a [] = m :=
  funext fun _ => storeBytes_out (by simp only [List.length_nil]; omega)

theorem slice_storeBytes (m : Nat → α) (a : Nat) (bs : List α) : slice (storeBytes m a bs) a bs.length = bs := by
  refine List.ext_getElem (length_slice ..) fun i h1 h2 => ?_
  have hget := getElem?_slice (f := storeBytes m a bs) (p := a) h2
  rw [storeBytes_in (List.getElem?_eq_getElem h2)] at hget
  exact (List.getElem?_eq_some_iff.mp hget).2

/-- What is stored whatever the memory held tells how much it is. -/
theorem length_eq_of_storeBytes [Nontrivial α] (h : ∀ m : Nat → α, storeBytes m a bs = storeBytes m a cs) :
    bs.length = cs.length := by
  have hle : ∀ {bs cs : List α}, (∀ m : Nat → α, storeBytes m a bs = storeBytes m a cs) → cs.length ≤ bs.length := by
    intro bs cs h
    by_contra hlt
    have hlt : bs.length < cs.length := Nat.not_le.mp hlt
    obtain ⟨b, hb⟩ := exists_ne cs[bs.length]
    have hat := congrFun (h fun _ => b) (a + bs.length)
    rw [storeBytes_out (.inr (Nat.le_refl _)), storeBytes_in (List.getElem?_eq_getElem hlt)] at hat
    exact hb hat
  exact Nat.le_antisymm (hle fun m => (h m).symm) (hle h)

theorem storeBytes_append (m : Nat → α) (a : Nat) (bs cs : List α) :
    storeBytes (storeBytes m a bs) (a + bs.length) cs = storeBytes m a (bs ++ cs) := by
  funext x
  rcases Nat.lt_or_ge x (a + bs.length) with h | h
  · rw [storeBytes_out (.inl h)]
    unfold storeBytes
    split_ifs with ha
    · rw [List.getElem?_append_left (by omega)]
    · rfl
  · have hbs : storeBytes m a bs x = m x := storeBytes_out (.inr h)
    rw [storeBytes, if_pos h, hbs, storeBytes, if_pos (by omega), List.getElem?_append_right (by omega), Nat.sub_add_eq]

/-! ## Bytes of a number -/

def byteOf (q k : Nat) : UInt8 := UInt8.ofNat (q / 256 ^ k)

def setByte (q k : Nat) (b : UInt8) : Nat := q % 256 ^ k + 256 ^ k * (b.toNat + 256 * (q / 256 ^ (k + 1)))

theorem byteOf_eq_iff {q q' k j : Nat} : byteOf q k = byteOf q' j ↔ q / 256 ^ k % 256 = q' / 256 ^ j % 256 := by
  rw [byteOf, byteOf, ← UInt8.toNat_inj, UInt8.toNat_ofNat', UInt8.toNat_ofNat']

theorem setByte_div (q k : Nat) (b : UInt8) : setByte q k b / 256 ^ k = b.toNat + 256 * (q / 256 ^ (k + 1)) := by
  have hpos : 0 < 256 ^ k := Nat.pow_pos (by decide)
  rw [setByte, Nat.add_mul_div_left _ _ hpos, Nat.div_eq_of_lt (Nat.mod_lt q hpos), Nat.zero_add]

theorem byteOf_setByte (q k : Nat) (b : UInt8) : byteOf (setByte q k b) k = b := by
  have hb := b.toNat_lt
  rw [byteOf, setByte_div, ← UInt8.toNat_inj, UInt8.toNat_ofNat']
  omega

theorem byteOf_setByte_of_ne {q j k : Nat} (b : UInt8) (hne : j ≠ k) : byteOf (setByte q k b) j = byteOf q j := by
  rw [byteOf_eq_iff]
  rcases Nat.lt_or_gt_of_ne hne with hlt | hlt
  · -- the low bytes are those of `q % 256 ^ k`
    obtain ⟨m, rfl⟩ : ∃ m, k = j + (m + 1) := ⟨k - j - 1, by omega⟩
    have hpos : 0 < 256 ^ j := Nat.pow_pos (by decide)
    have hlow : q % 256 ^ (j + (m + 1)) / 256 ^ j = q / 256 ^ j % (256 * 256 ^ m) := by
      rw [Nat.pow_add, Nat.mod_mul_right_div_self, Nat.pow_succ']
    rw [setByte, Nat.pow_add, Nat.mul_assoc, Nat.add_mul_div_left _ _ hpos, ← Nat.pow_add, hlow, Nat.pow_succ',
      Nat.mul_assoc, Nat.add_mul_mod_self_left, Nat.mod_mul_right_mod]
  · obtain ⟨m, rfl⟩ : ∃ m, j = k + 1 + m := ⟨j - k - 1, by omega⟩
    have hb := b.toNat_lt
    have hhigh : (b.toNat + 256 * (q / 256 ^ (k + 1))) / 256 = q / 256 ^ (k + 1) := by omega
    rw [Nat.pow_add, Nat.pow_succ, ← Nat.div_div_eq_div_mul, ← Nat.div_div_eq_div_mul, setByte_div, hhigh,
      ← Nat.pow_succ, Nat.div_div_eq_div_mul]

/-- The number in the `n` bytes from `p` on, the lowest first. -/
def littleEndian (f : Nat → UInt8) (p : Nat) : Nat → Nat
  | 0 => 0
  | n + 1 => (f p).toNat + 256 * littleEndian f (p + 1) n

theorem littleEndian_congr {f g : Nat → UInt8} : ∀ {n p k : Nat}, (∀ i < n, f (p + i) = g (k + i)) →
    littleEndian f p n = littleEndian g k n
  | 0, _, _, _ => rfl
  | n + 1, p, k, h => by
      have hrest : littleEndian f (p + 1) n = littleEndian g (k + 1) n := by
        refine littleEndian_congr fun i hi => ?_
        rw [Nat.add_assoc, Nat.add_assoc, Nat.add_comm 1]
        exact h (i + 1) (Nat.succ_lt_succ hi)
      have hfirst := h 0 (Nat.succ_pos n)
      rw [Nat.add_zero, Nat.add_zero] at hfirst
      rw [littleEndian, littleEndian, hrest, hfirst]

theorem littleEndian_lt (f : Nat → UInt8) : ∀ (n p : Nat), littleEndian f p n < 256 ^ n
  | 0, _ => Nat.one_pos
  | n + 1, p => by
      have hb := (f p).toNat_lt
      have hrest := littleEndian_lt f n (p + 1)
      rw [littleEndian, Nat.pow_succ]
      omega

theorem byteOf_littleEndian (f : Nat → UInt8) : ∀ {n k p : Nat}, k < n → byteOf (littleEndian f p n) k = f (p + k)
  | n + 1, 0, p, _ => by
      have hb := (f p).toNat_lt
      rw [littleEndian, byteOf, ← UInt8.toNat_inj, UInt8.toNat_ofNat', Nat.add_zero p, Nat.pow_zero, Nat.div_one]
      omega
  | n + 1, k + 1, p, hk => by
      have hb := (f p).toNat_lt
      have hrest : (littleEndian f p (n + 1)) / 256 = littleEndian f (p + 1) n := by
        rw [littleEndian]
        omega
      have hnext := byteOf_littleEndian f (p := p + 1) (Nat.lt_of_succ_lt_succ hk)
      rw [byteOf, Nat.pow_succ', ← Nat.div_div_eq_div_mul, hrest]
      rw [byteOf] at hnext
      rw [hnext, Nat.add_assoc, Nat.add_comm 1]

def bytesOf (q n : Nat) : List UInt8 := (List.range n).map (byteOf q)

/-- A number that was read gives its bytes back. -/
theorem bytesOf_littleEndian (f : Nat → UInt8) (p n : Nat) : bytesOf (littleEndian f p n) n = slice f p n :=
  List.map_congr_left fun _ hk => byteOf_littleEndian f (List.mem_range.mp hk)

end Lib
