import HaOS.Lib.Bytes

/-!
# Packed structures

A packed structure is a list of fields, each a width in bits and a value, the lowest first.

* `pack fs` : the number they make up; `field x off w` : the `w` bits of a number from bit `off` on;
* `field_pack` : each field is read back at the sum of the widths before it;
* `putBytes m a q n` : a memory with the `n` lowest bytes of `q` stored at `a`; `littleEndian_putBytes` reads them back,
  and `littleEndian_putBytes_out` reads what lies elsewhere.
-/

namespace Lib

variable {fs pre post : List (Nat × Nat)} {m : Nat → UInt8} {a b k n off q v w x : Nat}

def pack : List (Nat × Nat) → Nat
  | [] => 0
  | (w, v) :: fs => v % 2 ^ w + 2 ^ w * pack fs

def width (fs : List (Nat × Nat)) : Nat := (fs.map Prod.fst).sum

/-- The `w` bits from bit `off` on. -/
def field (x off w : Nat) : Nat := x / 2 ^ off % 2 ^ w

theorem pack_lt (fs : List (Nat × Nat)) : pack fs < 2 ^ width fs := by
  induction fs with
  | nil => exact Nat.one_pos
  | cons f fs ih =>
      obtain ⟨w, v⟩ := f
      have hv : v % 2 ^ w < 2 ^ w := Nat.mod_lt _ (Nat.two_pow_pos w)
      show v % 2 ^ w + 2 ^ w * pack fs < 2 ^ (w + width fs)
      rw [Nat.pow_add]
      calc v % 2 ^ w + 2 ^ w * pack fs < 2 ^ w + 2 ^ w * pack fs := Nat.add_lt_add_right hv _
        _ = 2 ^ w * (pack fs + 1) := by rw [Nat.mul_succ, Nat.add_comm]
        _ ≤ 2 ^ w * 2 ^ width fs := Nat.mul_le_mul_left _ ih

theorem pack_append (pre post : List (Nat × Nat)) : pack (pre ++ post) = pack pre + 2 ^ width pre * pack post := by
  induction pre with
  | nil =>
      show pack post = 0 + 2 ^ 0 * pack post
      omega
  | cons f fs ih =>
      obtain ⟨w, v⟩ := f
      show v % 2 ^ w + 2 ^ w * pack (fs ++ post) = v % 2 ^ w + 2 ^ w * pack fs + 2 ^ (w + width fs) * pack post
      rw [ih, Nat.mul_add, Nat.pow_add, Nat.mul_assoc, Nat.add_assoc]

/-- A field is read back at the sum of the widths before it. -/
theorem field_pack (pre post : List (Nat × Nat)) (w v : Nat) :
    field (pack (pre ++ (w, v) :: post)) (width pre) w = v % 2 ^ w := by
  have hdiv : pack (pre ++ (w, v) :: post) / 2 ^ width pre = pack ((w, v) :: post) := by
    rw [pack_append, Nat.add_mul_div_left _ _ (Nat.two_pow_pos _), Nat.div_eq_of_lt (pack_lt pre), Nat.zero_add]
  rw [field, hdiv, pack, Nat.add_mul_mod_self_left, Nat.mod_mod]

/-- Field `k` of a structure lies at the sum of the first `k` widths. -/
theorem field_of_getElem? (h : fs[k]? = some (w, v)) (hoff : width (fs.take k) = off) :
    field (pack fs) off w = v % 2 ^ w := by
  obtain ⟨hk, hget⟩ := List.getElem?_eq_some_iff.mp h
  have hsplit : fs = fs.take k ++ (w, v) :: fs.drop (k + 1) := by
    rw [← hget, ← List.drop_eq_getElem_cons hk, List.take_append_drop]
  rw [hsplit, ← hoff]
  exact field_pack _ _ _ _

/-! ## In memory -/

/-- The `n` lowest bytes of `q` are stored at `a`. -/
def putBytes (m : Nat → UInt8) (a q n : Nat) : Nat → UInt8 := storeBytes m a (bytesOf q n)

@[simp] theorem length_bytesOf (q n : Nat) : (bytesOf q n).length = n := by
  rw [bytesOf, List.length_map, List.length_range]

theorem putBytes_in (hk : k < n) : putBytes m a q n (a + k) = byteOf q k := by
  refine storeBytes_in ?_
  rw [bytesOf, List.getElem?_map, List.getElem?_range hk]
  rfl

theorem littleEndian_byteOf (h : ∀ i < n, m (a + i) = byteOf q i) : littleEndian m a n = q % 256 ^ n := by
  induction n generalizing a q with
  | zero => rw [littleEndian, Nat.pow_zero, Nat.mod_one]
  | succ n ih =>
      have h0 : (m a).toNat = q % 256 := by
        have := h 0 (Nat.succ_pos n)
        rw [Nat.add_zero] at this
        rw [this, byteOf, UInt8.toNat_ofNat', Nat.pow_zero, Nat.div_one]
      have hrest : littleEndian m (a + 1) n = q / 256 % 256 ^ n := by
        refine ih fun i hi => ?_
        rw [Nat.add_assoc, Nat.add_comm 1 i, h (i + 1) (Nat.succ_lt_succ hi), byteOf_eq_iff, Nat.pow_succ',
          Nat.div_div_eq_div_mul]
      rw [littleEndian, h0, hrest, Nat.pow_succ', Nat.mod_mul]

theorem littleEndian_putBytes (m : Nat → UInt8) (a q n : Nat) :
    littleEndian (putBytes m a q n) a n = q % 256 ^ n := littleEndian_byteOf fun _ hi => putBytes_in hi

theorem putBytes_out (h : x < a ∨ a + n ≤ x) : putBytes m a q n x = m x :=
  storeBytes_out (by rwa [length_bytesOf])

theorem littleEndian_putBytes_out (h : b + k ≤ a ∨ a + n ≤ b) :
    littleEndian (putBytes m a q n) b k = littleEndian m b k :=
  littleEndian_congr fun i hi => putBytes_out (by omega)

end Lib
