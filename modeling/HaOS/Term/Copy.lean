import HaOS.Types
import HaOS.Lib.Buffer

/-!
# Copying and clearing (`kernel/string.S`)

* `memcopy`, `memzero` : the loops, byte by byte;
* `memcopy_copied` : a copy towards lower addresses leaves the bytes that the source had, `memcopy_moves` : and all other
  bytes as they were;
* `memzero_cleared` : the bytes are zero afterwards.
-/

namespace HaOS.Term

open Lib (Buffer)

/-- The loop of `memcopy`. The counter is a qword on the stack, of which the low half is compared. -/
def memcopyLoop (size : Nat) : Nat → Nat → Nat → Nat → Buffer UInt8 → Option (Buffer UInt8)
  | 0, _, _, _, _ => none
  | rounds + 1, i, rsi, rdi, m =>
    if dword i < size then
      memcopyLoop size rounds (qword (i + 1)) (qword (rsi + 1)) (qword (rdi + 1)) (m.put rdi (m.get rsi))
    else some m

/-- `mov $0` clears the low half of the counter: `slot` is what the stack held there, which is not part of the memory `m`.
The low half takes no other values after `2 ^ 32` rounds. -/
def memcopy (slot dest src size : Nat) (m : Buffer UInt8) : Option (Buffer UInt8) :=
  memcopyLoop size (2 ^ 32) (qword (slot / 2 ^ 32 * 2 ^ 32)) src dest m

/-- The loop of `memzero`, with the rounds that are left. -/
def memzeroLoop : Nat → Nat → Buffer UInt8 → Buffer UInt8
  | 0, _, m => m
  | left + 1, rsi, m => memzeroLoop left (qword (rsi + 1)) (m.put rsi 0)

def memzero (buffer size : Nat) (m : Buffer UInt8) : Buffer UInt8 := memzeroLoop size buffer m

variable {m m' : Buffer UInt8} {slot dest src size rounds i a : Nat}

/-- The bytes from `i` on are copied, and nothing else is written. -/
structure Copied (m m' : Buffer UInt8) (dest src i size : Nat) : Prop where
  bytes : ∀ k, i ≤ k → k < size → m'.get (dest + k) = m.get (src + k)
  writes : Buffer.Writes (fun a => dest + i ≤ a ∧ a < dest + size) m m'

theorem Copied.nil (m : Buffer UInt8) (dest src size : Nat) : Copied m m dest src size size :=
  ⟨fun _ hk hlt => absurd hlt (Nat.not_lt.mpr hk), Buffer.Writes.refl _ m⟩

/-- The next byte is copied first. A byte that is overwritten has been copied already, or does not belong to the source. -/
theorem Copied.cons (h : Copied (m.put (dest + i) (m.get (src + i))) m' dest src (i + 1) size) (hi : i < size)
    (hapart : dest ≤ src ∨ src + size ≤ dest) : Copied m m' dest src i size := by
  refine ⟨fun k hk hlt => ?_, ?_⟩
  · rcases Nat.eq_or_lt_of_le hk with rfl | hk
    · rw [h.writes.get (by omega), Buffer.get_put_self]
    · rw [h.bytes k hk hlt, Buffer.get_put_of_ne _ _ (by omega)]
  · exact (Buffer.writes_put m _ (by omega)).trans (h.writes.mono fun a ha => by omega)

theorem memcopyLoop_copied (hslot : slot % 2 ^ 32 = 0) (hsize : size < 2 ^ 32) (hi : i ≤ size)
    (hrounds : size < i + rounds) (hdest : dest + size ≤ 2 ^ 64) (hsrc : src + size ≤ 2 ^ 64)
    (hapart : dest ≤ src ∨ src + size ≤ dest) :
    ∃ m', memcopyLoop size rounds (qword (slot + i)) (qword (src + i)) (qword (dest + i)) m = some m' ∧
      Copied m m' dest src i size := by
  induction rounds generalizing i m with
  | zero => omega
  | succ rounds ih =>
      have hcount : dword (qword (slot + i)) = i := by
        unfold dword qword
        omega
      rw [memcopyLoop, hcount]
      split_ifs with hlt
      · have hnext : ∀ p, qword (qword (p + i) + 1) = qword (p + (i + 1)) := by
          intro p
          unfold qword
          omega
        rw [hnext, hnext, hnext, qword_of_lt (show dest + i < 2 ^ 64 by omega), qword_of_lt (show src + i < 2 ^ 64 by omega)]
        obtain ⟨m', hm', hcopied⟩ := ih (m := m.put (dest + i) (m.get (src + i))) hlt (by omega)
        exact ⟨m', hm', hcopied.cons hlt hapart⟩
      · obtain rfl : i = size := by omega
        exact ⟨m, rfl, Copied.nil m dest src i⟩

/-- A copy whose regions are apart, or whose source lies behind its destination. -/
theorem memcopy_copied (m : Buffer UInt8) (slot dest src size : Nat) (hsize : size < 2 ^ 32) (hdest : dest + size ≤ 2 ^ 64)
    (hsrc : src + size ≤ 2 ^ 64) (hapart : dest ≤ src ∨ src + size ≤ dest) :
    ∃ m', memcopy slot dest src size m = some m' ∧ Copied m m' dest src 0 size := by
  rw [memcopy]
  rcases Nat.eq_zero_or_pos size with rfl | hpos
  · rw [show 2 ^ 32 = 2 ^ 32 - 1 + 1 from rfl, memcopyLoop, if_neg (Nat.not_lt_zero _)]
    exact ⟨m, rfl, Copied.nil m dest src 0⟩
  · have hslot : slot / 2 ^ 32 * 2 ^ 32 % 2 ^ 32 = 0 := Nat.mul_mod_left _ _
    have hloop := memcopyLoop_copied (m := m) hslot hsize (Nat.zero_le size) (show size < 0 + 2 ^ 32 by omega) hdest hsrc
      hapart
    rwa [Nat.add_zero, Nat.add_zero, Nat.add_zero, qword_of_lt (show src < 2 ^ 64 by omega),
      qword_of_lt (show dest < 2 ^ 64 by omega)] at hloop

/-- Unless the destination starts behind the first byte of the source and before its end, the copy ends with the bytes
that the source had at first, and leaves all others. -/
theorem memcopy_moves (m : Buffer UInt8) (slot dest src size : Nat) (hsize : size < 2 ^ 32) (hdest : dest + size ≤ 2 ^ 64)
    (hsrc : src + size ≤ 2 ^ 64) (hinside : ¬ (src < dest ∧ dest < src + size)) :
    ∃ m', memcopy slot dest src size m = some m' ∧ (∀ i < size, m'.get (dest + i) = m.get (src + i)) ∧
      ∀ a, (a < dest ∨ dest + size ≤ a) → m'.get a = m.get a := by
  obtain ⟨m', hm', hcopied⟩ := memcopy_copied m slot dest src size hsize hdest hsrc (by omega)
  refine ⟨m', hm', fun i hi => hcopied.bytes i (Nat.zero_le i) hi, fun a ha => ?_⟩
  apply hcopied.writes.get
  rintro ⟨hlo, hhi⟩
  omega

/-- Three bytes moved down by one, with a counter whose upper half is not clear. -/
theorem memcopy_moves_three :
    ∃ m', memcopy 0x700000009 0x1000 0x1001 3 ⟨fun a => UInt8.ofNat a, []⟩ = some m' ∧
      (∀ i < 3, m'.get (0x1000 + i) = UInt8.ofNat (0x1001 + i)) ∧
      ∀ a, (a < 0x1000 ∨ 0x1003 ≤ a) → m'.get a = UInt8.ofNat a :=
  memcopy_moves ⟨fun a => UInt8.ofNat a, []⟩ 0x700000009 0x1000 0x1001 3 (by decide) (by decide) (by decide) (by decide)

theorem memzeroLoop_cleared (h : a + size ≤ 2 ^ 64) :
    (∀ k < size, (memzeroLoop size (qword a) m).get (a + k) = 0) ∧
      Buffer.Writes (fun x => a ≤ x ∧ x < a + size) m (memzeroLoop size (qword a) m) := by
  induction size generalizing a m with
  | zero => exact ⟨fun k hk => absurd hk (Nat.not_lt_zero k), Buffer.Writes.refl _ m⟩
  | succ size ih =>
      have hnext : qword (qword a + 1) = qword (a + 1) := by
        unfold qword
        omega
      rw [memzeroLoop, hnext, qword_of_lt (show a < 2 ^ 64 by omega)]
      obtain ⟨hbytes, hwrites⟩ := ih (a := a + 1) (m := m.put a 0) (by omega)
      refine ⟨fun k hk => ?_, ?_⟩
      · rcases Nat.eq_zero_or_pos k with rfl | hpos
        · rw [hwrites.get (by omega), Nat.add_zero, Buffer.get_put_self]
        · rw [show a + k = a + 1 + (k - 1) by omega]
          exact hbytes (k - 1) (by omega)
      · exact (Buffer.writes_put m 0 (by omega)).trans (hwrites.mono fun x hx => by omega)

theorem memzero_cleared (m : Buffer UInt8) (h : a + size ≤ 2 ^ 64) :
    (∀ k < size, (memzero a size m).get (a + k) = 0) ∧
      Buffer.Writes (fun x => a ≤ x ∧ x < a + size) m (memzero a size m) := by
  rcases Nat.eq_zero_or_pos size with rfl | hpos
  · exact ⟨fun k hk => absurd hk (Nat.not_lt_zero k), Buffer.Writes.refl _ m⟩
  · have hloop := memzeroLoop_cleared (m := m) h
    rwa [qword_of_lt (show a < 2 ^ 64 by omega)] at hloop

end HaOS.Term
