import Mathlib.Data.Finset.Card
import Mathlib.Tactic.IntervalCases
import HaOS.Types
import HaOS.Lib.Radix

/-!
# Page frames (`kernel/page.c`)

Physical memory is a function from frame numbers to the 512 qwords of a frame. The kernel reads the tables through their
physical addresses: the identity mapping covers the root table, the frame page table and the bitmap, and all the other
tables come through the window, whose page table entry is `frame_pt[0]`.

* `State` : the memory, the bitmap with a store of its own, and the root table;
* `pageMapframe`, `pageUmapframe` : the window; `pageGetframe`, `pageClearBitmap` : the bitmap;
* `pageGetframe_cases` : a grant of the first free frame, or a refusal; `pageGetframe_least`, `free_of_refused` : it is
  the first one, and a refusal means that none is free;
* `child`, `Marked` : the table an entry names, and the frames that are not free.
-/

namespace HaOS.Paging

abbrev Index := Fin 512

-- one proof for all the literals and the memberships below
instance neZeroEntries : NeZero 512 := ⟨by decide⟩

instance lawfulBEqPath : LawfulBEq (List Index) := inferInstance

def pageSize : Nat := 0x1000

def pageEntries : Nat := 512

def pageBitmapSize : Nat := 0x1000

def pagePresent : Nat := 1 <<< 0

def pageReadwrite : Nat := 1 <<< 1

def pmlt4Address : Nat := 0x1000

def framePtAddress : Nat := 0x5000

def pageBitmapAddress : Nat := 0x6000

/-- `PAGE_ADDRESS(0, 0, 511, 0)`. -/
def windowAddress : Nat := 0x3fe00000

/-! ## Entries -/

/-- The frame an entry or an address names: bits 12 to 51. -/
def frameOf (e : Nat) : Nat := e / pageSize % 2 ^ 40

/-- `e & ~0x1FF`. -/
def tableAddress (e : Nat) : Nat := e &&& (2 ^ 64 - 1 - 0x1ff)

def Present (e : Nat) : Prop := e &&& pagePresent ≠ 0

instance (e : Nat) : Decidable (Present e) := inferInstanceAs (Decidable (_ ≠ _))

theorem testBit_frameOf (e j : Nat) : (frameOf e).testBit j = (decide (j < 40) && e.testBit (j + 12)) := by
  unfold frameOf
  rw [Nat.testBit_mod_two_pow, show pageSize = 2 ^ 12 from rfl, Nat.testBit_div_two_pow]

theorem frameOf_tableAddress (e : Nat) : frameOf (tableAddress e) = frameOf e := by
  apply Nat.eq_of_testBit_eq
  intro j
  rw [testBit_frameOf, testBit_frameOf, tableAddress, Nat.testBit_and]
  by_cases hj : j < 40
  · have hmask : (2 ^ 64 - 1 - 0x1ff).testBit (j + 12) = true := by
      interval_cases j <;> decide
    rw [hmask, Bool.and_true]
  · rw [decide_eq_false hj, Bool.false_and, Bool.false_and]

theorem frameOf_or {flags : Nat} (hf : flags < pageSize) (a : Nat) : frameOf (a ||| flags) = frameOf a := by
  apply Nat.eq_of_testBit_eq
  intro j
  have hlow : flags.testBit (j + 12) = false := by
    apply Nat.testBit_lt_two_pow
    exact Nat.lt_of_lt_of_le hf (Nat.pow_le_pow_right Nat.two_pos (by omega : 12 ≤ j + 12))
  simp [testBit_frameOf, hlow]

theorem frameOf_mul {f : Nat} (hf : f < 2 ^ 40) : frameOf (f * pageSize) = f := by
  unfold frameOf pageSize
  omega

theorem present_iff (e : Nat) : Present e ↔ e % 2 = 1 := by
  unfold Present pagePresent
  rw [show (1 : Nat) <<< 0 = 1 from rfl, Nat.and_one_is_mod]
  omega

theorem present_or {flags : Nat} (f : Nat) : Present (f * pageSize ||| flags) ↔ Present flags := by
  rw [present_iff, present_iff, Nat.or_mod_two_eq_one]
  unfold pageSize
  omega

/-! ## The state -/

/-- The memory, the bitmap and the root table; `refused` counts the calls of `page_getframe` that have found no frame,
and nothing reads it. -/
structure State where
  mem : Nat → Index → Nat
  bitmap : Nat → BitVec 8
  pmlt4 : Nat
  refused : Nat

def State.root (s : State) : Nat := frameOf s.pmlt4

def State.store (s : State) (f : Nat) (i : Index) (e : Nat) : State :=
  { s with mem := fun g j => if g = f ∧ j = i then e else s.mem g j }

def framePt : Nat := frameOf framePtAddress

def State.windowFrame (s : State) : Nat := frameOf (s.mem framePt 0)

def State.window (s : State) (i : Index) : Nat := s.mem s.windowFrame i

def State.storeWindow (s : State) (i : Index) (e : Nat) : State := s.store s.windowFrame i e

/-- `memzero` on the window. -/
def State.zeroWindow (s : State) : State :=
  { s with mem := fun g j => if g = s.windowFrame then 0 else s.mem g j }

def pageMapframe (s : State) (address : Nat) : State := s.store framePt 0 (address ||| 1 <<< 0 ||| 1 <<< 1)

def pageUmapframe (s : State) : State := s.store framePt 0 0

/-- The first `j` with `!((b >> j) & 1)`. -/
def freeBit (b : BitVec 8) : Option Nat := (List.range 8).find? fun j => (b >>> j) &&& 1 = 0

/-- The search of `page_getframe` from byte `i` on, with `n` bytes to go. -/
def scan (bitmap : Nat → BitVec 8) : Nat → Nat → Option (Nat × Nat)
  | 0, _ => none
  | n + 1, i =>
    if bitmap i = 0xff then scan bitmap n (i + 1)
    else
      match freeBit (bitmap i) with
      | some j => some (i, j)
      | none => scan bitmap n (i + 1)

def State.setBit (s : State) (i j : Nat) : State :=
  { s with bitmap := Function.update s.bitmap i (s.bitmap i ||| 1#8 <<< j) }

/-- `page_getframe`; the address of the frame, or `-1`. -/
def pageGetframe (s : State) : State × Nat :=
  match scan s.bitmap pageBitmapSize 0 with
  | some (i, j) =>
    let s := s.setBit i j
    let addr := (j + i * 8) * pageSize
    let s := (pageMapframe s addr).zeroWindow
    (pageUmapframe s, addr)
  | none => ({ s with refused := s.refused + 1 }, 2 ^ 64 - 1)

/-- `page_clear_bitmap`, without a bound on `idx` as in the source; for a frame below `frames` the byte is one of the
bitmap's, for another it is memory behind the bitmap, which this store does not share with `mem`. -/
def pageClearBitmap (s : State) (addr : Nat) : State :=
  let addr := addr >>> 12
  let idx := dword (addr / 8)
  let off := dword (addr % 8)
  { s with bitmap := Function.update s.bitmap idx (s.bitmap idx &&& ~~~ (1#8 <<< off)) }

/-! ## Tables and marks -/

/-- The frame a present entry names. -/
def target (e : Nat) : Option Nat := if Present e then some (frameOf e) else none

def child (mem : Nat → Index → Nat) (f : Nat) (i : Index) : Option Nat := target (mem f i)

/-- The frame at a path of entries from the root table. -/
def State.table (s : State) (p : List Index) : Option Nat := Lib.Radix.descend (child s.mem) s.root p

/-- The frames the bitmap covers. -/
def frames : Nat := 8 * pageBitmapSize

def Bit (bitmap : Nat → BitVec 8) (f : Nat) : Prop := (bitmap (f / 8)).getLsbD (f % 8) = true

instance (bitmap : Nat → BitVec 8) (f : Nat) : Decidable (Bit bitmap f) := inferInstanceAs (Decidable (_ = _))

/-- The bitmap covers the frame and its bit is set. -/
def State.Marked (s : State) (f : Nat) : Prop := f < frames ∧ Bit s.bitmap f

instance (s : State) (f : Nat) : Decidable (s.Marked f) := inferInstanceAs (Decidable (_ ∧ _))

def State.free (s : State) : Finset Nat := (Finset.range frames).filter fun f => ¬ Bit s.bitmap f

variable {s t : State} {f g : Nat} {i j : Index} {e : Nat}

theorem mem_free : f ∈ s.free ↔ f < frames ∧ ¬ Bit s.bitmap f := by
  rw [State.free, Finset.mem_filter, Finset.mem_range]

@[simp] theorem mem_store : (s.store f i e).mem g j = if g = f ∧ j = i then e else s.mem g j := rfl

theorem mem_zeroWindow : s.zeroWindow.mem g j = if g = s.windowFrame then 0 else s.mem g j := rfl

@[simp] theorem bitmap_store : (s.store f i e).bitmap = s.bitmap := rfl

@[simp] theorem root_store : (s.store f i e).root = s.root := rfl

@[simp] theorem refused_store : (s.store f i e).refused = s.refused := rfl

theorem child_store : child (s.store f i e).mem = Lib.Radix.setChild (child s.mem) f i (target e) := by
  funext g j
  unfold child Lib.Radix.setChild
  rw [mem_store]
  split_ifs <;> rfl

theorem target_or {flags : Nat} (hf : f < 2 ^ 40) (hflags : flags < pageSize) :
    target (f * pageSize ||| flags) = if Present flags then some f else none := by
  unfold target
  simp only [present_or, frameOf_or hflags, frameOf_mul hf]

theorem target_frameOf (h : target e = some f) : f = frameOf e := by
  unfold target at h
  split_ifs at h
  exact (Option.some.inj h).symm

theorem target_or_eq {a flags : Nat} (hflags : flags < pageSize) (h : target (a ||| flags) = some f) :
    f = frameOf a := (target_frameOf h).trans (frameOf_or hflags a)

theorem windowFrame_mapframe (address : Nat) : (pageMapframe s address).windowFrame = frameOf address := by
  unfold State.windowFrame pageMapframe
  rw [mem_store, if_pos ⟨rfl, rfl⟩, frameOf_or (by decide), frameOf_or (by decide)]

/-! ## The search for a free frame -/

theorem bit_shiftRight_iff (b : BitVec 8) (k : Nat) : (b >>> k) &&& 1 = 0 ↔ b.getLsbD k = false := by
  constructor
  · intro h
    have hbit := congrArg (BitVec.getLsbD · 0) h
    simpa using hbit
  · intro h
    apply BitVec.eq_of_getLsbD_eq
    intro j hj
    obtain rfl | hj0 := Nat.eq_zero_or_pos j
    · simp [h]
    · simp [Nat.ne_of_gt hj0]

theorem freeBit_some {b : BitVec 8} {j : Nat} (h : freeBit b = some j) :
    j < 8 ∧ b.getLsbD j = false ∧ ∀ k < j, b.getLsbD k = true := by
  unfold freeBit at h
  rw [List.find?_range_eq_some] at h
  obtain ⟨hj, hlt, hbelow⟩ := h
  refine ⟨List.mem_range.mp hlt, (bit_shiftRight_iff b j).mp (of_decide_eq_true hj), fun k hk => ?_⟩
  have hne := hbelow k hk
  rw [Bool.not_eq_true', decide_eq_false_iff_not, bit_shiftRight_iff] at hne
  exact Bool.eq_true_of_not_eq_false hne

theorem freeBit_none {b : BitVec 8} (h : freeBit b = none) : ∀ k < 8, b.getLsbD k = true := by
  intro k hk
  unfold freeBit at h
  rw [List.find?_range_eq_none] at h
  have hne := h k hk
  rw [Bool.not_eq_true', decide_eq_false_iff_not, bit_shiftRight_iff] at hne
  exact Bool.eq_true_of_not_eq_false hne

theorem scan_some {bitmap : Nat → BitVec 8} {n k : Nat} {x : Nat × Nat} (h : scan bitmap n k = some x) :
    k ≤ x.1 ∧ x.1 < k + n ∧ x.2 < 8 ∧ (bitmap x.1).getLsbD x.2 = false := by
  induction n generalizing k with
  | zero => cases h
  | succ n ih =>
      unfold scan at h
      split_ifs at h with hff
      · obtain ⟨hk, hn, hrest⟩ := ih h
        exact ⟨by omega, by omega, hrest⟩
      · split at h
        · cases h
          obtain ⟨hj, hfree, -⟩ := freeBit_some ‹_›
          exact ⟨le_refl k, Nat.lt_add_of_pos_right (Nat.succ_pos n), hj, hfree⟩
        · obtain ⟨hk, hn, hrest⟩ := ih h
          exact ⟨by omega, by omega, hrest⟩

theorem getLsbD_full {k : Nat} (hk : k < 8) : (0xff : BitVec 8).getLsbD k = true := by
  interval_cases k <;> rfl

theorem bit_of_byte {bitmap : Nat → BitVec 8} {i : Nat} (h : ∀ k < 8, (bitmap i).getLsbD k = true) (hg : g / 8 = i) :
    Bit bitmap g := by
  unfold Bit
  rw [hg]
  exact h _ (Nat.mod_lt _ (by decide))

theorem scan_lowest {bitmap : Nat → BitVec 8} {n k : Nat} {x : Nat × Nat} (h : scan bitmap n k = some x) :
    ∀ g, 8 * k ≤ g → g < x.2 + x.1 * 8 → Bit bitmap g := by
  induction n generalizing k with
  | zero => cases h
  | succ n ih =>
      intro g hk hg
      have hnext : ∀ h : scan bitmap n (k + 1) = some x, (∀ j < 8, (bitmap k).getLsbD j = true) → Bit bitmap g := by
        intro h hbyte
        by_cases hg8 : g / 8 = k
        · exact bit_of_byte hbyte hg8
        · exact ih h g (by omega) hg
      unfold scan at h
      split_ifs at h with hff
      · refine hnext h fun j hj => ?_
        rw [hff]
        exact getLsbD_full hj
      · split at h
        · rename_i j hj
          cases h
          obtain ⟨hj8, -, hbelow⟩ := freeBit_some hj
          simp only at hg
          have hg8 : g / 8 = k := by omega
          unfold Bit
          rw [hg8]
          exact hbelow _ (by omega)
        · exact hnext h (freeBit_none ‹_›)

theorem scan_none {bitmap : Nat → BitVec 8} {n k : Nat} (h : scan bitmap n k = none) :
    ∀ g, 8 * k ≤ g → g < 8 * (k + n) → Bit bitmap g := by
  induction n generalizing k with
  | zero =>
      intro g hk hg
      omega
  | succ n ih =>
      intro g hk hg
      have hnext : ∀ h : scan bitmap n (k + 1) = none, (∀ j < 8, (bitmap k).getLsbD j = true) → Bit bitmap g := by
        intro h hbyte
        by_cases hg8 : g / 8 = k
        · exact bit_of_byte hbyte hg8
        · exact ih h g (by omega) (by omega)
      unfold scan at h
      split_ifs at h with hff
      · refine hnext h fun j hj => ?_
        rw [hff]
        exact getLsbD_full hj
      · split at h
        · cases h
        · exact hnext h (freeBit_none ‹_›)

theorem getLsbD_one_shiftLeft {j k : Nat} (hk : k < 8) : (1#8 <<< j).getLsbD k = decide (k = j) := by
  simp only [BitVec.getLsbD_shiftLeft, BitVec.getLsbD_one, hk, decide_true, Bool.true_and, Nat.zero_lt_succ]
  by_cases h : k < j
  · simp [h, Nat.ne_of_lt h]
  · simp [h]
    omega

theorem bit_set {bitmap : Nat → BitVec 8} {i j : Nat} (hj : j < 8) (g : Nat) :
    Bit (Function.update bitmap i (bitmap i ||| 1#8 <<< j)) g ↔ g = j + i * 8 ∨ Bit bitmap g := by
  unfold Bit
  by_cases hi : g / 8 = i
  · have hg : g = j + i * 8 ↔ g % 8 = j := by omega
    rw [hi, Function.update_self, hg, BitVec.getLsbD_or, getLsbD_one_shiftLeft (Nat.mod_lt _ (by decide)),
      Bool.or_eq_true, decide_eq_true_eq]
    exact or_comm
  · have hg : g ≠ j + i * 8 := by omega
    simp only [Function.update_of_ne hi, hg, false_or]

theorem bit_clear {bitmap : Nat → BitVec 8} {i j : Nat} (hj : j < 8) (g : Nat) :
    Bit (Function.update bitmap i (bitmap i &&& ~~~ (1#8 <<< j))) g ↔ g ≠ j + i * 8 ∧ Bit bitmap g := by
  unfold Bit
  by_cases hi : g / 8 = i
  · have hg : g = j + i * 8 ↔ g % 8 = j := by omega
    have hlt : g % 8 < 8 := Nat.mod_lt _ (by decide)
    rw [hi, Function.update_self, Ne, hg, BitVec.getLsbD_and, BitVec.getLsbD_not, getLsbD_one_shiftLeft hlt]
    simp only [hlt, decide_true, Bool.true_and, Bool.and_eq_true, Bool.not_eq_true', decide_eq_false_iff_not]
    exact and_comm
  · have hg : g ≠ j + i * 8 := by omega
    simp only [Function.update_of_ne hi, hg, ne_eq, not_false_iff, true_and]

/-- The free frame `f` is handed out: it is marked and zeroed, and the window is closed. -/
structure Granted (s t : State) (f : Nat) : Prop where
  lt : f < frames
  free : ¬ Bit s.bitmap f
  pmlt4 : t.pmlt4 = s.pmlt4
  refused : t.refused = s.refused
  bit : ∀ g, Bit t.bitmap g ↔ g = f ∨ Bit s.bitmap g
  mem : ∀ g j, t.mem g j = if g = framePt ∧ j = 0 then 0 else if g = f then 0 else s.mem g j

theorem pageGetframe_cases (s : State) :
    (∃ f, Granted s (pageGetframe s).1 f ∧ (pageGetframe s).2 = f * pageSize) ∨
      (pageGetframe s).1.refused = s.refused + 1 ∧ (pageGetframe s).2 = 2 ^ 64 - 1 := by
  unfold pageGetframe
  cases h : scan s.bitmap pageBitmapSize 0 with
  | none => exact .inr ⟨rfl, rfl⟩
  | some x =>
      obtain ⟨-, hi, hj, hfree⟩ := scan_some h
      obtain ⟨i, j⟩ := x
      simp only at hi hj hfree
      refine .inl ⟨j + i * 8, ⟨?_, ?_, rfl, rfl, bit_set hj, ?_⟩, rfl⟩
      · unfold frames
        omega
      · unfold Bit
        rw [show (j + i * 8) / 8 = i by omega, show (j + i * 8) % 8 = j by omega, hfree]
        decide
      · intro g k
        have haddr : frameOf ((j + i * 8) * pageSize) = j + i * 8 := frameOf_mul (by unfold pageBitmapSize at hi; omega)
        simp only [pageUmapframe, mem_store, mem_zeroWindow, windowFrame_mapframe, haddr]
        by_cases hw : g = framePt ∧ k = 0
        · rw [if_pos hw, if_pos hw]
        · rw [if_neg hw, if_neg hw, pageMapframe, mem_store, if_neg hw]
          exact if_congr Iff.rfl rfl rfl

/-- The frame that is granted is the first free one. -/
theorem pageGetframe_least (h : (pageGetframe s).2 = f * pageSize) : ∀ g < f, Bit s.bitmap g := by
  unfold pageGetframe at h
  cases hscan : scan s.bitmap pageBitmapSize 0 with
  | none =>
      simp only [hscan, pageSize] at h
      omega
  | some x =>
      obtain ⟨i, j⟩ := x
      simp only [hscan] at h
      obtain rfl : j + i * 8 = f := Nat.eq_of_mul_eq_mul_right (by decide : 0 < pageSize) h
      exact fun g hg => scan_lowest hscan g (Nat.zero_le g) hg

/-- A refusal means that no frame is free. -/
theorem free_of_refused (h : (pageGetframe s).1.refused ≠ s.refused) : s.free = ∅ := by
  unfold pageGetframe at h
  cases hscan : scan s.bitmap pageBitmapSize 0 with
  | none =>
      rw [Finset.eq_empty_iff_forall_notMem]
      intro g hg
      obtain ⟨hlt, hfree⟩ := mem_free.mp hg
      refine hfree (scan_none hscan g (Nat.zero_le g) ?_)
      rwa [Nat.zero_add]
  | some x =>
      simp only [hscan] at h
      exact absurd rfl h

theorem pageGetframe_refused (h : (pageGetframe s).1.refused ≠ s.refused) :
    (pageGetframe s).1 = { s with refused := s.refused + 1 } := by
  unfold pageGetframe at h ⊢
  cases hscan : scan s.bitmap pageBitmapSize 0 with
  | none => rfl
  | some x =>
      simp only [hscan] at h
      exact absurd rfl h

theorem Granted.mem_free (h : Granted s t f) : f ∈ s.free := Paging.mem_free.mpr ⟨h.lt, h.free⟩

theorem Granted.free_eq (h : Granted s t f) : t.free = s.free.erase f := by
  ext g
  rw [Finset.mem_erase, Paging.mem_free, Paging.mem_free, h.bit g, not_or]
  tauto

theorem Granted.card_free (h : Granted s t f) : t.free.card + 1 = s.free.card := by
  rw [h.free_eq]
  exact Finset.card_erase_add_one h.mem_free

theorem refused_le_pageGetframe (s : State) : s.refused ≤ (pageGetframe s).1.refused := by
  obtain ⟨f, hf, -⟩ | ⟨h, -⟩ := pageGetframe_cases s
  · exact hf.refused.ge
  · omega

/-- The frame whose bit `page_clear_bitmap` clears; a byte number has 32 bits. -/
def bitOf (a : Nat) : Nat := a / pageSize % 2 ^ 35

theorem bit_pageClearBitmap (s : State) (a g : Nat) :
    Bit (pageClearBitmap s a).bitmap g ↔ g ≠ bitOf a ∧ Bit s.bitmap g := by
  have ha : a >>> 12 = a / pageSize := Nat.shiftRight_eq_div_pow a 12
  have hidx : bitOf a = dword (a >>> 12 % 8) + dword (a >>> 12 / 8) * 8 := by
    unfold bitOf dword
    rw [ha]
    omega
  have hoff : dword (a >>> 12 % 8) < 8 := by
    unfold dword
    omega
  rw [hidx]
  exact bit_clear hoff g

end HaOS.Paging
