import HaOS.Lib.Bytes
import HaOS.Paging.Shape
import Mathlib.Order.Interval.Finset.Nat
import Mathlib.Data.Nat.Count

/-!
# The bitmap in its frame (`kernel/page.c`)

The bitmap is the bytes of a frame of the memory that it tells about.

* `Ram` : the physical memory, and `bitmapOf` : the bitmap in it;
* `Ram.getframe` : `page_getframe` on it; `getframe_refines` : it is `pageGetframe` unless the bitmap's own frame is the one
  that is granted;
* `pageGetSizeMemoryUse` : the sum over the bitmap; `sizeMemoryUse_eq` : the number of its bits;
* `getframe_spec` : the first clear bit is set, its frame is zeroed, and a page more is in use.
-/

namespace HaOS.Paging
open Lib (byteOf setByte byteOf_setByte)

/-- The qwords of the frames. -/
abbrev Ram := Nat → Index → Nat

def qwordOf (i : Nat) : Index := Fin.ofNat 512 (i / 8)

def bitmapOf (m : Ram) (i : Nat) : BitVec 8 := (byteOf (m bitmapFrame (qwordOf i)) (i % 8)).toBitVec

def Ram.state (m : Ram) : State := ⟨m, bitmapOf m, pmlt4Address, 0⟩

/-- `bitmap[i] |= 1 << j`. -/
def Ram.setBit (m : Ram) (i j : Nat) : Ram := fun g k =>
  if g = bitmapFrame ∧ k = qwordOf i then setByte (m g k) (i % 8) (UInt8.ofBitVec (bitmapOf m i ||| 1#8 <<< j)) else m g k

/-- `page_getframe`, with the bitmap in its frame. -/
def Ram.getframe (m : Ram) : Ram × Nat :=
  match scan (bitmapOf m) pageBitmapSize 0 with
  | some (i, j) =>
    let m := m.setBit i j
    let addr := (j + i * 8) * pageSize
    let s := (pageMapframe m.state addr).zeroWindow
    ((pageUmapframe s).mem, addr)
  | none => (m, 2 ^ 64 - 1)

/-! ## The memory in use -/

/-- A byte of the bitmap in `page_getSizeMemoryUse`. -/
def sizeByte (bit : BitVec 8) (size : Nat) : Nat :=
  if bit = 0xff then qword (size + 0x1000 * 8)
  else (List.range 8).foldl (fun size j => if (bit >>> j) &&& 1 ≠ 0 then qword (size + 0x1000) else size) size

def pageGetSizeMemoryUse (bitmap : Nat → BitVec 8) : Nat :=
  (List.range pageBitmapSize).foldl (fun size i => sizeByte (bitmap i) size) 0

variable {m : Ram} {bitmap : Nat → BitVec 8} {b : BitVec 8} {i j f g n size : Nat}

theorem foldl_bits (b : BitVec 8) (hn : size + 0x1000 * n < 2 ^ 64) :
    (List.range n).foldl (fun size j => if (b >>> j) &&& 1 ≠ 0 then qword (size + 0x1000) else size) size =
      size + 0x1000 * Nat.count (fun j => b.getLsbD j = true) n := by
  induction n with
  | zero => rfl
  | succ n ih =>
      have hcount : Nat.count (fun j => b.getLsbD j = true) n ≤ n := Nat.count_le _
      rw [Nat.mul_succ, ← Nat.add_assoc] at hn
      rw [List.range_succ, List.foldl_append, ih (by omega), List.foldl_cons, List.foldl_nil, Nat.count_succ]
      generalize Nat.count (fun j => b.getLsbD j = true) n = c at hcount
      have hlt : size + 0x1000 * c + 0x1000 < 2 ^ 64 := by omega
      by_cases hbit : b.getLsbD n = true
      · have hne : (b >>> n) &&& 1 ≠ 0 := fun h => by
          rw [(bit_shiftRight_iff b n).mp h] at hbit
          cases hbit
        rw [if_pos hne, if_pos hbit, qword_of_lt hlt, Nat.mul_succ, Nat.add_assoc]
      · have heq : (b >>> n) &&& 1 = 0 := (bit_shiftRight_iff b n).mpr (Bool.eq_false_of_not_eq_true hbit)
        rw [if_neg (not_not.mpr heq), if_neg hbit, Nat.add_zero]

/-- The shortcut for a full byte counts the same. -/
theorem sizeByte_eq (b : BitVec 8) (hsize : size + 0x1000 * 8 < 2 ^ 64) :
    sizeByte b size = size + 0x1000 * Nat.count (fun j => b.getLsbD j = true) 8 := by
  rw [sizeByte]
  split_ifs with hfull
  · have hcount : Nat.count (fun j => b.getLsbD j = true) 8 = 8 := by
      rw [Nat.count_iff_forall, hfull]
      exact fun j hj => getLsbD_full hj
    rw [hcount, qword_of_lt hsize]
  · exact foldl_bits b hsize

theorem foldl_bytes (bitmap : Nat → BitVec 8) (hn : n ≤ pageBitmapSize) :
    (List.range n).foldl (fun size i => sizeByte (bitmap i) size) 0 = pageSize * Nat.count (Bit bitmap) (8 * n) := by
  induction n with
  | zero => rfl
  | succ n ih =>
      have hcount : Nat.count (Bit bitmap) (8 * n) ≤ 8 * n := Nat.count_le _
      have hbyte : ∀ j < 8, Bit bitmap (8 * n + j) ↔ (bitmap n).getLsbD j = true := by
        intro j hj
        rw [Bit, show (8 * n + j) / 8 = n by omega, show (8 * n + j) % 8 = j by omega]
      have hcongr : Nat.count (fun j => Bit bitmap (8 * n + j)) 8 = Nat.count (fun j => (bitmap n).getLsbD j = true) 8 :=
        le_antisymm (Nat.count_mono_left fun j hj => (hbyte j hj).mp) (Nat.count_mono_left fun j hj => (hbyte j hj).mpr)
      rw [List.range_succ, List.foldl_append, ih (by omega), List.foldl_cons, List.foldl_nil, sizeByte_eq, Nat.mul_succ,
        Nat.count_add, Nat.mul_add, hcongr]
      · rfl
      · unfold pageBitmapSize pageSize at *
        omega

theorem sizeMemoryUse_eq (bitmap : Nat → BitVec 8) :
    pageGetSizeMemoryUse bitmap = pageSize * ((Finset.range frames).filter fun f => Bit bitmap f).card := by
  rw [pageGetSizeMemoryUse, foldl_bytes bitmap (Nat.le_refl _), Nat.count_eq_card_filter_range]
  rfl

/-- One bit more is a page more. -/
theorem sizeMemoryUse_set {bitmap' : Nat → BitVec 8} (hf : f < frames) (hfree : ¬ Bit bitmap f)
    (hbit : ∀ g < frames, Bit bitmap' g ↔ g = f ∨ Bit bitmap g) :
    pageGetSizeMemoryUse bitmap' = pageGetSizeMemoryUse bitmap + pageSize := by
  have hset : (Finset.range frames).filter (fun g => Bit bitmap' g) =
      insert f ((Finset.range frames).filter fun g => Bit bitmap g) := by
    ext g
    simp only [Finset.mem_filter, Finset.mem_range, Finset.mem_insert]
    constructor
    · intro hg
      exact ((hbit g hg.1).mp hg.2).imp_right fun h => ⟨hg.1, h⟩
    · intro hg
      rcases hg with rfl | hg
      · exact ⟨hf, (hbit g hf).mpr (.inl rfl)⟩
      · exact ⟨hg.1, (hbit g hg.1).mpr (.inr hg.2)⟩
  have hnot : f ∉ (Finset.range frames).filter fun g => Bit bitmap g := fun h => hfree (Finset.mem_filter.mp h).2
  rw [sizeMemoryUse_eq, sizeMemoryUse_eq, hset, Finset.card_insert_of_notMem hnot, Nat.mul_succ]

/-! ## A bit of the memory -/

theorem qwordOf_eq_iff (hi : i < pageBitmapSize) (hj : j < pageBitmapSize) : qwordOf i = qwordOf j ↔ i / 8 = j / 8 := by
  rw [qwordOf, qwordOf, Fin.ext_iff, Fin.val_ofNat, Fin.val_ofNat]
  unfold pageBitmapSize at hi hj
  omega

theorem bitmapOf_setBit (m : Ram) (j : Nat) (hi : i < pageBitmapSize) (hn : n < pageBitmapSize) :
    bitmapOf (m.setBit i j) n = Function.update (bitmapOf m) i (bitmapOf m i ||| 1#8 <<< j) n := by
  rw [bitmapOf, Ram.setBit]
  by_cases hq : qwordOf n = qwordOf i
  · rw [if_pos ⟨rfl, hq⟩]
    by_cases hni : n = i
    · rw [hni, Function.update_self, byteOf_setByte]
    · have hmod : n % 8 ≠ i % 8 := by
        have := (qwordOf_eq_iff hn hi).mp hq
        omega
      rw [Function.update_of_ne hni, Lib.byteOf_setByte_of_ne _ hmod]
      rfl
  · rw [if_neg fun h => hq h.2, Function.update_of_ne fun h => hq (by rw [h])]
    rfl

theorem bit_congr {bitmap' : Nat → BitVec 8} (h : ∀ n < pageBitmapSize, bitmap' n = bitmap n) (hg : g < frames) :
    Bit bitmap' g ↔ Bit bitmap g := by
  rw [Bit, Bit, h (g / 8) (by unfold frames at hg; omega)]

/-- The bitmap is read from its frame alone. -/
theorem bitmapOf_congr {m' : Ram} (h : ∀ k, m' bitmapFrame k = m bitmapFrame k) : bitmapOf m' = bitmapOf m := by
  funext i
  rw [bitmapOf, h, bitmapOf]

theorem setBit_of_ne (m : Ram) (i j : Nat) (hg : g ≠ bitmapFrame) (k : Index) : m.setBit i j g k = m g k :=
  if_neg fun h => hg h.1

theorem mem_zeroed (s : State) (hf : f < 2 ^ 40) (g : Nat) (k : Index) :
    (pageUmapframe (pageMapframe s (f * pageSize)).zeroWindow).mem g k =
      if g = framePt ∧ k = 0 then 0 else if g = f then 0 else s.mem g k := by
  simp only [pageUmapframe, mem_store, mem_zeroWindow, windowFrame_mapframe, frameOf_mul hf]
  by_cases hw : g = framePt ∧ k = 0
  · rw [if_pos hw, if_pos hw]
  · rw [if_neg hw, if_neg hw, pageMapframe, mem_store, if_neg hw]

theorem framePt_ne_bitmapFrame : framePt ≠ bitmapFrame := by decide

/-- Where another frame than the bitmap's is granted, `page_getframe` does what it does with a bitmap of its own. -/
theorem getframe_refines (m : Ram) (hgrant : (pageGetframe m.state).2 ≠ bitmapFrame * pageSize) :
    m.getframe.2 = (pageGetframe m.state).2 ∧
      (∀ g ≠ bitmapFrame, m.getframe.1 g = (pageGetframe m.state).1.mem g) ∧
      ∀ n < pageBitmapSize, bitmapOf m.getframe.1 n = (pageGetframe m.state).1.bitmap n := by
  unfold pageGetframe at hgrant ⊢
  unfold Ram.getframe
  cases hscan : scan (bitmapOf m) pageBitmapSize 0 with
  | none =>
      have hstate : scan m.state.bitmap pageBitmapSize 0 = none := hscan
      simp only [hstate]
      exact ⟨trivial, fun _ _ => rfl, fun _ _ => rfl⟩
  | some x =>
      obtain ⟨i, j⟩ := x
      have hstate : scan m.state.bitmap pageBitmapSize 0 = some (i, j) := hscan
      obtain ⟨-, hi, hj, -⟩ := scan_some hscan
      simp only at hi hj
      simp only [hstate] at hgrant ⊢
      have hf : bitmapFrame ≠ j + i * 8 := fun h => hgrant (by rw [h])
      have hlt : j + i * 8 < 2 ^ 40 := by
        unfold pageBitmapSize at hi
        omega
      refine ⟨trivial, fun g hg => ?_, fun n hn => ?_⟩
      · funext k
        rw [mem_zeroed _ hlt, mem_zeroed _ hlt]
        exact if_congr Iff.rfl rfl (if_congr Iff.rfl rfl (setBit_of_ne m i j hg k))
      · have hframe : bitmapOf (pageUmapframe (pageMapframe (m.setBit i j).state ((j + i * 8) * pageSize)).zeroWindow).mem =
            bitmapOf (m.setBit i j) := by
          apply bitmapOf_congr
          intro k
          rw [mem_zeroed _ hlt, if_neg fun h => framePt_ne_bitmapFrame h.1.symm, if_neg hf]
          rfl
        rw [hframe, bitmapOf_setBit m j (by omega) hn]
        rfl

/-- What `page_getframe` does where `f` is the first frame whose bit is clear. -/
structure Grants (m : Ram) (f : Nat) : Prop where
  address : m.getframe.2 = pageSize * f
  bits : ∀ g < frames, Bit (bitmapOf m.getframe.1) g ↔ g = f ∨ Bit (bitmapOf m) g
  zeroed : ∀ k, m.getframe.1 f k = 0
  /-- the bits of the bitmap's frame apart, and the entry of the window, which is closed -/
  others : ∀ g k, g ≠ f → g ≠ bitmapFrame → ¬ (g = framePt ∧ k = 0) → m.getframe.1 g k = m g k
  usage : pageGetSizeMemoryUse (bitmapOf m.getframe.1) = pageGetSizeMemoryUse (bitmapOf m) + pageSize

theorem grants_of_first (hf : f < frames) (hfree : ¬ Bit (bitmapOf m) f) (hfirst : ∀ g < f, Bit (bitmapOf m) g)
    (hne : f ≠ bitmapFrame) : Grants m f := by
  have hgranted : Granted m.state (pageGetframe m.state).1 f ∧ (pageGetframe m.state).2 = f * pageSize := by
    obtain ⟨f', hgranted, haddr⟩ | ⟨hrefused, -⟩ := pageGetframe_cases m.state
    · have hleast := pageGetframe_least haddr
      obtain rfl : f' = f := by
        rcases Nat.lt_trichotomy f' f with hlt | heq | hlt
        · exact absurd (hfirst f' hlt) hgranted.free
        · exact heq
        · exact absurd (hleast f hlt) hfree
      exact ⟨hgranted, haddr⟩
    · have hnone := free_of_refused (s := m.state) (by omega)
      exact absurd (mem_free.mpr ⟨hf, hfree⟩) (hnone ▸ Finset.notMem_empty f)
  obtain ⟨hgranted, haddr⟩ := hgranted
  have hother : (pageGetframe m.state).2 ≠ bitmapFrame * pageSize := by
    rw [haddr]
    exact fun h => hne (Nat.eq_of_mul_eq_mul_right (by decide) h)
  obtain ⟨haddr', hmem, hbitmap⟩ := getframe_refines m hother
  have hbits : ∀ g < frames, Bit (bitmapOf m.getframe.1) g ↔ g = f ∨ Bit (bitmapOf m) g := fun g hg =>
    (bit_congr hbitmap hg).trans (hgranted.bit g)
  refine ⟨?_, hbits, fun k => ?_, fun g k hg hgb hw => ?_, sizeMemoryUse_set hf hfree hbits⟩
  · rw [haddr', haddr, Nat.mul_comm]
  · rw [hmem f hne, hgranted.mem, if_pos rfl, ite_self]
  · rw [hmem g hgb, hgranted.mem, if_neg hw, if_neg hg]
    rfl

/-- `page_getframe` refuses exactly when all bits are set, and grants the first frame that is free otherwise, unless that is
the one in which the bitmap lies; the memory in use is the number of the set bits. -/
theorem getframe_spec (m : Ram) :
    (m.getframe.2 = 2 ^ 64 - 1 ↔ ∀ g < frames, Bit (bitmapOf m) g) ∧
      (∀ f < frames, ¬ Bit (bitmapOf m) f → (∀ g < f, Bit (bitmapOf m) g) → f ≠ bitmapFrame → Grants m f) ∧
      pageGetSizeMemoryUse (bitmapOf m) = pageSize * ((Finset.range frames).filter fun f => Bit (bitmapOf m) f).card := by
  refine ⟨?_, fun f => grants_of_first, sizeMemoryUse_eq _⟩
  unfold Ram.getframe
  cases hscan : scan (bitmapOf m) pageBitmapSize 0 with
  | none =>
      refine iff_of_true rfl fun g hg => scan_none hscan g (Nat.zero_le _) ?_
      rwa [Nat.zero_add]
  | some x =>
      obtain ⟨i, j⟩ := x
      obtain ⟨-, hi, hj, hfree⟩ := scan_some hscan
      simp only at hi hj hfree
      unfold pageBitmapSize at hi
      refine iff_of_false (fun h => ?_) fun h => ?_
      · simp only [pageSize] at h
        omega
      · have hbit := h (j + i * 8) (by unfold frames pageBitmapSize; omega)
        rw [Bit, show (j + i * 8) / 8 = i by omega, show (j + i * 8) % 8 = j by omega, hfree] at hbit
        cases hbit

/-- The bits 0 to 5 are set, and that of the bitmap's own frame is not. -/
def ownFrameFree : Ram := fun g k => if g = bitmapFrame ∧ k = 0 then 0x3f else 0

theorem sizeMemoryUse_zero (h : ∀ k, m bitmapFrame k = 0) :
    (∀ g, ¬ Bit (bitmapOf m) g) ∧ pageGetSizeMemoryUse (bitmapOf m) = 0 := by
  have hbit : ∀ g, ¬ Bit (bitmapOf m) g := by
    intro g hg
    have hbyte : bitmapOf m (g / 8) = 0#8 := by
      rw [bitmapOf, h, byteOf, Nat.zero_div]
      rfl
    rw [Bit, hbyte, BitVec.getLsbD_zero] at hg
    cases hg
  refine ⟨hbit, ?_⟩
  rw [sizeMemoryUse_eq, Finset.filter_false_of_mem fun g _ => hbit g]
  rfl

/-- Then the bitmap is what is zeroed: the bit is clear afterwards, as are all the others, and no memory is in use. -/
theorem not_grants_ownFrameFree :
    (∀ g < bitmapFrame, Bit (bitmapOf ownFrameFree) g) ∧ ¬ Bit (bitmapOf ownFrameFree) bitmapFrame ∧
      ownFrameFree.getframe.2 = pageSize * bitmapFrame ∧ (∀ g, ¬ Bit (bitmapOf ownFrameFree.getframe.1) g) ∧
      pageGetSizeMemoryUse (bitmapOf ownFrameFree.getframe.1) = 0 := by
  have hzero : ∀ k, ownFrameFree.getframe.1 bitmapFrame k = 0 := fun _ => rfl
  exact ⟨by decide +kernel, by decide +kernel, by decide +kernel, sizeMemoryUse_zero hzero⟩

end HaOS.Paging
