import HaOS.Lib.Fields
import HaOS.Types

/-!
# The global descriptor table and the task state segment (`kernel/cpu/gdt.c`, `kernel/cpu/gdt.S`)

* `Gdt64Entry`, `Gdt32Entry` : the packed descriptors; `gdtInit` : what is stored in `gdt_entries` and `tss_entry`;
* `Segment`, `segment`, `taskSegment` : what the processor reads for a selector; `ring0Stack` : the stack it takes from
  the task state segment when an interrupt comes from ring 3;
* `segments_gdtInit` : the selectors that the kernel loads, wherever the tables lie.
-/

namespace HaOS.Cpu
open Lib (pack field width putBytes littleEndian)

structure Gdt32Entry where
  lowLimit : Nat
  lowBase : Nat
  midBase : Nat
  access : Nat
  highLimit : Nat
  flags : Nat
  highBase : Nat

structure Gdt64Entry extends Gdt32Entry where
  offsetBase3 : Nat
  reserved : Nat

def Gdt32Entry.fields (e : Gdt32Entry) : List (Nat × Nat) :=
  [(16, e.lowLimit), (16, e.lowBase), (8, e.midBase), (8, e.access), (4, e.highLimit), (4, e.flags), (8, e.highBase)]

def Gdt64Entry.fields (e : Gdt64Entry) : List (Nat × Nat) :=
  e.toGdt32Entry.fields ++ [(32, e.offsetBase3), (32, e.reserved)]

def gdtAccess (p dpl d e dc rw a : Nat) : Nat :=
  p <<< 7 ||| dpl <<< 5 ||| d <<< 4 ||| e <<< 3 ||| dc <<< 2 ||| rw <<< 1 ||| a <<< 0

def gdtFlags (g s l : Nat) : Nat := g <<< 3 ||| s <<< 2 ||| l <<< 1 ||| 0

def dplRing3 : Nat := 0b11

/-- The four segments have base 0 and limit 0xFFFFF, and differ in `access` and `flags`. -/
def flatSegment (access flags : Nat) : Gdt32Entry where
  lowLimit := 0xffff
  lowBase := 0
  midBase := 0
  access := access
  highLimit := 0xf
  flags := flags
  highBase := 0

def sizeofTss : Nat := 104

def tssDescriptor (tssEntry : Nat) : Gdt64Entry where
  lowLimit := (sizeofTss - 1) &&& 0xffff
  lowBase := tssEntry &&& 0xffff
  midBase := tssEntry >>> 16 &&& 0xff
  access := gdtAccess 1 0 0 1 0 0 1
  highLimit := (sizeofTss - 1) >>> 16 &&& 0xff
  flags := gdtFlags 0 0 0
  highBase := tssEntry >>> 24 &&& 0xff
  offsetBase3 := tssEntry >>> 32 &&& 0xffffffff
  reserved := 0

def sizeofGdt32Entry : Nat := 8

/-- `gdt_init`: the descriptors, and then the task state segment with `rsp0` at 4 and `iopb` at 102. -/
def gdtInit (m : Nat → UInt8) (gdtEntries tssEntry kernelStackBottom : Nat) : Nat → UInt8 :=
  let m := putBytes m gdtEntries 0 8
  let m := putBytes m (gdtEntries + 8) (pack (flatSegment (gdtAccess 1 0 1 1 0 1 0) (gdtFlags 1 0 1)).fields) 8
  let m := putBytes m (gdtEntries + 16) (pack (flatSegment (gdtAccess 1 0 1 0 0 1 0) (gdtFlags 1 1 0)).fields) 8
  let m := putBytes m (gdtEntries + 24) (pack (flatSegment (gdtAccess 1 dplRing3 1 1 0 1 0) (gdtFlags 1 0 1)).fields) 8
  let m := putBytes m (gdtEntries + 32) (pack (flatSegment (gdtAccess 1 dplRing3 1 0 0 1 0) (gdtFlags 1 1 0)).fields) 8
  let m := putBytes m (gdtEntries + sizeofGdt32Entry * 5) (pack (tssDescriptor tssEntry).fields) 16
  let m := putBytes m tssEntry 0 sizeofTss
  let m := putBytes m (tssEntry + 102) sizeofTss 2
  putBytes m (tssEntry + 4) kernelStackBottom 8

/-- `gdt_desc.limit`. -/
def gdtLimit : Nat := sizeofGdt32Entry * 5 + 16 - 1

/-! ## The processor -/

structure Segment where
  base : Nat
  limit : Nat
  code : Bool
  writable : Bool
  long : Bool
  dpl : Nat
  present : Bool
deriving DecidableEq, Repr

def segmentOf (x : Nat) : Option Segment :=
  if field x 44 1 = 1 then
    some {
      base := field x 16 16 + 2 ^ 16 * field x 32 8 + 2 ^ 24 * field x 56 8
      limit :=
        let l := field x 0 16 + 2 ^ 16 * field x 48 4
        if field x 55 1 = 1 then 4096 * l + 4095 else l
      code := field x 43 1 = 1
      writable := field x 43 1 = 0 ∧ field x 41 1 = 1
      long := field x 53 1 = 1
      dpl := field x 45 2
      present := field x 47 1 = 1 }
  else none

/-- The descriptor that a selector names; the first one is not used. -/
def segment (m : Nat → UInt8) (base limit selector : Nat) : Option Segment :=
  let i := selector / 8
  if i ≠ 0 ∧ 8 * i + 7 ≤ limit then segmentOf (littleEndian m (base + 8 * i) 8) else none

structure TaskSegment where
  base : Nat
  limit : Nat
  type : Nat
  dpl : Nat
  present : Bool
deriving DecidableEq, Repr

def taskSegmentOf (x : Nat) : Option TaskSegment :=
  if field x 44 1 = 0 then
    some {
      base := field x 16 16 + 2 ^ 16 * field x 32 8 + 2 ^ 24 * field x 56 8 + 2 ^ 32 * field x 64 32
      limit := field x 0 16 + 2 ^ 16 * field x 48 4
      type := field x 40 4
      dpl := field x 45 2
      present := field x 47 1 = 1 }
  else none

/-- The descriptor of 16 bytes that `ltr` loads. -/
def taskSegment (m : Nat → UInt8) (base limit selector : Nat) : Option TaskSegment :=
  let i := selector / 8
  if i ≠ 0 ∧ 8 * i + 15 ≤ limit then taskSegmentOf (littleEndian m (base + 8 * i) 16) else none

/-- The stack that the processor takes for an interrupt from ring 3. -/
def ring0Stack (m : Nat → UInt8) (t : TaskSegment) : Nat := littleEndian m (t.base + 4) 8

/-- A port may be used outside of ring 0 only if its bit in the bitmap is within the limit. -/
def mayHavePorts (m : Nat → UInt8) (t : TaskSegment) : Prop := littleEndian m (t.base + 102) 2 ≤ t.limit

variable {m : Nat → UInt8} {a tss stack : Nat}

/-- The processor finds the address of the task state segment in the four places it is stored in. -/
theorem taskSegmentOf_tssDescriptor (h : tss < 2 ^ 64) : taskSegmentOf (pack (tssDescriptor tss).fields) =
    some { base := tss, limit := sizeofTss - 1, type := 0b1001, dpl := 0, present := true } := by
  have hfield : ∀ k w v off, (tssDescriptor tss).fields[k]? = some (w, v) →
      width ((tssDescriptor tss).fields.take k) = off → field (pack (tssDescriptor tss).fields) off w = v % 2 ^ w :=
    fun _ _ _ _ => Lib.field_of_getElem?
  have haccess := hfield 3 8 0x89 40 rfl rfl
  have h1 : tss &&& 0xffff = tss % 2 ^ 16 := Nat.and_two_pow_sub_one_eq_mod tss 16
  have h2 : tss / 2 ^ 16 &&& 0xff = tss / 2 ^ 16 % 2 ^ 8 := Nat.and_two_pow_sub_one_eq_mod _ 8
  have h3 : tss / 2 ^ 24 &&& 0xff = tss / 2 ^ 24 % 2 ^ 8 := Nat.and_two_pow_sub_one_eq_mod _ 8
  have h4 : tss / 2 ^ 32 &&& 0xffffffff = tss / 2 ^ 32 % 2 ^ 32 := Nat.and_two_pow_sub_one_eq_mod _ 32
  have hbase := hfield 1 16 _ 16 rfl rfl
  have hmid := hfield 2 8 _ 32 rfl rfl
  have hhigh := hfield 6 8 _ 56 rfl rfl
  have hbase3 := hfield 7 32 _ 64 rfl rfl
  have hlow := hfield 0 16 _ 0 rfl rfl
  have hlimit := hfield 4 4 _ 48 rfl rfl
  generalize pack (tssDescriptor tss).fields = x at *
  simp only [tssDescriptor, Nat.shiftRight_eq_div_pow, h1, h2, h3, h4] at hbase hmid hhigh hbase3
  have hs : field x 44 1 = 0 := by
    unfold field at haccess ⊢
    omega
  have htype : field x 40 4 = 0b1001 := by
    unfold field at haccess ⊢
    omega
  have hdpl : field x 45 2 = 0 := by
    unfold field at haccess ⊢
    omega
  have hpresent : field x 47 1 = 1 := by
    unfold field at haccess ⊢
    omega
  have haddress : tss % 2 ^ 16 % 2 ^ 16 + 2 ^ 16 * (tss / 2 ^ 16 % 2 ^ 8 % 2 ^ 8) +
      2 ^ 24 * (tss / 2 ^ 24 % 2 ^ 8 % 2 ^ 8) + 2 ^ 32 * (tss / 2 ^ 32 % 2 ^ 32 % 2 ^ 32) = tss := by
    omega
  rw [taskSegmentOf, if_pos hs, htype, hdpl, hpresent, hbase, hmid, hhigh, hbase3, hlow, hlimit, haddress]
  rfl

/-- What `gdt_init` has stored. -/
structure Stored (m : Nat → UInt8) (a tss stack : Nat) : Prop where
  kernelCode : littleEndian m (a + 8) 8 = pack (flatSegment 0x9a 0b1010).fields
  kernelData : littleEndian m (a + 16) 8 = pack (flatSegment 0x92 0b1100).fields
  userCode : littleEndian m (a + 24) 8 = pack (flatSegment 0xfa 0b1010).fields
  userData : littleEndian m (a + 32) 8 = pack (flatSegment 0xf2 0b1100).fields
  task : littleEndian m (a + 40) 16 = pack (tssDescriptor tss).fields
  stack : littleEndian m (tss + 4) 8 = stack
  iopb : littleEndian m (tss + 102) 2 = sizeofTss

theorem stored_gdtInit (hdisj : a + 56 ≤ tss ∨ tss + sizeofTss ≤ a) (hstack : stack < 2 ^ 64) :
    Stored (gdtInit m a tss stack) a tss stack := by
  unfold sizeofTss at hdisj
  have hout : ∀ {m : Nat → UInt8} {b k c q n : Nat}, b + k ≤ c ∨ c + n ≤ b →
      littleEndian (putBytes m c q n) b k = littleEndian m b k := Lib.littleEndian_putBytes_out
  have hmod : ∀ {fs : List (Nat × Nat)} {n : Nat}, width fs = 8 * n → pack fs % 256 ^ n = pack fs := by
    intro fs n hw
    refine Nat.mod_eq_of_lt ?_
    have hlt := Lib.pack_lt fs
    rw [hw, Nat.pow_mul] at hlt
    exact hlt
  unfold gdtInit sizeofGdt32Entry sizeofTss
  constructor
  · simp only []
    rw [hout (by omega), hout (by omega), hout (by omega), hout (by omega), hout (by omega), hout (by omega),
      hout (by omega), Lib.littleEndian_putBytes]
    exact hmod rfl
  · rw [hout (by omega), hout (by omega), hout (by omega), hout (by omega), hout (by omega), hout (by omega),
      Lib.littleEndian_putBytes]
    exact hmod rfl
  · rw [hout (by omega), hout (by omega), hout (by omega), hout (by omega), hout (by omega), Lib.littleEndian_putBytes]
    exact hmod rfl
  · rw [hout (by omega), hout (by omega), hout (by omega), hout (by omega), Lib.littleEndian_putBytes]
    exact hmod rfl
  · rw [hout (by omega), hout (by omega), hout (by omega), Lib.littleEndian_putBytes]
    exact hmod rfl
  · rw [Lib.littleEndian_putBytes]
    exact Nat.mod_eq_of_lt hstack
  · rw [hout (by omega), Lib.littleEndian_putBytes]
    rfl

/-- After `gdt_init`, for tables at any addresses: the selectors that the kernel and `turn_to_userspace` load name a 64-bit
code and a writable data segment of ring 0 and of ring 3, all over the whole address space; the selector that `ltr` gets
names the task state segment at its address; an interrupt from ring 3 gets the kernel's stack, and ring 3 no port. -/
theorem segments_gdtInit (hdisj : a + 56 ≤ tss ∨ tss + sizeofTss ≤ a) (htss : tss < 2 ^ 64) (hstack : stack < 2 ^ 64) :
    (∀ sel ∈ [0x08, 0x1b], segment (gdtInit m a tss stack) a gdtLimit sel =
      some { base := 0, limit := 2 ^ 32 - 1, code := true, writable := false, long := true, dpl := sel % 4
             present := true }) ∧
    (∀ sel ∈ [0x10, 0x23], segment (gdtInit m a tss stack) a gdtLimit sel =
      some { base := 0, limit := 2 ^ 32 - 1, code := false, writable := true, long := false, dpl := sel % 4
             present := true }) ∧
    ∃ t, taskSegment (gdtInit m a tss stack) a gdtLimit 0x28 = some t ∧ t.base = tss ∧ t.type = 0b1001 ∧
      t.present = true ∧ ring0Stack (gdtInit m a tss stack) t = stack ∧ ¬ mayHavePorts (gdtInit m a tss stack) t := by
  have h := stored_gdtInit (m := m) hdisj hstack
  have hseg : ∀ i x, i ≠ 0 → 8 * i + 7 ≤ gdtLimit → littleEndian (gdtInit m a tss stack) (a + 8 * i) 8 = x →
      ∀ sel, sel / 8 = i → segment (gdtInit m a tss stack) a gdtLimit sel = segmentOf x := by
    intro i x hi hlim hx sel hsel
    unfold segment
    simp only [hsel]
    rw [if_pos ⟨hi, hlim⟩, hx]
  refine ⟨fun sel hsel => ?_, fun sel hsel => ?_, ?_⟩
  · simp only [List.mem_cons, List.not_mem_nil, or_false] at hsel
    obtain rfl | rfl := hsel
    · exact (hseg 1 _ (by decide) (by decide) h.kernelCode _ rfl).trans (by decide)
    · exact (hseg 3 _ (by decide) (by decide) h.userCode _ rfl).trans (by decide)
  · simp only [List.mem_cons, List.not_mem_nil, or_false] at hsel
    obtain rfl | rfl := hsel
    · exact (hseg 2 _ (by decide) (by decide) h.kernelData _ rfl).trans (by decide)
    · exact (hseg 4 _ (by decide) (by decide) h.userData _ rfl).trans (by decide)
  · have htask : taskSegment (gdtInit m a tss stack) a gdtLimit 0x28 =
        some { base := tss, limit := sizeofTss - 1, type := 0b1001, dpl := 0, present := true } := by
      unfold taskSegment
      rw [if_pos (by decide), show a + 8 * (0x28 / 8) = a + 40 from rfl, h.task]
      exact taskSegmentOf_tssDescriptor htss
    refine ⟨_, htask, rfl, rfl, rfl, h.stack, ?_⟩
    unfold mayHavePorts
    rw [h.iopb]
    exact Nat.not_le_of_lt (Nat.sub_lt (by decide) Nat.one_pos)

/-- Tables and a stack at three addresses of the kernel, over a memory of zeros. -/
theorem segments_gdtInit_zeros :
    segment (gdtInit (fun _ => 0) 0x108000 0x109000 0x120000) 0x108000 gdtLimit 0x1b =
      some { base := 0, limit := 2 ^ 32 - 1, code := true, writable := false, long := true, dpl := 3, present := true } :=
  (segments_gdtInit (by decide) (by decide) (by decide)).1 0x1b (by decide)

end HaOS.Cpu
