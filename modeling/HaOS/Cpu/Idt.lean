import HaOS.Lib.Fields
import HaOS.Types

/-!
# The interrupt descriptor table (`kernel/cpu/idt.c`, `kernel/cpu/cpu.h`)

* `IdtEntry`, `IdtEntry.image` : `idt_entry_t` and its 16 bytes; `interruptSetEntry`, `idtInit` : what is stored in
  `idt_entries`;
* `Gate`, `gateOf`, `dispatch` : what the processor reads for a vector, and where it goes;
* `gateOf_image` : the processor reads the fields it was meant to; `dispatch_idtInit` : the gates after `idt_init`.
-/

namespace HaOS.Cpu
open Lib (pack field width putBytes littleEndian)

structure IdtEntry where
  lowOffset : Nat
  codeSgement : Nat
  ist : Nat
  gateType : Nat
  zero : Nat
  dpl : Nat
  p : Nat
  midOffset : Nat
  highOffset : Nat
  reserved0 : Nat

def IdtEntry.fields (e : IdtEntry) : List (Nat × Nat) :=
  [(16, e.lowOffset), (16, e.codeSgement), (8, e.ist), (4, e.gateType), (1, e.zero), (2, e.dpl), (1, e.p),
    (16, e.midOffset), (32, e.highOffset), (32, e.reserved0)]

def IdtEntry.image (e : IdtEntry) : Nat := pack e.fields

def dplRing0 : Nat := 0b00

def idtFlagsPresent : Nat := 1 <<< 7

def idtFlagsDpl (x : Nat) : Nat := x <<< 5

def idtFlags32intter : Nat := 0b1110

def sizeofIdtEntry : Nat := 16

def stubEntry (offset : Nat) : IdtEntry where
  lowOffset := offset &&& 0xffff
  codeSgement := 0x08
  ist := 0
  gateType := idtFlags32intter
  zero := 0
  dpl := dplRing0
  p := 1
  midOffset := offset >>> 16 &&& 0xffff
  highOffset := offset >>> 32 &&& 0xffffffff
  reserved0 := 0

def setEntry (offset codeSegment ist flags : Nat) : IdtEntry where
  lowOffset := offset &&& 0xffff
  codeSgement := codeSegment
  ist := ist &&& 0b111
  gateType := flags &&& 0b1111
  zero := 0
  dpl := flags >>> 5 &&& 0b11
  p := flags >>> 7 &&& 0b1
  midOffset := offset >>> 16 &&& 0xffff
  highOffset := offset >>> 32 &&& 0xffffffff
  reserved0 := 0

/-- `idt_entries[ index ] = e`. -/
def storeEntry (m : Nat → UInt8) (idtEntries index : Nat) (e : IdtEntry) : Nat → UInt8 :=
  putBytes m (idtEntries + sizeofIdtEntry * index) e.image sizeofIdtEntry

def interruptSetEntry (m : Nat → UInt8) (idtEntries index offset codeSegment ist flags : Nat) : Nat → UInt8 :=
  storeEntry m idtEntries index (setEntry offset codeSegment ist flags)

/-- `for( int i = 0; i < n; i++ )`, with the addresses in `interrupt_x86`. -/
def stubEntries (m : Nat → UInt8) (idtEntries : Nat) (interruptList : Nat → Nat) : Nat → Nat → UInt8
  | 0 => m
  | n + 1 => storeEntry (stubEntries m idtEntries interruptList n) idtEntries n (stubEntry (interruptList n))

/-- `idt_entries` after `idt_init`, which also clears `interrupt_registers`, fills `idt_desc` and calls what sets up the
devices: these store elsewhere. -/
def idtInit (m : Nat → UInt8) (idtEntries : Nat) (interruptList : Nat → Nat) (intSyscall : Nat) : Nat → UInt8 :=
  interruptSetEntry (stubEntries m idtEntries interruptList 48) idtEntries 0x80 intSyscall 0x08 0x00
    (idtFlagsPresent ||| idtFlagsDpl dplRing0 ||| idtFlags32intter)

/-- `idt_desc.limit`. -/
def idtLimit : Nat := sizeofIdtEntry * 256 - 1

/-! ## The processor -/

@[ext] structure Gate where
  offset : Nat
  selector : Nat
  ist : Nat
  type : Nat
  dpl : Nat
  present : Nat
deriving DecidableEq, Repr

/-- The fields of a gate of 16 bytes, at the bits where the processor looks for them. -/
def gateOf (x : Nat) : Gate where
  offset := field x 0 16 + 2 ^ 16 * field x 48 16 + 2 ^ 32 * field x 64 32
  selector := field x 16 16
  ist := field x 32 3
  type := field x 40 4
  dpl := field x 45 2
  present := field x 47 1

/-- The gate of a vector: it must lie within the limit, be present and be one of the two types of 64-bit gates, and an `int`
instruction must not be less privileged than the gate; otherwise there is an exception. -/
def dispatch (m : Nat → UInt8) (base limit vector : Nat) (software : Bool) (cpl : Nat) : Option Gate :=
  if 16 * vector + 15 ≤ limit then
    let g := gateOf (littleEndian m (base + 16 * vector) 16)
    if (g.type = 0b1110 ∨ g.type = 0b1111) ∧ g.present = 1 ∧ (software → cpl ≤ g.dpl) then some g else none
  else none

variable {m : Nat → UInt8} {a i j n v offset codeSegment ist flags : Nat} {e : IdtEntry} {list : Nat → Nat}

theorem and_ffff (x : Nat) : x &&& 0xffff = x % 2 ^ 16 := Nat.and_two_pow_sub_one_eq_mod x 16

theorem and_ffffffff (x : Nat) : x &&& 0xffffffff = x % 2 ^ 32 := Nat.and_two_pow_sub_one_eq_mod x 32

/-- The three parts of an address make up the address. -/
theorem offset_parts (h : offset < 2 ^ 64) :
    offset % 2 ^ 16 % 2 ^ 16 + 2 ^ 16 * ((offset / 2 ^ 16) % 2 ^ 16 % 2 ^ 16) +
      2 ^ 32 * ((offset / 2 ^ 32) % 2 ^ 32 % 2 ^ 32) = offset := by
  omega

/-- The processor reads the fields of an entry where the compiler puts them. -/
theorem gateOf_image (e : IdtEntry) : gateOf e.image =
    { offset := e.lowOffset % 2 ^ 16 + 2 ^ 16 * (e.midOffset % 2 ^ 16) + 2 ^ 32 * (e.highOffset % 2 ^ 32)
      selector := e.codeSgement % 2 ^ 16
      ist := e.ist % 2 ^ 3
      type := e.gateType % 2 ^ 4
      dpl := e.dpl % 2 ^ 2
      present := e.p % 2 ^ 1 } := by
  have hfield : ∀ k w v off, e.fields[k]? = some (w, v) → width (e.fields.take k) = off →
      field e.image off w = v % 2 ^ w := fun _ _ _ _ => Lib.field_of_getElem?
  have hist : field e.image 32 3 = e.ist % 2 ^ 3 := by
    have h8 := hfield 2 8 e.ist 32 rfl rfl
    unfold field at h8 ⊢
    omega
  simp only [gateOf, Gate.mk.injEq]
  refine ⟨?_, hfield 1 16 _ 16 rfl rfl, hist, hfield 3 4 _ 40 rfl rfl, hfield 5 2 _ 45 rfl rfl, hfield 6 1 _ 47 rfl rfl⟩
  rw [hfield 0 16 _ 0 rfl rfl, hfield 7 16 _ 48 rfl rfl, hfield 8 32 _ 64 rfl rfl]

theorem gateOf_setEntry (hoff : offset < 2 ^ 64) : gateOf (setEntry offset codeSegment ist flags).image =
    { offset := offset
      selector := codeSegment % 2 ^ 16
      ist := ist % 8
      type := flags % 16
      dpl := flags / 2 ^ 5 % 4
      present := flags / 2 ^ 7 % 2 } := by
  have h3 : ist &&& 0b111 = ist % 2 ^ 3 := Nat.and_two_pow_sub_one_eq_mod ist 3
  have h4 : flags &&& 0b1111 = flags % 2 ^ 4 := Nat.and_two_pow_sub_one_eq_mod flags 4
  have h2 : flags / 2 ^ 5 &&& 0b11 = flags / 2 ^ 5 % 2 ^ 2 := Nat.and_two_pow_sub_one_eq_mod _ 2
  have h1 : flags / 2 ^ 7 &&& 0b1 = flags / 2 ^ 7 % 2 ^ 1 := Nat.and_two_pow_sub_one_eq_mod _ 1
  rw [gateOf_image]
  simp only [setEntry, Nat.shiftRight_eq_div_pow, and_ffff, and_ffffffff, h1, h2, h3, h4, Gate.mk.injEq]
  refine ⟨offset_parts hoff, True.intro, ?_, ?_, ?_, ?_⟩ <;> omega

theorem gateOf_stubEntry (hoff : offset < 2 ^ 64) : gateOf (stubEntry offset).image =
    { offset := offset, selector := 0x08, ist := 0, type := 0b1110, dpl := 0, present := 1 } := by
  rw [gateOf_image]
  simp only [stubEntry, Nat.shiftRight_eq_div_pow, and_ffff, and_ffffffff, Gate.mk.injEq]
  exact ⟨offset_parts hoff, rfl, rfl, rfl, rfl, rfl⟩

/-! ## The table -/

theorem image_lt (e : IdtEntry) : e.image < 256 ^ 16 := by
  have h := Lib.pack_lt e.fields
  rwa [show width e.fields = 128 from rfl] at h

theorem littleEndian_storeEntry (m : Nat → UInt8) (a i : Nat) (e : IdtEntry) (v : Nat) :
    littleEndian (storeEntry m a i e) (a + 16 * v) 16 =
      if v = i then e.image else littleEndian m (a + 16 * v) 16 := by
  unfold storeEntry sizeofIdtEntry
  split_ifs with h
  · rw [h, Lib.littleEndian_putBytes, Nat.mod_eq_of_lt (image_lt e)]
  · exact Lib.littleEndian_putBytes_out (by omega)

theorem littleEndian_stubEntries (m : Nat → UInt8) (a : Nat) (list : Nat → Nat) (n v : Nat) :
    littleEndian (stubEntries m a list n) (a + 16 * v) 16 =
      if v < n then (stubEntry (list v)).image else littleEndian m (a + 16 * v) 16 := by
  induction n with
  | zero => rw [if_neg (Nat.not_lt_zero v), stubEntries]
  | succ n ih =>
      rw [stubEntries, littleEndian_storeEntry, ih]
      by_cases hv : v = n
      · rw [if_pos hv, if_pos (by omega), hv]
      · rw [if_neg hv]
        exact if_congr (by omega) rfl rfl

theorem littleEndian_zero (h : ∀ i < n, m (a + i) = 0) : littleEndian m a n = 0 := by
  have hbyte : ∀ i < n, m (a + i) = Lib.byteOf 0 i := by
    intro i hi
    rw [h i hi, Lib.byteOf, Nat.zero_div]
    rfl
  rw [Lib.littleEndian_byteOf hbyte, Nat.zero_mod]

/-- After `idt_init`, wherever the table and the stubs lie: the processor goes to stub `v` for each of the first 48 vectors
and to `int_syscall` for the vector `0x80`, through an interrupt gate of the kernel's code segment, and has no gate for any
other vector; an `int` instruction reaches these gates from ring 0 only. -/
theorem dispatch_idtInit (hzero : ∀ i < 4096, m (a + i) = 0) (hlist : ∀ i < 48, list i < 2 ^ 64) {intSyscall : Nat}
    (hsys : intSyscall < 2 ^ 64) :
    ∀ v < 256, ∀ software cpl, dispatch (idtInit m a list intSyscall) a idtLimit v software cpl =
      if (v < 48 ∨ v = 0x80) ∧ (software → cpl = 0) then
        some { offset := if v < 48 then list v else intSyscall
               selector := 0x08, ist := 0, type := 0b1110, dpl := 0, present := 1 }
      else none := by
  intro v hv software cpl
  have hread : littleEndian (idtInit m a list intSyscall) (a + 16 * v) 16 =
      if v = 0x80 then (setEntry intSyscall 0x08 0 0x8e).image
      else if v < 48 then (stubEntry (list v)).image else 0 := by
    unfold idtInit interruptSetEntry
    rw [littleEndian_storeEntry, littleEndian_stubEntries]
    have hrest : littleEndian m (a + 16 * v) 16 = 0 := by
      refine littleEndian_zero fun i hi => ?_
      rw [Nat.add_assoc]
      exact hzero _ (by omega)
    rw [hrest]
    rfl
  unfold dispatch
  rw [if_pos (by unfold idtLimit sizeofIdtEntry; omega), hread]
  by_cases h80 : v = 0x80
  · rw [if_pos h80, gateOf_setEntry hsys]
    simp [h80]
  · by_cases h48 : v < 48
    · rw [if_neg h80, if_pos h48, gateOf_stubEntry (hlist v h48)]
      simp [h48]
    · rw [if_neg h80, if_neg h48]
      have h0 : (gateOf 0).type = 0 := rfl
      simp [h0, h80, h48]

/-- A table at 0x8000 with stubs from 1 MB on: the system call from ring 3, and the keyboard. -/
theorem dispatch_idtInit_boot :
    dispatch (idtInit (fun _ => 0) 0x8000 (fun v => 0x100000 + 16 * v) 0x200000) 0x8000 idtLimit 0x80 true 3 = none ∧
      (dispatch (idtInit (fun _ => 0) 0x8000 (fun v => 0x100000 + 16 * v) 0x200000) 0x8000 idtLimit 33 false 3).map
        Gate.offset = some 0x100210 := by
  have hlist : ∀ i < 48, (fun v => 0x100000 + 16 * v) i < 2 ^ 64 := fun i hi => by
    show 0x100000 + 16 * i < 2 ^ 64
    omega
  have h := dispatch_idtInit (m := fun _ => 0) (a := 0x8000) (fun _ _ => rfl) hlist (by decide : 0x200000 < 2 ^ 64)
  refine ⟨?_, ?_⟩
  · rw [h 0x80 (by decide)]
    decide
  · rw [h 33 (by decide)]
    decide

end HaOS.Cpu
