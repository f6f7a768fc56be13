import HaOS.Types

/-!
# Formats and what they print

* `Text` : a string, the bytes before its NUL;
* `intstr`, `hexstr` : numbers as texts (`string.c`);
* `pieces` : a format as literal bytes and conversions;
* `printed` : what a format prints, with its strings as they are;
* `Apart` : byte sequences that differ at a place, whatever follows them.
-/

namespace HaOS.Print

structure Text where
  bytes : List UInt8
  nul : 0 ∉ bytes

/-- What a register holds for `printf`: a number, or the address of a string. -/
inductive Arg where
  | num (value : BitVec 64)
  | str (text : Text)

/-! ## Numbers -/

/-- The loop of `strrev` is the one of `Array.reverse`. -/
def strrev (buffer : List UInt8) : List UInt8 := buffer.toArray.reverse.toList

/-- `while( value > 0 )`, the last digit first. -/
def decimals (value : Nat) : List UInt8 :=
  if value > 0 then UInt8.ofNat (value % 10 + 0x30) :: decimals (value / 10) else []
termination_by value
decreasing_by exact Nat.div_lt_self (by assumption) (by decide)

/-- The least `int` stays negative, and has no digits. -/
def intstr (value : BitVec 32) : List UInt8 :=
  let sign := decide (0 ≤ value.toInt)
  let value := if sign then value else -value
  let digits := if value ≠ 0 then decimals value.toInt.toNat else [0x30]
  strrev (if sign then digits else digits ++ [0x2D])

def hexw : List UInt8 := [48, 49, 50, 51, 52, 53, 54, 55, 56, 57, 65, 66, 67, 68, 69, 70]

/-- `for( int i = 0; i < 16; i++ )`, with the rounds that are left. -/
def hexDigits : Nat → Nat → List UInt8
  | 0, _ => []
  | rounds + 1, value =>
    if value ≠ 0 then hexw.getD (value &&& 0x0F) 0 :: hexDigits rounds (value >>> 4) else hexDigits rounds value

def hexstr (value : Nat) : List UInt8 :=
  let digits := hexDigits 16 value
  strrev (if digits = [] then [0x30, 0x30] else digits)

/-! ## Pieces -/

def percent : UInt8 := 0x25

inductive Kind where
  | i
  | x
  | s
  | c
  deriving DecidableEq

def kind (letter : UInt8) : Option Kind :=
  if letter = 0x69 then some .i
  else if letter = 0x78 then some .x
  else if letter = 0x73 then some .s
  else if letter = 0x63 then some .c
  else none

inductive Piece where
  | plain (bytes : List UInt8)
  | conversion (k : Kind)

/-- The pieces of a format. There are none when it ends with a percent sign of its own. -/
def pieces : List UInt8 → Option (List Piece)
  | [] => some []
  | [b] => if b = percent then none else some [.plain [b]]
  | b :: d :: format =>
    if b = percent then
      match kind d with
      | some k => (pieces format).map (.conversion k :: ·)
      | none => (pieces format).map (.plain [b, d] :: ·)
    else (pieces (d :: format)).map (.plain [b] :: ·)

def Arg.Is : Arg → Kind → Prop
  | .num _, .i | .num _, .x | .num _, .c | .str _, .s => True
  | _, _ => False

def Fits : List Piece → List Arg → Prop
  | [], args => args = []
  | .plain _ :: ps, args => Fits ps args
  | .conversion k :: ps, a :: args => a.Is k ∧ Fits ps args
  | .conversion _ :: _, [] => False

/-- What a conversion takes from the arguments and prints of it; `string` prints a string, and is told how many arguments
are left. -/
def convert (string : Nat → Text → Option (List UInt8)) : Kind → List Arg → Option (List UInt8 × List Arg)
  | .i, .num value :: args => some (intstr (value.setWidth 32), args)
  | .x, .num value :: args => some (hexstr value.toNat, args)
  | .c, .num value :: args => some ([UInt8.ofBitVec (value.setWidth 8)], args)
  | .s, .str text :: args => (string args.length text).map fun out => (out, args)
  | _, _ => none

/-- What the pieces print, with their strings printed by `string`. -/
def output (string : Nat → Text → Option (List UInt8)) : List Piece → List Arg → Option (List UInt8)
  | [], _ => some []
  | .plain bytes :: ps, args => (output string ps args).map (bytes ++ ·)
  | .conversion k :: ps, args =>
    (convert string k args).bind fun x => (output string ps x.2).map (x.1 ++ ·)

def Arg.print : Arg → Kind → List UInt8
  | .num value, .i => intstr (value.setWidth 32)
  | .num value, .x => hexstr value.toNat
  | .num value, _ => [UInt8.ofBitVec (value.setWidth 8)]
  | .str text, _ => text.bytes

def printed : List Piece → List Arg → List UInt8
  | .plain bytes :: ps, args => bytes ++ printed ps args
  | .conversion k :: ps, a :: args => a.print k ++ printed ps args
  | _, _ => []

@[simp] theorem printed_nil (args : List Arg) : printed [] args = [] := by
  cases args with
  | nil => rfl
  | cons _ _ => rfl

def Plain (text : Text) : Prop := ∃ ps, pieces text.bytes = some ps ∧ ∀ p ∈ ps, ∃ bytes, p = .plain bytes

variable {string : Nat → Text → Option (List UInt8)} {ps : List Piece} {args regs : List Arg} {a b bs o : List UInt8}

/-- A format that does not end with a percent sign has pieces. -/
theorem pieces_ne_none (h : bs.getLast? ≠ some percent) : pieces bs ≠ none := by
  induction bs using pieces.induct with
  | case1 => exact Option.some_ne_none _
  | case2 => exact absurd rfl h
  | case3 b hb =>
      rw [pieces, if_neg hb]
      exact Option.some_ne_none _
  | case4 d format k hk ih =>
      simp only [pieces, if_true, hk, ne_eq, Option.map_eq_none_iff]
      cases format with
      | nil => exact Option.some_ne_none _
      | cons e format => exact ih h
  | case5 d format hk ih =>
      simp only [pieces, if_true, hk, ne_eq, Option.map_eq_none_iff]
      cases format with
      | nil => exact Option.some_ne_none _
      | cons e format => exact ih h
  | case6 b d format hb ih =>
      rw [pieces, if_neg hb, Ne, Option.map_eq_none_iff]
      exact ih h

theorem output_plain (h : pieces bs = some ps) (hplain : ∀ p ∈ ps, ∃ bytes, p = .plain bytes) (regs : List Arg) :
    output string ps regs = some bs := by
  induction bs using pieces.induct generalizing ps with
  | case1 =>
      cases h
      rfl
  | case2 => cases h
  | case3 b hb =>
      rw [pieces, if_neg hb] at h
      cases h
      rfl
  | case4 d format k hk ih =>
      simp only [pieces, if_true, hk] at h
      obtain ⟨ps, -, rfl⟩ := Option.map_eq_some_iff.mp h
      obtain ⟨bytes, hp⟩ := hplain _ List.mem_cons_self
      cases hp
  | case5 d format hk ih =>
      simp only [pieces, if_true, hk] at h
      obtain ⟨ps, hps, rfl⟩ := Option.map_eq_some_iff.mp h
      rw [output, ih hps fun p hp => hplain p (List.mem_cons_of_mem _ hp)]
      rfl
  | case6 b d format hb ih =>
      rw [pieces, if_neg hb] at h
      obtain ⟨ps, hps, rfl⟩ := Option.map_eq_some_iff.mp h
      rw [output, ih hps fun p hp => hplain p (List.mem_cons_of_mem _ hp)]
      rfl

/-- Where the strings of the arguments are printed as they are, so is the format. -/
theorem output_eq_printed (h : Fits ps args) (hstring : ∀ n text, .str text ∈ args → string n text = some text.bytes)
    (regs : List Arg) : output string ps (args ++ regs) = some (printed ps args) := by
  induction ps, args using Fits.induct with
  | case1 args => rw [output, printed_nil]
  | case2 bytes ps args ih =>
      rw [output, ih h hstring, printed]
      rfl
  | case3 k ps arg args ih =>
      obtain ⟨hk, hrest⟩ := h
      have hnext := ih hrest fun n text htext => hstring n text (List.mem_cons_of_mem arg htext)
      have hconv : convert string k (arg :: args ++ regs) = some (arg.print k, args ++ regs) := by
        rcases arg with value | text
        · cases k
          · rfl
          · rfl
          · cases hk
          · rfl
        · cases k
          · cases hk
          · cases hk
          · show (string (args ++ regs).length text).map _ = _
            rw [hstring _ text List.mem_cons_self]
            rfl
          · cases hk
      rw [output, hconv, Option.bind_some, hnext, printed]
      rfl
  | case4 k ps => cases h

/-! ## Conversions without arguments -/

def Apart (a b : List UInt8) : Prop := ∃ pre x y u v, a = pre ++ x :: u ∧ b = pre ++ y :: v ∧ x ≠ y

theorem Apart.ne (h : Apart a b) : a ≠ b := by
  obtain ⟨pre, x, y, u, v, rfl, rfl, hne⟩ := h
  intro heq
  exact hne (List.cons.inj (List.append_cancel_left heq)).1

theorem Apart.append_left (h : Apart a b) (c : List UInt8) : Apart (c ++ a) (c ++ b) := by
  obtain ⟨pre, x, y, u, v, rfl, rfl, hne⟩ := h
  exact ⟨c ++ pre, x, y, u, v, (List.append_assoc ..).symm, (List.append_assoc ..).symm, hne⟩

theorem Apart.append_right (h : Apart a b) (c d : List UInt8) : Apart (a ++ c) (b ++ d) := by
  obtain ⟨pre, x, y, u, v, rfl, rfl, hne⟩ := h
  exact ⟨pre, x, y, u ++ c, v ++ d, List.append_assoc .., List.append_assoc .., hne⟩

/-- With zeros in the registers a conversion prints something else than its percent sign, or nothing is printed at all. -/
theorem convert_zero {k : Kind} {x : List UInt8 × List Arg} (hregs : ∀ a ∈ regs, a = .num 0)
    (h : convert string k regs = some x) : ∃ y u, x.1 = y :: u ∧ y ≠ percent := by
  have hint : intstr ((0 : BitVec 64).setWidth 32) = [0x30] := by decide
  have hhex : hexstr (0 : BitVec 64).toNat = [0x30, 0x30] := by decide +kernel
  rcases regs with - | ⟨arg, regs⟩
  · cases k <;> cases h
  · rw [hregs arg List.mem_cons_self] at h
    cases k
    · cases h
      exact ⟨0x30, [], hint, by decide⟩
    · cases h
      exact ⟨0x30, [0x30], hhex, by decide⟩
    · cases h
    · cases h
      exact ⟨0, [], rfl, by decide⟩

/-- With zeros in the registers a format prints itself only when it is all literal. -/
theorem output_zero (h : pieces bs = some ps) (hregs : ∀ a ∈ regs, a = .num 0) (ho : output string ps regs = some o) :
    (∀ p ∈ ps, ∃ bytes, p = .plain bytes) ∧ o = bs ∨ Apart o bs := by
  have hlit : ∀ {bytes rest : List UInt8} {qs : List Piece} {o' : List UInt8},
      (∀ p ∈ qs, ∃ bytes, p = .plain bytes) ∧ o' = rest ∨ Apart o' rest →
      (∀ p ∈ Piece.plain bytes :: qs, ∃ bytes, p = .plain bytes) ∧ bytes ++ o' = bytes ++ rest ∨
        Apart (bytes ++ o') (bytes ++ rest) := by
    intro bytes rest qs o' hrest
    rcases hrest with ⟨hplain, rfl⟩ | hapart
    · refine .inl ⟨fun p hp => ?_, rfl⟩
      rcases List.mem_cons.mp hp with rfl | hp
      · exact ⟨bytes, rfl⟩
      · exact hplain p hp
    · exact .inr (hapart.append_left bytes)
  induction bs using pieces.induct generalizing ps o with
  | case1 =>
      cases h
      cases ho
      exact .inl ⟨fun p hp => absurd hp List.not_mem_nil, rfl⟩
  | case2 => cases h
  | case3 b hb =>
      rw [pieces, if_neg hb] at h
      cases h
      cases ho
      exact hlit (.inl ⟨fun p hp => absurd hp List.not_mem_nil, rfl⟩)
  | case4 d format k hk ih =>
      simp only [pieces, if_true, hk] at h
      obtain ⟨ps, -, rfl⟩ := Option.map_eq_some_iff.mp h
      obtain ⟨x, hx, hrest⟩ := Option.bind_eq_some_iff.mp ho
      obtain ⟨o, -, rfl⟩ := Option.map_eq_some_iff.mp hrest
      obtain ⟨y, u, hy, hne⟩ := convert_zero hregs hx
      exact .inr ⟨[], y, percent, u ++ o, d :: format, by rw [hy]; rfl, rfl, hne⟩
  | case5 d format hk ih =>
      simp only [pieces, if_true, hk] at h
      obtain ⟨ps, hps, rfl⟩ := Option.map_eq_some_iff.mp h
      obtain ⟨o', ho', rfl⟩ := Option.map_eq_some_iff.mp ho
      exact hlit (ih hps ho')
  | case6 b d format hb ih =>
      rw [pieces, if_neg hb] at h
      obtain ⟨ps, hps, rfl⟩ := Option.map_eq_some_iff.mp h
      obtain ⟨o', ho', rfl⟩ := Option.map_eq_some_iff.mp ho
      exact hlit (ih hps ho')

end HaOS.Print
