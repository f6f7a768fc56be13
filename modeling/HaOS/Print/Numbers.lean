import HaOS.Lib.Buffer
import HaOS.Print.Format
import Mathlib.Data.Nat.Digits.Lemmas

/-!
# Numbers in their buffers (`kernel/string.c`)

* `Numbers.intstr`, `Numbers.hexstr` : the buffer that the call leaves, with the places that it wrote;
* `Numbers.strint` : a text read as an `int`;
* `Holds` : the text in a buffer; `intstr_holds`, `hexstr_holds` : the calls leave the texts `Print.intstr` and
  `Print.hexstr`;
* `strint_intstr_iff` : a number comes back unless it is the least;
* `hexstr_reads` : a qword can be read off its digits.
-/

namespace HaOS.Print

open Lib (Buffer slice)

namespace Numbers

/-- `while( buffer[index] != 0 ) index++;`. -/
def strsizeLoop (buffer : Nat → UInt8) : Nat → Nat → Option Nat
  | 0, _ => none
  | rounds + 1, index => if buffer index ≠ 0 then strsizeLoop buffer rounds (index + 1) else some index

def strsize (rounds : Nat) (buffer : Nat → UInt8) : Option Nat := strsizeLoop buffer rounds 0

/-- The last index of an empty text is -1, and nothing is exchanged, as with 0. -/
def strrev (rounds : Nat) (buffer : Buffer UInt8) : Option (Buffer UInt8) :=
  (strsize rounds buffer.get).map fun size => buffer.swaps 0 (size - 1)

/-- `while( value > 0 )`, with the index behind the digits. -/
def intLoop (value index : Nat) (buffer : Buffer UInt8) : Nat × Buffer UInt8 :=
  if value > 0 then intLoop (value / 10) (index + 1) (buffer.put index (UInt8.ofNat (value % 10 + 0x30)))
  else (index, buffer)
termination_by value
decreasing_by exact Nat.div_lt_self (by assumption) (by decide)

def intstr (rounds : Nat) (value : BitVec 32) (buffer : Buffer UInt8) : Option (Buffer UInt8) :=
  let sign := decide (0 ≤ value.toInt)
  let value := if sign then value else value * -1
  let (index, buffer) := if value ≠ 0 then intLoop value.toInt.toNat 0 buffer else (1, buffer.put 0 0x30)
  let (index, buffer) := if sign then (index, buffer) else (index + 1, buffer.put index 0x2D)
  strrev rounds (buffer.put index 0)

/-- `for( int i = 0; i < 16; i++ )`, with the rounds that are left. -/
def hexLoop : Nat → Nat → Nat → Buffer UInt8 → Nat × Buffer UInt8
  | 0, _, index, buffer => (index, buffer)
  | left + 1, value, index, buffer =>
    if value ≠ 0 then hexLoop left (value >>> 4) (index + 1) (buffer.put index (hexw.getD (value &&& 0x0F) 0))
    else hexLoop left value index buffer

def hexstr (rounds : Nat) (value : BitVec 64) (buffer : Buffer UInt8) : Option (Buffer UInt8) :=
  let (index, buffer) := hexLoop 16 value.toNat 0 buffer
  let (index, buffer) := if index = 0 then (2, (buffer.put 0 0x30).put 1 0x30) else (index, buffer)
  strrev rounds (buffer.put index 0)

/-- `v - '0'` for a `char`, which has a sign. -/
def digitOf (v : UInt8) : BitVec 32 := v.toBitVec.signExtend 32 - 0x30

/-- `while( index < len )`, with the characters that are left. -/
def strintLoop (text : Nat → UInt8) : Nat → Nat → BitVec 32 → BitVec 32
  | 0, _, val => val
  | left + 1, index, val => strintLoop text left (index + 1) (val * 10 + digitOf (text index))

def strint (rounds : Nat) (text : Nat → UInt8) : Option (BitVec 32) := do
  let len ← strsize rounds text
  if text 0 = 0x2D then some (strintLoop text (len - 1) 1 0 * -1) else some (strintLoop text len 0 0)

end Numbers

open Numbers

structure Holds (buffer : Nat → UInt8) (bs : List UInt8) : Prop where
  slice : slice buffer 0 bs.length = bs
  nul : buffer bs.length = 0
  inside : 0 ∉ bs

variable {buffer : Nat → UInt8} {b : Buffer UInt8} {bs cs : List UInt8} {rounds n : Nat}

/-! ## Texts -/

theorem Holds.get (h : Holds buffer bs) (hn : n < bs.length) : buffer n = bs[n] := by
  have hget := Lib.getElem?_slice (f := buffer) (p := 0) hn
  rw [h.slice, List.getElem?_eq_getElem hn, Nat.zero_add] at hget
  exact (Option.some.inj hget).symm

theorem holds_of_get (h : ∀ i (hi : i < bs.length), buffer i = bs[i]) (hnul : buffer bs.length = 0) (hbs : 0 ∉ bs) :
    Holds buffer bs := by
  refine ⟨List.ext_getElem (Lib.length_slice ..) fun i h1 h2 => ?_, hnul, hbs⟩
  simp only [Lib.slice, List.getElem_map, List.getElem_range, Nat.zero_add]
  exact h i h2

theorem Holds.congr {buffer' : Nat → UInt8} (h : Holds buffer bs) (heq : ∀ i ≤ bs.length, buffer' i = buffer i) :
    Holds buffer' bs :=
  holds_of_get (fun i hi => (heq i (Nat.le_of_lt hi)).trans (h.get hi)) ((heq _ (Nat.le_refl _)).trans h.nul) h.inside

theorem Holds.append_left (h : Holds buffer (bs ++ cs)) :
    (∀ i (hi : i < bs.length), buffer i = bs[i]) ∧ 0 ∉ bs := by
  refine ⟨fun i hi => ?_, fun h0 => h.inside (List.mem_append_left cs h0)⟩
  rw [h.get (by rw [List.length_append]; omega), List.getElem_append_left hi]

theorem Holds.append_right (h : Holds buffer (bs ++ cs)) : Holds (fun i => buffer (bs.length + i)) cs := by
  apply holds_of_get
  · intro i hi
    rw [h.get (by rw [List.length_append]; omega), List.getElem_append_right (Nat.le_add_right _ _)]
    simp only [Nat.add_sub_cancel_left]
  · rw [← List.length_append]
    exact h.nul
  · exact fun h0 => h.inside (List.mem_append_right bs h0)

theorem strsizeLoop_eq (h : Holds buffer bs) (hn : n ≤ bs.length) (hrounds : bs.length < n + rounds) :
    strsizeLoop buffer rounds n = some bs.length := by
  induction rounds generalizing n with
  | zero => omega
  | succ rounds ih =>
      rw [strsizeLoop]
      rcases Nat.lt_or_eq_of_le hn with hlt | rfl
      · have hne : buffer n ≠ 0 := by
          rw [h.get hlt]
          exact fun h0 => h.inside (h0 ▸ List.getElem_mem hlt)
        rw [if_pos hne, ih hlt (by omega)]
      · rw [if_neg (not_not.mpr h.nul)]

theorem strsize_eq (h : Holds buffer bs) (hrounds : bs.length < rounds) : strsize rounds buffer = some bs.length :=
  strsizeLoop_eq h (Nat.zero_le _) (by omega)

theorem Holds.unique (h : Holds buffer bs) (h' : Holds buffer cs) : bs = cs := by
  have hlen : some bs.length = some cs.length :=
    (strsize_eq h (show bs.length < bs.length + cs.length + 1 by omega)).symm.trans (strsize_eq h' (by omega))
  rw [← h.slice, ← h'.slice, Option.some.inj hlen]

theorem holds_puts (b : Buffer UInt8) (h : 0 ∉ bs) : Holds ((b.puts 0 bs).put bs.length 0).get bs := by
  refine ⟨?_, Buffer.get_put_self .., h⟩
  refine Eq.trans ?_ (Buffer.slice_puts b 0 bs)
  apply Lib.slice_congr
  intro i hi
  exact Buffer.get_put_of_ne _ _ (by omega)

theorem Holds.strrev (h : Holds b.get bs) (hrounds : bs.length < rounds) :
    ∃ b', Numbers.strrev rounds b = some b' ∧ Holds b'.get bs.reverse ∧ Buffer.Writes (· ≤ bs.length) b b' := by
  have hwrites := Buffer.writes_swaps b 0 (bs.length - 1)
  refine ⟨b.swaps 0 (bs.length - 1), ?_, ⟨?_, ?_, ?_⟩, hwrites.mono fun i hi => by omega⟩
  · rw [Numbers.strrev, strsize_eq h hrounds]
    rfl
  · rw [List.length_reverse, Buffer.slice_swaps, h.slice]
  · rw [List.length_reverse]
    rcases Nat.eq_zero_or_pos bs.length with hzero | hpos
    · rw [hzero, Buffer.swaps_of_le (Nat.le_refl _), ← hzero]
      exact h.nul
    · rw [hwrites.get (by omega), h.nul]
  · rw [List.mem_reverse]
    exact h.inside

theorem strrev_puts (b : Buffer UInt8) (h : 0 ∉ bs) (hrounds : bs.length < rounds) :
    ∃ b', Numbers.strrev rounds ((b.puts 0 bs).put bs.length 0) = some b' ∧ Holds b'.get bs.reverse ∧
      Buffer.Writes (· ≤ bs.length) b b' := by
  obtain ⟨b', hb', hholds, hwrites⟩ := (holds_puts b h).strrev hrounds
  have hputs : Buffer.Writes (· ≤ bs.length) b (b.puts 0 bs) :=
    (Buffer.writes_puts b 0 bs).mono fun i hi => by omega
  exact ⟨b', hb', hholds, (hputs.trans (Buffer.writes_put _ _ (Nat.le_refl _))).trans hwrites⟩

theorem strrev_eq_reverse (bs : List UInt8) : strrev bs = bs.reverse := by
  simp [strrev]

/-! ## Digits -/

theorem decimals_eq (value : Nat) : decimals value = (Nat.digits 10 value).map fun d => UInt8.ofNat (d + 0x30) := by
  induction value using decimals.induct with
  | case1 value hpos ih =>
      rw [decimals, if_pos hpos, ih, Nat.digits_def' (by decide) hpos, List.map_cons]
  | case2 value hpos => rw [decimals, if_neg hpos, Nat.eq_zero_of_not_pos hpos, Nat.digits_zero, List.map_nil]

theorem hexDigits_eq {left value : Nat} (h : value < 16 ^ left) :
    hexDigits left value = (Nat.digits 16 value).map fun d => hexw.getD d 0 := by
  induction left generalizing value with
  | zero =>
      rw [Nat.lt_one_iff.mp h, Nat.digits_zero]
      rfl
  | succ left ih =>
      rcases Nat.eq_zero_or_pos value with rfl | hpos
      · rw [hexDigits, if_neg (not_not.mpr rfl), ih (Nat.pow_pos (by decide))]
      · have hlow : value &&& 0x0F = value % 16 := Nat.and_two_pow_sub_one_eq_mod value 4
        have hhigh : value >>> 4 = value / 16 := Nat.shiftRight_eq_div_pow value 4
        rw [hexDigits, if_pos (Nat.ne_of_gt hpos), hlow, hhigh, ih (Nat.div_lt_of_lt_mul (by rwa [← Nat.pow_succ'])),
          Nat.digits_def' (by decide) hpos, List.map_cons]

theorem intLoop_eq (value index : Nat) (b : Buffer UInt8) :
    intLoop value index b = (index + (decimals value).length, b.puts index (decimals value)) := by
  induction value, index, b using intLoop.induct with
  | case1 value index b hpos ih =>
      have hdec : decimals value = UInt8.ofNat (value % 10 + 0x30) :: decimals (value / 10) := by
        rw [decimals, if_pos hpos]
      rw [intLoop, if_pos hpos, ih, hdec, List.length_cons, Buffer.puts, Nat.add_assoc, Nat.add_comm 1]
  | case2 value index b hpos =>
      rw [intLoop, if_neg hpos, decimals, if_neg hpos]
      rfl

theorem hexLoop_eq (left value index : Nat) (b : Buffer UInt8) :
    hexLoop left value index b = (index + (hexDigits left value).length, b.puts index (hexDigits left value)) := by
  induction left generalizing value index b with
  | zero => rfl
  | succ left ih =>
      rw [hexLoop, hexDigits]
      split_ifs with hne
      · rw [ih, List.length_cons, Buffer.puts, Nat.add_assoc, Nat.add_comm 1]
      · exact ih value index b

/-! ## Decimal texts -/

theorem digit_toNat {d : Nat} (h : d < 10) : (UInt8.ofNat (d + 0x30)).toNat = d + 0x30 := by
  rw [UInt8.toNat_ofNat', Nat.mod_eq_of_lt (by omega)]

theorem digitOf_digit {d : Nat} (h : d < 10) : digitOf (UInt8.ofNat (d + 0x30)) = BitVec.ofNat 32 d := by
  interval_cases d <;> rfl

theorem digit_of_mem_decimals {v : UInt8} {value : Nat} (h : v ∈ decimals value) :
    ∃ d < 10, v = UInt8.ofNat (d + 0x30) := by
  rw [decimals_eq] at h
  obtain ⟨d, hd, rfl⟩ := List.mem_map.mp h
  exact ⟨d, Nat.digits_lt_base (by decide) hd, rfl⟩

theorem length_decimals_le {value : Nat} (h : value < 2 ^ 31) : (decimals value).length ≤ 10 := by
  rw [decimals_eq, List.length_map, Nat.digits_length_le_iff (by decide)]
  omega

/-- What `strint` makes of characters, from `val` on. -/
def parse (val : BitVec 32) (bs : List UInt8) : BitVec 32 := bs.foldl (fun val v => val * 10 + digitOf v) val

/-- The digits, the last one first, denote the number. -/
theorem parse_decimals (value : Nat) : parse 0 (decimals value).reverse = BitVec.ofNat 32 value := by
  induction value using decimals.induct with
  | case1 value hpos ih =>
      have hlast : digitOf (UInt8.ofNat (value % 10 + 0x30)) = BitVec.ofNat 32 (value % 10) :=
        digitOf_digit (Nat.mod_lt value (by decide))
      rw [parse] at ih
      rw [decimals, if_pos hpos, List.reverse_cons, parse, List.foldl_append, ih, List.foldl_cons, List.foldl_nil, hlast]
      calc BitVec.ofNat 32 (value / 10) * 10 + BitVec.ofNat 32 (value % 10)
          = BitVec.ofNat 32 (value / 10 * 10 + value % 10) := by
            rw [BitVec.ofNat_add, BitVec.ofNat_mul]
            rfl
        _ = BitVec.ofNat 32 value := by rw [Nat.mul_comm, Nat.div_add_mod]
  | case2 value hpos =>
      rw [decimals, if_neg hpos, Nat.eq_zero_of_not_pos hpos]
      rfl

theorem mul_neg_one (val : BitVec 32) : val * -1 = -val := by
  rw [BitVec.mul_neg]
  exact congrArg _ (BitVec.mul_one val)

theorem strintLoop_eq (h : Holds buffer bs) (hn : n ≤ bs.length) (val : BitVec 32) :
    strintLoop buffer (bs.length - n) n val = parse val (bs.drop n) := by
  obtain ⟨left, hleft⟩ : ∃ left, bs.length - n = left := ⟨_, rfl⟩
  rw [hleft]
  induction left generalizing n val with
  | zero =>
      rw [List.drop_eq_nil_of_le (by omega)]
      rfl
  | succ left ih =>
      rw [strintLoop, ih (by omega) _ (by omega), h.get (by omega), List.drop_eq_getElem_cons (by omega : n < bs.length)]
      rfl

theorem strint_eq (h : Holds buffer bs) (hrounds : bs.length < rounds) :
    strint rounds buffer = some (if bs.head? = some 0x2D then -parse 0 bs.tail else parse 0 bs) := by
  have hlen := strsize_eq h hrounds
  cases bs with
  | nil =>
      have hnul : buffer 0 = 0 := h.nul
      simp only [strint, hlen, hnul]
      rfl
  | cons v bs =>
      have hfirst : buffer 0 = v := h.get (Nat.succ_pos _)
      have htail := strintLoop_eq h (n := 1) (Nat.succ_le_succ (Nat.zero_le _)) 0
      have hall := strintLoop_eq h (n := 0) (Nat.zero_le _) 0
      simp only [strint, hlen, hfirst, List.head?_cons, Option.some.injEq, List.tail_cons]
      split_ifs with hsign
      · show some (strintLoop buffer ((v :: bs).length - 1) 1 0 * -1) = _
        rw [htail, mul_neg_one]
        rfl
      · show some (strintLoop buffer ((v :: bs).length - 0) 0 0) = _
        rw [hall]
        rfl

theorem digits_stored (value : BitVec 32) (b : Buffer UInt8) :
    (if value ≠ 0 then intLoop value.toInt.toNat 0 b else (1, b.put 0 0x30)) =
      ((if value ≠ 0 then decimals value.toInt.toNat else [0x30]).length,
        b.puts 0 (if value ≠ 0 then decimals value.toInt.toNat else [0x30])) := by
  split_ifs
  · rw [intLoop_eq, Nat.zero_add]
  · rfl

theorem toInt_toNat_lt (value : BitVec 32) : value.toInt.toNat < 2 ^ 31 := by
  have := BitVec.toInt_lt (x := value)
  omega

theorem digits_bounds (value : BitVec 32) :
    0 ∉ (if value ≠ 0 then decimals value.toInt.toNat else [0x30]) ∧
      (if value ≠ 0 then decimals value.toInt.toNat else [0x30]).length ≤ 10 := by
  split_ifs
  · refine ⟨fun h => ?_, length_decimals_le (toInt_toNat_lt value)⟩
    obtain ⟨d, hd, h0⟩ := digit_of_mem_decimals h
    have := congrArg UInt8.toNat h0
    rw [digit_toNat hd] at this
    exact absurd this.symm (Nat.succ_ne_zero _)
  · exact ⟨by decide, by decide⟩

/-- `intstr` leaves its text in the buffer, and writes at most twelve bytes of it. -/
theorem intstr_holds (value : BitVec 32) (b : Buffer UInt8) (hrounds : 12 ≤ rounds) :
    ∃ b', Numbers.intstr rounds value b = some b' ∧ Holds b'.get (Print.intstr value) ∧
      (Print.intstr value).length < 12 ∧ Buffer.Writes (· < 12) b b' := by
  obtain ⟨w, hw⟩ : ∃ w, w = if decide (0 ≤ value.toInt) then value else -value := ⟨_, rfl⟩
  obtain ⟨ds, hds⟩ : ∃ ds, ds = if w ≠ 0 then decimals w.toInt.toNat else [0x30] := ⟨_, rfl⟩
  obtain ⟨text, htext⟩ : ∃ text, text = if decide (0 ≤ value.toInt) then ds else ds ++ [0x2D] := ⟨_, rfl⟩
  have hprint : Print.intstr value = text.reverse := by
    rw [Print.intstr, strrev_eq_reverse, htext, hds, hw]
  have hcall : Numbers.intstr rounds value b = Numbers.strrev rounds ((b.puts 0 text).put text.length 0) := by
    have hstored := digits_stored w b
    rw [← hds] at hstored
    simp only [Numbers.intstr, mul_neg_one, ← hw, hstored]
    rw [htext]
    split_ifs
    · rfl
    · rw [Buffer.puts_append, List.length_append, Nat.zero_add]
      rfl
  obtain ⟨hnul, hlen⟩ : 0 ∉ ds ∧ ds.length ≤ 10 := hds ▸ digits_bounds w
  obtain ⟨hnul', hlen'⟩ : 0 ∉ text ∧ text.length ≤ 11 := by
    rw [htext]
    split_ifs
    · exact ⟨hnul, Nat.le_succ_of_le hlen⟩
    · refine ⟨fun h => ?_, ?_⟩
      · rcases List.mem_append.mp h with h | h
        · exact hnul h
        · exact absurd h (by decide)
      · rw [List.length_append, List.length_singleton]
        omega
  obtain ⟨b', hb', hholds, hwrites⟩ := strrev_puts b hnul' (show text.length < rounds by omega)
  refine ⟨b', hcall.trans hb', hprint ▸ hholds, ?_, hwrites.mono fun i hi => by omega⟩
  rw [hprint, List.length_reverse]
  omega

theorem parse_digits {value : BitVec 32} (h : 0 ≤ value.toInt) :
    parse 0 (if value ≠ 0 then decimals value.toInt.toNat else [0x30]).reverse = value := by
  split_ifs with hne
  · have hval : value.toInt.toNat = value.toNat := by
      rw [BitVec.toInt_eq_toNat_cond] at h ⊢
      have := value.isLt
      split_ifs at h ⊢
      · rfl
      · omega
    rw [parse_decimals, hval, BitVec.ofNat_toNat, BitVec.setWidth_eq]
  · rw [not_not.mp hne]
    rfl

theorem head_digits (value : BitVec 32) :
    (if value ≠ 0 then decimals value.toInt.toNat else [0x30]).reverse.head? ≠ some 0x2D := by
  intro h
  have hmem := List.mem_reverse.mp (List.mem_of_mem_head? h)
  split_ifs at hmem
  · obtain ⟨d, hd, hsign⟩ := digit_of_mem_decimals hmem
    have := congrArg UInt8.toNat hsign
    rw [digit_toNat hd] at this
    have hval : (0x2D : UInt8).toNat = 0x2D := rfl
    omega
  · exact absurd hmem (by decide)

theorem intstr_intMin : Print.intstr (BitVec.intMin 32) = [0x2D] := by
  have hneg : -BitVec.intMin 32 = BitVec.intMin 32 := by decide
  have hval : (BitVec.intMin 32).toInt.toNat = 0 := by decide
  have hsign : decide (0 ≤ (BitVec.intMin 32).toInt) = false := by decide
  have hne : BitVec.intMin 32 ≠ 0 := by decide
  have hdigits : decimals 0 = [] := by rw [decimals, if_neg (Nat.lt_irrefl 0)]
  simp only [Print.intstr, hsign, Bool.false_eq_true, if_false, hneg, hval, if_pos hne, hdigits]
  rfl

/-- `strint` finds the number again, except for the least one, which has no digits. -/
theorem read_intstr_iff (value : BitVec 32) :
    (if (Print.intstr value).head? = some 0x2D then -parse 0 (Print.intstr value).tail else parse 0 (Print.intstr value)) =
      value ↔ value ≠ BitVec.intMin 32 := by
  by_cases hmin : value = BitVec.intMin 32
  · rw [hmin, intstr_intMin]
    exact ⟨fun h => absurd h (by decide), fun h => absurd rfl h⟩
  · refine iff_of_true ?_ hmin
    by_cases hsign : 0 ≤ value.toInt
    · have htext : Print.intstr value = (if value ≠ 0 then decimals value.toInt.toNat else [0x30]).reverse := by
        simp only [Print.intstr, hsign, decide_true, if_true, strrev_eq_reverse]
      rw [htext, if_neg (head_digits value), parse_digits hsign]
    · have hnonneg : 0 ≤ (-value).toInt := by
        rw [BitVec.toInt_neg_of_ne_intMin hmin]
        omega
      have htext : Print.intstr value =
          0x2D :: (if -value ≠ 0 then decimals (-value).toInt.toNat else [0x30]).reverse := by
        simp only [Print.intstr, hsign, decide_false, Bool.false_eq_true, if_false, strrev_eq_reverse, List.reverse_append,
          List.reverse_singleton, List.singleton_append]
      rw [htext, List.head?_cons, if_pos rfl, List.tail_cons, parse_digits hnonneg, BitVec.neg_neg]

/-- A number printed into a buffer takes at most twelve bytes, and is read back, exactly when it is not the least `int`. -/
theorem strint_intstr_iff (value : BitVec 32) (b : Buffer UInt8) (hrounds : 12 ≤ rounds) :
    (∃ b', Numbers.intstr rounds value b = some b' ∧ Buffer.Writes (· < 12) b b' ∧ strint rounds b'.get = some value) ↔
      value ≠ BitVec.intMin 32 := by
  obtain ⟨b', hb', hholds, hlen, hwrites⟩ := intstr_holds value b hrounds
  have hread := strint_eq hholds (Nat.lt_of_lt_of_le hlen hrounds)
  rw [← read_intstr_iff value]
  constructor
  · rintro ⟨b'', hb'', -, hval⟩
    rw [hb'] at hb''
    cases hb''
    rw [hread] at hval
    exact Option.some.inj hval
  · intro h
    exact ⟨b', hb', hwrites, by rw [hread, h]⟩

/-- `-7` and its text. -/
theorem strint_intstr_iff_minus_seven :
    (∃ b', Numbers.intstr 12 (-7) ⟨fun _ => 0, []⟩ = some b' ∧ Buffer.Writes (· < 12) ⟨fun _ => 0, []⟩ b' ∧
      strint 12 b'.get = some (-7)) ↔ (-7 : BitVec 32) ≠ BitVec.intMin 32 :=
  strint_intstr_iff (-7) ⟨fun _ => 0, []⟩ (Nat.le_refl 12)

/-- The least `int` leaves a sign alone, which is read as zero. -/
theorem strint_intstr_intMin :
    ∃ b', Numbers.intstr 12 (BitVec.intMin 32) ⟨fun _ => 0, []⟩ = some b' ∧ Holds b'.get [0x2D] ∧
      strint 12 b'.get = some 0 ∧ (0 : BitVec 32) ≠ BitVec.intMin 32 := by
  obtain ⟨b', hb', hholds, hlen, -⟩ := intstr_holds (BitVec.intMin 32) ⟨fun _ => 0, []⟩ (Nat.le_refl 12)
  rw [intstr_intMin] at hholds hlen
  exact ⟨b', hb', hholds, strint_eq hholds hlen, by decide⟩

/-! ## Hexadecimal texts -/

def hexDigit (v : UInt8) : Nat := hexw.idxOf v

/-- The number that digits denote, the most significant first. -/
def hexValue (bs : List UInt8) : Nat := bs.foldl (fun n v => 16 * n + hexDigit v) 0

/-- A text that says a number in base 16. -/
structure Says (bs : List UInt8) (value : Nat) : Prop where
  digits : ∀ v ∈ bs, v ∈ hexw
  denotes : hexValue bs = value
  first : bs.head? = some 0x30 → value = 0

theorem hexw_getD {d : Nat} (h : d < 16) : hexw.getD d 0 ∈ hexw ∧ hexDigit (hexw.getD d 0) = d := by
  interval_cases d <;> decide

theorem hexValue_digits {ds : List Nat} (h : ∀ d ∈ ds, d < 16) :
    hexValue (ds.map fun d => hexw.getD d 0).reverse = Nat.ofDigits 16 ds := by
  induction ds with
  | nil => rfl
  | cons d ds ih =>
      rw [hexValue] at ih
      rw [hexValue, List.map_cons, List.reverse_cons, List.foldl_append, ih fun e he => h e (List.mem_cons_of_mem d he),
        List.foldl_cons, List.foldl_nil, (hexw_getD (h d List.mem_cons_self)).2, Nat.ofDigits_cons, Nat.add_comm]

theorem says_hexstr {value : Nat} (h : value < 2 ^ 64) : Says (Print.hexstr value) value := by
  have hdigits : hexDigits 16 value = (Nat.digits 16 value).map fun d => hexw.getD d 0 := hexDigits_eq h
  rcases Nat.eq_zero_or_pos value with rfl | hpos
  · have htext : Print.hexstr 0 = [0x30, 0x30] := by decide +kernel
    rw [htext]
    exact ⟨by decide +kernel, by decide +kernel, fun _ => rfl⟩
  · have hlt : ∀ d ∈ Nat.digits 16 value, d < 16 := fun d hd => Nat.digits_lt_base (by decide) hd
    have hne : Nat.digits 16 value ≠ [] := Nat.digits_ne_nil_iff_ne_zero.mpr (Nat.ne_of_gt hpos)
    have htext : Print.hexstr value = ((Nat.digits 16 value).map fun d => hexw.getD d 0).reverse := by
      rw [Print.hexstr, strrev_eq_reverse, hdigits, if_neg (mt List.map_eq_nil_iff.mp hne)]
    rw [htext]
    refine ⟨fun v hv => ?_, ?_, fun hfirst => ?_⟩
    · obtain ⟨d, hd, rfl⟩ := List.mem_map.mp (List.mem_reverse.mp hv)
      exact (hexw_getD (hlt d hd)).1
    · rw [hexValue_digits hlt, Nat.ofDigits_digits]
    · -- the first digit is the last one produced, which is not zero
      rw [List.head?_reverse, List.getLast?_map, List.getLast?_eq_some_getLast hne, Option.map_some,
        Option.some.injEq] at hfirst
      have hlast := (hexw_getD (hlt _ (List.getLast_mem hne))).2
      rw [hfirst] at hlast
      exact absurd hlast.symm (Nat.getLast_digit_ne_zero 16 (Nat.ne_of_gt hpos))

theorem length_hexDigits_le {value : Nat} (h : value < 2 ^ 64) : (hexDigits 16 value).length ≤ 16 := by
  rw [hexDigits_eq h, List.length_map, Nat.digits_length_le_iff (by decide)]
  exact h

theorem hexstr_holds (value : BitVec 64) (b : Buffer UInt8) (hrounds : 17 ≤ rounds) :
    ∃ b', Numbers.hexstr rounds value b = some b' ∧ Holds b'.get (Print.hexstr value.toNat) ∧
      Buffer.Writes (· < 17) b b' := by
  obtain ⟨text, htext⟩ : ∃ text, text = if hexDigits 16 value.toNat = [] then [0x30, 0x30] else hexDigits 16 value.toNat :=
    ⟨_, rfl⟩
  have hlen : text.length ≤ 16 := by
    rw [htext]
    split_ifs
    · decide
    · exact length_hexDigits_le value.isLt
  have hprint : Print.hexstr value.toNat = text.reverse := by
    rw [Print.hexstr, strrev_eq_reverse, htext]
  have hnul : 0 ∉ text := by
    intro h
    have := (says_hexstr value.isLt).digits 0 (hprint ▸ List.mem_reverse.mpr h)
    exact absurd this (by decide)
  have hcall : Numbers.hexstr rounds value b = Numbers.strrev rounds ((b.puts 0 text).put text.length 0) := by
    simp only [Numbers.hexstr, hexLoop_eq, Nat.zero_add, List.length_eq_zero_iff]
    rw [htext]
    split_ifs with hnil
    · rw [hnil]
      rfl
    · rfl
  obtain ⟨b', hb', hholds, hwrites⟩ := strrev_puts b hnul (show text.length < rounds by omega)
  exact ⟨b', hcall.trans hb', hprint ▸ hholds, hwrites.mono fun i hi => by omega⟩

/-- `hexstr` writes at most seventeen bytes, and leaves a text that says its number; so two numbers that leave the same
text are the same. -/
theorem hexstr_reads (hrounds : 17 ≤ rounds) :
    (∀ (value : BitVec 64) (b : Buffer UInt8), ∃ b' bs, Numbers.hexstr rounds value b = some b' ∧ Holds b'.get bs ∧
      Buffer.Writes (· < 17) b b' ∧ Says bs value.toNat) ∧
    ∀ (v w : BitVec 64) (b c b' c' : Buffer UInt8) (bs : List UInt8), Numbers.hexstr rounds v b = some b' →
      Numbers.hexstr rounds w c = some c' → Holds b'.get bs → Holds c'.get bs → v = w := by
  refine ⟨fun value b => ?_, fun v w b c b' c' bs hv hw hb hc => ?_⟩
  · obtain ⟨b', hb', hholds, hwrites⟩ := hexstr_holds value b hrounds
    exact ⟨b', _, hb', hholds, hwrites, says_hexstr value.isLt⟩
  · obtain ⟨_, hb', hholds, -⟩ := hexstr_holds v b hrounds
    obtain ⟨_, hc', hholds', -⟩ := hexstr_holds w c hrounds
    cases hb'.symm.trans hv
    cases hc'.symm.trans hw
    have htext := (hholds.unique hb).trans (hholds'.unique hc).symm
    have hval := (says_hexstr v.isLt).denotes
    rw [htext, (says_hexstr w.isLt).denotes] at hval
    exact BitVec.eq_of_toNat_eq hval.symm

/-- `1A00`, with zeros inside. -/
theorem hexstr_reads_zeros :
    ∃ b' bs, Numbers.hexstr 17 0x1A00 ⟨fun _ => 0, []⟩ = some b' ∧ Holds b'.get bs ∧
      Buffer.Writes (· < 17) ⟨fun _ => 0, []⟩ b' ∧ Says bs 0x1A00 :=
  (hexstr_reads (Nat.le_refl 17)).1 0x1A00 ⟨fun _ => 0, []⟩

end HaOS.Print
