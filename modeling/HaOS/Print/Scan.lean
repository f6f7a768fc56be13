import HaOS.Print.Numbers
import HaOS.Print.Printf

/-!
# What the scanners read of their format (`kernel/io.c`, `kernel/serial.c`)

* `Scan.printfImplRound`, `Scan.serialRound` : a round of the two loops, on a format in memory;
* `Scan.scan` : the loop, with what it reads and prints in order;
* `Scan.kernelPrintf`, `Scan.serialPrintfImplementation` : the calls, with the strings that they print;
* `Within` : no character is read behind a NUL;
* `scan_iff` : when a loop ends and stays within its format, `scans_iff` : when the calls do;
* `kernelPrintf_writes`, `serialPrintf_writes` : they print what the calls on texts print.
-/

namespace HaOS.Print

/-- A scanner reads a character of a format, or prints one. -/
inductive Event where
  | read (format index : Nat)
  | write (b : UInt8)

namespace Scan

/-- `index + 1` for an `int`, which has a greatest value. -/
def succ (index : Nat) : Option Nat := if index + 1 < 2 ^ 31 then some (index + 1) else none

section Rounds

variable (m : Nat → UInt8) (string : Nat → Option (List Event)) (stack : Nat → BitVec 64) (format : Nat)

/-- What a conversion prints of the value at `ebp`; `string` prints the string there. -/
def conversion (ebp : Nat) : Kind → Option (List Event)
  | .i => some ((intstr ((stack ebp).setWidth 32)).map .write)
  | .x => some ((hexstr (stack ebp).toNat).map .write)
  | .s => string ebp
  | .c => some [.write (UInt8.ofBitVec ((stack ebp).setWidth 8))]

/-- A round of `printf_impl`, with the index and the argument that come next. A character that is read again is not noted
again. -/
def printfImplRound (index ebp : Nat) : Option (List Event × Nat × Nat) := do
  if m (format + index) = percent then
    let index ← succ index
    match kind (m (format + index)) with
    | some k =>
      let out ← conversion string stack ebp k
      let next ← succ index
      some (.read format index :: out, next, ebp + 1)
    | none =>
      let out := [.write (m (format + (index - 1))), .write (m (format + index))]
      let next ← succ index
      some (.read format index :: out, next, ebp)
  else
    let next ← succ index
    some ([.write (m (format + index))], next, ebp)

/-- A round of `serial_printf_implementation`. -/
def serialRound (i ebp : Nat) : Option (List Event × Nat × Nat) := do
  if m (format + i) = percent then
    let behind ← succ i
    let (out, stack) ← match kind (m (format + behind)) with
      | some k => (conversion string stack ebp k).map fun out => (out, ebp + 1)
      | none => some ([.write (m (format + i)), .write (m (format + behind))], ebp)
    let i ← succ i
    let i ← succ i
    some (.read format behind :: out, i, stack)
  else
    let next ← succ i
    some ([.write (m (format + i))], next, ebp)

end Rounds

/-- `while( format[index] != 0 )`. -/
def scan (round : Nat → Nat → Option (List Event × Nat × Nat)) (m : Nat → UInt8) (format : Nat) :
    Nat → Nat → Nat → Option (List Event)
  | 0, _, _ => none
  | rounds + 1, index, ebp =>
    if m (format + index) = 0 then some [.read format index]
    else do
      let (events, index', ebp') ← round index ebp
      let rest ← scan round m format rounds index' ebp'
      some (.read format index :: events ++ rest)

/-- Each round increases the index, so there are at most as many as it has values. -/
def printfImpl (m : Nat → UInt8) (string : Nat → Option (List Event)) (stack : Nat → BitVec 64) (format : Nat) :
    Option (List Event) :=
  scan (printfImplRound m string stack format) m format (2 ^ 31) 0 0

def serialPrint (m : Nat → UInt8) (text : Nat) : Option (List Event) :=
  scan (fun i ebp => (succ i).map fun next => ([.write (m (text + i))], next, ebp)) m text (2 ^ 31) 0 0

def serialPrintfImplementation (m : Nat → UInt8) (stack : Nat → BitVec 64) (format : Nat) : Option (List Event) :=
  scan (serialRound m (fun ebp => serialPrint m (stack ebp).toNat) stack format) m format (2 ^ 31) 0 0

/-- The kernel prints a string by calling `printf` with it. `path` tells the calls apart, by the places of their formats
among the arguments, `stack` has what stands behind the format at each of them, and `depth` bounds how many are open. -/
def kernelPrintf (m : Nat → UInt8) (stack : List Nat → Nat → BitVec 64) : Nat → List Nat → Nat → Option (List Event)
  | 0, _, _ => none
  | depth + 1, path, format =>
    printfImpl m (fun ebp => kernelPrintf m stack depth (ebp :: path) (stack path ebp).toNat) (stack path) format

end Scan

open Scan

/-- No character is read behind a NUL. -/
def Within (m : Nat → UInt8) (events : List Event) : Prop :=
  ∀ format index, .read format index ∈ events → ∀ j < index, m (format + j) ≠ 0

def writes : List Event → List UInt8
  | [] => []
  | .read _ _ :: events => writes events
  | .write b :: events => b :: writes events

/-- The register holds the argument: the number, or the address of a text that an `int` counts. -/
def Denotes (m : Nat → UInt8) : Arg → BitVec 64 → Prop
  | .num value, reg => reg = value
  | .str text, reg => Holds (fun i => m (reg.toNat + i)) text.bytes ∧ text.bytes.length < 2 ^ 31

def strings : List Piece → Nat → List Nat
  | [], _ => []
  | .plain _ :: ps, ebp => strings ps ebp
  | .conversion .s :: ps, ebp => ebp :: strings ps (ebp + 1)
  | .conversion _ :: ps, ebp => strings ps (ebp + 1)

variable {m : Nat → UInt8} {string : Nat → Option (List Event)} {stack : Nat → BitVec 64} {format index ebp rounds : Nat}
  {bs rest : List UInt8} {ps : List Piece} {events tr : List Event} {b d : UInt8} {k : Kind}

theorem succ_of_lt (h : index + 1 < 2 ^ 31) : succ index = some (index + 1) := if_pos h

theorem succ_eq_some {next : Nat} (h : succ index = some next) : next = index + 1 ∧ index + 1 < 2 ^ 31 := by
  rw [succ] at h
  split_ifs at h with hlt
  · cases h
    exact ⟨rfl, hlt⟩

theorem serialRound_eq : serialRound m string stack format = printfImplRound m string stack format := by
  funext i ebp
  rw [serialRound, printfImplRound]
  split_ifs
  · rcases hsucc : succ i with - | behind
    · rfl
    · obtain ⟨rfl, -⟩ := succ_eq_some hsucc
      simp only [Option.bind_eq_bind, Option.bind_some, Nat.add_sub_cancel]
      rcases kind (m (format + (i + 1))) with - | k
      · rfl
      · dsimp only
        rcases conversion string stack ebp k with - | out
        · rfl
        · rfl
  · rfl

theorem Within.append_iff {events' : List Event} : Within m (events ++ events') ↔ Within m events ∧ Within m events' := by
  simp only [Within, List.mem_append]
  exact ⟨fun h => ⟨fun f i hi => h f i (.inl hi), fun f i hi => h f i (.inr hi)⟩,
    fun ⟨h, h'⟩ f i hi => hi.elim (h f i) (h' f i)⟩

theorem Within.cons_iff {f i : Nat} : Within m (.read f i :: events) ↔ (∀ j < i, m (f + j) ≠ 0) ∧ Within m events := by
  simp only [Within, List.mem_cons]
  refine ⟨fun h => ⟨h f i (.inl rfl), fun f' i' hi => h f' i' (.inr hi)⟩, fun ⟨h, h'⟩ f' i' hi => ?_⟩
  rcases hi with hi | hi
  · cases hi
    exact h
  · exact h' f' i' hi

theorem within_writes (bs : List UInt8) : Within m (bs.map .write) := by
  intro f i hi
  obtain ⟨b, -, hb⟩ := List.mem_map.mp hi
  cases hb

theorem writes_append (events events' : List Event) : writes (events ++ events') = writes events ++ writes events' := by
  induction events with
  | nil => rfl
  | cons event events ih =>
      cases event with
      | read f i => exact ih
      | write b => exact congrArg (b :: ·) ih

theorem writes_map (bs : List UInt8) : writes (bs.map .write) = bs := by
  induction bs with
  | nil => rfl
  | cons b bs ih => exact congrArg (b :: ·) ih

/-! ## A round -/

theorem Holds.next {buffer : Nat → UInt8} (h : Holds buffer bs) (hrest : bs.drop index = b :: rest) :
    buffer index = b ∧ b ≠ 0 ∧ bs.drop (index + 1) = rest ∧ bs.length = index + (rest.length + 1) := by
  have hlen := congrArg List.length hrest
  rw [List.length_drop, List.length_cons] at hlen
  have hlt : index < bs.length := by omega
  rw [List.drop_eq_getElem_cons hlt, List.cons.injEq] at hrest
  obtain ⟨rfl, hrest⟩ := hrest
  exact ⟨h.get hlt, fun h0 => h.inside (h0 ▸ List.getElem_mem hlt), hrest, by omega⟩

theorem Holds.end {buffer : Nat → UInt8} (h : Holds buffer bs) (hrest : bs.drop index = []) (hi : index ≤ bs.length) :
    index = bs.length ∧ buffer index = 0 := by
  have heq : index = bs.length := le_antisymm hi (List.drop_eq_nil_iff.mp hrest)
  exact ⟨heq, heq ▸ h.nul⟩

theorem round_plain (string : Nat → Option (List Event)) (stack : Nat → BitVec 64) (ebp : Nat)
    (hb : m (format + index) = b) (hne : b ≠ percent) :
    printfImplRound m string stack format index ebp =
      (succ index).map fun next => ([.write b], next, ebp) := by
  rw [printfImplRound, hb, if_neg hne]
  cases succ index with
  | none => rfl
  | some next => rfl

theorem round_percent (string : Nat → Option (List Event)) (stack : Nat → BitVec 64) (ebp : Nat)
    (hb : m (format + index) = percent) (hd : m (format + (index + 1)) = d) :
    printfImplRound m string stack format index ebp =
      (succ index).bind fun _ => ((kind d).elim (some ([.write percent, .write d], ebp)) fun k =>
        (conversion string stack ebp k).map fun out => (out, ebp + 1)).bind fun x =>
          (succ (index + 1)).bind fun next => some (.read format (index + 1) :: x.1, next, x.2) := by
  rw [printfImplRound, if_pos hb]
  rcases hsucc : succ index with - | next
  · rfl
  · obtain ⟨rfl, -⟩ := succ_eq_some hsucc
    simp only [Option.bind_eq_bind, Option.bind_some, hd, Nat.add_sub_cancel, hb]
    rcases kind d with - | k
    · rfl
    · dsimp only [Option.elim]
      rcases conversion string stack ebp k with - | out
      · rfl
      · rfl

/-! ## The loop -/

section Loop

variable {round : Nat → Nat → Option (List Event × Nat × Nat)}

theorem scan_end (h : m (format + index) = 0) : scan round m format (rounds + 1) index ebp = some [.read format index] := by
  rw [scan, if_pos h]

theorem scan_step {next ebp' : Nat} (h : m (format + index) ≠ 0) (hround : round index ebp = some (events, next, ebp')) :
    scan round m format (rounds + 1) index ebp =
      (scan round m format rounds next ebp').map (.read format index :: events ++ ·) := by
  rw [scan, if_neg h, hround, Option.bind_eq_bind, Option.bind_some]
  dsimp only
  cases scan round m format rounds next ebp' with
  | none => rfl
  | some rest => rfl

theorem scan_head (h : scan round m format rounds index ebp = some tr) : .read format index ∈ tr := by
  cases rounds with
  | zero => cases h
  | succ rounds =>
      rw [scan] at h
      split_ifs at h
      · cases h
        exact List.mem_singleton_self _
      · obtain ⟨_, -, hrest⟩ := Option.bind_eq_some_iff.mp h
        obtain ⟨_, -, heq⟩ := Option.bind_eq_some_iff.mp hrest
        cases heq
        exact List.mem_cons_self

/-- A loop that ends has read a NUL, at an index that is an `int`. -/
theorem scan_nul (hround : ∀ index ebp x, round index ebp = some x → x.2.1 < 2 ^ 31) (hi : index < 2 ^ 31)
    (h : scan round m format rounds index ebp = some tr) : ∃ n < 2 ^ 31, m (format + n) = 0 ∧ .read format n ∈ tr := by
  induction rounds generalizing index ebp tr with
  | zero => cases h
  | succ rounds ih =>
      rw [scan] at h
      split_ifs at h with hnul
      · cases h
        exact ⟨index, hi, hnul, List.mem_singleton_self _⟩
      · obtain ⟨x, hx, hrest⟩ := Option.bind_eq_some_iff.mp h
        obtain ⟨tr', htr', heq⟩ := Option.bind_eq_some_iff.mp hrest
        cases heq
        obtain ⟨n, hn, hnul, hmem⟩ := ih (hround _ _ x hx) htr'
        exact ⟨n, hn, hnul, List.mem_append_right _ hmem⟩

/-- A loop that ends within its format has found a text there. -/
theorem holds_of_scan (hround : ∀ index ebp x, round index ebp = some x → x.2.1 < 2 ^ 31) (hi : index < 2 ^ 31)
    (h : scan round m format rounds index ebp = some tr) (hw : Within m tr) :
    ∃ bs, Holds (fun i => m (format + i)) bs ∧ bs.length < 2 ^ 31 := by
  obtain ⟨n, hlt, hn, hmem⟩ := scan_nul hround hi h
  refine ⟨Lib.slice (fun i => m (format + i)) 0 n, ⟨by rw [Lib.length_slice], by rwa [Lib.length_slice], fun h0 => ?_⟩,
    by rwa [Lib.length_slice]⟩
  obtain ⟨i, hi, hval⟩ := List.mem_map.mp h0
  rw [Nat.zero_add] at hval
  exact hw format n hmem i (List.mem_range.mp hi) hval

end Loop

/-- The string at each of these places is printed, and no character behind its NUL is read. -/
def Good (m : Nat → UInt8) (string : Nat → Option (List Event)) (places : List Nat) : Prop :=
  ∀ ebp ∈ places, ∃ tr, string ebp = some tr ∧ Within m tr

theorem Good.append_iff {places places' : List Nat} :
    Good m string (places ++ places') ↔ Good m string places ∧ Good m string places' := List.forall_mem_append

theorem strings_conversion (k : Kind) (ps : List Piece) (ebp : Nat) :
    strings (.conversion k :: ps) ebp = (if k = .s then [ebp] else []) ++ strings ps (ebp + 1) := by
  cases k
  · rfl
  · rfl
  · rfl
  · rfl

theorem conversion_iff (stack : Nat → BitVec 64) : (∃ out, conversion string stack ebp k = some out ∧ Within m out) ↔
    Good m string (if k = .s then [ebp] else []) := by
  rw [Good]
  cases k
  · exact iff_of_true ⟨_, rfl, within_writes _⟩ (fun _ h => absurd h List.not_mem_nil)
  · exact iff_of_true ⟨_, rfl, within_writes _⟩ (fun _ h => absurd h List.not_mem_nil)
  · rw [if_pos rfl, List.forall_mem_singleton]
    exact Iff.rfl
  · exact iff_of_true ⟨_, rfl, within_writes [_]⟩ (fun _ h => absurd h List.not_mem_nil)

theorem scan_step_iff {round : Nat → Nat → Option (List Event × Nat × Nat)} {next ebp' : Nat}
    (hbefore : ∀ j ≤ index, m (format + j) ≠ 0) (hround : round index ebp = some (events, next, ebp')) :
    (∃ tr, scan round m format (rounds + 1) index ebp = some tr ∧ Within m tr) ↔
      Within m events ∧ ∃ tr, scan round m format rounds next ebp' = some tr ∧ Within m tr := by
  rw [scan_step (hbefore index (Nat.le_refl _)) hround]
  constructor
  · intro h
    obtain ⟨tr, htr, hw⟩ := h
    obtain ⟨tr', htr', rfl⟩ := Option.map_eq_some_iff.mp htr
    rw [List.cons_append, Within.cons_iff, Within.append_iff] at hw
    exact ⟨hw.2.1, tr', htr', hw.2.2⟩
  · intro h
    obtain ⟨hevents, tr, htr, hw⟩ := h
    refine ⟨_, Option.map_eq_some_iff.mpr ⟨tr, htr, rfl⟩, ?_⟩
    rw [List.cons_append, Within.cons_iff, Within.append_iff]
    exact ⟨fun j hj => hbefore j (Nat.le_of_lt hj), hevents, hw⟩

theorem pieces_map_iff {f : List Piece → List Piece} :
    (∃ ps, (pieces rest).map f = some ps ∧ Good m string (strings ps ebp)) ↔
      ∃ ps, pieces rest = some ps ∧ Good m string (strings (f ps) ebp) := by
  cases pieces rest with
  | none => simp only [Option.map_none, reduceCtorEq, false_and, exists_false]
  | some ps => simp only [Option.map_some, Option.some.injEq, exists_eq_left']

/-- The loop from an index of its text on: it ends, and stays within what it scans, when there are pieces and their
strings are printed well. -/
theorem scan_iff (h : Holds (fun i => m (format + i)) bs) (hlen : bs.length < 2 ^ 31) (hrest : bs.drop index = rest)
    (hi : index ≤ bs.length) (hrounds : rest.length < rounds) :
    (∃ tr, scan (printfImplRound m string stack format) m format rounds index ebp = some tr ∧ Within m tr) ↔
      ∃ ps, pieces rest = some ps ∧ Good m string (strings ps ebp) := by
  have hbefore : ∀ {i}, i < bs.length → ∀ j ≤ i, m (format + j) ≠ 0 := by
    intro i hi j hj h0
    have hget := h.get (show j < bs.length by omega)
    exact h.inside (h0.symm.trans hget ▸ List.getElem_mem _)
  have hend : ∀ {index ebp rounds}, bs.drop index = [] → index ≤ bs.length →
      ∃ tr, scan (printfImplRound m string stack format) m format (rounds + 1) index ebp = some tr ∧ Within m tr := by
    intro index ebp rounds hrest hi
    obtain ⟨rfl, hnul⟩ := h.end hrest hi
    refine ⟨_, scan_end hnul, Within.cons_iff.mpr ⟨fun j hj => ?_, fun _ _ hmem => absurd hmem List.not_mem_nil⟩⟩
    exact hbefore (Nat.sub_one_lt_of_lt hj) j (by omega)
  have hnone : ∀ ebp, Good m string (strings [] ebp) := fun _ _ hmem => absurd hmem List.not_mem_nil
  induction rest using pieces.induct generalizing index ebp rounds with
  | case1 =>
      obtain ⟨rounds, rfl⟩ := Nat.exists_eq_add_one_of_ne_zero (Nat.ne_of_gt hrounds)
      exact iff_of_true (hend hrest hi) ⟨[], rfl, hnone ebp⟩
  | case2 =>
      -- the NUL is taken for the letter, and the character behind it is read
      obtain ⟨rounds, rfl⟩ := Nat.exists_eq_add_one_of_ne_zero (Nat.ne_of_gt (Nat.zero_lt_of_lt hrounds))
      obtain ⟨hb, -, hrest, hsize⟩ := h.next hrest
      obtain ⟨-, hnul⟩ := h.end hrest (by omega)
      have hround := round_percent string stack ebp hb hnul
      refine iff_of_false (fun hscan => ?_) (fun hps => ?_)
      · obtain ⟨tr, htr, hw⟩ := hscan
        rcases hsucc : succ (index + 1) with - | next
        · have hstuck : printfImplRound m string stack format index ebp = none := by
            rw [hround, hsucc]
            exact Option.bind_fun_none _
          rw [scan, if_neg (hbefore (by omega) index (Nat.le_refl _)), hstuck] at htr
          cases htr
        · obtain ⟨rfl, hlt⟩ := succ_eq_some hsucc
          rw [hsucc, succ_of_lt (by omega)] at hround
          obtain ⟨-, tr', htr', hw'⟩ := (scan_step_iff (hbefore (by omega)) hround).mp ⟨tr, htr, hw⟩
          exact hw' format _ (scan_head htr') (index + 1) (Nat.lt_succ_self _) hnul
      · obtain ⟨ps, hps, -⟩ := hps
        cases hps
  | case3 b hb =>
      obtain ⟨rounds, rfl⟩ := Nat.exists_eq_add_of_le' (show 2 ≤ rounds from hrounds)
      obtain ⟨hval, -, hrest, hsize⟩ := h.next hrest
      have hround := round_plain string stack ebp hval hb
      rw [succ_of_lt (by omega)] at hround
      rw [scan_step_iff (hbefore (by omega)) hround, pieces, if_neg hb]
      exact iff_of_true ⟨within_writes [b], hend hrest (by omega)⟩ ⟨_, rfl, hnone ebp⟩
  | case4 d rest k hk ih =>
      obtain ⟨rounds, rfl⟩ := Nat.exists_eq_add_one_of_ne_zero (Nat.ne_of_gt (Nat.zero_lt_of_lt hrounds))
      obtain ⟨hb, -, hrest, hsize⟩ := h.next hrest
      obtain ⟨hd, -, hrest, hsize'⟩ := h.next hrest
      have hround := round_percent string stack ebp hb hd
      rw [hk, succ_of_lt (by omega), succ_of_lt (by omega)] at hround
      have hleft : rest.length < rounds := Nat.lt_of_succ_lt (Nat.lt_of_succ_lt_succ hrounds)
      simp only [pieces, if_true, hk, pieces_map_iff, strings_conversion, Good.append_iff, and_left_comm, exists_and_left]
      rw [← conversion_iff stack]
      dsimp only [Option.bind_some, Option.elim_some] at hround
      rcases hout : conversion string stack ebp k with - | out
      · rw [hout] at hround
        have hstuck : scan (printfImplRound m string stack format) m format (rounds + 1) index ebp = none := by
          rw [scan, if_neg (hbefore (by omega) index (Nat.le_refl _)), hround]
          rfl
        rw [hstuck]
        refine iff_of_false (fun h => ?_) fun h => ?_
        · obtain ⟨_, hsome, -⟩ := h
          cases hsome
        · obtain ⟨⟨_, hsome, -⟩, -⟩ := h
          cases hsome
      · rw [hout] at hround
        refine (scan_step_iff (hbefore (by omega)) hround).trans (and_congr ?_ (ih hrest (by omega) hleft))
        rw [Within.cons_iff]
        constructor
        · intro hw
          exact ⟨out, rfl, hw.2⟩
        · intro hw
          obtain ⟨_, heq, hw⟩ := hw
          cases heq
          exact ⟨fun j hj => hbefore (by omega) j (Nat.le_of_lt_succ (Nat.lt_succ_of_lt hj)), hw⟩
  | case5 d rest hk ih =>
      obtain ⟨rounds, rfl⟩ := Nat.exists_eq_add_one_of_ne_zero (Nat.ne_of_gt (Nat.zero_lt_of_lt hrounds))
      obtain ⟨hb, -, hrest, hsize⟩ := h.next hrest
      obtain ⟨hd, -, hrest, hsize'⟩ := h.next hrest
      have hround := round_percent string stack ebp hb hd
      rw [hk, succ_of_lt (by omega), succ_of_lt (by omega)] at hround
      have hleft : rest.length < rounds := Nat.lt_of_succ_lt (Nat.lt_of_succ_lt_succ hrounds)
      refine (scan_step_iff (hbefore (by omega)) hround).trans ((and_congr_right' (ih hrest (by omega) hleft)).trans ?_)
      simp only [pieces, if_true, hk, pieces_map_iff]
      apply and_iff_right
      exact Within.cons_iff.mpr ⟨fun j hj => hbefore (by omega) j (Nat.le_of_lt hj), within_writes [percent, d]⟩
  | case6 b d rest hb ih =>
      obtain ⟨rounds, rfl⟩ := Nat.exists_eq_add_one_of_ne_zero (Nat.ne_of_gt (Nat.zero_lt_of_lt hrounds))
      obtain ⟨hval, -, hrest, hsize⟩ := h.next hrest
      have hround := round_plain string stack ebp hval hb
      rw [succ_of_lt (by omega)] at hround
      have hleft : (d :: rest).length < rounds := Nat.lt_of_succ_lt_succ hrounds
      refine (scan_step_iff (hbefore (by omega)) hround).trans ((and_congr_right' (ih hrest (by omega) hleft)).trans ?_)
      rw [pieces, if_neg hb, pieces_map_iff]
      exact and_iff_right (within_writes [b])

theorem printfImplRound_lt {x : List Event × Nat × Nat} (h : printfImplRound m string stack format index ebp = some x) :
    x.2.1 < 2 ^ 31 := by
  by_cases hb : m (format + index) = percent
  · rw [round_percent _ _ _ hb rfl] at h
    obtain ⟨_, -, h⟩ := Option.bind_eq_some_iff.mp h
    obtain ⟨_, -, h⟩ := Option.bind_eq_some_iff.mp h
    obtain ⟨next, hnext, h⟩ := Option.bind_eq_some_iff.mp h
    cases h
    obtain ⟨rfl, hlt⟩ := succ_eq_some hnext
    exact hlt
  · rw [round_plain _ _ _ rfl hb] at h
    obtain ⟨next, hnext, rfl⟩ := Option.map_eq_some_iff.mp h
    obtain ⟨rfl, hlt⟩ := succ_eq_some hnext
    exact hlt

/-- Any call of `printf_impl`: it ends within the formats that it scans when its own is a text that an `int` counts, whose
percent signs are followed by a character, and whose strings are printed well. -/
theorem printfImpl_iff : (∃ tr, Scan.printfImpl m string stack format = some tr ∧ Within m tr) ↔
    ∃ bs ps, Holds (fun i => m (format + i)) bs ∧ bs.length < 2 ^ 31 ∧ pieces bs = some ps ∧
      Good m string (strings ps 0) := by
  constructor
  · intro hscan
    obtain ⟨tr, htr, hw⟩ := hscan
    obtain ⟨bs, h, hlen⟩ := holds_of_scan (fun _ _ _ => printfImplRound_lt) (by decide) htr hw
    obtain ⟨ps, hps, hgood⟩ := (scan_iff h hlen (List.drop_zero ..) (Nat.zero_le _) hlen).mp ⟨tr, htr, hw⟩
    exact ⟨bs, ps, h, hlen, hps, hgood⟩
  · intro htext
    obtain ⟨bs, ps, h, hlen, hps, hgood⟩ := htext
    exact (scan_iff h hlen (List.drop_zero ..) (Nat.zero_le _) hlen).mpr ⟨ps, hps, hgood⟩

theorem serialPrint_rest {text left : Nat} (h : Holds (fun i => m (text + i)) bs) (hlen : bs.length < 2 ^ 31)
    (hi : index + left = bs.length) (hrounds : left < rounds) :
    ∃ tr, scan (fun i ebp => (succ i).map fun next => ([.write (m (text + i))], next, ebp)) m text rounds index ebp =
      some tr ∧ Within m tr ∧ writes tr = bs.drop index := by
  have hbefore : ∀ {i}, i ≤ bs.length → ∀ j < i, m (text + j) ≠ 0 := fun hi j hj h0 =>
    h.inside (h0.symm.trans (h.get (show j < bs.length by omega)) ▸ List.getElem_mem _)
  induction left generalizing index rounds with
  | zero =>
      obtain ⟨rounds, rfl⟩ := Nat.exists_eq_add_one_of_ne_zero (Nat.ne_of_gt hrounds)
      have hnul : m (text + index) = 0 := by
        rw [show index = bs.length from hi]
        exact h.nul
      refine ⟨_, scan_end hnul, ?_, (List.drop_eq_nil_of_le (Nat.le_of_eq hi.symm)).symm⟩
      exact Within.cons_iff.mpr ⟨hbefore (Nat.le_of_eq hi), fun _ _ hmem => absurd hmem List.not_mem_nil⟩
  | succ left ih =>
      obtain ⟨rounds, rfl⟩ := Nat.exists_eq_add_one_of_ne_zero (Nat.ne_of_gt (Nat.zero_lt_of_lt hrounds))
      have hlt : index < bs.length := by omega
      obtain ⟨tr, htr, hw, hwrites⟩ :=
        ih (show index + 1 + left = bs.length by omega) (Nat.lt_of_succ_lt_succ hrounds)
      have hround : (succ index).map (fun next => ([Event.write (m (text + index))], next, ebp)) =
          some ([.write (m (text + index))], index + 1, ebp) := by
        rw [succ_of_lt (show index + 1 < 2 ^ 31 by omega), Option.map_some]
      refine ⟨_, (scan_step (hbefore hlt index (Nat.lt_succ_self _)) hround).trans (congrArg (Option.map _) htr), ?_, ?_⟩
      · exact Within.cons_iff.mpr ⟨hbefore (Nat.le_of_lt hlt), Within.append_iff.mpr ⟨within_writes [_], hw⟩⟩
      · show m (text + index) :: writes tr = _
        rw [hwrites, List.drop_eq_getElem_cons hlt, ← h.get hlt]

theorem serialPrint_iff {text : Nat} : (∃ tr, serialPrint m text = some tr ∧ Within m tr) ↔
    ∃ bs, Holds (fun i => m (text + i)) bs ∧ bs.length < 2 ^ 31 := by
  constructor
  · intro hscan
    obtain ⟨tr, htr, hw⟩ := hscan
    apply holds_of_scan _ (by decide) htr hw
    intro index ebp x hx
    obtain ⟨next, hnext, rfl⟩ := Option.map_eq_some_iff.mp hx
    obtain ⟨rfl, hlt⟩ := succ_eq_some hnext
    exact hlt
  · intro htext
    obtain ⟨bs, h, hlen⟩ := htext
    obtain ⟨tr, htr, hw, -⟩ := serialPrint_rest h hlen (Nat.zero_add _) hlen
    exact ⟨tr, htr, hw⟩

/-! ## What the scanners print -/

section Printed

variable {print : Nat → Option (List Event)} {string : Nat → Text → Option (List UInt8)} {args args' : List Arg}
  {out : List UInt8} {rounds' : Nat}

theorem Holds.byteAt (h : Holds (fun i => m (format + i)) bs) (hb : byteAt bs index = some b) :
    m (format + index) = b ∧ index ≤ bs.length := by
  obtain ⟨hi, hget⟩ := List.getElem?_eq_some_iff.mp hb
  rw [List.length_append, List.length_singleton] at hi
  rcases Nat.lt_or_eq_of_le (Nat.le_of_lt_succ hi) with hlt | rfl
  · rw [List.getElem_append_left hlt] at hget
    exact ⟨(h.get hlt).trans hget, Nat.le_of_lt hlt⟩
  · rw [List.getElem_concat_length rfl] at hget
    exact ⟨h.nul.trans hget, Nat.le_refl _⟩

theorem le_of_printfImplLoop (h : printfImplLoop string bs rounds index args = some out) : index ≤ bs.length := by
  cases rounds with
  | zero => cases h
  | succ rounds =>
      obtain ⟨b, hb, -⟩ := Option.bind_eq_some_iff.mp h
      obtain ⟨hi, -⟩ := List.getElem?_eq_some_iff.mp hb
      rw [List.length_append, List.length_singleton] at hi
      exact Nat.le_of_lt_succ hi

theorem conversion_of_convert (hregs : ∀ i a, args[i]? = some a → Denotes m a (stack (ebp + i)))
    (hprint : ∀ text out, Denotes m (.str text) (stack ebp) → string (args.length - 1) text = some out →
      ∃ tr, print ebp = some tr ∧ Within m tr ∧ writes tr = out)
    (h : convert string k args = some (out, args')) :
    args.length = args'.length + 1 ∧ (∀ i a, args'[i]? = some a → Denotes m a (stack (ebp + 1 + i))) ∧
      ∃ tr, conversion print stack ebp k = some tr ∧ Within m tr ∧ writes tr = out := by
  rcases args with - | ⟨arg, rest⟩
  · cases k <;> cases h
  · have hreg : Denotes m arg (stack ebp) := hregs 0 arg rfl
    have hrest : ∀ i a, rest[i]? = some a → Denotes m a (stack (ebp + 1 + i)) := by
      intro i a hi
      rw [Nat.add_assoc, Nat.add_comm 1 i]
      exact hregs (i + 1) a hi
    rcases arg with value | text
    · rw [Denotes] at hreg
      cases k with
      | i =>
          cases h
          exact ⟨rfl, hrest, _, rfl, within_writes _, by rw [writes_map, hreg]⟩
      | x =>
          cases h
          exact ⟨rfl, hrest, _, rfl, within_writes _, by rw [writes_map, hreg]⟩
      | s => cases h
      | c =>
          cases h
          exact ⟨rfl, hrest, _, rfl, within_writes [_], by rw [hreg, writes, writes]⟩
    · cases k with
      | s =>
          obtain ⟨o, ho, heq⟩ := Option.map_eq_some_iff.mp h
          cases heq
          exact ⟨rfl, hrest, hprint text _ hreg ho⟩
      | i => cases h
      | x => cases h
      | c => cases h

theorem nonzero_of_holds (h : Holds (fun i => m (format + i)) bs) (hi : index ≤ bs.length) :
    ∀ j < index, m (format + j) ≠ 0 := by
  intro j hj h0
  have hget : m (format + j) = bs[j] := h.get (show j < bs.length by omega)
  exact h.inside (h0.symm.trans hget ▸ List.getElem_mem _)

/-- A round that prints, and what the scanner prints behind it. -/
theorem scan_step_writes {round : Nat → Nat → Option (List Event × Nat × Nat)} {next ebp' : Nat}
    (hne : m (format + index) ≠ 0) (hbefore : ∀ j < index, m (format + j) ≠ 0)
    (hround : round index ebp = some (events, next, ebp')) (hw : Within m events)
    (hmore : ∃ tr, scan round m format rounds next ebp' = some tr ∧ Within m tr ∧ writes tr = out) :
    ∃ tr, scan round m format (rounds + 1) index ebp = some tr ∧ Within m tr ∧ writes tr = writes events ++ out := by
  obtain ⟨tr, htr, hwtr, rfl⟩ := hmore
  refine ⟨_, (scan_step hne hround).trans (congrArg (Option.map _) htr), ?_, writes_append _ _⟩
  exact Within.cons_iff.mpr ⟨hbefore, Within.append_iff.mpr ⟨hw, hwtr⟩⟩

/-- The scanner of a format in memory prints what the scanner of its characters does. -/
theorem scan_of_printfImplLoop (h : Holds (fun i => m (format + i)) bs) (hlen : bs.length < 2 ^ 31)
    (hregs : ∀ i a, args[i]? = some a → Denotes m a (stack (ebp + i))) (hpushed : ebp + args.length = 5)
    (hprint : ∀ ebp text out, Denotes m (.str text) (stack ebp) → string (4 - ebp) text = some out →
      ∃ tr, print ebp = some tr ∧ Within m tr ∧ writes tr = out)
    (hrounds : rounds ≤ rounds') (hloop : printfImplLoop string bs rounds index args = some out) :
    ∃ tr, scan (printfImplRound m print stack format) m format rounds' index ebp = some tr ∧ Within m tr ∧
      writes tr = out := by
  induction rounds generalizing rounds' index ebp args out with
  | zero => cases hloop
  | succ rounds ih =>
      obtain ⟨rounds', rfl⟩ := Nat.exists_eq_add_of_le' (Nat.le_trans (Nat.succ_le_succ (Nat.zero_le rounds)) hrounds)
      have hle := Nat.le_of_succ_le_succ hrounds
      obtain ⟨b, hb, hrest⟩ := Option.bind_eq_some_iff.mp hloop
      obtain ⟨hval, hi⟩ := h.byteAt hb
      split_ifs at hrest with h0 hp
      · cases hrest
        rw [h0] at hval
        exact ⟨_, scan_end hval, Within.cons_iff.mpr ⟨nonzero_of_holds h hi, fun _ _ hmem => absurd hmem List.not_mem_nil⟩, rfl⟩
      · have hne : m (format + index) ≠ 0 := fun h => h0 (hval.symm.trans h)
        obtain ⟨d, hd, hrest⟩ := Option.bind_eq_some_iff.mp hrest
        obtain ⟨hdval, hi'⟩ := h.byteAt hd
        have hround := round_percent print stack ebp (hval.trans hp) hdval
        rw [succ_of_lt (show index + 1 < 2 ^ 31 by omega), Option.bind_some] at hround
        cases hk : kind d with
        | some k =>
            rw [hk] at hround hrest
            obtain ⟨⟨o, args'⟩, hconv, hrest⟩ := Option.bind_eq_some_iff.mp hrest
            obtain ⟨out', hnext, rfl⟩ := Option.map_eq_some_iff.mp hrest
            have hi'' := le_of_printfImplLoop hnext
            have hargs : args.length - 1 = 4 - ebp := by omega
            obtain ⟨hsize, hregs', events, hevents, hw, ho⟩ :=
              conversion_of_convert hregs (fun text out => hargs ▸ hprint ebp text out) hconv
            rw [Option.elim_some, hevents, Option.map_some, Option.bind_some, succ_of_lt (by omega)] at hround
            have hwrites := scan_step_writes hne (nonzero_of_holds h hi) hround
              (Within.cons_iff.mpr ⟨nonzero_of_holds h hi', hw⟩) (ih hregs' (by omega) hle hnext)
            rw [← ho]
            exact hwrites
        | none =>
            rw [hk] at hround hrest
            obtain ⟨b', hb', hrest⟩ := Option.bind_eq_some_iff.mp hrest
            obtain ⟨out', hnext, rfl⟩ := Option.map_eq_some_iff.mp hrest
            have hi'' := le_of_printfImplLoop hnext
            rw [Nat.add_sub_cancel, hb, hp] at hb'
            cases hb'
            rw [Option.elim_none, Option.bind_some, succ_of_lt (by omega)] at hround
            exact scan_step_writes hne (nonzero_of_holds h hi) hround
              (Within.cons_iff.mpr ⟨nonzero_of_holds h hi', within_writes [percent, d]⟩) (ih hregs hpushed hle hnext)
      · have hne : m (format + index) ≠ 0 := fun h => h0 (hval.symm.trans h)
        obtain ⟨out', hnext, rfl⟩ := Option.map_eq_some_iff.mp hrest
        have hi' := le_of_printfImplLoop hnext
        have hround := round_plain print stack ebp hval hp
        rw [succ_of_lt (by omega), Option.map_some] at hround
        exact scan_step_writes hne (nonzero_of_holds h hi) hround (within_writes [b]) (ih hregs hpushed hle hnext)

theorem denotes_ofFn {left : Fin 5 → Arg} {regs : Nat → BitVec 64} (h : ∀ i : Fin 5, Denotes m (left i) (regs i))
    {i : Nat} {a : Arg} (hi : (pushed [] left)[i]? = some a) : Denotes m a (regs i) := by
  obtain ⟨hlt, rfl⟩ := List.getElem?_eq_some_iff.mp hi
  simp only [pushed, List.nil_append, List.getElem_take, List.getElem_ofFn]
  exact h ⟨i, _⟩

/-- Where the registers hold the arguments, the kernel's `printf` in memory prints what the one on texts does. -/
theorem kernelPrintf_writes {left : List Nat → Fin 5 → Arg} {regs : List Nat → Nat → BitVec 64} {path : List Nat}
    {depth : Nat} {text : Text} {address : BitVec 64}
    (hleft : ∀ ebp path (i : Fin 5), Denotes m (left ((ebp :: path).map (4 - ·)) i) (regs (ebp :: path) i))
    (htext : Denotes m (.str text) address)
    (hregs : ∀ i a, (pushed args (left (path.map (4 - ·))))[i]? = some a → Denotes m a (regs path i))
    (h : kernelPrintf left depth (path.map (4 - ·)) text args = some out) :
    ∃ tr, Scan.kernelPrintf m regs depth path address.toNat = some tr ∧ Within m tr ∧ writes tr = out := by
  induction depth generalizing path text args address out with
  | zero => cases h
  | succ depth ih =>
      have hpushed : ∀ i a, (pushed args (left (path.map (4 - ·))))[i]? = some a → Denotes m a (regs path (0 + i)) := by
        intro i a hi
        rw [Nat.zero_add]
        exact hregs i a hi
      apply scan_of_printfImplLoop htext.1 htext.2 hpushed (by simp [pushed]) _ htext.2 h
      intro ebp t o ht ho
      exact ih ht (fun i a hi => denotes_ofFn (hleft ebp path) hi) ho

/-- So does the serial one. -/
theorem serialPrintf_writes {left : Fin 5 → Arg} {text : Text} {address : BitVec 64}
    (htext : Denotes m (.str text) address)
    (hregs : ∀ i a, (pushed args left)[i]? = some a → Denotes m a (stack i)) (h : serialPrintf left text args = some out) :
    ∃ tr, Scan.serialPrintfImplementation m stack address.toNat = some tr ∧ Within m tr ∧ writes tr = out := by
  have hpushed : ∀ i a, (pushed args left)[i]? = some a → Denotes m a (stack (0 + i)) := by
    intro i a hi
    rw [Nat.zero_add]
    exact hregs i a hi
  rw [serialPrintf, serialPrintfImplementation, serialLoop_eq] at h
  rw [Scan.serialPrintfImplementation, serialRound_eq]
  apply scan_of_printfImplLoop htext.1 htext.2 hpushed (by simp [pushed]) _ htext.2 h
  intro ebp t o ht ho
  cases ho
  exact serialPrint_rest ht.1 ht.2 (Nat.zero_add _) ht.2

end Printed

/-! ## The calls -/

/-- A call of the kernel's `printf` whose format is a text that an `int` counts, with a character behind each of its percent
signs, and whose strings are such formats again. -/
inductive Sound (m : Nat → UInt8) (stack : List Nat → Nat → BitVec 64) : List Nat → Nat → Prop
  | intro {path : List Nat} {format : Nat} {bs : List UInt8} {ps : List Piece} (text : Holds (fun i => m (format + i)) bs)
      (short : bs.length < 2 ^ 31) (split : pieces bs = some ps)
      (nested : ∀ ebp ∈ strings ps 0, Sound m stack (ebp :: path) (stack path ebp).toNat) : Sound m stack path format

theorem eventually_all {P : Nat → Nat → Prop} {l : List Nat} (h : ∀ k ∈ l, ∃ n, ∀ depth, n ≤ depth → P k depth) :
    ∃ n, ∀ depth, n ≤ depth → ∀ k ∈ l, P k depth := by
  induction l with
  | nil => exact ⟨0, fun _ _ k hk => absurd hk List.not_mem_nil⟩
  | cons a l ih =>
      obtain ⟨n, hn⟩ := h a List.mem_cons_self
      obtain ⟨n', hn'⟩ := ih fun k hk => h k (List.mem_cons_of_mem a hk)
      refine ⟨n + n', fun depth hdepth k hk => ?_⟩
      rcases List.mem_cons.mp hk with rfl | hk
      · exact hn depth (by omega)
      · exact hn' depth (by omega) k hk

variable {path : List Nat} {regs : List Nat → Nat → BitVec 64} {depth : Nat}

theorem sound_of_kernelPrintf (h : ∃ tr, Scan.kernelPrintf m regs depth path format = some tr ∧ Within m tr) :
    Sound m regs path format := by
  induction depth generalizing path format with
  | zero =>
      obtain ⟨tr, htr, -⟩ := h
      cases htr
  | succ depth ih =>
      obtain ⟨bs, ps, htext, hlen, hps, hgood⟩ := printfImpl_iff.mp h
      exact .intro htext hlen hps fun ebp hebp => ih (hgood ebp hebp)

theorem kernelPrintf_of_sound (h : Sound m regs path format) :
    ∃ n, ∀ depth, n ≤ depth → ∃ tr, Scan.kernelPrintf m regs depth path format = some tr ∧ Within m tr := by
  induction h with
  | intro htext hlen hps _ ih =>
      obtain ⟨n, hn⟩ := eventually_all ih
      refine ⟨n + 1, fun depth hdepth => ?_⟩
      obtain ⟨depth, rfl⟩ := Nat.exists_eq_add_of_le' (show 1 ≤ depth by omega)
      exact printfImpl_iff.mpr ⟨_, _, htext, hlen, hps, hn depth (by omega)⟩

/-- The kernel's `printf` ends, and no call that it makes reads behind the NUL of its format, exactly when its format and
the strings it prints are texts that an `int` counts, with a character behind each percent sign. The serial one takes its
strings as they are, so only its format has to be such a text. -/
theorem scans_iff (m : Nat → UInt8) (format : Nat) :
    (∀ regs path, (∃ n, ∀ depth, n ≤ depth → ∃ tr, Scan.kernelPrintf m regs depth path format = some tr ∧ Within m tr) ↔
      Sound m regs path format) ∧
    ∀ stack, (∃ tr, Scan.serialPrintfImplementation m stack format = some tr ∧ Within m tr) ↔
      ∃ bs ps, Holds (fun i => m (format + i)) bs ∧ bs.length < 2 ^ 31 ∧ pieces bs = some ps ∧
        ∀ ebp ∈ strings ps 0, ∃ s, Holds (fun i => m ((stack ebp).toNat + i)) s ∧ s.length < 2 ^ 31 := by
  refine ⟨fun regs path => ⟨fun h => ?_, kernelPrintf_of_sound⟩, fun stack => ?_⟩
  · obtain ⟨n, hn⟩ := h
    exact sound_of_kernelPrintf (hn n (Nat.le_refl n))
  · rw [Scan.serialPrintfImplementation, serialRound_eq]
    refine printfImpl_iff.trans ?_
    simp only [Good, serialPrint_iff]

/-- A percent sign alone, which is a text: both scanners end, and have read the character behind its NUL. -/
theorem not_scans_percent :
    Holds (fun i => if 0 + i = 0 then percent else 0) [percent] ∧
    (∃ tr, Scan.kernelPrintf (fun a => if a = 0 then percent else 0) (fun _ _ => 0) 1 [] 0 = some tr ∧
      .read 0 2 ∈ tr ∧ ¬ Within (fun a => if a = 0 then percent else 0) tr) ∧
    ∃ tr, Scan.serialPrintfImplementation (fun a => if a = 0 then percent else 0) (fun _ => 0) 0 = some tr ∧
      .read 0 2 ∈ tr ∧ ¬ Within (fun a => if a = 0 then percent else 0) tr := by
  have hread : ∀ tr, tr = [Event.read 0 0, .read 0 1, .write percent, .write 0, .read 0 2] →
      .read 0 2 ∈ tr ∧ ¬ Within (fun a => if a = 0 then percent else 0) tr := by
    intro tr htr
    have hmem : Event.read 0 2 ∈ tr := by simp [htr]
    exact ⟨hmem, fun hw => hw 0 2 hmem 1 (by decide) rfl⟩
  exact ⟨⟨rfl, rfl, by decide⟩, ⟨_, rfl, hread _ rfl⟩, ⟨_, rfl, hread _ rfl⟩⟩

end HaOS.Print
