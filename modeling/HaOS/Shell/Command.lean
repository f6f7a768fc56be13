import HaOS.Print.Printf
import HaOS.Term.Split
import Mathlib.Data.List.TakeWhile

/-!
# What a command line does (`term_exec`, `kernel/string.c`)

* `strcmp`, `strncmp` : on strings in memory; `strcmp_eq` : equal or not;
* `Action` : what `term_exec` does next; `termExec` : its choice, from the arguments;
* `command` : the same choice from the line, without a buffer; `termExec_eq` : they agree;
* `Action.words`, `command_words` : the lines that stand for an action;
* `r8g8b8`, `putPixelBytes` : the colour of `SETTEXTCOLOR`, down to the framebuffer.
-/

namespace HaOS.Shell
open HaOS.Term (Split Splits Fields space)
open HaOS.Print (Holds Text parse)
open HaOS.Print.Numbers (strsize strint)
open Lib (slice)

def ascii (s : String) : List UInt8 := s.toList.map fun c => UInt8.ofNat c.toNat

def literal (bs : List UInt8) (i : Nat) : UInt8 := bs.getD i 0

/-! ## Comparing strings -/

/-- The loop of `strncmp`, with the characters that are left. -/
def strncmpLoop (c1 c2 : Nat → UInt8) : Nat → Nat → Nat
  | 0, _ => 0
  | left + 1, i => if c1 i ≠ c2 i then 1 else strncmpLoop c1 c2 left (i + 1)

def strncmp (c1 c2 : Nat → UInt8) (size : Nat) : Nat := strncmpLoop c1 c2 size 0

def strcmp (rounds : Nat) (c1 c2 : Nat → UInt8) : Option Nat := do
  let s1 ← strsize rounds c1
  let s2 ← strsize rounds c2
  if s1 ≠ s2 then some 1 else some (strncmp c1 c2 s1)

/-! ## `term_exec` -/

/-- What `term_exec` does with its arguments; `σ` is a string. -/
inductive Action (σ : Type) where
  | help
  | ltask
  | clear
  | exec (filename : σ)
  | execUsage
  | task (filename : σ)
  | taskUsage
  | setTextColor (r g b : UInt8)
  | setTextColorUsage
  | memsize (kb : Bool)
  | unknown (name : σ)
  /-- no arguments at all -/
  | nothing
deriving DecidableEq

def Action.map {σ τ : Type} (f : σ → τ) : Action σ → Action τ
  | .help => .help
  | .ltask => .ltask
  | .clear => .clear
  | .exec filename => .exec (f filename)
  | .execUsage => .execUsage
  | .task filename => .task (f filename)
  | .taskUsage => .taskUsage
  | .setTextColor r g b => .setTextColor r g b
  | .setTextColorUsage => .setTextColorUsage
  | .memsize kb => .memsize kb
  | .unknown name => .unknown (f name)
  | .nothing => .nothing

@[simp] theorem Action.map_map {σ τ υ : Type} (f : σ → τ) (g : τ → υ) (a : Action σ) :
    (a.map f).map g = a.map fun x => g (f x) := by
  cases a <;> rfl

def arg (s : Split) (k : Nat) (i : Nat) : UInt8 := s.cmd.get (s.args.get k + i)

/-- `(byte) strint( args[k] )`. -/
def byteArg (s : Split) (k : Nat) : Option UInt8 := (strint 1024 (arg s k)).map fun n => UInt8.ofBitVec (n.setWidth 8)

/-- The choice behind the splitting loop. The strings of an action are the pointers in `args`. -/
def termExec (s : Split) : Option (Action Nat) :=
  if s.argc > 0 then do
    if (← strcmp 1024 (arg s 0) (literal (ascii "HELP"))) = 0 then some .help
    else if (← strcmp 1024 (arg s 0) (literal (ascii "LTASK"))) = 0 then some .ltask
    else if (← strcmp 1024 (arg s 0) (literal (ascii "CLEAR"))) = 0 then some .clear
    else if (← strcmp 1024 (arg s 0) (literal (ascii "EXEC"))) = 0 then
      if s.argc ≠ 2 then some .execUsage else some (.exec (s.args.get 1))
    else if (← strcmp 1024 (arg s 0) (literal (ascii "TASK"))) = 0 then
      if s.argc = 1 then some .taskUsage else some (.task (s.args.get 1))
    else if (← strcmp 1024 (arg s 0) (literal (ascii "SETTEXTCOLOR"))) = 0 then
      if s.argc ≠ 4 then some .setTextColorUsage
      else some (.setTextColor (← byteArg s 1) (← byteArg s 2) (← byteArg s 3))
    else if (← strcmp 1024 (literal (ascii "MEMSIZE")) (arg s 0)) = 0 then
      if s.argc > 1 then some (.memsize ((← strcmp 1024 (arg s 1) (literal (ascii "-KB"))) = 0)) else some (.memsize false)
    else some (.unknown (s.args.get 0))
  else some .nothing

/-- The string at a pointer, in at most `size` bytes. -/
def string (size : Nat) (cmd : Nat → UInt8) (p : Nat) : Text where
  bytes := (slice cmd p size).takeWhile (· ≠ 0)
  nul h := by
    have h0 := List.mem_takeWhile_imp h
    exact absurd rfl (of_decide_eq_true h0)

/-! ## The same without a buffer -/

/-- A word as a byte: its number, with its sign, modulo 256. -/
def byteOfWord (word : List UInt8) : UInt8 :=
  UInt8.ofBitVec ((if word.head? = some 0x2D then -parse 0 word.tail else parse 0 word).setWidth 8)

/-- The command on a line, by its fields between single spaces. -/
def command (line : List UInt8) : Action (List UInt8) :=
  match line.splitOn space with
  | [] => .nothing
  | name :: args =>
    if name = ascii "HELP" then .help
    else if name = ascii "LTASK" then .ltask
    else if name = ascii "CLEAR" then .clear
    else if name = ascii "EXEC" then
      match args with
      | [filename] => .exec filename
      | _ => .execUsage
    else if name = ascii "TASK" then
      match args with
      | [] => .taskUsage
      | filename :: _ => .task filename
    else if name = ascii "SETTEXTCOLOR" then
      match args with
      | [r, g, b] => .setTextColor (byteOfWord r) (byteOfWord g) (byteOfWord b)
      | _ => .setTextColorUsage
    else if name = ascii "MEMSIZE" then .memsize (args.head? = some (ascii "-KB"))
    else .unknown name

variable {c1 c2 cmd : Nat → UInt8} {bs cs line : List UInt8} {rounds n i k start p : Nat} {s : Split}

/-! ## Strings -/

theorem strncmpLoop_eq (c1 c2 : Nat → UInt8) (left i : Nat) :
    strncmpLoop c1 c2 left i = if ∀ j < left, c1 (i + j) = c2 (i + j) then 0 else 1 := by
  induction left generalizing i with
  | zero =>
      rw [if_pos fun j hj => absurd hj (Nat.not_lt_zero j)]
      rfl
  | succ left ih =>
      rw [strncmpLoop, ih (i + 1)]
      by_cases h : c1 i = c2 i
      · rw [if_neg (not_not.mpr h)]
        refine if_congr ⟨fun hall j hj => ?_, fun hall j hj => ?_⟩ rfl rfl
        · cases j with
          | zero => exact h
          | succ j => rw [show i + (j + 1) = i + 1 + j by omega, hall j (by omega)]
        · rw [show i + 1 + j = i + (j + 1) by omega, hall (j + 1) (by omega)]
      · rw [if_pos h, if_neg fun hall => h (hall 0 (Nat.succ_pos left))]

theorem strcmp_eq (h1 : Holds c1 bs) (h2 : Holds c2 cs) (hbs : bs.length < rounds) (hcs : cs.length < rounds) :
    strcmp rounds c1 c2 = some (if bs = cs then 0 else 1) := by
  simp only [strcmp, Print.strsize_eq h1 hbs, Print.strsize_eq h2 hcs, Option.bind_eq_bind, Option.bind_some]
  by_cases hlen : bs.length = cs.length
  · rw [if_neg (not_not.mpr hlen), strncmp, strncmpLoop_eq]
    refine congrArg some (if_congr ⟨fun hall => ?_, fun heq i hi => ?_⟩ rfl rfl)
    · refine List.ext_getElem hlen fun i hi hi' => ?_
      rw [← h1.get hi, ← h2.get hi', ← Nat.zero_add i]
      exact hall i hi
    · subst heq
      rw [Nat.zero_add, h1.get hi, h2.get hi]
  · rw [if_pos hlen, if_neg fun heq => hlen (congrArg List.length heq)]

theorem holds_literal (h : 0 ∉ bs) : Holds (literal bs) bs := by
  refine Print.holds_of_get (fun i hi => ?_) ?_ h
  · exact (List.getElem_eq_getD (l := bs) (i := i) 0).symm
  · rw [literal, List.getD_eq_getElem?_getD, List.getElem?_eq_none (Nat.le_refl _)]
    rfl

theorem string_eq {size : Nat} (h : Holds (fun i => cmd (p + i)) bs) (hlen : bs.length < size) :
    (string size cmd p).bytes = bs := by
  obtain ⟨more, rfl⟩ : ∃ more, size = bs.length + (1 + more) := ⟨size - bs.length - 1, by omega⟩
  have hbs : slice cmd p bs.length = bs := by
    refine List.ext_getElem (Lib.length_slice ..) fun i hi hi' => ?_
    simp only [slice, List.getElem_map, List.getElem_range]
    exact h.get hi'
  have hnul : slice cmd (p + bs.length) 1 = [0] := by
    rw [← h.nul]
    rfl
  have hwhile : (slice cmd p (bs.length + (1 + more))).takeWhile (· ≠ 0) = bs := by
    rw [Lib.slice_add, Lib.slice_add, hbs, hnul, List.takeWhile_append_of_pos]
    · exact List.append_nil bs
    · exact fun b hb => decide_eq_true fun h0 => h.inside (h0 ▸ hb)
  exact hwhile

/-! ## The arguments -/

theorem sublist_field {f : List UInt8} (h : f ∈ line.splitOn space) : f.Sublist line := by
  induction line generalizing f with
  | nil =>
      obtain rfl := List.mem_singleton.mp h
      exact List.nil_sublist []
  | cons b line ih =>
      rw [List.splitOn_cons_eq_if_modifyHead] at h
      split_ifs at h
      · rcases List.mem_cons.mp h with rfl | h
        · exact List.nil_sublist _
        · exact (ih h).cons b
      · cases hfs : line.splitOn space with
        | nil =>
            rw [hfs] at h
            cases h
        | cons g gs =>
            rw [hfs] at h ih
            rcases List.mem_cons.mp h with rfl | h
            · exact (ih List.mem_cons_self).cons_cons b
            · exact (ih (List.mem_cons_of_mem g h)).cons b

theorem fields_arg {args : Nat → Nat} {fs : List (List UInt8)} {f : List UInt8} (h : Fields cmd args k start fs)
    (hf : fs[i]? = some f) : Holds (fun j => cmd (args (k + i) + j)) f := by
  induction fs generalizing k start i with
  | nil => cases hf
  | cons g fs ih =>
      obtain ⟨hk, hg, hrest⟩ := h
      cases i with
      | zero =>
          cases hf
          rw [Nat.add_zero, hk]
          exact hg
      | succ i =>
          rw [Nat.add_succ, ← Nat.succ_add]
          exact ih hrest hf

theorem holds_arg {f : List UInt8} (h : Splits line s) (hf : (line.splitOn space)[k]? = some f) : Holds (arg s k) f := by
  have hfield := fields_arg h.fields hf
  rw [Nat.zero_add] at hfield
  exact hfield

theorem byteArg_eq {f : List UInt8} (h : Holds (arg s k) f) (hlen : f.length < 1024) :
    byteArg s k = some (byteOfWord f) := by
  rw [byteArg, Print.strint_eq h hlen]
  rfl

theorem ite_ite_zero {α : Type} {P : Prop} [Decidable P] (x y : α) :
    (if (if P then 0 else 1) = 0 then x else y) = if P then x else y := by
  by_cases h : P
  · rw [if_pos h, if_pos h, if_pos rfl]
  · rw [if_neg h, if_neg h, if_neg Nat.one_ne_zero]

/-- On the arguments that the loop leaves, `term_exec` does what the line says. -/
theorem termExec_eq (h : Splits line s) (hlen : line.length ≤ 1023) :
    (termExec s).map (Action.map fun p => (string 1024 s.cmd.get p).bytes) = some (command line) := by
  have hargc : s.argc = (line.splitOn space).length := h.argc.trans (Term.length_splitOn line).symm
  have hfit : ∀ f ∈ line.splitOn space, f.length < 1024 := fun f hf =>
    Nat.lt_succ_of_le ((sublist_field hf).length_le.trans hlen)
  have harg : ∀ {k f}, (line.splitOn space)[k]? = some f → Holds (arg s k) f := fun hf => holds_arg h hf
  have hstring : ∀ {k f}, (line.splitOn space)[k]? = some f → (string 1024 s.cmd.get (s.args.get k)).bytes = f :=
    fun hf => string_eq (harg hf) (hfit _ (List.mem_of_getElem? hf))
  rw [command]
  generalize line.splitOn space = fs at hargc hfit harg hstring
  cases fs with
  | nil =>
      rw [termExec, hargc, List.length_nil, if_neg (Nat.lt_irrefl 0)]
      rfl
  | cons name args =>
      have hname : Holds (arg s 0) name := harg rfl
      have hcmp : ∀ w, 0 ∉ w → w.length < 1024 →
          strcmp 1024 (arg s 0) (literal w) = some (if name = w then 0 else 1) := fun w hw hlen =>
        strcmp_eq hname (holds_literal hw) (hfit name List.mem_cons_self) hlen
      have hmemsize : strcmp 1024 (literal (ascii "MEMSIZE")) (arg s 0) =
          some (if ascii "MEMSIZE" = name then 0 else 1) :=
        strcmp_eq (holds_literal (by decide)) hname (by decide) (hfit name List.mem_cons_self)
      rw [termExec, if_pos (by rw [hargc]; exact Nat.succ_pos _)]
      simp only [hcmp (ascii "HELP") (by decide) (by decide), hcmp (ascii "LTASK") (by decide) (by decide),
        hcmp (ascii "CLEAR") (by decide) (by decide), hcmp (ascii "EXEC") (by decide) (by decide),
        hcmp (ascii "TASK") (by decide) (by decide), hcmp (ascii "SETTEXTCOLOR") (by decide) (by decide), hmemsize,
        Option.bind_eq_bind, Option.bind_some, ite_ite_zero, eq_comm (a := ascii "MEMSIZE")]
      have hcount : s.argc = args.length + 1 := hargc
      by_cases hhelp : name = ascii "HELP"
      · rw [if_pos hhelp, if_pos hhelp]
        rfl
      rw [if_neg hhelp, if_neg hhelp]
      by_cases hltask : name = ascii "LTASK"
      · rw [if_pos hltask, if_pos hltask]
        rfl
      rw [if_neg hltask, if_neg hltask]
      by_cases hclear : name = ascii "CLEAR"
      · rw [if_pos hclear, if_pos hclear]
        rfl
      rw [if_neg hclear, if_neg hclear]
      by_cases hexec : name = ascii "EXEC"
      · rw [if_pos hexec, if_pos hexec]
        match args with
        | [] =>
            rw [if_pos (by rw [hcount]; decide)]
            rfl
        | [filename] =>
            rw [if_neg (by rw [hcount]; simp)]
            exact congrArg (fun f => some (Action.exec f)) (hstring rfl)
        | _ :: _ :: args =>
            rw [if_pos (by rw [hcount]; simp)]
            rfl
      rw [if_neg hexec, if_neg hexec]
      by_cases htask : name = ascii "TASK"
      · rw [if_pos htask, if_pos htask]
        cases args with
        | nil =>
            rw [if_pos (show s.argc = 1 from hcount)]
            rfl
        | cons filename args =>
            rw [if_neg (by rw [hcount]; simp)]
            exact congrArg (fun f => some (Action.task f)) (hstring rfl)
      rw [if_neg htask, if_neg htask]
      by_cases hcolor : name = ascii "SETTEXTCOLOR"
      · rw [if_pos hcolor, if_pos hcolor]
        match args with
        | [r, g, b] =>
            have hbyte : ∀ {k f}, (name :: [r, g, b])[k]? = some f → byteArg s k = some (byteOfWord f) := fun hf =>
              byteArg_eq (harg hf) (hfit _ (List.mem_of_getElem? hf))
            rw [if_neg (by rw [hcount]; simp), hbyte (k := 1) rfl, hbyte (k := 2) rfl, hbyte (k := 3) rfl]
            rfl
        | [] | [_] | [_, _] =>
            rw [if_pos (by rw [hcount]; simp)]
            rfl
        | _ :: _ :: _ :: _ :: args =>
            rw [if_pos (by rw [hcount]; simp)]
            rfl
      rw [if_neg hcolor, if_neg hcolor]
      by_cases hmem : name = ascii "MEMSIZE"
      · rw [if_pos hmem, if_pos hmem]
        cases args with
        | nil =>
            rw [if_neg (by rw [hcount]; decide)]
            rfl
        | cons kb args =>
            have hkb : strcmp 1024 (arg s 1) (literal (ascii "-KB")) = some (if kb = ascii "-KB" then 0 else 1) :=
              strcmp_eq (harg rfl) (holds_literal (by decide)) (hfit kb (List.mem_cons_of_mem _ List.mem_cons_self))
                (by decide)
            rw [if_pos (by rw [hcount]; simp), hkb]
            by_cases h : kb = ascii "-KB" <;> simp [h, Action.map]
      rw [if_neg hmem, if_neg hmem]
      exact congrArg (fun f => some (Action.unknown f)) (hstring rfl)

theorem mem_of_command {name : List UInt8} (h : command line = .unknown name) : name ∈ line.splitOn space := by
  rw [command] at h
  cases hfs : line.splitOn space with
  | nil =>
      rw [hfs] at h
      cases h
  | cons f args =>
      rw [hfs] at h
      simp only at h
      split_ifs at h
      · split at h <;> cases h
      · split at h <;> cases h
      · split at h <;> cases h
      · cases h
        exact List.mem_cons_self

/-! ## The lines for an action -/

def decimal (b : UInt8) : List UInt8 := Print.intstr (BitVec.ofNat 32 b.toNat)

def Action.words : Action (List UInt8) → List (List UInt8)
  | .help => [ascii "HELP"]
  | .ltask => [ascii "LTASK"]
  | .clear => [ascii "CLEAR"]
  | .exec filename => [ascii "EXEC", filename]
  | .execUsage => [ascii "EXEC"]
  | .task filename => [ascii "TASK", filename]
  | .taskUsage => [ascii "TASK"]
  | .setTextColor r g b => [ascii "SETTEXTCOLOR", decimal r, decimal g, decimal b]
  | .setTextColorUsage => [ascii "SETTEXTCOLOR"]
  | .memsize true => [ascii "MEMSIZE", ascii "-KB"]
  | .memsize false => [ascii "MEMSIZE"]
  | .unknown name => [name]
  | .nothing => []

def keywords : List (List UInt8) :=
  [ascii "HELP", ascii "LTASK", ascii "CLEAR", ascii "EXEC", ascii "TASK", ascii "SETTEXTCOLOR", ascii "MEMSIZE"]

/-- The strings of the action are words, and it does not take a keyword for an unknown name. -/
def Action.Spoken : Action (List UInt8) → Prop
  | .exec filename | .task filename => space ∉ filename
  | .unknown name => space ∉ name ∧ name ∉ keywords
  | .nothing => False
  | _ => True

variable {a : Action (List UInt8)}

theorem toInt_byte (b : UInt8) : (BitVec.ofNat 32 b.toNat).toInt = b.toNat := by
  have hlt := b.toNat_lt
  have hval : (BitVec.ofNat 32 b.toNat).toNat = b.toNat := by
    rw [BitVec.toNat_ofNat]
    omega
  rw [BitVec.toInt_eq_toNat_of_lt (by omega), hval]

theorem byteOfWord_decimal (b : UInt8) : byteOfWord (decimal b) = b := by
  have hne : BitVec.ofNat 32 b.toNat ≠ BitVec.intMin 32 := fun h => by
    have hint := toInt_byte b
    rw [h] at hint
    exact absurd hint (by rw [show (BitVec.intMin 32).toInt = -2147483648 from rfl]; omega)
  unfold byteOfWord decimal
  rw [(Print.read_intstr_iff _).mpr hne, BitVec.setWidth_ofNat_of_le (by decide)]
  exact UInt8.ofNat_toNat

theorem intstr_nonneg {v : BitVec 32} (h : 0 ≤ v.toInt) :
    Print.intstr v = (if v ≠ 0 then Print.decimals v.toInt.toNat else [0x30]).reverse := by
  simp only [Print.intstr, h, decide_true, if_true, Print.strrev_eq_reverse]

theorem space_notMem_decimal (b : UInt8) : space ∉ decimal b := by
  intro h
  have hsign : 0 ≤ (BitVec.ofNat 32 b.toNat).toInt := by
    rw [toInt_byte]
    exact Int.natCast_nonneg _
  rw [decimal, intstr_nonneg hsign, List.mem_reverse] at h
  split_ifs at h
  · obtain ⟨d, hd, hspace⟩ := Print.digit_of_mem_decimals h
    have hval := congrArg UInt8.toNat hspace
    rw [Print.digit_toNat hd] at hval
    exact absurd hval (by rw [show space.toNat = 32 from rfl]; omega)
  · exact absurd h (by decide)

theorem splitOn_words {ws : List (List UInt8)} (hne : ws ≠ []) (hws : ∀ w ∈ ws, space ∉ w) :
    ([space].intercalate ws).splitOn space = ws := List.splitOn_intercalate space hws hne

theorem space_notMem_words (h : a.Spoken) : a.words ≠ [] ∧ ∀ w ∈ a.words, space ∉ w := by
  cases a with
  | exec filename | task filename =>
      refine ⟨List.cons_ne_nil _ _, List.forall_mem_cons.mpr ⟨by decide, List.forall_mem_singleton.mpr h⟩⟩
  | setTextColor r g b =>
      refine ⟨List.cons_ne_nil _ _, List.forall_mem_cons.mpr ⟨by decide, fun w hw => ?_⟩⟩
      simp only [List.mem_cons, List.not_mem_nil, or_false] at hw
      obtain rfl | rfl | rfl := hw <;> exact space_notMem_decimal _
  | unknown name => exact ⟨List.cons_ne_nil _ _, List.forall_mem_singleton.mpr h.1⟩
  | memsize kb => cases kb <;> exact ⟨by decide, by decide⟩
  | nothing => exact h.elim
  | help | ltask | clear | execUsage | taskUsage | setTextColorUsage => exact ⟨by decide, by decide⟩

theorem length_words (a : Action (List UInt8)) : a.words.length ≤ 4 := by
  cases a with
  | memsize kb => cases kb <;> exact Nat.le_of_ble_eq_true rfl
  | _ => exact Nat.le_of_ble_eq_true rfl

/-- Every action is what some line says. -/
theorem command_words (h : a.Spoken) : command ([space].intercalate a.words) = a := by
  obtain ⟨hne, hspace⟩ := space_notMem_words h
  rw [command, splitOn_words hne hspace]
  cases a with
  | setTextColor r g b =>
      show Action.setTextColor (byteOfWord (decimal r)) (byteOfWord (decimal g)) (byteOfWord (decimal b)) = _
      rw [byteOfWord_decimal, byteOfWord_decimal, byteOfWord_decimal]
  | unknown name =>
      obtain ⟨-, hname⟩ := h
      simp only [keywords, List.mem_cons, List.not_mem_nil, or_false, not_or] at hname
      obtain ⟨h1, h2, h3, h4, h5, h6, h7⟩ := hname
      simp only [Action.words, if_neg h1, if_neg h2, if_neg h3, if_neg h4, if_neg h5, if_neg h6, if_neg h7]
  | memsize kb => cases kb <;> rfl
  | nothing => exact h.elim
  | help | ltask | clear | exec | execUsage | task | taskUsage | setTextColorUsage => rfl

/-! ## Colours -/

def r8g8b8 (r g b : UInt8) : Nat := (r.toNat &&& 0xFF) <<< 16 ||| (g.toNat &&& 0xFF) <<< 8 ||| (b.toNat &&& 0xFF)

/-- The three bytes that `video_driver_putPixel` stores. -/
def putPixelBytes (color : Nat) : List UInt8 :=
  let r8 := UInt8.ofNat (color &&& 0xFF)
  let g8 := UInt8.ofNat (color >>> 8 &&& 0xFF)
  let b8 := UInt8.ofNat (color >>> 16 &&& 0xFF)
  [b8, g8, r8]

theorem and_byte (n : Nat) : n &&& 0xFF = n % 256 := Nat.and_two_pow_sub_one_eq_mod n 8

theorem r8g8b8_eq (r g b : UInt8) : r8g8b8 r g b = r.toNat * 65536 + g.toNat * 256 + b.toNat := by
  have hb := b.toNat_lt
  have hg := g.toNat_lt
  have hr := r.toNat_lt
  unfold r8g8b8
  rw [and_byte, and_byte, and_byte, Nat.mod_eq_of_lt hr, Nat.mod_eq_of_lt hg, Nat.mod_eq_of_lt hb, Nat.or_assoc,
    ← Nat.shiftLeft_add_eq_or_of_lt hb, ← Nat.shiftLeft_add_eq_or_of_lt, Nat.shiftLeft_eq, Nat.shiftLeft_eq, Nat.add_assoc]
  rw [Nat.shiftLeft_eq]
  omega

theorem putPixelBytes_r8g8b8 (r g b : UInt8) : putPixelBytes (r8g8b8 r g b) = [r, g, b] := by
  have hb := b.toNat_lt
  have hg := g.toNat_lt
  have hr := r.toNat_lt
  unfold putPixelBytes
  simp only [and_byte, Nat.shiftRight_eq_div_pow, r8g8b8_eq]
  rw [show (r.toNat * 65536 + g.toNat * 256 + b.toNat) / 2 ^ 16 % 256 = r.toNat by omega,
    show (r.toNat * 65536 + g.toNat * 256 + b.toNat) / 2 ^ 8 % 256 = g.toNat by omega,
    show (r.toNat * 65536 + g.toNat * 256 + b.toNat) % 256 = b.toNat by omega]
  simp only [UInt8.ofNat_toNat]

end HaOS.Shell
