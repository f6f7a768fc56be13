import HaOS.Paging.Bitmap
import HaOS.Shell.Command
import HaOS.Task.Sched

/-!
# What a command prints (`term_exec`, `task_print`)

* `Call`, `calls` : the calls of `printf` that `term_exec` makes; `taskPrint` : those of `LTASK`;
* `printAll` : their output, with whatever the registers hold;
* `numeral`, `report` : what is to be read on the screen, without `printf`;
* `printAll_calls` : they agree, unless an unknown name has a percent sign.
-/

namespace HaOS.Shell
open HaOS.Print (Text Arg Piece Plain Fits pieces printed percent kernelPrintf hexstr)
open HaOS.Task (Sched TaskInfo)
open HaOS.Paging (Bit frames pageGetSizeMemoryUse)
open Lib (Chain)

/-! ## Calls of `printf` -/

structure Call where
  format : Text
  args : List Arg

def helpFormats : List Text :=
  [⟨ascii "Tools/Command HaOS:\n", by decide⟩,
    ⟨ascii "HELP -  displaying tools/command\n", by decide⟩,
    ⟨ascii "CLEAR - clear text/screen of terminal\n", by decide⟩,
    ⟨ascii "EXEC <filename> - execute ELF file target\n", by decide⟩,
    ⟨ascii "SETTEXTCOLOR <r8> <g8> <b8> - change text color\n", by decide⟩,
    ⟨ascii "MEMSIZE -[K]B - show the size of memory use\n", by decide⟩,
    ⟨ascii "LTASK - show the list of task process\n", by decide⟩]

def currentTaskFormat : Text := ⟨ascii "Current Task: %x, Next Task: %x\n", by decide⟩

def listTaskFormat : Text := ⟨ascii "List Task:\n", by decide⟩

def taskFormat : Text := ⟨ascii "(%x) Task %i: rsp=%x, flags=%x, next=%x\n", by decide⟩

def execFormat : Text := ⟨ascii "EXEC <filename>", by decide⟩

def wrongParametersFormat : Text := ⟨ascii "Wrong Parameters: TASK <filename>", by decide⟩

def textColorFormat : Text := ⟨ascii "Text Color should be have r, g, and b value\n", by decide⟩

def kbFormat : Text := ⟨ascii "Memory Size Use: %i kb \n", by decide⟩

def bytesFormat : Text := ⟨ascii "Memory Size Use: %i bytes \n", by decide⟩

def unknownFormat : Text := ⟨ascii "%s: is not an COMMAND\n", by decide⟩

def num (n : Nat) : Arg := .num (BitVec.ofNat 64 n)

def taskCall (mem : Nat → TaskInfo) (crt index : Nat) : Call :=
  ⟨taskFormat, [num crt, num index, num (mem crt).stack, num (mem crt).flags, num (mem crt).next]⟩

/-- `while( crt != NULL )`, on a bound. -/
def taskPrintLoop (mem : Nat → TaskInfo) : Nat → Nat → Nat → Option (List Call)
  | 0, _, _ => none
  | walk + 1, crt, index =>
    if crt ≠ 0 then (taskPrintLoop mem walk (mem crt).next (index + 1)).map (taskCall mem crt index :: ·) else some []

def taskPrint (walk : Nat) (s : Sched) : Option (List Call) :=
  (taskPrintLoop s.mem walk s.kernelTask 0).map
    ([⟨currentTaskFormat, [num s.taskCurrent, num s.taskNext]⟩, ⟨listTaskFormat, []⟩] ++ ·)

/-- The calls of `term_exec`; a program that `EXEC` runs prints on its own. -/
def calls (walk : Nat) (s : Sched) (bitmap : Nat → BitVec 8) : Action Text → Option (List Call)
  | .help => some (helpFormats.map (⟨·, []⟩))
  | .ltask => taskPrint walk s
  | .execUsage => some [⟨execFormat, []⟩]
  | .taskUsage => some [⟨wrongParametersFormat, []⟩]
  | .setTextColorUsage => some [⟨textColorFormat, []⟩]
  | .memsize true => some [⟨kbFormat, [num (pageGetSizeMemoryUse bitmap / 1024)]⟩]
  | .memsize false => some [⟨bytesFormat, [num (pageGetSizeMemoryUse bitmap)]⟩]
  | .unknown name => some [⟨unknownFormat, [.str name]⟩]
  | .clear | .exec _ | .task _ | .setTextColor _ _ _ | .nothing => some []

/-- What the calls print, one after another. `left` is what the registers hold at each of them. -/
def printAll (left : List Nat → Fin 5 → Arg) (depth : Nat) : List Call → Option (List UInt8)
  | [] => some []
  | c :: cs => do
    let out ← kernelPrintf left depth [cs.length] c.format c.args
    let rest ← printAll left depth cs
    some (out ++ rest)

/-! ## What is to be read -/

def numeral (n : Nat) : List UInt8 :=
  if n = 0 then [0x30] else (Nat.digits 10 n).reverse.map fun d => UInt8.ofNat (d + 0x30)

def usedFrames (bitmap : Nat → BitVec 8) : Nat := ((Finset.range frames).filter fun f => Bit bitmap f).card

def taskRow (mem : Nat → TaskInfo) (crt index : Nat) : List UInt8 :=
  ascii "(" ++ hexstr (qword crt) ++ ascii ") Task " ++ Print.intstr (BitVec.ofNat 32 index) ++ ascii ": rsp=" ++
    hexstr (qword (mem crt).stack) ++ ascii ", flags=" ++ hexstr (qword (mem crt).flags) ++ ascii ", next=" ++
    hexstr (qword (mem crt).next) ++ ascii "\n"

def taskRows (mem : Nat → TaskInfo) : List Nat → Nat → List UInt8
  | [], _ => []
  | crt :: l, index => taskRow mem crt index ++ taskRows mem l (index + 1)

/-- What a command prints, with the list of the tasks. -/
def report (s : Sched) (l : List Nat) (bitmap : Nat → BitVec 8) : Action (List UInt8) → List UInt8
  | .help => helpFormats.flatMap Text.bytes
  | .ltask =>
    ascii "Current Task: " ++ hexstr (qword s.taskCurrent) ++ ascii ", Next Task: " ++ hexstr (qword s.taskNext) ++
      ascii "\nList Task:\n" ++ taskRows s.mem l 0
  | .execUsage => ascii "EXEC <filename>"
  | .taskUsage => ascii "Wrong Parameters: TASK <filename>"
  | .setTextColorUsage => ascii "Text Color should be have r, g, and b value\n"
  | .memsize true => ascii "Memory Size Use: " ++ numeral (4 * usedFrames bitmap) ++ ascii " kb \n"
  | .memsize false => ascii "Memory Size Use: " ++ numeral (4096 * usedFrames bitmap) ++ ascii " bytes \n"
  | .unknown name => name ++ ascii ": is not an COMMAND\n"
  | .clear | .exec _ | .task _ | .setTextColor _ _ _ | .nothing => []

variable {left : List Nat → Fin 5 → Arg} {depth walk index crt : Nat} {path : List Nat} {fmt name : Text} {args : List Arg}
  {bs : List UInt8} {c : Call} {cs : List Call} {s : Sched} {l : List Nat} {bitmap : Nat → BitVec 8} {a : Action Text}

/-! ## Numbers and strings -/

theorem intstr_numeral {n : Nat} (h : n < 2 ^ 31) : Print.intstr (BitVec.ofNat 32 n) = numeral n := by
  have hval : (BitVec.ofNat 32 n).toNat = n := by
    rw [BitVec.toNat_ofNat]
    omega
  have hint : (BitVec.ofNat 32 n).toInt = n := by
    rw [BitVec.toInt_eq_toNat_of_lt (by omega), hval]
  rw [intstr_nonneg (hint ▸ Int.natCast_nonneg n), hint, Int.toNat_natCast, numeral, Print.decimals_eq]
  by_cases h0 : n = 0
  · subst h0
    rfl
  · have hne : BitVec.ofNat 32 n ≠ 0 := fun hz => h0 (by rw [← hval, hz]; rfl)
    rw [if_pos hne, if_neg h0, List.map_reverse]

theorem pieces_literal (h : percent ∉ bs) : pieces bs = some (bs.map fun b => .plain [b]) := by
  induction bs with
  | nil => rfl
  | cons b bs ih =>
      have hb : b ≠ percent := fun heq => h (heq ▸ List.mem_cons_self)
      cases bs with
      | nil =>
          rw [pieces, if_neg hb]
          rfl
      | cons d format =>
          rw [pieces, if_neg hb, ih fun hmem => h (List.mem_cons_of_mem b hmem)]
          rfl

theorem plain_of_notMem (h : percent ∉ name.bytes) : Plain name := by
  refine ⟨_, pieces_literal h, fun p hp => ?_⟩
  obtain ⟨b, -, rfl⟩ := List.mem_map.mp hp
  exact ⟨[b], rfl⟩

/-! ## The output -/

def piecesOf (fmt : Text) : List Piece := (pieces fmt.bytes).getD []

/-- A call prints its format and its arguments, if its strings are literal. -/
theorem kernelPrintf_eq (hps : pieces fmt.bytes = some (piecesOf fmt)) (hfits : Fits (piecesOf fmt) args)
    (hlen : args.length ≤ 5) (hplain : ∀ text, .str text ∈ args → Plain text) :
    kernelPrintf left (depth + 2) path fmt args = some (printed (piecesOf fmt) args) := by
  rw [kernelPrintf, Print.printfImpl_eq, hps, Print.pushed_eq hlen]
  exact Print.output_eq_printed hfits (fun n text htext => Print.kernelPrintf_plain (hplain text htext)) _

theorem printAll_plain (h : percent ∉ fmt.bytes) :
    printAll left (depth + 2) (⟨fmt, []⟩ :: cs) = (printAll left (depth + 2) cs).map (fmt.bytes ++ ·) := by
  rw [printAll, Print.kernelPrintf_plain (plain_of_notMem h)]
  cases printAll left (depth + 2) cs <;> rfl

theorem printAll_cons (hps : pieces fmt.bytes = some (piecesOf fmt)) (hfits : Fits (piecesOf fmt) args)
    (hlen : args.length ≤ 5) (hplain : ∀ text, .str text ∈ args → Plain text) :
    printAll left (depth + 2) (⟨fmt, args⟩ :: cs) =
      (printAll left (depth + 2) cs).map (printed (piecesOf fmt) args ++ ·) := by
  rw [printAll, kernelPrintf_eq hps hfits hlen hplain]
  cases printAll left (depth + 2) cs <;> rfl

theorem printAll_one (fmt : Text) (arg : Arg) (hps : pieces fmt.bytes = some (piecesOf fmt))
    (hfits : Fits (piecesOf fmt) [arg]) (hplain : ∀ text, arg = .str text → Plain text) :
    printAll left (depth + 2) [⟨fmt, [arg]⟩] = some (printed (piecesOf fmt) [arg]) := by
  rw [printAll_cons hps hfits (show 1 ≤ 5 by decide) fun text h => hplain text (List.mem_singleton.mp h).symm]
  exact congrArg some (List.append_nil _)

theorem printAll_formats {fmts : List Text} (h : ∀ fmt ∈ fmts, percent ∉ fmt.bytes) :
    printAll left (depth + 2) (fmts.map (⟨·, []⟩)) = some (fmts.flatMap Text.bytes) := by
  induction fmts with
  | nil => rfl
  | cons fmt fmts ih =>
      rw [List.map_cons, printAll_plain (h fmt List.mem_cons_self), ih fun f hf => h f (List.mem_cons_of_mem fmt hf)]
      rfl

theorem printed_num (n : Nat) : hexstr (BitVec.ofNat 64 n).toNat = hexstr (qword n) := by
  rw [BitVec.toNat_ofNat]
  rfl

theorem printAll_taskCall (mem : Nat → TaskInfo) (crt index : Nat) (cs : List Call) :
    printAll left (depth + 2) (taskCall mem crt index :: cs) =
      (printAll left (depth + 2) cs).map (taskRow mem crt index ++ ·) := by
  have hfits : Fits (piecesOf taskFormat) (taskCall mem crt index).args :=
    ⟨trivial, trivial, trivial, trivial, trivial, rfl⟩
  have hindex : (BitVec.ofNat 64 index).setWidth 32 = BitVec.ofNat 32 index := BitVec.setWidth_ofNat_of_le (by decide) index
  have hrow : printed (piecesOf taskFormat) (taskCall mem crt index).args = taskRow mem crt index := by
    unfold taskRow
    rw [← hindex, ← printed_num, ← printed_num, ← printed_num, ← printed_num]
    simp only [List.append_assoc]
    rfl
  have hnum : ∀ text, .str text ∉ (taskCall mem crt index).args := by
    intro text h
    simp only [taskCall, num, List.mem_cons, reduceCtorEq, List.not_mem_nil, or_false] at h
  rw [← hrow]
  exact printAll_cons rfl hfits (Nat.le_refl 5) fun text h => absurd h (hnum text)

/-- The loop of `task_print` ends, and prints a row for each task of the list. -/
theorem printAll_taskPrintLoop (hchain : Chain s.next crt l) (hcrt : crt ≠ 0) (hwalk : l.length < walk) :
    ∃ cs, taskPrintLoop s.mem walk crt index = some cs ∧ printAll left (depth + 2) cs = some (taskRows s.mem l index) := by
  obtain ⟨more, rfl⟩ : ∃ more, walk = more + 1 + l.length := ⟨walk - l.length - 1, by omega⟩
  clear hwalk
  induction hchain generalizing index with
  | @last crt hlast =>
      have hnext : (s.mem crt).next = 0 := by
        unfold Sched.next at hlast
        split_ifs at hlast with h0
        exact h0
      refine ⟨[taskCall s.mem crt index], ?_, printAll_taskCall ..⟩
      show taskPrintLoop s.mem (more + 1 + 1) crt index = _
      rw [taskPrintLoop, if_pos hcrt, hnext, taskPrintLoop, if_neg (not_not.mpr rfl)]
      rfl
  | @link crt b l hnext _ ih =>
      obtain ⟨hne, heq⟩ : b ≠ 0 ∧ (s.mem crt).next = b := by
        unfold Sched.next at hnext
        split_ifs at hnext with h0
        cases hnext
        exact ⟨h0, rfl⟩
      obtain ⟨cs, hcs, hout⟩ := @ih (index + 1) hne
      refine ⟨taskCall s.mem crt index :: cs, ?_, ?_⟩
      · show taskPrintLoop s.mem (more + 1 + l.length + 1) crt index = _
        rw [taskPrintLoop, if_pos hcrt, heq, hcs]
        rfl
      · rw [printAll_taskCall, hout]
        rfl

theorem printed_memsize (n : Nat) (hn : n < 2 ^ 31) :
    printed (piecesOf kbFormat) [num n] = ascii "Memory Size Use: " ++ numeral n ++ ascii " kb \n" ∧
      printed (piecesOf bytesFormat) [num n] = ascii "Memory Size Use: " ++ numeral n ++ ascii " bytes \n" := by
  have hlow : (BitVec.ofNat 64 n).setWidth 32 = BitVec.ofNat 32 n := BitVec.setWidth_ofNat_of_le (by decide) n
  rw [← intstr_numeral hn, ← hlow]
  simp only [List.append_assoc]
  exact ⟨rfl, rfl⟩

theorem usedFrames_le (bitmap : Nat → BitVec 8) : usedFrames bitmap ≤ 32768 :=
  (Finset.card_filter_le _ _).trans (Finset.card_range frames).le

/-- Every command ends, and prints what is to be read, whatever the registers hold, unless an unknown name has a percent
sign. -/
theorem printAll_calls (hchain : Chain s.next s.kernelTask l) (hkernel : s.kernelTask ≠ 0) (hwalk : l.length < walk)
    (hplain : ∀ name, a = .unknown name → percent ∉ name.bytes) :
    ∃ cs, calls walk s bitmap a = some cs ∧
      printAll left (depth + 2) cs = some (report s l bitmap (a.map Text.bytes)) := by
  cases a with
  | help => exact ⟨_, rfl, printAll_formats (by decide)⟩
  | ltask =>
      obtain ⟨cs, hcs, hout⟩ := @printAll_taskPrintLoop left depth walk 0 s.kernelTask s l hchain hkernel hwalk
      have hfits : Fits (piecesOf currentTaskFormat) [num s.taskCurrent, num s.taskNext] := ⟨trivial, trivial, rfl⟩
      have hnum : ∀ text, .str text ∉ [num s.taskCurrent, num s.taskNext] := by
        intro text h
        simp only [num, List.mem_cons, reduceCtorEq, List.not_mem_nil, or_false] at h
      have hcurrent : printed (piecesOf currentTaskFormat) [num s.taskCurrent, num s.taskNext] =
          ascii "Current Task: " ++ (hexstr (BitVec.ofNat 64 s.taskCurrent).toNat ++
            (ascii ", Next Task: " ++ (hexstr (BitVec.ofNat 64 s.taskNext).toNat ++ ascii "\n"))) := rfl
      refine ⟨_, congrArg (Option.map _) hcs, ?_⟩
      show printAll left (depth + 2) (⟨currentTaskFormat, _⟩ :: ⟨listTaskFormat, []⟩ :: cs) = _
      rw [printAll_cons rfl hfits (show 2 ≤ 5 by decide) fun text h => absurd h (hnum text), printAll_plain (by decide),
        hout, hcurrent]
      simp only [Option.map_some, Action.map, report, ← printed_num, List.append_assoc]
      rfl
  | execUsage => exact ⟨_, rfl, printAll_plain (by decide)⟩
  | taskUsage => exact ⟨_, rfl, printAll_plain (by decide)⟩
  | setTextColorUsage => exact ⟨_, rfl, printAll_plain (by decide)⟩
  | memsize kb =>
      have hused := usedFrames_le bitmap
      have hsize : pageGetSizeMemoryUse bitmap = 4096 * usedFrames bitmap := Paging.sizeMemoryUse_eq bitmap
      cases kb with
      | true =>
          refine ⟨_, rfl, (printAll_one kbFormat (num _) rfl (And.intro trivial rfl) fun _ h => by cases h).trans ?_⟩
          rw [(printed_memsize _ (by omega)).1, hsize, show 4096 * usedFrames bitmap / 1024 = 4 * usedFrames bitmap by omega]
          rfl
      | false =>
          refine ⟨_, rfl, (printAll_one bytesFormat (num _) rfl (And.intro trivial rfl) fun _ h => by cases h).trans ?_⟩
          rw [(printed_memsize _ (by omega)).2, hsize]
          rfl
  | unknown name =>
      refine ⟨_, rfl, printAll_one unknownFormat (.str name) rfl (And.intro trivial rfl) fun text h => ?_⟩
      cases h
      exact plain_of_notMem (hplain name rfl)
  | clear => exact ⟨_, rfl, rfl⟩
  | exec => exact ⟨_, rfl, rfl⟩
  | task => exact ⟨_, rfl, rfl⟩
  | setTextColor => exact ⟨_, rfl, rfl⟩
  | nothing => exact ⟨_, rfl, rfl⟩

end HaOS.Shell
