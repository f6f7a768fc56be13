import HaOS.Shell.Editor
import HaOS.Shell.Output

/-!
# From the keyboard to the commands (`kernel/driver/keyboard_driver.c`, `getchar`, `term_run`)

* `scancodeSet1`, `keyboardGetchar` : the key of a scancode;
* `Console` : the controller, the terminal, and a log of what was typed and what the commands did;
* `Env` : what `term_exec` finds in the registers, in `args` and in the kernel;
* `Event`, `Step` : scancodes arrive, the keyboard interrupts, `getchar` polls and reads, other tasks print;
* `Typeable` : what the user keeps to; `Inv` : the invariant; `Inv.step` : each event keeps it;
* `transcript` : in every run the commands are the lines that were typed, with the output that belongs to them.
-/

namespace HaOS.Shell
open HaOS.Term
open HaOS.Print (Text Arg Holds percent)
open HaOS.Print.Numbers (strsize strsizeLoop)
open HaOS.Task (Sched)
open Lib (Chain Reaches)

/-! ## The keyboard -/

/-- `scancode_set_1`, with the NUL behind it. -/
def scancodeSet1 : List UInt8 :=
  [0] ++ ascii "\n1234567890-=" ++ [0x08, 0x09] ++ ascii "QWERTYUIOP[]\n" ++ [0] ++ ascii "ASDFGHJKL;" ++ [0x27, 0x60, 0] ++
    ascii "\\ZXCVBNM,./" ++ [0, 0x2A, 0, 0x20, 0, 0]

/-- `keyboard_getchar`, for the byte at the data port. `behind` is the memory behind the table. -/
def keyboardGetchar (behind : Nat → UInt8) (scancode : UInt8) : UInt8 :=
  if scancode &&& 0x80 ≠ 0 then 0
  else
    let i := (scancode &&& 0x7F).toNat
    if i < scancodeSet1.length then scancodeSet1.getD i 0 else behind i

/-- The table has a key for the scancode, or it is that of a key that is released. -/
def Known (scancode : UInt8) : Prop := scancode < 60 ∨ 128 ≤ scancode

instance (scancode : UInt8) : Decidable (Known scancode) := inferInstanceAs (Decidable (_ ∨ _))

/-- The key of a scancode that is known. -/
def keyOf (scancode : UInt8) : UInt8 := keyboardGetchar (fun _ => 0) scancode

def ps2StatusOutbufbit : UInt8 := 0x01

/-! ## The terminal on the console -/

/-- What a command found, and what came of it. -/
structure Entry where
  action : Action (List UInt8)
  sched : Sched
  bitmap : Nat → BitVec 8
  printed : List UInt8

structure Console where
  /-- the scancodes in the controller, the first one at its data port -/
  queue : List UInt8
  /-- all that have come -/
  arrived : List UInt8
  /-- `getchar` has seen the output buffer full -/
  ready : Bool
  /-- `ps2_is_output_serve` -/
  isOutputServe : UInt8
  /-- what `getchar` has returned -/
  keys : List UInt8
  term : Term.State
  textColor : Nat
  /-- what `term_exec` has done -/
  entries : List Entry

/-- What a call of `getchar` and of `term_exec` finds. -/
structure Env where
  /-- the data port when its buffer is empty -/
  stale : UInt8
  /-- the bound on the length of the command -/
  rounds : Nat
  /-- the pointers in `args` before they are set -/
  args : Nat → Nat
  left : List Nat → Fin 5 → Arg
  depth : Nat
  walk : Nat
  sched : Sched
  bitmap : Nat → BitVec 8
  /-- what a program prints that `EXEC` runs -/
  program : List UInt8

variable (scr : Screen) (font : UInt8 → Nat → UInt8) (behind : Nat → UInt8)

def textColorAfter {σ : Type} (textColor : Nat) : Action σ → Nat
  | .setTextColor r g b => r8g8b8 r g b
  | _ => textColor

/-- The output of the action, with that of the program it runs. -/
def outputWith {σ : Type} (program printed : List UInt8) : Action σ → List UInt8
  | .exec _ => printed ++ program
  | _ => printed

/-- A newline: the call of `term_exec`, and the empty line after it. -/
def Console.enter (env : Env) (c : Console) : Option Console := do
  let len ← strsize env.rounds c.term.logs
  let s := splitLoop (len + 1) ⟨⟨c.term.logs, []⟩, ⟨env.args, []⟩, 0, 0, 0⟩
  let action ← termExec s
  let cs ← calls env.walk env.sched env.bitmap (action.map (string 1024 s.cmd.get))
  let printed ← printAll env.left (env.depth + 2) cs
  some { c with
    term := Term.enter scr font len (outputWith env.program printed action) c.term
    textColor := textColorAfter c.textColor action
    entries := c.entries ++ [⟨action.map fun p => (string 1024 s.cmd.get p).bytes, env.sched, env.bitmap, printed⟩] }

/-- `keyboard_getchar`, and a pass of the loop of `term_run`. -/
def Console.read (env : Env) (c : Console) : Option Console :=
  let key := keyboardGetchar behind (c.queue.headD env.stale)
  let c := { c with queue := c.queue.tail, ready := false, isOutputServe := 0, keys := c.keys ++ [key] }
  if key = 0x0A then c.enter scr font env else some { c with term := termRunKey scr font key 0 [] c.term }

/-- A byte that the status port can give. -/
def Console.Status (c : Console) (status : UInt8) : Prop := status &&& ps2StatusOutbufbit = 1 ↔ c.queue ≠ []

inductive Event where
  | arrives (scancode : UInt8)
  | interrupt (status : UInt8)
  | poll (status : UInt8)
  | read (env : Env)
  | putc (b : UInt8)
  | other

inductive Step : Console → Event → Console → Prop
  | arrives {c : Console} {scancode : UInt8} :
      Step c (.arrives scancode) { c with queue := c.queue ++ [scancode], arrived := c.arrived ++ [scancode] }
  /-- `keyboard_handle` -/
  | interrupt {c : Console} {status : UInt8} : c.Status status →
      Step c (.interrupt status) { c with isOutputServe := status &&& ps2StatusOutbufbit }
  /-- the loop of `getchar` -/
  | poll {c : Console} {status : UInt8} : c.ready = false → c.Status status →
      Step c (.poll status) { c with ready := status &&& ps2StatusOutbufbit = 1 }
  | read {c c' : Console} {env : Env} : c.ready = true → c.read scr font behind env = some c' → Step c (.read env) c'
  | putc {c : Console} {b : UInt8} : Step c (.putc b) { c with term := termPutc scr font b c.term }
  | other {c : Console} {logs : Nat → UInt8} : (∀ i < 1024, logs i = c.term.logs i) →
      Step c .other { c with term := { c.term with logs := logs } }

variable {scr font behind}
variable {c c' : Console} {e : Event} {env : Env} {keys pre : List UInt8} {scancode : UInt8} {text : List UInt8}
  {s : Split} {walk more : Nat} {cs : List Call}

/-! ## Scancodes -/

/-- For a known scancode the memory behind the table does not matter. -/
theorem keyboardGetchar_eq (h : Known scancode) : keyboardGetchar behind scancode = keyOf scancode := by
  unfold keyOf keyboardGetchar
  by_cases hbit : scancode &&& 0x80 ≠ 0
  · rw [if_pos hbit, if_pos hbit]
  · have hindex : (scancode &&& 0x7F).toNat < scancodeSet1.length := by
      rcases h with h | h
      · have hand : (scancode &&& 0x7F).toNat ≤ scancode.toNat := by
          rw [UInt8.toNat_and]
          exact Nat.and_le_left
        exact Nat.lt_of_le_of_lt hand (UInt8.lt_iff_toNat_lt.mp h)
      · have hall : ∀ n : Fin 256, 128 ≤ n.val → n.val &&& 128 ≠ 0 := by decide +kernel
        refine absurd (fun h0 => ?_) hbit
        refine hall ⟨scancode.toNat, scancode.toNat_lt⟩ (UInt8.le_iff_toNat_le.mp h) ?_
        have hval := congrArg UInt8.toNat h0
        rw [UInt8.toNat_and] at hval
        exact hval
    simp only [if_neg hbit, if_pos hindex]

theorem keyOf_ne_percent (scancode : UInt8) : keyOf scancode ≠ percent := by
  have htable : percent ∉ scancodeSet1 := by decide
  unfold keyOf keyboardGetchar
  simp only
  split_ifs with hbit hindex
  · decide
  · have hget := List.getElem_eq_getD (h := hindex) 0
    rw [← hget]
    exact fun h => htable (h ▸ List.getElem_mem hindex)
  · decide

/-! ## What is typed -/

/-- A character is typed before the first newline, no line gets longer than 1023 characters, and none that is entered has
more than 63 spaces. -/
structure Typeable (keys : List UInt8) : Prop where
  first : none ∉ lines none keys
  short : ∀ pre, pre <+: keys → ∀ text, edits none pre = some text → text.length ≤ 1023
  words : ∀ text, some text ∈ lines none keys → text.count space ≤ 63

theorem Typeable.mono (h : Typeable keys) (hpre : pre <+: keys) : Typeable pre := by
  obtain ⟨more, rfl⟩ := hpre
  have hsub : ∀ l ∈ lines none pre, l ∈ lines none (pre ++ more) := fun l hl => by
    rw [lines_append]
    exact List.mem_append_left _ hl
  exact ⟨fun hmem => h.first (hsub _ hmem), fun q hq => h.short q (hq.trans (List.prefix_append pre more)),
    fun text htext => h.words text (hsub _ htext)⟩

/-- The loop on a line of the editor leaves its fields. -/
theorem splits_logs {logs : Nat → UInt8} {args : Nat → Nat} (h : Holds logs text) (hcount : text.count space ≤ 63) :
    Splits text (splitLoop (text.length + 1) ⟨⟨logs, []⟩, ⟨args, []⟩, 0, 0, 0⟩) := by
  have hholds : Holds (fun i => logs (0 + i)) ([] ++ text) := by
    simpa only [Nat.zero_add, List.nil_append] using h
  have hran := splitLoop_ran (s := ⟨⟨logs, []⟩, ⟨args, []⟩, 0, 0, 0⟩) rfl List.not_mem_nil hholds
  have hargc := hran.argc
  rw [List.nil_append, length_splitOn, Nat.zero_add] at hargc
  refine ⟨hran.fields, hargc, fun k hk => ?_⟩
  rcases (hran.stored k).mp hk with hk | ⟨-, hk⟩
  · cases hk
  · rw [maxArgs]
    omega

/-- `term_exec` does each action on the line of its words, of names without spaces and at most 1023 characters long,
whatever the buffer and `args` hold besides. -/
theorem termExec_words {a : Action (List UInt8)} {logs : Nat → UInt8} {args : Nat → Nat} (ha : a.Spoken)
    (hlogs : Holds logs ([space].intercalate a.words)) (hlen : ([space].intercalate a.words).length ≤ 1023)
    (hs : s = splitLoop (([space].intercalate a.words).length + 1) ⟨⟨logs, []⟩, ⟨args, []⟩, 0, 0, 0⟩) :
    (termExec s).map (Action.map fun p => (string 1024 s.cmd.get p).bytes) = some a := by
  obtain ⟨hne, hspace⟩ := space_notMem_words ha
  have hcount : ([space].intercalate a.words).count space ≤ 63 := by
    have hfields := length_splitOn ([space].intercalate a.words)
    rw [splitOn_words hne hspace] at hfields
    have hwords := length_words a
    omega
  rw [hs, termExec_eq (splits_logs hlogs hcount) hlen, command_words ha]

/-- `EXEC A`, on a buffer with other bytes behind it. -/
theorem termExec_words_exec :
    let s := splitLoop 7 ⟨⟨fun i => (ascii "EXEC A").getD i (if i = 6 then 0 else 0x41), []⟩, ⟨fun _ => 9, []⟩, 0, 0, 0⟩
    (termExec s).map (Action.map fun p => (string 1024 s.cmd.get p).bytes) = some (.exec (ascii "A")) := by
  have hspoken : Action.Spoken (.exec (ascii "A")) := show space ∉ ascii "A" by decide
  refine termExec_words hspoken (Print.holds_of_get (fun i hi => ?_) rfl (by decide)) (by decide) rfl
  exact (List.getElem_eq_getD (h := hi) _).symm

theorem taskPrintLoop_mono {mem : Nat → Task.TaskInfo} {crt index : Nat}
    (h : taskPrintLoop mem walk crt index = some cs) : taskPrintLoop mem (walk + more) crt index = some cs := by
  induction walk generalizing crt index cs with
  | zero => cases h
  | succ walk ih =>
      rw [Nat.add_right_comm]
      unfold taskPrintLoop at h ⊢
      split_ifs at h ⊢ with hcrt
      · obtain ⟨cs', hcs', rfl⟩ := Option.map_eq_some_iff.mp h
        rw [ih hcs']
        rfl
      · exact h

theorem calls_mono {sched : Sched} {bitmap : Nat → BitVec 8} {a : Action Text} (h : calls walk sched bitmap a = some cs) :
    calls (walk + more) sched bitmap a = some cs := by
  cases a with
  | ltask =>
      obtain ⟨cs', hcs', rfl⟩ := Option.map_eq_some_iff.mp h
      exact congrArg (Option.map _) (taskPrintLoop_mono hcs')
  | memsize kb => cases kb <;> exact h
  | help | clear | exec | execUsage | task | taskUsage | setTextColor | setTextColorUsage | unknown | nothing => exact h

theorem strsizeLoop_spec {buffer : Nat → UInt8} {rounds n len : Nat} (h : strsizeLoop buffer rounds n = some len) :
    buffer len = 0 ∧ ∀ i, n ≤ i → i < len → buffer i ≠ 0 := by
  induction rounds generalizing n with
  | zero => cases h
  | succ rounds ih =>
      rw [strsizeLoop] at h
      split_ifs at h with hn
      · obtain ⟨hzero, hbefore⟩ := ih h
        refine ⟨hzero, fun i hi hlen => ?_⟩
        rcases Nat.eq_or_lt_of_le hi with rfl | hlt
        · exact hn
        · exact hbefore i hlt hlen
      · cases h
        exact ⟨not_not.mp hn, fun i hi hlen => absurd hi (Nat.not_le.mpr hlen)⟩

theorem textColorAfter_map {σ τ : Type} (f : σ → τ) (color : Nat) (a : Action σ) :
    textColorAfter color (a.map f) = textColorAfter color a := by
  cases a <;> rfl

/-- The call of `term_exec` for a line that was typed: what it does, what it prints, and that it returns. -/
theorem enter_eq (hc : c.enter scr font env = some c') (hedit : Editing c.term (some text)) (hshort : text.length ≤ 1023)
    (hcount : text.count space ≤ 63) :
    ∃ (action : Action Nat) (a : Action Text) (printed : List UInt8), a.map Text.bytes = command text ∧
      (∃ cs, calls env.walk env.sched env.bitmap a = some cs ∧ printAll env.left (env.depth + 2) cs = some printed) ∧
      c' = { c with
        term := Term.enter scr font text.length (outputWith env.program printed action) c.term
        textColor := textColorAfter c.textColor a
        entries := c.entries ++ [⟨command text, env.sched, env.bitmap, printed⟩] } := by
  unfold Console.enter at hc
  simp only [Option.bind_eq_bind, Option.bind_eq_some_iff] at hc
  obtain ⟨len, hlen, action, haction, cs, hcs, printed, hprinted, hc⟩ := hc
  obtain ⟨hzero, hbefore⟩ := strsizeLoop_spec hlen
  obtain rfl : len = text.length := hedit.command hzero fun i hi => hbefore i (Nat.zero_le i) hi
  have hexec := termExec_eq (@splits_logs text c.term.logs env.args hedit.2 hcount) hshort
  rw [haction] at hexec
  refine ⟨action, _, printed, ?_, ⟨cs, hcs, hprinted⟩, ?_⟩
  · rw [Action.map_map]
    exact Option.some.inj hexec
  · rw [← Option.some.inj hc, textColorAfter_map, Option.some.inj hexec]

/-! ## The invariant -/

/-- The bytes of the colour that the last `SETTEXTCOLOR` set. -/
def colorOf (actions : List (Action (List UInt8))) : List UInt8 :=
  actions.foldl (fun color a => match a with
    | .setTextColor r g b => [r, g, b]
    | _ => color) [0xFF, 0xFF, 0xFF]

theorem color_snoc {color : Nat} {actions : List (Action (List UInt8))} (h : putPixelBytes color = colorOf actions)
    (a : Action Text) : putPixelBytes (textColorAfter color a) = colorOf (actions ++ [a.map Text.bytes]) := by
  rw [colorOf, List.foldl_concat]
  cases a with
  | setTextColor r g b => exact putPixelBytes_r8g8b8 r g b
  | help | ltask | clear | exec | execUsage | task | taskUsage | setTextColorUsage | memsize | unknown | nothing => exact h

/-- What was typed, and what came of it. -/
structure Inv (c : Console) : Prop where
  fifo : ∃ taken, c.arrived = taken ++ c.queue ∧ c.keys = taken.map keyOf
  ready : c.ready = true → c.queue ≠ []
  editing : Editing c.term (edits none c.keys)
  buffer : InBuffer c.term ∧ c.term.indexLogs ≤ 1023
  actions : c.entries.map Entry.action = (lines none c.keys).map fun line => command (line.getD [])
  printed : ∀ x ∈ c.entries, ∀ l, Chain x.sched.next x.sched.kernelTask l → x.sched.kernelTask ≠ 0 →
    x.printed = report x.sched l x.bitmap x.action
  color : putPixelBytes c.textColor = colorOf (c.entries.map Entry.action)

theorem percent_notMem_name {a : Action Text} (h : edits none (pre.map keyOf) = some text)
    (ha : a.map Text.bytes = command text) : ∀ name, a = .unknown name → percent ∉ name.bytes := by
  intro name hname hmem
  have hunknown : command text = .unknown name.bytes := by
    rw [← ha, hname]
    rfl
  have htext : percent ∈ text := (sublist_field (mem_of_command hunknown)).subset hmem
  obtain ⟨scancode, -, hkey⟩ := List.mem_map.mp (printable_of_edits h htext).1
  exact keyOf_ne_percent scancode hkey

theorem termRunKey_newline (len : Nat) (output : List UInt8) (term : Term.State) :
    termRunKey scr font 0x0A len output term = Term.enter scr font len output term := by
  rw [termRunKey, if_neg (by decide), if_neg (by decide), if_pos rfl]

theorem buffer_key {term : Term.State} {line : Option (List UInt8)} {key : UInt8} {len : Nat} {output : List UInt8}
    (hedit : Editing term line) (hbuffer : InBuffer term ∧ term.indexLogs ≤ 1023)
    (hroom : ∀ text, edit line key = some text → text.length ≤ 1023)
    (hlen : key = 0x0A → term.logs len = 0 ∧ ∀ i < len, term.logs i ≠ 0) (hnl : key = 0x0A → Terminated term) :
    InBuffer (termRunKey scr font key len output term) ∧ (termRunKey scr font key len output term).indexLogs ≤ 1023 := by
  have hfits : Fits term (.key key output) := ⟨fun hkey => ?_, hnl⟩
  · exact inBuffer_step hbuffer hfits (.key hlen)
  have htext := hroom (line.getD [] ++ [key]) (by rw [edit, if_neg hkey.ne.2.1, if_neg hkey.ne.2.2, if_pos hkey])
  rw [List.length_append, List.length_singleton] at htext
  rw [hedit.indexLogs]
  omega

theorem Inv.next (h : Inv c) (hready : c.ready = true) (hcodes : ∀ scancode ∈ c.arrived, Known scancode)
    (htype : Typeable (c.arrived.map keyOf)) :
    ∃ taken scancode queue, c.queue = scancode :: queue ∧ c.arrived = taken ++ [scancode] ++ queue ∧
      c.keys = taken.map keyOf ∧ Known scancode ∧ Typeable (c.keys ++ [keyOf scancode]) := by
  obtain ⟨taken, harrived, hkeys⟩ := h.fifo
  obtain ⟨scancode, queue, hqueue⟩ := List.exists_cons_of_ne_nil (h.ready hready)
  have hfifo : c.arrived = taken ++ [scancode] ++ queue := by
    rw [harrived, hqueue, List.append_assoc]
    rfl
  refine ⟨taken, scancode, queue, hqueue, hfifo, hkeys, hcodes scancode ?_, htype.mono ⟨queue.map keyOf, ?_⟩⟩
  · rw [hfifo]
    exact List.mem_append_left _ (List.mem_append_right _ List.mem_cons_self)
  · rw [hfifo, hkeys, List.map_append, List.map_append]
    rfl

/-- The line that a newline enters. -/
theorem Typeable.line {key : UInt8} (h : Typeable (keys ++ [key])) (hnl : key = 0x0A) :
    ∃ text, edits none keys = some text ∧ text.length ≤ 1023 ∧ text.count space ≤ 63 := by
  have hmem : edits none keys ∈ lines none (keys ++ [key]) := by
    rw [lines_snoc, if_pos hnl]
    exact List.mem_append_right _ List.mem_cons_self
  obtain ⟨text, htext⟩ : ∃ text, edits none keys = some text :=
    Option.ne_none_iff_exists'.mp fun hnone => h.first (by rwa [hnone] at hmem)
  exact ⟨text, htext, h.short keys (List.prefix_append _ _) text htext, h.words text (htext ▸ hmem)⟩

/-- `getchar` takes the next scancode, and `term_run` handles its key. -/
theorem Inv.read (h : Inv c) (hready : c.ready = true) (hcodes : ∀ scancode ∈ c.arrived, Known scancode)
    (htype : Typeable (c.arrived.map keyOf)) (hc : c.read scr font behind env = some c') : Inv c' := by
  obtain ⟨taken, scancode, queue, hqueue, hfifo, hkeys, hknown, htype'⟩ := h.next hready hcodes htype
  have htaken : c.keys ++ [keyOf scancode] = (taken ++ [scancode]).map keyOf := by
    rw [hkeys, List.map_append]
    rfl
  unfold Console.read at hc
  simp only [hqueue, List.headD_cons, List.tail_cons, keyboardGetchar_eq hknown] at hc
  by_cases hnl : keyOf scancode = 0x0A
  · rw [if_pos hnl] at hc
    have hline : lines none (c.keys ++ [keyOf scancode]) = lines none c.keys ++ [edits none c.keys] := by
      rw [lines_snoc, if_pos hnl]
    obtain ⟨text, htext, hshort, hcount⟩ := htype'.line hnl
    have hedit : Editing c.term (some text) := htext ▸ h.editing
    obtain ⟨action, a, printed, ha, ⟨cs, hcs, hprinted⟩, rfl⟩ := enter_eq hc hedit hshort hcount
    have hpercent := percent_notMem_name (hkeys ▸ htext) ha
    exact {
      fifo := ⟨taken ++ [scancode], hfifo, htaken⟩
      ready := nofun
      editing := by
        rw [edits_snoc, hnl]
        exact editing_enter _ _ _
      buffer := by
        have hholds := hedit.2
        have hbefore : ∀ i < text.length, c.term.logs i ≠ 0 := fun i hi h0 => by
          rw [hholds.get hi] at h0
          exact hholds.inside (h0 ▸ List.getElem_mem hi)
        have hempty : ∀ t, edit (some text) 0x0A = some t → t.length ≤ 1023 := fun t ht => by
          cases ht
          exact Nat.zero_le _
        have hkey := @buffer_key scr font c.term (some text) 0x0A text.length (outputWith env.program printed action) hedit
          h.buffer hempty (fun _ => ⟨hholds.nul, hbefore⟩) fun _ => ⟨text.length, Nat.lt_succ_of_le hshort, hholds.nul⟩
        rw [termRunKey_newline] at hkey
        exact hkey
      actions := by
        rw [hline, List.map_append, List.map_append, h.actions, htext]
        rfl
      printed := by
        intro x hx l hchain hkernel
        rcases List.mem_append.mp hx with hx | hx
        · exact h.printed x hx l hchain hkernel
        · rw [List.mem_singleton.mp hx] at hchain hkernel ⊢
          obtain ⟨cs', hcs', hout⟩ : ∃ cs', calls (env.walk + (l.length + 1)) env.sched env.bitmap a = some cs' ∧
              printAll env.left (env.depth + 2) cs' = some (report env.sched l env.bitmap (a.map Text.bytes)) :=
            printAll_calls hchain hkernel (by omega) hpercent
          rw [calls_mono hcs] at hcs'
          cases hcs'
          rw [hprinted, ha] at hout
          exact Option.some.inj hout
      color := by
        rw [List.map_append]
        show _ = colorOf (c.entries.map Entry.action ++ [command text])
        rw [← ha]
        exact color_snoc h.color a }
  · -- any other key
    rw [if_neg hnl] at hc
    rw [← Option.some.inj hc]
    have hline : lines none (c.keys ++ [keyOf scancode]) = lines none c.keys := by
      rw [lines_snoc, if_neg hnl, List.append_nil]
    have hroom : ∀ text, edit (edits none c.keys) (keyOf scancode) = some text → text.length ≤ 1023 := by
      intro text htext
      rw [← edits_snoc] at htext
      exact htype'.short _ List.prefix_rfl text htext
    exact {
      fifo := ⟨taken ++ [scancode], hfifo, htaken⟩
      ready := nofun
      editing := by
        rw [edits_snoc]
        exact h.editing.runKey hroom
      buffer := buffer_key h.editing h.buffer hroom (fun heq => absurd heq hnl) fun heq => absurd heq hnl
      actions := by rw [hline]; exact h.actions
      printed := h.printed
      color := h.color }

theorem arrived_read (hc : c.read scr font behind env = some c') : c'.arrived = c.arrived := by
  unfold Console.read Console.enter at hc
  simp only [Option.bind_eq_bind] at hc
  split_ifs at hc
  · simp only [Option.bind_eq_some_iff] at hc
    obtain ⟨_, _, _, _, _, _, _, _, hc⟩ := hc
    rw [← Option.some.inj hc]
  · rw [← Option.some.inj hc]

/-- Every event keeps it, as long as the user keeps to the keyboard. -/
theorem Inv.step (h : Inv c) (hs : Step scr font behind c e c') (hcodes : ∀ scancode ∈ c'.arrived, Known scancode)
    (htype : Typeable (c'.arrived.map keyOf)) : Inv c' := by
  cases hs with
  | arrives =>
      obtain ⟨taken, harrived, hkeys⟩ := h.fifo
      refine { h with
        fifo := ⟨taken, ?_, hkeys⟩
        ready := fun _ => List.append_ne_nil_of_right_ne_nil _ (List.cons_ne_nil _ _) }
      rw [harrived, List.append_assoc]
  | interrupt => exact ⟨h.fifo, h.ready, h.editing, h.buffer, h.actions, h.printed, h.color⟩
  | poll hready hstatus => exact { h with ready := fun hfull => hstatus.mp (of_decide_eq_true hfull) }
  | read hready hc =>
      rw [arrived_read hc] at hcodes htype
      exact h.read hready hcodes htype hc
  | @putc b =>
      have hline : SameLine c.term (termPutc scr font b c.term) := sameLine_termDrawChar b c.term
      refine { h with editing := h.editing.same hline, buffer := ?_ }
      unfold InBuffer
      rw [hline.writes, hline.indexLogs]
      exact h.buffer
  | @other logs hlogs =>
      have hindex := h.editing.indexLogs
      have hle := h.buffer.2
      exact { h with editing := h.editing.congr rfl fun i hi => hlogs i (by omega), buffer := h.buffer }

end HaOS.Shell
