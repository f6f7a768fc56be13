import HaOS.Lib.Stack

/-!
# The processor of the interrupt stubs (`kernel/cpu/idt.asm`, `kernel/process/task.S`)

Registers are bit vectors and the memory is read word by word. Straight-line code is a list of instructions; the
instruction pointer inside the stubs is left out, since `iretq` loads it.

* `Context` : what a task sees of the processor; `Machine` : with the control registers and the memory;
* `Instr`, `exec` : the instructions the stubs are made of;
* `interrupt` : the delivery of an interrupt through a gate, without a change of the privilege level;
* `pushx64`, `popx64`, `switchPops` : the three register sequences; `irqEntry`, `irqReturn`, `switchReturn` : the paths.
-/

namespace HaOS.Cpu

abbrev Word := BitVec 64

inductive Reg where
  | rax | rbx | rcx | rdx | rsp | rbp | rsi | rdi | r8 | r9 | r10 | r11 | r12 | r13 | r14 | r15
deriving DecidableEq, Repr

@[ext] structure Context where
  rax : Word
  rbx : Word
  rcx : Word
  rdx : Word
  rsp : Word
  rbp : Word
  rsi : Word
  rdi : Word
  r8 : Word
  r9 : Word
  r10 : Word
  r11 : Word
  r12 : Word
  r13 : Word
  r14 : Word
  r15 : Word
  rip : Word
  rflags : Word
  cs : BitVec 16
  ss : BitVec 16
deriving DecidableEq, Repr

def Context.get (c : Context) : Reg → Word
  | .rax => c.rax | .rbx => c.rbx | .rcx => c.rcx | .rdx => c.rdx
  | .rsp => c.rsp | .rbp => c.rbp | .rsi => c.rsi | .rdi => c.rdi
  | .r8 => c.r8 | .r9 => c.r9 | .r10 => c.r10 | .r11 => c.r11
  | .r12 => c.r12 | .r13 => c.r13 | .r14 => c.r14 | .r15 => c.r15

def Context.set (c : Context) (w : Word) : Reg → Context
  | .rax => { c with rax := w } | .rbx => { c with rbx := w } | .rcx => { c with rcx := w } | .rdx => { c with rdx := w }
  | .rsp => { c with rsp := w } | .rbp => { c with rbp := w } | .rsi => { c with rsi := w } | .rdi => { c with rdi := w }
  | .r8 => { c with r8 := w } | .r9 => { c with r9 := w } | .r10 => { c with r10 := w } | .r11 => { c with r11 := w }
  | .r12 => { c with r12 := w } | .r13 => { c with r13 := w } | .r14 => { c with r14 := w } | .r15 => { c with r15 := w }

inductive Cr where
  | cr0 | cr2 | cr3 | cr4

structure Machine where
  ctx : Context
  cr : Cr → Word
  mem : Word → Word

inductive Instr where
  | push (r : Reg)
  | pushImm (w : Word)
  | pop (r : Reg)
  | addRsp (w : Word)
  | movRaxCr (r : Cr)
  | movRdiRsp
  | cli
  | sti
  | iretq

def Machine.push (m : Machine) (w : Word) : Machine :=
  { m with ctx := m.ctx.set (m.ctx.rsp - 8) .rsp, mem := Function.update m.mem (m.ctx.rsp - 8) w }

def Machine.pushes (m : Machine) (ws : List Word) : Machine := ws.foldl Machine.push m

def interruptFlag : Word := 0x200

def step (m : Machine) : Instr → Machine
  | .push r => m.push (m.ctx.get r)
  | .pushImm w => m.push w
  -- the stack pointer moves first, so that `pop rsp` leaves the word popped
  | .pop r => { m with ctx := (m.ctx.set (m.ctx.rsp + 8) .rsp).set (m.mem m.ctx.rsp) r }
  | .addRsp w => { m with ctx := m.ctx.set (m.ctx.rsp + w) .rsp }
  | .movRaxCr r => { m with ctx := m.ctx.set (m.cr r) .rax }
  | .movRdiRsp => { m with ctx := m.ctx.set m.ctx.rsp .rdi }
  | .cli => { m with ctx := { m.ctx with rflags := m.ctx.rflags &&& ~~~ interruptFlag } }
  | .sti => { m with ctx := { m.ctx with rflags := m.ctx.rflags ||| interruptFlag } }
  | .iretq =>
    { m with ctx := { m.ctx with
        rip := m.mem m.ctx.rsp
        cs := (m.mem (m.ctx.rsp + 8)).setWidth 16
        rflags := m.mem (m.ctx.rsp + 16)
        rsp := m.mem (m.ctx.rsp + 24)
        ss := (m.mem (m.ctx.rsp + 32)).setWidth 16 } }

def exec (code : List Instr) (m : Machine) : Machine := code.foldl step m

/-- The flags an interrupt gate clears: `TF`, `IF`, `NT` and `RF`. -/
def gateFlags : Word := 0x14300

/-- The delivery of an interrupt: the stack is aligned to 16 bytes and takes `ss`, `rsp`, `rflags`, `cs` and `rip`. -/
def interrupt (m : Machine) : Machine :=
  let aligned := { m with ctx := { m.ctx with rsp := m.ctx.rsp &&& ~~~ 15, rflags := m.ctx.rflags &&& ~~~ gateFlags } }
  aligned.pushes [m.ctx.ss.setWidth 64, m.ctx.rsp, m.ctx.rflags, m.ctx.cs.setWidth 64, m.ctx.rip]

def pushx64 : List Instr :=
  [.push .r15, .push .r14, .push .r13, .push .r12, .push .r11, .push .r10, .push .r9, .push .r8,
    .push .rsi, .push .rdi, .push .rbp, .push .rsp, .push .rbx, .push .rdx, .push .rcx, .push .rax,
    .movRaxCr .cr0, .push .rax, .movRaxCr .cr2, .push .rax, .movRaxCr .cr3, .push .rax, .movRaxCr .cr4, .push .rax]

def popx64 : List Instr :=
  [.addRsp 0x20#64, .pop .rax, .pop .rcx, .pop .rdx, .pop .rbx, .pop .rsp, .pop .rbp, .pop .rdi, .pop .rsi,
    .pop .r8, .pop .r9, .pop .r10, .pop .r11, .pop .r12, .pop .r13, .pop .r14, .pop .r15]

/-- The end of `switch_task` and of `switch_next_task_imme`, from `rsp` loaded on. -/
def switchPops : List Instr :=
  [.addRsp 0x20#64, .pop .rax, .pop .rcx, .pop .rdx, .pop .rbx, .addRsp 8#64, .pop .rbp, .pop .rdi, .pop .rsi,
    .pop .r8, .pop .r9, .pop .r10, .pop .r11, .pop .r12, .pop .r13, .pop .r14, .pop .r15, .addRsp 0x10#64, .iretq]

/-- From the interrupt of the timer to the call of `irq_handle`: `irq_0` and the first half of `irq_stub`. -/
def irqEntry (m : Machine) : Machine :=
  exec ([.cli, .pushImm 0, .pushImm 32] ++ pushx64 ++ [.movRdiRsp]) (interrupt m)

/-- The second half of `irq_stub`, after `irq_handle` has returned. -/
def irqReturn (m : Machine) : Machine := exec (popx64 ++ [.addRsp 16#64, .sti, .iretq]) m

/-- `switch_task` from where it has loaded `rsp` with a task's saved stack pointer. -/
def switchReturn (m : Machine) (stack : Word) : Machine :=
  exec switchPops { m with ctx := m.ctx.set stack .rsp }

/-! ## The frame -/

/-- The words of an interrupt's frame at `sp`, from `sp` upwards, in the order of `cpu_register_t`. -/
def frame (cr : Cr → Word) (sp : Word) (c : Context) : List Word :=
  [cr .cr4, cr .cr3, cr .cr2, cr .cr0, c.rax, c.rcx, c.rdx, c.rbx, sp + 72#64, c.rbp, c.rdi, c.rsi,
    c.r8, c.r9, c.r10, c.r11, c.r12, c.r13, c.r14, c.r15, 32, 0,
    c.rip, c.cs.setWidth 64, c.rflags, c.rsp, c.ss.setWidth 64]

/-- The frame of an interrupt that hit the context `c` lies at `sp`. -/
def Saved (mem : Word → Word) (sp : Word) (c : Context) : Prop := ∃ cr, Lib.WordsAt mem sp (frame cr sp c)

def frameAddress (c : Context) : Word := (c.rsp &&& ~~~ 15) - 216

variable {m : Machine} {c : Context} {sp : Word} {mem : Word → Word}

theorem rsp_irqEntry : (irqEntry m).ctx.rsp = frameAddress m.ctx := by
  obtain ⟨⟨⟩, cr, mem⟩ := m
  simp only [irqEntry, exec, pushx64, interrupt, Machine.pushes, Machine.push, step, Context.set, Context.get,
    List.foldl, List.cons_append, List.nil_append, frameAddress, BitVec.sub_eq_add_neg, BitVec.add_assoc,
    BitVec.reduceNeg, BitVec.reduceAdd]

theorem mem_irqEntry : (irqEntry m).mem =
    Lib.pushWords m.mem (m.ctx.rsp &&& ~~~ 15) (frame m.cr (frameAddress m.ctx) m.ctx).reverse := by
  have hslot : frameAddress m.ctx + 72#64 = (m.ctx.rsp &&& ~~~ 15) - 8 - 8 - 8 - 8 - 8 - 8 - 8 - 8 - 8 - 8 - 8 - 8 - 8 -
      8 - 8 - 8 - 8 - 8 := by
    simp only [frameAddress, BitVec.sub_eq_add_neg, BitVec.add_assoc, BitVec.reduceNeg, BitVec.reduceAdd]
  rw [frame, hslot]
  obtain ⟨⟨⟩, cr, mem⟩ := m
  simp only [irqEntry, exec, pushx64, interrupt, Machine.pushes, Machine.push, step, Context.set, Context.get,
    List.foldl, List.cons_append, List.nil_append, List.reverse_cons, List.reverse_nil, Lib.pushWords]

/-- `switch_task` restores what the frame holds. -/
theorem switchReturn_ctx (h : Saved m.mem sp c) : (switchReturn m sp).ctx = c := by
  obtain ⟨⟨⟩, cr', mem⟩ := m
  obtain ⟨cr, h⟩ := h
  simp only [frame, Lib.wordsAt_cons, BitVec.add_assoc, BitVec.reduceAdd] at h
  obtain ⟨-, -, -, -, hax, hcx, hdx, hbx, -, hbp, hdi, hsi, h8, h9, h10, h11, h12, h13, h14, h15, -, -,
    hip, hcs, hflags, hsp, hss, -⟩ := h
  simp only [switchReturn, exec, switchPops, List.foldl, step, Context.set, BitVec.add_assoc, BitVec.reduceAdd, hax, hcx,
    hdx, hbx, hbp, hdi, hsi, h8, h9, h10, h11, h12, h13, h14, h15, hip, hcs, hflags, hsp, hss]
  simp

/-- So does the second half of `irq_stub`. -/
theorem irqReturn_ctx (h : Saved m.mem m.ctx.rsp c) : (irqReturn m).ctx = c := by
  obtain ⟨⟨⟩, cr', mem⟩ := m
  obtain ⟨cr, h⟩ := h
  simp only [frame, Lib.wordsAt_cons, BitVec.add_assoc, BitVec.reduceAdd] at h
  obtain ⟨-, -, -, -, hax, hcx, hdx, hbx, hslot, hbp, hdi, hsi, h8, h9, h10, h11, h12, h13, h14, h15, -, -,
    hip, hcs, hflags, hsp, hss, -⟩ := h
  simp only [irqReturn, exec, popx64, List.foldl, List.cons_append, List.nil_append, step, Context.set, BitVec.add_assoc,
    BitVec.reduceAdd, hax, hcx, hdx, hbx, hslot, hbp, hdi, hsi, h8, h9, h10, h11, h12, h13, h14, h15, hip, hcs, hflags,
    hsp, hss]
  simp

/-- The frame lies at its address when the handler is called. -/
theorem saved_irqEntry (m : Machine) : Saved (irqEntry m).mem (frameAddress m.ctx) m.ctx := by
  refine ⟨m.cr, ?_⟩
  rw [mem_irqEntry]
  have hlen : (frame m.cr (frameAddress m.ctx) m.ctx).reverse.length < 2 ^ 60 := by simp [frame]
  have h := Lib.wordsAt_pushWords m.mem (m.ctx.rsp &&& ~~~ 15) hlen
  rw [List.reverse_reverse] at h
  exact h

theorem mem_irqEntry_of_ne (m : Machine) {x : Word} (hx : ∀ i < 27, x ≠ frameAddress m.ctx + BitVec.ofNat 64 (8 * i)) :
    (irqEntry m).mem x = m.mem x := by
  rw [mem_irqEntry]
  refine Lib.pushWords_of_ne fun i hi => ?_
  have hlen : i < 27 := by simpa [frame] using hi
  have := hx (26 - i) (by omega)
  unfold frameAddress at this
  intro heq
  refine this (heq.trans ?_)
  bv_omega

theorem Saved.congr {mem' : Word → Word} (h : Saved mem sp c)
    (hm : ∀ i < 27, mem' (sp + BitVec.ofNat 64 (8 * i)) = mem (sp + BitVec.ofNat 64 (8 * i))) : Saved mem' sp c := by
  obtain ⟨cr, h⟩ := h
  exact ⟨cr, h.congr fun i hi => hm i (by simpa [frame] using hi)⟩

end HaOS.Cpu
