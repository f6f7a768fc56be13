import HaOS.Cpu.Stubs

/-!
# System calls (`kernel/cpu/syscall.S`, `shared/sources/syscall.S`)

* `Wrapper`, `Wrapper.number`, `vector` : the functions that a program calls, in the kernel and in `libc.a`;
* `atInt`, `intSyscall`, `syscallReturn`, `ret` : the way from the call of a wrapper to its return;
* `Called` : what a C function keeps; `Returned` : what the caller of a wrapper may rely on;
* `syscall_called` : which wrappers get to `syscall_handle`, with what argument, and that they return as C functions do.
-/

namespace HaOS.Cpu

inductive Library where
  | kernel | libc
deriving DecidableEq

inductive Wrapper where
  | read | open | close | putPixel | putc | exit
deriving DecidableEq

def Wrapper.number : Wrapper → Word
  | .read => 0
  | .open => 2
  | .close => 3
  | .putPixel => 4
  | .putc => 5
  | .exit => 6

def vector : Library → Wrapper → Nat
  | .libc, .exit => 0x08
  | _, _ => 0x80

/-- The machine at the `int`, with the address of the `ret` behind it. -/
def atInt (m : Machine) (w : Wrapper) (next : Word) : Machine :=
  { m with ctx := { m.ctx with rax := w.number, rip := next } }

def movRax (m : Machine) (offset : Word) : Machine := { m with ctx := m.ctx.set (m.mem (m.ctx.rsp + offset)) .rax }

/-- `int_syscall` up to the call of `syscall_handle`; the word at 40 is `rcx`. -/
def intSyscall (m : Machine) : Machine :=
  movRax (exec ([.cli, .pushImm 0, .pushImm 0x80] ++ pushx64) (interrupt m)) 40

/-- From the `int` to the call of `syscall_handle` or `isr_handle`; an `int` instruction pushes no error code. -/
def handlerCall (v : Nat) (m : Machine) : Machine := if v = 0x80 then intSyscall m else stubCall v (interrupt m)

/-- `int_syscall` after the call. The general registers are not popped. -/
def syscallReturn (m : Machine) : Machine := exec [.addRsp 176, .sti, .iretq] m

def ret (m : Machine) : Machine :=
  { m with ctx := { m.ctx with rip := m.mem m.ctx.rsp, rsp := m.ctx.rsp + 8 } }

structure SameSaved (c d : Context) : Prop where
  rbx : d.rbx = c.rbx
  rbp : d.rbp = c.rbp
  r12 : d.r12 = c.r12
  r13 : d.r13 = c.r13
  r14 : d.r14 = c.r14
  r15 : d.r15 = c.r15

/-- `syscall_handle`, called on `m` for code interrupted at `c`, returns `value` on `after`. The argument on the stack is
its own, up to `rip`; what the processor has pushed behind it, and the word on the caller's stack, are not. -/
structure Called (c : Context) (m after : Machine) (value : Word) : Prop where
  rsp : after.ctx.rsp = m.ctx.rsp
  saved : SameSaved m.ctx after.ctx
  value : after.ctx.rax = value
  frame : ∀ i, 22 ≤ i → i < 27 →
    after.mem (m.ctx.rsp + BitVec.ofNat 64 (8 * i)) = m.mem (m.ctx.rsp + BitVec.ofNat 64 (8 * i))
  top : after.mem c.rsp = m.mem c.rsp

structure Returned (m after : Machine) (value : Word) : Prop where
  rip : after.ctx.rip = m.mem m.ctx.rsp
  rsp : after.ctx.rsp = m.ctx.rsp + 8
  value : after.ctx.rax = value
  saved : SameSaved m.ctx after.ctx
  rflags : after.ctx.rflags = m.ctx.rflags
  cs : after.ctx.cs = m.ctx.cs
  ss : after.ctx.ss = m.ctx.ss

variable {m after : Machine} {error code next value : Word} {w : Wrapper} {c d e : Context} {is : List Instr} {i : Instr}

/-! ## What a C function keeps -/

theorem SameSaved.refl (c : Context) : SameSaved c c := ⟨rfl, rfl, rfl, rfl, rfl, rfl⟩

theorem SameSaved.trans (h : SameSaved c d) (h' : SameSaved d e) : SameSaved c e :=
  ⟨h'.rbx.trans h.rbx, h'.rbp.trans h.rbp, h'.r12.trans h.r12, h'.r13.trans h.r13, h'.r14.trans h.r14, h'.r15.trans h.r15⟩

/-- The instructions with which a stub begins: they neither load a register of the caller's nor set `IF`. -/
def Instr.entering : Instr → Bool
  | .push _ | .pushImm _ | .movRaxCr _ | .movRdiRsp | .cli => true
  | _ => false

theorem entering_pushx64 : ∀ i ∈ pushx64, i.entering = true := by decide

theorem sameSaved_step (h : i.entering = true) (m : Machine) : SameSaved m.ctx (step m i).ctx := by
  cases i with
  | pop => cases h
  | _ => exact ⟨rfl, rfl, rfl, rfl, rfl, rfl⟩

theorem sameSaved_exec (h : ∀ i ∈ is, i.entering = true) (m : Machine) : SameSaved m.ctx (exec is m).ctx := by
  induction is generalizing m with
  | nil => exact .refl _
  | cons i is ih =>
      rw [exec_cons]
      exact (sameSaved_step (h i List.mem_cons_self) m).trans (ih (fun j hj => h j (List.mem_cons_of_mem _ hj)) _)

theorem sameSaved_pushes (ws : List Word) (m : Machine) : SameSaved m.ctx (m.pushes ws).ctx := by
  induction ws generalizing m with
  | nil => exact .refl _
  | cons w ws ih => exact (sameSaved_step (i := .pushImm w) rfl m).trans (ih (m.push w))

theorem sameSaved_interrupt (m : Machine) : SameSaved m.ctx (interrupt m).ctx := by
  unfold interrupt
  refine SameSaved.trans ?_ (sameSaved_pushes _ _)
  exact ⟨rfl, rfl, rfl, rfl, rfl, rfl⟩

/-! ## The call -/

theorem exec_concat (is : List Instr) (i : Instr) (m : Machine) : exec (is ++ [i]) m = step (exec is m) i := by
  rw [exec, List.foldl_append]
  rfl

theorem intSyscall_pushed (m : Machine) : (intSyscall m).mem = (pushed m 0 0x80).mem ∧
    (intSyscall m).ctx.rsp = (pushed m 0 0x80).ctx.rsp ∧ SameSaved m.ctx (intSyscall m).ctx := by
  unfold intSyscall pushed pushRegisters
  rw [exec_concat]
  have hsaved : SameSaved m.ctx (exec ([.cli, .pushImm 0, .pushImm 0x80] ++ pushx64) (interrupt m)).ctx := by
    refine (sameSaved_interrupt m).trans (sameSaved_exec (fun i hi => ?_) _)
    simp only [List.cons_append, List.nil_append, List.mem_cons] at hi
    obtain rfl | rfl | rfl | hi := hi
    · rfl
    · rfl
    · rfl
    · exact entering_pushx64 i hi
  generalize exec ([.cli, .pushImm 0, .pushImm 0x80] ++ pushx64) (interrupt m) = m₁ at hsaved ⊢
  exact ⟨rfl, rfl, hsaved.trans ⟨rfl, rfl, rfl, rfl, rfl, rfl⟩⟩

theorem cpuRegister_intSyscall (m : Machine) :
    cpuRegister (intSyscall m).mem (intSyscall m).ctx.rsp = interrupted m 0x80 0 := by
  obtain ⟨hmem, hrsp, -⟩ := intSyscall_pushed m
  rw [hmem, hrsp, rsp_pushed]
  exact cpuRegister_of_wordsAt wordsAt_pushed

theorem and_not_add (x y : Word) : (x &&& ~~~ y) + (x &&& y) = x := by
  rw [BitVec.add_eq_or_of_and_eq_zero]
  · ext i hi
    simp only [BitVec.getElem_or, BitVec.getElem_and, BitVec.getElem_not]
    cases x[i] <;> cases y[i] <;> rfl
  · ext i hi
    simp only [BitVec.getElem_and, BitVec.getElem_not, BitVec.getElem_zero]
    cases x[i] <;> cases y[i] <;> rfl

/-- The words of the frame lie below the caller's stack. -/
theorem top_intSyscall (m : Machine) : (intSyscall m).mem m.ctx.rsp = m.mem m.ctx.rsp := by
  obtain ⟨hmem, -, -⟩ := intSyscall_pushed m
  rw [hmem]
  refine mem_pushed_of_ne fun i hi => ?_
  have hlow : (m.ctx.rsp &&& 15).toNat < 16 := by
    rw [BitVec.toNat_and]
    exact Nat.lt_of_le_of_lt Nat.and_le_right (by decide)
  have hsum := and_not_add m.ctx.rsp 15
  unfold frameAddress
  generalize m.ctx.rsp &&& ~~~ 15 = aligned at hsum ⊢
  rw [← hsum]
  generalize m.ctx.rsp &&& 15 = low at hlow ⊢
  bv_omega

/-! ## The return -/

/-- `int_syscall` returns to the interrupted code, and keeps the other registers as the C function leaves them. -/
theorem ctx_syscallReturn (m : Machine) : (syscallReturn m).ctx =
    { m.ctx with
      rip := m.mem (m.ctx.rsp + 176)
      cs := (m.mem (m.ctx.rsp + 184)).setWidth 16
      rflags := m.mem (m.ctx.rsp + 192)
      rsp := m.mem (m.ctx.rsp + 200)
      ss := (m.mem (m.ctx.rsp + 208)).setWidth 16 } := by
  obtain ⟨⟨⟩, cr, mem⟩ := m
  simp only [syscallReturn, exec, List.foldl, step, Context.set, BitVec.add_assoc, BitVec.reduceAdd]
  rfl

/-- The way back from `syscall_handle`, and the `ret` of the wrapper. -/
theorem returned_of_called (h : Called (atInt m w next).ctx (intSyscall (atInt m w next)) after value) :
    Returned m (ret (syscallReturn after)) value := by
  have hsp : (intSyscall (atInt m w next)).ctx.rsp = frameAddress m.ctx := by
    obtain ⟨-, hrsp, -⟩ := intSyscall_pushed (atInt m w next)
    rw [hrsp, rsp_pushed]
    rfl
  have hword : ∀ i (hlo : 22 ≤ i) (hi : i < (frameWords (interrupted (atInt m w next) 0x80 0)).length),
      after.mem (after.ctx.rsp + BitVec.ofNat 64 (8 * i)) = (frameWords (interrupted (atInt m w next) 0x80 0))[i] := by
    intro i hlo hi
    have hframe := h.frame i hlo hi
    rw [hsp] at hframe
    rw [h.rsp, hsp, hframe, (intSyscall_pushed (atInt m w next)).1]
    exact wordsAt_pushed i hi
  have htop : after.mem m.ctx.rsp = m.mem m.ctx.rsp := h.top.trans (top_intSyscall (atInt m w next))
  have hsaved : SameSaved m.ctx after.ctx := by
    have hcall := (intSyscall_pushed (atInt m w next)).2.2
    exact (SameSaved.mk rfl rfl rfl rfl rfl rfl : SameSaved m.ctx (atInt m w next).ctx).trans (hcall.trans h.saved)
  have hrsp : (syscallReturn after).ctx.rsp = m.ctx.rsp := by
    rw [ctx_syscallReturn]
    exact hword 25 (by decide) (show 25 < 27 by decide)
  exact {
    rip := by
      change (syscallReturn after).mem (syscallReturn after).ctx.rsp = _
      rw [hrsp]
      exact htop
    rsp := congrArg (· + 8) hrsp
    value := by
      change (syscallReturn after).ctx.rax = _
      rw [ctx_syscallReturn]
      exact h.value
    saved := by
      refine hsaved.trans ?_
      change SameSaved after.ctx { (syscallReturn after).ctx with rip := _, rsp := _ }
      rw [ctx_syscallReturn]
      exact ⟨rfl, rfl, rfl, rfl, rfl, rfl⟩
    rflags := by
      change (syscallReturn after).ctx.rflags = _
      rw [ctx_syscallReturn]
      exact hword 24 (by decide) (show 24 < 27 by decide)
    cs := by
      change (syscallReturn after).ctx.cs = _
      rw [ctx_syscallReturn]
      exact (congrArg (BitVec.setWidth 16) (hword 23 (by decide) (show 23 < 27 by decide))).trans
        (by simp [frameWords, interrupted, atInt])
    ss := by
      change (syscallReturn after).ctx.ss = _
      rw [ctx_syscallReturn]
      exact (congrArg (BitVec.setWidth 16) (hword 26 (by decide) (show 26 < 27 by decide))).trans
        (by simp [frameWords, interrupted, atInt]) }

/-! ## Vector 8 -/

/-- `isr_8` counts on an error code: the handler gets the address behind the `int` for it. -/
theorem cpuRegister_stubCall_exit (m : Machine) :
    (cpuRegister (stubCall 8 (interrupt m)).mem (stubCall 8 (interrupt m)).ctx.rsp).interruptCode = 8 ∧
      (cpuRegister (stubCall 8 (interrupt m)).mem (stubCall 8 (interrupt m)).ctx.rsp).errorCode = m.ctx.rip := by
  have hcall : ∃ m₁, stubCall 8 (interrupt m) = pushRegisters m₁ m.ctx.rip 8 := by
    obtain ⟨m₁, hm₁⟩ : ∃ m₁ : Machine, interrupt m = m₁.push m.ctx.rip := ⟨_, rfl⟩
    have hstub : stub 8 = isrError 8 := rfl
    refine ⟨m₁, ?_⟩
    rw [hm₁, stubCall, hstub, isrError, pushRegisters]
    simp only [List.append_assoc, List.cons_append, exec_cons, step_pushImm, step_cli_push, BitVec.ofNat_eq_ofNat]
  obtain ⟨m₁, hcall⟩ := hcall
  rw [hcall]
  obtain ⟨hcode, herror, -⟩ := cpuRegister_pushRegisters m₁ m.ctx.rip 8
  exact ⟨hcode, herror⟩

/-! ## The interrupts -/

def Masked (m : Machine) : Prop := m.ctx.rflags &&& interruptFlag = 0

theorem masked_pushes (ws : List Word) (h : Masked m) : Masked (m.pushes ws) := by
  induction ws generalizing m with
  | nil => exact h
  | cons w ws ih => exact ih (m := m.push w) h

/-- The gate clears `IF`, -/
theorem masked_interrupt (m : Machine) : Masked (interrupt m) := by
  unfold interrupt
  refine masked_pushes _ ?_
  show m.ctx.rflags &&& ~~~ gateFlags &&& interruptFlag = 0
  rw [BitVec.and_assoc, show ~~~ gateFlags &&& interruptFlag = 0#64 from by decide]
  exact BitVec.and_zero

/-- and it stays clear. -/
theorem masked_step (h : Masked m) (hi : i.entering = true) : Masked (step m i) := by
  cases i with
  | cli =>
      show m.ctx.rflags &&& ~~~ interruptFlag &&& interruptFlag = 0
      rw [BitVec.and_assoc, show ~~~ interruptFlag &&& interruptFlag = 0#64 from by decide]
      exact BitVec.and_zero
  | push => exact h
  | pushImm => exact h
  | movRaxCr => exact h
  | movRdiRsp => exact h
  | _ => cases hi

theorem masked_exec (his : ∀ i ∈ is, i.entering = true) (h : Masked m) : Masked (exec is m) := by
  induction is generalizing m with
  | nil => exact h
  | cons i is ih =>
      rw [exec_cons]
      exact ih (fun j hj => his j (List.mem_cons_of_mem _ hj)) (masked_step h (his i List.mem_cons_self))

theorem masked_movRax (h : Masked m) (offset : Word) : Masked (movRax m offset) := h

theorem masked_handlerCall (lib : Library) (w : Wrapper) (m : Machine) : Masked (handlerCall (vector lib w) m) := by
  have hv : vector lib w = 0x80 ∨ vector lib w = 8 := by
    cases lib <;> cases w <;> decide
  unfold handlerCall
  obtain hv | hv := hv
  · rw [hv, if_pos rfl, intSyscall]
    exact masked_movRax (masked_exec (by decide) (masked_interrupt m)) 40
  · rw [hv, if_neg (by decide), stubCall]
    exact masked_exec (by decide) (masked_interrupt m)

/-- For each wrapper of the kernel and of `libc.a`, in ring 0, and any registers, stack and memory: the call gets to
`syscall_handle` with the number in `rax`, the caller's arguments in `rdi`, `rsi`, `rdx`, and the rest of the caller's
registers, except for the `exit` of `libc.a`, for which `isr_handle` is called with the double fault and the address behind
the `int` as its error code; the interrupts are off either way. Where `syscall_handle` is called and returns as C functions
do, the wrapper returns its value and keeps the flags, the segments, the stack and the registers that C functions keep. -/
theorem syscall_called (lib : Library) (w : Wrapper) (m : Machine) (next : Word) :
    Masked (handlerCall (vector lib w) (atInt m w next)) ∧
    (cpuRegister (handlerCall (vector lib w) (atInt m w next)).mem (handlerCall (vector lib w) (atInt m w next)).ctx.rsp =
        interrupted (atInt m w next) 0x80 0 ↔ ¬ (lib = .libc ∧ w = .exit)) ∧
      (lib = .libc ∧ w = .exit →
        (cpuRegister (handlerCall (vector lib w) (atInt m w next)).mem
          (handlerCall (vector lib w) (atInt m w next)).ctx.rsp).interruptCode = 8 ∧
        (cpuRegister (handlerCall (vector lib w) (atInt m w next)).mem
          (handlerCall (vector lib w) (atInt m w next)).ctx.rsp).errorCode = next) ∧
      (¬ (lib = .libc ∧ w = .exit) → ∀ after value,
        Called (atInt m w next).ctx (handlerCall (vector lib w) (atInt m w next)) after value →
        Returned m (ret (syscallReturn after)) value) := by
  refine ⟨masked_handlerCall lib w _, ?_⟩
  by_cases hexit : lib = .libc ∧ w = .exit
  · obtain ⟨rfl, rfl⟩ := hexit
    obtain ⟨hcode, herror⟩ := cpuRegister_stubCall_exit (atInt m .exit next)
    have hcall : handlerCall (vector .libc .exit) (atInt m .exit next) = stubCall 8 (interrupt (atInt m .exit next)) :=
      if_neg (by decide)
    rw [hcall]
    refine ⟨iff_of_false (fun heq => ?_) (not_not.mpr ⟨rfl, rfl⟩), fun _ => ⟨hcode, herror⟩, fun h => (h ⟨rfl, rfl⟩).elim⟩
    rw [heq] at hcode
    exact absurd hcode (by simp [interrupted])
  · have hvector : vector lib w = 0x80 := by
      cases lib <;> cases w <;> first | rfl | exact absurd ⟨rfl, rfl⟩ hexit
    rw [hvector, handlerCall, if_pos rfl]
    exact ⟨iff_of_true (cpuRegister_intSyscall _) hexit, fun h => absurd h hexit, fun _ after value => returned_of_called⟩

/-- The kernel's `open` on the machine of zeros, with a handler that does nothing. -/
theorem syscall_called_open : Returned resetMachine
    (ret (syscallReturn (handlerCall (vector .kernel .open) (atInt resetMachine .open 0x107000))))
    (handlerCall (vector .kernel .open) (atInt resetMachine .open 0x107000)).ctx.rax :=
  (syscall_called .kernel .open resetMachine 0x107000).2.2.2 (by decide) _ _
    ⟨rfl, SameSaved.refl _, rfl, fun _ _ _ => rfl, top_intSyscall _⟩

end HaOS.Cpu
