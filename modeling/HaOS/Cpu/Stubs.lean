import HaOS.Cpu.Machine

/-!
# The interrupt stubs (`kernel/cpu/idt.asm`, `kernel/cpu/cpu.h`)

* `deliver` : an interrupt or exception, for which the processor pushes an error code or not;
* `isrError`, `isrNoError`, `irq`, `stub` : what each of the 48 entries of `interrupt_x86` pushes; `stubCall` : up to the
  call of `isr_handle` or `irq_handle`;
* `CpuRegister`, `cpuRegister` : the argument of the handler; `interrupted` : what it should be;
* `mem_stubCall`, `cpuRegister_stubCall` : the words on the stack, and the argument, when the stub fits the processor;
* `stub_frame_iff` : the vectors for which the handler sees the interrupted context, and the return from an IRQ.
-/

namespace HaOS.Cpu
open Lib (pushWords WordsAt)

def errorCodeVectors : List Nat := [8, 10, 11, 12, 13, 14, 17, 21, 29, 30]

/-- The delivery of the vector `v`; `error` is pushed last. -/
def deliver (m : Machine) (v : Nat) (error : Word) : Machine :=
  if v ∈ errorCodeVectors then (interrupt m).push error else interrupt m

def isrError (v : Nat) : List Instr := [.cli, .pushImm (BitVec.ofNat 64 v)]

def isrNoError (v : Nat) : List Instr := [.cli, .pushImm 0, .pushImm (BitVec.ofNat 64 v)]

def irq (line v : Nat) : List Instr := [.cli, .pushImm (BitVec.ofNat 64 line), .pushImm (BitVec.ofNat 64 v)]

/-- The code at `interrupt_x86[ v ]`, up to the jump. -/
def stub (v : Nat) : List Instr :=
  if v < 32 then
    if v ∈ [8, 10, 11, 12, 13, 14] then isrError v else isrNoError v
  else irq (v - 32) v

/-- From the first instruction to `call isr_handle` or `call irq_handle`: `isr_stub`, `isr_stub_halt` and `irq_stub` begin
alike. -/
def stubCall (v : Nat) (m : Machine) : Machine := exec (stub v ++ pushx64 ++ [.movRdiRsp]) m

@[ext] structure CpuRegister where
  cr4 : Word
  cr3 : Word
  cr2 : Word
  cr0 : Word
  rax : Word
  rcx : Word
  rdx : Word
  rbx : Word
  rsp : Word
  rbp : Word
  rdi : Word
  rsi : Word
  r8 : Word
  r9 : Word
  r10 : Word
  r11 : Word
  r12 : Word
  r13 : Word
  r14 : Word
  r15 : Word
  interruptCode : Word
  errorCode : Word
  rip : Word
  cs : BitVec 16
  rflags : Word
  rsp0 : Word
  ss : BitVec 16
deriving DecidableEq, Repr

/-- The `cpu_register_t` at an address. It is passed by value, on the stack, where the stub has pushed it. -/
def cpuRegister (mem : Word → Word) (a : Word) : CpuRegister where
  cr4 := mem a
  cr3 := mem (a + 0x08)
  cr2 := mem (a + 0x10)
  cr0 := mem (a + 0x18)
  rax := mem (a + 0x20)
  rcx := mem (a + 0x28)
  rdx := mem (a + 0x30)
  rbx := mem (a + 0x38)
  rsp := mem (a + 0x40)
  rbp := mem (a + 0x48)
  rdi := mem (a + 0x50)
  rsi := mem (a + 0x58)
  r8 := mem (a + 0x60)
  r9 := mem (a + 0x68)
  r10 := mem (a + 0x70)
  r11 := mem (a + 0x78)
  r12 := mem (a + 0x80)
  r13 := mem (a + 0x88)
  r14 := mem (a + 0x90)
  r15 := mem (a + 0x98)
  interruptCode := mem (a + 0xA0)
  errorCode := mem (a + 0xA8)
  rip := mem (a + 0xB0)
  cs := (mem (a + 0xB8)).setWidth 16
  rflags := mem (a + 0xC0)
  rsp0 := mem (a + 0xC8)
  ss := (mem (a + 0xD0)).setWidth 16

/-- What the handler should see of the interrupted machine. `rsp` is the stub's own: the interrupted one is `rsp0`. -/
def interrupted (m : Machine) (code error : Word) : CpuRegister where
  cr4 := m.cr .cr4
  cr3 := m.cr .cr3
  cr2 := m.cr .cr2
  cr0 := m.cr .cr0
  rax := m.ctx.rax
  rcx := m.ctx.rcx
  rdx := m.ctx.rdx
  rbx := m.ctx.rbx
  rsp := frameAddress m.ctx + 0x48
  rbp := m.ctx.rbp
  rdi := m.ctx.rdi
  rsi := m.ctx.rsi
  r8 := m.ctx.r8
  r9 := m.ctx.r9
  r10 := m.ctx.r10
  r11 := m.ctx.r11
  r12 := m.ctx.r12
  r13 := m.ctx.r13
  r14 := m.ctx.r14
  r15 := m.ctx.r15
  interruptCode := code
  errorCode := error
  rip := m.ctx.rip
  cs := m.ctx.cs
  rflags := m.ctx.rflags
  rsp0 := m.ctx.rsp
  ss := m.ctx.ss

/-- The error code the handler should see: the processor's, 0 for an exception without one, the line for an IRQ. -/
def errorCodeOf (v : Nat) (error : Word) : Word :=
  if v ∈ errorCodeVectors then error else if v < 32 then 0 else BitVec.ofNat 64 (v - 32)

def frameWords (r : CpuRegister) : List Word :=
  [r.cr4, r.cr3, r.cr2, r.cr0, r.rax, r.rcx, r.rdx, r.rbx, r.rsp, r.rbp, r.rdi, r.rsi,
    r.r8, r.r9, r.r10, r.r11, r.r12, r.r13, r.r14, r.r15, r.interruptCode, r.errorCode,
    r.rip, r.cs.setWidth 64, r.rflags, r.rsp0, r.ss.setWidth 64]

variable {m after : Machine} {mem : Word → Word} {sp w : Word} {r : CpuRegister} {v : Nat} {code error : Word}

theorem cpuRegister_of_wordsAt (h : WordsAt mem sp (frameWords r)) : cpuRegister mem sp = r := by
  simp only [frameWords, Lib.wordsAt_cons, BitVec.add_assoc, BitVec.reduceAdd] at h
  obtain ⟨h4, h3, h2, h0, hax, hcx, hdx, hbx, hsp, hbp, hdi, hsi, h8, h9, h10, h11, h12, h13, h14, h15, hcode, herror,
    hip, hcs, hflags, hsp0, hss, -⟩ := h
  apply CpuRegister.ext <;> simp [cpuRegister, *]

def pushRegisters (m : Machine) (error code : Word) : Machine :=
  exec ([.cli, .pushImm error, .pushImm code] ++ pushx64 ++ [.movRdiRsp]) m

def pushed (m : Machine) (error code : Word) : Machine := pushRegisters (interrupt m) error code

theorem rsp_pushed : (pushed m error code).ctx.rsp = frameAddress m.ctx := by
  obtain ⟨⟨⟩, cr, mem⟩ := m
  simp only [pushed, pushRegisters, exec, pushx64, interrupt, Machine.pushes, Machine.push, step, Context.set, Context.get,
    List.foldl, List.cons_append, List.nil_append, frameAddress, BitVec.sub_eq_add_neg, BitVec.add_assoc,
    BitVec.reduceNeg, BitVec.reduceAdd]

theorem rdi_pushed : (pushed m error code).ctx.rdi = (pushed m error code).ctx.rsp := by
  rw [pushed, pushRegisters, exec, List.foldl_append]
  rfl

theorem mem_pushed : (pushed m error code).mem =
    pushWords m.mem (m.ctx.rsp &&& ~~~ 15) (frameWords (interrupted m code error)).reverse := by
  have hslot : frameAddress m.ctx + 0x48 = (m.ctx.rsp &&& ~~~ 15) - 8 - 8 - 8 - 8 - 8 - 8 - 8 - 8 - 8 - 8 - 8 - 8 - 8 -
      8 - 8 - 8 - 8 - 8 := by
    simp only [frameAddress, BitVec.sub_eq_add_neg, BitVec.add_assoc, BitVec.reduceNeg, BitVec.reduceAdd]
  rw [frameWords, interrupted, hslot]
  obtain ⟨⟨⟩, cr, mem⟩ := m
  simp only [pushed, pushRegisters, exec, pushx64, interrupt, Machine.pushes, Machine.push, step, Context.set, Context.get,
    List.foldl, List.cons_append, List.nil_append, List.reverse_cons, List.reverse_nil, pushWords]

theorem wordsAt_pushed : WordsAt (pushed m error code).mem (frameAddress m.ctx) (frameWords (interrupted m code error)) := by
  rw [mem_pushed]
  have hlen : (frameWords (interrupted m code error)).reverse.length < 2 ^ 60 := by simp [frameWords]
  have h := Lib.wordsAt_pushWords m.mem (m.ctx.rsp &&& ~~~ 15) hlen
  rw [List.reverse_reverse] at h
  exact h

/-- Nothing but the 27 words of the frame is written. -/
theorem mem_pushed_of_ne {x : Word} (hx : ∀ i < 27, x ≠ frameAddress m.ctx + BitVec.ofNat 64 (8 * i)) :
    (pushed m error code).mem x = m.mem x := by
  rw [mem_pushed]
  refine Lib.pushWords_of_ne fun i hi heq => ?_
  have hlen : i < 27 := by simpa [frameWords] using hi
  refine hx (26 - i) (by omega) (heq.trans ?_)
  unfold frameAddress
  bv_omega

theorem exec_cons (i : Instr) (c : List Instr) : exec (i :: c) m = exec c (step m i) := rfl

theorem step_pushImm : step m (.pushImm w) = m.push w := rfl

theorem step_cli_push : step (m.push w) .cli = (step m .cli).push w := rfl

/-- The stub pushes what the processor has not, provided that they agree on the vectors with an error code. -/
theorem stubCall_deliver (h : v ∈ errorCodeVectors ↔ v < 32 ∧ v ∈ [8, 10, 11, 12, 13, 14]) :
    stubCall v (deliver m v error) = pushed m (errorCodeOf v error) (BitVec.ofNat 64 v) := by
  unfold stubCall deliver stub errorCodeOf
  by_cases hv : v ∈ errorCodeVectors
  · obtain ⟨hlt, hlist⟩ := h.1 hv
    rw [if_pos hv, if_pos hv, if_pos hlt, if_pos hlist, pushed, pushRegisters, isrError]
    simp only [List.append_assoc, List.cons_append, exec_cons, step_pushImm, step_cli_push]
  · rw [if_neg hv, if_neg hv]
    split_ifs with hlt hlist
    · exact absurd (h.2 ⟨hlt, hlist⟩) hv
    · rfl
    · rfl

/-- A handler that leaves the stack pointer and the frame alone. -/
structure Kept (m after : Machine) : Prop where
  rsp : after.ctx.rsp = m.ctx.rsp
  frame : ∀ i < 27, after.mem (m.ctx.rsp + BitVec.ofNat 64 (8 * i)) = m.mem (m.ctx.rsp + BitVec.ofNat 64 (8 * i))

/-- The second half of `irq_stub` gives the interrupted context back. -/
theorem irqReturn_pushed (h : Kept (pushed m error code) after) : (irqReturn after).ctx = m.ctx := by
  have hsp : after.ctx.rsp = frameAddress m.ctx := h.rsp.trans rsp_pushed
  have hframe : WordsAt after.mem after.ctx.rsp (frameWords (interrupted m code error)) := by
    rw [hsp]
    refine wordsAt_pushed.congr fun i hi => ?_
    have := h.frame i (by simpa [frameWords] using hi)
    rwa [rsp_pushed] at this
  have hslot' : frameAddress m.ctx + 0x48 = after.ctx.rsp + 72#64 := by
    rw [hsp]
    rfl
  obtain ⟨⟨⟩, cr', mem'⟩ := after
  rw [frameWords, interrupted, hslot'] at hframe
  simp only [Lib.wordsAt_cons, BitVec.add_assoc, BitVec.reduceAdd] at hframe
  obtain ⟨-, -, -, -, hax, hcx, hdx, hbx, hslot, hbp, hdi, hsi, h8, h9, h10, h11, h12, h13, h14, h15, -, -,
    hip, hcs, hflags, hsp0, hss, -⟩ := hframe
  simp only [irqReturn, exec, popx64, List.foldl, List.cons_append, List.nil_append, step, Context.set, BitVec.add_assoc,
    BitVec.reduceAdd, hax, hcx, hdx, hbx, hslot, hbp, hdi, hsi, h8, h9, h10, h11, h12, h13, h14, h15, hip, hcs, hflags,
    hsp0, hss]
  apply Context.ext <;> simp

theorem mem_pushRegisters (m : Machine) (error code : Word) : (pushRegisters m error code).mem =
    pushWords m.mem m.ctx.rsp [error, code, m.ctx.r15, m.ctx.r14, m.ctx.r13, m.ctx.r12, m.ctx.r11, m.ctx.r10, m.ctx.r9,
      m.ctx.r8, m.ctx.rsi, m.ctx.rdi, m.ctx.rbp, m.ctx.rsp - 8 - 8 - 8 - 8 - 8 - 8 - 8 - 8 - 8 - 8 - 8 - 8 - 8, m.ctx.rbx,
      m.ctx.rdx, m.ctx.rcx, m.ctx.rax, m.cr .cr0, m.cr .cr2, m.cr .cr3, m.cr .cr4] := by
  obtain ⟨⟨⟩, cr, mem⟩ := m
  simp only [pushRegisters, exec, pushx64, Machine.push, step, Context.set, Context.get, List.foldl, List.cons_append,
    List.nil_append, pushWords]

theorem rsp_pushRegisters (m : Machine) (error code : Word) :
    (pushRegisters m error code).ctx.rsp = m.ctx.rsp - 176 := by
  obtain ⟨⟨⟩, cr, mem⟩ := m
  simp only [pushRegisters, exec, pushx64, Machine.push, step, Context.set, Context.get, List.foldl, List.cons_append,
    List.nil_append, BitVec.sub_eq_add_neg, BitVec.add_assoc, BitVec.reduceNeg, BitVec.reduceAdd]

/-- The handler finds the two words, and what lay on the stack before them. -/
theorem cpuRegister_pushRegisters (m : Machine) (error code : Word) :
    (cpuRegister (pushRegisters m error code).mem (pushRegisters m error code).ctx.rsp).interruptCode = code ∧
      (cpuRegister (pushRegisters m error code).mem (pushRegisters m error code).ctx.rsp).errorCode = error ∧
      (cpuRegister (pushRegisters m error code).mem (pushRegisters m error code).ctx.rsp).rip = m.mem m.ctx.rsp := by
  have hcode : m.ctx.rsp - 176 + 0xA0 = m.ctx.rsp - BitVec.ofNat 64 (8 * (1 + 1)) := by bv_omega
  have herror : m.ctx.rsp - 176 + 0xA8 = m.ctx.rsp - BitVec.ofNat 64 (8 * (0 + 1)) := by bv_omega
  have htop : m.ctx.rsp - 176 + 0xB0 = m.ctx.rsp := by bv_omega
  simp only [cpuRegister]
  rw [rsp_pushRegisters, mem_pushRegisters, hcode, herror, htop]
  refine ⟨Lib.pushWords_at _ _ (by simp) (by simp), Lib.pushWords_at _ _ (by simp) (by simp),
    Lib.pushWords_of_ne fun i hi => ?_⟩
  have hlen : i < 22 := hi
  bv_omega

/-- Where the processor pushes an error code and the stub pushes a 0 for it, the error code takes the place of `rip`. -/
theorem rip_misplaced (m : Machine) (error code : Word) :
    (cpuRegister (pushRegisters ((interrupt m).push error) 0 code).mem
      (pushRegisters ((interrupt m).push error) 0 code).ctx.rsp).rip = error :=
  (cpuRegister_pushRegisters _ 0 code).2.2.trans (Function.update_self ..)

def resetMachine : Machine := ⟨⟨0, 0, 0, 0, 0, 0, 0, 0, 0, 0, 0, 0, 0, 0, 0, 0, 0, 0, 0, 0⟩, fun _ => 0, fun _ => 0⟩

/-- For each of the 48 entries of `interrupt_x86`, wherever the stack pointer stands: the handler gets, at its stack pointer
and in `rdi`, exactly the interrupted context with the vector and the error code, unless the vector is one of the four
exceptions with an error code whose stub pushes another; and when the handler of an IRQ leaves its frame alone, the
interrupted code goes on with every register as it was. -/
theorem stub_frame_iff (hv : v < 48) :
    ((∀ m error, (stubCall v (deliver m v error)).ctx.rdi = (stubCall v (deliver m v error)).ctx.rsp ∧
        cpuRegister (stubCall v (deliver m v error)).mem (stubCall v (deliver m v error)).ctx.rsp =
          interrupted m (BitVec.ofNat 64 v) (errorCodeOf v error)) ↔ v ∉ [17, 21, 29, 30]) ∧
      (32 ≤ v → ∀ m error after, Kept (stubCall v (deliver m v error)) after → (irqReturn after).ctx = m.ctx) := by
  have hfits : v ∉ [17, 21, 29, 30] → (v ∈ errorCodeVectors ↔ v < 32 ∧ v ∈ [8, 10, 11, 12, 13, 14]) := by
    unfold errorCodeVectors
    simp only [List.mem_cons, List.not_mem_nil, or_false]
    omega
  refine ⟨⟨fun h hbad => ?_, fun h m error => ?_⟩, fun hv' m error after hkept => ?_⟩
  · -- an error code that is not the interrupted `rip`
    have hrip := congrArg CpuRegister.rip (h resetMachine 1).2
    have hstub : stubCall v (deliver resetMachine v 1) =
        pushRegisters ((interrupt resetMachine).push 1) 0 (BitVec.ofNat 64 v) := by
      simp only [List.mem_cons, List.not_mem_nil, or_false] at hbad
      obtain rfl | rfl | rfl | rfl := hbad <;> rfl
    rw [hstub, rip_misplaced] at hrip
    exact absurd hrip (by simp [interrupted, resetMachine])
  · rw [stubCall_deliver (hfits h), rdi_pushed, rsp_pushed]
    exact ⟨rfl, cpuRegister_of_wordsAt wordsAt_pushed⟩
  · rw [stubCall_deliver (hfits (by simp only [List.mem_cons, List.not_mem_nil, or_false]; omega))] at hkept
    exact irqReturn_pushed hkept

/-- The timer's IRQ, with a handler that does nothing. -/
theorem stub_frame_iff_timer : (irqReturn (stubCall 32 (deliver resetMachine 32 0))).ctx = resetMachine.ctx :=
  (stub_frame_iff (v := 32) (by decide)).2 (by decide) resetMachine 0 _ ⟨rfl, fun _ _ => rfl⟩

end HaOS.Cpu
