import HaOS.Cpu.Machine
import HaOS.Task.Sched
import HaOS.Lib.Run

/-!
# Context switches

Tasks run, exit and are created, and the timer interrupts them. A task writes its own stack only; the C handlers leave
the saved frames alone and return with the stack pointer they were called with.

* `State` : the processor, the memory and the scheduler, with the stack each task owns and the context at which each
  task was last interrupted;
* `Step` : a stretch of the current task, an exit, a creation, or an interrupt up to the task it resumes;
* `Inv.irq` : every suspended task's frame lies at its saved stack pointer, and an interrupt keeps that;
* `resumed` : a task is resumed with the context at which it was last interrupted.
-/

namespace HaOS.Cpu
open HaOS.Task (Sched taskExit taskCreate irqTimeHandle)
open Lib (Reaches)

structure State where
  ctx : Context
  cr : Cr → Word
  mem : Word → Word
  sched : Sched
  own : Nat → Word → Prop
  saved : Nat → Option Context

def State.machine (s : State) : Machine := ⟨s.ctx, s.cr, s.mem⟩

def stackOf (s : Sched) (a : Nat) : Word := BitVec.ofNat 64 (s.mem a).stack

def InFrame (sp x : Word) : Prop := ∃ i < 27, x = sp + BitVec.ofNat 64 (8 * i)

/-- What the C handlers leave of the state in which they are called. -/
structure Handled (s : State) (after : Machine) : Prop where
  rsp : after.ctx.rsp = (irqEntry s.machine).ctx.rsp
  current : ∀ x, InFrame (irqEntry s.machine).ctx.rsp x → after.mem x = (irqEntry s.machine).mem x
  others : ∀ a c, s.saved a = some c → a ≠ s.sched.taskCurrent → ∀ x, InFrame (stackOf s.sched a) x →
    after.mem x = (irqEntry s.machine).mem x

/-- The state in which the interrupted task, or the one `switch_task` goes to, runs on. A task that is removed has no
context and no stack any more. -/
def resume (s : State) (after : Machine) (sched : Sched) : State :=
  let returns := sched.time % 1000 = 0
  let m := if returns then irqReturn after else switchReturn after (stackOf sched sched.taskCurrent)
  let removed := ¬ returns ∧ ¬ (s.sched.mem s.sched.taskCurrent).Running
  { s with
    ctx := m.ctx
    cr := m.cr
    mem := m.mem
    sched := sched
    own := if removed then Function.update s.own s.sched.taskCurrent fun _ => False else s.own
    saved := Function.update s.saved s.sched.taskCurrent (if removed then none else some s.ctx) }

inductive Event where
  | run
  | exit (signal : Nat)
  | create (newTask stackProvider : Nat)
  | irq

inductive Step : State → Event → State → Prop
  | run {s : State} {ctx : Context} {mem : Word → Word} :
      (∀ x, ¬ s.own s.sched.taskCurrent x → mem x = s.mem x) → Step s .run { s with ctx := ctx, mem := mem }
  | exit {s : State} {signal : Nat} : Step s (.exit signal) { s with sched := taskExit s.sched signal }
  | create {s : State} {t : Sched} {mem : Word → Word} {stack : Word → Prop} {walk newTask stackProvider : Nat} :
      taskCreate walk s.sched newTask stackProvider = some t →
      (∀ a x, a ≠ newTask → stack x → ¬ s.own a x) →
      (∀ x, ¬ stack x → ¬ s.own s.sched.taskCurrent x → mem x = s.mem x) →
      Step s (.create newTask stackProvider) { s with
        mem := mem, sched := t, own := Function.update s.own newTask stack
        saved := Function.update s.saved newTask none }
  | irq {s : State} {after : Machine} {sched : Sched} {walk : Nat} :
      (∀ x, InFrame (irqEntry s.machine).ctx.rsp x → s.own s.sched.taskCurrent x) → Handled s after →
      irqTimeHandle walk s.sched (irqEntry s.machine).ctx.rsp.toNat = .done sched → Step s .irq (resume s after sched)

/-! ## The invariant -/

structure Inv (s : State) : Prop where
  apart : ∀ a b x, s.own a x → s.own b x → a = b
  frames : ∀ a c, s.saved a = some c → a ≠ s.sched.taskCurrent →
    Saved s.mem (stackOf s.sched a) c ∧ ∀ x, InFrame (stackOf s.sched a) x → s.own a x

variable {s t : State} {after : Machine} {sched : Sched} {walk a : Nat} {c : Context}

theorem Inv.run {ctx : Context} {mem : Word → Word} (hi : Inv s)
    (hm : ∀ x, ¬ s.own s.sched.taskCurrent x → mem x = s.mem x) : Inv { s with ctx := ctx, mem := mem } where
  apart := hi.apart
  frames a c hc ha := by
    obtain ⟨hsaved, hown⟩ := hi.frames a c hc ha
    exact ⟨hsaved.congr fun i h => hm _ fun hcur => ha (hi.apart _ _ _ (hown _ ⟨i, h, rfl⟩) hcur), hown⟩

theorem Inv.exit (hi : Inv s) (signal : Nat) : Inv { s with sched := taskExit s.sched signal } where
  apart := hi.apart
  frames a c hc ha := by
    have hcur : (taskExit s.sched signal).taskCurrent = s.sched.taskCurrent := by
      unfold taskExit
      split_ifs <;> rfl
    rw [hcur] at ha
    simp only [stackOf, Task.stack_taskExit]
    exact hi.frames a c hc ha

/-- A new stack lies apart from the others. -/
theorem apart_update {own : Nat → Word → Prop} {stack : Word → Prop} {newTask : Nat}
    (h : ∀ a b x, own a x → own b x → a = b) (hstack : ∀ a x, a ≠ newTask → stack x → ¬ own a x) :
    ∀ a b x, Function.update own newTask stack a x → Function.update own newTask stack b x → a = b := by
  intro a b x ha hb
  simp only [Function.update_apply] at ha hb
  split_ifs at ha hb with h1 h2 h2
  · exact h1.trans h2.symm
  · exact absurd hb (hstack b x h2 ha)
  · exact absurd ha (hstack a x h1 hb)
  · exact h a b x ha hb

theorem Inv.create {t : Sched} {mem : Word → Word} {stack : Word → Prop} {newTask stackProvider : Nat} (hi : Inv s)
    (ht : taskCreate walk s.sched newTask stackProvider = some t) (hstack : ∀ a x, a ≠ newTask → stack x → ¬ s.own a x)
    (hm : ∀ x, ¬ stack x → ¬ s.own s.sched.taskCurrent x → mem x = s.mem x) :
    Inv { s with
      mem := mem, sched := t, own := Function.update s.own newTask stack
      saved := Function.update s.saved newTask none } where
  apart := apart_update hi.apart hstack
  frames a c hc ha := by
    simp only [Function.update_apply] at hc
    split_ifs at hc with hn
    have hcur : t.taskCurrent = s.sched.taskCurrent := by
      obtain ⟨crt, -, rfl⟩ := Option.map_eq_some_iff.mp ht
      rfl
    simp only [hcur] at ha
    obtain ⟨hsaved, hown⟩ := hi.frames a c hc ha
    simp only [stackOf, Task.stack_taskCreate ht hn, Function.update_of_ne hn]
    refine ⟨hsaved.congr fun i h => ?_, hown⟩
    have hx := hown _ ⟨i, h, rfl⟩
    exact hm _ (fun hst => hstack a _ hn hst hx) fun hcur => ha (hi.apart _ _ _ hx hcur)

/-- Behind the handlers, the frame of the interrupted task and those of the suspended ones lie at their places. -/
theorem Inv.handled (hi : Inv s) (hf : ∀ x, InFrame (irqEntry s.machine).ctx.rsp x → s.own s.sched.taskCurrent x)
    (hh : Handled s after) : Saved after.mem (irqEntry s.machine).ctx.rsp s.ctx ∧
      ∀ a c, s.saved a = some c → a ≠ s.sched.taskCurrent → Saved after.mem (stackOf s.sched a) c := by
  constructor
  · have h := saved_irqEntry s.machine
    rw [← rsp_irqEntry] at h
    exact h.congr fun i hi => hh.current _ ⟨i, hi, rfl⟩
  · intro a c hc ha
    obtain ⟨hsaved, hown⟩ := hi.frames a c hc ha
    refine hsaved.congr fun i h => ?_
    rw [hh.others a c hc ha _ ⟨i, h, rfl⟩]
    refine mem_irqEntry_of_ne s.machine fun j hj heq => ?_
    rw [← rsp_irqEntry] at heq
    exact ha (hi.apart _ _ _ (hown _ ⟨i, h, rfl⟩) (hf _ ⟨j, hj, heq⟩))

/-- What an interrupt leaves in memory, and which tasks it leaves suspended. -/
theorem resume_mem (s : State) (after : Machine) (sched : Sched) : (resume s after sched).mem = after.mem := by
  show (if _ then irqReturn after else _).mem = _
  split_ifs <;> rfl

theorem saved_current (hc : (resume s after sched).saved s.sched.taskCurrent = some c) : c = s.ctx := by
  simp only [resume, Function.update_self] at hc
  split_ifs at hc
  exact (Option.some.inj hc).symm

theorem own_resume {x : Word} (h : (resume s after sched).own a x) : s.own a x := by
  simp only [resume] at h
  split_ifs at h with hrem
  · by_cases ha : a = s.sched.taskCurrent
    · simp [ha] at h
    · rwa [Function.update_of_ne ha] at h
  · exact h

theorem own_resume_of_ne {x : Word} (ha : a ≠ s.sched.taskCurrent) (h : s.own a x) : (resume s after sched).own a x := by
  simp only [resume]
  split_ifs
  · rwa [Function.update_of_ne ha]
  · exact h

theorem own_resume_current {x : Word} (hc : (resume s after sched).saved s.sched.taskCurrent = some c)
    (h : s.own s.sched.taskCurrent x) : (resume s after sched).own s.sched.taskCurrent x := by
  simp only [resume, Function.update_self] at hc ⊢
  split_ifs at hc ⊢
  exact h

/-- After an interrupt, the frame of a task with a saved context lies at its stack pointer. -/
theorem saved_resume (hi : Inv s) (hf : ∀ x, InFrame (irqEntry s.machine).ctx.rsp x → s.own s.sched.taskCurrent x)
    (hh : Handled s after) (hc : (resume s after sched).saved a = some c)
    (hother : a ≠ s.sched.taskCurrent → stackOf sched a = stackOf s.sched a)
    (hcurrent : a = s.sched.taskCurrent → stackOf sched a = (irqEntry s.machine).ctx.rsp) :
    Saved after.mem (stackOf sched a) c ∧ ∀ x, InFrame (stackOf sched a) x → (resume s after sched).own a x := by
  obtain ⟨hframe, hothers⟩ := hi.handled hf hh
  by_cases ha : a = s.sched.taskCurrent
  · subst ha
    rw [hcurrent rfl, saved_current hc]
    exact ⟨hframe, fun x hx => own_resume_current hc (hf x hx)⟩
  · have hc' : s.saved a = some c := by
      simpa only [resume, Function.update_of_ne ha] using hc
    rw [hother ha]
    exact ⟨hothers a c hc' ha, fun x hx => own_resume_of_ne ha ((hi.frames a c hc' ha).2 x hx)⟩

theorem inv_resume (hi : Inv s) (h : ∀ a c, (resume s after sched).saved a = some c → a ≠ sched.taskCurrent →
    Saved after.mem (stackOf sched a) c ∧ ∀ x, InFrame (stackOf sched a) x → (resume s after sched).own a x) :
    Inv (resume s after sched) where
  apart a b x ha hb := hi.apart a b x (own_resume ha) (own_resume hb)
  frames a c hc ha := by
    rw [resume_mem]
    exact h a c hc ha

/-- An interrupt keeps the frames, and resumes a task with the context at which it was interrupted last. -/
theorem Inv.irq (hi : Inv s) (hf : ∀ x, InFrame (irqEntry s.machine).ctx.rsp x → s.own s.sched.taskCurrent x)
    (hh : Handled s after) (hr : irqTimeHandle walk s.sched (irqEntry s.machine).ctx.rsp.toNat = .done sched) :
    Inv (resume s after sched) ∧
      ∀ c, (resume s after sched).saved sched.taskCurrent = some c → (resume s after sched).ctx = c := by
  obtain ⟨htime, rfl⟩ | ⟨htime, hrun, rfl⟩ | ⟨htime, hrun, prev, rfl⟩ := Task.irqTimeHandle_cases hr
  · -- back to the interrupted task: nothing else has moved
    refine ⟨inv_resume hi fun a c hc ha => saved_resume hi hf hh hc (fun _ => rfl) fun h => absurd h ha, fun c hc => ?_⟩
    have hframe := (hi.handled hf hh).1
    rw [← hh.rsp] at hframe
    rw [saved_current hc]
    simp only [resume, htime, if_true]
    exact irqReturn_ctx hframe
  · -- the interrupted task joins the suspended ones
    set sched := Task.switchTask { s.sched with time := dword (s.sched.time + 1) } (irqEntry s.machine).ctx.rsp.toNat
    have hframes : ∀ a c, (resume s after sched).saved a = some c → Saved after.mem (stackOf sched a) c ∧
        ∀ x, InFrame (stackOf sched a) x → (resume s after sched).own a x := by
      intro a c hc
      refine saved_resume hi hf hh hc (fun ha => ?_) fun ha => ?_
      · simp [stackOf, sched, Task.stack_switchTask, ha]
      · simp [stackOf, sched, Task.stack_switchTask, ha]
    refine ⟨inv_resume hi fun a c hc _ => hframes a c hc, fun c hc => ?_⟩
    simp only [resume, htime, if_false]
    exact switchReturn_ctx (hframes _ c hc).1
  · -- the interrupted task is removed and has no saved context
    set sched := Task.unlinkCurrent { s.sched with time := dword (s.sched.time + 1) } prev
    have hnone : (resume s after sched).saved s.sched.taskCurrent = none := by
      simp [resume, htime, hrun]
    have hframes : ∀ a c, (resume s after sched).saved a = some c → Saved after.mem (stackOf sched a) c ∧
        ∀ x, InFrame (stackOf sched a) x → (resume s after sched).own a x := by
      intro a c hc
      refine saved_resume hi hf hh hc (fun _ => ?_) fun ha => ?_
      · simp only [stackOf, sched, Task.stack_unlinkCurrent]
      · rw [ha, hnone] at hc
        cases hc
    refine ⟨inv_resume hi fun a c hc _ => hframes a c hc, fun c hc => ?_⟩
    simp only [resume, htime, if_false]
    exact switchReturn_ctx (hframes _ c hc).1

theorem Inv.step {e : Event} (hi : Inv s) (h : Step s e t) : Inv t := by
  cases h with
  | run hm => exact hi.run hm
  | exit => exact hi.exit _
  | create ht hstack hm => exact hi.create ht hstack hm
  | irq hf hh hr => exact (hi.irq hf hh hr).1

/-- Whatever has run in between, the task an interrupt resumes has the context at which it was last interrupted. -/
theorem resumed {s₀ : State} (happart : ∀ a b x, s₀.own a x → s₀.own b x → a = b) (hnone : ∀ a, s₀.saved a = none)
    (hs : Reaches Step s₀ s) (h : Step s .irq t) (hc : t.saved t.sched.taskCurrent = some c) : t.ctx = c := by
  have hi : Inv s := by
    refine hs.invariant (fun _ _ _ hi h => hi.step h) ?_
    exact ⟨happart, fun a c hc => by simp [hnone] at hc⟩
  cases h with
  | irq hf hh hr => exact (hi.irq hf hh hr).2 c hc

def twoStacks (a : Nat) (x : Word) : Bool := if a = 1000 then x < 0x9000#64 else a = 2000 ∧ 0x9000#64 ≤ x

/-- The kernel task and one other, which has not run yet. -/
def twoTasks : State where
  ctx := ⟨1, 2, 3, 4, 0x8f05, 6, 7, 8, 9, 10, 11, 12, 13, 14, 15, 16, 0x100000, 0x202, 8, 16⟩
  cr := fun _ => 0
  mem := fun _ => 0x9f00
  sched :=
    { mem := fun a => if a = 1000 then ⟨0, 0x8000, 0, 1, 0, 2000⟩ else ⟨1, 0x9000, 0x9e00, 1, 0, 0⟩
      kernelTask := 1000, taskCurrent := 1000, taskNext := 1000, idTask := 2, time := 0 }
  own := fun a x => twoStacks a x
  saved := fun _ => none

/-- An interrupt that switches tasks, with handlers that do nothing else. -/
def switched (s : State) : State :=
  resume s (irqEntry s.machine)
    (Task.switchTask { s.sched with time := dword (s.sched.time + 1) } (irqEntry s.machine).ctx.rsp.toNat)

theorem own_switched (hrun : (s.sched.mem s.sched.taskCurrent).Running) : (switched s).own = s.own := by
  simp [switched, resume, hrun]

theorem step_switched {own : Nat → Word → Bool} (hown : s.own = fun a x => own a x = true)
    (hf : ∀ i < 27, own s.sched.taskCurrent ((irqEntry s.machine).ctx.rsp + BitVec.ofNat 64 (8 * i)))
    (htime : ¬ dword (s.sched.time + 1) % 1000 = 0) (hrun : (s.sched.mem s.sched.taskCurrent).Running) :
    Step s .irq (switched s) := by
  have hh : Handled s (irqEntry s.machine) := ⟨rfl, fun _ _ => rfl, fun _ _ _ _ _ _ => rfl⟩
  have hr : irqTimeHandle 0 s.sched (irqEntry s.machine).ctx.rsp.toNat = .done (Task.switchTask
      { s.sched with time := dword (s.sched.time + 1) } (irqEntry s.machine).ctx.rsp.toNat) := by
    simp only [irqTimeHandle, htime, hrun, if_true, if_false]
  refine Step.irq ?_ hh hr
  rintro x ⟨i, hi, rfl⟩
  rw [hown]
  exact hf i hi

theorem resumed_twoTasks : (switched (switched twoTasks)).ctx = twoTasks.ctx := by
  have hrun : (twoTasks.sched.mem twoTasks.sched.taskCurrent).Running := by decide
  have h1 : Step twoTasks .irq (switched twoTasks) := by
    refine step_switched rfl ?_ ?_ hrun <;> decide +kernel
  have h2 : Step (switched twoTasks) .irq (switched (switched twoTasks)) := by
    refine step_switched (own_switched hrun) ?_ ?_ ?_ <;> decide +kernel
  refine resumed (fun a b x ha hb => ?_) (fun _ => rfl) ((Lib.Reaches.refl twoTasks).snoc h1) h2 (by decide +kernel)
  simp only [twoTasks, twoStacks] at ha hb
  split_ifs at ha hb with h3 h4 h4
  · exact h3.trans h4.symm
  · exact absurd (of_decide_eq_true ha) (BitVec.not_lt.mpr (of_decide_eq_true hb).2)
  · exact absurd (of_decide_eq_true hb) (BitVec.not_lt.mpr (of_decide_eq_true ha).2)
  · exact (of_decide_eq_true ha).1.trans (of_decide_eq_true hb).1.symm

end HaOS.Cpu
