import HaOS.Types
import HaOS.Lib.Chain

/-!
# The task list (`kernel/process/task.c`, `kernel/process/task.S`, `kernel/time.c`)

The memory is read task by task: `mem a` is the `task_info_t` stored at address `a`. The stacks behind the saved stack
pointers are the subject of the context switch and play no part here.

* `taskInit`, `taskCreate`, `taskExit` : the calls of a task;
* `switchTask`, `taskRemove` : what a timer interrupt does with the current task; `irqTimeHandle` decides which;
* `lastTask`, `findPrev` : the two walks along the list, on a bound.
-/

namespace HaOS.Task

structure TaskInfo where
  id : Nat
  stackProvider : Nat
  stack : Nat
  flags : Nat
  signalCode : Nat
  next : Nat
deriving DecidableEq, Repr

def taskFlagsRunningBit : Nat := 1

def TaskInfo.Running (t : TaskInfo) : Prop := t.flags &&& taskFlagsRunningBit ≠ 0

instance (t : TaskInfo) : Decidable t.Running := inferInstanceAs (Decidable (_ ≠ _))

/-- The tasks in memory, the address of `kernel_task`, and the variables of `task.c` and `time.c`. -/
structure Sched where
  mem : Nat → TaskInfo
  kernelTask : Nat
  taskCurrent : Nat
  taskNext : Nat
  idTask : Nat
  time : Nat

def Sched.store (s : Sched) (a : Nat) (t : TaskInfo) : Sched := { s with mem := Function.update s.mem a t }

/-- `task_init`, on the zeroed `kernel_task`; its address and `KERNEL_STACK_BOTTOM` are the linker's. -/
def taskInit (mem : Nat → TaskInfo) (kernelTask kernelStackBottom : Nat) : Sched where
  mem := Function.update mem kernelTask ⟨0, kernelStackBottom, kernelStackBottom, 0 ||| taskFlagsRunningBit, 0, 0⟩
  kernelTask := kernelTask
  taskCurrent := kernelTask
  taskNext := kernelTask
  idTask := 1
  time := 0

/-- The bytes pushed on a new task's stack: the interrupt frame, 27 qwords. -/
def sizeofFrame : Nat := 0xD8

/-- The walk to the end of the list; `none` when it goes past its bound. -/
def lastTask (mem : Nat → TaskInfo) : Nat → Nat → Option Nat
  | 0, _ => none
  | walk + 1, crt => if (mem crt).next = 0 then some crt else lastTask mem walk (mem crt).next

/-- `task_create_impl`, given the addresses `new_alloc` and `page_alloc4K` return. -/
def taskCreate (walk : Nat) (s : Sched) (newTask stackProvider : Nat) : Option Sched :=
  let s := { s.store newTask ⟨s.idTask, stackProvider, stackProvider + 0x1000 - sizeofFrame, 0 ||| taskFlagsRunningBit,
    0, 0⟩ with idTask := dword (s.idTask + 1) }
  (lastTask s.mem walk s.kernelTask).map fun crt => s.store crt { s.mem crt with next := newTask }

/-- `task_exit`, up to its endless loop. -/
def taskExit (s : Sched) (signal : Nat) : Sched :=
  if dword (s.mem s.taskCurrent).id = 0 then s
  else
    let target := s.mem s.taskCurrent
    s.store s.taskCurrent
      { target with signalCode := signal, flags := target.flags &&& (2 ^ 64 - 1 - taskFlagsRunningBit) }

/-- `switch_task`, called with the address of the interrupt frame. -/
def switchTask (s : Sched) (cpu : Nat) : Sched :=
  let next := (s.mem s.taskCurrent).next
  let taskNext := if next = 0 then s.kernelTask else next
  { s.store s.taskCurrent { s.mem s.taskCurrent with stack := cpu } with taskNext := taskNext, taskCurrent := taskNext }

inductive Search where
  | found (prev : Nat)
  /-- the halt loop after the end of the list -/
  | halted
  /-- the walk went past its bound -/
  | bound
deriving DecidableEq

/-- `.loop_get_prev`. -/
def findPrev (mem : Nat → TaskInfo) (target : Nat) : Nat → Nat → Search
  | 0, _ => .bound
  | walk + 1, prev =>
    if (mem prev).next = target then .found prev
    else if (mem prev).next = 0 then .halted
    else findPrev mem target walk (mem prev).next

/-- `task_remove` once it has found the predecessor: unlink the current task and go on with the next one
(`switch_next_task_imme`). -/
def unlinkCurrent (s : Sched) (prev : Nat) : Sched :=
  let next := (s.mem s.taskCurrent).next
  let taskNext := if next = 0 then s.kernelTask else next
  { s.store prev { s.mem prev with next := next } with taskNext := taskNext, taskCurrent := taskNext }

inductive Tick where
  | done (s : Sched)
  | halted
  | bound

def irqTimeHandle (walk : Nat) (s : Sched) (cpu : Nat) : Tick :=
  let s := { s with time := dword (s.time + 1) }
  if s.time % 1000 = 0 then .done s
  else if (s.mem s.taskCurrent).Running then .done (switchTask s cpu)
  else
    match findPrev s.mem s.taskCurrent walk s.kernelTask with
    | .found prev => .done (unlinkCurrent s prev)
    | .halted => .halted
    | .bound => .bound

theorem irqTimeHandle_cases {walk cpu : Nat} {s t : Sched} (h : irqTimeHandle walk s cpu = .done t) :
    (t.time % 1000 = 0 ∧ t = { s with time := dword (s.time + 1) }) ∨
    (t.time % 1000 ≠ 0 ∧ (s.mem s.taskCurrent).Running ∧ t = switchTask { s with time := dword (s.time + 1) } cpu) ∨
    (t.time % 1000 ≠ 0 ∧ ¬ (s.mem s.taskCurrent).Running ∧
      ∃ prev, t = unlinkCurrent { s with time := dword (s.time + 1) } prev) := by
  unfold irqTimeHandle at h
  simp only at h
  split_ifs at h with h0 hr
  · cases h
    exact .inl ⟨h0, rfl⟩
  · cases h
    exact .inr (.inl ⟨h0, hr, rfl⟩)
  · split at h
    · cases h
      exact .inr (.inr ⟨h0, hr, _, rfl⟩)
    · cases h
    · cases h

/-! ## Saved stack pointers -/

theorem stack_store (s : Sched) (a b : Nat) (t : TaskInfo) (h : t.stack = (s.mem a).stack) :
    ((s.store a t).mem b).stack = (s.mem b).stack := by
  by_cases hb : b = a
  · subst hb
    simp [Sched.store, h]
  · simp [Sched.store, hb]

theorem stack_taskExit (s : Sched) (signal a : Nat) : ((taskExit s signal).mem a).stack = (s.mem a).stack := by
  unfold taskExit
  split_ifs
  · rfl
  · exact stack_store _ _ _ _ rfl

theorem stack_taskCreate {walk newTask stackProvider a : Nat} {s t : Sched}
    (h : taskCreate walk s newTask stackProvider = some t) (ha : a ≠ newTask) : (t.mem a).stack = (s.mem a).stack := by
  obtain ⟨crt, -, rfl⟩ := Option.map_eq_some_iff.mp h
  have hstore : ∀ (u : Sched) (b : Nat), ((u.store b { u.mem b with next := newTask }).mem a).stack = (u.mem a).stack :=
    fun u b => stack_store u b a _ rfl
  rw [hstore]
  simp [Sched.store, ha]

theorem stack_switchTask (s : Sched) (cpu a : Nat) :
    ((switchTask s cpu).mem a).stack = if a = s.taskCurrent then cpu else (s.mem a).stack := by
  by_cases ha : a = s.taskCurrent <;> simp [switchTask, Sched.store, ha]

theorem stack_unlinkCurrent (s : Sched) (prev a : Nat) : ((unlinkCurrent s prev).mem a).stack = (s.mem a).stack :=
  stack_store _ _ _ _ rfl

/-! ## Runs -/

def Sched.next (s : Sched) (a : Nat) : Option Nat := if (s.mem a).next = 0 then none else some (s.mem a).next

inductive Event where
  | create (newTask stackProvider : Nat)
  | exit (signal : Nat)
  | tick (cpu : Nat)

/-- A state of a run, with the number of tasks created so far. -/
structure State where
  sched : Sched
  created : Nat

def State.init (mem : Nat → TaskInfo) (kernelTask kernelStackBottom : Nat) : State :=
  ⟨taskInit mem kernelTask kernelStackBottom, 0⟩

/-- `new_alloc` returns memory that no task of the list is using. -/
def Fresh (s : Sched) (newTask : Nat) : Prop := newTask ≠ 0 ∧ ∀ l, Lib.Chain s.next s.kernelTask l → newTask ∉ l

inductive Step : State → Event → State → Prop
  | create {s : State} {t : Sched} {walk newTask stackProvider : Nat} : Fresh s.sched newTask →
      s.created + 1 < 2 ^ 32 - 1 → taskCreate walk s.sched newTask stackProvider = some t →
      Step s (.create newTask stackProvider) ⟨t, s.created + 1⟩
  | exit {s : State} {signal : Nat} : Step s (.exit signal) ⟨taskExit s.sched signal, s.created⟩
  | tick {s : State} {t : Sched} {walk cpu : Nat} : irqTimeHandle walk s.sched cpu = .done t →
      Step s (.tick cpu) ⟨t, s.created⟩

end HaOS.Task
