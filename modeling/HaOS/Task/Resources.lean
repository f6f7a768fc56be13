import HaOS.Alloc.Growth
import HaOS.Alloc.Merge
import HaOS.Alloc.Sizes
import HaOS.Paging.Memory
import HaOS.Task.List

/-!
# What a task takes from the heap and from memory

The scheduler with the heap, where a `task_info_t` gets its block, and the tables, where a stack gets its page.

* `Kernel.taskCreate`, `Kernel.taskExit`, `Kernel.taskRemove`, `Kernel.irqTimeHandle` : the functions of the task list with
  their calls of the allocator and of the paging code; `heapPages` : the pages that `new_alloc` maps;
* `Quiet` : what happens between the events of a task's life; `Kept` : what it leaves alone; `Quiet.stays` : a task that has
  exited stays current;
* `Ready` : the state a task is created in; `Ready.taskCreate`, `Ready.created` : the creation returns, with a new task.
-/

namespace HaOS.Task
open Lib (Chain Reaches)
open Alloc (sizeofAllocBlock)
open Paging (SameTables pagePresent pageReadwrite)

structure Kernel where
  sched : Sched
  heap : Alloc.Heap
  paging : Paging.State

def sizeofTaskInfo : Nat := 48

/-- The addresses at which `new_alloc` calls `page_mapv`: each time, it adds the page to `heap_size`. -/
def heapPages (h h' : Alloc.Heap) : List Nat :=
  (List.range ((h'.heapSize - h.heapSize) / 0x1000)).map fun i => qword (h.heapStart + qword (h.heapSize + i * 0x1000))

/-- `task_create_impl` and the new task. The stores to its stack are not part of it. -/
def Kernel.taskCreate (walk depth : Nat) (k : Kernel) : Option (Kernel × Nat) :=
  match Alloc.newAlloc walk depth k.heap sizeofTaskInfo with
  | none => none
  | some (heap, newTask) =>
    let paging := (heapPages k.heap heap).foldl
      (fun s v => Paging.pageMapv s v 0x1000 (pagePresent ||| pageReadwrite)) k.paging
    let (paging, stackProvider) := Paging.pageAlloc4K paging (pagePresent ||| pageReadwrite)
    (Task.taskCreate walk k.sched newTask stackProvider).map fun sched => (⟨sched, heap, paging⟩, newTask)

def Kernel.taskExit (k : Kernel) (signal : Nat) : Kernel := { k with sched := Task.taskExit k.sched signal }

/-- `task_remove`; `none` when it halts, or does not return within the bound. -/
def Kernel.taskRemove (walk : Nat) (k : Kernel) : Option Kernel :=
  let target := k.sched.taskCurrent
  match findPrev k.sched.mem target walk k.sched.kernelTask with
  | .found prev =>
    let sched := unlinkCurrent k.sched prev
    let paging := Paging.pageUmapv k.paging (k.sched.mem target).stackProvider 0x1000
    (Alloc.freeAlloc walk k.heap target).map fun heap => ⟨sched, heap, paging⟩
  | .halted => none
  | .bound => none

def Kernel.irqTimeHandle (walk : Nat) (k : Kernel) (cpu : Nat) : Option Kernel :=
  let k := { k with sched := { k.sched with time := dword (k.sched.time + 1) } }
  if k.sched.time % 1000 = 0 then some k
  else if (k.sched.mem k.sched.taskCurrent).Running then some { k with sched := switchTask k.sched cpu }
  else k.taskRemove walk

/-- The next interrupt of the timer calls `task_remove`. -/
def Kernel.Removes (k : Kernel) : Prop :=
  dword (k.sched.time + 1) % 1000 ≠ 0 ∧ ¬ (k.sched.mem k.sched.taskCurrent).Running

instance (k : Kernel) : Decidable k.Removes := inferInstanceAs (Decidable (_ ∧ _))

variable {k k' t : Kernel} {l : List Nat} {bs : List Alloc.Block} {walk depth cpu newTask a : Nat}

theorem sched_irqTimeHandle (h : k.irqTimeHandle walk cpu = some t) : irqTimeHandle walk k.sched cpu = .done t.sched := by
  unfold Kernel.irqTimeHandle at h
  unfold irqTimeHandle
  dsimp only at h ⊢
  split_ifs at h ⊢ with h0 hr
  · rw [← Option.some.inj h]
  · rw [← Option.some.inj h]
  · unfold Kernel.taskRemove at h
    dsimp only at h
    cases hprev : findPrev k.sched.mem k.sched.taskCurrent walk k.sched.kernelTask with
    | found prev =>
        rw [hprev] at h
        obtain ⟨heap, -, rfl⟩ := Option.map_eq_some_iff.mp h
        rfl
    | halted =>
        rw [hprev] at h
        cases h
    | bound =>
        rw [hprev] at h
        cases h

/-! ## Between the events -/

/-- Interrupts of the timer, and stores to memory. -/
inductive Meanwhile where
  | tick (cpu : Nat)
  | store (paging : Paging.State)

/-- No task is removed, and no table is written. -/
inductive Quiet : Kernel → Meanwhile → Kernel → Prop
  | tick {k t : Kernel} {walk cpu : Nat} (hk : ¬ k.Removes) (h : k.irqTimeHandle walk cpu = some t) : Quiet k (.tick cpu) t
  | store {k : Kernel} {paging : Paging.State} (h : SameTables k.paging paging) :
    Quiet k (.store paging) { k with paging := paging }

/-- The heap, the tables, and of the tasks their places in the list, ids and pages for the stack. -/
structure Kept (k t : Kernel) : Prop where
  heap : t.heap = k.heap
  paging : SameTables k.paging t.paging
  kernelTask : t.sched.kernelTask = k.sched.kernelTask
  idTask : t.sched.idTask = k.sched.idTask
  next : ∀ a, (t.sched.mem a).next = (k.sched.mem a).next
  id : ∀ a, (t.sched.mem a).id = (k.sched.mem a).id
  stackProvider : ∀ a, (t.sched.mem a).stackProvider = (k.sched.mem a).stackProvider

theorem Kept.refl (k : Kernel) : Kept k k := ⟨rfl, .refl _, rfl, rfl, fun _ => rfl, fun _ => rfl, fun _ => rfl⟩

theorem Kept.trans (h : Kept k k') (h' : Kept k' t) : Kept k t where
  heap := h'.heap.trans h.heap
  paging := h.paging.trans h'.paging
  kernelTask := h'.kernelTask.trans h.kernelTask
  idTask := h'.idTask.trans h.idTask
  next a := (h'.next a).trans (h.next a)
  id a := (h'.id a).trans (h.id a)
  stackProvider a := (h'.stackProvider a).trans (h.stackProvider a)

theorem Kept.chain (h : Kept k t) (hc : Chain k.sched.next k.sched.kernelTask l) :
    Chain t.sched.next t.sched.kernelTask l := by
  rw [h.kernelTask]
  refine hc.congr fun x _ => ?_
  rw [Sched.next, Sched.next, h.next]

theorem kept_store (k : Kernel) (r : TaskInfo) (taskCurrent taskNext time : Nat) (hid : r.id = (k.sched.mem a).id)
    (hstack : r.stackProvider = (k.sched.mem a).stackProvider) (hnext : r.next = (k.sched.mem a).next) :
    Kept k { k with sched := ⟨Function.update k.sched.mem a r, k.sched.kernelTask, taskCurrent, taskNext,
      k.sched.idTask, time⟩ } := by
  have hother : ∀ b, b ≠ a → Function.update k.sched.mem a r b = k.sched.mem b := fun b hb => Function.update_of_ne hb _ _
  refine ⟨rfl, .refl _, rfl, rfl, fun b => ?_, fun b => ?_, fun b => ?_⟩
  all_goals
    dsimp only
    by_cases hb : b = a
    · rw [hb, Function.update_self]
      assumption
    · rw [hother b hb]

theorem kept_taskExit (k : Kernel) (signal : Nat) : Kept k (k.taskExit signal) := by
  unfold Kernel.taskExit taskExit
  split_ifs
  · exact .refl k
  · exact kept_store k _ _ _ _ rfl rfl rfl

/-- A quiet interrupt is one of the thousandth, or switches. -/
theorem irqTimeHandle_quiet (hk : ¬ k.Removes) (h : k.irqTimeHandle walk cpu = some t) :
    t = { k with sched := { k.sched with time := dword (k.sched.time + 1) } } ∨
      (k.sched.mem k.sched.taskCurrent).Running ∧
        t = { k with sched := switchTask { k.sched with time := dword (k.sched.time + 1) } cpu } := by
  unfold Kernel.irqTimeHandle at h
  dsimp only at h
  split_ifs at h with h0 hr
  · exact .inl (Option.some.inj h).symm
  · exact .inr ⟨hr, (Option.some.inj h).symm⟩
  · exact absurd ⟨h0, hr⟩ hk

theorem Quiet.kept {e : Meanwhile} (h : Quiet k e t) : Kept k t := by
  cases h with
  | tick hk h =>
      obtain rfl | ⟨-, rfl⟩ := irqTimeHandle_quiet hk h
      · exact ⟨rfl, .refl _, rfl, rfl, fun _ => rfl, fun _ => rfl, fun _ => rfl⟩
      · exact kept_store k _ _ _ _ rfl rfl rfl
  | store h => exact ⟨rfl, h, rfl, rfl, fun _ => rfl, fun _ => rfl, fun _ => rfl⟩

theorem kept_of_reaches (h : Reaches Quiet k t) : Kept k t :=
  h.invariant (P := Kept k) (fun _ _ _ hk hq => hk.trans hq.kept) (.refl k)

/-- While the current task is stopped, it stays current until it is removed. -/
theorem Quiet.stays {e : Meanwhile} (h : Quiet k e t) (hs : ¬ (k.sched.mem k.sched.taskCurrent).Running) :
    t.sched.taskCurrent = k.sched.taskCurrent ∧ ¬ (t.sched.mem t.sched.taskCurrent).Running := by
  cases h with
  | tick hk h =>
      obtain rfl | ⟨hr, -⟩ := irqTimeHandle_quiet hk h
      · exact ⟨rfl, hs⟩
      · exact absurd hr hs
  | store h => exact ⟨rfl, hs⟩

theorem stays_of_reaches (h : Reaches Quiet k t) (hs : ¬ (k.sched.mem k.sched.taskCurrent).Running) :
    t.sched.taskCurrent = k.sched.taskCurrent ∧ ¬ (t.sched.mem t.sched.taskCurrent).Running := by
  refine h.invariant (P := fun t : Kernel => t.sched.taskCurrent = k.sched.taskCurrent ∧
    ¬ (t.sched.mem t.sched.taskCurrent).Running) (fun u _ v hu hq => ?_) ⟨rfl, hs⟩
  obtain ⟨hcur, hstop⟩ := hq.stays hu.2
  exact ⟨hcur.trans hu.1, hstop⟩

@[simp] theorem taskCurrent_taskExit (k : Kernel) (signal : Nat) :
    (k.taskExit signal).sched.taskCurrent = k.sched.taskCurrent := by
  unfold Kernel.taskExit taskExit
  split_ifs <;> rfl

theorem stopped_taskExit (k : Kernel) (signal : Nat) (h0 : dword (k.sched.mem k.sched.taskCurrent).id ≠ 0) :
    ¬ ((k.taskExit signal).sched.mem k.sched.taskCurrent).Running := by
  unfold Kernel.taskExit taskExit
  rw [if_neg h0, Sched.mem_store]
  exact TaskInfo.not_running_clear _ _

/-! ## The state before the creation -/

/-- The task list `l`; the tasks on it, but for `kernel_task`, lie in blocks of the heap that are in use. -/
structure Ready (k : Kernel) (l : List Nat) (bs : List Alloc.Block) : Prop where
  chain : Chain k.sched.next k.sched.kernelTask l
  heap : Alloc.Tiled k.heap bs
  base : 2 ^ 64 - 2 ^ 31 ≤ k.heap.heapStart
  top : k.heap.heapStart + k.heap.heapSize < 2 ^ 64
  kernel : k.sched.kernelTask < k.heap.heapStart
  held : ∀ a ∈ l, a ≠ k.sched.kernelTask → ∃ o b, Alloc.At o b bs ∧ b.free = false ∧
    a = k.heap.heapStart + o + sizeofAllocBlock
  tables : Paging.TreeShaped k.paging

theorem taskCreate_cases (h : k.taskCreate walk depth = some (t, newTask)) :
    Alloc.newAlloc walk depth k.heap sizeofTaskInfo = some (t.heap, newTask) ∧ ∃ paging stackProvider,
      paging = (heapPages k.heap t.heap).foldl
        (fun s v => Paging.pageMapv s v 0x1000 (pagePresent ||| pageReadwrite)) k.paging ∧
      Paging.pageAlloc4K paging (pagePresent ||| pageReadwrite) = (t.paging, stackProvider) ∧
      taskCreate walk k.sched newTask stackProvider = some t.sched := by
  unfold Kernel.taskCreate at h
  split at h
  · cases h
  · rename_i heap p hnew
    obtain ⟨sched, hsched, heq⟩ := Option.map_eq_some_iff.mp h
    rw [Prod.mk.injEq] at heq
    obtain ⟨rfl, rfl⟩ := heq
    exact ⟨hnew, _, _, rfl, rfl, hsched⟩

theorem Ready.fresh (hr : Ready k l bs) {heap : Alloc.Heap}
    (h : Alloc.newAlloc walk depth k.heap sizeofTaskInfo = some (heap, newTask)) :
    newTask ∉ l ∧ k.heap.heapStart + sizeofAllocBlock ≤ newTask ∧ newTask < 2 ^ 64 ∧
      (heap.mem (newTask - sizeofAllocBlock)).available = 0 := by
  obtain ⟨o, c, hat, hfree, rfl, hlt, hav, -⟩ := Alloc.newAlloc_block hr.heap hr.top (by decide) (by decide) h
  refine ⟨fun hmem => ?_, by omega, hlt, by rwa [Nat.add_sub_cancel]⟩
  have hne : k.heap.heapStart + o + sizeofAllocBlock ≠ k.sched.kernelTask := by
    have := hr.kernel
    omega
  obtain ⟨o', b, hb, hused, heq⟩ := hr.held _ hmem hne
  obtain rfl : o = o' := by omega
  rw [hat.unique hr.heap.pos hb, hused] at hfree
  cases hfree

theorem stackProvider_taskCreate {s s' : Sched} {stackProvider : Nat}
    (h : taskCreate walk s newTask stackProvider = some s') : (s'.mem newTask).stackProvider = stackProvider := by
  obtain ⟨crt, -, rfl⟩ := Option.map_eq_some_iff.mp h
  by_cases hc : newTask = crt <;> simp [Sched.store, hc]

theorem exists_taskCreate {s : Sched} (hc : Chain s.next s.kernelTask l) (hnew : newTask ∉ l) (stackProvider : Nat)
    (hw : l.length < walk) : ∃ s', taskCreate walk s newTask stackProvider = some s' := by
  let r : TaskInfo := ⟨s.idTask, stackProvider, stackProvider + 0x1000 - sizeofFrame, 0 ||| taskFlagsRunningBit, 0, 0⟩
  have hchain : Chain (s.store newTask r).next s.kernelTask l :=
    hc.congr fun x hx => Sched.next_store_ne _ _ fun hxn => hnew (hxn ▸ hx)
  obtain ⟨pre, z, rfl, hwalk⟩ := lastTask_eq hchain
  have hlast : lastTask (s.store newTask r).mem walk s.kernelTask = some z := by
    rw [hwalk, if_pos]
    rw [List.length_append] at hw
    omega
  refine ⟨_, Option.map_eq_some_iff.mpr ⟨z, hlast, rfl⟩⟩

/-- With a free block that is large enough, or a free one at the end of the heap, the creation returns. -/
theorem Ready.taskCreate (hr : Ready k l bs) (hs : Alloc.CanServe k.heap sizeofTaskInfo) :
    ∃ w, ∀ walk, w ≤ walk → ∃ t newTask, k.taskCreate walk 2 = some (t, newTask) := by
  have hi : Alloc.Inv ⟨k.heap, fun _ => none⟩ bs := ⟨hr.heap, hr.base, hr.top, fun _ _ h => by cases h⟩
  have hret : Alloc.Returns k.heap sizeofTaskInfo 1 := hi.returns (by decide) (by decide) hs
  obtain ⟨w, hw⟩ := hret
  refine ⟨max w (l.length + 1), fun walk hle => ?_⟩
  obtain ⟨heap, _, p, hnew, -⟩ := hw walk (by omega)
  have hlen : l.length < walk := by omega
  let paging := (heapPages k.heap heap).foldl
    (fun s v => Paging.pageMapv s v 0x1000 (pagePresent ||| pageReadwrite)) k.paging
  let alloc := Paging.pageAlloc4K paging (pagePresent ||| pageReadwrite)
  obtain ⟨sched, hsched⟩ := exists_taskCreate hr.chain (hr.fresh hnew).1 alloc.2 hlen
  have heq : k.taskCreate walk 2 = some (⟨sched, heap, alloc.1⟩, p + sizeofAllocBlock) := by
    unfold Kernel.taskCreate
    rw [hnew]
    dsimp only
    rw [show Task.taskCreate walk k.sched (p + sizeofAllocBlock) _ = some sched from hsched]
    rfl
  exact ⟨_, _, heq⟩

end HaOS.Task
