import HaOS.Cpu.Syscall
import HaOS.Fat.Open
import HaOS.Fat.Access
import HaOS.Task.Resources
import HaOS.Term.Screen

/-!
# The kernel behind the system calls (`kernel/cpu/syscall.c`, `kernel/process/task.c`)

The heap, the tasks, the open files and the terminal together. System calls run with the interrupts off, and so one after
another, whichever tasks make them.

* `State`, `syscallHandle` : the kernel, and what a system call does to it; `taskExitCall` : `task_exit` with its loop;
* `Event`, `Step` : system calls, the exit and the creation of a task, interrupts of the timer, and the terminal;
* `Inv` : the invariant; `Inv.alloc`, `Inv.free` : what the heap does to it; `Inv.step` : what an event does;
* `system_sound` : in every run the heap, the task list and the cursor are in order, and the kernel goes on until a task
  makes the `exit` system call.
-/

namespace HaOS.Sys
open HaOS.Fat HaOS.Cpu
open HaOS.Task (sizeofTaskInfo)
open Alloc (sizeofAllocBlock)
open Lib (Reaches Chain)

structure Env where
  volume : Volume
  screen : Term.Screen
  font : UInt8 → Nat → UInt8

structure State where
  kernel : Task.Kernel
  /-- the pointers that `new_alloc` gave and that are not given back, with the sizes asked for -/
  live : Nat → Option Nat
  /-- the `fat_file_ptr` at an address -/
  files : Nat → FatFilePtr
  term : Term.State
  /-- the offsets in the framebuffer at which `put_pixel` stored, the last first -/
  drawn : List Nat
  /-- the tasks that are in the loop of `task_exit` -/
  looping : Nat → Bool
  /-- the interrupts are off for good -/
  masked : Bool

/-- What a system call finds in memory: the string at `rdi`, and the memory that `new_alloc` gives for `_buf`; and what
`fat_findFile` prints, where `printf` takes a name as a format and may show more of the memory: any text is allowed. -/
structure Found where
  text : List UInt8
  buf : Nat → UInt8
  printed : List UInt8

def State.alloc (walk depth : Nat) (s : State) (size : Nat) : Option (State × Nat) :=
  (Alloc.newAlloc walk depth s.kernel.heap size).map fun r =>
    ({ s with
        kernel := { s.kernel with
          heap := r.1
          paging := (Task.heapPages s.kernel.heap r.1).foldl
            (fun s v => Paging.pageMapv s v 0x1000 (Paging.pagePresent ||| Paging.pageReadwrite)) s.kernel.paging }
        live := if r.2 = 0 then s.live else Function.update s.live r.2 (some size) }, r.2)

def State.free (walk : Nat) (s : State) (p : Nat) : Option State :=
  (Alloc.freeAlloc walk s.kernel.heap p).map fun heap =>
    { s with kernel := { s.kernel with heap := heap }, live := Function.update s.live p none }

def State.print (e : Env) (text : List UInt8) (s : State) : State :=
  { s with term := text.foldl (fun t c => Term.termPutc e.screen e.font c t) s.term }

def State.storeFile (s : State) (p : Nat) (file : FatFilePtr) : State :=
  { s with files := Function.update s.files p file }

/-- `fat_read`: the bytes it stores at `buffer`; `none` when it divides by 0 or does not return. -/
def fatReadCall (e : Env) (walk depth : Nat) (s : State) (found : Found) (file size : Nat) :
    Option (State × List UInt8) :=
  if e.volume.header.bytesPerSector / 32 = 0 ∨ fatSizeSector e.volume = 0 then none
  else
    (s.alloc walk depth (fatSizeSector e.volume)).bind fun r =>
      let reading := fatRead e.volume found.buf (s.files file) size
      (r.1.free walk r.2).map fun t => (t.storeFile file reading.fptr, reading.out)

def sizeofFatFilePtr : Nat := 14

/-- The branch of `open`: the pointer. -/
def openCall (e : Env) (walk depth : Nat) (s : State) (found : Found) : Option (State × Nat) :=
  if e.volume.header.bytesPerSector / 32 = 0 then none
  else
    (fatOpen e.volume found.text).bind fun fileptr =>
      ((s.print e found.printed).alloc walk depth sizeofFatFilePtr).map fun r => (r.1.storeFile r.2 fileptr, r.2)

/-- `task_exit`: a task other than the kernel's does not return from it. -/
def taskExitCall (s : State) (signal : Nat) : State :=
  { s with
    kernel := s.kernel.taskExit signal
    looping :=
      if dword (s.kernel.sched.mem s.kernel.sched.taskCurrent).id = 0 then s.looping
      else Function.update s.looping s.kernel.sched.taskCurrent true }

/-- What becomes of a system call: the state, the bytes stored in the task's memory, and the value unless the call is stuck
in the loop of `task_exit`. -/
structure Outcome where
  state : State
  out : List UInt8
  value : Option Word

def returned (s : State) (value : Word) : Option Outcome := some ⟨s, [], some value⟩

/-- `syscall_handle`. The interrupts stay off in a loop that it enters. `read` stores its bytes through `rsi` and `put_pixel`
into the framebuffer: neither is taken to meet the kernel's own data. -/
def syscallHandle (e : Env) (walk depth : Nat) (s : State) (found : Found) (cpu : CpuRegister) : Option Outcome :=
  if cpu.rax = 0 then
    (fatReadCall e walk depth s found cpu.rdi.toNat cpu.rdx.toNat).map fun r => ⟨r.1, r.2, some cpu.rax⟩
  else if cpu.rax = 1 then returned s cpu.rax
  else if cpu.rax = 2 then
    (openCall e walk depth s found).map fun r => ⟨r.1, [], some (BitVec.ofNat 64 r.2)⟩
  else if cpu.rax = 3 then (s.free walk cpu.rdi.toNat).map fun t => ⟨t, [], some cpu.rax⟩
  else if cpu.rax = 4 then
    returned { s with drawn := Term.putPixel e.screen (dword cpu.rdi.toNat, dword cpu.rsi.toNat) :: s.drawn } 0
  else if cpu.rax = 5 then
    returned { s with term := Term.termPutc e.screen e.font (cpu.rdi.toNat % 256).toUInt8 s.term } cpu.rax
  else if cpu.rax = 6 then
    if dword (s.kernel.sched.mem s.kernel.sched.taskCurrent).id = 0 then
      returned (taskExitCall s cpu.rdi.toNat) cpu.rax
    else some ⟨{ taskExitCall s cpu.rdi.toNat with masked := true }, [], none⟩
  else returned s cpu.rax

/-! ## Events -/

inductive Event where
  | syscall (cpu : CpuRegister) (found : Found) (out : List UInt8) (value : Option Word)
  | exit (signal : Nat)
  | create (newTask : Nat)
  | tick (cpu : Nat)
  | term (event : Term.Event)

/-- The current task runs code of its own. -/
def State.Runs (s : State) : Prop := s.masked = false ∧ s.looping s.kernel.sched.taskCurrent = false

def State.Open (s : State) (p : Nat) : Prop := s.live p = some sizeofFatFilePtr

/-- The pointers that a task reads and closes are open files, and the size is an `int`. -/
def Allowed (s : State) (cpu : CpuRegister) : Prop :=
  (cpu.rax = 0 → s.Open cpu.rdi.toNat ∧ cpu.rdx.toNat < 2 ^ 31) ∧ (cpu.rax = 3 → s.Open cpu.rdi.toNat)

/-- The bytes that a system call asks `new_alloc` for. -/
def request (e : Env) (cpu : CpuRegister) : Nat :=
  if cpu.rax = 0 then fatSizeSector e.volume else if cpu.rax = 2 then sizeofFatFilePtr else 0

/-- `new_alloc` cuts no block in front of another one and the heap stays in the address space. -/
def Room (heap : Alloc.Heap) (size : Nat) (heap' : Alloc.Heap) : Prop :=
  ¬ Alloc.Overruns heap size ∧ heap'.heapStart + heap'.heapSize < 2 ^ 64

inductive Step (e : Env) : State → Event → State → Prop
  | syscall {s : State} {cpu : CpuRegister} {found : Found} {walk depth : Nat} {o : Outcome} : s.Runs → Allowed s cpu →
      Room s.kernel.heap (request e cpu) o.state.kernel.heap → syscallHandle e walk depth s found cpu = some o →
      Step e s (.syscall cpu found o.out o.value) o.state
  | exit {s : State} {signal : Nat} : s.Runs → Step e s (.exit signal) (taskExitCall s signal)
  | create {s : State} {walk depth newTask : Nat} {k : Task.Kernel} : s.Runs → s.kernel.sched.idTask < 2 ^ 32 - 1 →
      s.kernel.taskCreate walk depth = some (k, newTask) → Room s.kernel.heap sizeofTaskInfo k.heap →
      Step e s (.create newTask) { s with
        kernel := k
        live := Function.update s.live newTask (some sizeofTaskInfo)
        looping := Function.update s.looping newTask false }
  | tick {s : State} {walk cpu : Nat} {k : Task.Kernel} : s.masked = false → s.kernel.irqTimeHandle walk cpu = some k →
      Step e s (.tick cpu) { s with
        kernel := k
        live := if s.kernel.Removes then Function.update s.live s.kernel.sched.taskCurrent none else s.live }
  | term {s : State} {event : Term.Event} {t : Term.State} : s.Runs → Term.Room s.term event →
      Term.Step e.screen e.font s.term event t → Step e s (.term event) { s with term := t }

/-- The kernel with its first page of heap and its own task. -/
def State.boot (e : Env) (mem : Nat → Alloc.AllocBlock) (heapStart kernelTask kernelStackBottom : Nat)
    (tasks : Nat → Task.TaskInfo) (paging : Paging.State) (files : Nat → FatFilePtr) (logs : Nat → UInt8) : State where
  kernel := ⟨Task.taskInit tasks kernelTask kernelStackBottom, Alloc.initAlloc mem heapStart, paging⟩
  live _ := none
  files := files
  term := Term.termStart e.screen e.font logs
  drawn := []
  looping _ := false
  masked := false

/-! ## The invariant -/

/-- The tasks of the list but the kernel's are in blocks that `new_alloc` gave for them. -/
def Recorded (s : State) (l : List Nat) : Prop := ∀ a ∈ l, a ≠ s.kernel.sched.kernelTask → s.live a = some sizeofTaskInfo

structure Inv (e : Env) (s : State) : Prop where
  heap : ∃ bs, Alloc.Inv ⟨s.kernel.heap, s.live⟩ bs
  tasks : ∃ created l, Task.Inv s.kernel.sched created l ∧ Recorded s l
  below : s.kernel.sched.kernelTask < s.kernel.heap.heapStart
  term : Term.Typed e.screen s.term

/-- What an event needs of the disk and the screen. -/
structure Suits (e : Env) : Prop where
  sector : fatSizeSector e.volume + sizeofAllocBlock < 2 ^ 31
  screen : Term.Suits e.screen
  addressable : Term.Addressable e.screen

variable {e : Env} {s t : State} {event : Event} {walk depth size p n a cpu : Nat} {heap heap' : Alloc.Heap}
  {live : Nat → Option Nat} {bs : List Alloc.Block} {l : List Nat}

/-- A request that returns gives a pointer that nobody holds. -/
theorem heap_alloc (hi : Alloc.Inv ⟨heap, live⟩ bs) (hsize : size ≠ 0) (hn : size + sizeofAllocBlock < 2 ^ 31)
    (hroom : Room heap size heap') (hr : Alloc.newAlloc walk depth heap size = some (heap', p)) :
    live p = none ∧ heap.heapStart < p ∧ p < 2 ^ 64 ∧ heap'.heapStart = heap.heapStart ∧
      ∃ bs', Alloc.Inv ⟨heap', Function.update live p (some size)⟩ bs' := by
  obtain ⟨hov, htop⟩ := hroom
  obtain ⟨o, c, hat, hfree, hp, hlt, -⟩ := Alloc.newAlloc_block hi.tiled hi.top hsize hn hr
  obtain ⟨hstart, -, o', bs', ha, ht, hp'⟩ := hi.served hsize hn hov hr htop
  have h17 : sizeofAllocBlock = 17 := rfl
  simp only at hp hp'
  refine ⟨?_, by omega, hlt, hstart, bs', ?_⟩
  · cases hlive : live p with
    | none => rfl
    | some m =>
        obtain ⟨o'', b, hb, hused, hpb, -⟩ := hi.live p m hlive
        simp only at hpb
        obtain rfl : o = o'' := by omega
        rw [hat.unique hi.tiled.pos hb, hused] at hfree
        cases hfree
  · have h := hi.alloc ha ht hstart htop
    simp only at h
    rwa [← hp'] at h

theorem heap_free (hi : Alloc.Inv ⟨heap, live⟩ bs) (hp : live p = some n) (walk : Nat) :
    ∃ heap', Alloc.freeAlloc walk heap p = some heap' ∧ heap'.heapStart = heap.heapStart ∧
      heap'.heapSize = heap.heapSize ∧ ∃ bs', Alloc.Inv ⟨heap', Function.update live p none⟩ bs' := by
  obtain ⟨heap', hr⟩ : ∃ heap', Alloc.freeAlloc walk heap p = some heap' := by
    rw [Alloc.freeAlloc_eq]
    split_ifs <;> exact ⟨_, rfl⟩
  obtain ⟨o, bs', hp', hstart, hsize, hrel, ht⟩ := hi.releases hp hr
  have h := hi.free hrel ht hstart hsize
  rw [← hp'] at h
  exact ⟨heap', hr, hstart, hsize, bs', h⟩

/-- `free_alloc` leaves the size of the heap alone, whatever it is called with. -/
theorem freeAlloc_size (hr : Alloc.freeAlloc walk heap p = some heap') :
    heap'.heapStart = heap.heapStart ∧ heap'.heapSize = heap.heapSize := by
  rw [Alloc.freeAlloc_eq] at hr
  split_ifs at hr
  · rw [← Option.some.inj hr]
    exact ⟨rfl, rfl⟩
  · rw [← Option.some.inj hr]
    unfold Alloc.mergeNext
    split_ifs <;> exact ⟨rfl, rfl⟩

theorem heap_borrow (hi : Alloc.Inv ⟨heap, live⟩ bs) (hsize : size ≠ 0) (hn : size + sizeofAllocBlock < 2 ^ 31)
    {heap₁ : Alloc.Heap} (hr : Alloc.newAlloc walk depth heap size = some (heap₁, p))
    (hf : Alloc.freeAlloc walk heap₁ p = some heap') (hroom : Room heap size heap') :
    p ≠ 0 ∧ Function.update (Function.update live p (some size)) p none = live ∧ heap'.heapStart = heap.heapStart ∧
      ∃ bs', Alloc.Inv ⟨heap', live⟩ bs' := by
  obtain ⟨hstart, hsame⟩ := freeAlloc_size hf
  have hroom₁ : Room heap size heap₁ := ⟨hroom.1, by rw [← hstart, ← hsame]; exact hroom.2⟩
  obtain ⟨hnone, hlt, -, hstart₁, bs₁, hi₁⟩ := heap_alloc hi hsize hn hroom₁ hr
  obtain ⟨heap₂, hf', -, -, bs', hi'⟩ := heap_free hi₁ (Function.update_self p (some size) live) walk
  have hback : Function.update (Function.update live p (some size)) p none = live := by
    rw [Function.update_idem, ← hnone, Function.update_eq_self]
  rw [hf, Option.some.injEq] at hf'
  rw [← hf', hback] at hi'
  exact ⟨by omega, hback, hstart.trans hstart₁, bs', hi'⟩

/-! ## Interrupts of the timer -/

/-- The list after an interrupt of the timer: the current task is taken off it, if it is removed. -/
theorem tick_list {sched sched' : Task.Sched} {created : Nat} (hi : Task.Inv sched created l)
    (ht : Task.irqTimeHandle walk sched cpu = .done sched') :
    ∃ l', Task.Inv sched' created l' ∧ (∀ a ∈ l', a ∈ l) ∧
      (dword (sched.time + 1) % 1000 ≠ 0 → ¬ (sched.mem sched.taskCurrent).Running → sched.taskCurrent ∉ l') := by
  have hlater : Task.Inv { sched with time := dword (sched.time + 1) } created l :=
    ⟨hi.chain, hi.kernel, hi.kernelId, hi.running, hi.current, hi.nodup, hi.bound, hi.idTask, hi.created, hi.stopped⟩
  have hdone := ht
  unfold Task.irqTimeHandle at ht
  simp only at ht
  split_ifs at ht with h0 hr
  · cases ht
    exact ⟨l, hlater, fun a ha => ha, fun h => absurd h0 h⟩
  · cases ht
    exact ⟨l, (hlater.switch hr cpu).1, fun a ha => ha, fun _ h => absurd hr h⟩
  · have hne : sched.taskCurrent ≠ sched.kernelTask := fun h => hr (h ▸ hi.running)
    have htail : sched.taskCurrent ∈ l.tail := by
      obtain ⟨x, m, rfl⟩ := List.exists_cons_of_ne_nil hi.chain.ne_nil
      rcases List.mem_cons.mp hi.current with h | h
      · exact absurd (h.trans hi.chain.head_eq.symm) hne
      · exact h
    obtain ⟨pre, q, post, rfl, hwalk⟩ := Task.findPrev_eq hi.chain htail
    obtain ⟨l', hl', -⟩ := (hi.tick cpu).2.2 _ _ hdone
    rw [hwalk] at ht
    split_ifs at ht
    · cases ht
      have heq : l' = pre ++ q :: post := hl'.chain.unique (Task.unlink_list hlater.chain)
      rw [heq] at hl'
      refine ⟨_, hl', fun a ha => ?_, fun _ _ hmem => ?_⟩
      · rcases List.mem_append.mp ha with ha | ha
        · exact List.mem_append_left _ ha
        · refine List.mem_append_right _ ?_
          rcases List.mem_cons.mp ha with rfl | ha
          · exact List.mem_cons_self
          · exact List.mem_cons_of_mem _ (List.mem_cons_of_mem _ ha)
      · have hnd := hi.chain.nodup
        rw [show pre ++ q :: sched.taskCurrent :: post = (pre ++ [q]) ++ sched.taskCurrent :: post by simp] at hnd
        rw [show pre ++ q :: post = (pre ++ [q]) ++ post by simp] at hmem
        exact (List.nodup_middle.mp hnd |> List.nodup_cons.mp).1 hmem

theorem kernelTask_tick {sched sched' : Task.Sched} (h : Task.irqTimeHandle walk sched cpu = .done sched') :
    sched'.kernelTask = sched.kernelTask := by
  obtain ⟨-, rfl⟩ | ⟨-, -, rfl⟩ | ⟨-, -, prev, rfl⟩ := Task.irqTimeHandle_cases h <;> rfl

theorem tick_heap {k k' : Task.Kernel} (h : k.irqTimeHandle walk cpu = some k') :
    if k.Removes then Alloc.freeAlloc walk k.heap k.sched.taskCurrent = some k'.heap else k'.heap = k.heap := by
  unfold Task.Kernel.irqTimeHandle at h
  simp only at h
  by_cases h0 : dword (k.sched.time + 1) % 1000 = 0
  · rw [if_pos h0] at h
    rw [if_neg fun hrem => hrem.1 h0, ← Option.some.inj h]
  · rw [if_neg h0] at h
    by_cases hr : (k.sched.mem k.sched.taskCurrent).Running
    · rw [if_pos hr] at h
      rw [if_neg fun hrem => hrem.2 hr, ← Option.some.inj h]
    · rw [if_neg hr] at h
      rw [if_pos ⟨h0, hr⟩]
      unfold Task.Kernel.taskRemove at h
      simp only at h
      split at h
      · obtain ⟨heap, hheap, rfl⟩ := Option.map_eq_some_iff.mp h
        exact hheap
      · cases h
      · cases h

theorem Inv.tick (hi : Inv e s) {k : Task.Kernel} (h : s.kernel.irqTimeHandle walk cpu = some k) :
    Inv e { s with
      kernel := k
      live := if s.kernel.Removes then Function.update s.live s.kernel.sched.taskCurrent none else s.live } := by
  obtain ⟨bs, hheap⟩ := hi.heap
  obtain ⟨created, l, htasks, hrec⟩ := hi.tasks
  obtain ⟨l', htasks', hsub, hgone⟩ := tick_list htasks (Task.sched_irqTimeHandle h)
  have hk : k.sched.kernelTask = s.kernel.sched.kernelTask := kernelTask_tick (Task.sched_irqTimeHandle h)
  have hheap' := tick_heap h
  by_cases hrem : s.kernel.Removes
  · rw [if_pos hrem] at hheap' ⊢
    have hcur : s.live s.kernel.sched.taskCurrent = some sizeofTaskInfo := by
      refine hrec _ htasks.current fun heq => hrem.2 ?_
      rw [heq]
      exact htasks.running
    obtain ⟨heap', hr, hstart, -, hfree⟩ := heap_free hheap hcur walk
    rw [hheap', Option.some.injEq] at hr
    subst hr
    refine ⟨hfree, ⟨created, l', htasks', fun a ha hne => ?_⟩, ?_, hi.term⟩
    · have hac : a ≠ s.kernel.sched.taskCurrent := fun heq => hgone hrem.1 hrem.2 (heq ▸ ha)
      exact (Function.update_of_ne hac _ _).trans (hrec a (hsub a ha) (hk ▸ hne))
    · show k.sched.kernelTask < k.heap.heapStart
      rw [hk, hstart]
      exact hi.below
  · rw [if_neg hrem] at hheap' ⊢
    refine ⟨⟨bs, ?_⟩, ⟨created, l', htasks', fun a ha hne => hrec a (hsub a ha) (hk ▸ hne)⟩, ?_, hi.term⟩
    · show Alloc.Inv ⟨k.heap, s.live⟩ bs
      rw [hheap']
      exact hheap
    · show k.sched.kernelTask < k.heap.heapStart
      rw [hk, hheap']
      exact hi.below

/-! ## The other events -/

theorem Inv.taskExitCall (hi : Inv e s) (signal : Nat) : Inv e (taskExitCall s signal) := by
  obtain ⟨created, l, htasks, hrec⟩ := hi.tasks
  have hk : (Task.taskExit s.kernel.sched signal).kernelTask = s.kernel.sched.kernelTask := by
    unfold Task.taskExit
    split_ifs <;> rfl
  refine ⟨hi.heap, ⟨created, l, (htasks.exit signal).1, fun a ha hne => hrec a ha fun heq => hne (heq.trans hk.symm)⟩, ?_,
    hi.term⟩
  show (Task.taskExit s.kernel.sched signal).kernelTask < _
  rw [hk]
  exact hi.below

theorem Inv.create (hi : Inv e s) {newTask : Nat} {k : Task.Kernel} (hid : s.kernel.sched.idTask < 2 ^ 32 - 1)
    (h : s.kernel.taskCreate walk depth = some (k, newTask)) (hroom : Room s.kernel.heap sizeofTaskInfo k.heap) :
    s.live newTask = none ∧ Inv e { s with
      kernel := k
      live := Function.update s.live newTask (some sizeofTaskInfo)
      looping := Function.update s.looping newTask false } := by
  obtain ⟨bs, hheap⟩ := hi.heap
  obtain ⟨created, l, htasks, hrec⟩ := hi.tasks
  obtain ⟨hnew, paging, stackProvider, -, -, hsched⟩ := Task.taskCreate_cases h
  obtain ⟨hnone, hlt, -, hstart, halloc⟩ := heap_alloc hheap (by decide) (by decide) hroom hnew
  have hbelow := hi.below
  have hfresh : newTask ∉ l := by
    intro hmem
    have hlive := hrec newTask hmem (by omega)
    rw [hnone] at hlive
    cases hlive
  have hf : Task.Fresh s.kernel.sched newTask :=
    ⟨by omega, fun l' hl' => (hl'.unique htasks.chain) ▸ hfresh⟩
  have hcreated : created + 1 < 2 ^ 32 - 1 := by
    rw [← htasks.idTask]
    exact hid
  have hk : k.sched.kernelTask = s.kernel.sched.kernelTask := by
    obtain ⟨crt, -, hsched⟩ := Option.map_eq_some_iff.mp hsched
    rw [← hsched]
    rfl
  refine ⟨hnone, halloc, ⟨created + 1, l ++ [newTask], (htasks.create hf hcreated hsched).1, fun a ha hne => ?_⟩, ?_,
    hi.term⟩
  · show Function.update s.live newTask (some sizeofTaskInfo) a = _
    rcases List.mem_append.mp ha with ha | ha
    · have hanew : a ≠ newTask := fun heq => hfresh (heq ▸ ha)
      rw [Function.update_of_ne hanew]
      exact hrec a ha (hk ▸ hne)
    · rw [List.mem_singleton.mp ha]
      exact Function.update_self ..
  · show k.sched.kernelTask < k.heap.heapStart
    rw [hk, hstart]
    exact hbelow

/-- The tasks are not touched where the heap changes and no record is lost. -/
theorem Inv.of_heap (hi : Inv e s) (hsched : t.kernel.sched = s.kernel.sched) (hterm : t.term = s.term)
    (hstart : t.kernel.heap.heapStart = s.kernel.heap.heapStart)
    (hheap : ∃ bs, Alloc.Inv ⟨t.kernel.heap, t.live⟩ bs)
    (hlive : ∀ a, s.live a = some sizeofTaskInfo → t.live a = some sizeofTaskInfo) : Inv e t := by
  obtain ⟨created, l, htasks, hrec⟩ := hi.tasks
  refine ⟨hheap, ⟨created, l, hsched ▸ htasks, fun a ha hne => hlive a (hrec a ha (hsched ▸ hne))⟩, ?_, hterm ▸ hi.term⟩
  rw [hsched, hstart]
  exact hi.below

/-- `read` borrows a buffer, and moves on in its file. -/
theorem fatReadCall_spec (hi : Inv e s) {found : Found} {file : Nat} {out : List UInt8}
    (hsec : fatSizeSector e.volume + sizeofAllocBlock < 2 ^ 31)
    (h : fatReadCall e walk depth s found file size = some (t, out))
    (hroom : Room s.kernel.heap (fatSizeSector e.volume) t.kernel.heap) :
    Inv e t ∧ t.live = s.live ∧ out = (fatRead e.volume found.buf (s.files file) size).out ∧
      t.files = Function.update s.files file (fatRead e.volume found.buf (s.files file) size).fptr := by
  obtain ⟨bs, hheap⟩ := hi.heap
  unfold fatReadCall at h
  split_ifs at h with h0
  obtain ⟨r, hr, h⟩ := Option.bind_eq_some_iff.mp h
  obtain ⟨t', hfree, heq⟩ := Option.map_eq_some_iff.mp h
  obtain ⟨rfl, rfl⟩ := Prod.mk.inj heq
  obtain ⟨⟨heap₁, p⟩, hnew, rfl⟩ := Option.map_eq_some_iff.mp hr
  obtain ⟨heap', hf, rfl⟩ := Option.map_eq_some_iff.mp hfree
  obtain ⟨hp, hback, hstart, hheap'⟩ := heap_borrow hheap (fun h => h0 (.inr h)) hsec hnew hf hroom
  have hlive : Function.update (if p = 0 then s.live else Function.update s.live p (some (fatSizeSector e.volume))) p none =
      s.live := by
    rw [if_neg hp]
    exact hback
  refine ⟨hi.of_heap rfl rfl hstart ?_ fun a ha => ?_, hlive, rfl, rfl⟩
  · show ∃ bs, Alloc.Inv ⟨heap', Function.update (if p = 0 then s.live else _) p none⟩ bs
    rw [hlive]
    exact hheap'
  · exact (congrFun hlive a).trans ha

@[simp] theorem State.print_live (text : List UInt8) : (s.print e text).live = s.live := rfl

theorem Inv.print (he : Suits e) (hi : Inv e s) (text : List UInt8) : Inv e (s.print e text) where
  heap := hi.heap
  tasks := hi.tasks
  below := hi.below
  term := by
    refine Term.foldl_termPutc (fun t c ht => ?_) text hi.term
    exact ht.step he.screen he.addressable (e := .putc c) trivial .putc

theorem openCall_spec (he : Suits e) (hi : Inv e s) {found : Found} (h : openCall e walk depth s found = some (t, p))
    (hroom : Room s.kernel.heap sizeofFatFilePtr t.kernel.heap) :
    Inv e t ∧ p < 2 ^ 64 ∧ s.live p = none ∧ t.live = Function.update s.live p (some sizeofFatFilePtr) ∧
      ∃ fileptr, fatOpen e.volume found.text = some fileptr ∧ t.files = Function.update s.files p fileptr := by
  obtain ⟨bs, hheap⟩ := hi.heap
  unfold openCall at h
  split_ifs at h with h0
  obtain ⟨fileptr, hopen, h⟩ := Option.bind_eq_some_iff.mp h
  obtain ⟨r, hr, heq⟩ := Option.map_eq_some_iff.mp h
  obtain ⟨rfl, rfl⟩ := Prod.mk.inj heq
  obtain ⟨⟨heap', q⟩, hnew, rfl⟩ := Option.map_eq_some_iff.mp hr
  obtain ⟨hnone, hlt, htop, hstart, hheap'⟩ := heap_alloc hheap (by decide) (by decide) hroom hnew
  have hlive : (if q = 0 then s.live else Function.update s.live q (some sizeofFatFilePtr)) =
      Function.update s.live q (some sizeofFatFilePtr) := if_neg (by omega)
  refine ⟨(hi.print he found.printed).of_heap rfl rfl hstart ?_ fun a ha => ?_, htop, hnone, hlive, fileptr, hopen, rfl⟩
  · show ∃ bs, Alloc.Inv ⟨heap', if q = 0 then s.live else Function.update s.live q (some sizeofFatFilePtr)⟩ bs
    rw [hlive]
    exact hheap'
  · show (if q = 0 then s.live else Function.update s.live q (some sizeofFatFilePtr)) a = _
    have hne : a ≠ q := by
      rintro rfl
      rw [State.print_live, hnone] at ha
      cases ha
    rw [hlive, Function.update_of_ne hne]
    exact ha

theorem free_spec (hi : Inv e s) (hopen : s.Open p) (h : s.free walk p = some t) :
    Inv e t ∧ t.live = Function.update s.live p none ∧ t.files = s.files := by
  obtain ⟨bs, hheap⟩ := hi.heap
  obtain ⟨heap', hf, rfl⟩ := Option.map_eq_some_iff.mp h
  obtain ⟨heap₁, hf', hstart, -, hheap'⟩ := heap_free hheap hopen walk
  rw [hf, Option.some.injEq] at hf'
  subst hf'
  refine ⟨hi.of_heap rfl rfl hstart hheap' fun a ha => ?_, rfl, rfl⟩
  have hne : a ≠ p := by
    rintro rfl
    rw [hopen] at ha
    cases ha
  exact (Function.update_of_ne hne _ _).trans ha

theorem Inv.syscall (he : Suits e) (hi : Inv e s) {cpu : CpuRegister} {found : Found} {o : Outcome}
    (hallowed : Allowed s cpu) (hroom : Room s.kernel.heap (request e cpu) o.state.kernel.heap)
    (h : syscallHandle e walk depth s found cpu = some o) : Inv e o.state := by
  have hterm : ∀ c, Term.Typed e.screen (Term.termPutc e.screen e.font c s.term) := fun c =>
    hi.term.step he.screen he.addressable (e := .putc c) trivial .putc
  unfold syscallHandle returned at h
  unfold request at hroom
  split_ifs at h with h0 h1 h2 h3 h4 h5 h6 hid
  · rw [if_pos h0] at hroom
    obtain ⟨r, hr, rfl⟩ := Option.map_eq_some_iff.mp h
    exact (fatReadCall_spec hi he.sector hr hroom).1
  · cases h
    exact hi
  · rw [if_neg h0, if_pos h2] at hroom
    obtain ⟨r, hr, rfl⟩ := Option.map_eq_some_iff.mp h
    exact (openCall_spec he hi hr hroom).1
  · obtain ⟨t, ht, rfl⟩ := Option.map_eq_some_iff.mp h
    exact (free_spec hi (hallowed.2 h3) ht).1
  · cases h
    exact ⟨hi.heap, hi.tasks, hi.below, hi.term⟩
  · cases h
    exact ⟨hi.heap, hi.tasks, hi.below, hterm _⟩
  · cases h
    exact hi.taskExitCall _
  · cases h
    have hexit := hi.taskExitCall cpu.rdi.toNat
    exact ⟨hexit.heap, hexit.tasks, hexit.below, hexit.term⟩
  · cases h
    exact hi

theorem Inv.step (he : Suits e) (hi : Inv e s) (hs : Step e s event t) : Inv e t := by
  cases hs with
  | syscall _ hallowed hroom h => exact hi.syscall he hallowed hroom h
  | exit => exact hi.taskExitCall _
  | create _ hid h hroom => exact (hi.create hid h hroom).2
  | tick _ h => exact hi.tick h
  | term _ hroom h => exact ⟨hi.heap, hi.tasks, hi.below, hi.term.step he.screen he.addressable hroom h⟩

/-! ## Runs -/

theorem inv_boot (he : Suits e) {mem : Nat → Alloc.AllocBlock} {heapStart kernelTask kernelStackBottom : Nat}
    {tasks : Nat → Task.TaskInfo} {paging : Paging.State} {files : Nat → FatFilePtr} {logs : Nat → UInt8}
    (hheap : Alloc.Linked heapStart) (hkernel : kernelTask ≠ 0) (hbelow : kernelTask < heapStart) :
    Inv e (.boot e mem heapStart kernelTask kernelStackBottom tasks paging files logs) where
  heap := ⟨_, Alloc.inv_boot hheap⟩
  tasks := by
    refine ⟨0, [kernelTask], Task.inv_init hkernel, fun a ha hne => ?_⟩
    exact absurd (List.mem_singleton.mp ha) hne
  below := hbelow
  term := by
    have hinit : Term.OnScreen e.screen (Term.State.init logs) := he.screen.onScreen_home fun _ hp => nomatch hp
    show Term.Typed e.screen (Term.termStart e.screen e.font logs)
    exact .termDrawChar he.screen he.addressable hinit (Nat.zero_le _) (Nat.zero_le _) _

def smallRecord : List UInt8 :=
  [0x41, 0x20, 0x20, 0x20, 0x20, 0x20, 0x20, 0x20, 0x54, 0x58, 0x54, 0x20] ++ List.replicate 14 0 ++ [2] ++
    List.replicate 5 0

def listedEnv : Env where
  volume := { smallVolume with disk := fun lba i => if lba = 2 then smallRecord.getD i 0 else smallVolume.disk lba i }
  screen := Term.smallScreen
  font := Term.barFont

def smallStart : State :=
  .boot listedEnv (fun _ => ⟨0, 0, 0⟩) 0xFFFFFFFF80200000 0xFFFFFFFF80150000 0x120000 (fun _ => ⟨0, 0, 0, 0, 0, 0⟩)
    ⟨fun _ _ => 0, fun _ => 0, 0x1000, 0⟩ (fun _ => ⟨0, 0, 0, 0⟩) fun _ => 0

end HaOS.Sys
