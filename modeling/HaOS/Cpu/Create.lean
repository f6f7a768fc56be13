import HaOS.Cpu.Switch

/-!
# A new task (`task_create`, `kernel/process/task.S`; `task_create_impl`, `kernel/process/task.c`)

* `taskCreateEntry` : what `task_create` pushes before it calls `task_create_impl`;
* `taskFrame`, `newStack` : the frame that `task_create_impl` builds on the new task's stack; `newStack_frame` : it lies
  there;
* `switchReturn_taskFrame` : what `switch_task` restores from it;
* `Waiting` : nothing touches the frame until the task is resumed;
* `starts_iff` : the task starts with its arguments exactly when the ones that are exchanged are equal.
-/

namespace HaOS.Cpu
open HaOS.Task (taskCreate sizeofFrame)
open Lib (WordsAt pushWords Reaches Guarded)

/-- From the call of `task_create` to that of `task_create_impl`, which gets the stack pointer. -/
def taskCreateEntry (m : Machine) : Machine :=
  let m := m.push m.ctx.rbp
  let m := { m with ctx := m.ctx.set m.ctx.rsp .rbp }
  let m :=
    if m.ctx.rsi = 0 then m.pushes [0, 0, 0, 0, m.ctx.rsi, m.ctx.rdi]
    else m.pushes [m.ctx.r9, m.ctx.r8, m.ctx.rdx, m.ctx.rcx, m.ctx.rsi, m.ctx.rdi]
  { m with ctx := m.ctx.set m.ctx.rsp .rdi }

def InPage (provider x : Word) : Prop := (x - provider).toNat < 0x1000

instance (provider x : Word) : Decidable (InPage provider x) := inferInstanceAs (Decidable (_ < _))

/-- `address`, and `__args[ i ]`. -/
def taskAddress (m : Machine) : Word := m.mem m.ctx.rdi

def taskArgs (m : Machine) (i : Nat) : Word := m.mem (m.ctx.rdi + 16#64 + BitVec.ofNat 64 (8 * i))

/-- What is pushed from `ss` to `rip`, -/
def returnWords (m : Machine) (top : Word) : List Word :=
  [m.ctx.ss.setWidth 64, top - 8, 0x202, m.ctx.cs.setWidth 64, taskAddress m]

/-- and from `r15` to `rax`. -/
def registerWords (m : Machine) (top : Word) : List Word :=
  [0, 0, 0, 0, 0, 0, taskArgs m 5, taskArgs m 4, taskArgs m 1, taskArgs m 0, top, 0, 0, taskArgs m 3, taskArgs m 2, 0]

/-- The memory after `task_create_impl` has built the frame, called as in `m`: the page is zeroed, and `subq` leaves out two
words before the registers and four behind them. -/
def newStack (m : Machine) (mem : Word → Word) (provider : Word) : Word → Word :=
  let top := provider + 0x1000
  let mem := fun x => if InPage provider x then 0 else mem x
  let mem := pushWords mem top (returnWords m top)
  pushWords mem (top - 40 - 0x10) (registerWords m top)

variable {m : Machine} {mem : Word → Word} {provider sp : Word} {s t u : State} {newTask argc : Nat} {ws : List Word}

/-! ## The frame -/

def taskFrame (m : Machine) (top : Word) : List Word :=
  List.replicate 4 0 ++ ((registerWords m top).reverse ++ (List.replicate 2 0 ++ (returnWords m top).reverse))

theorem newStack_frame (m : Machine) (mem : Word → Word) (provider : Word) :
    WordsAt (newStack m mem provider) (provider + 0x1000 - 216) (taskFrame m (provider + 0x1000)) := by
  have hregs : ∀ mem sp, WordsAt (pushWords mem sp (registerWords m (provider + 0x1000))) (sp - 128#64)
      (registerWords m (provider + 0x1000)).reverse := fun mem sp => Lib.wordsAt_pushWords mem sp (by simp [registerWords])
  have hret : ∀ mem sp, WordsAt (pushWords mem sp (returnWords m (provider + 0x1000))) (sp - 40#64)
      (returnWords m (provider + 0x1000)).reverse := fun mem sp => Lib.wordsAt_pushWords mem sp (by simp [returnWords])
  have hoff : ∀ i, i < 4 ∨ 20 ≤ i ∧ i < 27 →
      newStack m mem provider (provider + 0x1000 - 216 + BitVec.ofNat 64 (8 * i)) =
        pushWords (fun x => if InPage provider x then 0 else mem x) (provider + 0x1000)
          (returnWords m (provider + 0x1000)) (provider + 0x1000 - 216 + BitVec.ofNat 64 (8 * i)) := by
    intro i hi
    refine Lib.pushWords_of_ne fun j hj heq => ?_
    have hlen : j < 16 := by simpa [registerWords] using hj
    bv_omega
  have hzero : ∀ i, i < 4 ∨ 20 ≤ i ∧ i < 22 →
      newStack m mem provider (provider + 0x1000 - 216 + BitVec.ofNat 64 (8 * i)) = 0 := by
    intro i hi
    rw [hoff i (by omega), Lib.pushWords_of_ne]
    · refine if_pos ?_
      unfold InPage
      bv_omega
    · intro j hj heq
      have hlen : j < 5 := by simpa [returnWords] using hj
      bv_omega
  have hframe : provider + 0x1000 - 216 + BitVec.ofNat 64 (8 * 4) = provider + 0x1000 - 40 - 0x10 - 128#64 := by
    bv_omega
  have hgap : ∀ i, provider + 0x1000 - 216 + BitVec.ofNat 64 (8 * 4) + BitVec.ofNat 64 (8 * 16) + BitVec.ofNat 64 (8 * i) =
      provider + 0x1000 - 216 + BitVec.ofNat 64 (8 * (20 + i)) := by
    intro i
    bv_omega
  have htop : provider + 0x1000 - 216 + BitVec.ofNat 64 (8 * 4) + BitVec.ofNat 64 (8 * 16) + BitVec.ofNat 64 (8 * 2) =
      provider + 0x1000 - 40#64 := by
    bv_omega
  rw [taskFrame, Lib.wordsAt_append, Lib.wordsAt_append, Lib.wordsAt_append]
  refine ⟨fun i hi => ?_, ?_, fun i hi => ?_, ?_⟩
  · rw [List.length_replicate] at hi
    rw [List.getElem_replicate]
    exact hzero i (.inl hi)
  · rw [List.length_replicate, hframe, newStack]
    exact hregs _ _
  · rw [List.length_replicate] at hi
    rw [List.getElem_replicate, List.length_replicate, List.length_reverse]
    exact (congrArg _ (hgap i)).trans (hzero (20 + i) (by omega))
  · rw [List.length_replicate, List.length_replicate, List.length_reverse]
    show WordsAt _ (provider + 0x1000 - 216 + BitVec.ofNat 64 (8 * 4) + BitVec.ofNat 64 (8 * 16) + BitVec.ofNat 64 (8 * 2)) _
    rw [htop]
    refine (hret (fun x => if InPage provider x then 0 else mem x) (provider + 0x1000)).congr fun i hi => ?_
    have hlen : i < 5 := by simpa [returnWords] using hi
    have hplace : provider + 0x1000 - 40#64 + BitVec.ofNat 64 (8 * i) =
        provider + 0x1000 - 216 + BitVec.ofNat 64 (8 * (22 + i)) := by
      bv_omega
    rw [hplace]
    exact hoff (22 + i) (by omega)

def startContext (m : Machine) (top : Word) : Context where
  rax := 0
  rbx := 0
  rcx := taskArgs m 2
  rdx := taskArgs m 3
  rsp := top - 8
  rbp := top
  rsi := taskArgs m 1
  rdi := taskArgs m 0
  r8 := taskArgs m 4
  r9 := taskArgs m 5
  r10 := 0
  r11 := 0
  r12 := 0
  r13 := 0
  r14 := 0
  r15 := 0
  rip := taskAddress m
  rflags := 0x202
  cs := m.ctx.cs
  ss := m.ctx.ss

theorem switchReturn_taskFrame {after : Machine} {top : Word} (h : WordsAt after.mem sp (taskFrame m top)) :
    (switchReturn after sp).ctx = startContext m top := by
  obtain ⟨⟨⟩, cr, mem⟩ := after
  simp only [taskFrame, registerWords, returnWords, List.replicate, List.reverse_cons, List.reverse_nil, List.nil_append,
    List.cons_append, Lib.wordsAt_cons, BitVec.add_assoc, BitVec.reduceAdd] at h
  obtain ⟨-, -, -, -, hax, hcx, hdx, hbx, -, hbp, hdi, hsi, h8, h9, h10, h11, h12, h13, h14, h15, -, -,
    hip, hcs, hflags, hsp, hss, -⟩ := h
  simp only [switchReturn, exec, switchPops, List.foldl, step, Context.set, BitVec.add_assoc, BitVec.reduceAdd, hax, hcx,
    hdx, hbx, hbp, hdi, hsi, h8, h9, h10, h11, h12, h13, h14, h15, hip, hcs, hflags, hsp, hss, startContext]
  simp

theorem pushes_eq (m : Machine) (ws : List Word) :
    m.pushes ws = { m with
      ctx := m.ctx.set (m.ctx.rsp - BitVec.ofNat 64 (8 * ws.length)) .rsp
      mem := pushWords m.mem m.ctx.rsp ws } := by
  induction ws generalizing m with
  | nil =>
      obtain ⟨⟨⟩, cr, mem⟩ := m
      simp [Machine.pushes, Context.set, pushWords]
  | cons w ws ih =>
      have hrsp : m.ctx.rsp - 8 - BitVec.ofNat 64 (8 * ws.length) = m.ctx.rsp - BitVec.ofNat 64 (8 * (w :: ws).length) := by
        rw [List.length_cons]
        bv_omega
      have hrest := ih (m.push w)
      rw [← hrsp]
      exact hrest

/-- The words that `task_create` pushes, for `argc` other than zero. -/
theorem taskCreateEntry_words (hrsi : m.ctx.rsi ≠ 0) :
    WordsAt (taskCreateEntry m).mem (taskCreateEntry m).ctx.rdi
      [m.ctx.rdi, m.ctx.rsi, m.ctx.rcx, m.ctx.rdx, m.ctx.r8, m.ctx.r9, m.ctx.rbp] := by
  have hlen : [m.ctx.rbp, m.ctx.r9, m.ctx.r8, m.ctx.rdx, m.ctx.rcx, m.ctx.rsi, m.ctx.rdi].length < 2 ^ 60 := by
    simp
  have h := Lib.wordsAt_pushWords m.mem m.ctx.rsp hlen
  have hmem : (taskCreateEntry m).mem =
      pushWords m.mem m.ctx.rsp [m.ctx.rbp, m.ctx.r9, m.ctx.r8, m.ctx.rdx, m.ctx.rcx, m.ctx.rsi, m.ctx.rdi] := by
    unfold taskCreateEntry
    simp only [pushes_eq]
    rw [if_neg (show ¬ ((m.push m.ctx.rbp).ctx.set (m.push m.ctx.rbp).ctx.rsp .rbp).rsi = 0 from hrsi)]
    rfl
  have hrdi : (taskCreateEntry m).ctx.rdi = m.ctx.rsp - BitVec.ofNat 64 (8 * 7) := by
    unfold taskCreateEntry
    simp only [pushes_eq]
    rw [if_neg (show ¬ ((m.push m.ctx.rbp).ctx.set (m.push m.ctx.rbp).ctx.rsp .rbp).rsi = 0 from hrsi)]
    show m.ctx.rsp - 8 - BitVec.ofNat 64 (8 * 6) = _
    bv_omega
  rw [hmem, hrdi]
  exact h

/-- The registers hold what `task_create( address, argc, args 1, args 2, .. )` passes. -/
structure Passed (c : Context) (address : Word) (argc : Nat) (args : Nat → Word) : Prop where
  rdi : c.rdi = address
  rsi : c.rsi.setWidth 32 = BitVec.ofNat 32 argc
  rdx : 1 ≤ argc → c.rdx = args 1
  rcx : 2 ≤ argc → c.rcx = args 2
  r8 : 3 ≤ argc → c.r8 = args 3
  r9 : 4 ≤ argc → c.r9 = args 4

theorem Passed.rsi_ne_zero {address : Word} {args : Nat → Word} (h : Passed m.ctx address argc args) (h1 : 1 ≤ argc)
    (h4 : argc ≤ 4) : m.ctx.rsi ≠ 0 := by
  intro h0
  have hrsi := h.rsi
  rw [h0] at hrsi
  have hnat := congrArg BitVec.toNat hrsi
  rw [BitVec.toNat_ofNat] at hnat
  have hzero : (BitVec.setWidth 32 (0 : Word)).toNat = 0 := rfl
  omega

/-- The new task's address and arguments are the words that `task_create` has pushed, the first two in the wrong order. -/
theorem startContext_entry (hrsi : m.ctx.rsi ≠ 0) (top : Word) :
    (startContext (taskCreateEntry m) top).rip = m.ctx.rdi ∧ (startContext (taskCreateEntry m) top).rdi = m.ctx.rcx ∧
      (startContext (taskCreateEntry m) top).rsi = m.ctx.rdx ∧ (startContext (taskCreateEntry m) top).rcx = m.ctx.r8 ∧
      (startContext (taskCreateEntry m) top).rdx = m.ctx.r9 := by
  have h := taskCreateEntry_words hrsi
  simp only [Lib.wordsAt_cons, BitVec.add_assoc, BitVec.reduceAdd] at h
  obtain ⟨hrdi, -, hrcx, hrdx, hr8, hr9, -⟩ := h
  simp only [startContext, taskAddress, taskArgs, BitVec.add_assoc]
  exact ⟨hrdi, hrcx, hrdx, hr8, hr9⟩

theorem segments_entry (m : Machine) : (taskCreateEntry m).ctx.cs = m.ctx.cs ∧ (taskCreateEntry m).ctx.ss = m.ctx.ss := by
  unfold taskCreateEntry
  simp only [pushes_eq]
  split_ifs
  · exact ⟨rfl, rfl⟩
  · exact ⟨rfl, rfl⟩

/-! ## Until the task is resumed -/

/-- The current task has created the task `newTask`, whose stack is the page at `provider`; `mem` is what it has made of the
rest of the memory. -/
def create (s : State) (mem : Word → Word) (sched : Task.Sched) (newTask : Nat) (provider : Word) : State :=
  { s with
    mem := newStack (taskCreateEntry s.machine) mem provider
    sched := sched
    own := Function.update s.own newTask (InPage provider)
    saved := Function.update s.saved newTask (some (startContext (taskCreateEntry s.machine) (provider + 0x1000))) }

/-- The task has not run, and is not created anew. -/
def Sleeps (newTask : Nat) (s : State) (e : Event) : Prop :=
  s.sched.taskCurrent ≠ newTask ∧ ∀ stackProvider, e ≠ .create newTask stackProvider

structure Waiting (newTask : Nat) (ws : List Word) (s : State) : Prop where
  apart : ∀ a b x, s.own a x → s.own b x → a = b
  words : WordsAt s.mem (stackOf s.sched newTask) ws
  own : ∀ x, InFrame (stackOf s.sched newTask) x → s.own newTask x
  saved : ∃ c, s.saved newTask = some c

/-- The handlers keep the words of a task that waits. -/
theorem Waiting.handled {after : Machine} (h : Waiting newTask ws s) (hlen : ws.length = 27)
    (hf : ∀ x, InFrame (irqEntry s.machine).ctx.rsp x → s.own s.sched.taskCurrent x) (hh : Handled s after)
    (hne : s.sched.taskCurrent ≠ newTask) : WordsAt after.mem (stackOf s.sched newTask) ws := by
  obtain ⟨c, hc⟩ := h.saved
  refine h.words.congr fun i hi => ?_
  rw [hh.others newTask c hc hne.symm _ ⟨i, hlen ▸ hi, rfl⟩]
  refine mem_irqEntry_of_ne s.machine fun j hj heq => ?_
  rw [← rsp_irqEntry] at heq
  exact hne (h.apart _ _ _ (hf _ ⟨j, hj, heq⟩) (h.own _ ⟨i, hlen ▸ hi, rfl⟩))

theorem stackOf_irq {sched : Task.Sched} {walk cpu : Nat} (h : Task.irqTimeHandle walk s.sched cpu = .done sched)
    (hne : s.sched.taskCurrent ≠ newTask) : stackOf sched newTask = stackOf s.sched newTask := by
  obtain ⟨-, rfl⟩ | ⟨-, -, rfl⟩ | ⟨-, -, prev, rfl⟩ := Task.irqTimeHandle_cases h
  · rfl
  · simp only [stackOf, Task.stack_switchTask, if_neg hne.symm]
  · simp only [stackOf, Task.stack_unlinkCurrent]

theorem Waiting.step {e : Event} (h : Waiting newTask ws s) (hlen : ws.length = 27) (he : Sleeps newTask s e)
    (hs : Step s e t) : Waiting newTask ws t := by
  obtain ⟨hne, hnew⟩ := he
  cases hs with
  | run hm =>
      refine ⟨h.apart, h.words.congr fun i hi => hm _ fun hcur => ?_, h.own, h.saved⟩
      exact hne (h.apart _ _ _ hcur (h.own _ ⟨i, hlen ▸ hi, rfl⟩))
  | exit =>
      refine ⟨h.apart, ?_, ?_, h.saved⟩
      · simp only [stackOf, Task.stack_taskExit]
        exact h.words
      · simp only [stackOf, Task.stack_taskExit]
        exact h.own
  | @create sched mem stack walk other stackProvider ht hstack hm =>
      have hother : newTask ≠ other := by
        rintro rfl
        exact hnew stackProvider rfl
      have hsp : stackOf sched newTask = stackOf s.sched newTask := by
        simp only [stackOf, Task.stack_taskCreate ht hother]
      refine ⟨apart_update h.apart hstack, ?_, ?_, ?_⟩
      · simp only [hsp]
        refine h.words.congr fun i hi => ?_
        have hx := h.own _ ⟨i, hlen ▸ hi, rfl⟩
        exact hm _ (fun hst => hstack newTask _ hother hst hx) fun hcur => hne (h.apart _ _ _ hcur hx)
      · simp only [hsp, Function.update_of_ne hother]
        exact h.own
      · simp only [Function.update_of_ne hother]
        exact h.saved
  | @irq after sched walk hf hh hr =>
      have hsp := stackOf_irq hr hne
      have hwords := h.handled hlen hf hh hne
      refine ⟨fun a b x ha hb => h.apart a b x (own_resume ha) (own_resume hb), ?_, fun x hx => ?_, ?_⟩
      · rw [resume_mem]
        show WordsAt after.mem (stackOf sched newTask) ws
        rw [hsp]
        exact hwords
      · refine own_resume_of_ne hne.symm (h.own x ?_)
        rw [← hsp]
        exact hx
      · simp only [resume, Function.update_of_ne hne.symm]
        exact h.saved

/-- When an interrupt resumes the task, the words are what `switch_task` finds at its stack pointer. -/
theorem Waiting.restored (h : Waiting newTask ws s) (hlen : ws.length = 27) (hne : s.sched.taskCurrent ≠ newTask)
    (hs : Step s .irq t) (hcur : t.sched.taskCurrent = newTask) :
    ∃ after sp, WordsAt after.mem sp ws ∧ t.ctx = (switchReturn after sp).ctx := by
  cases hs with
  | @irq after sched walk hf hh hr =>
      have hcur' : sched.taskCurrent = newTask := hcur
      refine ⟨after, stackOf s.sched newTask, h.handled hlen hf hh hne, ?_⟩
      have hsp := stackOf_irq hr hne
      have htime : sched.time % 1000 ≠ 0 := by
        obtain ⟨-, rfl⟩ | ⟨htime, -, rfl⟩ | ⟨htime, -, prev, rfl⟩ := Task.irqTimeHandle_cases hr
        · exact absurd hcur' hne
        · exact htime
        · exact htime
      simp only [resume, htime, if_false, hcur', hsp]

/-! ## Where the new task starts -/

theorem stack_newTask {sched : Task.Sched} {walk : Nat}
    (ht : taskCreate walk s.sched newTask provider.toNat = some sched) :
    stackOf sched newTask = provider + 0x1000 - 216 := by
  obtain ⟨crt, -, rfl⟩ := Option.map_eq_some_iff.mp ht
  have hstore : ∀ (u : Task.Sched) (b : Nat),
      ((u.store b { u.mem b with next := newTask }).mem newTask).stack = (u.mem newTask).stack :=
    fun u b => Task.stack_store u b newTask _ rfl
  rw [stackOf, hstore]
  simp only [Task.Sched.store, Function.update_self, sizeofFrame]
  bv_omega

theorem waiting_create {sched : Task.Sched} {walk : Nat} (happart : ∀ a b x, s.own a x → s.own b x → a = b)
    (hpage : ∀ a x, a ≠ newTask → InPage provider x → ¬ s.own a x)
    (ht : taskCreate walk s.sched newTask provider.toNat = some sched) :
    Waiting newTask (taskFrame (taskCreateEntry s.machine) (provider + 0x1000)) (create s mem sched newTask provider) where
  apart := apart_update happart hpage
  words := by
    have h := newStack_frame (taskCreateEntry s.machine) mem provider
    rw [← stack_newTask ht] at h
    exact h
  own x hx := by
    obtain ⟨i, hi, rfl⟩ := hx
    show Function.update s.own newTask (InPage provider) newTask _
    rw [Function.update_self]
    show InPage provider (stackOf sched newTask + _)
    rw [stack_newTask ht]
    unfold InPage
    bv_omega
  saved := ⟨_, Function.update_self ..⟩

/-- However long the new task waits, it starts with what `task_create_impl` has put into its frame. -/
theorem starts {sched : Task.Sched} {walk : Nat} (happart : ∀ a b x, s.own a x → s.own b x → a = b)
    (hpage : ∀ a x, a ≠ newTask → InPage provider x → ¬ s.own a x)
    (ht : taskCreate walk s.sched newTask provider.toNat = some sched)
    (hu : Reaches (Guarded (Sleeps newTask) Step) (create s mem sched newTask provider) u)
    (hne : u.sched.taskCurrent ≠ newTask) (hs : Step u .irq t) (hcur : t.sched.taskCurrent = newTask) :
    t.ctx = startContext (taskCreateEntry s.machine) (provider + 0x1000) := by
  have hlen : (taskFrame (taskCreateEntry s.machine) (provider + 0x1000)).length = 27 := rfl
  have hwait := hu.invariant (fun _ _ _ h hl => h.step hlen hl.1 hl.2) (waiting_create happart hpage ht)
  obtain ⟨after, sp, hwords, hctx⟩ := hwait.restored hlen hne hs hcur
  rw [hctx]
  exact switchReturn_taskFrame hwords

/-- The new task starts as its creator asked, with the arguments `args 1`, .. in the order of the calling convention. -/
def StartsWith (creator c : Context) (address : Word) (argc : Nat) (args : Nat → Word) : Prop :=
  c.rip = address ∧ c.rflags = 0x202 ∧ c.cs = creator.cs ∧ c.ss = creator.ss ∧ (1 ≤ argc → c.rdi = args 1) ∧
    (2 ≤ argc → c.rsi = args 2) ∧ (3 ≤ argc → c.rdx = args 3) ∧ (4 ≤ argc → c.rcx = args 4)

/-- It does exactly when the arguments that `task_create` exchanges are equal: the first and the second, in `rdx` and `rcx`,
and the third and the fourth, in `r8` and `r9`. -/
theorem starts_iff {sched : Task.Sched} {walk : Nat} {address : Word} {args : Nat → Word}
    (h1 : 1 ≤ argc) (h4 : argc ≤ 4) (hp : Passed s.ctx address argc args)
    (happart : ∀ a b x, s.own a x → s.own b x → a = b)
    (hpage : ∀ a x, a ≠ newTask → InPage provider x → ¬ s.own a x)
    (ht : taskCreate walk s.sched newTask provider.toNat = some sched)
    (hu : Reaches (Guarded (Sleeps newTask) Step) (create s mem sched newTask provider) u)
    (hne : u.sched.taskCurrent ≠ newTask) (hs : Step u .irq t) (hcur : t.sched.taskCurrent = newTask) :
    StartsWith s.ctx t.ctx address argc args ↔
      s.ctx.rcx = args 1 ∧ (2 ≤ argc → args 1 = args 2) ∧ (3 ≤ argc → s.ctx.r9 = args 3) ∧ (4 ≤ argc → args 3 = args 4) := by
  have hrsi : s.machine.ctx.rsi ≠ 0 := Passed.rsi_ne_zero (m := s.machine) hp h1 h4
  obtain ⟨hrip, hrdi, hrsi', hrcx, hrdx⟩ := startContext_entry hrsi (provider + 0x1000)
  obtain ⟨hcs, hss⟩ := segments_entry s.machine
  rw [starts happart hpage ht hu hne hs hcur]
  have hr1 := hp.rdx h1
  constructor
  · intro ⟨_, _, _, _, hdi, hsi, hdx, hcx⟩
    refine ⟨hrdi.symm.trans (hdi h1), fun h => ?_, fun h => hrdx.symm.trans (hdx h), fun h => ?_⟩
    · exact hr1.symm.trans (hrsi'.symm.trans (hsi h))
    · exact (hp.r8 (by omega)).symm.trans (hrcx.symm.trans (hcx h))
  · intro ⟨hdi, hsi, hdx, hcx⟩
    refine ⟨hrip.trans hp.rdi, rfl, hcs, hss, fun _ => hrdi.trans hdi, fun h => ?_, fun h => hrdx.trans (hdx h), fun h => ?_⟩
    · exact hrsi'.trans (hr1.trans (hsi h))
    · exact hrcx.trans ((hp.r8 (by omega)).trans (hcx h))

/-- The kernel task, about to call `task_create( 0x100500, 1, 0x7000 )` with any value in `rcx`. -/
def creator (rcx : Word) : State where
  ctx := ⟨0, 0, rcx, 0x7000, 0x8f00, 0x8f80, 1, 0x100500, 0, 0, 0, 0, 0, 0, 0, 0, 0x100000, 0x202, 8, 16⟩
  cr := fun _ => 0
  mem := fun _ => 0
  sched :=
    { mem := fun _ => ⟨0, 0x8000, 0, 1, 0, 0⟩
      kernelTask := 1000, taskCurrent := 1000, taskNext := 1000, idTask := 1, time := 0 }
  own := fun a x => a = 1000 ∧ x < 0x9000#64
  saved := fun _ => none

/-- The scheduler and the state after it. -/
def creatorSched (rcx : Word) : Task.Sched :=
  (taskCreate 1 (creator rcx).sched 2000 (0x9000#64).toNat).get (by rfl)

def newborn (rcx : Word) : State := create (creator rcx) (creator rcx).mem (creatorSched rcx) 2000 0x9000

theorem taskCreate_creator (rcx : Word) :
    taskCreate 1 (creator rcx).sched 2000 (0x9000#64).toNat = some (creatorSched rcx) :=
  (Option.some_get _).symm

theorem passed_creator (rcx : Word) : Passed (creator rcx).ctx 0x100500 1 fun _ => 0x7000 where
  rdi := rfl
  rsi := rfl
  rdx _ := rfl
  rcx h := by omega
  r8 h := by omega
  r9 h := by omega

theorem apart_creator (rcx : Word) : ∀ a b x, (creator rcx).own a x → (creator rcx).own b x → a = b :=
  fun _ _ _ ha hb => ha.1.trans hb.1.symm

theorem page_creator (rcx : Word) : ∀ a x, a ≠ 2000 → InPage 0x9000 x → ¬ (creator rcx).own a x := by
  intro a x _ hx hown
  have hlt := hown.2
  unfold InPage at hx
  bv_omega

theorem step_newborn (rcx : Word) : Step (newborn rcx) .irq (switched (newborn rcx)) := by
  have hown : (newborn rcx).own = fun a x =>
      (if a = 2000 then decide (InPage 0x9000 x) else a = 1000 && decide (x < 0x9000#64)) = true := by
    funext a x
    by_cases ha : a = 2000 <;> simp [newborn, create, creator, ha]
  refine step_switched hown ?_ ?_ ?_
  · have hcur : (newborn rcx).sched.taskCurrent = 1000 := rfl
    have hrsp : (newborn rcx).machine.ctx.rsp = 0x8f00#64 := rfl
    rw [rsp_irqEntry, hcur, frameAddress, hrsp]
    decide +kernel
  · show ¬ dword (0 + 1) % 1000 = 0
    decide
  · show (Task.TaskInfo.mk 0 0x8000 0 1 0 2000).Running
    decide

/-- With `0x7000` in `rcx` too, the task gets its argument. -/
theorem starts_iff_creator : StartsWith (creator 0x7000).ctx (switched (newborn 0x7000)).ctx 0x100500 1 fun _ => 0x7000 := by
  have h := starts_iff (by decide) (by decide) (passed_creator 0x7000) (apart_creator 0x7000) (page_creator 0x7000)
    (taskCreate_creator 0x7000) (Reaches.refl (newborn 0x7000)) (by decide) (step_newborn 0x7000) (by rfl)
  exact h.mpr ⟨rfl, fun h => by omega, fun h => by omega, fun h => by omega⟩

/-- With another value there, it gets that one: this is how `term_exec` starts `elf64_load`. -/
theorem not_starts : ¬ ∀ (s u t : State) (mem : Word → Word) (sched : Task.Sched) (provider address : Word)
    (args : Nat → Word) (newTask walk argc : Nat), 1 ≤ argc → argc ≤ 4 → Passed s.ctx address argc args →
    (∀ a b x, s.own a x → s.own b x → a = b) → (∀ a x, a ≠ newTask → InPage provider x → ¬ s.own a x) →
    taskCreate walk s.sched newTask provider.toNat = some sched →
    Reaches (Guarded (Sleeps newTask) Step) (create s mem sched newTask provider) u → u.sched.taskCurrent ≠ newTask →
    Step u .irq t → t.sched.taskCurrent = newTask → StartsWith s.ctx t.ctx address argc args := by
  intro h
  have hstart := h (creator 5) (newborn 5) (switched (newborn 5)) (creator 5).mem (creatorSched 5) 0x9000 0x100500
    (fun _ => 0x7000) 2000 1 1 (by decide) (by decide) (passed_creator 5) (apart_creator 5) (page_creator 5)
    (taskCreate_creator 5) (Reaches.refl _) (by decide) (step_newborn 5) (by rfl)
  have hctx := starts (apart_creator 5) (page_creator 5) (taskCreate_creator 5) (Reaches.refl (newborn 5)) (by decide)
    (step_newborn 5) (by rfl)
  have hrdi := hstart.2.2.2.2.1 (by decide)
  rw [hctx, (startContext_entry (m := (creator 5).machine) (by decide) _).2.1] at hrdi
  exact absurd hrdi (by decide)

end HaOS.Cpu
