import HaOS.Paging.Stacks
import HaOS.Paging.Usage
import HaOS.Task.Resources

/-!
# The life of a task

* `Exited k k1 k3 newTask` : a task is created, becomes current and calls `task_exit`, with quiet steps in between;
* `Returned` : what is left when it is removed; `Exited.returned` : so it is, and the removal comes to an end;
* `Exact` : no frames but those of tables are left; a creation for which the heap grows leaves more.
-/

namespace HaOS.Task
open Lib (Chain Reaches)
open Alloc (sizeofAllocBlock)
open Paging (Spent OnWindow TreeShaped Bit frames pageSize pagePresent pageReadwrite)

variable {k k1 k3 k4 t : Kernel} {l pre post : List Nat} {bs : List Alloc.Block} {walk depth cpu newTask p f : Nat}
  {fs : List Nat}

/-! ## Creation -/

theorem heapPages_eq (h h' : Alloc.Heap) (s : Paging.State) (flags : Nat) :
    (heapPages h h').foldl (fun s v => Paging.pageMapv s v 0x1000 flags) s =
      (heapPages h h').foldl (Paging.mapvPage flags) s := by
  refine List.foldl_ext _ _ _ fun s v hv => ?_
  obtain ⟨i, -, rfl⟩ := List.mem_map.mp hv
  rw [Paging.pageMapv_page, qword_of_lt (qword_lt _)]

/-- The heap lies in the topmost 2 GB, and the window does not. -/
theorem heapPages_off {h h' : Alloc.Heap} (hbase : 2 ^ 64 - 2 ^ 31 ≤ h.heapStart)
    (htop : h.heapStart + h'.heapSize < 2 ^ 64) : ∀ v ∈ heapPages h h', ¬ OnWindow v := by
  intro v hv
  obtain ⟨i, hi, rfl⟩ := List.mem_map.mp hv
  have hlt := List.mem_range.mp hi
  rw [qword_of_lt (show h.heapSize + i * 0x1000 < 2 ^ 64 by omega), qword_of_lt (by omega)]
  refine Paging.not_onWindow (Paging.tablePath_ne_window ?_)
  omega

/-- The memory a creation needs: no frame is refused, and the heap ends below the top of the address space. -/
structure Enough (k k1 : Kernel) : Prop where
  granted : k1.paging.refused = k.paging.refused
  top : k.heap.heapStart + k1.heap.heapSize < 2 ^ 64

/-- What a creation has done. -/
structure Created (k k1 : Kernel) (l : List Nat) (newTask : Nat) (fs : List Nat) (f : Nat) : Prop where
  queue : Chain k1.sched.next k1.sched.kernelTask (l ++ [newTask])
  nonempty : l ≠ []
  notMem : newTask ∉ l
  id : (k1.sched.mem newTask).id = k.sched.idTask
  stack : (k1.sched.mem newTask).stackProvider = f * pageSize
  place : k.heap.heapStart + sizeofAllocBlock ≤ newTask ∧ newTask < 2 ^ 64
  live : (k1.heap.mem (newTask - sizeofAllocBlock)).available = 0
  spent : Spent (pagePresent ||| pageReadwrite) k.paging k1.paging fs f
  length : fs.length = (k1.heap.heapSize - k.heap.heapSize) / 0x1000

theorem Ready.created (hr : Ready k l bs) (h : k.taskCreate walk depth = some (k1, newTask)) (he : Enough k k1) :
    ∃ fs f, Created k k1 l newTask fs f := by
  obtain ⟨hnew, u, stackProvider, hu, halloc, hsched⟩ := taskCreate_cases h
  obtain ⟨hmem, hlow, hlt, hav⟩ := hr.fresh hnew
  have h17 : sizeofAllocBlock = 17 := rfl
  obtain ⟨hchain, -, -, -, hid, -⟩ := create_list hr.chain (by omega) hmem hsched
  rw [heapPages_eq] at hu
  have href : (Paging.pageAlloc4K u (pagePresent ||| pageReadwrite)).1.refused = k.paging.refused := by
    rw [halloc]
    exact he.granted
  obtain ⟨fs, f, hspent, hlen, hret⟩ := Paging.spent_of_granted hr.tables (by decide) (by decide)
    (heapPages_off hr.base he.top) hu href
  rw [halloc] at hspent hret
  refine ⟨fs, f, hchain, hr.chain.ne_nil, hmem, hid, ?_, ⟨hlow, hlt⟩, hav, hspent, ?_⟩
  · rw [stackProvider_taskCreate hsched]
    exact hret
  · rw [hlen, heapPages, List.length_map, List.length_range]

/-! ## Removal -/

/-- From `k` on a task is created, in `k1`, becomes current and calls `task_exit`, with quiet steps before and after. -/
structure Exited (k k1 k3 : Kernel) (newTask : Nat) : Prop where
  created : ∃ walk depth, k.taskCreate walk depth = some (k1, newTask)
  enough : Enough k k1
  exited : ∃ k2 signal, Reaches Quiet k1 k2 ∧ k2.sched.taskCurrent = newTask ∧ Reaches Quiet (k2.taskExit signal) k3

theorem Exited.kept (h : Exited k k1 k3 newTask) : Kept k1 k3 := by
  obtain ⟨k2, signal, hbefore, -, hafter⟩ := h.exited
  exact ((kept_of_reaches hbefore).trans (kept_taskExit k2 signal)).trans (kept_of_reaches hafter)

theorem Exited.current (h : Exited k k1 k3 newTask) (hid : dword (k1.sched.mem newTask).id ≠ 0) :
    k3.sched.taskCurrent = newTask ∧ ¬ (k3.sched.mem newTask).Running := by
  obtain ⟨k2, signal, hbefore, rfl, hafter⟩ := h.exited
  rw [← (kept_of_reaches hbefore).id] at hid
  have hcur := taskCurrent_taskExit k2 signal
  have hstop := stopped_taskExit k2 signal hid
  rw [← hcur] at hstop ⊢
  obtain ⟨hcur', hstop'⟩ := stays_of_reaches hafter hstop
  rw [hcur'] at hstop'
  exact ⟨hcur', hstop'⟩

/-- The list is in its order from before, the block is not live, the page is not mapped, and besides the frames from before
those of new tables and of the pages by which the heap grew are in use. -/
structure Returned (k k1 k4 : Kernel) (l : List Nat) (newTask : Nat) : Prop where
  queue : Chain k4.sched.next k4.sched.kernelTask l
  notMem : newTask ∉ l
  block : (k1.heap.mem (newTask - sizeofAllocBlock)).available = 0 ∧
    (k4.heap.mem (newTask - sizeofAllocBlock)).available = 1
  stack : Paging.walk k1.paging (k1.sched.mem newTask).stackProvider ≠ 0 ∧
    Paging.walk k4.paging (k1.sched.mem newTask).stackProvider = 0
  frames : ∃ heapFrames : List Nat, heapFrames.Nodup ∧
    heapFrames.length = (k1.heap.heapSize - k.heap.heapSize) / 0x1000 ∧
    (∀ f ∈ heapFrames, f < frames ∧ ¬ Bit k.paging.bitmap f ∧ k4.paging.NoTable f) ∧
    ∀ f < frames, (Bit k4.paging.bitmap f ↔ Bit k.paging.bitmap f ∨ f ∈ heapFrames ∨
      ∃ p, p.length ≤ 3 ∧ k4.paging.table p = some f ∧ k.paging.table p ≠ some f)

theorem irqTimeHandle_removes (hk : k.Removes) (walk cpu : Nat) : k.irqTimeHandle walk cpu =
    Kernel.taskRemove walk { k with sched := { k.sched with time := dword (k.sched.time + 1) } } := by
  unfold Kernel.irqTimeHandle
  dsimp only
  rw [if_neg hk.1, if_neg hk.2]

theorem taskRemove_last (hc : Chain k.sched.next k.sched.kernelTask (l ++ [k.sched.taskCurrent]))
    (hl : l ≠ []) (h0 : k.sched.taskCurrent ≠ 0) : ∃ n prev heap,
      Chain (unlinkCurrent k.sched prev).next k.sched.kernelTask l ∧
      (∀ walk, Alloc.freeAlloc walk k.heap k.sched.taskCurrent = some heap) ∧
      ∀ walk, k.taskRemove walk = if n < walk then some ⟨unlinkCurrent k.sched prev, heap,
        Paging.pageUmapv k.paging (k.sched.mem k.sched.taskCurrent).stackProvider 0x1000⟩ else none := by
  have htail : k.sched.taskCurrent ∈ (l ++ [k.sched.taskCurrent]).tail := by
    rw [List.tail_append_of_ne_nil hl]
    exact List.mem_append_right _ (List.mem_singleton_self _)
  obtain ⟨pre, prev, post, heq, hwalk⟩ := findPrev_eq hc htail
  have hnot : k.sched.taskCurrent ∉ l := by
    have hnd := List.nodup_append.mp hc.nodup
    exact fun hmem => hnd.2.2 _ hmem _ (List.mem_singleton_self _) rfl
  have hmid : l ++ k.sched.taskCurrent :: [] = (pre ++ [prev]) ++ k.sched.taskCurrent :: post := by
    rw [heq]
    simp
  obtain ⟨hl', -, rfl⟩ := (List.append_cons_inj_of_notMem hnot List.not_mem_nil).mp hmid
  have hcut : Chain (unlinkCurrent k.sched prev).next k.sched.kernelTask l := by
    rw [heq] at hc
    rw [hl']
    exact unlink_list hc
  obtain ⟨heap, hheap⟩ : ∃ heap, Alloc.freeAlloc 0 k.heap k.sched.taskCurrent = some heap := by
    rw [Alloc.freeAlloc_eq, if_neg h0]
    exact ⟨_, rfl⟩
  have hfree : ∀ walk, Alloc.freeAlloc walk k.heap k.sched.taskCurrent = some heap := by
    intro walk
    rw [← hheap, Alloc.freeAlloc_eq, Alloc.freeAlloc_eq]
  refine ⟨pre.length, prev, heap, hcut, hfree, fun walk => ?_⟩
  unfold Kernel.taskRemove
  dsimp only
  rw [hwalk, hfree]
  split_ifs <;> rfl

/-- What `task_remove` leaves of a task that was created before. -/
theorem Created.returned (hc : Created k k1 l newTask fs f) (hs : TreeShaped k.paging) (hk : Kept k1 k3)
    (hcur : k3.sched.taskCurrent = newTask) (hrem : k3.Removes) (cpu : Nat) :
    (∃ walk k4, k3.irqTimeHandle walk cpu = some k4) ∧
      ∀ walk k4, k3.irqTimeHandle walk cpu = some k4 → Returned k k1 k4 l newTask := by
  subst hcur
  have h17 : sizeofAllocBlock = 17 := rfl
  obtain ⟨hlow, hlt⟩ := hc.place
  have hf : f < 0x8000 := hc.spent.lt
  have h0 : k3.sched.taskCurrent ≠ 0 := by omega
  let late : Kernel := { k3 with sched := { k3.sched with time := dword (k3.sched.time + 1) } }
  have hlate : Chain late.sched.next late.sched.kernelTask (l ++ [late.sched.taskCurrent]) := hk.chain hc.queue
  obtain ⟨n, prev, heap, hchain, hfree, hremove⟩ := taskRemove_last hlate hc.nonempty h0
  have hirq : ∀ walk, k3.irqTimeHandle walk cpu = late.taskRemove walk := fun walk => irqTimeHandle_removes hrem walk cpu
  refine ⟨⟨n + 1, _, (hirq _).trans ((hremove _).trans (if_pos (Nat.lt_succ_self n)))⟩, fun walk k4 h => ?_⟩
  rw [hirq, hremove, Option.ite_none_right_eq_some, Option.some.injEq] at h
  obtain ⟨-, rfl⟩ := h
  have hrel := (hc.spent.same hk.paging).release hs (by decide) (by decide)
  have hpage : Paging.pageUmapv late.paging (late.sched.mem late.sched.taskCurrent).stackProvider 0x1000 =
      Paging.umapvPage k3.paging (f * pageSize) := by
    rw [Paging.pageUmapv_page, show (late.sched.mem late.sched.taskCurrent).stackProvider = f * pageSize from
      (hk.stackProvider _).trans hc.stack, qword_of_lt (by unfold pageSize; omega)]
  refine ⟨hchain, hc.notMem, ⟨hc.live, ?_⟩, ⟨?_, ?_⟩, fs, ?_, hc.length, fun g hg => ?_, ?_⟩
  · have hav := Alloc.freeAlloc_available h0 (hfree 0)
    rwa [qsub_of_le hlt (by omega)] at hav
  · rw [hc.stack, hc.spent.walk]
    exact Paging.ne_zero_of_present ((Paging.present_or f).mpr (by decide))
  · rw [hpage, hc.stack]
    exact hrel.walk
  · exact (List.nodup_cons.mp hc.spent.nodup).2
  · obtain ⟨hnot, hmarked, -⟩ := hc.spent.frame g (List.mem_cons_of_mem f hg)
    rw [hpage]
    exact ⟨hmarked.1, hnot, hrel.noTable g hg⟩
  · rw [hpage]
    exact hrel.bit

/-- Frames of tables apart, the bitmap is the one from before. -/
def Exact (k k4 : Kernel) : Prop := ∀ f < frames,
  (Bit k4.paging.bitmap f ↔ Bit k.paging.bitmap f) ∨ ∃ p, p.length ≤ 3 ∧ k4.paging.table p = some f

theorem Returned.exact (h : Returned k k1 k4 l newTask) (hheap : k1.heap.heapSize = k.heap.heapSize) : Exact k k4 := by
  obtain ⟨fs, -, hlen, -, hbit⟩ := h.frames
  rw [hheap, Nat.sub_self, Nat.zero_div, List.length_eq_zero_iff] at hlen
  intro f hf
  rw [hbit f hf, hlen]
  by_cases htable : ∃ p, p.length ≤ 3 ∧ k4.paging.table p = some f
  · exact .inr htable
  · refine .inl ⟨?_, .inl⟩
    rintro (hb | hmem | ⟨p, hp, hpf, -⟩)
    · exact hb
    · cases hmem
    · exact absurd ⟨p, hp, hpf⟩ htable

theorem Exited.returned (he : Exited k k1 k3 newTask) (hr : Ready k l bs) (hcur : k3.sched.taskCurrent = newTask)
    (hrem : k3.Removes) (cpu : Nat) : (∃ walk k4, k3.irqTimeHandle walk cpu = some k4) ∧
      ∀ walk k4, k3.irqTimeHandle walk cpu = some k4 → Returned k k1 k4 l newTask := by
  obtain ⟨walk, depth, hcreate⟩ := he.created
  obtain ⟨fs, f, hc⟩ := hr.created hcreate he.enough
  exact hc.returned hr.tables he.kept hcur hrem cpu

/-- A creation returns when the heap has room. The task that exits is the one that is removed, the removal comes to an end
and gives back what the creation took, but for tables and for the pages by which the heap grew. -/
theorem returned_of_exited (hr : Ready k l bs) :
    (Alloc.CanServe k.heap sizeofTaskInfo →
      ∃ w, ∀ walk, w ≤ walk → ∃ k1 newTask, k.taskCreate walk 2 = some (k1, newTask)) ∧
    ∀ k1 k3 newTask, Exited k k1 k3 newTask →
      (dword k.sched.idTask ≠ 0 → k3.sched.taskCurrent = newTask ∧ ¬ (k3.sched.mem newTask).Running) ∧
      (k3.sched.taskCurrent = newTask → k3.Removes → ∀ cpu, (∃ walk k4, k3.irqTimeHandle walk cpu = some k4) ∧
        ∀ walk k4, k3.irqTimeHandle walk cpu = some k4 →
          Returned k k1 k4 l newTask ∧ (k1.heap.heapSize = k.heap.heapSize → Exact k k4)) := by
  refine ⟨hr.taskCreate, fun k1 k3 newTask he => ⟨fun hid => ?_, fun hcur hrem cpu => ?_⟩⟩
  · obtain ⟨walk, depth, hcreate⟩ := he.created
    obtain ⟨fs, f, hc⟩ := hr.created hcreate he.enough
    refine he.current ?_
    rw [hc.id]
    exact hid
  · obtain ⟨hsome, hall⟩ := he.returned hr hcur hrem cpu
    exact ⟨hsome, fun walk k4 h => ⟨hall walk k4 h, (hall walk k4 h).exact⟩⟩

/-! ## Short lives -/

/-- A task that is created, gets the processor at the next interrupt, and exits. -/
def shortLife (k : Kernel) : Option (Kernel × Kernel × Nat) :=
  match k.taskCreate 4 4 with
  | none => none
  | some (k1, newTask) =>
    match k1.irqTimeHandle 4 0 with
    | none => none
    | some k2 =>
      if k1.paging.refused = k.paging.refused ∧ k.heap.heapStart + k1.heap.heapSize < 2 ^ 64 ∧ ¬ k1.Removes ∧
          k2.sched.taskCurrent = newTask ∧ (k2.taskExit 0).Removes then
        some (k1, k2.taskExit 0, newTask)
      else none

theorem exited_shortLife (h : shortLife k = some (k1, k3, newTask)) :
    Exited k k1 k3 newTask ∧ k3.sched.taskCurrent = newTask ∧ k3.Removes := by
  unfold shortLife at h
  split at h
  · cases h
  · rename_i k1 newTask hcreate
    split at h
    · cases h
    · rename_i k2 hirq
      rw [Option.ite_none_right_eq_some, Option.some.injEq, Prod.mk.injEq, Prod.mk.injEq] at h
      obtain ⟨⟨href, htop, hquiet, hcur, hrem⟩, rfl, rfl, rfl⟩ := h
      refine ⟨⟨⟨4, 4, hcreate⟩, ⟨href, htop⟩, k2, 0, ?_, hcur, .refl _⟩, ?_, hrem⟩
      · exact (Reaches.refl _).snoc (.tick hquiet hirq)
      · rw [taskCurrent_taskExit, hcur]

def bootTables : Paging.State :=
  Paging.pageMapv Paging.smallBoot 0xFFFFFFFF80200000 0x1000 (pagePresent ||| pageReadwrite)

def bootKernel : Kernel where
  sched := taskInit (fun _ => ⟨0, 0, 0, 0, 0, 0⟩) 0xFFFFFFFF80150000 0xFFFFFFFF80160000
  heap := Alloc.initAlloc (fun _ => ⟨0, 0, 0⟩) 0xFFFFFFFF80200000
  paging := bootTables

theorem treeShaped_bootTables : TreeShaped bootTables := by
  have hboot : Paging.Used Paging.smallBoot := Paging.used_bootState _ (by decide) (by decide) (by decide +kernel)
  have hoff : ∀ i < Paging.rounds 0x1000, ¬ Paging.InWindow (Paging.pageAt 0xFFFFFFFF80200000 i) := by decide +kernel
  have hused : Paging.Used bootTables := Paging.used_pageMapv hboot (by decide) hoff (by decide +kernel)
  exact hused.shape

theorem ready_bootKernel : Ready bootKernel [0xFFFFFFFF80150000] [⟨0x1000, true⟩] where
  chain := .last (by decide +kernel)
  heap := Alloc.tiled_initAlloc _ (by decide)
  base := by decide
  top := by decide
  kernel := by decide
  held a ha hne := absurd (List.mem_singleton.mp ha) hne
  tables := by
    dsimp only [bootKernel]
    exact treeShaped_bootTables

/-- The heap does not grow for the first task, and all but tables is given back. -/
theorem returned_of_exited_bootKernel : ∃ k1 k3 k4 newTask, Exited bootKernel k1 k3 newTask ∧
    (∃ walk, k3.irqTimeHandle walk 0 = some k4) ∧ Returned bootKernel k1 k4 [0xFFFFFFFF80150000] newTask ∧
    Exact bootKernel k4 := by
  obtain ⟨⟨k1, k3, newTask⟩, h⟩ : ∃ x, shortLife bootKernel = some x := Option.isSome_iff_exists.mp (by decide +kernel)
  have hsize : (shortLife bootKernel).map (fun x => x.1.heap.heapSize) = some 0x1000 := by decide +kernel
  rw [h, Option.map_some, Option.some.injEq] at hsize
  obtain ⟨he, hcur, hrem⟩ := exited_shortLife h
  obtain ⟨⟨walk, k4, hirq⟩, hall⟩ := ((returned_of_exited ready_bootKernel).2 k1 k3 newTask he).2 hcur hrem 0
  obtain ⟨hret, hexact⟩ := hall walk k4 hirq
  exact ⟨k1, k3, k4, newTask, he, ⟨walk, hirq⟩, hret, hexact hsize⟩

/-- After `new_alloc( 3960 )` only 119 bytes are left on the page. -/
def fullHeap : Kernel where
  sched := bootKernel.sched
  heap :=
    { mem := Function.update (Function.update (fun _ => ⟨0, 0, 0⟩) 0xFFFFFFFF80200000 ⟨3977, 0, 0xFFFFFFFF80200F89⟩)
        0xFFFFFFFF80200F89 ⟨119, 1, 0⟩
      heapStart := 0xFFFFFFFF80200000
      heapEnd := 0xFFFFFFFF80200F89
      heapSize := 0x1000 }
  paging := bootTables

theorem tiled_fullHeap : Alloc.Tiled fullHeap.heap [⟨3977, false⟩, ⟨119, true⟩] where
  laid := by
    refine ⟨by decide +kernel, ?_⟩
    show fullHeap.heap.mem (0xFFFFFFFF80200000 + 3977) = Alloc.Block.header ⟨119, true⟩ 0
    decide +kernel
  size := by decide
  min := by decide
  start := by decide

theorem ready_fullHeap : Ready fullHeap [0xFFFFFFFF80150000] [⟨3977, false⟩, ⟨119, true⟩] where
  chain := .last (by decide +kernel)
  heap := tiled_fullHeap
  base := by decide
  top := by decide
  kernel := by decide
  held a ha hne := absurd (List.mem_singleton.mp ha) hne
  tables := by
    dsimp only [fullHeap]
    exact treeShaped_bootTables

/-- The heap gets a page for the rest of the block that is cut, and keeps its frame. -/
theorem not_exact_fullHeap : ∃ l bs k1 k3 k4 newTask walk, Ready fullHeap l bs ∧ Exited fullHeap k1 k3 newTask ∧
    Paging.walk fullHeap.paging (k1.sched.mem newTask).stackProvider = 0 ∧ k3.sched.taskCurrent = newTask ∧ k3.Removes ∧
    k3.irqTimeHandle walk 0 = some k4 ∧ ¬ Exact fullHeap k4 := by
  obtain ⟨⟨k1, k3, newTask⟩, h⟩ : ∃ x, shortLife fullHeap = some x := Option.isSome_iff_exists.mp (by decide +kernel)
  have hvals : (shortLife fullHeap).map (fun x => (x.1.heap.heapSize,
      Paging.walk fullHeap.paging (x.1.sched.mem x.2.2).stackProvider)) = some (0x2000, 0) := by decide +kernel
  rw [h, Option.map_some, Option.some.injEq, Prod.mk.injEq] at hvals
  obtain ⟨hsize, hwalk⟩ := hvals
  obtain ⟨he, hcur, hrem⟩ := exited_shortLife h
  obtain ⟨⟨walk, k4, hirq⟩, hall⟩ := he.returned ready_fullHeap hcur hrem 0
  refine ⟨_, _, k1, k3, k4, newTask, walk, ready_fullHeap, he, hwalk, hcur, hrem, hirq, fun hexact => ?_⟩
  obtain ⟨fs, -, hlen, hframe, hbit⟩ := (hall walk k4 hirq).frames
  have hone : fs.length = 1 := by
    rw [hlen, hsize]
    decide
  obtain ⟨f, rfl⟩ := List.length_eq_one_iff.mp hone
  obtain ⟨hf, hfree, hno⟩ := hframe f (List.mem_singleton_self f)
  obtain hsame | ⟨p, hp, htable⟩ := hexact f hf
  · exact hfree (hsame.mp ((hbit f hf).mpr (.inr (.inl (List.mem_singleton_self f)))))
  · exact hno p hp htable

end HaOS.Task
