import HaOS.Task.Sched
import HaOS.Lib.Run
import Mathlib.Data.List.Nodup

/-!
# The task list over a run

* `lastTask_eq`, `findPrev_eq` : what the two walks find on a list;
* `Inv s l` : the invariant, with the list `l` from `kernel_task` on;
* `create_list` : the list after a creation; `Inv.create`, `Inv.exit`, `Inv.switch`, `Inv.unlink` : what each event does to
  the invariant, as a change of the list;
* `scheduled` : in every state of a run the list is in order, the search of `task_remove` succeeds, and a task that has
  exited and was switched away from is not current again.
-/

namespace HaOS.Task
open Lib (Chain Reaches)

variable {mem : Nat → TaskInfo} {s : Sched} {l pre post : List Nat} {a b p n created i : Nat}

theorem Sched.next_eq_some : s.next a = some b ↔ (s.mem a).next = b ∧ b ≠ 0 := by
  unfold Sched.next
  split_ifs with h
  · refine ⟨nofun, ?_⟩
    rintro ⟨rfl, hb⟩
    exact absurd h hb
  · rw [Option.some.injEq]
    exact ⟨fun hb => ⟨hb, hb ▸ h⟩, And.left⟩

theorem Sched.next_eq_none : s.next a = none ↔ (s.mem a).next = 0 := by
  unfold Sched.next
  split_ifs with h <;> simp [h]

/-! ## The walks -/

theorem lastTask_eq (h : Chain s.next a l) :
    ∃ pre z, l = pre ++ [z] ∧ ∀ walk, lastTask s.mem walk a = if pre.length < walk then some z else none := by
  induction h with
  | @last a ha =>
      refine ⟨[], a, rfl, fun walk => ?_⟩
      cases walk with
      | zero => rfl
      | succ walk => simp [lastTask, Sched.next_eq_none.mp ha]
  | @link a b l hb _ ih =>
      obtain ⟨pre, z, rfl, hwalk⟩ := ih
      obtain ⟨hb, h0⟩ := Sched.next_eq_some.mp hb
      refine ⟨a :: pre, z, rfl, fun walk => ?_⟩
      cases walk with
      | zero => rfl
      | succ walk => simp [lastTask, hb, h0, hwalk]

/-- The search finds the task before `target`, unless its bound is too short; it never halts. -/
theorem findPrev_eq (h : Chain s.next a l) (ht : b ∈ l.tail) :
    ∃ pre p post, l = pre ++ p :: b :: post ∧
      ∀ walk, findPrev s.mem b walk a = if pre.length < walk then .found p else .bound := by
  induction h with
  | last => simp at ht
  | @link a c l hc hl ih =>
      obtain ⟨hc, h0⟩ := Sched.next_eq_some.mp hc
      obtain ⟨l, rfl⟩ : ∃ m, l = c :: m := by
        obtain ⟨d, m, rfl⟩ := List.exists_cons_of_ne_nil hl.ne_nil
        exact ⟨m, by rw [hl.head_eq]⟩
      by_cases hcb : c = b
      · subst hcb
        refine ⟨[], a, l, rfl, fun walk => ?_⟩
        cases walk with
        | zero => rfl
        | succ walk => simp [findPrev, hc]
      · have hb : b ∈ (c :: l).tail := by
          rcases List.mem_cons.mp ht with rfl | hb
          · exact absurd rfl hcb
          · exact hb
        obtain ⟨pre, p, post, hl', hwalk⟩ := ih hb
        refine ⟨a :: pre, p, post, by rw [hl']; rfl, fun walk => ?_⟩
        cases walk with
        | zero => rfl
        | succ walk => simp [findPrev, hc, hcb, h0, hwalk]

/-! ## The invariant -/

def ids (s : Sched) (l : List Nat) : List Nat := l.map fun a => (s.mem a).id

structure Inv (s : Sched) (created : Nat) (l : List Nat) : Prop where
  chain : Chain s.next s.kernelTask l
  kernel : s.kernelTask ≠ 0
  kernelId : (s.mem s.kernelTask).id = 0
  running : (s.mem s.kernelTask).Running
  current : s.taskCurrent ∈ l
  nodup : (ids s l).Nodup
  bound : ∀ x ∈ ids s l, x < s.idTask
  idTask : s.idTask = created + 1
  created : created < 2 ^ 32 - 1
  stopped : ∀ a ∈ l, ¬ (s.mem a).Running → a = s.taskCurrent

/-- How a step changes the ids on the list, and what becomes of a current task that is stopped: it stays current, or its
id leaves the list. -/
structure Follows (s : Sched) (l : List Nat) (t : Sched) (l' : List Nat) : Prop where
  known : ∀ x ∈ ids t l', x ∈ ids s l ∨ x = s.idTask
  idTask : s.idTask ≤ t.idTask
  stopped : ¬ (s.mem s.taskCurrent).Running →
    ((t.mem t.taskCurrent).id = (s.mem s.taskCurrent).id ∧ ¬ (t.mem t.taskCurrent).Running) ∨
      (s.mem s.taskCurrent).id ∉ ids t l'

theorem Inv.kernel_mem (hi : Inv s created l) : s.kernelTask ∈ l := hi.chain.head_mem

theorem Inv.next_mem (hi : Inv s created l) (ha : a ∈ l) :
    (if (s.mem a).next = 0 then s.kernelTask else (s.mem a).next) ∈ l := by
  split_ifs with h
  · exact hi.kernel_mem
  · exact hi.chain.succ_mem ha (Sched.next_eq_some.mpr ⟨rfl, h⟩)

theorem inv_init {kernelTask kernelStackBottom : Nat} (hk : kernelTask ≠ 0) :
    Inv (taskInit mem kernelTask kernelStackBottom) 0 [kernelTask] where
  chain := .last (by simp [Sched.next, taskInit])
  kernel := hk
  kernelId := by simp [taskInit]
  running := by simp [taskInit, TaskInfo.Running, taskFlagsRunningBit]
  current := by simp [taskInit]
  nodup := List.nodup_singleton _
  bound := by simp [taskInit, ids]
  idTask := rfl
  created := by decide
  stopped := by simp [taskInit]

/-! ## Events -/

section Store
variable (s : Sched) (t : TaskInfo)

@[simp] theorem Sched.kernelTask_store : (s.store a t).kernelTask = s.kernelTask := rfl

@[simp] theorem Sched.taskCurrent_store : (s.store a t).taskCurrent = s.taskCurrent := rfl

@[simp] theorem Sched.idTask_store : (s.store a t).idTask = s.idTask := rfl

@[simp] theorem Sched.mem_store : (s.store a t).mem a = t := by simp [store]

@[simp] theorem Sched.mem_store_ne (hb : b ≠ a) : (s.store a t).mem b = s.mem b := by simp [store, hb]

theorem Sched.next_store_ne (hb : b ≠ a) : (s.store a t).next b = s.next b := by
  unfold Sched.next
  rw [Sched.mem_store_ne _ _ hb]

end Store

theorem Inv.store {t : TaskInfo} (hi : Inv s created l) (hid : t.id = (s.mem s.taskCurrent).id)
    (hnext : t.next = (s.mem s.taskCurrent).next) (hrun : s.kernelTask = s.taskCurrent → t.Running) :
    Inv (s.store s.taskCurrent t) created l ∧ ids (s.store s.taskCurrent t) l = ids s l := by
  have hids : ids (s.store s.taskCurrent t) l = ids s l := by
    refine List.map_congr_left fun a _ => ?_
    by_cases ha : a = s.taskCurrent
    · rw [ha, Sched.mem_store, hid]
    · rw [Sched.mem_store_ne _ _ ha]
  refine ⟨⟨hi.chain.congr fun x _ => ?_, hi.kernel, ?_, ?_, hi.current, ?_, ?_, hi.idTask, hi.created, ?_⟩, hids⟩
  · by_cases hx : x = s.taskCurrent
    · rw [hx, Sched.next, Sched.next, Sched.mem_store, hnext]
    · exact Sched.next_store_ne _ _ hx
  · by_cases hk : s.kernelTask = s.taskCurrent
    · rw [Sched.kernelTask_store, hk, Sched.mem_store, hid, ← hk, hi.kernelId]
    · rw [Sched.kernelTask_store, Sched.mem_store_ne _ _ hk, hi.kernelId]
  · by_cases hk : s.kernelTask = s.taskCurrent
    · rw [Sched.kernelTask_store, hk, Sched.mem_store]
      exact hrun hk
    · rw [Sched.kernelTask_store, Sched.mem_store_ne _ _ hk]
      exact hi.running
  · rw [hids]
    exact hi.nodup
  · rw [hids]
    exact hi.bound
  · intro a ha hs
    by_contra hne
    rw [Sched.taskCurrent_store] at hne
    rw [Sched.mem_store_ne _ _ hne] at hs
    exact hne (hi.stopped a ha hs)

theorem TaskInfo.not_running_clear (t : TaskInfo) (k : Nat) :
    ¬ { t with signalCode := k, flags := t.flags &&& (2 ^ 64 - 1 - taskFlagsRunningBit) }.Running := by
  simp only [TaskInfo.Running, taskFlagsRunningBit, Nat.and_assoc]
  simp

theorem Inv.exit (hi : Inv s created l) (signal : Nat) :
    Inv (taskExit s signal) created l ∧ Follows s l (taskExit s signal) l := by
  unfold taskExit
  split_ifs with h0
  · exact ⟨hi, fun x hx => .inl hx, Nat.le_refl _, fun hs => .inl ⟨rfl, hs⟩⟩
  · have hne : s.kernelTask ≠ s.taskCurrent := by
      intro hk
      rw [← hk, hi.kernelId] at h0
      exact h0 rfl
    obtain ⟨hi', hids⟩ := hi.store (t := { s.mem s.taskCurrent with
      signalCode := signal, flags := (s.mem s.taskCurrent).flags &&& (2 ^ 64 - 1 - taskFlagsRunningBit) }) rfl rfl
      fun hk => absurd hk hne
    refine ⟨hi', fun x hx => .inl (hids ▸ hx), Nat.le_refl _, fun _ => .inl ?_⟩
    rw [Sched.taskCurrent_store, Sched.mem_store]
    exact ⟨rfl, TaskInfo.not_running_clear _ _⟩

/-- The list after a creation, and what the creation leaves of the other tasks' records. -/
theorem create_list {t : Sched} {walk newTask stackProvider : Nat} (hc : Chain s.next s.kernelTask l) (h0 : newTask ≠ 0)
    (hnew : newTask ∉ l) (ht : taskCreate walk s newTask stackProvider = some t) :
    Chain t.next t.kernelTask (l ++ [newTask]) ∧ t.kernelTask = s.kernelTask ∧ t.taskCurrent = s.taskCurrent ∧
      t.idTask = dword (s.idTask + 1) ∧ (t.mem newTask).id = s.idTask ∧ (t.mem newTask).Running ∧
      ∀ x ∈ l, (t.mem x).id = (s.mem x).id ∧ (t.mem x).flags = (s.mem x).flags := by
  unfold taskCreate at ht
  obtain ⟨z, hz, rfl⟩ := Option.map_eq_some_iff.mp ht
  let r : TaskInfo := ⟨s.idTask, stackProvider, stackProvider + 0x1000 - sizeofFrame, 0 ||| taskFlagsRunningBit, 0, 0⟩
  have hne : ∀ x ∈ l, x ≠ newTask := fun x hx hxn => hnew (hxn ▸ hx)
  have hchain : Chain (s.store newTask r).next s.kernelTask l :=
    hc.congr fun x hx => Sched.next_store_ne _ _ (hne x hx)
  obtain ⟨pre, z', rfl, hwalk⟩ := lastTask_eq hchain
  have hz' := hwalk walk
  rw [show lastTask (s.store newTask r).mem walk s.kernelTask = some z from hz] at hz'
  obtain rfl : z = z' := by
    split_ifs at hz'
    exact Option.some.inj hz'
  have hzn := hne z (by simp)
  have hpre : ∀ x ∈ pre, x ≠ z := by
    intro x hx hxz
    have hnd := List.nodup_append.mp hc.nodup
    exact hnd.2.2 x hx z (by simp) hxz
  refine ⟨?_, rfl, rfl, rfl, ?_, ?_, ?_⟩
  · rw [List.append_assoc]
    refine hchain.snoc ?_ ?_ fun x hx => ?_
    · exact Sched.next_eq_some.mpr ⟨by simp [Sched.store], h0⟩
    · exact Sched.next_eq_none.mpr (by simp [Sched.store, hzn.symm])
    · exact Sched.next_store_ne _ _ (hpre x hx)
  · simp [Sched.store, hzn.symm]
  · simp [Sched.store, hzn.symm, TaskInfo.Running, taskFlagsRunningBit]
  · intro x hx
    have hxn := hne x hx
    by_cases hxz : x = z
    · subst hxz
      simp [Sched.store, hxn]
    · simp [Sched.store, hxz, hxn]

theorem Inv.create {t : Sched} {walk newTask stackProvider : Nat} (hi : Inv s created l) (hf : Fresh s newTask)
    (hc : created + 1 < 2 ^ 32 - 1) (ht : taskCreate walk s newTask stackProvider = some t) :
    Inv t (created + 1) (l ++ [newTask]) ∧ Follows s l t (l ++ [newTask]) := by
  obtain ⟨hchain, hk, hcur, hid, hnid, hnrun, hmem⟩ := create_list hi.chain hf.1 (hf.2 l hi.chain) ht
  have hids : ids t (l ++ [newTask]) = ids s l ++ [s.idTask] := by
    rw [ids, List.map_append, List.map_congr_left fun x hx => (hmem x hx).1, List.map_singleton, hnid]
    rfl
  have hrun : ∀ x ∈ l, (t.mem x).Running ↔ (s.mem x).Running := fun x hx => by
    rw [TaskInfo.Running, TaskInfo.Running, (hmem x hx).2]
  have hidt : t.idTask = s.idTask + 1 := by
    have := hi.idTask
    rw [hid, dword_of_lt (by omega)]
  refine ⟨⟨hchain, hk ▸ hi.kernel, ?_, ?_, ?_, ?_, ?_, by rw [hidt, hi.idTask], hc, ?_⟩, ?_, by omega, ?_⟩
  · rw [hk, (hmem _ hi.kernel_mem).1, hi.kernelId]
  · rw [hk]
    exact (hrun _ hi.kernel_mem).mpr hi.running
  · rw [hcur]
    exact List.mem_append_left _ hi.current
  · rw [hids, List.nodup_append]
    refine ⟨hi.nodup, List.nodup_singleton _, fun x hx y hy => ?_⟩
    rw [List.mem_singleton] at hy
    exact Nat.ne_of_lt (hy ▸ hi.bound x hx)
  · rw [hids, hidt]
    intro x hx
    rcases List.mem_append.mp hx with hx | hx
    · exact Nat.lt_succ_of_lt (hi.bound x hx)
    · rw [List.mem_singleton.mp hx]
      exact Nat.lt_succ_self _
  · intro a ha hs
    rw [hcur]
    rcases List.mem_append.mp ha with ha | ha
    · exact hi.stopped a ha fun hr => hs ((hrun a ha).mpr hr)
    · rw [List.mem_singleton.mp ha] at hs
      exact absurd hnrun hs
  · rw [hids]
    intro x hx
    simpa using hx
  · intro hs
    rw [hcur, (hmem _ hi.current).1, hrun _ hi.current]
    exact .inl ⟨rfl, hs⟩

theorem Inv.switch (hi : Inv s created l) (hr : (s.mem s.taskCurrent).Running) (cpu : Nat) :
    Inv (switchTask s cpu) created l ∧ Follows s l (switchTask s cpu) l := by
  have hmem := hi.next_mem hi.current
  obtain ⟨hi', hids⟩ := hi.store (t := { s.mem s.taskCurrent with stack := cpu }) rfl rfl fun _ => hr
  refine ⟨⟨hi'.chain, hi'.kernel, hi'.kernelId, hi'.running, hmem, hi'.nodup, hi'.bound, hi'.idTask, hi'.created, ?_⟩,
    fun x hx => .inl (hids ▸ hx), Nat.le_refl _, fun hs => absurd hr hs⟩
  intro a ha hs
  -- no task is stopped: it would have been the current one
  have heq : a = s.taskCurrent := hi'.stopped a ha hs
  refine absurd ?_ hs
  rw [heq]
  simp only [switchTask, Sched.mem_store]
  exact hr

theorem unlink_list (hc : Chain s.next s.kernelTask (pre ++ p :: s.taskCurrent :: post)) :
    Chain (unlinkCurrent s p).next s.kernelTask (pre ++ p :: post) := by
  have hnd := List.nodup_append.mp hc.nodup
  have hp : p ∉ post := fun h => (List.nodup_cons.mp hnd.2.1).1 (List.mem_cons_of_mem _ h)
  refine hc.unlink ?_ fun x hx => ?_
  · simp [Sched.next, unlinkCurrent]
  · have hxp : x ≠ p := by
      rintro rfl
      rcases List.mem_append.mp hx with hx | hx
      · exact hnd.2.2 x hx x (by simp) rfl
      · exact hp hx
    simp [Sched.next, unlinkCurrent, hxp]

theorem mem_unlinkCurrent (s : Sched) (p x : Nat) :
    ((unlinkCurrent s p).mem x).id = (s.mem x).id ∧ ((unlinkCurrent s p).mem x).flags = (s.mem x).flags := by
  by_cases hx : x = p
  · subst hx
    simp [unlinkCurrent]
  · simp [unlinkCurrent, hx]

/-- The current task is stopped, so it is not `kernel_task`, and is taken off the list. -/
theorem Inv.unlink (hi : Inv s created l) (hr : ¬ (s.mem s.taskCurrent).Running) :
    ∃ prev n l', (∀ walk, findPrev s.mem s.taskCurrent walk s.kernelTask = if n < walk then .found prev else .bound) ∧
      Inv (unlinkCurrent s prev) created l' ∧ Follows s l (unlinkCurrent s prev) l' := by
  have hne : s.taskCurrent ≠ s.kernelTask := fun h => hr (h ▸ hi.running)
  have htail : s.taskCurrent ∈ l.tail := by
    obtain ⟨x, m, rfl⟩ := List.exists_cons_of_ne_nil hi.chain.ne_nil
    rcases List.mem_cons.mp hi.current with h | h
    · exact absurd (h.trans hi.chain.head_eq.symm) hne
    · exact h
  obtain ⟨pre, p, post, rfl, hwalk⟩ := findPrev_eq hi.chain htail
  refine ⟨p, pre.length, pre ++ p :: post, hwalk, ?_⟩
  have hperm : (pre ++ p :: s.taskCurrent :: post).Perm (s.taskCurrent :: (pre ++ p :: post)) := by
    have h : ((pre ++ [p]) ++ s.taskCurrent :: post).Perm (s.taskCurrent :: ((pre ++ [p]) ++ post)) := List.perm_middle
    simpa using h
  have hsub : ∀ x ∈ pre ++ p :: post, x ∈ pre ++ p :: s.taskCurrent :: post := fun x hx =>
    hperm.mem_iff.mpr (List.mem_cons_of_mem _ hx)
  have hcur := (List.nodup_cons.mp (hperm.nodup_iff.mp hi.chain.nodup)).1
  have hidsnd : ((s.mem s.taskCurrent).id :: ids s (pre ++ p :: post)).Nodup :=
    (hperm.map fun a => (s.mem a).id).nodup_iff.mp hi.nodup
  have hmem := mem_unlinkCurrent s p
  have hids : ids (unlinkCurrent s p) (pre ++ p :: post) = ids s (pre ++ p :: post) :=
    List.map_congr_left fun x _ => (hmem x).1
  have hrun : ∀ x, ((unlinkCurrent s p).mem x).Running ↔ (s.mem x).Running := fun x => by
    rw [TaskInfo.Running, TaskInfo.Running, (hmem x).2]
  have hchain := unlink_list hi.chain
  refine ⟨⟨hchain, hi.kernel, (hmem _).1.trans hi.kernelId, (hrun _).mpr hi.running, ?_, ?_, ?_, hi.idTask, hi.created, ?_⟩,
    fun x hx => .inl ?_, Nat.le_refl _, fun _ => .inr ?_⟩
  · simp only [unlinkCurrent]
    split_ifs with h
    · exact hchain.head_mem
    · refine hchain.succ_mem (b := p) (by simp) ?_
      simpa [Sched.next, unlinkCurrent] using h
  · rw [hids]
    exact (List.nodup_cons.mp hidsnd).2
  · rw [hids]
    intro x hx
    obtain ⟨a, ha, rfl⟩ := List.mem_map.mp hx
    exact hi.bound _ (List.mem_map_of_mem (hsub a ha))
  · intro a ha hs
    have := hi.stopped a (hsub a ha) fun h => hs ((hrun a).mpr h)
    exact absurd (this ▸ ha) hcur
  · rw [hids] at hx
    obtain ⟨a, ha, rfl⟩ := List.mem_map.mp hx
    exact List.mem_map_of_mem (hsub a ha)
  · rw [hids]
    exact (List.nodup_cons.mp hidsnd).1

theorem Follows.of_time {t : Sched} {l' : List Nat} (h : Follows { s with time := n } l t l') : Follows s l t l' :=
  ⟨h.known, h.idTask, h.stopped⟩

/-- A timer interrupt never halts, and within some bound it is handled. -/
theorem Inv.tick (hi : Inv s created l) (cpu : Nat) :
    (∀ walk, irqTimeHandle walk s cpu ≠ .halted) ∧ (∃ walk t, irqTimeHandle walk s cpu = .done t) ∧
      ∀ walk t, irqTimeHandle walk s cpu = .done t → ∃ l', Inv t created l' ∧ Follows s l t l' := by
  have hi' : Inv { s with time := dword (s.time + 1) } created l :=
    ⟨hi.chain, hi.kernel, hi.kernelId, hi.running, hi.current, hi.nodup, hi.bound, hi.idTask, hi.created, hi.stopped⟩
  unfold irqTimeHandle
  simp only
  split_ifs with h0 hr
  · refine ⟨nofun, ⟨0, _, rfl⟩, ?_⟩
    rintro _ _ ⟨⟩
    exact ⟨l, hi', fun x hx => .inl hx, Nat.le_refl _, fun hs => .inl ⟨rfl, hs⟩⟩
  · refine ⟨nofun, ⟨0, _, rfl⟩, ?_⟩
    rintro _ _ ⟨⟩
    exact ⟨l, (hi'.switch hr cpu).1, (hi'.switch hr cpu).2.of_time⟩
  · obtain ⟨prev, n, l', hwalk, hl', hf⟩ := hi'.unlink hr
    simp only at hwalk
    simp only [hwalk]
    refine ⟨fun walk => by split_ifs <;> nofun, ⟨n + 1, _, by rw [if_pos (Nat.lt_succ_self n)]⟩, fun walk t ht => ?_⟩
    split_ifs at ht
    cases ht
    exact ⟨l', hl', hf.of_time⟩

theorem Inv.step {s t : State} {e : Event} (hi : Inv s.sched s.created l) (hs : Step s e t) :
    ∃ l', Inv t.sched t.created l' ∧ Follows s.sched l t.sched l' := by
  cases hs with
  | create hf hc ht => exact ⟨_, hi.create hf hc ht⟩
  | exit => exact ⟨l, hi.exit _⟩
  | tick ht => exact (hi.tick _).2.2 _ _ ht

/-! ## Runs -/

/-- The list is in order, and the search for the current task's predecessor succeeds when it is stopped. -/
structure Scheduled (s : Sched) : Prop where
  list : ∃ l, Chain s.next s.kernelTask l ∧ l.Nodup ∧ l.head? = some s.kernelTask ∧ s.taskCurrent ∈ l ∧
    (∀ a ∈ l, ∀ b ∈ l, (s.mem a).id = (s.mem b).id → a = b) ∧ ∀ a ∈ l, ¬ (s.mem a).Running → a = s.taskCurrent
  kernel : (s.mem s.kernelTask).Running
  search : ¬ (s.mem s.taskCurrent).Running →
    (∀ walk, findPrev s.mem s.taskCurrent walk s.kernelTask ≠ .halted) ∧
      ∃ walk prev, findPrev s.mem s.taskCurrent walk s.kernelTask = .found prev
  tick : ∀ cpu, (∀ walk, irqTimeHandle walk s cpu ≠ .halted) ∧ ∃ walk t, irqTimeHandle walk s cpu = .done t

theorem Inv.toScheduled (hi : Inv s created l) : Scheduled s where
  list := ⟨l, hi.chain, hi.chain.nodup, hi.chain.head?, hi.current,
    fun _ ha _ hb hab => List.inj_on_of_nodup_map hi.nodup ha hb hab, hi.stopped⟩
  kernel := hi.running
  search hr := by
    obtain ⟨prev, n, l', hwalk, -⟩ := hi.unlink hr
    simp only [hwalk]
    exact ⟨fun walk => by split_ifs <;> nofun, n + 1, prev, if_pos (Nat.lt_succ_self n)⟩
  tick cpu := ⟨(hi.tick cpu).1, (hi.tick cpu).2.1⟩

/-- The id `i` has been given out and is on the list no more. -/
def Gone (i : Nat) (s : State) : Prop := ∃ l, Inv s.sched s.created l ∧ i ∉ ids s.sched l ∧ i < s.sched.idTask

def Stopped (i : Nat) (s : State) : Prop :=
  (∃ l, Inv s.sched s.created l) ∧ (s.sched.mem s.sched.taskCurrent).id = i ∧
    ¬ (s.sched.mem s.sched.taskCurrent).Running

theorem Gone.step {s t : State} {e : Event} (h : Gone i s) (hs : Step s e t) : Gone i t := by
  obtain ⟨l, hi, hids, hlt⟩ := h
  obtain ⟨l', hi', hf⟩ := hi.step hs
  refine ⟨l', hi', fun hx => ?_, Nat.lt_of_lt_of_le hlt hf.idTask⟩
  rcases hf.known i hx with hx | hx
  · exact hids hx
  · exact Nat.ne_of_lt hlt hx

theorem Stopped.step {s t : State} {e : Event} (h : Stopped i s) (hs : Step s e t) : Stopped i t ∨ Gone i t := by
  obtain ⟨⟨l, hi⟩, rfl, hr⟩ := h
  obtain ⟨l', hi', hf⟩ := hi.step hs
  rcases hf.stopped hr with ⟨hid, hr'⟩ | hgone
  · exact .inl ⟨⟨l', hi'⟩, hid, hr'⟩
  · have hmem : (s.sched.mem s.sched.taskCurrent).id ∈ ids s.sched l := List.mem_map_of_mem hi.current
    exact .inr ⟨l', hi', hgone, Nat.lt_of_lt_of_le (hi.bound _ hmem) hf.idTask⟩

theorem Gone.current {s : State} (h : Gone i s) : (s.sched.mem s.sched.taskCurrent).id ≠ i := by
  obtain ⟨l, hi, hids, -⟩ := h
  rintro rfl
  exact hids (List.mem_map_of_mem hi.current)

/-- In every state of a run the list is in order; a task that has exited and was switched away from is not current
again. -/
theorem scheduled {s : State} {kernelTask kernelStackBottom : Nat} (hk : kernelTask ≠ 0)
    (hr : Reaches Step (.init mem kernelTask kernelStackBottom) s) :
    Scheduled s.sched ∧ ∀ u v, Reaches Step s u → Reaches Step u v →
      ¬ (s.sched.mem s.sched.taskCurrent).Running →
      (u.sched.mem u.sched.taskCurrent).id ≠ (s.sched.mem s.sched.taskCurrent).id →
      (v.sched.mem v.sched.taskCurrent).id ≠ (s.sched.mem s.sched.taskCurrent).id := by
  obtain ⟨l, hi⟩ : ∃ l, Inv s.sched s.created l :=
    hr.invariant (P := fun s => ∃ l, Inv s.sched s.created l)
      (fun _ _ _ hi hs => (hi.choose_spec.step hs).imp fun _ h => h.1) ⟨_, inv_init hk⟩
  refine ⟨hi.toScheduled, fun u v hu hv hstop hne => ?_⟩
  have hu' := hu.invariant (P := fun t => Stopped (s.sched.mem s.sched.taskCurrent).id t ∨
      Gone (s.sched.mem s.sched.taskCurrent).id t)
    (fun _ _ _ h hs => h.elim (fun h => h.step hs) fun h => .inr (h.step hs)) (.inl ⟨⟨l, hi⟩, rfl, hstop⟩)
  rcases hu' with hu' | hu'
  · exact absurd hu'.2.1 hne
  · exact (hv.invariant (P := Gone _) (fun _ _ _ h hs => h.step hs) hu').current

/-- The theorem on a state behind a creation: a task at `0x3000` next to `kernel_task`. -/
theorem scheduled_created :
    ∃ s, Reaches Step (.init (fun _ => ⟨0, 0, 0, 0, 0, 0⟩) 0x1000 0x2000) s ∧ s.created = 1 ∧ Scheduled s.sched := by
  let boot : State := .init (fun _ => ⟨0, 0, 0, 0, 0, 0⟩) 0x1000 0x2000
  obtain ⟨t, ht⟩ : ∃ t, taskCreate 8 boot.sched 0x3000 0x4000 = some t := Option.isSome_iff_exists.mp (by decide)
  have hfresh : Fresh boot.sched 0x3000 := by
    refine ⟨by decide, fun l hl => ?_⟩
    have hboot : Inv boot.sched 0 [0x1000] := inv_init (by decide)
    rw [hl.unique hboot.chain]
    decide
  have hr : Reaches Step boot ⟨t, 1⟩ := (Reaches.refl boot).snoc (.create hfresh (by decide) ht)
  exact ⟨_, hr, rfl, (scheduled (by decide) hr).1⟩

end HaOS.Task
