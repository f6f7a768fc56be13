import HaOS.Task.List
import Mathlib.Data.List.Rotate

/-!
# Round-robin

* `Queue s l k` : the list `l` from `kernel_task` on, with the current task at the position `k`; `Queue.switch`,
  `Queue.create` : what a switch and a creation do to it;
* `currents` : the tasks that become current in a row of switches; `currents_eq` : a full round is a rotation of the list;
* `Turns` : switches with creations in between; `Turns.queue` : they go on along the list;
* `roundRobin` : both together.
-/

namespace HaOS.Task
open Lib (Chain)

variable {s t : Sched} {l ran : List Nat} {k a : Nat}

/-- The list, and the position of the current task. -/
structure Queue (s : Sched) (l : List Nat) (k : Nat) : Prop where
  chain : Chain s.next s.kernelTask l
  current : l[k]? = some s.taskCurrent

theorem Queue.lt (h : Queue s l k) : k < l.length := (List.getElem?_eq_some_iff.mp h.current).1

theorem Queue.first (h : Queue s l k) : l[0]? = some s.kernelTask := by
  rw [← List.head?_eq_getElem?]
  exact h.chain.head?

theorem Queue.next (h : Queue s l k) :
    l[(k + 1) % l.length]? = some (if (s.mem s.taskCurrent).next = 0 then s.kernelTask else (s.mem s.taskCurrent).next) := by
  obtain ⟨hk, hcur⟩ := List.getElem?_eq_some_iff.mp h.current
  obtain hlast | hlt := Nat.eq_or_lt_of_le (Nat.succ_le_of_lt hk)
  · have hnone := h.chain.succ_last hlast
    rw [List.get_eq_getElem, hcur] at hnone
    rw [if_pos (Sched.next_eq_none.mp hnone), show k + 1 = l.length from hlast, Nat.mod_self]
    exact h.first
  · have hsucc := h.chain.succ_getElem hlt
    rw [hcur] at hsucc
    obtain ⟨hnext, h0⟩ := Sched.next_eq_some.mp hsucc
    rw [hnext, if_neg h0, Nat.mod_eq_of_lt hlt]
    exact List.getElem?_eq_getElem hlt

theorem Queue.switch (h : Queue s l k) (cpu : Nat) : Queue (switchTask s cpu) l ((k + 1) % l.length) where
  chain := by
    refine h.chain.congr fun x _ => ?_
    show (s.store s.taskCurrent { s.mem s.taskCurrent with stack := cpu }).next x = s.next x
    by_cases hx : x = s.taskCurrent
    · rw [hx, Sched.next, Sched.next, Sched.mem_store]
    · exact Sched.next_store_ne s _ hx
  current := h.next

theorem Queue.create {walk newTask stackProvider : Nat} (h : Queue s l k) (hf : Fresh s newTask)
    (ht : taskCreate walk s newTask stackProvider = some t) : Queue t (l ++ [newTask]) k ∧ t.kernelTask = s.kernelTask := by
  obtain ⟨hchain, hkernel, hcur, -⟩ := create_list h.chain hf.1 (hf.2 l h.chain) ht
  refine ⟨⟨hchain, ?_⟩, hkernel⟩
  rw [List.getElem?_append_left h.lt, hcur]
  exact h.current

/-! ## A round -/

def currents (s : Sched) : List Nat → List Nat
  | [] => []
  | cpu :: cpus => (switchTask s cpu).taskCurrent :: currents (switchTask s cpu) cpus

theorem length_currents (s : Sched) (cpus : List Nat) : (currents s cpus).length = cpus.length := by
  induction cpus generalizing s with
  | nil => rfl
  | cons cpu cpus ih => rw [currents, List.length_cons, ih, List.length_cons]

theorem Queue.switches (h : Queue s l k) (cpus : List Nat) :
    Queue (cpus.foldl switchTask s) l ((k + cpus.length) % l.length) := by
  induction cpus generalizing s k with
  | nil =>
      rw [List.length_nil, Nat.add_zero, Nat.mod_eq_of_lt h.lt]
      exact h
  | cons cpu cpus ih =>
      have hrest := ih (h.switch cpu)
      rw [Nat.mod_add_mod, Nat.add_assoc, Nat.add_comm 1] at hrest
      exact hrest

theorem Queue.currents_getElem (h : Queue s l k) {cpus : List Nat} {i : Nat} (hi : i < cpus.length) :
    (currents s cpus)[i]? = l[(i + (k + 1)) % l.length]? := by
  induction cpus generalizing s k i with
  | nil => exact absurd hi (Nat.not_lt_zero i)
  | cons cpu cpus ih =>
      cases i with
      | zero =>
          rw [Nat.zero_add]
          exact (h.switch cpu).current.symm
      | succ i =>
          have hrest := ih (h.switch cpu) (Nat.lt_of_succ_lt_succ hi)
          rw [currents, List.getElem?_cons_succ, hrest, ← Nat.add_assoc, Nat.add_right_comm, Nat.add_mod_mod]

/-- As many switches as there are tasks go once around the list. -/
theorem Queue.currents_eq (h : Queue s l k) {cpus : List Nat} (hlen : cpus.length = l.length) :
    currents s cpus = l.rotate (k + 1) := by
  apply List.ext_getElem?
  intro i
  by_cases hi : i < l.length
  · rw [h.currents_getElem (hlen ▸ hi), List.getElem?_rotate hi]
  · rw [List.getElem?_eq_none (by rw [length_currents]; omega), List.getElem?_eq_none (by rw [List.length_rotate]; omega)]

/-! ## Creations in between -/

/-- From `s` to `t` there are switches and creations, and the tasks `ran` become current one after another. -/
inductive Turns (s : Sched) : List Nat → Sched → Prop
  | refl : Turns s [] s
  | switch {t : Sched} {ran : List Nat} (h : Turns s ran t) (cpu : Nat) :
    Turns s (ran ++ [(switchTask t cpu).taskCurrent]) (switchTask t cpu)
  | create {t u : Sched} {ran : List Nat} {walk newTask stackProvider : Nat} (h : Turns s ran t) (hf : Fresh t newTask)
    (ht : taskCreate walk t newTask stackProvider = some u) : Turns s ran u

/-- Until `kernel_task` comes again, the tasks behind the first one become current in their order; new tasks come last. -/
theorem Turns.queue (h : Turns s ran t) (hq : Queue s l k) (hk : s.kernelTask ∉ ran) :
    ∃ new, Queue t (l ++ new) (k + ran.length) ∧ t.kernelTask = s.kernelTask ∧
      ran = ((l ++ new).drop (k + 1)).take ran.length := by
  induction h with
  | refl => exact ⟨[], by rwa [List.append_nil], rfl, rfl⟩
  | @switch t ran _ cpu ih =>
      obtain ⟨new, hqt, hkernel, hran⟩ := ih fun hmem => hk (List.mem_append_left _ hmem)
      have hnext := (hqt.switch cpu).current
      have hlt : k + ran.length + 1 < (l ++ new).length := by
        by_contra hge
        have hwrap : k + ran.length + 1 = (l ++ new).length := by
          have := hqt.lt
          omega
        -- behind the last task of the list comes the first
        rw [hwrap, Nat.mod_self, hqt.first, Option.some.injEq, hkernel] at hnext
        exact hk (List.mem_append_right _ (List.mem_singleton.mpr hnext))
      have hq' := hqt.switch cpu
      rw [Nat.mod_eq_of_lt hlt] at hnext hq'
      refine ⟨new, ?_, hkernel, ?_⟩
      · rw [List.length_append, List.length_singleton, ← Nat.add_assoc]
        exact hq'
      · rw [List.length_append, List.length_singleton, List.take_add_one, ← hran, List.getElem?_drop,
          Nat.add_right_comm, hnext, Option.toList_some]
  | @create t u ran _ newTask _ _ hf ht ih =>
      obtain ⟨new, hqt, hkernel, hran⟩ := ih hk
      obtain ⟨hqu, hku⟩ := hqt.create hf ht
      have hlt := hqt.lt
      refine ⟨new ++ [newTask], ?_, hku.trans hkernel, ?_⟩
      · rw [← List.append_assoc]
        exact hqu
      · rw [← List.append_assoc, List.drop_append_of_le_length (by omega),
          List.take_append_of_le_length (by rw [List.length_drop]; omega)]
        exact hran

theorem Queue.wrap (h : Queue s l k) {cpu : Nat} (hlast : (switchTask s cpu).taskCurrent = s.kernelTask) :
    k + 1 = l.length := by
  have hlt := h.lt
  have hmod : (k + 1) % l.length < l.length := Nat.mod_lt _ (Nat.zero_lt_of_lt hlt)
  have hnext := (h.switch cpu).current
  rw [hlast, ← h.first] at hnext
  have hzero : (k + 1) % l.length = 0 := (List.getElem?_inj hmod h.chain.nodup).mp hnext
  by_contra hne
  rw [Nat.mod_eq_of_lt (by omega)] at hzero
  omega

/-- A full round makes every task current once and ends where it started. With creations in between, until `kernel_task`
comes again no task becomes current twice, and the tasks behind the current one become current in their order, all of
them by the time it comes. -/
theorem roundRobin (h : Chain s.next s.kernelTask l) (hcur : s.taskCurrent ∈ l) :
    (∀ cpus : List Nat, cpus.length = l.length →
      (currents s cpus).Perm l ∧ (∀ a ∈ l, (currents s cpus).count a = 1) ∧
        (cpus.foldl switchTask s).taskCurrent = s.taskCurrent) ∧
    ∃ pre post, l = pre ++ s.taskCurrent :: post ∧ ∀ ran t, Turns s ran t → s.kernelTask ∉ ran →
      ran.Nodup ∧ ∃ new, Chain t.next s.kernelTask (l ++ new) ∧ ran <+: post ++ new ∧
        ∀ cpu, (switchTask t cpu).taskCurrent = s.kernelTask → ran = post ++ new := by
  obtain ⟨pre, post, rfl⟩ := List.append_of_mem hcur
  have hq : Queue s (pre ++ s.taskCurrent :: post) pre.length := ⟨h, by simp⟩
  refine ⟨fun cpus hlen => ?_, pre, post, rfl, fun ran t ht hk => ?_⟩
  · have hperm : (currents s cpus).Perm (pre ++ s.taskCurrent :: post) := by
      rw [hq.currents_eq hlen]
      exact List.rotate_perm _ _
    refine ⟨hperm, fun a ha => ?_, ?_⟩
    · rw [hperm.count_eq]
      exact List.count_eq_one_of_mem h.nodup ha
    · have hend := (hq.switches cpus).current
      rw [hlen, Nat.add_mod_right, Nat.mod_eq_of_lt hq.lt, hq.current, Option.some.injEq] at hend
      exact hend.symm
  · obtain ⟨new, hqt, hkernel, hran⟩ := ht.queue hq hk
    have hdrop : (pre ++ s.taskCurrent :: post ++ new).drop (pre.length + 1) = post ++ new := by simp
    rw [hdrop] at hran
    have hnodup : (post ++ new).Nodup := by
      rw [← hdrop]
      exact hqt.chain.nodup.sublist (List.drop_sublist _ _)
    refine ⟨?_, new, ?_, ?_, fun cpu hlast => ?_⟩
    · rw [hran]
      exact hnodup.sublist (List.take_sublist _ _)
    · rw [← hkernel]
      exact hqt.chain
    · rw [hran]
      exact List.take_prefix _ _
    · have hwrap := hqt.wrap (hlast.trans hkernel.symm)
      rw [hran, List.take_of_length_le]
      simp only [List.length_append, List.length_cons] at hwrap ⊢
      omega

def twoTasks : Sched where
  mem := Function.update (Function.update (fun _ => ⟨0, 0, 0, 0, 0, 0⟩) 0x1000 ⟨0, 0, 0, 1, 0, 0x3000⟩) 0x3000
    ⟨1, 0, 0, 1, 0, 0⟩
  kernelTask := 0x1000
  taskCurrent := 0x3000
  taskNext := 0x3000
  idTask := 2
  time := 0

theorem roundRobin_twoTasks :
    (currents twoTasks [0x8000, 0x9000]).Perm [0x1000, 0x3000] ∧
      ([0x8000, 0x9000].foldl switchTask twoTasks).taskCurrent = 0x3000 := by
  have hchain : Chain twoTasks.next 0x1000 [0x1000, 0x3000] := .link (by decide) (.last (by decide))
  obtain ⟨hperm, -, hend⟩ := (roundRobin hchain (by decide)).1 [0x8000, 0x9000] rfl
  exact ⟨hperm, hend⟩

end HaOS.Task
