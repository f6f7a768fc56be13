import HaOS.Print.Numbers
import HaOS.Term.Terminal

/-!
# The words of a command (`term_exec`)

* `Command` : what the editor holds, a text of at most 1023 characters;
* `splitRound`, `splitLoop`, `Command.split` : the splitting loop, with what it writes to `cmd` and to `args`;
* `Fields` : the arguments point at the fields, one behind another, each with its NUL;
* `splitLoop_fields` : the loop leaves the fields of a line between single spaces;
* `splits_iff` : when all of it fits into `args`;
* `splitArgs_logs` : the loop leaves in `cmd` what `splitArgs` leaves in `logs`.
-/

namespace HaOS.Term

open Lib (Buffer)
open Print (Holds)
open Print.Numbers (strsize)

def maxArgs : Nat := 64

def space : UInt8 := 0x20

/-- A line of the editor, whose buffer has 1024 bytes. -/
structure Command where
  cmd : Nat → UInt8
  line : List UInt8
  holds : Holds cmd line
  short : line.length ≤ 1023

/-- The variables of the loop. The pointers in `args`, and `start_addr`, are indices in `cmd`. -/
structure Split where
  cmd : Buffer UInt8
  args : Buffer Nat
  index : Nat
  argc : Nat
  startAddr : Nat

def splitRound (s : Split) : Split :=
  if s.cmd.get s.index = space ∨ s.cmd.get s.index = 0 then
    { cmd := s.cmd.put s.index 0
      args := s.args.put s.argc s.startAddr
      index := s.index + 1
      argc := s.argc + 1
      startAddr := s.index + 1 }
  else { s with index := s.index + 1 }

/-- `while( index <= len )`: each round ends with the next index. -/
def splitLoop : Nat → Split → Split
  | 0, s => s
  | left + 1, s => splitLoop left (splitRound s)

/-- The loop on a command, with whatever `args` held. -/
def Command.split (c : Command) (args : Nat → Nat) : Option Split :=
  (strsize 1024 c.cmd).map fun len => splitLoop (len + 1) ⟨⟨c.cmd, []⟩, ⟨args, []⟩, 0, 0, 0⟩

/-- From `args[k]` on the arguments point at the fields, which stand one behind another from `start` on. -/
def Fields (cmd : Nat → UInt8) (args : Nat → Nat) : Nat → Nat → List (List UInt8) → Prop
  | _, _, [] => True
  | k, start, f :: fs =>
    args k = start ∧ Holds (fun i => cmd (start + i)) f ∧ Fields cmd args (k + 1) (start + f.length + 1) fs

/-- The arguments are the fields of the line, and all of them were stored inside `args`. -/
structure Splits (line : List UInt8) (s : Split) : Prop where
  fields : Fields s.cmd.get s.args.get 0 0 (line.splitOn space)
  argc : s.argc = 1 + line.count space
  inside : ∀ i ∈ s.args.written, i < maxArgs

variable {s : Split} {cur rest line : List UInt8} {b : UInt8}

/-! ## Fields -/

theorem splitOn_field (h : space ∉ cur) : cur.splitOn space = [cur] := by
  rw [List.splitOn_eq_splitOnP]
  apply List.splitOnP_eq_singleton
  intro x hx
  exact beq_eq_false_iff_ne.mpr fun heq => h (heq ▸ hx)

theorem splitOn_append (h : space ∉ cur) (rest : List UInt8) :
    (cur ++ space :: rest).splitOn space = cur :: rest.splitOn space := by
  have hcur := splitOn_field h
  rw [List.splitOn_eq_splitOnP] at hcur ⊢
  rw [List.splitOnP_append_cons (p := (· == space)) cur rest (beq_self_eq_true space), hcur, List.splitOn_eq_splitOnP]
  rfl

theorem length_splitOn (line : List UInt8) : (line.splitOn space).length = 1 + line.count space := by
  induction line with
  | nil => rfl
  | cons b line ih =>
      rw [List.splitOn_eq_splitOnP] at ih ⊢
      rw [List.splitOnP_cons_eq_if_modifyHead, List.count_cons]
      split_ifs
      · rw [List.length_cons, ih, Nat.add_assoc]
      · rw [List.length_modifyHead, ih]
        rfl

theorem Fields.congr {cmd cmd' : Nat → UInt8} {args args' : Nat → Nat} {fs : List (List UInt8)} {k start : Nat}
    (h : Fields cmd args k start fs) (hcmd : ∀ i, start ≤ i → cmd' i = cmd i) (hargs : ∀ i, k ≤ i → args' i = args i) :
    Fields cmd' args' k start fs := by
  induction fs generalizing k start with
  | nil => trivial
  | cons f fs ih =>
      obtain ⟨hk, hf, hrest⟩ := h
      exact ⟨(hargs k (Nat.le_refl k)).trans hk, hf.congr fun i _ => hcmd _ (Nat.le_add_right _ _),
        ih hrest (fun i hi => hcmd i (by omega)) (fun i hi => hargs i (by omega))⟩

/-! ## The loop -/

theorem splitRound_char (h : s.cmd.get s.index = b) (hspace : b ≠ space) (hnul : b ≠ 0) :
    splitRound s = { s with index := s.index + 1 } := by
  rw [splitRound, h, if_neg (not_or.mpr ⟨hspace, hnul⟩)]

theorem splitRound_end (h : s.cmd.get s.index = space ∨ s.cmd.get s.index = 0) :
    splitRound s = ⟨s.cmd.put s.index 0, s.args.put s.argc s.startAddr, s.index + 1, s.argc + 1, s.index + 1⟩ := if_pos h

/-- What the loop does from a field on of which it has passed `cur`: the arguments of the fields that are left are stored
one after another, and nothing else is written to `args`, nor before the index to `cmd`. -/
structure Ran (s : Split) (fs : List (List UInt8)) (t : Split) : Prop where
  fields : Fields t.cmd.get t.args.get s.argc s.startAddr fs
  argc : t.argc = s.argc + fs.length
  cmd : Buffer.Writes (s.index ≤ ·) s.cmd t.cmd
  args : Buffer.Writes (s.argc ≤ ·) s.args t.args
  stored : ∀ k, k ∈ t.args.written ↔ k ∈ s.args.written ∨ s.argc ≤ k ∧ k < t.argc

theorem ran_end (hindex : s.index = s.startAddr + cur.length)
    (hcur : ∀ i (hi : i < cur.length), s.cmd.get (s.startAddr + i) = cur[i]) (hnul : 0 ∉ cur)
    (hend : s.cmd.get s.index = space ∨ s.cmd.get s.index = 0) : Ran s [cur] (splitRound s) := by
  rw [splitRound_end hend]
  refine ⟨⟨Buffer.get_put_self .., ?_, trivial⟩, rfl, Buffer.writes_put _ _ (Nat.le_refl _),
    Buffer.writes_put _ _ (Nat.le_refl _), fun k => ?_⟩
  · apply Print.holds_of_get _ _ hnul
    · intro i hi
      rw [Buffer.get_put_of_ne _ _ (by omega)]
      exact hcur i hi
    · show (s.cmd.put s.index 0).get (s.startAddr + cur.length) = 0
      rw [← hindex, Buffer.get_put_self]
  · show k ∈ s.argc :: s.args.written ↔ k ∈ s.args.written ∨ s.argc ≤ k ∧ k < s.argc + 1
    rw [List.mem_cons, or_comm]
    exact or_congr_right ⟨fun h => by omega, fun h => by omega⟩

theorem Ran.trans {t u : Split} {f : List UInt8} {fs : List (List UInt8)} (h : Ran s [f] t) (h' : Ran t fs u)
    (hstart : t.startAddr = s.startAddr + f.length + 1) (hle : t.startAddr ≤ t.index) (hindex : s.index ≤ t.index) :
    Ran s (f :: fs) u := by
  obtain ⟨harg, hf, -⟩ := h.fields
  have hargc : t.argc = s.argc + 1 := h.argc
  refine ⟨⟨?_, ?_, ?_⟩, ?_, h.cmd.trans (h'.cmd.mono fun i hi => by omega), h.args.trans (h'.args.mono fun i hi => by omega),
    fun k => ?_⟩
  · rw [h'.args.get (by omega), harg]
  · exact hf.congr fun i hi => h'.cmd.get (by omega)
  · rw [← hargc, ← hstart]
    exact h'.fields
  · rw [h'.argc, hargc, List.length_cons]
    omega
  · rw [h'.stored, h.stored, or_assoc]
    exact or_congr_right ⟨fun hk => by have := h'.argc; omega, fun hk => by have := h'.argc; omega⟩

theorem Ran.index {t : Split} {fs : List (List UInt8)} (h : Ran { s with index := s.index + 1 } fs t) : Ran s fs t :=
  ⟨h.fields, h.argc, h.cmd.mono fun _ hi => Nat.le_of_succ_le hi, h.args, h.stored⟩

/-- From inside a field on, the loop stores the fields that are left. -/
theorem splitLoop_ran (hindex : s.index = s.startAddr + cur.length) (hspace : space ∉ cur)
    (h : Holds (fun i => s.cmd.get (s.startAddr + i)) (cur ++ rest)) :
    Ran s ((cur ++ rest).splitOn space) (splitLoop (rest.length + 1) s) := by
  induction rest generalizing s cur with
  | nil =>
      obtain ⟨hcur, hnul⟩ := h.append_left
      rw [List.append_nil] at h ⊢
      rw [splitOn_field hspace]
      apply ran_end hindex hcur hnul
      rw [hindex]
      exact .inr h.nul
  | cons b rest ih =>
      obtain ⟨hcur, hnul⟩ := h.append_left
      have hrest := h.append_right
      have hget : s.cmd.get s.index = b := by
        rw [hindex]
        exact hrest.get (Nat.succ_pos rest.length)
      rw [List.length_cons, splitLoop]
      by_cases hb : b = space
      · have hround := splitRound_end (.inl (hget.trans hb))
        have htext : Holds (fun i => (splitRound s).cmd.get ((splitRound s).startAddr + i)) ([] ++ rest) := by
          apply (Holds.append_right (show Holds _ ([b] ++ rest) from hrest)).congr
          intro i _
          rw [hround]
          show (s.cmd.put s.index 0).get (s.index + 1 + i) = s.cmd.get (s.startAddr + (cur.length + (1 + i)))
          rw [Buffer.get_put_of_ne _ _ (by omega), show s.index + 1 + i = s.startAddr + (cur.length + (1 + i)) by omega]
        have hnext := ih (s := splitRound s) (by rw [hround]; rfl) List.not_mem_nil htext
        rw [hb, splitOn_append hspace]
        apply (ran_end hindex hcur hnul (.inl (hget.trans hb))).trans hnext
        · rw [hround, hindex]
        · rw [hround]
        · rw [hround]
          exact Nat.le_succ _
      · have hround := splitRound_char hget hb fun h0 => h.inside (List.mem_append_right _ (h0 ▸ List.mem_cons_self))
        rw [List.append_cons] at h ⊢
        have hnext := ih (s := { s with index := s.index + 1 })
          (by rw [List.length_append, List.length_singleton, ← Nat.add_assoc, ← hindex])
          (fun hmem => (List.mem_append.mp hmem).elim hspace fun hmem => hb (List.mem_singleton.mp hmem).symm) h
        rw [hround]
        exact hnext.index

theorem Command.split_eq (c : Command) (args : Nat → Nat) :
    c.split args = some (splitLoop (c.line.length + 1) ⟨⟨c.cmd, []⟩, ⟨args, []⟩, 0, 0, 0⟩) := by
  rw [Command.split, Print.strsize_eq c.holds (Nat.lt_succ_of_le c.short)]
  rfl

/-- Split at single spaces, a command leaves its fields, and they fit exactly when it has at most 63 spaces. -/
theorem splits_iff (c : Command) (args : Nat → Nat) :
    (∃ s, c.split args = some s ∧ Splits c.line s) ↔ c.line.count space ≤ 63 := by
  have hcall := c.split_eq args
  have hholds : Holds (fun i => c.cmd (0 + i)) ([] ++ c.line) := by
    simpa only [Nat.zero_add, List.nil_append] using c.holds
  have hran := splitLoop_ran (s := ⟨⟨c.cmd, []⟩, ⟨args, []⟩, 0, 0, 0⟩) rfl List.not_mem_nil hholds
  have hargc := hran.argc
  rw [List.nil_append, length_splitOn] at hargc
  constructor
  · intro h
    obtain ⟨s, hs, hsplits⟩ := h
    cases hcall.symm.trans hs
    -- the last field goes to the place behind as many as there are spaces
    have hlast := hsplits.inside (c.line.count space) ((hran.stored _).mpr (.inr ⟨Nat.zero_le _, by rw [hargc]; simp⟩))
    exact Nat.le_of_lt_succ hlast
  · intro hcount
    refine ⟨_, hcall, hran.fields, by simpa using hargc, fun k hk => ?_⟩
    rcases (hran.stored k).mp hk with hk | ⟨-, hk⟩
    · cases hk
    · simp only [hargc] at hk
      rw [maxArgs]
      omega

def spaces : Command where
  cmd i := if i < 64 then space else 0
  line := List.replicate 64 space
  holds := ⟨by decide +kernel, rfl, by decide⟩
  short := by decide

/-- The last of its 65 empty fields is stored behind `args`. -/
theorem not_splits_spaces :
    ∃ s, spaces.split (fun _ => 0) = some s ∧ s.argc = 65 ∧ maxArgs ∈ s.args.written ∧ ¬ Splits spaces.line s := by
  have hmem : maxArgs ∈ (splitLoop (64 + 1) ⟨⟨spaces.cmd, []⟩, ⟨fun _ => 0, []⟩, 0, 0, 0⟩).args.written := by decide +kernel
  have hargc : (splitLoop (64 + 1) ⟨⟨spaces.cmd, []⟩, ⟨fun _ => 0, []⟩, 0, 0, 0⟩).argc = 65 := by decide +kernel
  have hcall := spaces.split_eq fun _ => 0
  rw [show spaces.line.length = 64 from List.length_replicate ..] at hcall
  exact ⟨_, hcall, hargc, hmem, fun h => absurd (h.inside maxArgs hmem) (Nat.lt_irrefl _)⟩

/-! ## The buffer of the editor -/

/-- Where `cmd` is `logs`, the loop leaves there what `splitArgs` does. -/
theorem splitArgs_logs (len : Nat) (t : State) (args : Nat → Nat) :
    (splitArgs len t).logs = (splitLoop (len + 1) ⟨⟨t.logs, []⟩, ⟨args, []⟩, 0, 0, 0⟩).cmd.get := by
  have hloop : ∀ (n : Nat) (s : Split) (t : State), t.logs = s.cmd.get →
      ((List.range' s.index n).foldl splitStep t).logs = (splitLoop n s).cmd.get := by
    intro n
    induction n with
    | zero => exact fun s t h => h
    | succ n ih =>
        intro s t h
        have hround : (splitStep t s.index).logs = (splitRound s).cmd.get ∧ (splitRound s).index = s.index + 1 := by
          rw [splitStep, splitRound, h, space]
          split_ifs
          · exact ⟨congrArg (Function.update · s.index 0) h, rfl⟩
          · exact ⟨h, rfl⟩
        rw [List.range'_succ, List.foldl_cons, splitLoop, ← hround.2]
        exact ih _ _ hround.1
  rw [splitArgs, List.range_eq_range']
  exact hloop (len + 1) ⟨⟨t.logs, []⟩, ⟨args, []⟩, 0, 0, 0⟩ t rfl

end HaOS.Term
