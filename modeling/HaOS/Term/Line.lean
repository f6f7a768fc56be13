import HaOS.Term.Terminal

/-!
# The input line (`logs`, of 1024 bytes)

* `InBuffer` : every write so far was inside `logs`;
* `Fits` : a key leaves room for the terminator, and a newline finds one;
* `inBuffer_step`, `not_inBuffer_step` : steps that fit stay inside, the others do not;
* `writes_iff` : the writes of a run are all inside exactly when its keys all fit;
* `terminated_step` : a terminator, once written, stays.
-/

namespace HaOS.Term
open Lib (Steps Meets)

variable {scr : Screen} {font : UInt8 → Nat → UInt8} {s t : State} {key : UInt8} {e : Event} {len i : Nat}
  {output : List UInt8}

def InBuffer (s : State) : Prop := ∀ i ∈ s.writes, i < 1024

def Terminated (s : State) : Prop := ∃ i < 1024, s.logs i = 0

/-- A character is typed while at most 1022 are pending, and a newline while there is a zero in `logs`. -/
def Fits (s : State) : Event → Prop
  | .key key _ => (Printable key → s.indexLogs < 1023) ∧ (key = 0x0A → Terminated s)
  | _ => True

theorem SameLine.trans {u : State} (h : SameLine s t) (h' : SameLine t u) : SameLine s u :=
  ⟨h'.logs.trans h.logs, h'.indexLogs.trans h.indexLogs, h'.writes.trans h.writes⟩

/-! ## The command -/

theorem writes_splitArgs (hlen : s.logs len = 0) :
    len ∈ (splitArgs len s).writes ∧ ∀ i ∈ (splitArgs len s).writes, i ∈ s.writes ∨ i ≤ len := by
  have hsub : ∀ (l : List Nat) (t : State), ∀ i ∈ (l.foldl splitStep t).writes, i ∈ t.writes ∨ i ∈ l := by
    intro l
    induction l with
    | nil => exact fun t i hi => .inl hi
    | cons j l ih =>
        intro t i hi
        rcases ih _ i hi with h | h
        · unfold splitStep at h
          split_ifs at h
          · rcases List.mem_cons.mp h with rfl | h
            · exact .inr List.mem_cons_self
            · exact .inl h
          · exact .inl h
        · exact .inr (List.mem_cons_of_mem _ h)
  constructor
  · have hkeep : ((List.range len).foldl splitStep s).logs len = 0 := by
      refine foldl_splitStep (P := fun t => t.logs len = 0) (fun t i ht => ?_) _ hlen
      show Function.update t.logs i 0 len = 0
      rw [Function.update_apply]
      split_ifs
      · rfl
      · exact ht
    rw [splitArgs, List.range_succ, List.foldl_append, List.foldl_cons, List.foldl_nil, splitStep, if_pos (.inr hkeep)]
    exact List.mem_cons_self
  · intro i hi
    refine (hsub _ s i hi).imp id fun h => ?_
    exact Nat.le_of_lt_succ (List.mem_range.mp h)

theorem writes_termExec (len : Nat) (output : List UInt8) (s : State) :
    (termExec scr font len output s).writes = (splitArgs len s).writes := by
  unfold termExec
  simp only
  split_ifs
  · rfl
  · exact foldl_termPutc (P := fun t => t.writes = (splitArgs len s).writes)
      (fun t c ht => (sameLine_termDrawChar c t).writes.trans ht) output rfl

/-- What a newline writes: inside the command, at its terminator, and at 0. -/
theorem writes_enter (hlen : s.logs len = 0) : len ∈ (enter scr font len output s).writes ∧
    ∀ i ∈ (enter scr font len output s).writes, i ∈ s.writes ∨ i ≤ len := by
  have hrow : SameLine s (newRow scr s) := sameLine_newRow s
  have hexec : (termExec scr font len output (newRow scr s)).writes = (splitArgs len (newRow scr s)).writes :=
    writes_termExec len output _
  obtain ⟨hmem, hsub⟩ := writes_splitArgs (s := newRow scr s) (hrow.logs ▸ hlen)
  have hw : (enter scr font len output s).writes = 0 :: (splitArgs len (newRow scr s)).writes := by
    rw [enter, (sameLine_termDrawChar _ _).writes, ← hexec]
    rfl
  rw [hw]
  refine ⟨List.mem_cons_of_mem _ hmem, fun i hi => ?_⟩
  rcases List.mem_cons.mp hi with rfl | hi
  · exact .inr (Nat.zero_le _)
  · exact hrow.writes ▸ hsub i hi

theorem line_printable (key : UInt8) (s : State) :
    (printable scr font key s).writes = dword (s.indexLogs + 1) :: s.indexLogs :: s.writes ∧
      (printable scr font key s).indexLogs = dword (s.indexLogs + 1) := by
  rw [printable, (sameLine_termDrawChar _ _).writes, (sameLine_termDrawChar _ _).indexLogs]
  exact ⟨rfl, rfl⟩

theorem indexLogs_enter : (enter scr font len output s).indexLogs = 0 := by
  rw [enter, (sameLine_termDrawChar _ _).indexLogs]
  rfl

theorem line_backspace :
    (backspace scr font s).writes = (if s.indexLogs = 0 then s.writes else (s.indexLogs - 1) :: s.writes) ∧
    (backspace scr font s).indexLogs = s.indexLogs - 1 := by
  unfold backspace
  split_ifs with h0
  · exact ⟨rfl, by omega⟩
  · exact ⟨rfl, rfl⟩

/-! ## Steps -/

theorem Terminated.len_lt (h : Terminated s) (hlen : ∀ i < len, s.logs i ≠ 0) : len < 1024 := by
  obtain ⟨i, hi, h0⟩ := h
  by_contra hge
  exact hlen i (by omega) h0

theorem Printable.ne (h : Printable key) : key ≠ 0 ∧ key ≠ 0x08 ∧ key ≠ 0x0A := by
  refine ⟨?_, ?_, ?_⟩ <;>
    · rintro rfl
      exact absurd h (by decide)

theorem termRunKey_printable (h : Printable key) : termRunKey scr font key len output s = printable scr font key s := by
  obtain ⟨h0, h8, hA⟩ := h.ne
  rw [termRunKey, if_neg h0, if_neg h8, if_neg hA, if_pos h]

/-- A key that fits writes inside `logs` and leaves at most 1023 characters pending. -/
theorem inBuffer_step (h : InBuffer s ∧ s.indexLogs ≤ 1023) (he : Fits s e) (hs : Step scr font s e t) :
    InBuffer t ∧ t.indexLogs ≤ 1023 := by
  obtain ⟨hin, hp⟩ := h
  cases hs with
  | @putc c =>
      have hline : SameLine s (termPutc scr font c s) := sameLine_termDrawChar c s
      unfold InBuffer
      rw [hline.writes, hline.indexLogs]
      exact ⟨hin, hp⟩
  | other => exact ⟨hin, hp⟩
  | @key key output len hlen =>
      obtain ⟨hroom, hterm⟩ := he
      unfold termRunKey
      split_ifs with h1 h2 h3 h4
      · exact ⟨hin, hp⟩
      · obtain ⟨hw, hindex⟩ : (backspace scr font s).writes = _ ∧ _ := line_backspace
        refine ⟨fun i hi => ?_, by omega⟩
        rw [hw] at hi
        split_ifs at hi
        · exact hin i hi
        · rcases List.mem_cons.mp hi with rfl | hi
          · omega
          · exact hin i hi
      · obtain ⟨h0, hbefore⟩ := hlen h3
        have hlt : len < 1024 := (hterm h3).len_lt hbefore
        refine ⟨fun i hi => ?_, indexLogs_enter.le.trans (Nat.zero_le _)⟩
        rcases (writes_enter h0).2 i hi with hi | hi
        · exact hin i hi
        · omega
      · have hlt := hroom h4
        have hnext : dword (s.indexLogs + 1) = s.indexLogs + 1 := dword_of_lt (by omega)
        obtain ⟨hw, hindex⟩ : (printable scr font key s).writes = _ ∧ _ := line_printable key s
        rw [hnext] at hw hindex
        refine ⟨fun i hi => ?_, by omega⟩
        rw [hw] at hi
        rcases List.mem_cons.mp hi with rfl | hi
        · omega
        · rcases List.mem_cons.mp hi with rfl | hi
          · omega
          · exact hin i hi
      · exact ⟨hin, hp⟩

theorem not_inBuffer_step (he : ¬ Fits s e) (hs : Step scr font s e t) : ¬ InBuffer t := by
  intro hin
  cases hs with
  | putc => exact he trivial
  | other => exact he trivial
  | @key key output len hlen =>
      apply he
      constructor
      · intro hkey
        rw [termRunKey_printable hkey] at hin
        have hw : (printable scr font key s).writes = _ := (line_printable key s).1
        unfold InBuffer at hin
        rw [hw] at hin
        have hchar := hin s.indexLogs (List.mem_cons_of_mem _ List.mem_cons_self)
        have hzero := hin (dword (s.indexLogs + 1)) List.mem_cons_self
        rw [dword_of_lt (by omega)] at hzero
        omega
      · rintro rfl
        obtain ⟨h0, _⟩ := hlen rfl
        rw [termRunKey, if_neg (by decide), if_neg (by decide), if_pos rfl] at hin
        exact ⟨len, hin len (writes_enter h0).1, h0⟩

/-! ## Runs -/

/-- In a run, every write to a character of the line is inside `logs` exactly when every key fits. -/
theorem writes_iff {logs : Nat → UInt8} {tr : List (Event × State)}
    (hs : Steps (Step scr font) (termStart scr font logs) tr) :
    (∀ x ∈ tr, ∀ i ∈ x.2.writes, i < 1024) ↔ Meets Fits (termStart scr font logs) tr := by
  have hline : SameLine (State.init logs) (termStart scr font logs) := sameLine_termDrawChar _ _
  have hstart : InBuffer (termStart scr font logs) ∧ (termStart scr font logs).indexLogs ≤ 1023 := by
    unfold InBuffer
    rw [hline.writes, hline.indexLogs]
    exact ⟨fun i hi => (nomatch hi), Nat.zero_le _⟩
  exact Lib.always_iff_meets (P := InBuffer) (fun _ h => h.1) (fun _ _ _ h hl he => inBuffer_step h he hl)
    (fun _ _ _ _ hl he => not_inBuffer_step he hl) hstart hs

/-- A character leaves a zero in `logs`, and it stays there: only a newline before the first character can miss it. -/
theorem terminated_step (h : Terminated s ∨ ∃ key output, e = .key key output ∧ Printable key) (he : Fits s e)
    (hs : Step scr font s e t) : Terminated t := by
  cases hs with
  | @putc c =>
      obtain ⟨i, hi, h0⟩ := h.resolve_right (by rintro ⟨_, _, ⟨⟩, _⟩)
      exact ⟨i, hi, (congrFun (sameLine_termDrawChar c s).logs i).trans h0⟩
  | @other mem hmem =>
      obtain ⟨i, hi, h0⟩ := h.resolve_right (by rintro ⟨_, _, ⟨⟩, _⟩)
      exact ⟨i, hi, (hmem i hi).trans h0⟩
  | @key key output len hlen =>
      have hold : ¬ Printable key → Terminated s := by
        intro hkey
        refine h.resolve_right ?_
        rintro ⟨_, _, ⟨⟩, hp⟩
        exact hkey hp
      unfold termRunKey
      split_ifs with h1 h2 h3 h4
      · exact hold fun hp => hp.ne.1 h1
      · obtain ⟨i, hi, h0⟩ := hold fun hp => hp.ne.2.1 h2
        refine ⟨i, hi, ?_⟩
        unfold backspace
        split_ifs with hz
        · exact h0
        · show Function.update s.logs (s.indexLogs - 1) 0 i = 0
          rw [Function.update_apply]
          split_ifs
          · rfl
          · exact h0
      · refine ⟨0, by decide, ?_⟩
        rw [enter, (sameLine_termDrawChar _ _).logs]
        exact Function.update_self 0 0 (termExec scr font len output (newRow scr s)).logs
      · have hlt := he.1 h4
        have hnext : dword (s.indexLogs + 1) = s.indexLogs + 1 := dword_of_lt (by omega)
        refine ⟨s.indexLogs + 1, by omega, ?_⟩
        rw [printable, (sameLine_termDrawChar _ _).logs, hnext]
        exact Function.update_self (s.indexLogs + 1) 0 (s.store s.indexLogs key).logs
      · exact hold h4

def typed (scr : Screen) (font : UInt8 → Nat → UInt8) : Nat → State → List (Event × State)
  | 0, _ => []
  | n + 1, s => (.key 0x41 [], printable scr font 0x41 s) :: typed scr font n (printable scr font 0x41 s)

theorem steps_typed : ∀ (n : Nat) (s : State), Steps (Step scr font) s (typed scr font n s)
  | 0, _ => trivial
  | n + 1, s => by
      have hstep : Step scr font s (.key 0x41 []) (termRunKey scr font 0x41 0 [] s) := .key fun h => absurd h (by decide)
      rw [termRunKey_printable (by decide)] at hstep
      exact ⟨hstep, steps_typed n _⟩

theorem mem_typed : ∀ {n : Nat} {s : State}, 0 < n → s.indexLogs + n < 2 ^ 32 →
    ∃ x ∈ typed scr font n s, s.indexLogs + n ∈ x.2.writes
  | n + 1, s, _, hlt => by
      obtain ⟨hw, hindex⟩ : (printable scr font 0x41 s).writes = _ ∧ _ := line_printable 0x41 s
      rw [dword_of_lt (by omega)] at hw hindex
      rcases Nat.eq_zero_or_pos n with rfl | hn
      · refine ⟨_, List.mem_cons_self, ?_⟩
        rw [hw]
        exact List.mem_cons_self
      · obtain ⟨x, hx, hmem⟩ := mem_typed (s := printable scr font 0x41 s) hn (by omega)
        rw [hindex, Nat.add_assoc, Nat.add_comm 1 n] at hmem
        exact ⟨x, List.mem_cons_of_mem _ hx, hmem⟩

/-- `term_run` on the small screen, with a `logs` that holds zeros. -/
def smallStart : State := termStart smallScreen barFont fun _ => 0

theorem writes_iff_smallScreen : (∀ x ∈ typed smallScreen barFont 3 smallStart, ∀ i ∈ x.2.writes, i < 1024) ↔
    Meets Fits smallStart (typed smallScreen barFont 3 smallStart) :=
  writes_iff (steps_typed 3 _)

/-- The 1024th character of a line puts the terminator behind `logs`. -/
theorem not_writes_longLine : Steps (Step smallScreen barFont) smallStart (typed smallScreen barFont 1024 smallStart) ∧
    ¬ ∀ x ∈ typed smallScreen barFont 1024 smallStart, ∀ i ∈ x.2.writes, i < 1024 := by
  refine ⟨steps_typed _ _, fun h => ?_⟩
  have hindex : smallStart.indexLogs = 0 := (sameLine_termDrawChar _ _).indexLogs
  obtain ⟨x, hx, hmem⟩ := @mem_typed smallScreen barFont 1024 smallStart (by decide) (by rw [hindex]; decide)
  rw [hindex] at hmem
  exact absurd (h x hx _ hmem) (by decide)

end HaOS.Term
