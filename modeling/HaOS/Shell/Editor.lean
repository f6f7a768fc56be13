import HaOS.Print.Numbers
import HaOS.Term.Line

/-!
# The line editor of the terminal (`term_run`)

* `edit`, `lines` : what keys make of a line, and the lines that they enter, without a buffer;
* `Editing` : the buffer `logs` holds the line;
* `Editing.runKey`, `Editing.command` : `term_run` edits as `edit` does, and a newline finds the line that was edited.
-/

namespace HaOS.Shell
open HaOS.Term
open HaOS.Print (Holds)

/-! ## Lines -/

/-- What a key does to a line. There is none until the first character, while `logs` is as `new_alloc` returned it. -/
def edit (line : Option (List UInt8)) (key : UInt8) : Option (List UInt8) :=
  if key = 0x08 then line.map List.dropLast
  else if key = 0x0A then some []
  else if Printable key then some (line.getD [] ++ [key])
  else line

def edits (line : Option (List UInt8)) (keys : List UInt8) : Option (List UInt8) := keys.foldl edit line

def lines : Option (List UInt8) → List UInt8 → List (Option (List UInt8))
  | _, [] => []
  | line, key :: keys => if key = 0x0A then line :: lines (edit line key) keys else lines (edit line key) keys

variable {line : Option (List UInt8)} {keys : List UInt8} {key b : UInt8} {text : List UInt8}
  {scr : Screen} {font : UInt8 → Nat → UInt8} {s t : State} {len : Nat} {output : List UInt8}

theorem edits_snoc (line : Option (List UInt8)) (keys : List UInt8) (key : UInt8) :
    edits line (keys ++ [key]) = edit (edits line keys) key := List.foldl_concat ..

theorem lines_append (line : Option (List UInt8)) (keys more : List UInt8) :
    lines line (keys ++ more) = lines line keys ++ lines (edits line keys) more := by
  induction keys generalizing line with
  | nil => rfl
  | cons key keys ih =>
      rw [List.cons_append, lines, lines, ih]
      split_ifs <;> rfl

theorem lines_snoc (line : Option (List UInt8)) (keys : List UInt8) (key : UInt8) :
    lines line (keys ++ [key]) = lines line keys ++ if key = 0x0A then [edits line keys] else [] := lines_append ..

theorem printable_of_edits (h : edits none keys = some text) (hb : b ∈ text) : b ∈ keys ∧ Printable b := by
  induction keys using List.reverseRecOn generalizing text with
  | nil => cases h
  | append_singleton keys key ih =>
      have hold : ∀ {l}, edits none keys = some l → b ∈ l → b ∈ keys ++ [key] ∧ Printable b := fun hl hmem =>
        ⟨List.mem_append_left _ (ih hl hmem).1, (ih hl hmem).2⟩
      rw [edits_snoc, edit] at h
      split_ifs at h with h8 hA hp
      · obtain ⟨l, hl, rfl⟩ := Option.map_eq_some_iff.mp h
        exact hold hl (List.mem_of_mem_dropLast hb)
      · cases h
        cases hb
      · cases h
        rcases List.mem_append.mp hb with hb | hb
        · cases hl : edits none keys with
          | none =>
              rw [hl] at hb
              cases hb
          | some l =>
              rw [hl] at hb
              exact hold hl hb
        · rw [List.mem_singleton.mp hb]
          exact ⟨List.mem_append_right _ List.mem_cons_self, hp⟩
      · exact hold h hb

/-- The buffer holds the line, and `index_logs` is behind it. -/
def Editing (s : State) : Option (List UInt8) → Prop
  | none => s.indexLogs = 0
  | some text => s.indexLogs = text.length ∧ Holds s.logs text

theorem Editing.indexLogs (h : Editing s line) : s.indexLogs = (line.getD []).length := by
  cases line with
  | none => exact h
  | some text => exact h.1

theorem Editing.congr (h : Editing s line) (hindex : t.indexLogs = s.indexLogs)
    (hlogs : ∀ i ≤ (line.getD []).length, t.logs i = s.logs i) : Editing t line := by
  cases line with
  | none => exact hindex.trans h
  | some text => exact ⟨hindex.trans h.1, h.2.congr hlogs⟩

theorem Editing.same (h : Editing s line) (hline : SameLine s t) : Editing t line :=
  h.congr hline.indexLogs fun i _ => congrFun hline.logs i

theorem Editing.printable (h : Editing s line) (hkey : Printable key) (hroom : (line.getD []).length < 1023) :
    Editing (printable scr font key s) (some (line.getD [] ++ [key])) := by
  have hindex := h.indexLogs
  have hnext : dword (s.indexLogs + 1) = s.indexLogs + 1 := dword_of_lt (by omega)
  have hlogs : (Term.printable scr font key s).logs =
      Function.update (Function.update s.logs s.indexLogs key) (s.indexLogs + 1) 0 := by
    rw [Term.printable, (sameLine_termDrawChar _ _).logs, hnext]
    rfl
  have hbefore : ∀ i (hi : i < (line.getD []).length), s.logs i = (line.getD [])[i] ∧ (line.getD [])[i] ≠ 0 := by
    intro i hi
    cases line with
    | none => exact absurd hi (Nat.not_lt_zero i)
    | some text => exact ⟨h.2.get hi, fun h0 => h.2.inside (h0 ▸ List.getElem_mem hi)⟩
  refine ⟨?_, Print.holds_of_get (fun i hi => ?_) ?_ fun h0 => ?_⟩
  · rw [(line_printable key s).2, hnext, hindex, List.length_append]
    rfl
  · rw [List.length_append, List.length_singleton] at hi
    rw [hlogs, Function.update_of_ne (by omega)]
    by_cases hlast : i = s.indexLogs
    · obtain rfl := hlast.trans hindex
      rw [hindex, Function.update_self, List.getElem_append_right (Nat.le_refl _)]
      simp only [Nat.sub_self, List.getElem_cons_zero]
    · rw [Function.update_of_ne hlast, List.getElem_append_left (by omega)]
      exact (hbefore i (by omega)).1
  · rw [hlogs, List.length_append, List.length_singleton, ← hindex, Function.update_self]
  · rcases List.mem_append.mp h0 with h0 | h0
    · obtain ⟨i, hi, heq⟩ := List.getElem_of_mem h0
      exact (hbefore i hi).2 heq
    · exact hkey.ne.1 (List.mem_singleton.mp h0).symm

/-- Backspace takes the last character, if there is one. -/
theorem Editing.backspace (h : Editing s line) : Editing (backspace scr font s) (line.map List.dropLast) := by
  have hindex := h.indexLogs
  by_cases h0 : s.indexLogs = 0
  · rw [Term.backspace, if_pos h0]
    cases line with
    | none => exact h
    | some text =>
        obtain rfl : text = [] := List.length_eq_zero_iff.mp (h.1.symm.trans h0)
        exact h
  · cases line with
    | none => exact absurd h h0
    | some text =>
        obtain ⟨hlen, hholds⟩ := h
        have hlogs : (Term.backspace scr font s).logs = Function.update s.logs (s.indexLogs - 1) 0 := by
          rw [Term.backspace, if_neg h0]
          rfl
        have hdrop : text.dropLast.length = s.indexLogs - 1 := by rw [List.length_dropLast, hlen]
        refine ⟨line_backspace.2.trans hdrop.symm, Print.holds_of_get (fun i hi => ?_) ?_ fun hmem => ?_⟩
        · rw [hdrop] at hi
          rw [hlogs, Function.update_of_ne (by omega), List.getElem_dropLast]
          exact hholds.get (by omega)
        · rw [hlogs, hdrop, Function.update_self]
        · exact hholds.inside (List.mem_of_mem_dropLast hmem)

/-- A newline leaves an empty line. -/
theorem editing_enter (len : Nat) (output : List UInt8) (s : State) : Editing (enter scr font len output s) (some []) := by
  refine ⟨indexLogs_enter, Print.holds_of_get (fun i hi => absurd hi (Nat.not_lt_zero i)) ?_ List.not_mem_nil⟩
  rw [enter, (sameLine_termDrawChar _ _).logs]
  exact Function.update_self 0 0 (Term.termExec scr font len output (newRow scr s)).logs

/-- `term_run` edits the line that `logs` holds. -/
theorem Editing.runKey (h : Editing s line) (hroom : ∀ text, edit line key = some text → text.length ≤ 1023) :
    Editing (termRunKey scr font key len output s) (edit line key) := by
  unfold termRunKey
  unfold edit at hroom ⊢
  by_cases h0 : key = 0
  · rw [if_pos h0, if_neg (h0 ▸ by decide), if_neg (h0 ▸ by decide), if_neg (h0 ▸ by decide)]
    exact h
  · rw [if_neg h0]
    split_ifs at hroom ⊢ with h8 hA hp
    · exact h.backspace
    · exact editing_enter len output s
    · have hlen := hroom _ rfl
      rw [List.length_append, List.length_singleton] at hlen
      exact h.printable hp (by omega)
    · exact h

/-- The string that `term_exec` gets is the line. -/
theorem Editing.command (h : Editing s (some text)) (hzero : s.logs len = 0) (hbefore : ∀ i < len, s.logs i ≠ 0) :
    len = text.length := by
  obtain ⟨-, hholds⟩ := h
  rcases Nat.lt_trichotomy len text.length with hlt | heq | hgt
  · have hmem : s.logs len ∈ text := by
      rw [hholds.get hlt]
      exact List.getElem_mem hlt
    exact absurd (hzero ▸ hmem) hholds.inside
  · exact heq
  · exact absurd hholds.nul (hbefore _ hgt)

end HaOS.Shell
