import HaOS.Paging.Unmap

/-!
# The entries above the page tables

The processor takes what is behind such an entry for a large page when its bit 7 is set. The code never looks at the bit,
and never sets it unless it is among the flags of a call.

* `Large`, `processorFrame` : the bit, and the frame that the processor finds for a page;
* `Plain`, `Plain.processorFrame` : where no entry has the bit, it is the frame of `walk`;
* `Grown` : upper entries that are present stay, the others may be set with the flags of the call;
  `mapvPage_stands`, `pageMapv_grown`, `umapv_grown`, `pageAlloc4K_grown` : so it is in the calls;
* `Plain.grown` : flags without the bit leave the tables plain.
-/

namespace HaOS.Paging

variable {s t u : State} {p q : List Index} {i : Index} {vs : List Nat} {n m f g v e flags virt : Nat}

def Large (e : Nat) : Prop := e &&& 1 <<< 7 ≠ 0

instance (e : Nat) : Decidable (Large e) := inferInstanceAs (Decidable (_ ≠ _))

theorem and_large (a : Nat) : a &&& 1 <<< 7 = a % pageSize &&& 1 <<< 7 := by
  have hlt : a &&& 1 <<< 7 < 2 ^ 12 := Nat.and_lt_two_pow a (by decide)
  have hmod := Nat.and_mod_two_pow (a := a) (b := 1 <<< 7) (n := 12)
  rwa [Nat.mod_eq_of_lt hlt] at hmod

theorem large_congr {a b : Nat} (h : a % pageSize = b % pageSize) : Large a ↔ Large b := by
  rw [Large, Large, and_large a, h, ← and_large b]

/-- The frame of a page inside of a large one of `2 ^ k` frames. Its address has no bits below, but for bit 12. -/
def largeFrame (e k page : Nat) : Option Nat :=
  if e / 2 ^ 13 % 2 ^ (k - 1) = 0 then some (frameOf e / 2 ^ k * 2 ^ k + page % 2 ^ k) else none

def processorFrame (s : State) (v : Nat) : Option Nat :=
  let e := s.mem s.root (pmlt4Index v)
  -- the bit is reserved in the root table
  if ¬ Present e ∨ Large e then none
  else
    let e := s.mem (frameOf e) (pdptIndex v)
    if ¬ Present e then none
    else if Large e then largeFrame e 18 (vpn v)
    else
      let e := s.mem (frameOf e) (pdtIndex v)
      if ¬ Present e then none
      else if Large e then largeFrame e 9 (vpn v)
      else target (s.mem (frameOf e) (ptIndex v))

/-- No entry on the way to a page table is one of a large page. -/
def Plain (s : State) : Prop := ∀ p i, p.length < 3 → Present (s.entry p i) → ¬ Large (s.entry p i)

theorem Plain.next (h : Plain s) (hp : p.length < 3) (hn : s.table p = some n) (hpres : Present (s.mem n i)) :
    ¬ Large (s.mem n i) := by
  rw [← entry_of_table hn] at hpres ⊢
  exact h p i hp hpres

theorem walk_of_none (h : s.table (tablePath v) = none) : target (walk s v) = none := by
  rw [walk, entry_of_none h]
  rfl

theorem Plain.processorFrame (h : Plain s) (v : Nat) : processorFrame s v = target (walk s v) := by
  have hroot : s.table [] = some s.root := rfl
  have hlen0 : ([] : List Index).length < 3 := Nat.succ_pos 2
  have hlen1 : [pmlt4Index v].length < 3 := Nat.one_lt_succ_succ 1
  have hlen2 : [pmlt4Index v, pdptIndex v].length < 3 := Nat.lt_succ_self 2
  by_cases h1 : Present (s.mem s.root (pmlt4Index v))
  · have ht1 : s.table [pmlt4Index v] = some (frameOf (s.mem s.root (pmlt4Index v))) := table_present hroot h1
    have hl1 := h.next hlen0 hroot h1
    simp only [Paging.processorFrame, h1, hl1, not_true_eq_false, or_false, if_false]
    by_cases h2 : Present (s.mem (frameOf (s.mem s.root (pmlt4Index v))) (pdptIndex v))
    · have ht2 : s.table [pmlt4Index v, pdptIndex v] = _ := table_present ht1 h2
      have hl2 := h.next hlen1 ht1 h2
      simp only [h2, hl2, not_true_eq_false, if_false]
      by_cases h3 : Present (s.mem (frameOf (s.mem (frameOf (s.mem s.root (pmlt4Index v))) (pdptIndex v))) (pdtIndex v))
      · have ht3 : s.table (tablePath v) = _ := table_present ht2 h3
        have hl3 := h.next hlen2 ht2 h3
        simp only [h3, hl3, not_true_eq_false, if_false]
        rw [walk, entry_of_table ht3]
      · rw [if_pos h3]
        exact (walk_of_none (table_absent ht2 h3)).symm
    · rw [if_pos h2]
      exact (walk_of_none (table_append_none (table_absent ht1 h2) [pdtIndex v])).symm
  · rw [Paging.processorFrame, if_pos (.inl h1)]
    exact (walk_of_none (table_append_none (table_absent hroot h1) [pdptIndex v, pdtIndex v])).symm

/-! ## Upper entries in a step -/

/-- From `s` to `t` the entries above the page tables stay, but those that are not present may be set with the flags. -/
def Grown (flags : Nat) (s t : State) : Prop :=
  ∀ q i, q.length < 3 → t.entry q i = s.entry q i ∨
    ¬ Present (s.entry q i) ∧ ∃ m, t.entry q i = m * pageSize ||| flags

theorem Grown.refl (s : State) : Grown flags s s := fun _ _ _ => .inl rfl

theorem Grown.trans (h : Grown flags s t) (h' : Grown flags t u) : Grown flags s u := by
  intro q i hq
  rcases h q i hq with heq | ⟨habsent, m, hm⟩
  · rw [← heq]
    exact h' q i hq
  · refine .inr ⟨habsent, ?_⟩
    rcases h' q i hq with heq | ⟨-, hnew⟩
    · exact ⟨m, heq.trans hm⟩
    · exact hnew

theorem large_or (m : Nat) : Large (m * pageSize ||| flags) ↔ Large flags := by
  rw [Large, Large, Nat.and_or_distrib_right, and_large (m * pageSize), Nat.mul_mod_left, Nat.zero_and, Nat.zero_or]

theorem Plain.grown (h : Plain s) (hg : Grown flags s t) (hsmall : ¬ Large flags) : Plain t := by
  intro p i hp hpres
  rcases hg p i hp with heq | ⟨-, m, hm⟩
  · rw [heq] at hpres ⊢
    exact h p i hp hpres
  · rw [hm, large_or]
    exact hsmall

theorem TreeShaped.grown (hs : TreeShaped s) (h : Keeps s t) : Grown flags s t := by
  intro q i hq
  left
  refine entry_congr (h.table q hq.le) fun g hg => ?_
  apply h.mem g i (hs.marked q g hq.le hg)
  rintro ⟨rfl, -⟩
  exact hs.deep rfl hs.window hq hg

theorem grown_store (h : ∀ q, q.length < 3 → s.table q ≠ some f) : Grown flags s (s.store f i e) := by
  intro q j hq
  left
  refine entry_congr (table_store h hq.le) fun g hg => ?_
  rw [mem_store_of_ne]
  rintro rfl
  exact h q hq hg

theorem At.not_upper (hs : TreeShaped s) (hp : p.length = 3) (hn : At flags s p n) :
    ∀ q, q.length < 3 → s.table q ≠ some n := by
  intro q hq hqn
  obtain hn | ⟨-, hn⟩ := hn
  · exact hs.deep hp hn hq hqn
  · exact hn.noTable q hq.le hqn

theorem Visit.grown (h : Visit flags s n i t f) (hs : TreeShaped s) (hflags : flags < pageSize) (hp : p.length < 3)
    (hn : At flags s p n) (href : t.refused = s.refused) : Grown flags s t := by
  cases h with
  | present hk _ _ _ => exact hs.grown hk
  | refused _ _ hlt => omega
  | @fresh u _ hk hm hfree _ habsent hold hzero =>
      have hu := hs.keeps hk
      have hnone : ¬ Present (u.mem n i) := by rwa [hold]
      have hmn : f ≠ n := by
        rintro rfl
        exact (mem_free.mp hm).2 (hn.marked hs hp.le).2
      -- the tables stay; the new one is found when the flags have the present bit, is empty, and there was none before
      have htable : ∀ q, q.length < 3 → (u.store n i (f * pageSize ||| flags)).table q = s.table q ∨
          (u.store n i (f * pageSize ||| flags)).table q = some f ∧ s.table q = none := by
        intro q hq
        rw [← hk.table q hq.le]
        by_cases hpres : Present flags
        · have hnp := hn.resolve_right fun h => h.1 hpres
          have hmb : f ≠ bitmapFrame := by
            rintro rfl
            exact (mem_free.mp hm).2 hs.bitmap.1.2
          have hall := (hu.attach_present hflags hpres hp ((hk.table p hp.le).trans hnp) hnone (marked_of_free hm hfree)
            (NoTable.keeps hk (hs.noTable (mem_free.mp hm).2)) hmb hzero).2 q hq.le
          by_cases hqi : q = p ++ [i]
          · refine .inr ⟨hall.trans (if_pos hqi), ?_⟩
            rw [hqi]
            exact table_absent ((hk.table p hp.le).trans hnp) hnone
          · exact .inl (hall.trans (if_neg hqi))
        · exact .inl (table_store_absent hnone (fun h => hpres ((present_or f).mp h)) q)
      intro q j hq
      rcases htable q hq with hqt | ⟨hqt, hqnone⟩
      · rcases hg : s.table q with - | g
        · exact .inl (by rw [entry_of_none hg, entry_of_none (hqt.trans hg)])
        · rw [entry_of_table hg, entry_of_table (hqt.trans hg), mem_store]
          by_cases hgn : g = n ∧ j = i
          · rw [if_pos hgn, hgn.1, hgn.2]
            exact .inr ⟨habsent, f, rfl⟩
          · rw [if_neg hgn]
            left
            apply hk.mem g j (hs.marked q g hq.le hg)
            rintro ⟨rfl, -⟩
            exact hs.deep rfl hs.window hq hg
      · left
        rw [entry_of_none hqnone, entry_of_table hqt, mem_store_of_ne hmn, hzero]

theorem tablesFor_grown (hs : TreeShaped s) (hflags : flags < pageSize)
    (href : (tablesFor s virt flags).1.refused = s.refused) : Grown flags s (tablesFor s virt flags).1 := by
  refine (tablesFor_walk (P := Grown flags s) hs hflags href (.refl s) ?_).2
  intro u t p n i f hu hp hn hv hr hg
  exact hg.trans (hv.grown hu hflags hp hn hr)

theorem At.grown (hs : TreeShaped s) (hp : p.length = 3) (hn : At flags s p n) :
    Grown flags s (pageUmapframe (s.store n i e)) :=
  (grown_store (hn.not_upper hs hp)).trans ((hn.store hs hp i e).1.grown (hn.store hs hp i e).1.umapframe)

/-! ## Rounds -/

/-- What a round of `page_mapv` does to the tables, whatever page it is at. -/
structure Stands (flags : Nat) (s t : State) (virt : Nat) : Prop where
  shape : TreeShaped t
  grown : Grown flags s t
  table : ∀ r, r.length ≤ 3 → t.table r = (tablesFor s virt flags).1.table r

theorem mapvPage_stands (hs : TreeShaped s) (hflags : flags < pageSize)
    (href : (mapvPage flags s virt).refused = s.refused) : Stands flags s (mapvPage flags s virt) virt := by
  have hle1 : s.refused ≤ (tablesFor s virt flags).1.refused := refused_le_tablesFor
  have hle2 := refused_le_pageGetframe (tablesFor s virt flags).1
  rw [refused_mapvPage] at href
  have hgot : (tablesFor s virt flags).1.refused = s.refused := le_antisymm (hle2.trans href.le) hle1
  have h := tablesFor_linked hs hflags hgot
  have hg := tablesFor_grown hs hflags hgot
  obtain ⟨f, hf, -⟩ := pageGetframe_granted (href.trans hgot.symm)
  have hk := (h.shape.granted hf).trans ((h.shape.keeps (h.shape.granted hf)).mapframe (tablesFor s virt flags).2)
  have hu := h.shape.keeps hk
  have hn := h.place.keeps h.shape hk (length_tablePath virt).le
  unfold mapvPage
  dsimp only
  split_ifs
  · exact ⟨hu, hg.trans (h.shape.grown hk), hk.table⟩
  · rw [State.storeWindow, windowFrame_mapframe]
    obtain ⟨hshape, -⟩ := hn.store hu rfl (ptIndex virt) ((pageGetframe (tablesFor s virt flags).1).2 ||| flags)
    refine ⟨hshape.keeps hshape.umapframe, (hg.trans (h.shape.grown hk)).trans (hn.grown hu rfl), fun r hr => ?_⟩
    exact (hn.table_write hu rfl _ _ hr).trans (hk.table r hr)

theorem free_mapvPage : (mapvPage flags s virt).free = (pageGetframe (tablesFor s virt flags).1).1.free := by
  apply free_congr
  unfold mapvPage
  simp only
  split_ifs <;> rfl

theorem mapv_stands (hs : TreeShaped s) (hflags : flags < pageSize)
    (href : (vs.foldl (mapvPage flags) s).refused = s.refused) :
    TreeShaped (vs.foldl (mapvPage flags) s) ∧ Grown flags s (vs.foldl (mapvPage flags) s) := by
  induction vs generalizing s with
  | nil => exact ⟨hs, .refl s⟩
  | cons v vs ih =>
      have hfirst : s.refused ≤ (mapvPage flags s v).refused := refused_le_mapvPage
      have hrest : (mapvPage flags s v).refused ≤ (vs.foldl (mapvPage flags) (mapvPage flags s v)).refused :=
        refused_le_foldl (fun _ _ => refused_le_mapvPage) vs _
      rw [List.foldl_cons] at href ⊢
      have hv := mapvPage_stands hs hflags (show (mapvPage flags s v).refused = s.refused by omega)
      obtain ⟨hshape, hgrown⟩ := ih hv.shape (by omega)
      exact ⟨hshape, hv.grown.trans hgrown⟩

theorem pageMapv_grown {length : Nat} (hs : TreeShaped s) (hflags : flags < pageSize)
    (href : (pageMapv s virt length flags).refused = s.refused) : Grown flags s (pageMapv s virt length flags) := by
  rw [pageMapv_eq] at href ⊢
  exact (mapv_stands hs hflags href).2

theorem umapvPage_grown (hs : TreeShaped s) (hw : ¬ OnWindow v) : Grown flags s (umapvPage s v) := by
  obtain ⟨-, hk, -⟩ | ⟨n, u, hn, hk, -, heq⟩ := umapvPage_cases hs hw
  · exact hs.grown hk
  · rw [heq]
    have hat : At flags u (tablePath v) n := .inl ((hk.table _ (length_tablePath v).le).trans hn)
    -- the bitmap has no part in it
    exact (hs.grown hk).trans (hat.grown (hs.keeps hk) rfl)

/-- The rounds of `page_umapv` leave the upper tables as they are, as long as no bit of a table is cleared. -/
theorem umapv_grown (hs : TreeShaped s) (hw : ∀ v ∈ vs, ¬ OnWindow v)
    (hfree : ∀ f, Freed s vs f → s.NoTable f ∧ f ≠ bitmapFrame) : Grown flags s (vs.foldl umapvPage s) := by
  induction vs using List.reverseRecOn with
  | nil => exact .refl s
  | append_singleton vs v ih =>
      have hpre : vs <+: vs ++ [v] := List.prefix_append vs [v]
      have hw' : ∀ w ∈ vs, ¬ OnWindow w := fun w hwv => hw w (hpre.subset hwv)
      have hfree' : ∀ f, Freed s vs f → s.NoTable f ∧ f ≠ bitmapFrame := fun f hf => hfree f (hf.mono hpre)
      have hshape := (unmapped_foldl hs hw' hfree').shape hs hfree'
      rw [List.foldl_append]
      exact (ih hw' hfree').trans (umapvPage_grown hshape (hw v (List.mem_append_right vs (List.mem_singleton_self v))))

theorem pageAlloc4K_grown (hs : TreeShaped s) (hflags : flags < pageSize)
    (href : (pageAlloc4K s flags).1.refused = s.refused) : Grown flags s (pageAlloc4K s flags).1 := by
  have hle1 := refused_le_pageGetframe s
  have hle2 : (pageGetframe s).1.refused ≤ (tablesFor (pageGetframe s).1 (pageGetframe s).2 flags).1.refused :=
    refused_le_tablesFor
  have href2 : (tablesFor (pageGetframe s).1 (pageGetframe s).2 flags).1.refused = s.refused := href
  obtain ⟨f, hf, -⟩ := pageGetframe_granted (le_antisymm (hle2.trans href2.le) hle1)
  have hk1 := hs.granted hf
  have hgot := href2.trans hf.refused.symm
  have h := tablesFor_linked (hs.keeps hk1) hflags hgot
  have hk2 := h.shape.mapframe (tablesFor (pageGetframe s).1 (pageGetframe s).2 flags).2
  have hat := h.place.keeps h.shape hk2 (length_tablePath (pageGetframe s).2).le
  have hbefore : Grown flags s _ :=
    ((hs.grown hk1).trans (tablesFor_grown (hs.keeps hk1) hflags hgot)).trans (h.shape.grown hk2)
  unfold pageAlloc4K
  dsimp only
  rw [State.storeWindow, windowFrame_mapframe]
  exact hbefore.trans (hat.grown (h.shape.keeps hk2) rfl)

end HaOS.Paging
