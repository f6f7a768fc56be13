import HaOS.Paging.Coherence
import HaOS.Paging.Fill
import HaOS.Paging.Stacks
import HaOS.Paging.Usage

/-!
# What stays in the cache after mapping and unmapping

* `At.changed_store` : an entry that is written takes away at most the translation of its page;
* `clean_mapvPage`, `clean_mapvpPage`, `clean_umapvPage` : the rounds; `clean_forPages` : the loops;
* `Call`, `calls_coherent` : over any calls, nothing is stale but pages that were unmapped;
* `unmap_coherent_iff` : `page_umapv` leaves every cache right exactly when it has taken no translation away.
-/

namespace HaOS.Paging
open Lib (Prog Reaches)
open Lib.Prog (emit)
open Lib.Tlb (changed Sound)

variable {s t u : State} {B : Set Page} {flags virt phys length n addr e : Nat} {i : Index} {q : List Index}

/-- The page of an address, if it has an entry that is present. -/
def Mapped (s : State) (virt : Nat) : Set Page := {v | v = pageOf virt ∧ Present (walk s virt)}

/-- An entry that is written takes away at most the translation of its page. -/
theorem At.changed_store (hs : TreeShaped s) (hn : At flags s (tablePath virt) n) (hw : ¬ OnWindow virt) (e : Nat) :
    changed (translation s) (translation (s.store n (ptIndex virt) e)) ⊆
      {v | v = pageOf virt ∧ Present (s.mem n (ptIndex virt))} := by
  obtain ⟨hshape, hext⟩ := hn.store hs (length_tablePath virt) (ptIndex virt) e
  rintro v ⟨a, ha, hne⟩
  by_cases hv : v = windowPage
  · have hmem : (s.store n (ptIndex virt) e).mem framePt 0 = s.mem framePt 0 := by
      refine if_neg ?_
      rintro ⟨rfl, hi⟩
      obtain hn | ⟨-, hn⟩ := hn
      · exact hw ⟨hs.path_eq (length_tablePath virt).le (by decide) hn hs.window, hi.symm⟩
      · exact hn.noTable _ (by decide) hs.window
    rw [hv, hs.translation_window] at ha
    rw [hv, hshape.translation_window, hmem] at hne
    exact absurd ha hne
  · by_cases hpage : v = pageOf virt
    · refine ⟨hpage, ?_⟩
      rw [hpage] at ha hne
      obtain hn | ⟨-, hn⟩ := hn
      · have hentry : s.entry (tablePath virt) (ptIndex virt) = _ := entry_of_table hn (ptIndex virt)
        rw [← hentry]
        by_contra hp
        exact absurd ha (by rw [translation]; exact fun h => by cases (if_neg hp).symm.trans h)
      · exact absurd ((translation_congr (entry_store_orphan (length_tablePath virt).le hn.noTable _ e)).trans ha) hne
    · refine absurd ((translation_congr (hext.entry _ _ rfl (not_window hv) fun h => hpage ?_)).trans ha) hne
      obtain ⟨hp, hi⟩ := h
      injection hp with h1 hp
      injection hp with h2 hp
      injection hp with h3 _
      exact Prod.ext h1 (Prod.ext h2 (Prod.ext h3 hi))

/-- Through the window the entry of a page table is written. -/
theorem TreeShaped.clean_write (hs : TreeShaped (pageMapframe s addr))
    (hn : At flags (pageMapframe s addr) (tablePath virt) (frameOf addr)) (hw : ¬ OnWindow virt) (e : Nat)
    (hB : Present ((pageMapframe s addr).window (ptIndex virt)) → pageOf virt ∈ B) (hwB : windowPage ∉ B) :
    Clean (emit (.write (ptIndex virt) e)) (pageMapframe s addr) B := by
  refine clean_emit (fun _ => hs.shown (target_mapframe s addr)) ?_ hwB
  show changed _ (translation ((pageMapframe s addr).store (pageMapframe s addr).windowFrame (ptIndex virt) e)) ⊆ B
  rw [State.window] at hB
  rw [windowFrame_mapframe] at hB ⊢
  refine (hn.changed_store hs hw e).trans ?_
  rintro v ⟨rfl, hp⟩
  exact hB hp

theorem At.shape_write (hs : TreeShaped (pageMapframe s addr))
    (hn : At flags (pageMapframe s addr) (tablePath virt) (frameOf addr)) (e : Nat) :
    TreeShaped (flat (.write (ptIndex virt) e) (pageMapframe s addr)).1 := by
  show TreeShaped ((pageMapframe s addr).store (pageMapframe s addr).windowFrame _ _)
  rw [windowFrame_mapframe]
  exact (hn.store hs (length_tablePath virt) _ _).1

/-- An entry that is not used is written, and the window closed. -/
theorem TreeShaped.clean_fill (hs : TreeShaped (pageMapframe s addr))
    (hn : At flags (pageMapframe s addr) (tablePath virt) (frameOf addr)) (hw : ¬ OnWindow virt) (e : Nat)
    (hzero : (pageMapframe s addr).window (ptIndex virt) = 0) :
    Clean ((emit (.write (ptIndex virt) e)).bind fun _ => Code.pageUmapframe) (pageMapframe s addr) B := by
  refine ((hs.clean_write hn hw e (fun hp => ?_) (Set.notMem_empty _)).mono (Set.empty_subset B)).bind ?_
  · rw [hzero] at hp
    exact absurd rfl hp
  · exact (hn.shape_write hs e).clean_umapframe

theorem onWindow_of_pageOf (h : windowPage = pageOf virt) : OnWindow virt := by
  injection h with h1 h
  injection h with h2 h
  injection h with h3 h4
  refine ⟨?_, h4.symm.trans (by decide)⟩
  unfold tablePath
  rw [← h1, ← h2, ← h3]
  rfl

theorem window_notMem (hw : ¬ OnWindow virt) : windowPage ∉ Mapped s virt := fun h => hw (onWindow_of_pageOf h.1)

/-! ## The rounds -/

theorem clean_mapvPage (hs : TreeShaped s) (hflags : flags < pageSize) (hw : ¬ OnWindow virt)
    (href : (mapvPage flags s virt).refused = s.refused) : Clean (Code.mapvPage flags virt) s ∅ := by
  have hle1 : s.refused ≤ (tablesFor s virt flags).1.refused := refused_le_tablesFor
  have hle2 := refused_le_pageGetframe (tablesFor s virt flags).1
  have hgot := le_antisymm (hle2.trans (refused_mapvPage.symm.trans href).le) hle1
  have h := tablesFor_linked hs hflags hgot
  unfold Code.mapvPage
  refine (hs.clean_tablesFor hflags hgot).bind ?_
  rw [Code.exec_tablesFor]
  set s1 := (tablesFor s virt flags).1
  set ptAddr := (tablesFor s virt flags).2
  refine h.shape.clean_getframe.bind ?_
  rw [Code.exec_pageGetframe]
  have hk1 := h.shape.keeps_getframe
  have hs2 := h.shape.keeps hk1
  set s2 := (pageGetframe s1).1
  refine (hs2.clean_mapframe ptAddr).bind ((hs2.clean_read ptAddr (ptIndex virt)).bind ?_)
  show Clean (Code.ifUsed ((pageMapframe s2 ptAddr).window (ptIndex virt)) _ _) (pageMapframe s2 ptAddr) ∅
  by_cases hold : (pageMapframe s2 ptAddr).window (ptIndex virt) = 0
  · have hk := hk1.trans (hs2.mapframe ptAddr)
    have hn := h.place.keeps h.shape hk (length_tablePath virt).le
    rw [Code.ifUsed_zero hold]
    exact (h.shape.keeps hk).clean_fill hn hw _ hold
  · rw [Code.ifUsed_ne hold]
    exact clean_ret _ _ _

theorem clean_mapvpPage (hs : TreeShaped s) (hflags : flags < pageSize) (hw : ¬ OnWindow virt)
    (href : (mapvpPage flags s virt phys).refused = s.refused) : Clean (Code.mapvpPage flags virt phys) s ∅ := by
  have hgot := refused_mapvpPage.symm.trans href
  have h := tablesFor_linked hs hflags hgot
  unfold Code.mapvpPage
  refine (hs.clean_tablesFor hflags hgot).bind ?_
  rw [Code.exec_tablesFor]
  set s1 := (tablesFor s virt flags).1
  set ptAddr := (tablesFor s virt flags).2
  refine (h.shape.clean_mapframe ptAddr).bind ((h.shape.clean_read ptAddr (ptIndex virt)).bind ?_)
  show Clean (Code.ifUsed ((pageMapframe s1 ptAddr).window (ptIndex virt)) _ _) (pageMapframe s1 ptAddr) ∅
  have hk := h.shape.mapframe ptAddr
  have hu := h.shape.keeps hk
  by_cases hold : (pageMapframe s1 ptAddr).window (ptIndex virt) = 0
  · rw [Code.ifUsed_zero hold]
    exact hu.clean_fill (h.place.keeps h.shape hk (length_tablePath virt).le) hw _ hold
  · rw [Code.ifUsed_ne hold]
    exact hu.clean_umapframe

/-- What the window shows of a page is its entry, or the zero entry of a table that is linked nowhere. -/
theorem Linked.window_present (h : Linked flags s t (tablePath virt) (frameOf addr)) (hw : ¬ OnWindow virt)
    (hp : Present ((pageMapframe t addr).window (ptIndex virt))) : Present (walk s virt) := by
  have hk := h.shape.mapframe addr
  obtain hn | ⟨habsent, hn⟩ := h.place.keeps h.shape hk (length_tablePath virt).le
  · have hentry : (pageMapframe t addr).entry (tablePath virt) (ptIndex virt) = walk s virt :=
      (h.ext.trans (h.shape.extends hk)).entry _ _ rfl hw id
    rw [← hentry, entry_of_table hn]
    rwa [State.window, windowFrame_mapframe] at hp
  · rw [State.window, windowFrame_mapframe, hn.zero] at hp
    exact absurd rfl hp

/-- `page_alloc4K` writes the entry of the page at the frame's own address, whatever is in it. -/
theorem clean_pageAlloc4K (hs : TreeShaped s) (hflags : flags < pageSize)
    (href : (pageAlloc4K s flags).1.refused = s.refused) :
    Clean (Code.pageAlloc4K flags) s (Mapped s (pageGetframe s).2) := by
  have hle1 := refused_le_pageGetframe s
  have hle2 : (pageGetframe s).1.refused ≤ (tablesFor (pageGetframe s).1 (pageGetframe s).2 flags).1.refused :=
    refused_le_tablesFor
  have href2 : (tablesFor (pageGetframe s).1 (pageGetframe s).2 flags).1.refused = s.refused := href
  have hgranted := le_antisymm (hle2.trans href2.le) hle1
  obtain ⟨f, hf, hframe⟩ := pageGetframe_granted hgranted
  have hw : ¬ OnWindow (pageGetframe s).2 := hframe ▸ not_onWindow (not_inWindow_frame hf.lt)
  have hk1 := hs.granted hf
  have hs1 := hs.keeps hk1
  have hgot := href2.trans hgranted.symm
  have h := tablesFor_linked hs1 hflags hgot
  unfold Code.pageAlloc4K
  refine hs.clean_getframe.bind ?_
  rw [Code.exec_pageGetframe]
  refine (hs1.clean_tablesFor hflags hgot).bind ?_
  rw [Code.exec_tablesFor]
  set virt := (pageGetframe s).2
  set s2 := (tablesFor (pageGetframe s).1 virt flags).1
  set ptAddr := (tablesFor (pageGetframe s).1 virt flags).2
  have hk2 := h.shape.mapframe ptAddr
  have hu := h.shape.keeps hk2
  have hn := h.place.keeps h.shape hk2 (length_tablePath virt).le
  refine (h.shape.clean_mapframe ptAddr).bind ?_
  have hmapped : Present ((pageMapframe s2 ptAddr).window (ptIndex virt)) → pageOf virt ∈ Mapped s virt := by
    intro hp
    refine ⟨rfl, ?_⟩
    have hp' := h.window_present hw hp
    rwa [show walk (pageGetframe s).1 virt = walk s virt from hs.entry_keeps hk1 rfl hw] at hp'
  refine (hu.clean_write hn hw _ hmapped (window_notMem hw)).bind ?_
  exact (hn.shape_write hu _).clean_umapframe.bind (clean_ret _ _ _)

theorem table_window {p : List Index} (hs : TreeShaped s) (hp : p.length < 3) (h : s.table p = some (frameOf addr))
    (hpres : Present ((pageMapframe s addr).window i)) : (pageMapframe s addr).table (p ++ [i]) =
      some (frameOf (tableAddress ((pageMapframe s addr).window i))) := by
  rw [State.window, windowFrame_mapframe] at hpres ⊢
  exact table_next (((hs.mapframe addr).table p hp.le).trans h) hpres

theorem clean_umapvEntry (hs : TreeShaped s) (hw : ¬ OnWindow virt) (hn : s.table (tablePath virt) = some (frameOf addr)) :
    Clean (Code.umapvEntry addr virt) s (Mapped s virt) := by
  have hk := hs.mapframe addr
  have hu := hs.keeps hk
  have hlen := length_tablePath virt
  have hnu : (pageMapframe s addr).table (tablePath virt) = some (frameOf addr) := (hk.table _ hlen.le).trans hn
  have hat : At 1 (pageMapframe s addr) (tablePath virt) (frameOf addr) := .inl hnu
  have hwalk : (pageMapframe s addr).window (ptIndex virt) = walk s virt := by
    rw [State.window, windowFrame_mapframe, ← entry_of_table hnu]
    exact hs.entry_keeps hk hlen hw
  unfold Code.umapvEntry
  refine (hs.clean_mapframe addr).bind ((hs.clean_read addr (ptIndex virt)).bind ?_)
  have hmapped : Present ((pageMapframe s addr).window (ptIndex virt)) → pageOf virt ∈ Mapped s virt :=
    fun hp => ⟨rfl, hwalk ▸ hp⟩
  refine (hu.clean_write hat hw 0 hmapped (window_notMem hw)).bind ?_
  refine (clean_same (fun h => absurd h id) rfl).bind ?_
  -- the bitmap has no part in the translations
  have ht := hat.shape_write hu 0
  have hclose : ∀ v, v ≠ windowPage → translation ((flat (.write (ptIndex virt) 0) (pageMapframe s addr)).1.store
      framePt 0 0) v = translation (flat (.write (ptIndex virt) 0) (pageMapframe s addr)).1 v :=
    fun v hv => ht.translation_keeps (ht.setWindow 0) hv
  exact clean_setWindow hclose

theorem clean_umapvPage (hs : TreeShaped s) (hw : ¬ OnWindow virt) :
    Clean (Code.umapvPage virt) s (Mapped s virt) := by
  unfold Code.umapvPage
  refine (clean_same (fun h => absurd h id) rfl).bind ?_
  show Clean (Code.ifAbsent (s.mem s.root (pmlt4Index virt)) _ _) s _
  by_cases hp1 : Present (s.mem s.root (pmlt4Index virt))
  · have ht1 : s.table [pmlt4Index virt] = _ := table_next (rfl : s.table [] = some s.root) hp1
    rw [Code.ifAbsent_present hp1]
    refine (clean_same (fun h => absurd h id) rfl).bind ?_
    show Clean ((Code.pageMapframe (tableAddress (s.mem s.root (pmlt4Index virt)))).bind _) s _
    generalize tableAddress (s.mem s.root (pmlt4Index virt)) = a1 at ht1 ⊢
    have hk1 := hs.mapframe a1
    have hs1 := hs.keeps hk1
    refine (hs.clean_mapframe a1).bind ((hs.clean_read a1 _).bind ?_)
    show Clean (Code.ifAbsent ((pageMapframe s a1).window (pdptIndex virt)) _ _) (pageMapframe s a1) _
    by_cases hp2 : Present ((pageMapframe s a1).window (pdptIndex virt))
    · have ht2 := table_window (p := [pmlt4Index virt]) hs (Nat.lt_of_succ_lt (Nat.lt_succ_self 2)) ht1 hp2
      rw [Code.ifAbsent_present hp2]
      refine (hs.clean_read a1 _).bind ?_
      show Clean ((Code.pageMapframe (tableAddress ((pageMapframe s a1).window (pdptIndex virt)))).bind _) _ _
      generalize tableAddress ((pageMapframe s a1).window (pdptIndex virt)) = a2 at ht2 ⊢
      have hk2 := hk1.trans (hs1.mapframe a2)
      refine (hs1.clean_mapframe a2).bind ((hs1.clean_read a2 _).bind ?_)
      show Clean (Code.ifAbsent ((pageMapframe (pageMapframe s a1) a2).window (pdtIndex virt)) _ _) _ _
      by_cases hp3 : Present ((pageMapframe (pageMapframe s a1) a2).window (pdtIndex virt))
      · have ht3 := table_window (p := [pmlt4Index virt, pdptIndex virt]) hs1 (Nat.lt_succ_self 2) ht2 hp3
        rw [Code.ifAbsent_present hp3]
        refine (hs1.clean_read a2 _).bind ?_
        have hclean := clean_umapvEntry (hs.keeps hk2) hw ht3
        rwa [Mapped, show walk (pageMapframe (pageMapframe s a1) a2) virt = walk s virt from hs.entry_keeps hk2 rfl hw]
          at hclean
      · rw [Code.ifAbsent_absent hp3]
        exact clean_ret _ _ _
    · rw [Code.ifAbsent_absent hp2]
      exact clean_ret _ _ _
  · rw [Code.ifAbsent_absent hp1]
    exact clean_ret _ _ _

/-! ## The loops -/

variable {body : Nat → Prog Op Nat} {round : Nat → State → State}

theorem clean_forPages (hexec : ∀ i s, (Prog.exec flat (body i) s).1 = round i s)
    (h : ∀ i < n, Clean (body i) (forPages round i s) B) : Clean (Code.forPages body n) s B := by
  induction n with
  | zero => exact clean_ret _ _ _
  | succ n ih =>
      refine (ih fun i hi => h i (Nat.lt_succ_of_lt hi)).bind ?_
      rw [Code.exec_forPages hexec]
      exact h n (Nat.lt_succ_self n)

theorem forPages_shape (hle : ∀ i u, u.refused ≤ (round i u).refused)
    (hround : ∀ i < n, ∀ u, TreeShaped u → (round i u).refused = u.refused → TreeShaped (round i u)) (hs : TreeShaped s)
    (href : (forPages round n s).refused = s.refused) {k : Nat} (hk : k < n) :
    TreeShaped (forPages round k s) ∧ (round k (forPages round k s)).refused = (forPages round k s).refused := by
  refine ⟨forPages_invariant hle (fun i hi => hround i (hi.trans hk)) hs (refused_forPages hle href hk.le), ?_⟩
  exact (refused_forPages hle href hk).trans (refused_forPages hle href hk.le).symm

theorem clean_pageMapv (hs : TreeShaped s) (hflags : flags < pageSize) (hw : OutsideWindow virt length)
    (href : (pageMapv s virt length flags).refused = s.refused) : Clean (Code.pageMapv virt length flags) s ∅ := by
  refine clean_forPages (fun _ s => Code.exec_mapvPage s _ _) fun k hk => ?_
  have hround : ∀ i < rounds length, ∀ u, TreeShaped u → (mapvPage flags u (pageAt virt i)).refused = u.refused →
      TreeShaped (mapvPage flags u (pageAt virt i)) := by
    intro i hi u hu hr
    obtain ⟨f, hf⟩ := mapvPage_spec hu hflags (not_onWindow (hw i hi)) hr
    exact hf.written.shape
  obtain ⟨hshape, hgot⟩ := forPages_shape (fun _ _ => refused_le_mapvPage) hround hs href hk
  exact clean_mapvPage hshape hflags (not_onWindow (hw k hk)) hgot

theorem clean_pageMapvp (hs : TreeShaped s) (hflags : flags < pageSize) (hw : OutsideWindow virt length)
    (href : (pageMapvp s virt phys length flags).refused = s.refused) :
    Clean (Code.pageMapvp virt phys length flags) s ∅ := by
  refine clean_forPages (fun _ s => Code.exec_mapvpPage s _ _ _) fun k hk => ?_
  have hround : ∀ i < rounds length, ∀ u, TreeShaped u →
      (mapvpPage flags u (pageAt virt i) (pageAt phys i)).refused = u.refused →
      TreeShaped (mapvpPage flags u (pageAt virt i) (pageAt phys i)) :=
    fun i hi u hu hr => (mapvpPage_spec hu hflags (not_onWindow (hw i hi)) hr).written.shape
  obtain ⟨hshape, hgot⟩ := forPages_shape (fun _ _ => refused_le_mapvpPage) hround hs href hk
  exact clean_mapvpPage hshape hflags (not_onWindow (hw k hk)) hgot

def MappedIn (s : State) (vs : List Nat) : Set Page := {p | ∃ v ∈ vs, p ∈ Mapped s v}

theorem onWindow_pageList (hw : OutsideWindow virt length) : ∀ v ∈ pageList virt length, ¬ OnWindow v := by
  intro v hv
  obtain ⟨k, hk, rfl⟩ := List.mem_map.mp hv
  exact not_onWindow (hw k (List.mem_range.mp hk))

theorem clean_pageUmapv (hs : TreeShaped s) (hw : OutsideWindow virt length)
    (hfree : ∀ f, Freed s (pageList virt length) f → s.NoTable f ∧ f ≠ bitmapFrame) :
    Clean (Code.pageUmapv virt length) s (MappedIn s (pageList virt length)) := by
  refine clean_forPages (fun _ s => Code.exec_umapvPage s _) fun k hk => ?_
  have hpre : (List.range k).map (pageAt virt) <+: pageList virt length := by
    refine List.IsPrefix.map _ ?_
    rw [List.prefix_iff_eq_take, List.length_range, List.take_range, Nat.min_eq_left hk.le]
  have hfree' := fun f hf => hfree f (Freed.mono hf hpre)
  have hbefore : Unmapped s (forPages (fun i s => umapvPage s (pageAt virt i)) k s) ((List.range k).map (pageAt virt)) := by
    have h := unmapped_foldl hs (fun v hv => onWindow_pageList hw v (hpre.subset hv)) hfree'
    rwa [List.foldl_map, ← forPages_eq_foldl fun i s => umapvPage s (pageAt virt i)] at h
  have hoff := not_onWindow (hw k hk)
  refine (clean_umapvPage (hbefore.shape hs hfree') hoff).mono ?_
  rintro v ⟨rfl, hp⟩
  refine ⟨pageAt virt k, List.mem_map.mpr ⟨k, List.mem_range.mpr hk, rfl⟩, rfl, ?_⟩
  by_cases hseen : Pages ((List.range k).map (pageAt virt)) (tablePath (pageAt virt k)) (ptIndex (pageAt virt k))
  · rw [walk, hbefore.gone _ _ rfl hoff hseen] at hp
    exact absurd rfl hp
  · rwa [walk, hbefore.kept _ _ rfl hoff hseen] at hp

/-! ## Calls -/

def Call.code : Call → Prog Op Nat
  | .mapv virt length flags => Code.pageMapv virt length flags
  | .mapvp virt phys length flags => Code.pageMapvp virt phys length flags
  | .umapv virt length => Code.pageUmapv virt length
  | .alloc4K flags => Code.pageAlloc4K flags

/-- The pages whose translation a call takes away: those it unmaps, and for `page_alloc4K` the page at the address of the
frame, whose entry is written even if it is used. -/
def Call.drops (s : State) : Call → Set Page
  | .mapv _ _ _ | .mapvp _ _ _ _ => ∅
  | .umapv virt length => MappedIn s (pageList virt length)
  | .alloc4K _ => Mapped s (pageGetframe s).2

variable {c : Call} {m m' : Core} {o : Op} {D : Set Page} {α : Type} {p : Prog Op α} {tlb : Page → Option Nat}

theorem Call.exec_code (c : Call) (s : State) : (Prog.exec flat c.code s).1 = c.run s := by
  cases c with
  | mapv => exact Code.exec_pageMapv s _ _ _
  | mapvp => exact Code.exec_pageMapvp s _ _ _ _
  | umapv => exact Code.exec_pageUmapv s _ _
  | alloc4K => exact congrArg Prod.fst (Code.exec_pageAlloc4K s _)

theorem freed_releasable (hc : Releasable s virt length) :
    ∀ f, Freed s (pageList virt length) f → s.NoTable f ∧ f ≠ bitmapFrame := by
  intro f hf
  obtain ⟨hno, hne, -⟩ := hc f (freed_range.mp hf)
  exact ⟨hno, hne⟩

theorem Call.clean (hs : TreeShaped s) (ha : c.Allowed s) (hc : c.Fits s) : Clean c.code s (c.drops s) := by
  cases c with
  | mapv => exact clean_pageMapv hs hc ha.1 ha.2
  | mapvp => exact clean_pageMapvp hs hc ha.1 ha.2.2
  | umapv => exact clean_pageUmapv hs ha (freed_releasable hc)
  | alloc4K => exact clean_pageAlloc4K hs hc ha

theorem window_notMem_drops (ha : c.Allowed s) : windowPage ∉ c.drops s := by
  cases c with
  | mapv | mapvp => exact Set.notMem_empty _
  | umapv =>
      rintro ⟨v, hv, hm⟩
      exact window_notMem (onWindow_pageList ha v hv) hm
  | alloc4K flags =>
      have href : (pageAlloc4K s flags).1.refused = s.refused := ha
      have hle : (pageGetframe s).1.refused ≤ (pageAlloc4K s flags).1.refused := refused_le_tablesFor
      obtain ⟨f, hf, hframe⟩ := pageGetframe_granted (le_antisymm (hle.trans href.le) (refused_le_pageGetframe s))
      refine window_notMem ?_
      rw [hframe]
      exact not_onWindow (not_inWindow_frame hf.lt)

/-- On a core a clean program does what it does without a cache, and never faults. -/
theorem Clean.runs (h : Clean p s B) (hsound : Sound (translation s) D tlb) (hD : windowPage ∉ D)
    {r : Option (Core × α)} (hrun : Prog.Runs Access p ⟨s, tlb⟩ r) :
    ∃ tlb', r = some (⟨(Prog.exec flat p s).1, tlb'⟩, (Prog.exec flat p s).2) ∧
      Sound (translation (Prog.exec flat p s).1) (D ∪ B) tlb' := by
  obtain ⟨hsafe, hsub, -⟩ := h D hD
  obtain ⟨m', hr, hst, htlb⟩ := hsafe.simulates (R := Follows) follows_access ⟨rfl, hsound⟩ hrun
  rw [exec_ghost p (s, D), ← hst]
  exact ⟨m'.tlb, hr, hst ▸ htlb.mono hsub⟩

/-- The flags do not turn the tables that a call creates into large pages. -/
def Call.Small : Call → Prop
  | .mapv _ _ flags | .mapvp _ _ _ flags | .alloc4K flags => ¬ Large flags
  | .umapv .. => True

theorem Plain.run (h : Plain s) (hs : TreeShaped s) (ha : c.Allowed s) (hc : c.Fits s) (hsmall : c.Small) :
    Plain (c.run s) := by
  cases c with
  | mapv virt length flags => exact h.grown (pageMapv_grown hs hc ha.2) hsmall
  | mapvp virt phys length flags => exact h.grown (pageMapvp_grown hs hc ha.2.2) hsmall
  | umapv virt length =>
      have hgrown : Grown 0 s ((pageList virt length).foldl umapvPage s) :=
        umapv_grown hs (onWindow_pageList ha) (freed_releasable hc)
      rw [← pageUmapv_eq] at hgrown
      exact h.grown hgrown (by decide)
  | alloc4K flags => exact h.grown (pageAlloc4K_grown hs hc ha) hsmall

/-- Calls on a core, and the pages whose translation they have taken away. -/
inductive CoreRun (m : Core) : Set Page → Core → Prop
  | refl : CoreRun m ∅ m
  | call {D : Set Page} {m' m'' : Core} {n : Nat} (c : Call) (h : CoreRun m D m') (ha : c.Allowed m'.state)
      (hc : c.Fits m'.state) (hsmall : c.Small) (hrun : Prog.Runs Access c.code m' (some (m'', n))) :
      CoreRun m (D ∪ c.drops m'.state) m''

theorem Call.runs (hs : TreeShaped m.state) (hsound : Sound (translation m.state) D m.tlb) (hD : windowPage ∉ D)
    (ha : c.Allowed m.state) (hc : c.Fits m.state) {r : Option (Core × Nat)} (hrun : Prog.Runs Access c.code m r) :
    ∃ tlb n, r = some (⟨c.run m.state, tlb⟩, n) ∧ Sound (translation (c.run m.state)) (D ∪ c.drops m.state) tlb := by
  obtain ⟨tlb, hr, hsound'⟩ := (Call.clean hs ha hc).runs hsound hD hrun
  rw [Call.exec_code] at hr hsound'
  exact ⟨tlb, _, hr, hsound'⟩

theorem CoreRun.invariant (hrun : CoreRun m D m') (h : Used m.state) (hsound : Sound (translation m.state) ∅ m.tlb) :
    Used m'.state ∧ Reaches CallStep m.state m'.state ∧ Sound (translation m'.state) D m'.tlb ∧ windowPage ∉ D ∧
      (Plain m.state → Plain m'.state) := by
  induction hrun with
  | refl => exact ⟨h, Reaches.refl _, hsound, Set.notMem_empty _, id⟩
  | call c _ ha hc hsmall hstep ih =>
      obtain ⟨hused, hreach, hD, hw, hplain⟩ := ih
      obtain ⟨tlb, n, heq, hsound'⟩ := Call.runs hused.shape hD hw ha hc hstep
      cases heq
      refine ⟨hused.run ha hc, hreach.snoc ⟨ha, rfl⟩, hsound', fun hv => ?_, fun h => ?_⟩
      · exact hv.elim hw (window_notMem_drops ha)
      · exact (hplain h).run hused.shape ha hc hsmall

/-- In every run of paging calls on a processor that caches translations, whatever it looks up and forgets on the way, the
tables go through the states they go through without a cache, no call faults, and what the cache holds is what the tables
hold, except for pages whose translation a call has taken away. No table turns into a large page: `translation` is what the
processor finds in the tables. -/
theorem coreRun_sound (h : Used m.state) (hsound : ∀ v e, m.tlb v = some e → translation m.state v = some e)
    (hrun : CoreRun m D m') :
    Reaches CallStep m.state m'.state ∧
      (∀ v e, m'.tlb v = some e → v ∈ D ∨ translation m'.state v = some e) ∧
      (Plain m.state → Plain m'.state) ∧
      ∀ (c : Call) r, c.Allowed m'.state → c.Fits m'.state → Prog.Runs Access c.code m' r →
        ∃ tlb n, r = some (⟨c.run m'.state, tlb⟩, n) := by
  obtain ⟨hused, hreach, hD, hw, hplain⟩ := hrun.invariant h fun v _ e he => hsound v e he
  refine ⟨hreach, fun v e he => ?_, hplain, fun c r ha hc hr => ?_⟩
  · by_cases hv : v ∈ D
    · exact .inl hv
    · exact .inr (hD v hv e he)
  · obtain ⟨tlb, n, heq, -⟩ := Call.runs hused.shape hD hw ha hc hr
    exact ⟨tlb, n, heq⟩

theorem Clean.exists_run (h : Clean p s B) (hsound : Sound (translation s) ∅ tlb) :
    ∃ m', Prog.Runs Access p ⟨s, tlb⟩ (some (m', (Prog.exec flat p s).2)) := by
  obtain ⟨hsafe, -, -⟩ := h ∅ (Set.notMem_empty _)
  have hfollows : Follows (s, ∅) ⟨s, tlb⟩ := ⟨rfl, hsound⟩
  obtain ⟨m', hrun, -⟩ := hsafe.runs exists_access hfollows
  rw [exec_ghost p (s, ∅)]
  exact ⟨m', hrun⟩

/-- A page mapped at 4 MB after the boot of a small kernel, on a core whose cache is empty. -/
theorem coreRun_sound_smallBoot : ∃ m', CoreRun ⟨smallBoot, fun _ => none⟩ ∅ m' ∧
    Reaches CallStep smallBoot m'.state ∧
      ∀ v e, m'.tlb v = some e → v ∈ (∅ : Set Page) ∨ translation m'.state v = some e := by
  have hused : Used smallBoot := used_bootState _ (by decide) (by decide) (by decide +kernel)
  have hallowed : (Call.mapv 0x400000 0x1000 3).Allowed smallBoot :=
    ⟨outsideWindow_page (by decide), by decide +kernel⟩
  have hfits : (Call.mapv 0x400000 0x1000 3).Fits smallBoot := (by decide : 3 < pageSize)
  have hempty : Sound (translation smallBoot) ∅ (fun _ => none) := fun _ _ _ he => by cases he
  obtain ⟨m', hrun⟩ := (Call.clean hused.shape hallowed hfits).exists_run hempty
  have hsmall : (Call.mapv 0x400000 0x1000 3).Small := (by decide : ¬ Large 3)
  have hcore := (CoreRun.refl (m := ⟨smallBoot, fun _ => none⟩)).call _ hallowed hfits hsmall hrun
  rw [show ∅ ∪ (Call.mapv 0x400000 0x1000 3).drops smallBoot = (∅ : Set Page) from Set.union_empty _] at hcore
  have h := coreRun_sound hused (fun _ _ he => by cases he) hcore
  exact ⟨m', hcore, h.1, h.2.1⟩

/-! ## `page_umapv` -/

def FlushesWindow (o : Op) : Prop := ∀ a, o = .invlpg a → a = windowAddress

theorem only_emit (h : FlushesWindow o) : Prog.Only FlushesWindow (emit o) := ⟨h, fun _ => trivial⟩

theorem only_setWindow (e : Nat) :
    Prog.Only FlushesWindow ((emit (.framePt e)).bind fun _ => emit (.invlpg windowAddress)) := by
  refine Prog.only_bind (only_emit fun _ h => by cases h) fun _ => only_emit fun a h => ?_
  cases h
  rfl

theorem only_umapvPage (virt : Nat) : Prog.Only FlushesWindow (Code.umapvPage virt) := by
  have hread : ∀ i, Prog.Only FlushesWindow (emit (.read i)) := fun i => only_emit fun _ h => by cases h
  have hroot : ∀ i, Prog.Only FlushesWindow (emit (.pmlt4 i)) := fun i => only_emit fun _ h => by cases h
  have hentry : ∀ a, Prog.Only FlushesWindow (Code.umapvEntry a virt) := by
    intro a
    refine Prog.only_bind (only_setWindow _) fun _ => Prog.only_bind (hread _) fun _ => ?_
    refine Prog.only_bind (only_emit fun _ h => by cases h) fun _ => ?_
    exact Prog.only_bind (only_emit fun _ h => by cases h) fun _ => only_setWindow 0
  have hif : ∀ e (q : Prog Op Nat), Prog.Only FlushesWindow q → Prog.Only FlushesWindow (Code.ifAbsent e (pure 0) q) := by
    intro e q hq
    unfold Code.ifAbsent
    split_ifs
    · exact hq
    · trivial
  refine Prog.only_bind (hroot _) fun e => hif e _ (Prog.only_bind (hroot _) fun e => ?_)
  refine Prog.only_bind (only_setWindow _) fun _ => Prog.only_bind (hread _) fun e => hif e _ ?_
  refine Prog.only_bind (hread _) fun e => Prog.only_bind (only_setWindow _) fun _ => ?_
  exact Prog.only_bind (hread _) fun e => hif e _ (Prog.only_bind (hread _) fun e => hentry _)

theorem only_pageUmapv (virt length : Nat) : Prog.Only FlushesWindow (Code.pageUmapv virt length) := by
  unfold Code.pageUmapv
  induction rounds length with
  | zero => trivial
  | succ n ih => exact Prog.only_bind ih fun _ => only_umapvPage _

/-- `page_umapv` issues no `invlpg` for the pages it unmaps: it leaves every cache right exactly when no page of the range
had a translation. -/
theorem unmap_coherent_iff (hs : TreeShaped s) (hw : OutsideWindow virt length)
    (hcleared : ∀ f, Cleared s virt (rounds length) f → s.NoTable f ∧ f ≠ bitmapFrame) :
    (∀ tlb r, (∀ v e, tlb v = some e → translation s v = some e) →
      Prog.Runs Access (Code.pageUmapv virt length) ⟨s, tlb⟩ r →
      ∃ m' n, r = some (m', n) ∧ ∀ v e, m'.tlb v = some e → translation m'.state v = some e) ↔
    ∀ v ∈ pageList virt length, ¬ Present (walk s v) := by
  have hfree : ∀ f, Freed s (pageList virt length) f → s.NoTable f ∧ f ≠ bitmapFrame :=
    fun f hf => hcleared f (freed_range.mp hf)
  have hclean := clean_pageUmapv hs hw hfree
  constructor
  · intro h v hv hp
    obtain ⟨hsafe, -, -⟩ := hclean ∅ (Set.notMem_empty _)
    have hlazy : Lazy (translation s) (s, ∅) ⟨s, translation s⟩ := ⟨⟨rfl, fun _ _ _ he => he⟩, fun _ _ => rfl⟩
    obtain ⟨m', hrun, hfollows, hkeep⟩ := (hsafe.and_only (only_pageUmapv virt length)).runs (lazy_access _) hlazy
    obtain ⟨m'', n, heq, hright⟩ := h _ _ (fun _ _ he => he) hrun
    cases heq
    have hoff := onWindow_pageList hw v hv
    have hcached : m'.tlb (pageOf v) = some (walk s v) := by
      rw [hkeep _ fun hp => hoff (onWindow_of_pageOf hp.symm)]
      exact if_pos hp
    have hend : Unmapped s (pageUmapv s virt length) (pageList virt length) := by
      rw [pageUmapv_eq]
      exact unmapped_foldl hs (onWindow_pageList hw) hfree
    have hgone : walk (pageUmapv s virt length) v = 0 := hend.gone _ _ rfl hoff ⟨v, hv, rfl, rfl⟩
    have hstate : m'.state = pageUmapv s virt length := by
      rw [hfollows.1, ← Code.exec_pageUmapv, exec_ghost _ (s, ∅)]
    have hlast := hright _ _ hcached
    rw [hstate] at hlast
    have hnone : translation (pageUmapv s virt length) (pageOf v) = none := by
      refine if_neg fun hp' => ?_
      exact absurd rfl (hgone ▸ hp' : Present 0)
    rw [hnone] at hlast
    cases hlast
  · intro hnone tlb r htlb hrun
    have hsub : MappedIn s (pageList virt length) ⊆ ∅ := fun _ ⟨v, hv, hm⟩ => hnone v hv hm.2
    obtain ⟨tlb', heq, hsound⟩ := (hclean.mono hsub).runs (fun v _ e he => htlb v e he) (Set.notMem_empty _) hrun
    rw [Set.union_empty] at hsound
    exact ⟨_, _, heq, fun v e he => hsound v (Set.notMem_empty v) e he⟩

/-- The page mapped at 4 MB above is unmapped: a core may go on using the frame that was given back. -/
theorem unmap_coherent_iff_smallBoot :
    (∀ tlb r, (∀ v e, tlb v = some e → translation (pageMapv smallBoot 0x400000 0x1000 3) v = some e) →
      Prog.Runs Access (Code.pageUmapv 0x400000 0x1000) ⟨pageMapv smallBoot 0x400000 0x1000 3, tlb⟩ r →
      ∃ m' n, r = some (m', n) ∧ ∀ v e, m'.tlb v = some e → translation m'.state v = some e) ↔
    ∀ v ∈ pageList 0x400000 0x1000, ¬ Present (walk (pageMapv smallBoot 0x400000 0x1000 3) v) := by
  have hused : Used smallBoot := used_bootState _ (by decide) (by decide) (by decide +kernel)
  have hw : ¬ OnWindow 0x400000 := not_onWindow (tablePath_ne_window (by decide))
  have heq : pageMapv smallBoot 0x400000 0x1000 3 = mapvPage 3 smallBoot 0x400000 := by
    rw [pageMapv_page, show qword 0x400000 = 0x400000 by decide]
  have href : (mapvPage 3 smallBoot 0x400000).refused = smallBoot.refused := by decide +kernel
  have hempty : walk smallBoot 0x400000 = 0 := by decide +kernel
  obtain ⟨f, hf⟩ := mapvPage_spec hused.shape (by decide) hw href
  have hfree := hf.not_bit hused.shape (by decide) href
  have hwalk := hf.walk (by decide)
  rw [if_pos hempty] at hwalk
  refine unmap_coherent_iff (heq ▸ hf.written.shape) (outsideWindow_page (by decide)) fun g hg => ?_
  obtain ⟨k, hk, -, hg⟩ := hg
  obtain rfl : k = 0 := by
    rw [show rounds 0x1000 = 1 by decide] at hk
    omega
  obtain hg | ⟨-, j, hj, -⟩ := hg
  · have hbit : bitOf (f * pageSize ||| 3) = f := by
      have hlt := (Paging.mem_free.mp hf.mem_free).1
      have hframe : frameOf (f * pageSize ||| 3) = f := by
        rw [frameOf_or (by decide), frameOf_mul (Nat.lt_trans hlt (by decide))]
      unfold bitOf
      unfold frameOf at hframe
      unfold frames pageBitmapSize at hlt
      omega
    obtain rfl : g = f := by
      rw [hg, show pageAt 0x400000 0 = 0x400000 by decide, heq, hwalk, hbit]
    refine ⟨heq ▸ hf.noTable, ?_⟩
    rintro rfl
    exact hfree hused.shape.bitmap.1.2
  · omega

end HaOS.Paging
