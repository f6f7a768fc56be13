import HaOS.Lib.Tlb
import HaOS.Paging.Code
import HaOS.Paging.Unmap

/-!
# The paging functions on a processor that caches translations

* `Page`, `translation` : the entry that the tables in `pmlt4`, which `CR3` names, hold for a page;
* `Core`, `Access` : an access of a processor whose cache may look up and forget translations at any time; an access
  through the window uses what the cache has, or else the tables; `none` is a page fault;
* `ghost` : the accesses without a cache, beside the set of the pages whose translation has been taken away since the
  last `invlpg`; `follows` : the cache never holds anything stale but at those;
* `Clean p s B` : from the state `s` the program never uses a stale window, and leaves at most the pages `B` stale;
* `clean_pageGetframe`, `clean_tablesFor` : frames and tables.
-/

namespace HaOS.Paging
open Lib (Prog)
open Lib.Prog (emit)
open Lib.Tlb (Fills see drop changed Sound)

abbrev Page := Index × Index × Index × Index

def pageOf (v : Nat) : Page := (pmlt4Index v, pdptIndex v, pdtIndex v, ptIndex v)

def windowPage : Page := pageOf windowAddress

/-- The entry that the tables hold for a page, if it is present; the processor's, where no table is a large page. -/
def translation (s : State) (v : Page) : Option Nat :=
  let e := s.entry [v.1, v.2.1, v.2.2.1] v.2.2.2
  if Present e then some e else none

/-! ## The machine -/

structure Core where
  state : State
  tlb : Page → Option Nat

def flush (o : Op) (c : Page → Option Nat) : Page → Option Nat :=
  match o with
  | .invlpg virt => drop c (pageOf virt)
  | _ => c

inductive Access : Op → Core → Option (Core × Nat) → Prop
  | plain {o : Op} {m : Core} {c : Page → Option Nat} (ho : ¬ o.Windowed) (hc : Fills (translation m.state) m.tlb c) :
      Access o m (some (⟨(act o 0 m.state).1, flush o c⟩, (act o 0 m.state).2))
  | window {o : Op} {m : Core} {c : Page → Option Nat} {e : Nat} (ho : o.Windowed)
      (hc : Fills (translation m.state) m.tlb c) (he : see (translation m.state) c windowPage = some e) :
      Access o m (some (⟨(act o (frameOf e) m.state).1, c⟩, (act o (frameOf e) m.state).2))
  | fault {o : Op} {m : Core} {c : Page → Option Nat} (ho : o.Windowed) (hc : Fills (translation m.state) m.tlb c)
      (he : see (translation m.state) c windowPage = none) : Access o m none

/-! ## The accesses without a cache, and what is stale -/

def flushed : Op → Set Page
  | .invlpg virt => {pageOf virt}
  | _ => ∅

def ghost (o : Op) (g : State × Set Page) : (State × Set Page) × Nat :=
  (((flat o g.1).1, (g.2 ∪ changed (translation g.1) (translation (flat o g.1).1)) \ flushed o), (flat o g.1).2)

/-- The tables translate the window to the frame in `frame_pt[0]`. -/
def Shown (s : State) : Prop := ∃ e, translation s windowPage = some e ∧ frameOf e = s.windowFrame

/-- The window is used only when it is not stale and shows a frame. -/
def Ready (o : Op) (g : State × Set Page) : Prop := o.Windowed → windowPage ∉ g.2 ∧ Shown g.1

/-- The core has the state, and its cache is sound but for the stale pages. -/
def Follows (g : State × Set Page) (m : Core) : Prop := m.state = g.1 ∧ Sound (translation g.1) g.2 m.tlb

variable {s t u : State} {α β : Type} {p : Prog Op α} {f : α → Prog Op β} {B B' : Set Page} {o : Op} {v : Page}
  {flags virt n addr e : Nat} {i : Index} {q : List Index}

theorem act_plain (ho : ¬ o.Windowed) (n : Nat) (s : State) : act o n s = flat o s := by
  cases o with
  | read | write | memzero => exact absurd trivial ho
  | _ => rfl

theorem sound_flush {c : Page → Option Nat} {D : Set Page} {w : Page → Option Nat} (h : Sound w D c) (o : Op) :
    Sound w (D \ flushed o) (flush o c) := by
  cases o with
  | invlpg virt => exact h.drop (pageOf virt)
  | _ => exact h.mono fun v hv => ⟨hv, fun h => h⟩

theorem flushed_windowed (ho : o.Windowed) : flushed o = ∅ := by
  cases o with
  | read | write | memzero => rfl
  | _ => exact absurd ho id

/-- One access: the core does what is done without a cache, and does not fault. -/
theorem follows_access (o : Op) (g : State × Set Page) (m : Core) (r : Option (Core × Nat)) (h : Follows g m)
    (hpre : Ready o g) (hr : Access o m r) : ∃ m', r = some (m', (ghost o g).2) ∧ Follows (ghost o g).1 m' := by
  obtain ⟨hst, hsound⟩ := h
  cases hr with
  | plain ho hc =>
      rw [act_plain ho, hst]
      rw [hst] at hc
      exact ⟨_, rfl, rfl, sound_flush (hsound.fills hc).change o⟩
  | window ho hc he =>
      obtain ⟨hw, e', he', hf⟩ := hpre ho
      rw [hst] at hc he ⊢
      rw [(hsound.fills hc).see hw, he'] at he
      cases he
      rw [hf]
      refine ⟨_, rfl, rfl, ?_⟩
      show Sound _ (_ \ flushed o) _
      rw [flushed_windowed ho, Set.sdiff_empty]
      exact (hsound.fills hc).change
  | fault ho hc he =>
      obtain ⟨hw, e', he', -⟩ := hpre ho
      rw [hst] at hc he
      rw [(hsound.fills hc).see hw, he'] at he
      cases he

/-- A core that looks up and forgets nothing follows too. -/
theorem exists_access (o : Op) (g : State × Set Page) (m : Core) (h : Follows g m) (hpre : Ready o g) :
    ∃ m', Access o m (some (m', (ghost o g).2)) ∧ Follows (ghost o g).1 m' := by
  have hfill := Fills.refl (translation m.state) m.tlb
  have hstep : ∃ r, Access o m r := by
    by_cases ho : o.Windowed
    · obtain ⟨hw, e, he, -⟩ := hpre ho
      have hsee : see (translation m.state) m.tlb windowPage = some e := by
        rw [h.1, h.2.see hw, he]
      exact ⟨_, .window ho hfill hsee⟩
    · exact ⟨_, .plain ho hfill⟩
  obtain ⟨r, hr⟩ := hstep
  obtain ⟨m', rfl, hm⟩ := follows_access o g m r h hpre hr
  exact ⟨m', hr, hm⟩

/-- The cache forgets nothing, and looks up nothing, but for `invlpg` of the window. -/
def Lazy (c : Page → Option Nat) (g : State × Set Page) (m : Core) : Prop :=
  Follows g m ∧ ∀ v, v ≠ windowPage → m.tlb v = c v

theorem lazy_access (c : Page → Option Nat) (o : Op) (g : State × Set Page) (m : Core) (h : Lazy c g m)
    (hpre : Ready o g ∧ ∀ virt, o = .invlpg virt → virt = windowAddress) :
    ∃ m', Access o m (some (m', (ghost o g).2)) ∧ Lazy c (ghost o g).1 m' := by
  obtain ⟨hfollows, hkeep⟩ := h
  have hfill := Fills.refl (translation m.state) m.tlb
  have hstep : ∃ m' n, Access o m (some (m', n)) ∧ ∀ v, v ≠ windowPage → m'.tlb v = m.tlb v := by
    by_cases ho : o.Windowed
    · obtain ⟨hw, e, he, -⟩ := hpre.1 ho
      have hsee : see (translation m.state) m.tlb windowPage = some e := by
        rw [hfollows.1, hfollows.2.see hw, he]
      exact ⟨_, _, .window ho hfill hsee, fun _ _ => rfl⟩
    · refine ⟨_, _, .plain ho hfill, fun v hv => ?_⟩
      cases o with
      | invlpg virt =>
          obtain rfl := hpre.2 virt rfl
          exact if_neg hv
      | _ => rfl
  obtain ⟨m', n, hacc, htlb⟩ := hstep
  obtain ⟨m'', heq, hf⟩ := follows_access o g m _ hfollows hpre.1 hacc
  cases heq
  exact ⟨m', hacc, hf, fun v hv => (htlb v hv).trans (hkeep v hv)⟩

/-! ## Programs that keep the window fresh -/

/-- From `s` the program uses the window only when it is fresh, and leaves at most the pages `B` stale, not the window. -/
def Clean (p : Prog Op α) (s : State) (B : Set Page) : Prop :=
  ∀ D, windowPage ∉ D → Prog.Safe ghost Ready p (s, D) ∧ (Prog.exec ghost p (s, D)).1.2 ⊆ D ∪ B ∧
    windowPage ∉ (Prog.exec ghost p (s, D)).1.2

theorem exec_ghost (p : Prog Op α) (g : State × Set Page) :
    Prog.exec flat p g.1 = ((Prog.exec ghost p g).1.1, (Prog.exec ghost p g).2) :=
  Prog.exec_map Prod.fst (fun _ _ => rfl) p g

theorem Clean.mono (h : Clean p s B) (hB : B ⊆ B') : Clean p s B' := by
  intro D hD
  obtain ⟨hsafe, hsub, hw⟩ := h D hD
  exact ⟨hsafe, hsub.trans (Set.union_subset_union_right D hB), hw⟩

theorem clean_ret (a : α) (s : State) (B : Set Page) : Clean (.ret a) s B :=
  fun _ hD => ⟨trivial, Set.subset_union_left, hD⟩

theorem Clean.bind (hp : Clean p s B) (hf : Clean (f (Prog.exec flat p s).2) (Prog.exec flat p s).1 B) :
    Clean (p.bind f) s B := by
  intro D hD
  obtain ⟨hsafe, hsub, hw⟩ := hp D hD
  have hx := exec_ghost p (s, D)
  rw [hx] at hf
  obtain ⟨hsafe', hsub', hw'⟩ := hf _ hw
  rw [Prog.exec_bind]
  refine ⟨Prog.safe_bind hsafe hsafe', hsub'.trans ?_, hw'⟩
  exact Set.union_subset hsub Set.subset_union_right

/-- An access that takes no translation away but those of `B`. -/
theorem clean_emit (hpre : o.Windowed → Shown s)
    (hch : changed (translation s) (translation (flat o s).1) ⊆ B) (hw : windowPage ∉ B) : Clean (emit o) s B := by
  intro D hD
  have hsub : D ∪ changed (translation s) (translation (flat o s).1) ⊆ D ∪ B := Set.union_subset_union_right D hch
  refine ⟨⟨fun ho => ⟨hD, hpre ho⟩, trivial⟩, fun v hv => hsub hv.1, fun hv => ?_⟩
  obtain hd | hb := hsub hv.1
  · exact hD hd
  · exact hw hb

theorem clean_same (hpre : o.Windowed → Shown s) (hch : translation (flat o s).1 = translation s) :
    Clean (emit o) s B := by
  refine (clean_emit hpre ?_ (Set.notMem_empty _)).mono (Set.empty_subset B)
  rw [hch, Lib.Tlb.changed_self]

/-! ## Translations -/

theorem not_window (hv : v ≠ windowPage) : ¬ ([v.1, v.2.1, v.2.2.1] = windowPath ∧ v.2.2.2 = 0) := by
  rintro ⟨hp, hi⟩
  injection hp with h1 hp
  injection hp with h2 hp
  injection hp with h3 _
  refine hv (Prod.ext h1 (Prod.ext h2 (Prod.ext h3 ?_)))
  rw [hi]
  decide

theorem translation_congr (h : t.entry [v.1, v.2.1, v.2.2.1] v.2.2.2 = s.entry [v.1, v.2.1, v.2.2.1] v.2.2.2) :
    translation t v = translation s v := by
  unfold translation
  rw [h]

theorem TreeShaped.translation_window (hs : TreeShaped s) :
    translation s windowPage = if Present (s.mem framePt 0) then some (s.mem framePt 0) else none := by
  have h : s.entry windowPath 0 = s.mem framePt 0 := entry_of_table hs.window 0
  rw [← h]
  rfl

/-- The window is left as it is, and all the other entries too. -/
theorem TreeShaped.translation_eq (hs : TreeShaped s) (ht : TreeShaped t) (hw : t.mem framePt 0 = s.mem framePt 0)
    (h : ∀ q j, q.length = 3 → ¬ (q = windowPath ∧ j = 0) → t.entry q j = s.entry q j) :
    translation t = translation s := by
  funext v
  by_cases hv : v = windowPage
  · rw [hv, hs.translation_window, ht.translation_window, hw]
  · exact translation_congr (h _ _ rfl (not_window hv))

theorem TreeShaped.translation_keeps (hs : TreeShaped s) (hk : Keeps s t) (hv : v ≠ windowPage) :
    translation t v = translation s v := translation_congr (hs.entry_keeps hk rfl (not_window hv))

theorem clean_setWindow {e : Nat} (h : ∀ v, v ≠ windowPage → translation (s.store framePt 0 e) v = translation s v) :
    Clean ((emit (.framePt e)).bind fun _ => emit (.invlpg windowAddress)) s B := by
  intro D hD
  refine ⟨⟨fun h => absurd h id, fun h => absurd h id, trivial⟩, fun v hv => ?_, fun hv => hv.2 rfl⟩
  obtain ⟨hv, hvw⟩ := hv
  have hne : v ≠ windowPage := hvw
  obtain hv | ⟨a, ha, ha'⟩ := hv
  · obtain hv | ⟨a, ha, ha'⟩ := hv.1
    · exact .inl hv
    · exact absurd ((h v hne).trans ha) ha'
  · exact absurd ha ha'

theorem TreeShaped.clean_mapframe (hs : TreeShaped s) (addr : Nat) : Clean (Code.pageMapframe addr) s B :=
  clean_setWindow fun _ hv => hs.translation_keeps (hs.setWindow _) hv

theorem TreeShaped.clean_umapframe (hs : TreeShaped s) : Clean Code.pageUmapframe s B :=
  clean_setWindow fun _ hv => hs.translation_keeps (hs.setWindow 0) hv

theorem TreeShaped.shown (hs : TreeShaped s) (h : target (s.mem framePt 0) = some n) : Shown s := by
  unfold target at h
  split_ifs at h with hp
  refine ⟨s.mem framePt 0, ?_, rfl⟩
  rw [hs.translation_window, if_pos hp]

theorem TreeShaped.shown_mapframe (hs : TreeShaped s) (addr : Nat) : Shown (pageMapframe s addr) :=
  (hs.keeps (hs.mapframe addr)).shown (target_mapframe s addr)

theorem TreeShaped.clean_read (hs : TreeShaped s) (addr : Nat) (i : Index) :
    Clean (emit (.read i)) (pageMapframe s addr) B := clean_same (fun _ => hs.shown_mapframe addr) rfl

/-! ## Frames and tables -/

theorem TreeShaped.memzero (hs : TreeShaped s) (hf : s.NoTable n) :
    TreeShaped (act .memzero n s).1 ∧ translation (act .memzero n s).1 = translation s := by
  have hmem : ∀ q g, q.length ≤ 3 → s.table q = some g → (act .memzero n s).1.mem g = s.mem g := by
    intro q g hq hg
    funext j
    refine if_neg ?_
    rintro rfl
    exact hf q hq hg
  have htable : ∀ q, q.length ≤ 3 → (act .memzero n s).1.table q = s.table q :=
    fun q hq => table_congr rfl (fun r g hr hg => hmem r g hr.le hg) hq
  have htree : TreeShaped (act .memzero n s).1 := hs.congr rfl htable fun f hf _ => hf
  refine ⟨htree, hs.translation_eq htree ?_ fun q j hq _ => ?_⟩
  · rw [hmem _ _ (by decide) hs.window]
  · exact entry_congr (htable q hq.le) fun f hf => congrFun (hmem q f hq.le hf) j

theorem TreeShaped.clean_grant {k j : Nat} (hs : TreeShaped s) (hj : j < 8) (hk : k < pageBitmapSize)
    (hfree : ¬ Bit s.bitmap (j + k * 8)) : Clean (Code.grant k j) s B := by
  have haddr : frameOf ((j + k * 8) * pageSize) = j + k * 8 := frameOf_mul (by unfold pageBitmapSize at hk; omega)
  have hk1 : Keeps s (s.setBit k j) :=
    ⟨rfl, fun _ _ => rfl, fun g hg => (bit_set hj g).mpr (.inr hg), fun _ _ _ _ => rfl⟩
  have hs1 := hs.keeps hk1
  unfold Code.grant
  generalize (j + k * 8) * pageSize = a at haddr ⊢
  have hk2 := hk1.trans (hs1.mapframe a)
  have hno := NoTable.keeps hk2 (hs.noTable hfree)
  rw [← haddr, ← windowFrame_mapframe (s := s.setBit k j)] at hno
  obtain ⟨hs3, hzero⟩ := (hs.keeps hk2).memzero hno
  refine (clean_same (fun h => absurd h id) rfl).bind ?_
  refine (hs1.clean_mapframe a).bind ?_
  refine (clean_same (fun _ => hs1.shown_mapframe a) hzero).bind ?_
  exact hs3.clean_umapframe.bind (clean_ret _ _ _)

theorem TreeShaped.clean_getframeFrom (hs : TreeShaped s) (n k : Nat) (hk : k + n ≤ pageBitmapSize) :
    Clean (Code.getframeFrom n k) s B := by
  induction n generalizing k with
  | zero => exact (clean_same (fun h => absurd h id) rfl).bind (clean_ret _ _ _)
  | succ n ih =>
      have hbyte : BitVec.ofNat 8 (s.bitmap k).toNat = s.bitmap k := by simp
      refine (clean_same (fun h => absurd h id) rfl).bind ?_
      rw [show (Prog.exec flat (emit (.bitmap k)) s).2 = (s.bitmap k).toNat from rfl, hbyte]
      show Clean _ s B
      split_ifs
      · exact ih (k + 1) (by omega)
      · cases hfree : freeBit (s.bitmap k) with
        | none => exact ih (k + 1) (by omega)
        | some j =>
            obtain ⟨hj, hbit, -⟩ := freeBit_some hfree
            refine hs.clean_grant hj (by omega) ?_
            unfold Bit
            rw [show (j + k * 8) / 8 = k by omega, show (j + k * 8) % 8 = j by omega, hbit]
            decide

theorem TreeShaped.clean_getframe (hs : TreeShaped s) : Clean Code.pageGetframe s B :=
  hs.clean_getframeFrom _ 0 (Nat.zero_add _).le

/-- A table that is linked in takes no translation away. -/
theorem Linked.translation_eq (hs : TreeShaped s) (hk : Keeps s u) (h : Linked flags s t q n)
    (hw : t.mem framePt 0 = u.mem framePt 0) : translation t = translation u := by
  refine (hs.keeps hk).translation_eq h.shape hw fun r j hr hrw => ?_
  exact (h.ext.entry r j hr hrw id).trans (hs.entry_keeps hk hr hrw).symm

theorem rootEntry_absent (h : ¬ Present (s.mem s.root i)) : (rootEntry s i flags).1 =
    (pageGetframe s).1.store (pageGetframe s).1.root i ((pageGetframe s).2 ||| flags) := by
  simp only [rootEntry, h, if_false]

theorem tableEntry_absent (h : ¬ Present ((pageMapframe s addr).window i)) : (tableEntry s addr i flags).1 =
    (pageMapframe (pageGetframe (pageMapframe s addr)).1 addr).store (frameOf addr) i
      ((pageGetframe (pageMapframe s addr)).2 ||| flags) := by
  simp only [tableEntry, h, if_false, State.storeWindow, windowFrame_mapframe]

theorem TreeShaped.clean_rootEntry (hs : TreeShaped s) (hflags : flags < pageSize)
    (href : (rootEntry s i flags).1.refused = s.refused) : Clean (Code.rootEntry i flags) s B := by
  have hlinked := (rootEntry_visit (i := i) hs hflags).linked (p := []) hs hflags (by decide) (.inl rfl) href
  unfold Code.rootEntry
  refine (clean_same (fun h => absurd h id) rfl).bind ?_
  refine Clean.bind ?_ ((clean_same (fun h => absurd h id) rfl).bind (clean_ret _ _ _))
  show Clean (Code.ifAbsent (s.mem s.root i) _ _) s B
  by_cases hpres : Present (s.mem s.root i)
  · rw [Code.ifAbsent_present hpres]
    exact clean_ret _ _ _
  · have hk := hs.keeps_getframe
    have hs1 := hs.keeps hk
    have hne : framePt ≠ (pageGetframe s).1.root :=
      fun h => hs1.deep rfl hs1.window (by decide : ([] : List Index).length < 3) (congrArg some h.symm)
    rw [rootEntry_absent hpres] at hlinked
    have hsame := hlinked.translation_eq hs hk (congrFun (mem_store_of_ne hne) 0)
    rw [← Code.exec_pageGetframe] at hsame
    rw [Code.ifAbsent_absent hpres]
    exact hs.clean_getframe.bind (clean_same (fun h => absurd h id) hsame)

theorem TreeShaped.clean_tableEntry (hs : TreeShaped s) (hflags : flags < pageSize) (hq : q.length < 3)
    (hn : At flags s q (frameOf addr)) (href : (tableEntry s addr i flags).1.refused = s.refused) :
    Clean (Code.tableEntry addr i flags) s B := by
  have hlinked := (tableEntry_visit (i := i) hs hflags hq hn).linked hs hflags hq hn href
  have hne : framePt ≠ frameOf addr := fun h => hn.ne_framePt hs hq h.symm
  have hk1 := hs.mapframe addr
  have hs1 := hs.keeps hk1
  unfold Code.tableEntry
  refine (hs.clean_mapframe addr).bind ((hs.clean_read addr i).bind ?_)
  show Clean ((Code.ifAbsent ((pageMapframe s addr).window i) _ _).bind _) (pageMapframe s addr) B
  by_cases hpres : Present ((pageMapframe s addr).window i)
  · rw [Code.ifAbsent_present hpres]
    exact (clean_ret _ _ _).bind ((hs.clean_read addr i).bind (clean_ret _ _ _))
  · have hk2 := hk1.trans hs1.keeps_getframe
    have hs2 := hs.keeps hk2
    rw [tableEntry_absent hpres] at hlinked
    set u := pageMapframe (pageGetframe (pageMapframe s addr)).1 addr with hu
    have hwin : ∀ e, (u.store (frameOf addr) i e).mem framePt 0 = u.mem framePt 0 :=
      fun e => congrFun (mem_store_of_ne hne) 0
    have hsame := hlinked.translation_eq hs (hk2.trans (hs2.mapframe addr)) (hwin _)
    have htarget := target_mapframe (pageGetframe (pageMapframe s addr)).1 addr
    have hshown := hlinked.shape.shown (n := frameOf addr) (by rw [hwin]; exact htarget)
    have hwrite : ∀ e, (flat (.write i e) u).1 = u.store (frameOf addr) i e := by
      intro e
      show u.store u.windowFrame i e = _
      rw [hu, windowFrame_mapframe]
    rw [← hwrite] at hsame hshown
    rw [Code.ifAbsent_absent hpres]
    refine Clean.bind ?_ ((clean_same (fun _ => ?_) rfl).bind (clean_ret _ _ _))
    · refine hs1.clean_getframe.bind ?_
      rw [Code.exec_pageGetframe]
      refine (hs2.clean_mapframe addr).bind ?_
      exact clean_same (fun _ => hs2.shown_mapframe addr) hsame
    · simp only [Prog.bind_eq, Prog.exec_bind, Code.exec_pageGetframe, Code.exec_pageMapframe, Prog.exec_emit]
      exact hshown

theorem TreeShaped.clean_tablesFor (hs : TreeShaped s) (hflags : flags < pageSize)
    (href : (tablesFor s virt flags).1.refused = s.refused) : Clean (Code.tablesFor virt flags) s B := by
  have h1 : s.refused ≤ (rootEntry s (pmlt4Index virt) flags).1.refused := refused_le_rootEntry
  have h2 : (rootEntry s (pmlt4Index virt) flags).1.refused ≤ (tableEntry (rootEntry s (pmlt4Index virt) flags).1
    (rootEntry s (pmlt4Index virt) flags).2 (pdptIndex virt) flags).1.refused := refused_le_tableEntry
  have h3 : _ ≤ (tablesFor s virt flags).1.refused := refused_le_tableEntry
  have hlen1 : [pmlt4Index virt].length < 3 := Nat.lt_of_succ_lt (Nat.lt_succ_self 2)
  have hlen2 : ([pmlt4Index virt] ++ [pdptIndex virt]).length < 3 := Nat.lt_succ_self 2
  have href1 := le_antisymm (href ▸ h2.trans h3) h1
  have href2 := le_antisymm (h3.trans (href.le.trans h1)) h2
  have href3 := le_antisymm (href.le.trans (h1.trans h2)) h3
  have hroot := (rootEntry_visit (i := pmlt4Index virt) hs hflags).linked (p := []) hs hflags (by decide) (.inl rfl)
    href1
  have hpdpt := (tableEntry_visit (i := pdptIndex virt) hroot.shape hflags hlen1 hroot.place).linked hroot.shape hflags
    hlen1 hroot.place href2
  unfold Code.tablesFor
  refine (hs.clean_rootEntry hflags href1).bind ?_
  rw [Code.exec_rootEntry]
  refine (hroot.shape.clean_tableEntry hflags hlen1 hroot.place href2).bind ?_
  rw [Code.exec_tableEntry]
  exact hpdpt.shape.clean_tableEntry hflags hlen2 hpdpt.place href3

end HaOS.Paging
