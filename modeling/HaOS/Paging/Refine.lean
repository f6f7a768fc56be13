import HaOS.Paging.Loader

/-!
# What mapping does to the address space

* `walk` : the entry that the tables hold for an address;
* `mapvPage_spec`, `mapvpPage_spec` : one round of the loops;
* `Loop.ext` : the rounds between two points of a loop;
* `maps_pageMapv`, `maps_pageMapvp` : only the pages of the range that had no entry get one.
-/

namespace HaOS.Paging

/-- The entry of the page table behind an address; `0` where there is none. In the entries above it only the present bit
is looked at, as the code does: the processor takes a large page where their bit 7 is set, and `processorFrame` with it. -/
def walk (s : State) (v : Nat) : Nat := s.entry (tablePath v) (ptIndex v)

/-- The 2 MB behind `frame_pt`. -/
def InWindow (v : Nat) : Prop := tablePath v = windowPath

instance (v : Nat) : Decidable (InWindow v) := inferInstanceAs (Decidable (_ = _))

def OnWindow (v : Nat) : Prop := tablePath v = windowPath ∧ ptIndex v = 0

instance (v : Nat) : Decidable (OnWindow v) := inferInstanceAs (Decidable (_ ∧ _))

variable {s t : State} {r : List Index} {flags virt phys n m f : Nat}

theorem not_onWindow {v : Nat} (h : ¬ InWindow v) : ¬ OnWindow v := fun hw => h hw.1

/-- Where the kernel reads and writes through the window is where the processor's walk of the tables leads. -/
theorem TreeShaped.windowFrame (hs : TreeShaped s) : s.windowFrame = frameOf (walk s 0x3fe00000) := by
  unfold walk
  rw [show tablePath 0x3fe00000 = windowPath from rfl, entry_of_table hs.window]
  rfl

theorem TreeShaped.walk_window {w : Nat} (hs : TreeShaped s) (hw : OnWindow w) : walk s w = s.mem framePt 0 := by
  rw [walk, hw.1, hw.2]
  exact entry_of_table hs.window 0

/-! ## One page -/

theorem refused_mapvpPage : (mapvpPage flags s virt phys).refused = (tablesFor s virt flags).1.refused := by
  unfold mapvpPage
  simp only
  split_ifs <;> rfl

theorem refused_mapvPage :
    (mapvPage flags s virt).refused = (pageGetframe (tablesFor s virt flags).1).1.refused := by
  unfold mapvPage
  simp only
  split_ifs <;> rfl

theorem refused_le_mapvpPage : s.refused ≤ (mapvpPage flags s virt phys).refused := by
  rw [refused_mapvpPage]
  exact refused_le_tablesFor

theorem refused_le_mapvPage : s.refused ≤ (mapvPage flags s virt).refused := by
  rw [refused_mapvPage]
  exact refused_le_tablesFor.trans (refused_le_pageGetframe _)

theorem Linked.window_eq {u w : State} (h : Linked flags s u (tablePath virt) (frameOf n)) (hk : Keeps u w)
    (hw : ¬ OnWindow virt) (hfl : Present flags) : (pageMapframe w n).window (ptIndex virt) = walk s virt := by
  have hk' := hk.trans ((h.shape.keeps hk).mapframe n)
  have hn := h.place.keeps h.shape hk' (length_tablePath virt).le
  have hentry : (pageMapframe w n).entry (tablePath virt) (ptIndex virt) = walk s virt :=
    (h.ext.trans (h.shape.extends hk')).entry _ _ rfl hw id
  rw [← hentry, entry_of_table (hn.resolve_right fun h => h.1 hfl), State.window, windowFrame_mapframe]

structure Placed (flags : Nat) (s t : State) (virt phys : Nat) : Prop where
  written : Written flags s t (tablePath virt) (ptIndex virt) (phys ||| flags)
  table : ∀ r, r.length ≤ 3 → t.table r = (tablesFor s virt flags).1.table r
  walk : Present flags → walk t virt = if walk s virt = 0 then phys ||| flags else walk s virt

theorem mapvpPage_spec (hs : TreeShaped s) (hflags : flags < pageSize) (hw : ¬ OnWindow virt)
    (href : (mapvpPage flags s virt phys).refused = s.refused) :
    Placed flags s (mapvpPage flags s virt phys) virt phys := by
  have h := tablesFor_linked hs hflags (refused_mapvpPage.symm.trans href)
  set s1 := (tablesFor s virt flags).1 with hs1
  set ptAddr := (tablesFor s virt flags).2 with hpt
  have hk := h.shape.mapframe ptAddr
  have hu := h.shape.keeps hk
  have hext := h.ext.trans (h.shape.extends hk)
  have hn := h.place.keeps h.shape hk (length_tablePath virt).le
  have hwin := h.window_eq (.refl s1) hw
  by_cases hold : (pageMapframe s1 ptAddr).window (ptIndex virt) = 0
  · have ht : mapvpPage flags s virt phys =
        pageUmapframe ((pageMapframe s1 ptAddr).store (frameOf ptAddr) (ptIndex virt) (phys ||| flags)) := by
      simp only [mapvpPage, ← hs1, ← hpt, hold, State.storeWindow, windowFrame_mapframe]
      rfl
    obtain ⟨hwritten, hnew⟩ := hn.write hu rfl hw (phys ||| flags)
    rw [ht]
    refine ⟨hwritten.after hext rfl hw, fun r hr => ?_, fun hfl => ?_⟩
    · exact (hn.table_write hu rfl _ _ hr).trans (hk.table r hr)
    · rw [if_pos ((hwin hfl).symm.trans hold)]
      exact hnew hfl
  · have ht : mapvpPage flags s virt phys = pageUmapframe (pageMapframe s1 ptAddr) := by
      simp only [mapvpPage, ← hs1, ← hpt, hold, ne_eq, not_false_eq_true, if_true]
    have hc := hu.umapframe
    rw [ht]
    refine ⟨(Written.keep (hu.keeps hc) (.inl (mem_umapframe _))).after (hext.trans (hu.extends hc)) rfl hw,
      fun r hr => ?_, fun hfl => ?_⟩
    · exact (hc.table r hr).trans (hk.table r hr)
    · rw [if_neg fun h => hold ((hwin hfl).trans h)]
      exact (hext.trans (hu.extends hc)).entry _ _ rfl hw id

/-- The frame of a page that `page_mapv` has mapped is a zeroed frame that was free. -/
structure NewFrame (s t : State) (f : Nat) : Prop where
  free : ¬ s.Marked f
  marked : t.Marked f
  noTable : t.NoTable f
  zero : t.mem f = fun _ => 0

/-- A round of `page_mapv` and the frame it takes, whether it has use for it or not. -/
structure Taken (flags : Nat) (s t : State) (virt f : Nat) : Prop where
  written : Written flags s t (tablePath virt) (ptIndex virt) (f * pageSize ||| flags)
  table : ∀ r, r.length ≤ 3 → t.table r = (tablesFor s virt flags).1.table r
  mem_free : f ∈ (tablesFor s virt flags).1.free
  free : t.free = (tablesFor s virt flags).1.free.erase f
  least : ∀ g < f, Bit t.bitmap g
  noTable : t.NoTable f
  walk : Present flags → walk t virt = if walk s virt = 0 then f * pageSize ||| flags else walk s virt
  zero : Present flags → t.mem f = fun _ => 0
  closed : Present flags → HaOS.Paging.walk s virt = 0 → t.mem framePt 0 = 0

theorem mapvPage_spec (hs : TreeShaped s) (hflags : flags < pageSize) (hw : ¬ OnWindow virt)
    (href : (mapvPage flags s virt).refused = s.refused) : ∃ f, Taken flags s (mapvPage flags s virt) virt f := by
  have href0 : (mapvPage flags s virt).refused = _ := refused_mapvPage
  have hle1 : s.refused ≤ (tablesFor s virt flags).1.refused := refused_le_tablesFor
  have hle2 := refused_le_pageGetframe (tablesFor s virt flags).1
  have h : Linked flags s (tablesFor s virt flags).1 _ _ :=
    tablesFor_linked hs hflags (le_antisymm (hle2.trans (href0.symm.trans href).le) hle1)
  set s1 := (tablesFor s virt flags).1 with hs1
  set ptAddr := (tablesFor s virt flags).2 with hpt
  obtain ⟨f, hf, hframe⟩ := pageGetframe_granted (by omega : (pageGetframe s1).1.refused = s1.refused)
  have hleast := pageGetframe_least hframe
  set s2 := (pageGetframe s1).1 with hs2
  have hk2 : Keeps s1 s2 := h.shape.granted hf
  have hk := hk2.trans ((h.shape.keeps hk2).mapframe ptAddr)
  have hu := h.shape.keeps hk
  have hext := h.ext.trans (h.shape.extends hk)
  have hn := h.place.keeps h.shape hk (length_tablePath virt).le
  have hwin := h.window_eq hk2 hw
  have hfu : (pageMapframe s2 ptAddr).Marked f := hf.marked
  have hfn : (pageMapframe s2 ptAddr).NoTable f := NoTable.keeps hk (h.shape.noTable hf.free)
  have hbelow : ∀ g < f, Bit s2.bitmap g := fun g hg => (hf.bit g).mpr (.inr (hleast g hg))
  have hzero : (pageMapframe s2 ptAddr).mem f = fun _ => 0 := by
    rw [pageMapframe, mem_store_of_ne (hu.framePt_ne hfn)]
    funext j
    exact hf.zero j
  by_cases hold : (pageMapframe s2 ptAddr).window (ptIndex virt) = 0
  · have ht : mapvPage flags s virt =
        pageUmapframe ((pageMapframe s2 ptAddr).store (frameOf ptAddr) (ptIndex virt) (f * pageSize ||| flags)) := by
      simp only [mapvPage, ← hs1, ← hpt, ← hs2, hframe, hold, State.storeWindow, windowFrame_mapframe]
      rfl
    obtain ⟨hwritten, hnew⟩ := hn.write hu rfl hw (f * pageSize ||| flags)
    have hfn' := hwritten.ext.noTable_of_bit hfn hfu.2
    rw [ht]
    refine ⟨f, hwritten.after hext rfl hw, fun r hr => ?_, hf.mem_free, hf.free_eq, hbelow, hfn', fun hfl => ?_,
      fun hfl => ?_, fun _ _ => mem_umapframe _⟩
    · exact (hn.table_write hu rfl _ _ hr).trans (hk.table r hr)
    · rw [if_pos ((hwin hfl).symm.trans hold)]
      exact hnew hfl
    · rw [hwritten.ext.data hfl f hfu hfn', hzero]
  · have ht : mapvPage flags s virt = pageMapframe s2 ptAddr := by
      simp only [mapvPage, ← hs1, ← hpt, ← hs2, hold, ne_eq, not_false_eq_true, if_true]
    rw [ht]
    refine ⟨f, (Written.keep hu (.inr ?_)).after hext rfl hw, fun r hr => hk.table r hr, hf.mem_free, hf.free_eq, hbelow,
      hfn, fun hfl => ?_, fun _ => hzero, fun hfl h0 => ?_⟩
    · rw [windowFrame_mapframe]
      exact hn.marked hu (length_tablePath virt).le
    · rw [if_neg fun h => hold ((hwin hfl).trans h)]
      exact hext.entry _ _ rfl hw id
    · exact absurd ((hwin hfl).trans h0) hold

theorem Taken.marked (h : Taken flags s t virt f) : t.Marked f := marked_of_free h.mem_free h.free

theorem Taken.not_bit (h : Taken flags s (mapvPage flags s virt) virt f) (hs : TreeShaped s) (hflags : flags < pageSize)
    (href : (mapvPage flags s virt).refused = s.refused) : ¬ Bit s.bitmap f := by
  have hle : (tablesFor s virt flags).1.refused ≤ (mapvPage flags s virt).refused := by
    rw [refused_mapvPage]
    exact refused_le_pageGetframe _
  have hlinked := tablesFor_linked hs hflags (le_antisymm (hle.trans href.le) refused_le_tablesFor)
  exact fun hb => (Paging.mem_free.mp h.mem_free).2 (hlinked.ext.bit f hb)

theorem Taken.newFrame (h : Taken flags s (mapvPage flags s virt) virt f) (hs : TreeShaped s) (hflags : flags < pageSize)
    (href : (mapvPage flags s virt).refused = s.refused) (hp : Present flags) : NewFrame s (mapvPage flags s virt) f :=
  ⟨fun hm => h.not_bit hs hflags href hm.2, h.marked, h.noTable, h.zero hp⟩

/-- `page_alloc4K` takes the lowest free frame, and writes an entry for it at the page of the same number. -/
structure Allocated (flags : Nat) (s t : State) (f : Nat) : Prop where
  free : f ∈ s.free
  least : ∀ g < f, Bit s.bitmap g
  marked : t.Marked f
  written : Written flags s t (tablePath (f * pageSize)) (ptIndex (f * pageSize)) (f * pageSize ||| flags)
  walk : Present flags → walk t (f * pageSize) = f * pageSize ||| flags
  used : Present flags → ∀ g ∈ s.free, g ∉ t.free → g = f ∨ ¬ t.NoTable g
  noTable : t.NoTable f
  closed : t.mem framePt 0 = 0

/-- The page that `page_alloc4K` maps lies below 128 MB, and so not in the window. -/
theorem not_inWindow_frame (hf : f < frames) : ¬ InWindow (f * pageSize) := by
  have h128 : f < 0x8000 := hf
  refine tablePath_ne_window ?_
  unfold pageSize
  omega

theorem pageAlloc4K_spec (hs : TreeShaped s) (hflags : flags < pageSize)
    (href : (pageAlloc4K s flags).1.refused = s.refused) :
    ∃ f, (pageAlloc4K s flags).2 = f * pageSize ∧ Allocated flags s (pageAlloc4K s flags).1 f := by
  have hle1 := refused_le_pageGetframe s
  have hle2 : (pageGetframe s).1.refused ≤ (tablesFor (pageGetframe s).1 (pageGetframe s).2 flags).1.refused :=
    refused_le_tablesFor
  have href2 : (tablesFor (pageGetframe s).1 (pageGetframe s).2 flags).1.refused = s.refused := href
  obtain ⟨f, hf, hframe⟩ := pageGetframe_granted (le_antisymm (hle2.trans href2.le) hle1)
  have hleast := pageGetframe_least hframe
  have hk1 := hs.granted hf
  have hs1 := hs.keeps hk1
  have hlinked := tablesFor_linked hs1 hflags (href2.trans hf.refused.symm)
  have hsup := tablesFor_supplied hs1 hflags (pageGetframe s).2
  have hgot := href2.trans hf.refused.symm
  set s1 := (pageGetframe s).1 with hs1'
  rw [hframe] at hlinked hsup hgot
  set s2 := (tablesFor s1 (f * pageSize) flags).1 with hs2
  set ptAddr := (tablesFor s1 (f * pageSize) flags).2 with hpt
  have hwp : ¬ OnWindow (f * pageSize) := not_onWindow (not_inWindow_frame hf.lt)
  have hk2 := hlinked.shape.mapframe ptAddr
  have hu := hlinked.shape.keeps hk2
  have hat := hlinked.place.keeps hlinked.shape hk2 (length_tablePath (f * pageSize)).le
  obtain ⟨hwritten, hnew⟩ := hat.write hu rfl hwp (f * pageSize ||| flags)
  have hext : Extends flags (fun _ _ => False) s (pageMapframe s2 ptAddr) :=
    ((hs.extends hk1).trans hlinked.ext).trans (hlinked.shape.extends hk2)
  have ht : (pageAlloc4K s flags).1 = pageUmapframe ((pageMapframe s2 ptAddr).store (frameOf ptAddr)
      (ptIndex (f * pageSize)) (f * pageSize ||| flags)) := by
    simp only [pageAlloc4K, ← hs1', hframe, ← hs2, ← hpt, State.storeWindow, windowFrame_mapframe]
  have hno2 : s2.NoTable f := hlinked.ext.noTable_of_bit (NoTable.keeps hk1 (hs.noTable hf.free)) hf.marked.2
  have hmarked : (pageMapframe s2 ptAddr).Marked f := (hf.marked.mono hlinked.ext.bit).mono hk2.bit
  have hno : (pageUmapframe ((pageMapframe s2 ptAddr).store (frameOf ptAddr) (ptIndex (f * pageSize))
      (f * pageSize ||| flags))).NoTable f := hwritten.ext.noTable_of_bit (NoTable.keeps hk2 hno2) hmarked.2
  rw [ht]
  refine ⟨f, hframe, hf.mem_free, hleast, ?_, hwritten.after hext rfl hwp, hnew, fun hp g hg hng => ?_, hno,
    mem_umapframe _⟩
  · exact hmarked.mono hwritten.ext.bit
  · by_cases hgf : g = f
    · exact .inl hgf
    · refine .inr fun hno => hsup.taken hgot hp g ?_ hng fun r hr => ?_
      · rw [hf.free_eq]
        exact Finset.mem_erase.mpr ⟨hgf, hg⟩
      · rw [← hk2.table r hr, ← hat.table_write hu rfl (ptIndex (f * pageSize)) (f * pageSize ||| flags) hr]
        exact hno r hr

/-! ## The loops -/

/-- The pages of the rounds from `m` to `n`. -/
def Range (virt m n : Nat) : List Index → Index → Prop := fun p j =>
  ∃ i, m ≤ i ∧ i < n ∧ Only (tablePath (pageAt virt i)) (ptIndex (pageAt virt i)) p j

theorem Extends.walk {v : Nat} (h : Extends flags (Range virt m n) s t) (hv : ¬ OnWindow v)
    (hne : ∀ i, m ≤ i → i < n → vpn v ≠ vpn (pageAt virt i)) : walk t v = walk s v := by
  refine h.entry _ _ rfl hv ?_
  rintro ⟨i, hmi, hin, hp, hj⟩
  exact hne i hmi hin ((vpn_eq_iff _ _).mpr ⟨hp, hj⟩)

theorem walk_congr {v w : Nat} (h : vpn v = vpn w) : walk s v = walk s w := by
  obtain ⟨hp, hi⟩ := (vpn_eq_iff v w).mp h
  unfold walk
  rw [hp, hi]

/-- A loop over different pages that gets all its frames, and each of whose rounds changes the entry of its page. -/
structure Loop (flags virt n : Nat) (body : Nat → State → State) (s : State) : Prop where
  shape : TreeShaped s
  granted : (forPages body n s).refused = s.refused
  refused_le : ∀ i u, u.refused ≤ (body i u).refused
  round : ∀ i < n, ∀ u, TreeShaped u → (body i u).refused = u.refused →
    TreeShaped (body i u) ∧ Extends flags (Only (tablePath (pageAt virt i)) (ptIndex (pageAt virt i))) u (body i u)
  window : ∀ i < n, ¬ InWindow (pageAt virt i)
  inj : ∀ i < n, ∀ j < n, vpn (pageAt virt i) = vpn (pageAt virt j) → i = j

variable {body : Nat → State → State} {i : Nat}

theorem Loop.refused_round (h : Loop flags virt n body s) (hi : i < n) :
    (body i (forPages body i s)).refused = (forPages body i s).refused := by
  exact (refused_forPages h.refused_le h.granted hi).trans (refused_forPages h.refused_le h.granted hi.le).symm

theorem Loop.shape_at (h : Loop flags virt n body s) (hm : m ≤ n) : TreeShaped (forPages body m s) := by
  induction m with
  | zero => exact h.shape
  | succ m ih => exact (h.round m hm _ (ih (Nat.le_of_lt hm)) (h.refused_round hm)).1

theorem Loop.ext (h : Loop flags virt n body s) {k : Nat} (hmk : m ≤ k) (hk : k ≤ n) :
    Extends flags (Range virt m k) (forPages body m s) (forPages body k s) := by
  induction k, hmk using Nat.le_induction with
  | base => exact .refl _
  | succ k hmk ih =>
      have hround := (h.round k hk _ (h.shape_at (Nat.le_of_lt hk)) (h.refused_round hk)).2
      have hrest : Extends flags (Range virt m (k + 1)) (forPages body m s) (forPages body k s) :=
        (ih (Nat.le_of_lt hk)).mono fun p j ⟨i, hmi, hik, hp⟩ => ⟨i, hmi, Nat.lt_succ_of_lt hik, hp⟩
      exact hrest.trans (hround.mono fun p j hp => ⟨k, hmk, Nat.lt_succ_self k, hp⟩)

/-- A page has its first entry until its round comes, -/
theorem Loop.walk_before (h : Loop flags virt n body s) (hi : i < n) :
    walk (forPages body i s) (pageAt virt i) = walk s (pageAt virt i) := by
  refine (h.ext i.zero_le hi.le).walk (not_onWindow (h.window i hi)) fun j _ hj heq => ?_
  exact absurd (h.inj i hi j (hj.trans hi) heq) (by omega)

/-- and keeps the entry of its round. -/
theorem Loop.walk_after (h : Loop flags virt n body s) (hi : i < n) :
    walk (forPages body n s) (pageAt virt i) = walk (body i (forPages body i s)) (pageAt virt i) := by
  refine (h.ext (Nat.succ_le_of_lt hi) (le_refl n)).walk (not_onWindow (h.window i hi)) fun j hj hjn heq => ?_
  exact absurd (h.inj i hi j hjn heq) (by omega)

/-! ## The range -/

/-- From `s` to `t`, the pages of a range that had no entry get the entries `e`, and nothing else changes. -/
structure Maps (s t : State) (virt length : Nat) (e : Nat → Nat) : Prop where
  shape : TreeShaped t
  new : ∀ i < pages length, walk s (qword (virt + i * pageSize)) = 0 → walk t (qword (virt + i * pageSize)) = e i
  others : ∀ v, ¬ InWindow v →
    (∀ i < pages length, vpn v = vpn (qword (virt + i * pageSize)) → walk s v ≠ 0) → walk t v = walk s v

variable {length : Nat}

theorem Loop.maps (h : Loop flags virt (pages length) body s) {e : Nat → Nat} (hlen : length < 2 ^ 31)
    (he : ∀ i < pages length, walk (body i (forPages body i s)) (pageAt virt i) =
      if walk s (pageAt virt i) = 0 then e i else walk s (pageAt virt i)) :
    Maps s (forPages body (pages length) s) virt length e := by
  have hpage : ∀ i < pages length, qword (virt + i * pageSize) = pageAt virt i := fun i hi =>
    (pageAt_of_lt (pages_mul_lt hlen hi)).symm
  refine ⟨h.shape_at (le_refl _), fun i hi h0 => ?_, fun v hv hold => ?_⟩
  · rw [hpage i hi] at h0 ⊢
    rw [h.walk_after hi, he i hi, if_pos h0]
  · by_cases hin : ∃ i < pages length, vpn v = vpn (pageAt virt i)
    · obtain ⟨i, hi, heq⟩ := hin
      have hne := hold i hi (by rwa [hpage i hi])
      rw [walk_congr heq] at hne ⊢
      rw [walk_congr heq, h.walk_after hi, he i hi, if_neg hne]
    · refine (h.ext (Nat.zero_le _) (le_refl _)).walk (not_onWindow hv) fun i _ hi heq => hin ⟨i, hi, heq⟩

theorem Loop.of_written (hs : TreeShaped s) (hlen : length < 2 ^ 31)
    (hwin : ∀ i < pages length, ¬ InWindow (qword (virt + i * pageSize)))
    (hle : ∀ i u, u.refused ≤ (body i u).refused)
    (hbody : ∀ i u, TreeShaped u → ¬ OnWindow (pageAt virt i) → (body i u).refused = u.refused →
      ∃ e, Written flags u (body i u) (tablePath (pageAt virt i)) (ptIndex (pageAt virt i)) e)
    (href : (forPages body (rounds length) s).refused = s.refused) : Loop flags virt (pages length) body s where
  shape := hs
  granted := by rwa [rounds_of_lt hlen] at href
  refused_le := hle
  round i hi u hu hr := by
    have hw : ¬ InWindow (pageAt virt i) := by
      rw [pageAt_of_lt (pages_mul_lt hlen hi)]
      exact hwin i hi
    obtain ⟨e, he⟩ := hbody i u hu (not_onWindow hw) hr
    exact ⟨he.shape, he.ext⟩
  window i hi := by
    rw [pageAt_of_lt (pages_mul_lt hlen hi)]
    exact hwin i hi
  inj i hi j hj := vpn_pageAt_inj (pages_mul_lt hlen hi) (pages_mul_lt hlen hj)

theorem maps_pageMapvp (hs : TreeShaped s) (hflags : flags < pageSize) (hp : Present flags) (hlen : length < 2 ^ 31)
    (hwin : ∀ i < pages length, ¬ InWindow (qword (virt + i * pageSize)))
    (href : (pageMapvp s virt phys length flags).refused = s.refused) :
    Maps s (pageMapvp s virt phys length flags) virt length fun i => qword (phys + i * pageSize) ||| flags := by
  have hloop : Loop flags virt (pages length) (fun i s => mapvpPage flags s (pageAt virt i) (pageAt phys i)) s := by
    refine .of_written hs hlen hwin (fun _ _ => refused_le_mapvpPage) (fun i u hu hw hr => ?_) href
    exact ⟨_, (mapvpPage_spec hu hflags hw hr).written⟩
  unfold pageMapvp
  rw [rounds_of_lt hlen]
  refine hloop.maps hlen fun i hi => ?_
  rw [(mapvpPage_spec (hloop.shape_at hi.le) hflags (not_onWindow (hloop.window i hi)) (hloop.refused_round hi)).walk hp,
    hloop.walk_before hi, pageAt_of_lt (pages_mul_lt hlen hi), pageAt_of_lt (pages_mul_lt hlen hi)]

theorem maps_pageMapv (hs : TreeShaped s) (hflags : flags < pageSize) (hp : Present flags) (hlen : length < 2 ^ 31)
    (hwin : ∀ i < pages length, ¬ InWindow (qword (virt + i * pageSize)))
    (href : (pageMapv s virt length flags).refused = s.refused) :
    ∃ f : Nat → Nat, Maps s (pageMapv s virt length flags) virt length (fun i => f i * pageSize ||| flags) ∧
      (∀ i < pages length, walk s (qword (virt + i * pageSize)) = 0 →
        NewFrame s (pageMapv s virt length flags) (f i)) ∧
      ∀ i < pages length, ∀ j < pages length, walk s (qword (virt + i * pageSize)) = 0 →
        walk s (qword (virt + j * pageSize)) = 0 → f i = f j → i = j := by
  have hloop : Loop flags virt (pages length) (fun i s => mapvPage flags s (pageAt virt i)) s := by
    refine .of_written hs hlen hwin (fun _ _ => refused_le_mapvPage) (fun i u hu hw hr => ?_) href
    obtain ⟨f, hf⟩ := mapvPage_spec hu hflags hw hr
    exact ⟨_, hf.written⟩
  have hround : ∀ i, ∃ f, i < pages length →
      if walk s (pageAt virt i) = 0 then
        walk (mapvPage flags (forPages _ i s) (pageAt virt i)) (pageAt virt i) = f * pageSize ||| flags ∧
          NewFrame (forPages _ i s) (mapvPage flags (forPages _ i s) (pageAt virt i)) f
      else walk (mapvPage flags (forPages _ i s) (pageAt virt i)) (pageAt virt i) = walk s (pageAt virt i) := fun i => by
    by_cases hi : i < pages length
    · obtain ⟨f, hf⟩ := mapvPage_spec (hloop.shape_at hi.le) hflags (not_onWindow (hloop.window i hi))
        (hloop.refused_round hi)
      have hwalk := hf.walk hp
      have hnew := hf.newFrame (hloop.shape_at hi.le) hflags (hloop.refused_round hi) hp
      rw [hloop.walk_before hi] at hwalk
      refine ⟨f, fun _ => ?_⟩
      by_cases h0 : walk s (pageAt virt i) = 0
      · rw [if_pos h0] at hwalk ⊢
        exact ⟨hwalk, hnew⟩
      · rw [if_neg h0] at hwalk ⊢
        exact hwalk
    · exact ⟨0, fun h => absurd h hi⟩
  choose f hf using hround
  have hnew : ∀ i < pages length, walk s (qword (virt + i * pageSize)) = 0 →
      NewFrame (forPages (fun i s => mapvPage flags s (pageAt virt i)) i s)
        (forPages (fun i s => mapvPage flags s (pageAt virt i)) (i + 1) s) (f i) := by
    intro i hi h0
    rw [← pageAt_of_lt (pages_mul_lt hlen hi)] at h0
    have h := hf i hi
    rw [if_pos h0] at h
    exact h.2
  unfold pageMapv
  rw [rounds_of_lt hlen]
  refine ⟨f, hloop.maps hlen fun i hi => ?_, fun i hi h0 => ?_, ?_⟩
  · have h := hf i hi
    split_ifs at h ⊢
    · exact h.1
    · exact h
  · have h := hnew i hi h0
    have hext := hloop.ext (Nat.succ_le_of_lt hi) (le_refl _)
    have hno := hext.noTable_of_bit h.noTable h.marked.2
    refine ⟨fun hb => h.free (hb.mono (hloop.ext i.zero_le hi.le).bit), h.marked.mono hext.bit, hno, ?_⟩
    exact (hext.data hp _ h.marked hno).trans h.zero
  · -- a frame stays marked after its round, so that it is not free in a later one
    have hlt : ∀ i < pages length, ∀ j < pages length, i < j → walk s (qword (virt + i * pageSize)) = 0 →
        walk s (qword (virt + j * pageSize)) = 0 → f i ≠ f j := by
      intro i hi j hj hij hi0 hj0 heq
      have hmarked := (hnew i hi hi0).marked.mono (hloop.ext (Nat.succ_le_of_lt hij) hj.le).bit
      rw [heq] at hmarked
      exact (hnew j hj hj0).free hmarked
    intro i hi j hj hi0 hj0 heq
    obtain hij | hij | hij := Nat.lt_trichotomy i j
    · exact absurd heq (hlt i hi j hj hij hi0 hj0)
    · exact hij
    · exact absurd heq.symm (hlt j hj i hi hij hj0 hi0)

/-- Mapping acts on the address space as on a partial map: the pages of the range that had no entry get one, with the
physical pages given or with different zeroed frames that were free, and all other entries stay. -/
theorem mapping_refines (hs : TreeShaped s) (hlen : length < 2 ^ 31) (hflags : flags < 8) (hp : Present flags)
    (hwin : ∀ i < pages length, ¬ InWindow (qword (virt + i * pageSize))) :
    ((pageMapvp s virt phys length flags).refused = s.refused →
      Maps s (pageMapvp s virt phys length flags) virt length fun i => qword (phys + i * pageSize) ||| flags) ∧
    ((pageMapv s virt length flags).refused = s.refused →
      ∃ f : Nat → Nat, Maps s (pageMapv s virt length flags) virt length (fun i => f i * pageSize ||| flags) ∧
        (∀ i < pages length, walk s (qword (virt + i * pageSize)) = 0 →
          NewFrame s (pageMapv s virt length flags) (f i)) ∧
        ∀ i < pages length, ∀ j < pages length, walk s (qword (virt + i * pageSize)) = 0 →
          walk s (qword (virt + j * pageSize)) = 0 → f i = f j → i = j) := by
  have hsize : flags < pageSize := Nat.lt_trans hflags (by decide)
  exact ⟨maps_pageMapvp hs hsize hp hlen hwin, maps_pageMapv hs hsize hp hlen hwin⟩

/-- Two pages at 4 MB, in the first tables of the loader. -/
theorem mapping_refines_firstTables :
    Maps (kernelCreateNewPage fun _ _ => 0) (pageMapvp (kernelCreateNewPage fun _ _ => 0) 0x400000 0x8000 0x1800 3)
        0x400000 0x1800 (fun i => qword (0x8000 + i * pageSize) ||| 3) ∧
      ∃ f : Nat → Nat, Maps (kernelCreateNewPage fun _ _ => 0)
        (pageMapv (kernelCreateNewPage fun _ _ => 0) 0x400000 0x1800 3) 0x400000 0x1800
        (fun i => f i * pageSize ||| 3) := by
  have hpages : pages 0x1800 = 2 := by decide
  have hwin : ∀ i < pages 0x1800, ¬ InWindow (qword (0x400000 + i * pageSize)) := by
    intro i hi
    refine tablePath_ne_window ?_
    unfold qword pageSize
    omega
  have h := @mapping_refines (kernelCreateNewPage fun _ _ => 0) 3 0x400000 0x8000 0x1800
    (treeShaped_kernelCreateNewPage _) (by decide) (by decide) (by decide) hwin
  obtain ⟨f, hf, -⟩ := h.2 (by decide +kernel)
  exact ⟨h.1 (by decide +kernel), f, hf⟩

end HaOS.Paging
