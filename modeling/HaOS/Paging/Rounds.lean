import HaOS.Paging.Upper

/-!
# Mapping pages one after another

* `mapvPage_round`, `mapvpPage_round` : the frames a round takes; `enough_pageMapv`, `enough_pageMapvp` : a call gets its
  frames exactly when there are as many as it needs;
* `Mapping` : the rounds of `page_mapv` over a list of pages, with the frames that have got an entry and those that have
  not; `mapping_foldl` : the loop is one;
* `Mapping.walk_cases`, `Mapping.used` : the entries after it, and the frames in use after it.
-/

namespace HaOS.Paging

variable {s t u : State} {vs : List Nat} {new : List (Nat × Nat)} {lost : List Nat}
  {v w f g flags extra virt phys length : Nat}

/-! ## The frames of a call -/

theorem Supplied.round (h : Supplied flags s u (prefixes virt)) (hle : u.refused ≤ t.refused)
    (hextra : u.refused = s.refused → (t.refused = s.refused ↔ extra ≤ u.free.card))
    (hdone : t.refused = s.refused → TreeShaped t ∧ t.free.card + extra = u.free.card ∧
      ∀ r, r.length ≤ 3 → t.table r = u.table r) : Round flags extra s t virt := by
  have hsu := h.refused_le
  have hback : t.refused = s.refused → u.refused = s.refused := by
    intro ht
    omega
  refine ⟨hsu.trans hle, fun ht => (hdone ht).1, ⟨fun ht => ?_, fun hmany => ?_⟩, fun ht => ?_, fun ht r hr => ?_⟩
  · have hleft := h.left (hback ht)
    have := (hextra (hback ht)).mp ht
    omega
  · have hu : u.refused = s.refused := h.enough.mpr (by omega)
    have hleft := h.left hu
    apply (hextra hu).mpr
    omega
  · have hleft := h.left (hback ht)
    obtain ⟨-, hcard, -⟩ := hdone ht
    omega
  · rw [State.has, (hdone ht).2.2 r hr]
    exact h.has (hback ht) r hr

theorem card_free_pos : (pageGetframe s).1.refused = s.refused ↔ 1 ≤ s.free.card := by
  constructor
  · intro h
    obtain ⟨f, hf, -⟩ := pageGetframe_granted h
    exact Finset.card_pos.mpr ⟨f, hf.mem_free⟩
  · intro h
    by_contra hne
    rw [free_of_refused hne, Finset.card_empty] at h
    omega

theorem mapvPage_round (hs : TreeShaped s) (hflags : flags < pageSize) :
    Round flags 1 s (mapvPage flags s virt) virt := by
  apply (tablesFor_supplied hs hflags virt).round
  · rw [refused_mapvPage]
    exact refused_le_pageGetframe _
  · intro hu
    rw [refused_mapvPage, ← hu]
    exact card_free_pos
  · intro ht
    have h := mapvPage_stands hs hflags ht
    have hle1 : s.refused ≤ (tablesFor s virt flags).1.refused := refused_le_tablesFor
    have hle2 := refused_le_pageGetframe (tablesFor s virt flags).1
    rw [refused_mapvPage] at ht
    obtain ⟨f, hf, -⟩ := pageGetframe_granted (by omega : _ = (tablesFor s virt flags).1.refused)
    refine ⟨h.shape, ?_, h.table⟩
    rw [free_mapvPage, hf.free_eq]
    exact Finset.card_erase_add_one hf.mem_free

theorem free_mapvpPage : (mapvpPage flags s virt phys).free = (tablesFor s virt flags).1.free := by
  apply free_congr
  unfold mapvpPage
  simp only
  split_ifs <;> rfl

theorem mapvpPage_round (hs : TreeShaped s) (hflags : flags < pageSize) (hw : ¬ OnWindow virt) :
    Round flags 0 s (mapvpPage flags s virt phys) virt := by
  apply (tablesFor_supplied hs hflags virt).round
  · rw [refused_mapvpPage]
  · intro hu
    rw [refused_mapvpPage]
    exact iff_of_true hu (Nat.zero_le _)
  · intro ht
    have hp : Placed flags s (mapvpPage flags s virt phys) virt phys := mapvpPage_spec hs hflags hw ht
    refine ⟨hp.written.shape, ?_, hp.table⟩
    rw [free_mapvpPage, Nat.add_zero]

theorem enough_pageMapv (hs : TreeShaped s) (hflags : flags < pageSize) :
    ((pageMapv s virt length flags).refused = s.refused ↔
      needed flags 1 s.has (pageList virt length) ≤ s.free.card) ∧
    ((pageMapv s virt length flags).refused = s.refused →
      (pageMapv s virt length flags).free.card + needed flags 1 s.has (pageList virt length) = s.free.card) := by
  have h := enough_foldl (l := pageList virt length) id (fun _ _ => refused_le_mapvPage)
    (fun u hu _ _ => mapvPage_round hu hflags) hs
  rw [List.map_id] at h
  rw [pageMapv_eq]
  exact h

theorem enough_pageMapvp (hs : TreeShaped s) (hflags : flags < pageSize)
    (hw : ∀ v ∈ pageList virt length, ¬ OnWindow v) :
    (pageMapvp s virt phys length flags).refused = s.refused ↔
      needed flags 0 s.has (pageList virt length) ≤ s.free.card := by
  rw [pageMapvp, forPages_eq_foldl]
  refine (enough_foldl (pageAt virt) (fun _ _ => refused_le_mapvpPage) (fun u hu i hi => ?_) hs).1
  exact mapvpPage_round hu hflags (hw _ (List.mem_map_of_mem hi))

/-! ## The rounds of a call -/

/-- A round of `page_mapv` that takes the free frame `f`. All other frames it takes become tables. -/
structure Got (flags : Nat) (s t : State) (v f : Nat) : Prop where
  taken : Taken flags s t v f
  free : ¬ Bit s.bitmap f
  used : Present flags → ∀ g ∈ s.free, g ∉ t.free → g = f ∨ ¬ t.NoTable g

theorem mapvPage_got (hs : TreeShaped s) (hflags : flags < pageSize) (hw : ¬ OnWindow v)
    (href : (mapvPage flags s v).refused = s.refused) : ∃ f, Got flags s (mapvPage flags s v) v f := by
  obtain ⟨f, hf⟩ := mapvPage_spec hs hflags hw href
  refine ⟨f, hf, hf.not_bit hs hflags href, fun hp g hg hng => ?_⟩
  have hsup := tablesFor_supplied hs hflags v
  have htables : (tablesFor s v flags).1.refused = s.refused := by
    have hle := refused_le_pageGetframe (tablesFor s v flags).1
    rw [← refused_mapvPage, href] at hle
    exact le_antisymm hle hsup.refused_le
  by_cases hgf : g = f
  · exact .inl hgf
  · refine .inr fun hno => hsup.taken htables hp g hg ?_ fun r hr => ?_
    · intro hmem
      apply hng
      rw [hf.free]
      exact Finset.mem_erase.mpr ⟨hgf, hmem⟩
    · rw [← hf.table r hr]
      exact hno r hr

/-- Rounds of `page_mapv`: `new` are the pages that get an entry, with their frames, and `lost` are the frames of the
rounds at pages that have one. -/
inductive Mapping (flags : Nat) : State → State → List Nat → List (Nat × Nat) → List Nat → Prop
  | nil (s : State) : Mapping flags s s [] [] []
  | new {s u t : State} {v f : Nat} {vs : List Nat} {new : List (Nat × Nat)} {lost : List Nat}
      (hw : ¬ OnWindow v) (hf : Got flags s u v f) (h0 : Present flags → walk s v = 0)
      (h : Mapping flags u t vs new lost) : Mapping flags s t (v :: vs) ((v, f) :: new) lost
  | lost {s u t : State} {v f : Nat} {vs : List Nat} {new : List (Nat × Nat)} {lost : List Nat}
      (hw : ¬ OnWindow v) (hf : Got flags s u v f) (hp : Present flags) (h0 : walk s v ≠ 0)
      (h : Mapping flags u t vs new lost) : Mapping flags s t (v :: vs) new (f :: lost)

theorem mapping_foldl (hs : TreeShaped s) (hflags : flags < pageSize) (hw : ∀ v ∈ vs, ¬ OnWindow v)
    (href : (vs.foldl (mapvPage flags) s).refused = s.refused) :
    ∃ new lost, Mapping flags s (vs.foldl (mapvPage flags) s) vs new lost := by
  induction vs generalizing s with
  | nil => exact ⟨[], [], .nil s⟩
  | cons v vs ih =>
      have hrest : (mapvPage flags s v).refused ≤ (vs.foldl (mapvPage flags) (mapvPage flags s v)).refused :=
        refused_le_foldl (fun _ _ => refused_le_mapvPage) vs _
      have hfirst : s.refused ≤ (mapvPage flags s v).refused := refused_le_mapvPage
      rw [List.foldl_cons] at href ⊢
      have hv : (mapvPage flags s v).refused = s.refused := by omega
      have hwv := hw v List.mem_cons_self
      obtain ⟨f, hf⟩ := mapvPage_got hs hflags hwv hv
      obtain ⟨new, lost, h⟩ := ih hf.taken.written.shape (fun w hwv => hw w (List.mem_cons_of_mem v hwv)) (by omega)
      by_cases hlost : Present flags ∧ walk s v ≠ 0
      · exact ⟨new, f :: lost, .lost hwv hf hlost.1 hlost.2 h⟩
      · exact ⟨(v, f) :: new, lost, .new hwv hf (fun hp => not_not.mp fun h => hlost ⟨hp, h⟩) h⟩

theorem pages_cons {p : List Index} {i : Index} :
    Pages (v :: vs) p i ↔ Only (tablePath v) (ptIndex v) p i ∨ Pages vs p i := by
  unfold Pages
  simp only [List.mem_cons, exists_eq_or_imp]

theorem Got.extends (hf : Got flags s u v f) (h : Extends flags (Pages vs) u t) : Extends flags (Pages (v :: vs)) s t :=
  (hf.taken.written.ext.mono fun _ _ h => pages_cons.mpr (.inl h)).trans
    (h.mono fun _ _ h => pages_cons.mpr (.inr h))

theorem Mapping.off (h : Mapping flags s t vs new lost) : ∀ v ∈ vs, ¬ OnWindow v := by
  induction h with
  | nil => exact fun v hv => absurd hv List.not_mem_nil
  | new hw _ _ _ ih => exact List.forall_mem_cons.mpr ⟨hw, ih⟩
  | lost hw _ _ _ _ ih => exact List.forall_mem_cons.mpr ⟨hw, ih⟩

theorem Mapping.ext (h : Mapping flags s t vs new lost) : Extends flags (Pages vs) s t := by
  induction h with
  | nil s => exact .refl s
  | new _ hf _ _ ih => exact hf.extends ih
  | lost _ hf _ _ _ ih => exact hf.extends ih

theorem Mapping.shape (h : Mapping flags s t vs new lost) (hs : TreeShaped s) : TreeShaped t := by
  induction h with
  | nil s => exact hs
  | new _ hf _ _ ih => exact ih hf.taken.written.shape
  | lost _ hf _ _ _ ih => exact ih hf.taken.written.shape

/-! ### The frames -/

/-- The frame of a round stays in use, and is no table. -/
theorem Got.stays (hf : Got flags s u v f) (h : Extends flags (Pages vs) u t) :
    ¬ Bit s.bitmap f ∧ t.Marked f ∧ t.NoTable f :=
  ⟨hf.free, hf.taken.marked.mono h.bit, h.noTable_of_bit hf.taken.noTable hf.taken.marked.2⟩

theorem Mapping.frame (h : Mapping flags s t vs new lost) :
    ∀ f ∈ new.map Prod.snd ++ lost, ¬ Bit s.bitmap f ∧ t.Marked f ∧ t.NoTable f := by
  induction h with
  | nil s => exact fun f hf => absurd hf List.not_mem_nil
  | @new s u _ _ _ _ _ _ _ hf _ h ih =>
      intro g hg
      rw [List.map_cons, List.cons_append, List.mem_cons] at hg
      obtain rfl | hg := hg
      · exact hf.stays h.ext
      · exact (ih g hg).imp_left (mt (hf.taken.written.ext.bit g))
  | @lost s u _ _ _ _ _ _ _ hf _ _ h ih =>
      intro g hg
      rw [List.mem_append, List.mem_cons, or_left_comm, ← List.mem_append] at hg
      obtain rfl | hg := hg
      · exact hf.stays h.ext
      · exact (ih g hg).imp_left (mt (hf.taken.written.ext.bit g))

/-- Every round takes another frame. -/
theorem Mapping.nodup (h : Mapping flags s t vs new lost) : (new.map Prod.snd ++ lost).Nodup := by
  induction h with
  | nil s => exact List.nodup_nil
  | new _ hf _ h ih =>
      rw [List.map_cons, List.cons_append, List.nodup_cons]
      exact ⟨fun hmem => (h.frame _ hmem).1 hf.taken.marked.2, ih⟩
  | lost _ hf _ _ h ih =>
      rw [List.nodup_middle, List.nodup_cons]
      exact ⟨fun hmem => (h.frame _ hmem).1 hf.taken.marked.2, ih⟩

/-- What was free and is not any more has been taken by a round, or is a table. -/
theorem Mapping.used (h : Mapping flags s t vs new lost) (hp : Present flags) :
    ∀ g ∈ s.free, g ∉ t.free → g ∈ new.map Prod.snd ++ lost ∨ ¬ t.NoTable g := by
  induction h with
  | nil s => exact fun g hg hng => absurd hg hng
  | @new s u t _ _ _ _ _ _ hf _ h ih =>
      intro g hg hng
      rw [List.map_cons, List.cons_append, List.mem_cons, or_assoc]
      by_cases hgu : g ∈ u.free
      · exact .inr (ih g hgu hng)
      · exact (hf.used hp g hg hgu).imp_right fun htable => .inr fun hno => htable (h.ext.noTable hno)
  | @lost s u t _ _ _ _ _ _ hf _ _ h ih =>
      intro g hg hng
      rw [List.mem_append, List.mem_cons, or_left_comm, ← List.mem_append, or_assoc]
      by_cases hgu : g ∈ u.free
      · exact .inr (ih g hgu hng)
      · exact (hf.used hp g hg hgu).imp_right fun htable => .inr fun hno => htable (h.ext.noTable hno)

/-! ### The entries -/

theorem Got.walk_of_ne (hf : Got flags s u v f) (hw : ¬ OnWindow w) (hne : vpn w ≠ vpn v) : walk u w = walk s w :=
  hf.taken.written.ext.entry _ _ rfl hw fun h => hne ((vpn_eq_iff w v).mpr ⟨h.1, h.2⟩)

theorem Got.walk_kept (hf : Got flags s u v f) (hp : Present flags) (hw : ¬ OnWindow w) (h : walk s w ≠ 0) :
    walk u w = walk s w := by
  by_cases heq : vpn w = vpn v
  · rw [walk_congr heq] at h ⊢
    rw [walk_congr heq, hf.taken.walk hp, if_neg h]
  · exact hf.walk_of_ne hw heq

theorem Mapping.walk_kept (h : Mapping flags s t vs new lost) (hp : Present flags) (hw : ¬ OnWindow w)
    (h0 : walk s w ≠ 0) : walk t w = walk s w := by
  induction h with
  | nil s => rfl
  | new _ hf _ _ ih =>
      have hu := hf.walk_kept hp hw h0
      exact (ih (by rwa [hu])).trans hu
  | lost _ hf _ _ _ ih =>
      have hu := hf.walk_kept hp hw h0
      exact (ih (by rwa [hu])).trans hu

theorem Mapping.walk_cases (h : Mapping flags s t vs new lost) (hw : ¬ OnWindow w) :
    walk t w = walk s w ∨ ∃ x ∈ new, vpn w = vpn x.1 ∧ walk t w = x.2 * pageSize ||| flags := by
  induction h with
  | nil s => exact .inl rfl
  | @new s u t v f _ _ _ _ hf _ _ ih =>
      obtain hu | ⟨x, hx, h⟩ := ih
      · rw [hu]
        by_cases heq : vpn w = vpn v
        · rw [walk_congr heq, walk_congr heq]
          exact hf.taken.written.entry.imp_right fun he => ⟨(v, f), List.mem_cons_self, heq, he⟩
        · exact .inl (hf.walk_of_ne hw heq)
      · exact .inr ⟨x, List.mem_cons_of_mem _ hx, h⟩
  | @lost s u t v f _ _ _ _ hf hp h0 _ ih =>
      obtain hu | hx := ih
      · rw [hu]
        by_cases heq : vpn w = vpn v
        · refine .inl (hf.walk_kept hp hw ?_)
          rwa [walk_congr heq]
        · exact .inl (hf.walk_of_ne hw heq)
      · exact .inr hx

theorem ne_zero_of_present {e : Nat} (h : Present e) : e ≠ 0 := by
  rintro rfl
  exact h rfl

theorem Mapping.walk_new (h : Mapping flags s t vs new lost) (hp : Present flags) {x : Nat × Nat} (hx : x ∈ new) :
    walk t x.1 = x.2 * pageSize ||| flags := by
  induction h with
  | nil s => exact absurd hx List.not_mem_nil
  | @new s u t v f _ _ _ hw hf h0 h ih =>
      obtain rfl | hx := List.mem_cons.mp hx
      · have hu : walk u v = f * pageSize ||| flags := by
          rw [hf.taken.walk hp, if_pos (h0 hp)]
        rw [h.walk_kept hp hw, hu]
        rw [hu]
        exact ne_zero_of_present ((present_or f).mpr hp)
      · exact ih hx
  | lost _ _ _ _ _ ih => exact ih hx

/-- No frame is lost exactly when every page is mapped once, and was not mapped before. -/
theorem Mapping.lost_eq_nil_iff (h : Mapping flags s t vs new lost) (hp : Present flags) :
    lost = [] ↔ (∀ v ∈ vs, walk s v = 0) ∧ vs.Pairwise fun v w => vpn v ≠ vpn w := by
  induction h with
  | nil s => simp
  | @new s u t v f vs _ _ hw hf h0 h ih =>
      have hv : walk u v ≠ 0 := by
        rw [hf.taken.walk hp, if_pos (h0 hp)]
        exact ne_zero_of_present ((present_or f).mpr hp)
      have hstep : ∀ w ∈ vs, (walk u w = 0 ↔ walk s w = 0 ∧ vpn v ≠ vpn w) := by
        intro w hwv
        by_cases heq : vpn w = vpn v
        · rw [walk_congr heq]
          exact iff_of_false hv fun h => h.2 heq.symm
        · rw [hf.walk_of_ne (h.off w hwv) heq]
          exact (and_iff_left (Ne.symm heq)).symm
      refine ih.trans ?_
      rw [List.forall_mem_cons, List.pairwise_cons, and_iff_right (h0 hp)]
      constructor
      · intro ⟨hall, hpair⟩
        exact ⟨fun w hw => ((hstep w hw).mp (hall w hw)).1, fun w hw => ((hstep w hw).mp (hall w hw)).2, hpair⟩
      · intro ⟨hall, hne, hpair⟩
        exact ⟨fun w hw => (hstep w hw).mpr ⟨hall w hw, hne w hw⟩, hpair⟩
  | lost _ _ _ h0 _ _ => exact iff_of_false (List.cons_ne_nil _ _) fun h => h0 (h.1 _ List.mem_cons_self)

theorem Mapping.append {ws : List Nat} {new' : List (Nat × Nat)} {lost' : List Nat} (h : Mapping flags s u vs new lost)
    (h' : Mapping flags u t ws new' lost') : Mapping flags s t (vs ++ ws) (new ++ new') (lost ++ lost') := by
  induction h with
  | nil => exact h'
  | new hw hf h0 _ ih => exact .new hw hf h0 (ih h')
  | lost hw hf hp h0 _ ih => exact .lost hw hf hp h0 (ih h')

theorem Mapping.length_eq (h : Mapping flags s t vs new lost) : vs.length = (new.map Prod.snd ++ lost).length := by
  induction h with
  | nil => rfl
  | new _ _ _ _ ih => rw [List.length_cons, ih, List.map_cons, List.cons_append, List.length_cons]
  | lost _ _ _ _ _ ih =>
      rw [List.length_cons, ih, List.length_append, List.length_append, List.length_cons, Nat.add_assoc]

theorem Mapping.length_le (h : Mapping flags s t vs new lost) : vs.length ≤ frames := by
  have hsub := h.nodup.subperm fun f hf => List.mem_range.mpr (h.frame f hf).2.1.1
  rw [h.length_eq]
  exact hsub.length_le.trans (List.length_range).le

theorem Mapping.map_fst (h : Mapping flags s t vs new []) : new.map Prod.fst = vs := by
  generalize hl : ([] : List Nat) = lost at h
  induction h with
  | nil => rfl
  | new _ _ _ _ ih => rw [List.map_cons, ih hl]
  | lost => cases hl

/-! ## The range of a call -/

def rangePages (virt length : Nat) : List Nat := (List.range (pages length)).map fun i => qword (virt + i * pageSize)

theorem pageAt_list {n : Nat} (hn : n * pageSize ≤ 2 ^ 31) :
    (List.range n).map (pageAt virt) = (List.range n).map fun i => qword (virt + i * pageSize) := by
  refine List.map_congr_left fun i hi => pageAt_of_lt ?_
  have hlt := List.mem_range.mp hi
  unfold pageSize at hn ⊢
  omega

theorem pairwise_range {n : Nat} (hn : n * pageSize ≤ 2 ^ 31) :
    ((List.range n).map (pageAt virt)).Pairwise fun v w => vpn v ≠ vpn w := by
  rw [List.pairwise_map]
  refine (List.pairwise_lt_range (n := n)).imp_of_mem fun hi hj hlt heq => ?_
  rw [List.mem_range] at hi hj
  refine absurd (vpn_pageAt_inj ?_ ?_ heq) (Nat.ne_of_lt hlt)
  all_goals
    unfold pageSize at hn ⊢
    omega

/-- A call that gets its frames has at most as many rounds as there are frames, each at another page of its range. -/
theorem mapping_pageMapv (hs : TreeShaped s) (hflags : flags < pageSize)
    (hwin : ∀ v ∈ rangePages virt length, ¬ OnWindow v) (href : (pageMapv s virt length flags).refused = s.refused) :
    pageList virt length = rangePages virt length ∧
      ((rangePages virt length).Pairwise fun v w => vpn v ≠ vpn w) ∧
      ∃ new lost, Mapping flags s (pageMapv s virt length flags) (rangePages virt length) new lost := by
  have hframes : frames * pageSize = 2 ^ 27 := rfl
  have hoff : ∀ n ≤ rounds length, n * pageSize ≤ 2 ^ 31 → ∀ v ∈ (List.range n).map (pageAt virt), ¬ OnWindow v := by
    intro n hn hsize v hv
    apply hwin
    rw [pageAt_list hsize] at hv
    obtain ⟨i, hi, rfl⟩ := List.mem_map.mp hv
    refine List.mem_map.mpr ⟨i, List.mem_range.mpr ?_, rfl⟩
    have hlt := List.mem_range.mp hi
    have hle : rounds length ≤ pages length := Nat.min_le_left _ _
    omega
  have hle : rounds length ≤ frames := by
    by_contra hmany
    have hm : frames + 1 ≤ rounds length := by omega
    have hpre := refused_forPages (fun _ _ => refused_le_mapvPage) href hm
    rw [forPages_eq_foldl, ← List.foldl_map (f := pageAt virt) (g := mapvPage flags)] at hpre
    obtain ⟨new, lost, h⟩ := mapping_foldl hs hflags (hoff _ hm (by decide)) hpre
    have hlen := h.length_le
    rw [List.length_map, List.length_range] at hlen
    omega
  have hsize : rounds length * pageSize ≤ 2 ^ 31 := by
    unfold pageSize frames pageBitmapSize at *
    omega
  have hpages : pages length = rounds length := by
    unfold rounds at hle ⊢
    unfold frames pageBitmapSize at hle
    omega
  have hlist : pageList virt length = rangePages virt length := by
    rw [rangePages, hpages]
    exact pageAt_list hsize
  rw [pageMapv_eq, hlist] at href ⊢
  refine ⟨rfl, ?_, mapping_foldl hs hflags hwin href⟩
  rw [← hlist]
  exact pairwise_range hsize

end HaOS.Paging
