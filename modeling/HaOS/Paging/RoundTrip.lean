import HaOS.Paging.Rounds
import HaOS.Paging.Loader

/-!
# Mapping and unmapping again

* `Mapping.freed_cases`, `Mapping.freed_new` : the bits that unmapping the mapped pages clears;
* `Restored` : the translations are those from before, and only new tables are in use besides the frames from before;
* `Mapping.undone` : so it is after mapping and unmapping pages without an entry, once each;
* `mapUnmap`, `mapUnmap_restores` : the two calls on a range, any number of times.
-/

namespace HaOS.Paging

variable {s t u : State} {vs ws : List Nat} {new : List (Nat × Nat)} {lost : List Nat}
  {v w f g flags virt length : Nat}

/-! ## The bits that are cleared -/

theorem bitOf_or (hf : f < frames) (hflags : flags < pageSize) : bitOf (f * pageSize ||| flags) = f := by
  have hlt : f < 2 ^ 35 := Nat.lt_trans hf (by decide)
  rw [bitOf_eq, frameOf_or hflags, frameOf_mul (Nat.lt_trans hlt (by decide)), Nat.mod_eq_of_lt hlt]

theorem Mapping.mem_fst (h : Mapping flags s t vs new lost) : ∀ x ∈ new, x.1 ∈ vs := by
  induction h with
  | nil => exact fun x hx => absurd hx List.not_mem_nil
  | new _ _ _ _ ih =>
      intro x hx
      obtain rfl | hx := List.mem_cons.mp hx
      · exact List.mem_cons_self
      · exact List.mem_cons_of_mem _ (ih x hx)
  | lost _ _ _ _ _ ih => exact fun x hx => List.mem_cons_of_mem _ (ih x hx)

theorem Mapping.walk_ne_zero (h : Mapping flags s t vs new lost) (hp : Present flags) (hv : v ∈ vs) : walk t v ≠ 0 := by
  induction h with
  | nil => exact absurd hv List.not_mem_nil
  | @new s u t w f _ _ _ hw hf h0 h ih =>
      obtain rfl | hv := List.mem_cons.mp hv
      · have hu : walk u v ≠ 0 := by
          rw [hf.taken.walk hp, if_pos (h0 hp)]
          exact ne_zero_of_present ((present_or f).mpr hp)
        rwa [h.walk_kept hp hw hu]
      · exact ih hv
  | @lost s u t w f _ _ _ hw hf _ h0 h ih =>
      obtain rfl | hv := List.mem_cons.mp hv
      · have hu : walk u v = walk s v := hf.walk_kept hp hw h0
        rw [h.walk_kept hp hw (by rwa [hu]), hu]
        exact h0
      · exact ih hv

/-- The other pages keep their entries. -/
theorem Mapping.walk_other (h : Mapping flags s t vs new lost) (hw : ¬ OnWindow w) (hne : ∀ x ∈ vs, vpn w ≠ vpn x) :
    walk t w = walk s w := by
  obtain hold | ⟨x, hx, hwx, -⟩ := h.walk_cases hw
  · exact hold
  · exact absurd hwx (hne x.1 (h.mem_fst x hx))

theorem Mapping.walk_mem (h : Mapping flags s t vs new lost) (hp : Present flags) (hv : v ∈ vs) (h0 : walk s v = 0) :
    ∃ x ∈ new, walk t v = x.2 * pageSize ||| flags := by
  obtain hold | ⟨x, hx, -, hnew⟩ := h.walk_cases (h.off v hv)
  · exact absurd (hold.trans h0) (h.walk_ne_zero hp hv)
  · exact ⟨x, hx, hnew⟩

theorem table_ne_none_of_walk (h : walk s v ≠ 0) : s.table (tablePath v) ≠ none := fun hnone => h (entry_of_none hnone _)

/-- Unmapping pages that have been mapped clears the bits of their frames, and the bit 0 at a page that comes again. -/
theorem Mapping.freed_cases (h : Mapping flags s t vs new lost) (hflags : flags < pageSize) (hp : Present flags)
    (h0 : ∀ v ∈ vs, walk s v = 0) (hws : ws ⊆ vs) (hf : Freed t ws f) :
    f ∈ new.map Prod.snd ∨ f = 0 ∧ ¬ ws.Pairwise fun v w => vpn v ≠ vpn w := by
  obtain ⟨as, v, hpre, -, hf | ⟨hf, hseen⟩⟩ := hf
  · have hv : v ∈ vs := hws (hpre.subset (List.mem_append_right as (List.mem_singleton_self v)))
    obtain ⟨x, hx, hwalk⟩ := h.walk_mem hp hv (h0 v hv)
    have hlt := (h.frame x.2 (List.mem_append_left _ (List.mem_map_of_mem hx))).2.1.1
    rw [hwalk, bitOf_or hlt hflags] at hf
    rw [hf]
    exact .inl (List.mem_map_of_mem hx)
  · refine .inr ⟨hf, fun hpair => ?_⟩
    obtain ⟨w, hw, heq⟩ := pages_iff.mp hseen
    have := hpair.sublist hpre.sublist
    exact (List.pairwise_append.mp this).2.2 w hw v (List.mem_singleton_self v) heq

theorem Mapping.freed_new (h : Mapping flags s t vs new lost) (hflags : flags < pageSize) (hp : Present flags)
    (hf : f ∈ new.map Prod.snd) : Freed t vs f := by
  obtain ⟨x, hx, rfl⟩ := List.mem_map.mp hf
  have hv := h.mem_fst x hx
  have hlt := (h.frame x.2 (List.mem_append_left _ hf)).2.1.1
  obtain ⟨as, bs, hsplit⟩ := List.append_of_mem hv
  refine ⟨as, x.1, ⟨bs, ?_⟩, table_ne_none_of_walk (h.walk_ne_zero hp hv), .inl ?_⟩
  · rw [hsplit, List.append_assoc, List.singleton_append]
  · rw [h.walk_new hp hx, bitOf_or hlt hflags]

/-- The frames of the rounds lie apart from the tables and the bitmap. -/
theorem Mapping.apart (h : Mapping flags s t vs new lost) (hs : TreeShaped s) (hf : f ∈ new.map Prod.snd) :
    t.NoTable f ∧ f ≠ bitmapFrame := by
  obtain ⟨hfree, -, hno⟩ := h.frame f (List.mem_append_left _ hf)
  refine ⟨hno, ?_⟩
  rintro rfl
  exact hfree hs.bitmap.1.2

/-! ## The pages are unmapped -/

theorem umapvPage_closed (hs : TreeShaped s) (hw : ¬ OnWindow v) (htable : s.table (tablePath v) ≠ none) :
    (umapvPage s v).mem framePt 0 = 0 := by
  obtain ⟨hnone, -⟩ | ⟨n, u, -, -, -, heq⟩ := umapvPage_cases hs hw
  · exact absurd hnone htable
  · rw [heq]
    exact mem_umapframe _

theorem unmapped_closed (hs : TreeShaped t) (hw : ∀ v ∈ vs, ¬ OnWindow v) (hne : vs ≠ [])
    (htable : ∀ v ∈ vs, t.table (tablePath v) ≠ none) (hfree : ∀ f, Freed t vs f → t.NoTable f ∧ f ≠ bitmapFrame) :
    (vs.foldl umapvPage t).mem framePt 0 = 0 := by
  obtain ⟨ws, v, rfl⟩ := (List.eq_nil_or_concat' vs).resolve_left hne
  have hpre : ws <+: ws ++ [v] := List.prefix_append ws [v]
  have hv : v ∈ ws ++ [v] := List.mem_append_right ws (List.mem_singleton_self v)
  have hfree' : ∀ f, Freed t ws f → t.NoTable f ∧ f ≠ bitmapFrame := fun f hf => hfree f (hf.mono hpre)
  have hall : Unmapped t (ws.foldl umapvPage t) ws :=
    unmapped_foldl hs (fun w hwv => hw w (hpre.subset hwv)) hfree'
  rw [List.foldl_append]
  apply umapvPage_closed (hall.shape hs hfree') (hw v hv)
  rw [hall.table _ (length_tablePath v).le]
  exact htable v hv

/-- The translations of `s`, but for the window's page, and the frames in use in `s`, with the tables that are new. -/
structure Restored (s u : State) : Prop where
  shape : TreeShaped u
  walk : ∀ w, ¬ OnWindow w → walk u w = walk s w
  bit : ∀ f < frames, (Bit u.bitmap f ↔
    Bit s.bitmap f ∨ ∃ p, p.length ≤ 3 ∧ u.table p = some f ∧ s.table p ≠ some f)

/-- The pages that `page_mapv` has mapped and `page_umapv` has unmapped. -/
structure Undone (s t u : State) (vs : List Nat) (new : List (Nat × Nat)) : Prop where
  restored : Restored s u
  table : ∀ p, p.length ≤ 3 → u.table p = t.table p
  bit : ∀ f, Bit u.bitmap f ↔ Bit t.bitmap f ∧ f ∉ new.map Prod.snd
  closed : vs ≠ [] → u.mem framePt 0 = 0
  grown : ∀ flags, Grown flags t u

theorem Mapping.undone (h : Mapping flags s t vs new []) (hs : TreeShaped s) (hflags : flags < pageSize)
    (hp : Present flags) : Undone s t (vs.foldl umapvPage t) vs new := by
  obtain ⟨h0, hpair⟩ := (h.lost_eq_nil_iff hp).mp rfl
  have ht := h.shape hs
  have hfreed : ∀ f, Freed t vs f ↔ f ∈ new.map Prod.snd := fun f =>
    ⟨fun hf => (h.freed_cases hflags hp h0 (List.Subset.refl vs) hf).resolve_right fun hf => hf.2 hpair,
      h.freed_new hflags hp⟩
  have hapart : ∀ f, Freed t vs f → t.NoTable f ∧ f ≠ bitmapFrame := fun f hf => h.apart hs ((hfreed f).mp hf)
  have hu : Unmapped t (vs.foldl umapvPage t) vs := unmapped_foldl ht h.off hapart
  have hbit : ∀ f, Bit (vs.foldl umapvPage t).bitmap f ↔ Bit t.bitmap f ∧ f ∉ new.map Prod.snd := by
    intro f
    rw [hu.bit f, hfreed f]
  refine ⟨⟨hu.shape ht hapart, fun w hw => ?_, fun f hf => ?_⟩, hu.table, hbit, fun hne => ?_,
    fun _ => umapv_grown ht h.off hapart⟩
  · by_cases hmem : Pages vs (tablePath w) (ptIndex w)
    · obtain ⟨v, hv, heq⟩ := pages_iff.mp hmem
      have hgone : HaOS.Paging.walk (vs.foldl umapvPage t) w = 0 := hu.gone _ _ rfl hw hmem
      rw [hgone, ← walk_congr heq, h0 v hv]
    · exact (hu.kept _ _ rfl hw hmem).trans (h.ext.entry _ _ rfl hw hmem)
  · rw [hbit f]
    constructor
    · intro ⟨hbt, hnew⟩
      by_cases hbs : Bit s.bitmap f
      · exact .inl hbs
      · have hused := h.used hp f (mem_free.mpr ⟨hf, hbs⟩) fun hmem => (mem_free.mp hmem).2 hbt
        rw [List.append_nil] at hused
        obtain ⟨p, hp, hpf⟩ : ∃ p, p.length ≤ 3 ∧ t.table p = some f := by
          simpa [State.NoTable] using hused.resolve_left hnew
        exact .inr ⟨p, hp, (hu.table p hp).trans hpf, fun hold => hbs (hs.marked p f hp hold).2⟩
    · rintro (hbs | ⟨p, hp, hpf, -⟩)
      · exact ⟨h.ext.bit f hbs, fun hnew => (h.frame f (List.mem_append_left _ hnew)).1 hbs⟩
      · rw [hu.table p hp] at hpf
        exact ⟨(ht.marked p f hp hpf).2, fun hnew => (h.apart hs hnew).1 p hp hpf⟩
  · exact unmapped_closed ht h.off hne (fun v hv => table_ne_none_of_walk (h.walk_ne_zero hp hv)) hapart

/-! ## A range, mapped and unmapped -/

def mapUnmap (virt length flags : Nat) (s : State) : State := pageUmapv (pageMapv s virt length flags) virt length

/-- A range without entries, off the window, and enough frames to map it. -/
structure Unused (s : State) (virt length flags : Nat) : Prop where
  shape : TreeShaped s
  present : Present flags
  off : ∀ v ∈ rangePages virt length, ¬ OnWindow v
  unmapped : ∀ v ∈ rangePages virt length, walk s v = 0
  granted : (pageMapv s virt length flags).refused = s.refused

theorem Unused.undone (h : Unused s virt length flags) (hflags : flags < pageSize) :
    ∃ new, Mapping flags s (pageMapv s virt length flags) (rangePages virt length) new [] ∧
      Undone s (pageMapv s virt length flags) (mapUnmap virt length flags s) (rangePages virt length) new := by
  obtain ⟨hlist, hpair, new, lost, hm⟩ := mapping_pageMapv h.shape hflags h.off h.granted
  obtain rfl : lost = [] := (hm.lost_eq_nil_iff h.present).mpr ⟨h.unmapped, hpair⟩
  refine ⟨new, hm, ?_⟩
  rw [mapUnmap, pageUmapv_eq, hlist]
  exact hm.undone h.shape hflags h.present

theorem free_subset (h : ∀ f < frames, Bit s.bitmap f → Bit t.bitmap f) : t.free ⊆ s.free := by
  intro f hf
  obtain ⟨hlt, hbt⟩ := mem_free.mp hf
  exact mem_free.mpr ⟨hlt, mt (h f hlt) hbt⟩

theorem Undone.card_free (h : Undone s t u vs new) (hm : Mapping flags s t vs new []) :
    u.free.card = t.free.card + vs.length := by
  have hnodup := hm.nodup
  have hlen := hm.length_eq
  rw [List.append_nil] at hnodup hlen
  have heq : u.free = t.free ∪ (new.map Prod.snd).toFinset := by
    ext f
    rw [Finset.mem_union, List.mem_toFinset, mem_free, mem_free, h.bit f]
    have hlt : f ∈ new.map Prod.snd → f < frames := fun hf => (hm.frame f (List.mem_append_left _ hf)).2.1.1
    tauto
  rw [heq, Finset.card_union_of_disjoint, List.toFinset_card_of_nodup hnodup, hlen]
  rw [Finset.disjoint_right]
  intro f hf hft
  exact (mem_free.mp hft).2 (hm.frame f (List.mem_append_left _ (List.mem_toFinset.mp hf))).2.1.2

theorem has_prefixes (h : s.table (tablePath v) ≠ none) : ∀ r ∈ prefixes v, s.has r = true := by
  intro r hr
  rw [← Bool.not_eq_false, has_eq_false]
  intro hnone
  apply h
  simp only [prefixes, List.mem_cons, List.not_mem_nil, or_false] at hr
  obtain rfl | rfl | rfl := hr
  · exact table_append_none hnone [pdptIndex v, pdtIndex v]
  · exact table_append_none hnone [pdtIndex v]
  · exact hnone

theorem needed_of_has {has : List Index → Bool} (h : ∀ v ∈ vs, ∀ r ∈ prefixes v, has r = true) :
    needed flags 1 has vs = vs.length := by
  induction vs generalizing has with
  | nil => rfl
  | cons v vs ih =>
      have hzero : missing has (prefixes v) = 0 := by
        unfold missing
        rw [List.countP_eq_zero]
        intro r hr
        rw [h v List.mem_cons_self r hr]
        decide
      rw [needed, hzero, ih, List.length_cons, Nat.zero_add, Nat.add_comm]
      intro w hw r hr
      rw [h w (List.mem_cons_of_mem v hw) r hr]
      rfl

/-- The range may be mapped and unmapped again: its tables exist, and there is a free frame for each page. -/
structure Again (s : State) (virt length : Nat) : Prop where
  shape : TreeShaped s
  off : ∀ v ∈ rangePages virt length, ¬ OnWindow v
  unmapped : ∀ v ∈ rangePages virt length, walk s v = 0
  tables : ∀ v ∈ rangePages virt length, s.table (tablePath v) ≠ none
  enough : (rangePages virt length).length ≤ s.free.card
  closed : rangePages virt length ≠ [] → s.mem framePt 0 = 0

theorem Unused.again (h : Unused s virt length flags) (hflags : flags < pageSize) :
    Again (mapUnmap virt length flags s) virt length := by
  obtain ⟨new, hm, hu⟩ := h.undone hflags
  refine ⟨hu.restored.shape, h.off, fun v hv => ?_, fun v hv => ?_, ?_, hu.closed⟩
  · rw [hu.restored.walk v (h.off v hv)]
    exact h.unmapped v hv
  · rw [hu.table _ (length_tablePath v).le]
    exact table_ne_none_of_walk (hm.walk_ne_zero h.present hv)
  · rw [hu.card_free hm]
    exact Nat.le_add_left _ _

theorem pageList_eq_of_length_le (h : (rangePages virt length).length ≤ frames) :
    pageList virt length = rangePages virt length := by
  rw [rangePages, List.length_map, List.length_range] at h
  have hpages : rounds length = pages length := by
    unfold rounds
    unfold frames pageBitmapSize at h
    omega
  rw [pageList, rangePages, hpages]
  apply pageAt_list
  unfold frames pageBitmapSize pageSize at *
  omega

/-- A call that finds its frames, with more pages to come, maps its range and leaves the frames for what comes. -/
theorem mapping_of_needed {vs : List Nat} (hs : TreeShaped s) (hflags : flags < pageSize)
    (hwin : ∀ v ∈ rangePages virt length, ¬ OnWindow v)
    (h : needed flags 1 s.has (rangePages virt length ++ vs) ≤ s.free.card) :
    (∃ new lost, Mapping flags s (pageMapv s virt length flags) (rangePages virt length) new lost) ∧
      needed flags 1 (pageMapv s virt length flags).has vs ≤ (pageMapv s virt length flags).free.card := by
  have hframes : s.free.card ≤ frames := (Finset.card_filter_le _ _).trans (Finset.card_range frames).le
  have hlen : (rangePages virt length ++ vs).length ≤ needed flags 1 s.has (rangePages virt length ++ vs) :=
    length_le_needed _ _
  rw [List.length_append] at hlen
  have hlist : pageList virt length = rangePages virt length := pageList_eq_of_length_le (by omega)
  rw [pageMapv_eq, hlist]
  obtain ⟨href, hneed⟩ := needed_after_foldl id (fun u hu _ _ => mapvPage_round hu hflags) hs (by
    rw [List.map_id]
    exact h)
  exact ⟨mapping_foldl hs hflags hwin href, hneed⟩

theorem Again.unused (h : Again s virt length) (hflags : flags < pageSize) (hp : Present flags) :
    Unused s virt length flags := by
  have hlist : pageList virt length = rangePages virt length := by
    apply pageList_eq_of_length_le
    refine h.enough.trans ?_
    exact (Finset.card_filter_le _ _).trans (Finset.card_range frames).le
  refine ⟨h.shape, hp, h.off, h.unmapped, ?_⟩
  rw [(enough_pageMapv h.shape hflags).1, hlist,
    needed_of_has fun v hv => has_prefixes (h.tables v hv)]
  exact h.enough

/-- Nothing of what is observed changes. -/
structure Same (s u : State) : Prop where
  walk : ∀ w, walk u w = walk s w
  bit : ∀ f < frames, (Bit u.bitmap f ↔ Bit s.bitmap f)

theorem Again.same (h : Again s virt length) (hflags : flags < pageSize) (hp : Present flags) :
    Same s (mapUnmap virt length flags s) := by
  have hun := h.unused hflags hp
  obtain ⟨new, hm, hu⟩ := hun.undone hflags
  have hlist := (mapping_pageMapv h.shape hflags h.off hun.granted).1
  refine ⟨fun w => ?_, fun f hf => ?_⟩
  · by_cases hw : OnWindow w
    · rw [hu.restored.shape.walk_window hw, h.shape.walk_window hw]
      by_cases hempty : rangePages virt length = []
      · rw [mapUnmap, pageUmapv_eq, pageMapv_eq, hlist, hempty]
        rfl
      · rw [hu.closed hempty, h.closed hempty]
    · exact hu.restored.walk w hw
  · have hsub : (mapUnmap virt length flags s).free ⊆ s.free :=
      free_subset fun f hf hb => (hu.restored.bit f hf).mpr (.inl hb)
    have hcard : s.free.card ≤ (mapUnmap virt length flags s).free.card := by
      have hleft := (enough_pageMapv h.shape hflags).2 hun.granted
      rw [hlist, needed_of_has fun v hv => has_prefixes (h.tables v hv)] at hleft
      rw [hu.card_free hm]
      exact hleft.ge
    have heq := Finset.eq_of_subset_of_card_le hsub hcard
    have hiff : f ∈ (mapUnmap virt length flags s).free ↔ f ∈ s.free := by rw [heq]
    rw [mem_free, mem_free, and_iff_right hf, and_iff_right hf] at hiff
    exact not_iff_not.mp hiff

theorem Unused.plain (h : Unused s virt length flags) (hflags : flags < pageSize) (hsmall : ¬ Large flags)
    (hplain : Plain s) : Plain (mapUnmap virt length flags s) := by
  obtain ⟨new, -, hu⟩ := h.undone hflags
  exact hplain.grown ((pageMapv_grown h.shape hflags h.granted).trans (hu.grown flags)) hsmall

theorem mapUnmap_iterate (h : Unused s virt length flags) (hflags : flags < pageSize) (k : Nat) :
    Again ((mapUnmap virt length flags)^[k] (mapUnmap virt length flags s)) virt length ∧
      Same (mapUnmap virt length flags s) ((mapUnmap virt length flags)^[k] (mapUnmap virt length flags s)) := by
  induction k with
  | zero => exact ⟨h.again hflags, fun _ => rfl, fun _ _ => Iff.rfl⟩
  | succ k ih =>
      obtain ⟨hagain, hsame⟩ := ih
      have hstep := hagain.same hflags h.present
      rw [Function.iterate_succ_apply']
      refine ⟨(hagain.unused hflags h.present).again hflags, fun w => ?_, fun f hf => ?_⟩
      · exact (hstep.walk w).trans (hsame.walk w)
      · exact (hstep.bit f hf).trans (hsame.bit f hf)

theorem mapUnmap_plain (h : Unused s virt length flags) (hflags : flags < pageSize) (hsmall : ¬ Large flags)
    (hplain : Plain s) (k : Nat) : Plain ((mapUnmap virt length flags)^[k] s) := by
  cases k with
  | zero => exact hplain
  | succ k =>
      rw [Function.iterate_succ_apply]
      induction k with
      | zero => exact h.plain hflags hsmall hplain
      | succ k ih =>
          rw [Function.iterate_succ_apply']
          exact ((mapUnmap_iterate h hflags k).1.unused hflags h.present).plain hflags hsmall ih

/-- Mapping a range and unmapping it leaves every translation, but the window's page is unmapped, and adds the tables to
the frames in use; after that it changes nothing, however often. No table turns into a large page: what the processor
finds is what `walk` does. -/
theorem mapUnmap_restores (h : Unused s virt length flags) (hflags : flags < pageSize) (hsmall : ¬ Large flags) :
    (∀ w, walk (mapUnmap virt length flags s) w =
      if OnWindow w ∧ rangePages virt length ≠ [] then 0 else walk s w) ∧
    (∀ f < frames, (Bit (mapUnmap virt length flags s).bitmap f ↔ Bit s.bitmap f ∨
      ∃ p, p.length ≤ 3 ∧ (mapUnmap virt length flags s).table p = some f ∧ s.table p ≠ some f)) ∧
    (∀ k, Same (mapUnmap virt length flags s) ((mapUnmap virt length flags)^[k] (mapUnmap virt length flags s))) ∧
    (Plain s → ∀ k, Plain ((mapUnmap virt length flags)^[k] s)) := by
  obtain ⟨new, hm, hu⟩ := h.undone hflags
  refine ⟨fun w => ?_, hu.restored.bit, fun k => (mapUnmap_iterate h hflags k).2, mapUnmap_plain h hflags hsmall⟩
  split_ifs with hw
  · rw [hu.restored.shape.walk_window hw.1, hu.closed hw.2]
  · by_cases hoff : OnWindow w
    · have hempty : rangePages virt length = [] := not_not.mp fun hne => hw ⟨hoff, hne⟩
      have hlist := (mapping_pageMapv h.shape hflags h.off h.granted).1
      rw [mapUnmap, pageUmapv_eq, pageMapv_eq, hlist, hempty]
      rfl
    · exact hu.restored.walk w hoff

/-- Two pages at 4 MB, in the first tables of the loader. -/
theorem mapUnmap_restores_firstTables :
    (∀ w, walk (mapUnmap 0x400000 0x1800 3 (kernelCreateNewPage fun _ _ => 0)) w =
      if OnWindow w ∧ rangePages 0x400000 0x1800 ≠ [] then 0 else walk (kernelCreateNewPage fun _ _ => 0) w) ∧
    (∀ k, Same (mapUnmap 0x400000 0x1800 3 (kernelCreateNewPage fun _ _ => 0))
      ((mapUnmap 0x400000 0x1800 3)^[k] (mapUnmap 0x400000 0x1800 3 (kernelCreateNewPage fun _ _ => 0)))) ∧
    (Plain (kernelCreateNewPage fun _ _ => 0) →
      ∀ k, Plain ((mapUnmap 0x400000 0x1800 3)^[k] (kernelCreateNewPage fun _ _ => 0))) := by
  have h : Unused (kernelCreateNewPage fun _ _ => 0) 0x400000 0x1800 3 :=
    ⟨treeShaped_kernelCreateNewPage _, by decide, by decide +kernel, by decide +kernel, by decide +kernel⟩
  exact ⟨(mapUnmap_restores h (by decide) (by decide)).1, (mapUnmap_restores h (by decide) (by decide)).2.2⟩

/-- Every page translates as before, the frames in use are those from before and the new tables, and more of these pairs
change nothing. -/
def RoundTrips (s : State) (virt length flags : Nat) : Prop :=
  (∀ w, walk (mapUnmap virt length flags s) w = walk s w) ∧
  (∀ f < frames, (Bit (mapUnmap virt length flags s).bitmap f ↔ Bit s.bitmap f ∨
    ∃ p, p.length ≤ 3 ∧ (mapUnmap virt length flags s).table p = some f ∧ s.table p ≠ some f)) ∧
  ∀ k, Same (mapUnmap virt length flags s) ((mapUnmap virt length flags)^[k] (mapUnmap virt length flags s))

/-- Mapping a page that is mapped leaves the window open. -/
def openWindow : State := pageMapv (kernelCreateNewPage fun _ _ => 0) 0x6000 0x1000 3

def ninthUsed : State := (kernelCreateNewPage fun _ _ => 0).setBit 1 1

def lowUsed : State := { kernelCreateNewPage fun _ _ => 0 with bitmap := fun i => if i < 64 then 255 else 0 }

theorem treeShaped_openWindow : TreeShaped openWindow := by
  have hs := treeShaped_kernelCreateNewPage fun _ _ => 0
  obtain ⟨-, -, new, lost, hm⟩ := mapping_pageMapv hs (by decide : 3 < pageSize)
    (by decide +kernel : ∀ v ∈ rangePages 0x6000 0x1000, ¬ OnWindow v) (by decide +kernel)
  exact hm.shape hs

theorem treeShaped_ninthUsed : TreeShaped ninthUsed := by
  apply (treeShaped_kernelCreateNewPage fun _ _ => 0).keeps
  exact ⟨rfl, fun _ _ => rfl, fun f hf => (bit_set (by decide) f).mpr (.inr hf), fun _ _ _ _ => rfl⟩

theorem treeShaped_lowUsed : TreeShaped lowUsed := by
  apply (treeShaped_kernelCreateNewPage fun _ _ => 0).keeps
  refine ⟨rfl, fun _ _ => rfl, fun f hf => ?_, fun _ _ _ _ => rfl⟩
  have hlt : f < 7 := (bit_kernelCreateNewPage _ f).mp hf
  show ((if f / 8 < 64 then 255 else 0 : BitVec 8)).getLsbD (f % 8) = true
  rw [if_pos (by omega), Nat.mod_eq_of_lt (by omega)]
  interval_cases f <;> rfl

/-- The window's page does not get its translation back; flags that reach into the address of the frame 8 make an entry
for the frame 9, which is freed; and with the bit 7 the frame of the new page table stays behind as a large page. -/
theorem not_roundTrips :
    (Unused openWindow 0x400000 0x1000 3 ∧ ¬ RoundTrips openWindow 0x400000 0x1000 3) ∧
      (Unused ninthUsed 0x400000 0x1000 0x1003 ∧ ¬ RoundTrips ninthUsed 0x400000 0x1000 0x1003) ∧
      Unused lowUsed 0x400000 0x1000 0x83 ∧
      processorFrame (mapUnmap 0x400000 0x1000 0x83 lowUsed) 0x400000 ≠ processorFrame lowUsed 0x400000 := by
  refine ⟨⟨⟨treeShaped_openWindow, by decide, by decide +kernel, by decide +kernel, by decide +kernel⟩, fun h => ?_⟩,
    ⟨⟨treeShaped_ninthUsed, by decide, by decide +kernel, by decide +kernel, by decide +kernel⟩, fun h => ?_⟩,
    ⟨treeShaped_lowUsed, by decide, by decide +kernel, by decide +kernel, by decide +kernel⟩, by decide +kernel⟩
  · have hne : walk (mapUnmap 0x400000 0x1000 3 openWindow) 0x3fe00000 ≠ walk openWindow 0x3fe00000 := by decide +kernel
    exact hne (h.1 _)
  · have hold : Bit ninthUsed.bitmap 9 := by decide +kernel
    have hnew : ¬ Bit (mapUnmap 0x400000 0x1000 0x1003 ninthUsed).bitmap 9 := by decide +kernel
    exact hnew ((h.2.1 9 (by decide)).mpr (.inl hold))

end HaOS.Paging
