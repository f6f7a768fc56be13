import HaOS.Paging.Memory

/-!
# The page of a stack

* `pageMapv_page`, `pageUmapv_page` : calls for one page;
* `Spent s t fs f` : pages are mapped in the frames `fs`, and `page_alloc4K` maps the frame `f`; `spent_of_granted`;
* `Spent.release` : the page of `f` is unmapped again: the frames in use are those from before, `fs` and new tables.
-/

namespace HaOS.Paging

variable {s t u : State} {vs fs : List Nat} {f g v flags : Nat}

theorem pageAt_zero (v : Nat) : pageAt v 0 = qword v := by
  rw [pageAt_of_lt (by decide), Nat.zero_mul, Nat.add_zero]

theorem pageMapv_page (s : State) (v flags : Nat) : pageMapv s v 0x1000 flags = mapvPage flags s (qword v) := by
  rw [pageMapv, show rounds 0x1000 = 1 from by decide, ← pageAt_zero]
  rfl

theorem pageUmapv_page (s : State) (v : Nat) : pageUmapv s v 0x1000 = umapvPage s (qword v) := by
  rw [pageUmapv, show rounds 0x1000 = 1 from by decide, ← pageAt_zero]
  rfl

theorem refused_le_pageAlloc4K : s.refused ≤ (pageAlloc4K s flags).1.refused :=
  (refused_le_pageGetframe s).trans refused_le_tablesFor

/-- From `s` to `t` the frames `fs` and `f` are taken for pages, and all others for tables. -/
structure Spent (flags : Nat) (s t : State) (fs : List Nat) (f : Nat) : Prop where
  shape : TreeShaped t
  bit : ∀ g, Bit s.bitmap g → Bit t.bitmap g
  frame : ∀ g ∈ f :: fs, ¬ Bit s.bitmap g ∧ t.Marked g ∧ t.NoTable g
  nodup : (f :: fs).Nodup
  used : ∀ g ∈ s.free, g ∉ t.free → g ∈ f :: fs ∨ ¬ t.NoTable g
  walk : walk t (f * pageSize) = f * pageSize ||| flags

theorem Spent.lt (h : Spent flags s t fs f) : f < frames := (h.frame f List.mem_cons_self).2.1.1

theorem spent_of_granted (hs : TreeShaped s) (hflags : flags < pageSize) (hp : Present flags)
    (hw : ∀ v ∈ vs, ¬ OnWindow v) (hu : u = vs.foldl (mapvPage flags) s)
    (href : (pageAlloc4K u flags).1.refused = s.refused) :
    ∃ fs f, Spent flags s (pageAlloc4K u flags).1 fs f ∧ fs.length = vs.length ∧
      (pageAlloc4K u flags).2 = f * pageSize := by
  have hle : s.refused ≤ u.refused := by
    rw [hu]
    exact refused_le_foldl (fun _ _ => refused_le_mapvPage) vs s
  have hle' : u.refused ≤ (pageAlloc4K u flags).1.refused := refused_le_pageAlloc4K
  have hru : u.refused = s.refused := le_antisymm (hle'.trans href.le) hle
  obtain ⟨new, lost, hm⟩ := mapping_foldl hs hflags hw (hu ▸ hru)
  rw [← hu] at hm
  obtain ⟨f, hret, ha⟩ := pageAlloc4K_spec (hm.shape hs) hflags (href.trans hru.symm)
  have hext := ha.written.ext
  have hfree : ¬ Bit u.bitmap f := (mem_free.mp ha.free).2
  refine ⟨new.map Prod.snd ++ lost, f, ⟨ha.written.shape, fun g hg => hext.bit g (hm.ext.bit g hg), ?_, ?_, ?_, ha.walk hp⟩,
    hm.length_eq.symm, hret⟩
  · intro g hg
    obtain rfl | hg := List.mem_cons.mp hg
    · exact ⟨mt (hm.ext.bit g) hfree, ha.marked, ha.noTable⟩
    · obtain ⟨hnot, hmarked, hno⟩ := hm.frame g hg
      exact ⟨hnot, hmarked.mono hext.bit, hext.noTable_of_bit hno hmarked.2⟩
  · exact List.nodup_cons.mpr ⟨fun hmem => hfree (hm.frame f hmem).2.1.2, hm.nodup⟩
  · intro g hg hng
    by_cases hgu : g ∈ u.free
    · exact (ha.used hp g hgu hng).imp_left fun heq => List.mem_cons.mpr (.inl heq)
    · exact (hm.used hp g hg hgu).imp (List.mem_cons_of_mem f) (mt hext.noTable)

theorem Spent.same (h : Spent flags s t fs f) (ht : SameTables t u) : Spent flags s u fs f where
  shape := h.shape.congr ht.pmlt4 ht.table fun _ hf _ => ht.marked hf
  bit g hg := by
    rw [ht.bitmap]
    exact h.bit g hg
  frame g hg := by
    obtain ⟨hnot, hmarked, hno⟩ := h.frame g hg
    exact ⟨hnot, ht.marked hmarked, ht.noTable hno⟩
  nodup := h.nodup
  used g hg hng := by
    rw [ht.free] at hng
    refine (h.used g hg hng).imp_right fun htable hno => htable fun p hp => ?_
    rw [← ht.table p hp]
    exact hno p hp
  walk := (ht.walk _).trans h.walk

theorem freed_singleton : Freed s [v] f ↔ s.table (tablePath v) ≠ none ∧ f = bitOf (walk s v) := by
  have hsnoc : Freed s ([] ++ [v]) f ↔ Freed s [] f ∨ FreedAt s [] v f := freed_snoc
  rw [List.nil_append] at hsnoc
  rw [hsnoc]
  constructor
  · rintro (⟨as, w, hpre, -⟩ | ⟨htable, hf | ⟨-, w, hw, -⟩⟩)
    · simpa using hpre.length_le
    · exact ⟨htable, hf⟩
    · simp at hw
  · exact fun h => .inr ⟨h.1, .inl h.2⟩

/-- What is left when the page of `f` is unmapped. -/
structure Released (s u : State) (fs : List Nat) (f : Nat) : Prop where
  walk : walk u (f * pageSize) = 0
  noTable : ∀ g ∈ fs, u.NoTable g
  bit : ∀ g < frames, (Bit u.bitmap g ↔
    Bit s.bitmap g ∨ g ∈ fs ∨ ∃ p, p.length ≤ 3 ∧ u.table p = some g ∧ s.table p ≠ some g)

theorem Spent.release (h : Spent flags s t fs f) (hs : TreeShaped s) (hflags : flags < pageSize) (hp : Present flags) :
    Released s (umapvPage t (f * pageSize)) fs f := by
  have hf := h.lt
  have hw : ¬ OnWindow (f * pageSize) := not_onWindow (not_inWindow_frame hf)
  obtain ⟨hnot, hmarked, hno⟩ := h.frame f List.mem_cons_self
  have hmapped : HaOS.Paging.walk t (f * pageSize) ≠ 0 := by
    rw [h.walk]
    exact ne_zero_of_present ((present_or f).mpr hp)
  have htable := table_ne_none_of_walk hmapped
  -- the only bit that is cleared is that of the frame
  have hfreed : ∀ g, Freed t [f * pageSize] g ↔ g = f := by
    intro g
    rw [freed_singleton, and_iff_right htable, h.walk, bitOf_or hf hflags]
  have hapart : ∀ g, Freed t [f * pageSize] g → t.NoTable g ∧ g ≠ bitmapFrame := by
    intro g hg
    rw [(hfreed g).mp hg]
    refine ⟨hno, ?_⟩
    rintro rfl
    exact hnot hs.bitmap.1.2
  have hu : Unmapped t (umapvPage t (f * pageSize)) [f * pageSize] :=
    unmapped_foldl h.shape (fun v hv => by rwa [List.mem_singleton.mp hv]) hapart
  have hbit : ∀ g, Bit (umapvPage t (f * pageSize)).bitmap g ↔ Bit t.bitmap g ∧ g ≠ f := by
    intro g
    rw [hu.bit g, hfreed g]
  refine ⟨hu.gone _ _ rfl hw ⟨_, List.mem_singleton_self _, rfl, rfl⟩, fun g hg p hp => ?_, fun g hg => ?_⟩
  · rw [hu.table p hp]
    exact (h.frame g (List.mem_cons_of_mem f hg)).2.2 p hp
  · rw [hbit g]
    constructor
    · rintro ⟨hbt, hne⟩
      by_cases hbs : Bit s.bitmap g
      · exact .inl hbs
      · obtain hmem | htable := h.used g (mem_free.mpr ⟨hg, hbs⟩) fun hmem => (mem_free.mp hmem).2 hbt
        · exact .inr (.inl ((List.mem_cons.mp hmem).resolve_left hne))
        · obtain ⟨p, hp, hpg⟩ : ∃ p, p.length ≤ 3 ∧ t.table p = some g := by simpa [State.NoTable] using htable
          exact .inr (.inr ⟨p, hp, (hu.table p hp).trans hpg, fun hold => hbs (hs.marked p g hp hold).2⟩)
    · rintro (hbs | hmem | ⟨p, hp, hpg, -⟩)
      · exact ⟨h.bit g hbs, fun heq => hnot (heq ▸ hbs)⟩
      · refine ⟨(h.frame g (List.mem_cons_of_mem f hmem)).2.1.2, ?_⟩
        rintro rfl
        exact (List.nodup_cons.mp h.nodup).1 hmem
      · rw [hu.table p hp] at hpg
        refine ⟨(h.shape.marked p g hp hpg).2, ?_⟩
        rintro rfl
        exact hno p hp hpg

end HaOS.Paging
