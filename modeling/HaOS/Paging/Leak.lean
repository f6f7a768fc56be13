import HaOS.Paging.Rounds

/-!
# Frames that mapping loses

* `NoLeak` : what a call of `page_mapv` has taken is a table or is mapped in the range;
* `noLeak_of_unmapped`, `unmapped_of_noLeak` : so it is when no page of the range had an entry, and only then.
-/

namespace HaOS.Paging

variable {s t : State} {new : List (Nat × Nat)} {lost : List Nat} {v f flags virt length : Nat}

/-- Every frame that is taken from `s` to `t` is a table that was linked, or the frame of a present entry of the range. -/
def NoLeak (s t : State) (virt length : Nat) : Prop :=
  ∀ f < frames, ¬ Bit s.bitmap f → Bit t.bitmap f →
    (∃ p, p.length ≤ 3 ∧ t.table p = some f ∧ s.table p ≠ some f) ∨
      ∃ v ∈ rangePages virt length, target (walk t v) = some f

/-- No page of the range has an entry, and the entries that it gets are present. -/
def Mappable (s : State) (virt length flags : Nat) : Prop :=
  ∀ v ∈ rangePages virt length, Present flags ∧ walk s v = 0

theorem noLeak_of_unmapped (hs : TreeShaped s) (hflags : flags < pageSize)
    (hwin : ∀ v ∈ rangePages virt length, ¬ OnWindow v) (href : (pageMapv s virt length flags).refused = s.refused)
    (h : Mappable s virt length flags) : NoLeak s (pageMapv s virt length flags) virt length := by
  obtain ⟨hlist, hpair, new, lost, hm⟩ := mapping_pageMapv hs hflags hwin href
  intro f hf hfree hbit
  by_cases hempty : rangePages virt length = []
  · -- a call without rounds takes nothing
    rw [pageMapv_eq, hlist, hempty] at hbit
    exact absurd hbit hfree
  obtain ⟨v0, hv0⟩ := List.exists_mem_of_ne_nil _ hempty
  have hp : Present flags := (h v0 hv0).1
  obtain rfl : lost = [] := (hm.lost_eq_nil_iff hp).mpr ⟨fun v hv => (h v hv).2, hpair⟩
  have hused := hm.used hp f (mem_free.mpr ⟨hf, hfree⟩) fun hmem => (mem_free.mp hmem).2 hbit
  rw [List.append_nil] at hused
  obtain hnew | htable := hused
  · obtain ⟨x, hx, rfl⟩ := List.mem_map.mp hnew
    refine .inr ⟨x.1, ?_, ?_⟩
    · rw [← hm.map_fst]
      exact List.mem_map_of_mem hx
    · rw [hm.walk_new hp hx, target_or (Nat.lt_trans hf (by decide)) hflags, if_pos hp]
  · obtain ⟨p, hp, hpf⟩ : ∃ p, p.length ≤ 3 ∧ (pageMapv s virt length flags).table p = some f := by
      simpa [State.NoTable] using htable
    exact .inl ⟨p, hp, hpf, fun hold => hfree (hs.marked p f hp hold).2⟩

/-- A frame of a round that no present entry names is lost. -/
theorem not_noLeak (hflags : flags < pageSize) (hm : Mapping flags s t (rangePages virt length) new lost)
    (hwin : ∀ v ∈ rangePages virt length, ¬ OnWindow v)
    (hleaf : ∀ v ∈ rangePages virt length, ∀ f, target (walk s v) = some f → Bit s.bitmap f)
    (hf : f ∈ new.map Prod.snd ++ lost) (hnone : Present flags → f ∉ new.map Prod.snd) :
    ¬ NoLeak s t virt length := by
  intro h
  obtain ⟨hfree, hmarked, hno⟩ := hm.frame f hf
  obtain ⟨p, hp, hpf, -⟩ | ⟨v, hv, hvf⟩ := h f hmarked.1 hfree hmarked.2
  · exact hno p hp hpf
  · obtain hold | ⟨x, hx, -, hnew⟩ := hm.walk_cases (hwin v hv)
    · rw [hold] at hvf
      exact hfree (hleaf v hv f hvf)
    · have hlt := (hm.frame x.2 (List.mem_append_left _ (List.mem_map_of_mem hx))).2.1.1
      rw [hnew, target_or (Nat.lt_trans hlt (by decide)) hflags] at hvf
      split_ifs at hvf with hp
      · cases hvf
        exact hnone hp (List.mem_map_of_mem hx)

theorem unmapped_of_noLeak (hs : TreeShaped s) (hflags : flags < pageSize)
    (hwin : ∀ v ∈ rangePages virt length, ¬ OnWindow v) (href : (pageMapv s virt length flags).refused = s.refused)
    (hleaf : ∀ v ∈ rangePages virt length, ∀ f, target (walk s v) = some f → Bit s.bitmap f)
    (h : NoLeak s (pageMapv s virt length flags) virt length) : Mappable s virt length flags := by
  obtain ⟨-, hpair, new, lost, hm⟩ := mapping_pageMapv hs hflags hwin href
  have hlost : ∀ f ∈ new.map Prod.snd ++ lost, ¬ (Present flags → f ∉ new.map Prod.snd) :=
    fun f hf hnone => not_noLeak hflags hm hwin hleaf hf hnone h
  intro v hv
  have hp : Present flags := by
    by_contra hp
    -- the first round takes a frame for an entry that is not present
    have hpos : 0 < (new.map Prod.snd ++ lost).length := by
      rw [← hm.length_eq]
      exact List.length_pos_of_mem hv
    obtain ⟨f, hf⟩ := List.exists_mem_of_length_pos hpos
    exact hlost f hf fun h => absurd h hp
  have hnil : lost = [] := by
    rw [List.eq_nil_iff_forall_not_mem]
    intro f hf
    refine hlost f (List.mem_append_right _ hf) fun _ hnew => ?_
    exact (List.disjoint_of_nodup_append hm.nodup) hnew hf
  exact ⟨hp, ((hm.lost_eq_nil_iff hp).mp hnil).1 v hv⟩

/-- Mapping a range loses no frame if no page of it has an entry; and where the entries of the range name no free frames,
it loses none only then. -/
theorem mapping_noLeak (hs : TreeShaped s) (hflags : flags < pageSize)
    (hwin : ∀ v ∈ rangePages virt length, ¬ OnWindow v) (href : (pageMapv s virt length flags).refused = s.refused) :
    (Mappable s virt length flags → NoLeak s (pageMapv s virt length flags) virt length) ∧
      ((∀ v ∈ rangePages virt length, ∀ f, target (walk s v) = some f → Bit s.bitmap f) →
        (NoLeak s (pageMapv s virt length flags) virt length ↔ Mappable s virt length flags)) :=
  ⟨noLeak_of_unmapped hs hflags hwin href, fun hleaf =>
    ⟨unmapped_of_noLeak hs hflags hwin href hleaf, noLeak_of_unmapped hs hflags hwin href⟩⟩

/-- Two pages at 4 MB, in the first tables of the loader. -/
theorem mapping_noLeak_firstTables :
    NoLeak (kernelCreateNewPage fun _ _ => 0) (pageMapv (kernelCreateNewPage fun _ _ => 0) 0x400000 0x1800 3)
      0x400000 0x1800 := by
  have h := @mapping_noLeak (kernelCreateNewPage fun _ _ => 0) 3 0x400000 0x1800 (treeShaped_kernelCreateNewPage _)
    (by decide) (by decide +kernel) (by decide +kernel)
  refine h.1 ?_
  have hall : ∀ v ∈ rangePages 0x400000 0x1800, Present 3 ∧ walk (kernelCreateNewPage fun _ _ => 0) v = 0 := by
    decide +kernel
  exact hall

/-- The page at 0x6000 has an entry from the loader, and mapping it again loses a frame. -/
theorem leak_firstTables :
    ¬ ∀ s virt length flags, TreeShaped s → flags < pageSize → (∀ v ∈ rangePages virt length, ¬ OnWindow v) →
      (pageMapv s virt length flags).refused = s.refused → NoLeak s (pageMapv s virt length flags) virt length := by
  intro h
  have hs := treeShaped_kernelCreateNewPage fun _ _ => 0
  have hwin : ∀ v ∈ rangePages 0x6000 0x1000, ¬ OnWindow v := by decide +kernel
  have href : (pageMapv (kernelCreateNewPage fun _ _ => 0) 0x6000 0x1000 3).refused =
      (kernelCreateNewPage fun _ _ => 0).refused := by decide +kernel
  have hleaf : ∀ v ∈ rangePages 0x6000 0x1000,
      target (walk (kernelCreateNewPage fun _ _ => 0) v) = some 6 ∧ walk (kernelCreateNewPage fun _ _ => 0) v ≠ 0 := by
    decide +kernel
  have hbit : Bit (kernelCreateNewPage fun _ _ => 0).bitmap 6 := by decide +kernel
  have hmap := unmapped_of_noLeak hs (by decide) hwin href (fun v hv f hf => ?_) (h _ _ _ 3 hs (by decide) hwin href)
  · have hmem : 0x6000 ∈ rangePages 0x6000 0x1000 := by decide +kernel
    exact (hleaf _ hmem).2 (hmap _ hmem).2
  · rw [(hleaf v hv).1] at hf
    cases hf
    exact hbit

end HaOS.Paging
