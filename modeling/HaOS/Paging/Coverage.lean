import HaOS.Paging.RoundTrip

/-!
# Which bytes a call maps

The number of pages comes from the length alone, and the pages start with the one of the first byte.

* `range_cases` : a byte of the range lies on one of the pages, or behind them all;
* `Mapping.present_iff` : a page of the range is present after the call unless its entry was already used without the bit;
* `mapped_iff` : when `page_mapv` maps every byte of its range.
-/

namespace HaOS.Paging

variable {s t : State} {vs : List Nat} {new : List (Nat × Nat)} {lost : List Nat} {v a flags virt length : Nat}

/-! ## Bytes and pages -/

/-- The range takes one page more than its length does: it starts late in its first page. -/
def Spills (virt length : Nat) : Prop := pages length * pageSize < virt % pageSize + length

instance (virt length : Nat) : Decidable (Spills virt length) := inferInstanceAs (Decidable (_ < _))

theorem pages_bounds (h : 0 < length) : (pages length - 1) * pageSize < length ∧ length ≤ pages length * pageSize := by
  unfold pages pageSize
  split_ifs <;> omega

theorem mem_rangePages : v ∈ rangePages virt length ↔ ∃ i < pages length, qword (virt + i * pageSize) = v := by
  rw [rangePages, List.mem_map]
  simp only [List.mem_range]

theorem rangePages_inside (h : 0 < length) (hv : v ∈ rangePages virt length) :
    ∃ a, virt ≤ a ∧ a < virt + length ∧ vpn a = vpn v ∧ tablePath a = tablePath v ∧ ptIndex a = ptIndex v := by
  obtain ⟨i, hi, rfl⟩ := mem_rangePages.mp hv
  have hvpn : vpn (virt + i * pageSize) = vpn (qword (virt + i * pageSize)) := by
    unfold vpn qword pageSize
    omega
  have hlt : i * pageSize < length := by
    refine lt_of_le_of_lt ?_ (pages_bounds h).1
    exact Nat.mul_le_mul_right _ (by omega)
  exact ⟨virt + i * pageSize, Nat.le_add_right _ _, by omega, hvpn, (vpn_eq_iff _ _).mp hvpn⟩

/-- A byte of the range lies on one of the pages, or on the page behind them. -/
theorem range_cases (h1 : virt ≤ a) (h2 : a < virt + length) :
    (∃ v ∈ rangePages virt length, vpn a = vpn v) ∨ Spills virt length ∧ vpn a = vpn (virt + length - 1) := by
  have hlen := (pages_bounds (by omega : 0 < length)).2
  by_cases hi : a / pageSize - virt / pageSize < pages length
  · refine .inl ⟨_, mem_rangePages.mpr ⟨_, hi, rfl⟩, ?_⟩
    unfold vpn qword pageSize at *
    omega
  · right
    unfold Spills vpn pageSize at *
    omega

theorem spill_ne (hs : Spills virt length) (hlen : 0 < length) (hpages : pages length < 2 ^ 36) :
    ∀ v ∈ rangePages virt length, vpn (virt + length - 1) ≠ vpn v := by
  intro v hv
  obtain ⟨i, hi, rfl⟩ := mem_rangePages.mp hv
  have hle := (pages_bounds hlen).2
  unfold Spills vpn qword pageSize at *
  omega

/-! ## The entries -/

theorem Mapping.present_iff (h : Mapping flags s t vs new lost) (hp : Present flags) (hv : v ∈ vs) :
    Present (walk t v) ↔ walk s v = 0 ∨ Present (walk s v) := by
  have hw := h.off v hv
  by_cases h0 : walk s v = 0
  · refine iff_of_true ?_ (.inl h0)
    rcases h.walk_cases hw with heq | ⟨x, -, -, heq⟩
    · exact absurd (heq.trans h0) (h.walk_ne_zero hp hv)
    · rw [heq]
      exact (present_or x.2).mpr hp
  · rw [h.walk_kept hp hw h0, or_iff_right h0]

/-- After `page_mapv` every byte of the range has a present entry exactly when no page had a used entry without the bit, and
the bytes do not reach beyond the pages or are mapped there already. No table turns into a large page: what the processor
finds is what `walk` does. -/
theorem mapped_iff (hs : TreeShaped s) (hflags : flags < pageSize) (hsmall : ¬ Large flags) (hp : Present flags)
    (hlen : 0 < length)
    (hoff : ∀ a, virt ≤ a → a < virt + length → ¬ OnWindow a)
    (href : (pageMapv s virt length flags).refused = s.refused) :
    ((∀ a, virt ≤ a → a < virt + length → Present (walk (pageMapv s virt length flags) a)) ↔
      (∀ v ∈ rangePages virt length, walk s v = 0 ∨ Present (walk s v)) ∧
      (Spills virt length → Present (walk s (virt + length - 1)))) ∧
    (Plain s → Plain (pageMapv s virt length flags)) := by
  have hwin : ∀ v ∈ rangePages virt length, ¬ OnWindow v := by
    intro v hv
    obtain ⟨a, h1, h2, -, htable, hpt⟩ := rangePages_inside hlen hv
    unfold OnWindow
    rw [← htable, ← hpt]
    exact hoff a h1 h2
  obtain ⟨-, -, new, lost, hm⟩ := mapping_pageMapv hs hflags hwin href
  have hpages : pages length < 2 ^ 36 := by
    have hle := hm.length_le
    rw [rangePages, List.length_map, List.length_range] at hle
    exact lt_of_le_of_lt hle (by decide)
  have hlast : Spills virt length → walk (pageMapv s virt length flags) (virt + length - 1) =
      walk s (virt + length - 1) := fun hspill =>
    hm.walk_other (hoff _ (by omega) (by omega)) (spill_ne hspill hlen hpages)
  refine ⟨⟨?_, ?_⟩, fun hplain => hplain.grown (pageMapv_grown hs hflags href) hsmall⟩
  · intro hall
    refine ⟨fun v hv => ?_, fun hspill => ?_⟩
    · obtain ⟨a, h1, h2, hvpn, -⟩ := rangePages_inside hlen hv
      rw [← hm.present_iff hp hv, ← walk_congr hvpn]
      exact hall a h1 h2
    · rw [← hlast hspill]
      exact hall _ (by omega) (by omega)
  · rintro ⟨hpage, hspill⟩ a h1 h2
    rcases range_cases h1 h2 with ⟨v, hv, hvpn⟩ | ⟨hsp, hvpn⟩
    · rw [walk_congr hvpn, hm.present_iff hp hv]
      exact hpage v hv
    · rw [walk_congr hvpn, hlast hsp]
      exact hspill hsp

/-- A page at 4 MB, in the first tables of the loader. -/
theorem mapped_iff_firstTables :
    ((∀ a, 0x400000 ≤ a → a < 0x400000 + 0x1000 →
      Present (walk (pageMapv (kernelCreateNewPage fun _ _ => 0) 0x400000 0x1000 3) a)) ↔
      (∀ v ∈ rangePages 0x400000 0x1000, walk (kernelCreateNewPage fun _ _ => 0) v = 0 ∨
        Present (walk (kernelCreateNewPage fun _ _ => 0) v)) ∧
      (Spills 0x400000 0x1000 → Present (walk (kernelCreateNewPage fun _ _ => 0) (0x400000 + 0x1000 - 1)))) ∧
    (Plain (kernelCreateNewPage fun _ _ => 0) →
      Plain (pageMapv (kernelCreateNewPage fun _ _ => 0) 0x400000 0x1000 3)) := by
  refine mapped_iff (treeShaped_kernelCreateNewPage _) (by decide) (by decide) (by decide) (by decide)
    (fun a _ h2 => ?_) (by decide +kernel)
  exact not_onWindow (tablePath_ne_window (by omega))

/-- A page's length from the middle of a page on: the second half of the bytes is not mapped. -/
theorem not_mapped_unaligned : TreeShaped (kernelCreateNewPage fun _ _ => 0) ∧
    (pageMapv (kernelCreateNewPage fun _ _ => 0) 0x400800 0x1000 3).refused = 0 ∧
    (∀ a, 0x400800 ≤ a → a < 0x400800 + 0x1000 → ¬ OnWindow a) ∧
    ¬ (∀ a, 0x400800 ≤ a → a < 0x400800 + 0x1000 →
      Present (walk (pageMapv (kernelCreateNewPage fun _ _ => 0) 0x400800 0x1000 3) a)) := by
  refine ⟨treeShaped_kernelCreateNewPage _, by decide +kernel, fun a _ h2 => ?_, fun h => ?_⟩
  · exact not_onWindow (tablePath_ne_window (by omega))
  · have hnot : ¬ Present (walk (pageMapv (kernelCreateNewPage fun _ _ => 0) 0x400800 0x1000 3) 0x401000) := by
      decide +kernel
    exact hnot (h 0x401000 (by decide) (by decide))

end HaOS.Paging
