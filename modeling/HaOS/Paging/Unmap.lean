import HaOS.Paging.Refine

/-!
# Unmapping pages one after another

* `umapvBit`, `bit_umapvPage` : the bit that a round clears; `umapvPage_cases` : a round finds no page table, and may leave
  the window open, or it clears an entry and a bit;
* `Freed` : the bits that the rounds over a list of pages clear;
* `Unmapped` : what they have done; `unmapped_foldl` : so it is as long as no bit of a table is cleared.
-/

namespace HaOS.Paging

variable {s t u : State} {p : List Index} {i j : Index} {vs : List Nat} {v n m f virt : Nat}

/-! ## Unmapping a page -/

theorem bitOf_eq (a : Nat) : bitOf a = frameOf a % 2 ^ 35 := by
  unfold bitOf frameOf
  omega

theorem bitOf_tableAddress (e : Nat) : bitOf (tableAddress e) = bitOf e := by
  rw [bitOf_eq, bitOf_eq, frameOf_tableAddress]

theorem target_mapframe (s : State) (addr : Nat) :
    target ((pageMapframe s addr).mem framePt 0) = some (frameOf addr) := by
  have hpres : Present ((pageMapframe s addr).mem framePt 0) := by
    rw [pageMapframe, mem_store, if_pos ⟨rfl, rfl⟩, present_iff, Nat.or_assoc, Nat.or_mod_two_eq_one]
    exact .inr rfl
  rw [target, if_pos hpres]
  exact congrArg some (windowFrame_mapframe addr)

theorem mapframe_ne_zero (s : State) (addr : Nat) : (pageMapframe s addr).mem framePt 0 ≠ 0 := by
  intro h
  have hsome := target_mapframe s addr
  rw [h] at hsome
  cases hsome

/-- The bit that a round of `page_umapv` clears: that of the entry it finds, whatever the entry is. -/
def umapvBit (s : State) (virt : Nat) : Option Nat :=
  if ¬ Present (s.mem s.root (pmlt4Index virt)) then none
  else
    let s := pageMapframe s (tableAddress (s.mem s.root (pmlt4Index virt)))
    if ¬ Present (s.window (pdptIndex virt)) then none
    else
      let s := pageMapframe s (tableAddress (s.window (pdptIndex virt)))
      if ¬ Present (s.window (pdtIndex virt)) then none
      else
        let s := pageMapframe s (tableAddress (s.window (pdtIndex virt)))
        some (bitOf (tableAddress (s.window (ptIndex virt))))

/-- Through the window a table reads as it is, but for the window's own entry. -/
theorem window_mapframe {addr : Nat} (h : frameOf addr = n) (hn : ¬ (n = framePt ∧ i = 0)) :
    (pageMapframe s addr).window i = s.mem n i := by
  rw [State.window, windowFrame_mapframe, h, pageMapframe, mem_store, if_neg hn]

theorem table_next (h : s.table p = some n) (hpres : Present (s.mem n i)) :
    s.table (p ++ [i]) = some (frameOf (tableAddress (s.mem n i))) := by
  rw [table_present h hpres, frameOf_tableAddress]

/-- Either there is no page table, or the entry is cleared and the bit of its frame with it. -/
theorem umapvPage_cases (hs : TreeShaped s) (hw : ¬ OnWindow virt) :
    (s.table (tablePath virt) = none ∧ Keeps s (umapvPage s virt) ∧ (umapvPage s virt).bitmap = s.bitmap ∧
      (∀ f, target ((umapvPage s virt).mem framePt 0) = some f → target (s.mem framePt 0) = some f ∨ ¬ s.NoTable f) ∧
      (s.table [pmlt4Index virt] ≠ none → (umapvPage s virt).mem framePt 0 ≠ 0)) ∨
    ∃ n u, s.table (tablePath virt) = some n ∧ Keeps s u ∧ u.bitmap = s.bitmap ∧
      umapvPage s virt = pageUmapframe (pageClearBitmap (u.store n (ptIndex virt) 0) (tableAddress (walk s virt))) := by
  have hopen : ∀ (u : State) (p : List Index) (addr : Nat), p.length ≤ 3 → s.table p = some (frameOf addr) →
      ∀ f, target ((pageMapframe u addr).mem framePt 0) = some f → target (s.mem framePt 0) = some f ∨ ¬ s.NoTable f := by
    intro u p addr hp h f hf
    rw [target_mapframe] at hf
    cases hf
    exact .inr fun hno => hno p hp h
  have hlen1 : [pmlt4Index virt].length < 3 := Nat.lt_of_succ_lt (Nat.lt_succ_self 2)
  have hlen2 : [pmlt4Index virt, pdptIndex virt].length < 3 := Nat.lt_succ_self 2
  have hroot : s.table [] = some s.root := rfl
  by_cases hp1 : Present (s.mem s.root (pmlt4Index virt))
  · have ht1 : s.table [pmlt4Index virt] = _ := table_next hroot hp1
    set a1 := tableAddress (s.mem s.root (pmlt4Index virt)) with ha1
    have hne1 : frameOf a1 ≠ framePt := At.ne_framePt hs hlen1 (.inl ht1 : At 0 s _ _)
    have hk1 := hs.mapframe a1
    have hw1 : ∀ i, (pageMapframe s a1).window i = s.mem (frameOf a1) i :=
      fun i => window_mapframe rfl fun h => hne1 h.1
    by_cases hp2 : Present (s.mem (frameOf a1) (pdptIndex virt))
    · have ht2 : s.table [pmlt4Index virt, pdptIndex virt] = _ := table_next ht1 hp2
      set a2 := tableAddress (s.mem (frameOf a1) (pdptIndex virt)) with ha2
      have hne2 : frameOf a2 ≠ framePt := At.ne_framePt hs hlen2 (.inl ht2 : At 0 s _ _)
      have hk2 := hk1.trans ((hs.keeps hk1).mapframe a2)
      have hw2 : ∀ i, (pageMapframe (pageMapframe s a1) a2).window i = s.mem (frameOf a2) i := by
        intro i
        rw [window_mapframe rfl fun h => hne2 h.1, pageMapframe, mem_store_of_ne hne2]
      by_cases hp3 : Present (s.mem (frameOf a2) (pdtIndex virt))
      · have ht3 : s.table (tablePath virt) = _ := table_next ht2 hp3
        set a3 := tableAddress (s.mem (frameOf a2) (pdtIndex virt)) with ha3
        have hne3 : ¬ (frameOf a3 = framePt ∧ ptIndex virt = 0) := by
          rintro ⟨h, hi⟩
          rw [h] at ht3
          exact hw ⟨hs.path_eq (length_tablePath virt).le (by decide) ht3 hs.window, hi⟩
        have hk3 := hk2.trans ((hs.keeps hk2).mapframe a3)
        have hw3 : (pageMapframe (pageMapframe (pageMapframe s a1) a2) a3).window (ptIndex virt) =
            s.mem (frameOf a3) (ptIndex virt) := by
          rw [window_mapframe rfl hne3, pageMapframe, mem_store, if_neg hne3, pageMapframe, mem_store, if_neg hne3]
        have hwalk : walk s virt = s.mem (frameOf a3) (ptIndex virt) := entry_of_table ht3 _
        refine .inr ⟨frameOf a3, _, ht3, hk3, rfl, ?_⟩
        simp only [umapvPage, hp1, ← ha1, hw1, hp2, ← ha2, hw2, hp3, ← ha3, hw3, hwalk, not_true_eq_false, if_false,
          State.storeWindow, windowFrame_mapframe]
      · have hnone : s.table (tablePath virt) = none := table_absent ht2 hp3
        have ht : umapvPage s virt = pageMapframe (pageMapframe s a1) a2 := by
          simp only [umapvPage, hp1, ← ha1, hw1, hp2, ← ha2, hw2, hp3, not_true_eq_false, not_false_eq_true, if_false,
            if_true]
        rw [ht]
        exact .inl ⟨hnone, hk2, rfl, hopen _ _ _ hlen2.le ht2, fun _ => mapframe_ne_zero _ _⟩
    · have hnone : s.table (tablePath virt) = none := table_append_none (table_absent ht1 hp2) [pdtIndex virt]
      have ht : umapvPage s virt = pageMapframe s a1 := by
        simp only [umapvPage, hp1, ← ha1, hw1, hp2, not_true_eq_false, not_false_eq_true, if_false, if_true]
      rw [ht]
      exact .inl ⟨hnone, hk1, rfl, hopen _ _ _ hlen1.le ht1, fun _ => mapframe_ne_zero _ _⟩
  · have hnone : s.table (tablePath virt) = none :=
      table_append_none (table_absent hroot hp1) [pdptIndex virt, pdtIndex virt]
    have ht : umapvPage s virt = s := by
      rw [umapvPage, if_pos hp1]
    rw [ht]
    exact .inl ⟨hnone, .refl s, rfl, fun f hf => .inl hf, fun h => absurd (table_absent hroot hp1) h⟩

/-! ## Unmapping a list of pages -/

def Pages (vs : List Nat) : List Index → Index → Prop := fun p j => ∃ v ∈ vs, Only (tablePath v) (ptIndex v) p j

/-- The round at the page `v`, after those at the pages `as`, clears the bit `f`: it belongs to the page's entry, or it is
the bit that an entry without a frame names. -/
def FreedAt (s : State) (as : List Nat) (v f : Nat) : Prop :=
  s.table (tablePath v) ≠ none ∧ (f = bitOf (walk s v) ∨ f = bitOf 0 ∧ Pages as (tablePath v) (ptIndex v))

def Freed (s : State) (vs : List Nat) (f : Nat) : Prop := ∃ as v, as ++ [v] <+: vs ∧ FreedAt s as v f

/-- What the rounds of `page_umapv` over a list of pages have done. -/
structure Unmapped (s t : State) (vs : List Nat) : Prop where
  pmlt4 : t.pmlt4 = s.pmlt4
  table : ∀ p, p.length ≤ 3 → t.table p = s.table p
  bit : ∀ f, Bit t.bitmap f ↔ Bit s.bitmap f ∧ ¬ Freed s vs f
  gone : ∀ p i, p.length = 3 → ¬ (p = windowPath ∧ i = 0) → Pages vs p i → t.entry p i = 0
  kept : ∀ p i, p.length = 3 → ¬ (p = windowPath ∧ i = 0) → ¬ Pages vs p i → t.entry p i = s.entry p i
  window : ∀ f, target (t.mem framePt 0) = some f → target (s.mem framePt 0) = some f ∨ ¬ s.NoTable f

theorem pages_iff {w : Nat} : Pages vs (tablePath w) (ptIndex w) ↔ ∃ v ∈ vs, vpn v = vpn w := by
  constructor
  · rintro ⟨v, hv, hp, hi⟩
    exact ⟨v, hv, ((vpn_eq_iff _ _).mpr ⟨hp, hi⟩).symm⟩
  · rintro ⟨v, hv, h⟩
    obtain ⟨hp, hi⟩ := (vpn_eq_iff _ _).mp h
    exact ⟨v, hv, hp.symm, hi.symm⟩

theorem pages_snoc : Pages (vs ++ [v]) p i ↔ Pages vs p i ∨ Only (tablePath v) (ptIndex v) p i := by
  unfold Pages
  simp only [List.mem_append, List.mem_singleton]
  constructor
  · rintro ⟨w, hw | rfl, h⟩
    · exact .inl ⟨w, hw, h⟩
    · exact .inr h
  · rintro (⟨w, hw, h⟩ | h)
    · exact ⟨w, .inl hw, h⟩
    · exact ⟨v, .inr rfl, h⟩

theorem freed_snoc : Freed s (vs ++ [v]) f ↔ Freed s vs f ∨ FreedAt s vs v f := by
  constructor
  · rintro ⟨as, w, hpre, h⟩
    obtain heq | hpre := List.prefix_concat_iff.mp hpre
    · have hlast := List.append_inj' heq rfl
      rw [List.singleton_inj] at hlast
      rw [hlast.1, hlast.2] at h
      exact .inr h
    · exact .inl ⟨as, w, hpre, h⟩
  · rintro (⟨as, w, hpre, h⟩ | h)
    · exact ⟨as, w, hpre.trans (List.prefix_append vs [v]), h⟩
    · exact ⟨vs, v, List.prefix_rfl, h⟩

theorem Unmapped.nil (s : State) : Unmapped s s [] where
  pmlt4 := rfl
  table _ _ := rfl
  bit _ := (and_iff_left fun ⟨as, v, hpre, _⟩ => by simpa using hpre.length_le).symm
  gone _ _ _ _ := fun ⟨_, hv, _⟩ => absurd hv List.not_mem_nil
  kept _ _ _ _ _ := rfl
  window _ h := .inl h

theorem Unmapped.shape (hs : TreeShaped s) (h : Unmapped s t vs)
    (hfree : ∀ f, Freed s vs f → s.NoTable f ∧ f ≠ bitmapFrame) : TreeShaped t := by
  refine hs.congr h.pmlt4 h.table fun f hf hneed => ⟨hf.1, (h.bit f).mpr ⟨hf.2, fun hc => ?_⟩⟩
  obtain hno | rfl := hneed
  · exact hno (hfree f hc).1
  · exact (hfree _ hc).2 rfl

theorem Unmapped.skip (hs : TreeShaped t) (h : Unmapped s t vs) (hnone : t.table (tablePath v) = none)
    (hk : Keeps t u) (hbit : u.bitmap = t.bitmap)
    (hwin : ∀ f, target (u.mem framePt 0) = some f → target (t.mem framePt 0) = some f ∨ ¬ t.NoTable f) :
    Unmapped s u (vs ++ [v]) where
  pmlt4 := hk.pmlt4.trans h.pmlt4
  table p hp := (hk.table p hp).trans (h.table p hp)
  bit f := by
    rw [h.table _ (length_tablePath v).le] at hnone
    rw [hbit, h.bit f, freed_snoc]
    exact and_congr_right fun _ => not_congr (or_iff_left fun hf => hf.1 hnone).symm
  gone p i hp hwp hr := by
    obtain hr | hr := pages_snoc.mp hr
    · exact (hs.entry_keeps hk hp hwp).trans (h.gone p i hp hwp hr)
    · rw [hs.entry_keeps hk hp hwp, hr.1]
      exact entry_of_none hnone i
  kept p i hp hwp hr :=
    (hs.entry_keeps hk hp hwp).trans (h.kept p i hp hwp fun h => hr (pages_snoc.mpr (.inl h)))
  window f hf := by
    obtain hf | hf := hwin f hf
    · exact h.window f hf
    · refine .inr fun hno => hf fun p hp => ?_
      rw [h.table p hp]
      exact hno p hp

/-- The bits cleared after a round, by the entry it finds: that of a page seen before is zero, and its bit was cleared. -/
theorem Unmapped.freed_snoc (h : Unmapped s t vs) (hw : ¬ OnWindow v) (htable : s.table (tablePath v) ≠ none) :
    Freed s (vs ++ [v]) f ↔ Freed s vs f ∨ f = bitOf (walk t v) := by
  rw [Paging.freed_snoc, FreedAt, and_iff_right htable]
  by_cases hseen : Pages vs (tablePath v) (ptIndex v)
  · have hwalk : walk t v = 0 := h.gone _ _ rfl hw hseen
    rw [hwalk, and_iff_left hseen, ← or_assoc]
    refine or_congr_left (or_iff_left_of_imp ?_)
    rintro rfl
    obtain ⟨w, hwv, hvpn⟩ := pages_iff.mp hseen
    obtain ⟨as, bs, rfl⟩ := List.append_of_mem hwv
    refine ⟨as, w, ⟨bs, by simp⟩, ?_, .inl ?_⟩
    · rw [((vpn_eq_iff _ _).mp hvpn).1]
      exact htable
    · rw [walk_congr hvpn]
  · have hwalk : walk t v = walk s v := h.kept _ _ rfl hw hseen
    rw [hwalk, or_iff_left (fun hf : f = bitOf 0 ∧ _ => hseen hf.2)]

theorem Unmapped.clear (hs : TreeShaped t) (h : Unmapped s t vs) (hw : ¬ OnWindow v)
    (hn : t.table (tablePath v) = some n) (hk : Keeps t u) (hbit : u.bitmap = t.bitmap) :
    Unmapped s (pageUmapframe (pageClearBitmap (u.store n (ptIndex v) 0) (tableAddress (walk t v)))) (vs ++ [v]) := by
  have hu := hs.keeps hk
  have hlen := length_tablePath v
  have hnu : u.table (tablePath v) = some n := (hk.table _ hlen.le).trans hn
  have hat : At 1 u (tablePath v) n := .inl hnu
  obtain ⟨hwritten, hentry⟩ := hat.write hu hlen hw 0
  have htable : ∀ p, p.length ≤ 3 → (pageUmapframe (u.store n (ptIndex v) 0)).table p = s.table p := by
    intro p hp
    exact (hat.table_write hu hlen _ _ hp).trans ((hk.table p hp).trans (h.table p hp))
  refine ⟨hk.pmlt4.trans h.pmlt4, htable, fun f => ?_, fun p i hp hwp hr => ?_, fun p i hp hwp hr => ?_, fun f hf => ?_⟩
  · have hsn : s.table (tablePath v) ≠ none := by
      rw [← h.table _ hlen.le, hn]
      exact Option.some_ne_none n
    refine (bit_pageClearBitmap _ _ f).trans ?_
    rw [bitmap_store, hbit, h.bit f, h.freed_snoc hw hsn, bitOf_tableAddress, not_or]
    exact ⟨fun ⟨h1, h2, h3⟩ => ⟨h2, h3, h1⟩, fun ⟨h1, h2, h3⟩ => ⟨h3, h1, h2⟩⟩
  · show (pageUmapframe (u.store n (ptIndex v) 0)).entry p i = 0
    by_cases hpage : Only (tablePath v) (ptIndex v) p i
    · rw [hpage.1, hpage.2]
      exact hentry (by decide)
    · rw [hwritten.ext.entry p i hp hwp hpage, hs.entry_keeps hk hp hwp]
      exact h.gone p i hp hwp ((pages_snoc.mp hr).resolve_right hpage)
  · show (pageUmapframe (u.store n (ptIndex v) 0)).entry p i = _
    rw [hwritten.ext.entry p i hp hwp fun h => hr (pages_snoc.mpr (.inr h)), hs.entry_keeps hk hp hwp]
    exact h.kept p i hp hwp fun h => hr (pages_snoc.mpr (.inl h))
  · have hf' : target ((pageUmapframe (u.store n (ptIndex v) 0)).mem framePt 0) = some f := hf
    rw [mem_umapframe] at hf'
    cases hf'

theorem Unmapped.snoc (hs : TreeShaped s) (h : Unmapped s t vs) (hw : ¬ OnWindow v)
    (hfree : ∀ f, Freed s vs f → s.NoTable f ∧ f ≠ bitmapFrame) : Unmapped s (umapvPage t v) (vs ++ [v]) := by
  have ht := h.shape hs hfree
  obtain ⟨hnone, hk, hbit, hwin, -⟩ | ⟨n, u, hn, hk, hbit, heq⟩ := umapvPage_cases ht hw
  · exact h.skip ht hnone hk hbit hwin
  · rw [heq]
    exact h.clear ht hw hn hk hbit

theorem Freed.mono {ws : List Nat} (h : Freed s vs f) (hpre : vs <+: ws) : Freed s ws f := by
  obtain ⟨as, v, hv, hf⟩ := h
  exact ⟨as, v, hv.trans hpre, hf⟩

theorem unmapped_foldl (hs : TreeShaped s) (hw : ∀ v ∈ vs, ¬ OnWindow v)
    (hfree : ∀ f, Freed s vs f → s.NoTable f ∧ f ≠ bitmapFrame) : Unmapped s (vs.foldl umapvPage s) vs := by
  induction vs using List.reverseRecOn with
  | nil => exact .nil s
  | append_singleton vs v ih =>
      have hpre : vs <+: vs ++ [v] := List.prefix_append vs [v]
      rw [List.foldl_append]
      apply Unmapped.snoc hs
      · exact ih (fun w hwv => hw w (hpre.subset hwv)) fun f hf => hfree f (hf.mono hpre)
      · exact hw v (List.mem_append_right vs (List.mem_singleton_self v))
      · exact fun f hf => hfree f (hf.mono hpre)

end HaOS.Paging
