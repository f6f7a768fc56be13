import HaOS.Paging.Rounds
import HaOS.Paging.Usage

/-!
# Running out of frames

`page_mapv` and `page_alloc4K` do not look whether `page_getframe` has found a frame.

* `Writes`, `Grows` : what is written names frames that have been granted; one lemma for each operation;
* `Suffices` : there are frames for the tables that are missing and for the pages that have no entry;
* `mapvPage_served` : then a round writes no other entries; `Stuck`, `mapvPage_not_writes` : else it writes one;
* `granted_of_suffices` : in a run of calls that find their frames every entry written names a granted one.
-/

namespace HaOS.Paging
open Lib (Reaches Guarded)

variable {s t u : State} {p : List Index} {i j : Index} {vs : List Nat} {f g n v w addr flags virt phys length : Nat}

/-! ## Entries that are written -/

/-- `page_getframe` has granted the frame on the way from `s` to `t`. -/
def GrantedSince (s t : State) (f : Nat) : Prop := f < frames ∧ ¬ Bit s.bitmap f ∧ Bit t.bitmap f

/-- Every entry, but zero, that is written from `u` to `t`, in place of another or in a frame granted meanwhile, names a
frame granted since `s`. The window's own entry is left out. -/
def Writes (s u t : State) : Prop :=
  ∀ g j, ¬ (g = framePt ∧ j = 0) → t.mem g j ≠ u.mem g j ∨ GrantedSince u t g → t.mem g j ≠ 0 →
    GrantedSince s t (frameOf (t.mem g j))

structure Grows (s t : State) : Prop where
  bit : ∀ f, Bit s.bitmap f → Bit t.bitmap f
  writes : Writes s s t

theorem GrantedSince.mono (h : GrantedSince t u f) (hst : ∀ f, Bit s.bitmap f → Bit t.bitmap f) : GrantedSince s u f :=
  ⟨h.1, mt (hst f) h.2.1, h.2.2⟩

theorem GrantedSince.later (h : GrantedSince s t f) (htu : ∀ f, Bit t.bitmap f → Bit u.bitmap f) : GrantedSince s u f :=
  ⟨h.1, h.2.1, htu f h.2.2⟩

theorem Grows.trans (h : Grows s t) (h' : Grows t u) : Grows s u := by
  refine ⟨fun f hf => h'.bit f (h.bit f hf), fun g j hw hnew h0 => ?_⟩
  by_cases hlast : u.mem g j ≠ t.mem g j ∨ GrantedSince t u g
  · exact (h'.writes g j hw hlast h0).mono h.bit
  · rw [not_or, not_not] at hlast
    obtain ⟨heq, hold⟩ := hlast
    rw [heq] at hnew h0 ⊢
    refine (h.writes g j hw (hnew.imp_right fun hg => ?_) h0).later h'.bit
    exact ⟨hg.1, hg.2.1, not_not.mp fun hb => hold ⟨hg.1, hb, hg.2.2⟩⟩

/-- Where no bit changes and no entry but the window's, nothing is granted or written. -/
theorem Grows.of_mem (hbit : t.bitmap = s.bitmap) (hmem : ∀ g j, ¬ (g = framePt ∧ j = 0) → t.mem g j = s.mem g j) :
    Grows s t := by
  refine ⟨fun f hf => by rwa [hbit], fun g j hw hnew _ => ?_⟩
  obtain hnew | hg := hnew
  · exact absurd (hmem g j hw) hnew
  · have hb := hg.2.2
    rw [hbit] at hb
    exact absurd hb hg.2.1

theorem Grows.refl (s : State) : Grows s s := .of_mem rfl fun _ _ _ => rfl

theorem grows_mapframe (s : State) (addr : Nat) : Grows s (pageMapframe s addr) := by
  refine .of_mem rfl fun g j hw => ?_
  rw [pageMapframe, mem_store, if_neg hw]

theorem grows_umapframe (s : State) : Grows s (pageUmapframe s) := by
  refine .of_mem rfl fun g j hw => ?_
  rw [pageUmapframe, mem_store, if_neg hw]

theorem Granted.grows (h : Granted s t f) : Grows s t := by
  refine ⟨fun g hg => (h.bit g).mpr (.inr hg), fun g j hw hnew h0 => ?_⟩
  -- the frame is zeroed, and nothing else is written
  rw [h.mem, if_neg hw] at hnew h0
  split_ifs at hnew h0 with hgf
  · exact absurd rfl h0
  · obtain hnew | hg := hnew
    · exact absurd rfl hnew
    · exact absurd ((h.bit g).mp hg.2.2) (not_or.mpr ⟨hgf, hg.2.1⟩)

theorem Granted.since (h : Granted s t f) : GrantedSince s t f := ⟨h.lt, h.free, (h.bit f).mpr (.inl rfl)⟩

theorem Grows.store (h : Grows s t) (hf : GrantedSince s t f) (hflags : flags < pageSize) (n : Nat) (i : Index) :
    Grows s (t.store n i (f * pageSize ||| flags)) := by
  refine ⟨h.bit, fun g j hw hnew h0 => ?_⟩
  rw [mem_store] at hnew h0 ⊢
  split_ifs at hnew h0 ⊢
  · rw [frameOf_or hflags, frameOf_mul (Nat.lt_trans hf.1 (by decide))]
    exact hf
  · exact h.writes g j hw hnew h0

theorem grows_rootEntry (hflags : flags < pageSize) (href : (rootEntry s i flags).1.refused = s.refused) :
    Grows s (rootEntry s i flags).1 := by
  unfold rootEntry at href ⊢
  split_ifs at href ⊢ with hpres
  · exact .refl s
  · obtain ⟨f, hf, hframe⟩ := pageGetframe_granted href
    simp only [hframe]
    exact hf.grows.store hf.since hflags _ _

theorem grows_tableEntry (hflags : flags < pageSize) (href : (tableEntry s addr i flags).1.refused = s.refused) :
    Grows s (tableEntry s addr i flags).1 := by
  have hopen := grows_mapframe s addr
  unfold tableEntry at href ⊢
  simp only at href ⊢
  split_ifs at href ⊢ with hpres
  · exact hopen
  · obtain ⟨f, hf, hframe⟩ := pageGetframe_granted (s := pageMapframe s addr) href
    simp only [hframe]
    have hgrant := hopen.trans hf.grows
    have hagain := hgrant.trans (grows_mapframe _ addr)
    exact hagain.store ((hf.since.mono hopen.bit).later (grows_mapframe _ addr).bit) hflags _ _

theorem grows_tablesFor (hflags : flags < pageSize) (href : (tablesFor s virt flags).1.refused = s.refused) :
    Grows s (tablesFor s virt flags).1 := by
  have h1 : s.refused ≤ (rootEntry s (pmlt4Index virt) flags).1.refused := refused_le_rootEntry
  have h2 : (rootEntry s (pmlt4Index virt) flags).1.refused ≤ (tableEntry (rootEntry s (pmlt4Index virt) flags).1
    (rootEntry s (pmlt4Index virt) flags).2 (pdptIndex virt) flags).1.refused := refused_le_tableEntry
  have h3 : _ ≤ (tablesFor s virt flags).1.refused := refused_le_tableEntry
  have hroot := grows_rootEntry (i := pmlt4Index virt) hflags (le_antisymm (href ▸ h2.trans h3) h1)
  have hpdpt := grows_tableEntry (i := pdptIndex virt) hflags (le_antisymm (h3.trans (href.le.trans h1)) h2)
  have hpdt := grows_tableEntry (i := pdtIndex virt) hflags (le_antisymm (href.le.trans (h1.trans h2)) h3)
  exact (hroot.trans hpdpt).trans hpdt

/-! ## The frames that are called for -/

/-- Whether rounds of `page_mapv` find the frames they write entries for: `has` are the tables and `mapped` the pages that
exist, and `free` is the number of free frames. A page with an entry takes a frame as well, if there is one. -/
def Suffices (flags : Nat) : (List Index → Bool) → (Nat → Bool) → Nat → List Nat → Prop
  | _, _, _, [] => True
  | has, mapped, free, v :: vs =>
    missing has (prefixes v) + (if Present flags ∧ mapped v then 0 else 1) ≤ free ∧
      Suffices flags (fun r => has r || decide (Present flags) && decide (r ∈ prefixes v))
        (fun w => mapped w || decide (vpn w = vpn v)) (free - (missing has (prefixes v) + 1)) vs

def State.mapped (s : State) (v : Nat) : Bool := decide (walk s v ≠ 0)

theorem suffices_congr {has has' : List Index → Bool} {mapped mapped' : Nat → Bool} {free : Nat}
    (hhas : ∀ r, r.length ≤ 3 → has r = has' r) (hmapped : Present flags → ∀ v ∈ vs, mapped v = mapped' v) :
    Suffices flags has mapped free vs ↔ Suffices flags has' mapped' free vs := by
  induction vs generalizing has has' mapped mapped' free with
  | nil => exact Iff.rfl
  | cons v vs ih =>
      have hcount : (if Present flags ∧ mapped v then 0 else 1) = if Present flags ∧ mapped' v then 0 else 1 := by
        refine if_congr (and_congr_right fun hp => ?_) rfl rfl
        rw [hmapped hp v List.mem_cons_self]
      unfold Suffices
      rw [missing_congr fun r hr => hhas r (length_prefixes r hr), hcount, ih]
      · intro r hr
        rw [hhas r hr]
      · intro hp w hw
        rw [hmapped hp w (List.mem_cons_of_mem v hw)]

/-- A round of `page_mapv` that finds the frames for what it writes. -/
structure Served (flags : Nat) (s t : State) (v : Nat) : Prop where
  shape : TreeShaped t
  written : ∃ f, t.Marked f ∧ Written flags s t (tablePath v) (ptIndex v) (f * pageSize ||| flags)
  grows : Grows s t
  card : t.free.card = s.free.card - (missing s.has (prefixes v) + 1)
  has : ∀ r, r.length ≤ 3 → t.has r = (s.has r || decide (Present flags) && decide (r ∈ prefixes v))
  mapped : Present flags → walk t v ≠ 0

theorem grows_mapvPage (hflags : flags < pageSize) (htables : (tablesFor s v flags).1.refused = s.refused)
    (hframe : (pageGetframe (tablesFor s v flags).1).1.refused = (tablesFor s v flags).1.refused) :
    Grows s (mapvPage flags s v) := by
  obtain ⟨f, hf, hfa⟩ := pageGetframe_granted hframe
  have hgrant := (grows_tablesFor hflags htables).trans hf.grows
  have hopen := grows_mapframe (pageGetframe (tablesFor s v flags).1).1 (tablesFor s v flags).2
  unfold mapvPage
  simp only
  split_ifs
  · exact hgrant.trans hopen
  · rw [hfa]
    refine ((hgrant.trans hopen).store ?_ hflags _ _).trans (grows_umapframe _)
    exact (hf.since.mono (grows_tablesFor hflags htables).bit).later hopen.bit

theorem served_full (hs : TreeShaped s) (hflags : flags < pageSize) (hw : ¬ OnWindow v) (hp : Present flags)
    (h0 : walk s v ≠ 0) (htables : (tablesFor s v flags).1.refused = s.refused)
    (hframe : (pageGetframe (tablesFor s v flags).1).1.refused ≠ (tablesFor s v flags).1.refused) :
    Served flags s (mapvPage flags s v) v := by
  have hlinked := tablesFor_linked hs hflags htables
  have hsup := tablesFor_supplied hs hflags v
  have hgrows := grows_tablesFor hflags htables
  have hfull : (tablesFor s v flags).1.free = ∅ := free_of_refused hframe
  set u := (tablesFor s v flags).1 with hu
  set ptAddr := (tablesFor s v flags).2 with hpt
  have hnone := pageGetframe_refused hframe
  have hk : Keeps u (pageGetframe u).1 := hlinked.shape.keeps_getframe
  have hk' := hk.trans ((hlinked.shape.keeps hk).mapframe ptAddr)
  have hshape := hlinked.shape.keeps hk'
  have hext := hlinked.ext.trans (hlinked.shape.extends hk')
  have hn := hlinked.place.keeps hlinked.shape hk' (length_tablePath v).le
  have ht : mapvPage flags s v = pageMapframe (pageGetframe u).1 ptAddr := by
    have hwin := hlinked.window_eq hk hw hp
    rw [← hwin] at h0
    simp only [mapvPage, ← hu, ← hpt, ne_eq, h0, not_false_eq_true, if_true]
  have hbitmap : (mapvPage flags s v).bitmap = u.bitmap := by
    rw [ht, hnone]
    rfl
  have hleft := hsup.left htables
  rw [hfull, Finset.card_empty] at hleft
  rw [ht]
  refine ⟨hshape,
    ⟨frameOf ptAddr, hn.marked hshape (length_tablePath v).le, (Written.keep hshape (.inr ?_)).after hext rfl hw⟩,
    hgrows.trans ((Grows.of_mem ?_ fun g j _ => ?_).trans (grows_mapframe _ _)), ?_, fun r hr => ?_, fun _ => ?_⟩
  · rw [windowFrame_mapframe]
    exact hn.marked hshape (length_tablePath v).le
  · rw [hnone]
  · rw [hnone]
  · rw [← ht, free_congr hbitmap, hfull, Finset.card_empty]
    omega
  · rw [State.has, hk'.table r hr]
    exact hsup.has htables r hr
  · have hkept : walk (pageMapframe (pageGetframe u).1 ptAddr) v = walk s v := hext.entry _ _ rfl hw id
    rwa [hkept]

theorem mapvPage_served (hs : TreeShaped s) (hflags : flags < pageSize) (hw : ¬ OnWindow v)
    (h : missing s.has (prefixes v) + (if Present flags ∧ s.mapped v then 0 else 1) ≤ s.free.card) :
    Served flags s (mapvPage flags s v) v := by
  have hsup := tablesFor_supplied hs hflags v
  have htables : (tablesFor s v flags).1.refused = s.refused := hsup.enough.mpr (Nat.le_of_add_right_le h)
  by_cases hframe : (pageGetframe (tablesFor s v flags).1).1.refused = (tablesFor s v flags).1.refused
  · have href : (mapvPage flags s v).refused = s.refused := by
      rw [refused_mapvPage, hframe, htables]
    obtain ⟨f, hf⟩ := mapvPage_spec hs hflags hw href
    have hround : Round flags 1 s (mapvPage flags s v) v := mapvPage_round hs hflags
    have hleft := hround.left href
    refine ⟨hround.shape href, ⟨f, hf.marked, hf.written⟩, grows_mapvPage hflags htables hframe, by omega,
      hround.has href, fun hp => ?_⟩
    rw [hf.walk hp]
    split_ifs with h0
    · exact ne_zero_of_present ((present_or f).mpr hp)
    · exact h0
  · have hleft := hsup.left htables
    rw [free_of_refused hframe, Finset.card_empty] at hleft
    have hmapped : Present flags ∧ s.mapped v := by
      by_contra hno
      rw [if_neg hno] at h
      omega
    exact served_full hs hflags hw hmapped.1 (of_decide_eq_true hmapped.2) htables hframe

theorem Served.mapped_eq (h : Served flags s t v) (hp : Present flags) (hw : ¬ OnWindow w) :
    t.mapped w = (s.mapped w || decide (vpn w = vpn v)) := by
  by_cases heq : vpn w = vpn v
  · have hne : walk t w ≠ 0 := by
      rw [walk_congr heq]
      exact h.mapped hp
    simp [State.mapped, heq, hne]
  · obtain ⟨f, -, hwritten⟩ := h.written
    have hkept : walk t w = walk s w := hwritten.ext.entry _ _ rfl hw fun h => heq ((vpn_eq_iff w v).mpr h)
    simp [State.mapped, heq, hkept]

theorem Served.suffices_iff (h : Served flags s t v) (hw : ∀ w ∈ vs, ¬ OnWindow w) :
    Suffices flags (fun r => s.has r || decide (Present flags) && decide (r ∈ prefixes v))
        (fun w => s.mapped w || decide (vpn w = vpn v)) (s.free.card - (missing s.has (prefixes v) + 1)) vs ↔
      Suffices flags t.has t.mapped t.free.card vs := by
  rw [h.card]
  refine suffices_congr (fun r hr => (h.has r hr).symm) fun hp w hwv => ?_
  exact (h.mapped_eq hp (hw w hwv)).symm

/-! ## A call -/

/-- All rounds from `s` on write entries for frames that have been granted since `s0`. -/
def Rounds (s0 s : State) (flags : Nat) (vs : List Nat) : Prop :=
  ∀ as v, as ++ [v] <+: vs → Writes s0 (as.foldl (mapvPage flags) s) ((as ++ [v]).foldl (mapvPage flags) s)

theorem Grows.writes_after (h : Grows s t) (h' : Writes t t u) : Writes s t u :=
  fun g j hw hnew h0 => (h' g j hw hnew h0).mono h.bit

theorem served_foldl (hs : TreeShaped s) (hflags : flags < pageSize) (hw : ∀ v ∈ vs, ¬ OnWindow v)
    (h : Suffices flags s.has s.mapped s.free.card vs) {t0 : State} (h0 : Grows t0 s) :
    ∀ as v, as ++ [v] <+: vs → Served flags (as.foldl (mapvPage flags) s) ((as ++ [v]).foldl (mapvPage flags) s) v ∧
      Grows t0 (as.foldl (mapvPage flags) s) := by
  induction vs generalizing s with
  | nil =>
      intro as v hpre
      simpa using hpre.length_le
  | cons v vs ih =>
      have hserved := mapvPage_served hs hflags (hw v List.mem_cons_self) h.1
      have hwvs : ∀ w ∈ vs, ¬ OnWindow w := fun w hwv => hw w (List.mem_cons_of_mem v hwv)
      have hrest := ih hserved.shape hwvs ((hserved.suffices_iff hwvs).mp h.2) (h0.trans hserved.grows)
      intro as w hpre
      cases as with
      | nil =>
          obtain rfl : w = v := (List.cons_prefix_cons.mp hpre).1
          exact ⟨hserved, h0⟩
      | cons a as =>
          obtain ⟨rfl, htail⟩ := List.cons_prefix_cons.mp hpre
          exact hrest as w htail

theorem rounds_of_suffices (hs : TreeShaped s) (hflags : flags < pageSize) (hw : ∀ v ∈ vs, ¬ OnWindow v)
    (h : Suffices flags s.has s.mapped s.free.card vs) : Rounds s s flags vs := by
  intro as v hpre
  obtain ⟨hserved, hgrows⟩ := served_foldl hs hflags hw h (.refl s) as v hpre
  exact hgrows.writes_after hserved.grows.writes

theorem shape_of_suffices (hs : TreeShaped s) (hflags : flags < pageSize) (hw : ∀ v ∈ vs, ¬ OnWindow v)
    (h : Suffices flags s.has s.mapped s.free.card vs) : TreeShaped (vs.foldl (mapvPage flags) s) := by
  induction vs generalizing s with
  | nil => exact hs
  | cons v vs ih =>
      have hserved := mapvPage_served hs hflags (hw v List.mem_cons_self) h.1
      have hwvs : ∀ w ∈ vs, ¬ OnWindow w := fun w hwv => hw w (List.mem_cons_of_mem v hwv)
      exact ih hserved.shape hwvs ((hserved.suffices_iff hwvs).mp h.2)

/-! ### `page_alloc4K` -/

/-- A free frame for the page, and one for each table that is missing on the way to it. -/
def SufficesFrame (s : State) : Prop :=
  ∃ f ∈ s.free, (∀ g < f, Bit s.bitmap g) ∧ missing s.has (prefixes (f * pageSize)) + 1 ≤ s.free.card

theorem pageAlloc4K_granted (hs : TreeShaped s) (hflags : flags < pageSize) (h : SufficesFrame s) :
    (pageAlloc4K s flags).1.refused = s.refused := by
  obtain ⟨f, hf, hleast, henough⟩ := h
  have hframe := card_free_pos.mpr (by omega : 1 ≤ s.free.card)
  obtain ⟨g, hg, hga⟩ := pageGetframe_granted hframe
  obtain rfl : g = f := by
    refine le_antisymm (not_lt.mp fun hlt => ?_) (not_lt.mp fun hlt => hg.free (hleast g hlt))
    exact (mem_free.mp hf).2 (pageGetframe_least hga f hlt)
  have hk := hs.granted hg
  have hcard := Finset.card_erase_add_one hf
  have hsup := tablesFor_supplied (hs.keeps hk) hflags (g * pageSize)
  have hhas : missing (pageGetframe s).1.has (prefixes (g * pageSize)) = missing s.has (prefixes (g * pageSize)) := by
    refine missing_congr fun r hr => ?_
    rw [State.has, State.has, hk.table r (length_prefixes r hr)]
  show (tablesFor (pageGetframe s).1 (pageGetframe s).2 flags).1.refused = s.refused
  rw [hga, ← hframe]
  apply hsup.enough.mpr
  rw [hhas, hg.free_eq]
  omega

theorem grows_pageAlloc4K (hflags : flags < pageSize) (href : (pageAlloc4K s flags).1.refused = s.refused) :
    Grows s (pageAlloc4K s flags).1 := by
  have hle1 := refused_le_pageGetframe s
  have hle2 : (pageGetframe s).1.refused ≤ (tablesFor (pageGetframe s).1 (pageGetframe s).2 flags).1.refused :=
    refused_le_tablesFor
  have href2 : (tablesFor (pageGetframe s).1 (pageGetframe s).2 flags).1.refused = s.refused := href
  obtain ⟨f, hf, hframe⟩ := pageGetframe_granted (le_antisymm (hle2.trans href2.le) hle1)
  have htables := grows_tablesFor hflags (href2.trans hf.refused.symm)
  have hopen := htables.trans (grows_mapframe _ (tablesFor (pageGetframe s).1 (pageGetframe s).2 flags).2)
  have ht : (pageAlloc4K s flags).1 = pageUmapframe ((pageMapframe (tablesFor (pageGetframe s).1 (pageGetframe s).2
      flags).1 (tablesFor (pageGetframe s).1 (pageGetframe s).2 flags).2).storeWindow (ptIndex (pageGetframe s).2)
      (f * pageSize ||| flags)) := by
    rw [← hframe]
    rfl
  rw [ht]
  exact ((hf.grows.trans hopen).store (hf.since.later hopen.bit) hflags _ _).trans (grows_umapframe _)

/-! ## An entry for no frame -/

/-- No frame is free, and an entry is all ones. -/
structure Stuck (s : State) (g : Nat) (j : Index) : Prop where
  full : s.free = ∅
  place : ¬ (g = framePt ∧ j = 0)
  entry : s.mem g j = 2 ^ 64 - 1

theorem getframe_full (h : s.free = ∅) :
    (pageGetframe s).1 = { s with refused := s.refused + 1 } ∧ (pageGetframe s).2 = 2 ^ 64 - 1 := by
  obtain ⟨f, hf, -⟩ | ⟨href, hframe⟩ := pageGetframe_cases s
  · have hmem := hf.mem_free
    rw [h] at hmem
    exact absurd hmem (Finset.notMem_empty f)
  · exact ⟨pageGetframe_refused (by omega), hframe⟩

theorem allOnes_or (hflags : flags < pageSize) : 2 ^ 64 - 1 ||| flags = 2 ^ 64 - 1 := by
  refine le_antisymm (Nat.le_of_lt_succ ?_) Nat.left_le_or
  exact @Nat.or_lt_two_pow (2 ^ 64 - 1) flags 64 (by decide) (hflags.trans (by decide))

theorem Stuck.of_mem (h : Stuck s g j) (hbit : t.bitmap = s.bitmap)
    (hmem : ¬ (g = framePt ∧ j = 0) → t.mem g j = s.mem g j) : Stuck t g j :=
  ⟨(free_congr hbit).trans h.full, h.place, (hmem h.place).trans h.entry⟩

theorem Stuck.mapframe (h : Stuck s g j) (addr : Nat) : Stuck (pageMapframe s addr) g j :=
  h.of_mem rfl fun hw => by rw [pageMapframe, mem_store, if_neg hw]

theorem Stuck.umapframe (h : Stuck s g j) : Stuck (pageUmapframe s) g j :=
  h.of_mem rfl fun hw => by rw [pageUmapframe, mem_store, if_neg hw]

theorem Stuck.getframe (h : Stuck s g j) : Stuck (pageGetframe s).1 g j := by
  rw [(getframe_full h.full).1]
  exact h.of_mem rfl fun _ => rfl

/-- What is written goes to an entry that is zero, or not present. -/
theorem Stuck.store (h : Stuck s g j) (hne : s.mem n i ≠ 2 ^ 64 - 1) (e : Nat) : Stuck (s.store n i e) g j := by
  refine h.of_mem rfl fun _ => ?_
  rw [mem_store, if_neg]
  rintro ⟨rfl, rfl⟩
  exact hne h.entry

/-- The entry stays when the walk goes on. -/
theorem Stuck.tableEntry (h : Stuck s g j) (addr : Nat) (i : Index) : Stuck (tableEntry s addr i flags).1 g j := by
  unfold Paging.tableEntry
  simp only
  split_ifs with hpres
  · exact h.mapframe addr
  · have hopen := (h.mapframe addr).getframe.mapframe addr
    have hnone := (getframe_full (h.mapframe addr).full).1
    refine hopen.store ?_ _
    rw [windowFrame_mapframe]
    intro hones
    apply hpres
    have hsame : (pageMapframe s addr).window i = 2 ^ 64 - 1 := by
      rw [State.window, windowFrame_mapframe, ← hones, hnone]
      by_cases hw : frameOf addr = framePt ∧ i = 0
      · rw [pageMapframe, pageMapframe, mem_store, mem_store, if_pos hw, if_pos hw]
      · rw [pageMapframe, pageMapframe, mem_store, mem_store, if_neg hw, if_neg hw, mem_store, if_neg hw]
    rw [hsame]
    decide

theorem Stuck.mapvPage (h : Stuck (tablesFor s v flags).1 g j) : Stuck (mapvPage flags s v) g j := by
  unfold Paging.mapvPage
  simp only
  split_ifs with hzero
  · exact h.getframe.mapframe _
  · refine ((h.getframe.mapframe _).store ?_ _).umapframe
    rw [State.window, not_not] at hzero
    rw [hzero]
    decide

theorem rootEntry_stuck (hs : TreeShaped s) (hflags : flags < pageSize)
    (href : (rootEntry s i flags).1.refused ≠ s.refused) : Stuck (rootEntry s i flags).1 s.root i := by
  have hat : At flags s [] s.root := .inl rfl
  have hroot : s.root ≠ framePt := hat.ne_framePt hs (by decide)
  unfold rootEntry at href ⊢
  split_ifs at href ⊢ with hpres
  · exact absurd rfl href
  · have hfull : s.free = ∅ := free_of_refused href
    obtain ⟨hnone, hframe⟩ := getframe_full hfull
    simp only [hnone, hframe]
    refine ⟨hfull, fun h => hroot h.1, ?_⟩
    rw [allOnes_or hflags, mem_store, if_pos]
    exact ⟨rfl, rfl⟩

theorem tableEntry_stuck (hflags : flags < pageSize) (hne : frameOf addr ≠ framePt)
    (href : (tableEntry s addr i flags).1.refused ≠ s.refused) : Stuck (tableEntry s addr i flags).1 (frameOf addr) i := by
  unfold tableEntry at href ⊢
  simp only at href ⊢
  split_ifs at href ⊢ with hpres
  · exact absurd rfl href
  · have hfull : (pageMapframe s addr).free = ∅ := free_of_refused href
    obtain ⟨hnone, hframe⟩ := getframe_full hfull
    simp only [hnone, hframe]
    refine ⟨hfull, fun h => hne h.1, ?_⟩
    rw [State.storeWindow, windowFrame_mapframe, allOnes_or hflags, mem_store, if_pos]
    exact ⟨rfl, rfl⟩

/-- The entry has been written since `s`: in a table of `s` it was another, and other tables have been granted since. -/
theorem Stuck.not_writes (h : Stuck t n j) (hs : TreeShaped s) (hp : Present flags) (hlinked : Linked flags s u p n)
    (hlen : p.length ≤ 3) (hleaf : p.length = 3 → s.entry p j = 0) (s0 : State) : ¬ Writes s0 s t := by
  intro hwrites
  have hn : u.table p = some n := hlinked.place.resolve_right fun h => h.1 hp
  have hlt : n < frames := (hlinked.shape.marked p n hlen hn).1
  have hbit : Bit t.bitmap n := by
    by_contra hfree
    have hmem : n ∈ t.free := mem_free.mpr ⟨hlt, hfree⟩
    rw [h.full] at hmem
    exact Finset.notMem_empty n hmem
  have hgranted := hwrites n j h.place ?_ ?_
  · rw [h.entry] at hgranted
    exact absurd hgranted.1 (by decide)
  · by_cases hold : s.table p = some n
    · left
      rw [h.entry]
      intro hones
      obtain hshort | hdeep := Nat.lt_or_eq_of_le hlen
      · have hchild := table_present (i := j) hold (by rw [← hones]; decide)
        have hmarked := hs.marked _ _ (by rw [List.length_append]; exact hshort) hchild
        rw [← hones] at hmarked
        exact absurd hmarked.1 (by decide)
      · have hzero := hleaf hdeep
        rw [entry_of_table hold, ← hones] at hzero
        exact absurd hzero (by decide)
    · exact .inr ⟨hlt, (hlinked.ext.fresh p n hlen hn).resolve_left hold, hbit⟩
  · rw [h.entry]
    decide

/-- A walk that runs out of frames writes an entry of ones. -/
theorem tablesFor_not_writes (hs : TreeShaped s) (hflags : flags < pageSize) (hp : Present flags)
    (href : (tablesFor s v flags).1.refused ≠ s.refused) (s0 : State) : ¬ Writes s0 s (mapvPage flags s v) := by
  have hlen1 : [pmlt4Index v].length < 3 := Nat.lt_of_succ_lt (Nat.lt_succ_self 2)
  have hlen2 : ([pmlt4Index v] ++ [pdptIndex v]).length < 3 := Nat.lt_succ_self 2
  by_cases h1 : (rootEntry s (pmlt4Index v) flags).1.refused = s.refused
  · have hl1 := (rootEntry_visit hs hflags).linked hs hflags (by decide) (.inl rfl : At flags s [] s.root) h1
    by_cases h2 : (tableEntry (rootEntry s (pmlt4Index v) flags).1 (rootEntry s (pmlt4Index v) flags).2 (pdptIndex v)
        flags).1.refused = (rootEntry s (pmlt4Index v) flags).1.refused
    · have hl2 := (tableEntry_visit hl1.shape hflags hlen1 hl1.place).linked hl1.shape hflags hlen1 hl1.place h2
      have h3 : (tablesFor s v flags).1.refused ≠ (tableEntry (rootEntry s (pmlt4Index v) flags).1
          (rootEntry s (pmlt4Index v) flags).2 (pdptIndex v) flags).1.refused := by
        rw [h2, h1]
        exact href
      have hstuck := tableEntry_stuck (i := pdtIndex v) hflags (hl2.place.ne_framePt hl2.shape hlen2) h3
      exact (Stuck.mapvPage hstuck).not_writes hs hp (hl1.trans hl2) hlen2.le (fun h => absurd h hlen2.ne) s0
    · have hstuck := tableEntry_stuck (i := pdptIndex v) hflags (hl1.place.ne_framePt hl1.shape hlen1) h2
      exact (Stuck.mapvPage (hstuck.tableEntry _ _)).not_writes hs hp hl1 hlen1.le (fun h => absurd h hlen1.ne) s0
  · have hpdpt : Stuck (tableEntry (rootEntry s (pmlt4Index v) flags).1 (rootEntry s (pmlt4Index v) flags).2 (pdptIndex v)
        flags).1 s.root (pmlt4Index v) := (rootEntry_stuck hs hflags h1).tableEntry _ _
    have hstuck : Stuck (tablesFor s v flags).1 s.root (pmlt4Index v) := hpdpt.tableEntry _ _
    have hroot : Linked flags s s [] s.root := ⟨hs, .refl s, .inl rfl⟩
    exact (Stuck.mapvPage hstuck).not_writes hs hp hroot (by decide) (fun h => absurd h (by decide)) s0

/-- So does a round that runs out of frames at a page without an entry. -/
theorem mapvPage_not_writes (hs : TreeShaped s) (hflags : flags < pageSize) (hw : ¬ OnWindow v) (hp : Present flags)
    (h : ¬ missing s.has (prefixes v) + (if Present flags ∧ s.mapped v then 0 else 1) ≤ s.free.card) (s0 : State) :
    ¬ Writes s0 s (mapvPage flags s v) := by
  by_cases htables : (tablesFor s v flags).1.refused = s.refused
  · have hsup := tablesFor_supplied hs hflags v
    have henough := hsup.enough.mp htables
    have hleft := hsup.left htables
    have hunmapped : ¬ (Present flags ∧ s.mapped v) := by
      intro hmapped
      rw [if_pos hmapped] at h
      exact h henough
    rw [if_neg hunmapped] at h
    have h0 : walk s v = 0 := by
      by_contra hne
      exact hunmapped ⟨hp, decide_eq_true hne⟩
    have hfull : (tablesFor s v flags).1.free = ∅ := by
      rw [← Finset.card_eq_zero]
      omega
    obtain ⟨hnone, hframe⟩ := getframe_full hfull
    have hlinked := tablesFor_linked hs hflags htables
    have hk : Keeps (tablesFor s v flags).1 (pageGetframe (tablesFor s v flags).1).1 := hlinked.shape.keeps_getframe
    have hwin : (pageMapframe (pageGetframe (tablesFor s v flags).1).1 (tablesFor s v flags).2).window (ptIndex v) = 0 :=
      (hlinked.window_eq hk hw hp).trans h0
    have hplace : ¬ (frameOf (tablesFor s v flags).2 = framePt ∧ ptIndex v = 0) := by
      rintro ⟨hframe, hi⟩
      have hn := hlinked.place.resolve_right fun h => h.1 hp
      rw [hframe] at hn
      exact hw ⟨hlinked.shape.path_eq (length_tablePath v).le (by decide) hn hlinked.shape.window, hi⟩
    have hstuck : Stuck (mapvPage flags s v) (frameOf (tablesFor s v flags).2) (ptIndex v) := by
      unfold mapvPage
      simp only [hwin, ne_eq, not_true_eq_false, if_false, hframe, State.storeWindow, windowFrame_mapframe]
      refine Stuck.umapframe ⟨?_, hplace, ?_⟩
      · rw [hnone]
        exact hfull
      · rw [mem_store, if_pos ⟨rfl, rfl⟩, allOnes_or hflags]
    exact hstuck.not_writes hs hp hlinked (length_tablePath v).le (fun _ => h0) s0
  · exact tablesFor_not_writes hs hflags hp htables s0

theorem suffices_of_rounds (hs : TreeShaped s) (hflags : flags < pageSize) (hw : ∀ v ∈ vs, ¬ OnWindow v)
    (hp : Present flags) {s0 : State} (h : Rounds s0 s flags vs) : Suffices flags s.has s.mapped s.free.card vs := by
  induction vs generalizing s with
  | nil => exact trivial
  | cons v vs ih =>
      have hfirst := h [] v ⟨vs, rfl⟩
      have hcount := not_not.mp fun hshort =>
        mapvPage_not_writes hs hflags (hw v List.mem_cons_self) hp hshort s0 hfirst
      have hserved := mapvPage_served hs hflags (hw v List.mem_cons_self) hcount
      have hwvs : ∀ w ∈ vs, ¬ OnWindow w := fun w hwv => hw w (List.mem_cons_of_mem v hwv)
      refine ⟨hcount, (hserved.suffices_iff hwvs).mpr (ih hserved.shape hwvs fun as w hpre => ?_)⟩
      exact h (v :: as) w (List.cons_prefix_cons.mpr ⟨rfl, hpre⟩)

/-- With present entries a call writes entries for granted frames only exactly when it finds its frames. -/
theorem rounds_iff (hs : TreeShaped s) (hflags : flags < pageSize) (hw : ∀ v ∈ vs, ¬ OnWindow v) (hp : Present flags) :
    Rounds s s flags vs ↔ Suffices flags s.has s.mapped s.free.card vs :=
  ⟨suffices_of_rounds hs hflags hw hp, rounds_of_suffices hs hflags hw⟩

/-! ## Runs -/

/-- The ranges lie outside of the window. -/
def Call.Provided : Call → Prop
  | .mapv virt length _ | .umapv virt length | .mapvp virt _ length _ => OutsideWindow virt length
  | .alloc4K _ => True

/-- The entries of the range name frames that the bitmap has bits for, and that hold neither a table nor the bitmap. -/
def Harmless (s : State) (virt length : Nat) : Prop :=
  ∀ f, Cleared s virt (rounds length) f → f < frames ∧ s.NoTable f ∧ f ≠ bitmapFrame

/-- The frames that the call writes entries for are there; an unmapped range releases no table. -/
def Call.Suffices (s : State) : Call → Prop
  | .mapv virt length flags =>
    flags < pageSize ∧ Paging.Suffices flags s.has s.mapped s.free.card (pageList virt length)
  | .mapvp virt _ length flags => flags < pageSize ∧ needed flags 0 s.has (pageList virt length) ≤ s.free.card
  | .umapv virt length => Harmless s virt length
  | .alloc4K flags => flags < pageSize ∧ SufficesFrame s

def PlainStep (s : State) (c : Call) (t : State) : Prop := c.Provided ∧ t = c.run s

/-- Every entry that the call writes names a frame granted in the call. -/
def Call.WritesGranted (s : State) : Call → Prop
  | .mapv virt length flags => Rounds s s flags (pageList virt length)
  | .alloc4K flags => Writes s s (pageAlloc4K s flags).1
  | _ => True

theorem OutsideWindow.pages (h : OutsideWindow virt length) : ∀ v ∈ pageList virt length, ¬ OnWindow v := by
  intro v hv
  obtain ⟨k, hk, rfl⟩ := List.mem_map.mp hv
  exact not_onWindow (h k (List.mem_range.mp hk))

theorem Harmless.shape (h : Harmless s virt length) (hs : TreeShaped s) (hout : OutsideWindow virt length) :
    TreeShaped (pageUmapv s virt length) := by
  have hfree : ∀ f, Freed s (pageList virt length) f → s.NoTable f ∧ f ≠ bitmapFrame := fun f hf =>
    (h f (freed_range.mp hf)).2
  rw [pageUmapv_eq]
  exact (unmapped_foldl hs (OutsideWindow.pages hout) hfree).shape hs hfree

theorem shape_run (hs : TreeShaped s) {c : Call} (hc : c.Provided) (hsuf : c.Suffices s) : TreeShaped (c.run s) := by
  cases c with
  | mapv virt length flags =>
      show TreeShaped (pageMapv s virt length flags)
      rw [pageMapv_eq]
      exact shape_of_suffices hs hsuf.1 (OutsideWindow.pages hc) hsuf.2
  | mapvp virt phys length flags =>
      refine forPages_invariant (fun _ _ => refused_le_mapvpPage) (fun i hi u hu hr => ?_) hs
        ((enough_pageMapvp hs hsuf.1 (OutsideWindow.pages hc)).mpr hsuf.2)
      exact (mapvpPage_spec hu hsuf.1 (not_onWindow (hc i hi)) hr).written.shape
  | umapv => exact Harmless.shape hsuf hs hc
  | alloc4K flags =>
      obtain ⟨f, -, hf⟩ := pageAlloc4K_spec hs hsuf.1 (pageAlloc4K_granted hs hsuf.1 hsuf.2)
      exact hf.written.shape

theorem writesGranted (hs : TreeShaped s) {c : Call} (hc : c.Provided) (hsuf : c.Suffices s) : c.WritesGranted s := by
  cases c with
  | mapv => exact rounds_of_suffices hs hsuf.1 (OutsideWindow.pages hc) hsuf.2
  | alloc4K => exact (grows_pageAlloc4K hsuf.1 (pageAlloc4K_granted hs hsuf.1 hsuf.2)).writes
  | mapvp => exact trivial
  | umapv => exact trivial

/-- In every run of calls that find their frames, from the tables of the loader, every entry that the next such call writes
names a frame that it has been granted. -/
theorem granted_of_suffices (mem : Nat → Index → Nat) {kernelSize fontData : Nat}
    (hkernel : 0x100000 + kernelSize ≤ frames * pageSize) (hfont : fontData + 0x2000 ≤ frames * pageSize)
    (href : (bootState mem kernelSize fontData).refused = 0)
    (hs : Reaches (Guarded (fun s c => Call.Suffices s c) PlainStep) (bootState mem kernelSize fontData) s) {c : Call}
    (hc : c.Provided) (hsuf : c.Suffices s) : c.WritesGranted s := by
  have hshape : TreeShaped s := by
    refine hs.invariant (fun u d v hu hstep => ?_) (used_bootState mem hkernel hfont href).shape
    obtain ⟨hd, hprovided, rfl⟩ := hstep
    exact shape_run hu hprovided hd
  exact writesGranted hshape hc hsuf

/-- The next page at 4 MB. -/
theorem granted_of_suffices_smallBoot : Call.WritesGranted smallBoot (.mapv 0x400000 0x1000 3) := by
  have hshape : TreeShaped smallBoot :=
    (used_bootState (fun _ _ => 0) (by decide) (by decide) (by decide +kernel)).shape
  have hout := outsideWindow_page (by decide : 0x400000 < 0x3fe00000)
  refine granted_of_suffices (fun _ _ => 0) (by decide) (by decide) (by decide +kernel) (Lib.Reaches.refl smallBoot)
    hout ⟨by decide, ?_⟩
  have hflags : 3 < pageSize := by decide
  have henough : needed 3 1 smallBoot.has (pageList 0x400000 0x1000) ≤ smallBoot.free.card :=
    (enough_pageMapv hshape hflags).1.mp (by decide +kernel)
  have hlist : pageList 0x400000 0x1000 = [0x400000] := by decide
  rw [hlist] at henough ⊢
  exact ⟨(Nat.add_le_add_left (by split_ifs <;> decide) _).trans henough, trivial⟩

/-! ## 256 MB -/

theorem length_le_of_suffices {has : List Index → Bool} {mapped : Nat → Bool} {free : Nat}
    (h : Suffices flags has mapped free vs) (hmapped : ∀ v ∈ vs, mapped v = false)
    (hpair : vs.Pairwise fun v w => vpn v ≠ vpn w) : vs.length ≤ free := by
  induction vs generalizing has mapped free with
  | nil => exact Nat.zero_le free
  | cons v vs ih =>
      obtain ⟨hcount, hrest⟩ := h
      obtain ⟨hv, hpair⟩ := List.pairwise_cons.mp hpair
      rw [hmapped v List.mem_cons_self, if_neg (fun h => Bool.false_ne_true h.2)] at hcount
      have hle := ih hrest (fun w hw => ?_) hpair
      · rw [List.length_cons]
        omega
      · rw [hmapped w (List.mem_cons_of_mem v hw), Bool.false_or, decide_eq_false_iff_not]
        exact (hv w hw).symm

theorem not_rounds (hs : TreeShaped s) (hflags : flags < pageSize) (hw : ∀ v ∈ vs, ¬ OnWindow v) (hp : Present flags)
    (hmapped : ∀ v ∈ vs, s.mapped v = false) (hpair : vs.Pairwise fun v w => vpn v ≠ vpn w)
    (hlen : frames < vs.length) : ¬ Rounds s s flags vs := by
  intro h
  have hle := length_le_of_suffices (suffices_of_rounds hs hflags hw hp h) hmapped hpair
  have hfree : s.free.card ≤ frames := (Finset.card_filter_le _ _).trans (Finset.card_range frames).le
  omega

theorem pmlt4Index_far (h : v ∈ pageList 0x8000000000 0x10000000) : pmlt4Index v = 1 := by
  have hrounds : rounds 0x10000000 = 65536 := by decide
  rw [pageList, hrounds, pageAt_list (by decide)] at h
  obtain ⟨i, hi, rfl⟩ := List.mem_map.mp h
  have hlt := List.mem_range.mp hi
  rw [Fin.ext_iff, pmlt4Index, index_val, qword_of_lt (by unfold pageSize; omega)]
  show (0x8000000000 + i * 0x1000) / 2 ^ 39 % 512 = 1
  omega

/-- 256 MB are more than there are frames: the call writes an entry for no frame. -/
theorem not_granted_smallBoot :
    ¬ ∀ s, Reaches PlainStep smallBoot s → ∀ c : Call, c.Provided → c.WritesGranted s := by
  intro h
  have hshape : TreeShaped smallBoot :=
    (used_bootState (fun _ _ => 0) (by decide) (by decide) (by decide +kernel)).shape
  have hrounds : rounds 0x10000000 = 65536 := by decide
  have hfar : ∀ v ∈ pageList 0x8000000000 0x10000000, tablePath v ≠ windowPath := by
    intro v hv heq
    have hhead : pmlt4Index v = 0 := (List.cons.inj heq).1
    rw [pmlt4Index_far hv] at hhead
    exact absurd hhead (by decide)
  have hunmapped : ∀ v ∈ pageList 0x8000000000 0x10000000, smallBoot.mapped v = false := by
    intro v hv
    have hnone : smallBoot.table [1] = none := by decide +kernel
    have hwalk : walk smallBoot v = 0 := by
      refine entry_of_none ?_ _
      rw [tablePath, pmlt4Index_far hv]
      exact table_append_none hnone [pdptIndex v, pdtIndex v]
    rw [State.mapped, hwalk]
    rfl
  have hout : OutsideWindow 0x8000000000 0x10000000 := fun i hi =>
    hfar _ (List.mem_map_of_mem (List.mem_range.mpr hi))
  have hpair : (pageList 0x8000000000 0x10000000).Pairwise fun v w => vpn v ≠ vpn w := by
    rw [pageList, hrounds]
    exact pairwise_range (by decide)
  have hlen : frames < (pageList 0x8000000000 0x10000000).length := by
    rw [pageList, List.length_map, List.length_range, hrounds]
    decide
  refine not_rounds hshape (by decide) (OutsideWindow.pages hout) (by decide : Present 3) hunmapped hpair hlen ?_
  exact h smallBoot (.refl smallBoot) (.mapv 0x8000000000 0x10000000 3) hout

end HaOS.Paging
