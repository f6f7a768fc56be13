import HaOS.Paging.Boot

/-!
# Calls of `page_mapvp` in the boot stage

* `Shaped` : the tables lie apart from the bitmap, and the first frames are marked; `shaped_stageTables` : so it is after
  `page_init`;
* `pages_granted` : the calls that get their frames are not too long; `granted_iff` : those are the calls with room for
  their tables;
* `pageMapvp_walk` : the entries after a call; `pageMapvp_bit` : the bits;
* `Call`, `CallStep` : the calls of the boot stage; `sets_reaches` : no call clears a bit; `shaped_reaches` : the tables
  keep their shape.
-/

namespace HaOS.Paging.Boot
open Lib (Reaches)
open Lib.Radix (IsTree)

variable {s t u : State} {x : Fill} {f g n v w flags virt phys length last : Nat}

/-! ## The shape of the tables -/

/-- The tables are found along one path each, apart from the bitmap, and are marked, as the first frames are. -/
structure Shaped (s : State) : Prop extends Based s where
  tree : IsTree (child s.mem) s.root 3
  marked : ∀ p f, p.length ≤ 3 → s.table p = some f → s.Marked f
  window : s.table windowPath = some framePt
  bitmap : s.NoTable bitmapFrame

theorem Based.marked_place (h : Based s) (hf : s.Marked f) : (kernelPlace.state s).Marked (kernelPlace.place f) := by
  unfold State.Marked
  rw [Renaming.bitmap_state]
  by_cases hr : 1 ≤ f ∧ f ≤ 6
  · have hlow := lower_reserved hr
    exact ⟨Nat.lt_of_le_of_lt hlow.2 (by decide), h.reserved _ hlow.1 hlow.2⟩
  · rw [place_of_free hr]
    exact hf

theorem Shaped.treeShaped (h : Shaped s) : TreeShaped (kernelPlace.state s) where
  tree := by
    rw [Renaming.root_state]
    exact h.tree.map kernelPlace.place.injective (kernelPlace.child_state s)
  marked p f hp hf := by
    rw [Renaming.table_state, Option.map_eq_some_iff] at hf
    obtain ⟨g, hg, rfl⟩ := hf
    exact h.toBased.marked_place (h.marked p g hp hg)
  window := (kernelPlace.table_state_eq s windowPath framePt).mpr h.window
  bitmap := by
    refine ⟨⟨by decide, ?_⟩, fun p hp hf => ?_⟩
    · rw [Renaming.bitmap_state]
      exact h.reserved 6 (by decide) (by decide)
    · exact h.bitmap p hp ((kernelPlace.table_state_eq s p bitmapFrame).mp hf)

theorem shaped_of_treeShaped (h : TreeShaped (kernelPlace.state s)) (hb : Based s) : Shaped s where
  toBased := hb
  tree p q f hp hq hpf hqf := h.path_eq hp hq ((kernelPlace.table_state_eq s p f).mpr hpf)
    ((kernelPlace.table_state_eq s q f).mpr hqf)
  marked p f hp hf := by
    have hm := h.marked p _ hp ((kernelPlace.table_state_eq s p f).mpr hf)
    by_cases hr : 1 ≤ f ∧ f ≤ 6
    · exact ⟨Nat.lt_of_le_of_lt hr.2 (by decide), hb.reserved f hr.1 hr.2⟩
    · unfold State.Marked at hm
      rwa [place_of_free hr, Renaming.bitmap_state] at hm
  window := (kernelPlace.table_state_eq s windowPath framePt).mp h.window
  bitmap p hp hf := h.bitmap.2 p hp ((kernelPlace.table_state_eq s p bitmapFrame).mpr hf)

/-! ## A call -/

def firstFills (virt phys flags n : Nat) : List Fill :=
  (List.range n).map fun i => fill flags (pageAt virt i) (pageAt phys i)

def fills (virt phys length flags : Nat) : List Fill := firstFills virt phys flags (pages length)

theorem state_foldl (h : Based s) (flags virt phys : Nat) (l : List Nat) :
    kernelPlace.state (l.foldl (fun s i => mapvpPage flags s (pageAt virt i) (pageAt phys i)) s) =
      fillPages 3 (kernelPlace.state s) (l.map fun i => fill flags (pageAt virt i) (pageAt phys i)) := by
  induction l generalizing s with
  | nil => rfl
  | cons i l ih =>
      rw [List.foldl_cons, List.map_cons, fillPages_cons, ih (h.sets (sets_mapvpPage flags s _ _)), state_mapvpPage h]

theorem state_pageMapvp (h : Based s) (virt phys length flags : Nat) :
    kernelPlace.state (pageMapvp s virt phys length flags) =
      fillPages 3 (kernelPlace.state s) (fills virt phys length flags) := by
  rw [pageMapvp, forPages_eq_foldl]
  exact state_foldl h flags virt phys (List.range (pages length))

theorem mem_firstFills : x ∈ firstFills virt phys flags n ↔ ∃ i < n, fill flags (pageAt virt i) (pageAt phys i) = x := by
  simp only [firstFills, List.mem_map, List.mem_range]

theorem mem_fills : x ∈ fills virt phys length flags ↔
    ∃ i < pages length, fill flags (pageAt virt i) (pageAt phys i) = x := mem_firstFills

theorem refused_fills (h : Based s) (href : (pageMapvp s virt phys length flags).refused = s.refused) :
    (fillPages 3 (kernelPlace.state s) (fills virt phys length flags)).refused = (kernelPlace.state s).refused := by
  rw [← state_pageMapvp h, Renaming.refused_state, Renaming.refused_state]
  exact href

theorem pageMapvp_grew (h : Shaped s) (href : (pageMapvp s virt phys length flags).refused = s.refused) :
    Grew 3 (kernelPlace.state s) (kernelPlace.state (pageMapvp s virt phys length flags))
      (fills virt phys length flags) := by
  rw [state_pageMapvp h.toBased]
  exact fillPages_grew h.treeShaped (by decide) (by decide) (refused_fills h.toBased href)

theorem plain_state : Plain (kernelPlace.state s) ↔ Plain s := by
  unfold Plain
  simp only [Renaming.entry_state, Renaming.present_entry, large_congr (kernelPlace.entry_mod _)]

/-- New tables get the bits 0 and 1 only, whatever the flags are. -/
theorem pageMapvp_plain (h : Shaped s) (href : (pageMapvp s virt phys length flags).refused = s.refused) (hs : Plain s) :
    Plain (pageMapvp s virt phys length flags) := by
  have hgrown := fillPages_grown h.treeShaped (by decide) (refused_fills h.toBased href)
  rw [← state_pageMapvp h.toBased] at hgrown
  exact plain_state.mp ((plain_state.mpr hs).grown hgrown (by decide))

/-- Rounds that get their frames have a page table for each page, and so are not more than `2 ^ 24`. -/
theorem rounds_le (h : Shaped s)
    (href : (fillPages 3 (kernelPlace.state s) (firstFills virt phys flags n)).refused = (kernelPlace.state s).refused) :
    n ≤ 2 ^ 24 := by
  have hgrew := fillPages_grew h.treeShaped (by decide) (by decide) href
  have hfound : ∀ i < n, ∃ f, (fillPages 3 (kernelPlace.state s) (firstFills virt phys flags n)).table
      (tablePath (qword (virt + i * pageSize))) = some f := by
    intro i hi
    obtain ⟨f, hf⟩ := hgrew.found (fill flags (pageAt virt i) (pageAt phys i)) (mem_firstFills.mpr ⟨i, hi, rfl⟩)
    exact ⟨f, hf⟩
  have hle := pages_le hgrew.shape hfound
  unfold frames pageBitmapSize at hle
  omega

theorem pages_granted (h : Shaped s) (href : (pageMapvp s virt phys length flags).refused = s.refused) :
    pages length ≤ 2 ^ 24 := by
  have hfills := refused_fills h.toBased href
  rw [fills] at hfills
  exact rounds_le h hfills

theorem pages_eq (h : pages length ≤ 2 ^ 24) : pages length = length / pageSize + 1 := by
  unfold pages qword pageSize at *
  split_ifs at * <;> omega

theorem vpn_pageAt (virt i : Nat) : vpn (pageAt virt i) = (virt / pageSize + i) % 2 ^ 36 := by
  unfold vpn pageAt qword pageSize
  omega

theorem pageAt_inj (virt : Nat) {i j : Nat} (hi : i < 2 ^ 36) (hj : j < 2 ^ 36)
    (h : vpn (pageAt virt i) = vpn (pageAt virt j)) : i = j := by
  rw [vpn_pageAt, vpn_pageAt] at h
  omega

theorem pairwise_firstFills (virt phys flags : Nat) (h : n ≤ 2 ^ 36) :
    (firstFills virt phys flags n).Pairwise fun x y => vpn x.virt ≠ vpn y.virt := by
  rw [firstFills, List.pairwise_map]
  refine List.pairwise_lt_range.imp_of_mem fun {i j} hi hj hij heq => ?_
  have hi' := List.mem_range.mp hi
  have hj' := List.mem_range.mp hj
  have hij' : i = j := pageAt_inj virt (by omega) (by omega) heq
  omega

theorem blank_state (v : Nat) : Blank (kernelPlace.state s) v ↔ Blank s v := by
  unfold Blank
  rw [Renaming.walk_state, Renaming.entry_eq_zero]

theorem pageMapvp_walk (h : Shaped s) (href : (pageMapvp s virt phys length flags).refused = s.refused)
    (hw : ¬ OnWindow w) :
    (∀ i < pages length, vpn w = vpn (pageAt virt i) → walk s w = 0 →
        walk (pageMapvp s virt phys length flags) w = pageAt phys i ||| flags) ∧
      ((∀ i < pages length, vpn w = vpn (pageAt virt i) → walk s w ≠ 0) →
        walk (pageMapvp s virt phys length flags) w = walk s w) := by
  have hle := pages_granted h href
  have hsame : ∀ x ∈ fills virt phys length flags, ∀ y ∈ fills virt phys length flags, vpn x.virt = vpn y.virt →
      x.entry = y.entry := by
    intro x hx y hy heq
    obtain ⟨i, hi, rfl⟩ := mem_fills.mp hx
    obtain ⟨j, hj, rfl⟩ := mem_fills.mp hy
    rw [pageAt_inj virt (by omega) (by omega) heq]
  obtain ⟨hnew, hold⟩ := fillPages_walk h.treeShaped (by decide) (by decide) (refused_fills h.toBased href) hsame hw
  rw [← state_pageMapvp h.toBased, Renaming.walk_state, Renaming.walk_state] at hnew hold
  refine ⟨fun i hi heq h0 => ?_, fun hne => ?_⟩
  · apply kernelPlace.entry_injective
    exact hnew _ (mem_fills.mpr ⟨i, hi, rfl⟩) heq (Renaming.entry_eq_zero.mpr h0)
  · apply kernelPlace.entry_injective
    refine hold fun x hx heq => ?_
    obtain ⟨i, hi, rfl⟩ := mem_fills.mp hx
    rw [Ne, Renaming.entry_eq_zero]
    exact hne i hi heq

theorem pageMapvp_window (h : Shaped s) (href : (pageMapvp s virt phys length flags).refused = s.refused)
    (hw : OnWindow w) : walk (pageMapvp s virt phys length flags) w = 0 := by
  have hgrew := pageMapvp_grew h href
  have hpos : fills virt phys length flags ≠ [] := by
    have hpages := pages_eq (pages_granted h href)
    rw [fills, firstFills, Ne, List.map_eq_nil_iff, List.range_eq_nil, hpages]
    exact Nat.succ_ne_zero _
  apply Renaming.entry_eq_zero.mp
  rw [← Renaming.walk_state, hgrew.shape.walk_window hw]
  exact hgrew.closed hpos

def firstSlots (s : State) (virt phys n : Nat) : List (Nat × Option Nat) :=
  (List.range n).map fun i =>
    (pageAt virt i, if Blank s (pageAt virt i) then some (ptIndex (pageAt phys i)).val else none)

def slots (s : State) (virt phys length : Nat) : List (Nat × Option Nat) := firstSlots s virt phys (pages length)

theorem marks_firstFills (s : State) (virt phys flags n : Nat) :
    (firstFills virt phys flags n).map (marks (kernelPlace.state s)) = firstSlots s virt phys n := by
  unfold firstFills firstSlots
  rw [List.map_map]
  refine List.map_congr_left fun i _ => ?_
  simp only [Function.comp_apply, marks, fill, blank_state]

theorem has_state (s : State) : (kernelPlace.state s).has = s.has := funext (kernelPlace.has_state s)

theorem free_state (s : State) : (kernelPlace.state s).free = s.free := free_congr (kernelPlace.bitmap_state s)

theorem rounds_granted (h : Shaped s) (virt phys flags : Nat) (hn : n ≤ 2 ^ 36) :
    (fillPages 3 (kernelPlace.state s) (firstFills virt phys flags n)).refused = (kernelPlace.state s).refused ↔
      Room s.has s.free (firstSlots s virt phys n) := by
  rw [fillPages_granted h.treeShaped (by decide) (by decide) (pairwise_firstFills virt phys flags hn), marks_firstFills,
    has_state, free_state]

theorem Shaped.first_le (h : Shaped s) (hroom : Room s.has s.free (firstSlots s virt phys n)) {m : Nat} (hle : m ≤ n)
    (hm : m ≤ 2 ^ 36) : m ≤ 2 ^ 24 := by
  have hfirst := hroom.take m
  rw [firstSlots, ← List.map_take, List.take_range, Nat.min_eq_left hle] at hfirst
  exact rounds_le h ((rounds_granted h virt phys 0 hm).mpr hfirst)

/-- With room for its tables a call is not too long: its first rounds alone would need more than there are frames. -/
theorem Shaped.le_of_room (h : Shaped s) (hroom : Room s.has s.free (firstSlots s virt phys n)) : n ≤ 2 ^ 24 := by
  by_contra hlong
  have hle := h.first_le (m := min n (2 ^ 36)) hroom (Nat.min_le_left _ _) (Nat.min_le_right _ _)
  omega

theorem granted_iff (h : Shaped s) (flags : Nat) : (pageMapvp s virt phys length flags).refused = s.refused ↔
    Room s.has s.free (slots s virt phys length) := by
  have hstate : (pageMapvp s virt phys length flags).refused = s.refused ↔
      (fillPages 3 (kernelPlace.state s) (firstFills virt phys flags (pages length))).refused =
        (kernelPlace.state s).refused := by
    rw [← fills, ← state_pageMapvp h.toBased, Renaming.refused_state, Renaming.refused_state]
  rw [hstate, slots]
  constructor
  · intro href
    have hle := rounds_le h href
    exact (rounds_granted h virt phys flags (by omega)).mp href
  · intro hroom
    have hle := h.le_of_room hroom
    exact (rounds_granted h virt phys flags (by omega)).mpr hroom

theorem newTable_state : NewTable (kernelPlace.state s) (kernelPlace.state t) (kernelPlace.place f) ↔ NewTable s t f := by
  unfold NewTable
  simp only [ne_eq, Renaming.table_state_eq]

theorem place_mem_free (h : Based s) {T : Finset Nat} (hT : T ⊆ s.free) : kernelPlace.place f ∈ T ↔ f ∈ T := by
  have hfree : ∀ g, 1 ≤ g → g ≤ 6 → g ∉ T := fun g h1 h6 hg => (mem_free.mp (hT hg)).2 (h.reserved g h1 h6)
  by_cases hr : 1 ≤ f ∧ f ≤ 6
  · have hlow := lower_reserved hr
    exact iff_of_false (hfree _ hlow.1 hlow.2) (hfree f hr.1 hr.2)
  · rw [place_of_free hr]

/-- The bits that a call sets are those of the new tables and those set with the entries. -/
theorem pageMapvp_bit (h : Shaped s) (href : (pageMapvp s virt phys length flags).refused = s.refused) (f : Nat) :
    (NewTable s (pageMapvp s virt phys length flags) f ↔ f ∈ tableFrames s.has s.free (slots s virt phys length)) ∧
      (Bit (pageMapvp s virt phys length flags).bitmap f ↔ Bit s.bitmap f ∨
        NewTable s (pageMapvp s virt phys length flags) f ∨
          ∃ i < pages length, Blank s (pageAt virt i) ∧ (ptIndex (pageAt phys i)).val = f) := by
  have hdiff := pairwise_firstFills virt phys flags ((pages_granted h href).trans (by decide))
  have hall := fillPages_bit h.treeShaped (by decide) (by decide) (refused_fills h.toBased href) hdiff
  rw [← state_pageMapvp h.toBased, fills, marks_firstFills, has_state, free_state, Renaming.bitmap_state,
    Renaming.bitmap_state] at hall
  have hnew : NewTable s (pageMapvp s virt phys length flags) f ↔
      f ∈ tableFrames s.has s.free (slots s virt phys length) := by
    rw [← newTable_state, (hall _).1]
    exact place_mem_free h.toBased (tableFrames_subset _ _ _)
  refine ⟨hnew, ?_⟩
  rw [(hall f).2, (hall f).1, hnew, slots]
  simp only [mem_firstFills, exists_exists_and_eq_and, blank_state, fill, Option.some.injEq]

/-! ## Later calls -/

/-- The calls of the boot stage that reach the bitmap. -/
inductive Call where
  | getframe
  | mapv (virt length flags : Nat)
  | mapvp (virt phys length flags : Nat)

def Call.run (s : State) : Call → State
  | .getframe => (pageGetframe s).1
  | .mapv virt length flags => pageMapv s virt length flags
  | .mapvp virt phys length flags => pageMapvp s virt phys length flags

def CallStep (s : State) (c : Call) (t : State) : Prop := t = c.run s

/-- No frame that is refused goes uncounted, and while none is refused the tables keep their shape. -/
structure KeepsShape (s t : State) : Prop where
  sets : Sets s t
  refused_le : Based s → s.refused ≤ t.refused
  shape : Shaped s → t.refused = s.refused → Shaped t

theorem KeepsShape.refl (s : State) : KeepsShape s s := ⟨.refl s, fun _ => le_refl _, fun h _ => h⟩

theorem KeepsShape.trans (h : KeepsShape s t) (h' : KeepsShape t u) : KeepsShape s u := by
  refine ⟨h.sets.trans h'.sets, fun hb => ?_, fun hs href => ?_⟩
  · exact (h.refused_le hb).trans (h'.refused_le (hb.sets h.sets))
  · have hst := h.refused_le hs.toBased
    have htu := h'.refused_le (hs.toBased.sets h.sets)
    exact h'.shape (h.shape hs (by omega)) (by omega)

theorem refused_le_getframe (h : Based s) : s.refused ≤ (pageGetframe s).1.refused := by
  have hle := refused_le_pageGetframe (kernelPlace.state s)
  rwa [← (state_pageGetframe h).1, Renaming.refused_state, Renaming.refused_state] at hle

theorem keepsShape_pageGetframe (s : State) : KeepsShape s (pageGetframe s).1 := by
  have hsets := sets_pageGetframe s
  refine ⟨hsets, refused_le_getframe, fun hs _ => shaped_of_treeShaped ?_ (hs.toBased.sets hsets)⟩
  rw [(state_pageGetframe hs.toBased).1]
  exact hs.treeShaped.keeps hs.treeShaped.keeps_getframe

theorem refused_le_tables (h : Based s) (virt : Nat) : s.refused ≤ (tablesFor s virt).1.refused := by
  have hle : (kernelPlace.state s).refused ≤ (Paging.tablesFor (kernelPlace.state s) virt 3).1.refused :=
    refused_le_tablesFor
  rwa [← (state_tablesFor h virt).1, Renaming.refused_state, Renaming.refused_state] at hle

theorem refused_mapvPage : (mapvPage flags s virt).refused = (pageGetframe (tablesFor s virt).1).1.refused := by
  unfold mapvPage
  simp only
  split_ifs <;> rfl

theorem keepsShape_mapvPage (flags : Nat) (s : State) (virt : Nat) : KeepsShape s (mapvPage flags s virt) := by
  have hsets := sets_mapvPage flags s virt
  have hle : Based s → s.refused ≤ (tablesFor s virt).1.refused ∧
      (tablesFor s virt).1.refused ≤ (mapvPage flags s virt).refused := by
    intro hb
    rw [refused_mapvPage]
    exact ⟨refused_le_tables hb virt, refused_le_getframe (hb.sets (sets_tablesFor s virt))⟩
  refine ⟨hsets, fun hb => (hle hb).1.trans (hle hb).2, fun hs href => ?_⟩
  obtain ⟨hle1, hle2⟩ := hle hs.toBased
  obtain ⟨hstate, haddr⟩ := state_tablesFor hs.toBased virt
  have hgranted : (Paging.tablesFor (kernelPlace.state s) virt 3).1.refused = (kernelPlace.state s).refused := by
    rw [← hstate, Renaming.refused_state, Renaming.refused_state]
    omega
  have hlinked := tablesFor_linked hs.treeShaped (by decide) hgranted
  have hk := hlinked.shape.keeps_getframe
  have hmap : kernelPlace.state (pageMapframe (pageGetframe (tablesFor s virt).1).1 (tablesFor s virt).2) =
      Paging.pageMapframe (Paging.pageGetframe (Paging.tablesFor (kernelPlace.state s) virt 3).1).1
        (Paging.tablesFor (kernelPlace.state s) virt 3).2 := by
    rw [state_mapframe, (state_pageGetframe (hs.toBased.sets (sets_tablesFor s virt))).1, hstate, haddr]
  refine shaped_of_treeShaped ?_ (hs.toBased.sets hsets)
  unfold mapvPage
  simp only
  split_ifs
  · rw [state_umapframe, hmap]
    exact hlinked.shape_shut hk
  · rw [state_umapframe, state_storeWindow, hmap, State.storeWindow, windowFrame_mapframe]
    exact hlinked.shape_store hk _ _

theorem keepsShape_mapvpPage (flags : Nat) (s : State) (virt phys : Nat) : KeepsShape s (mapvpPage flags s virt phys) := by
  have hsets := sets_mapvpPage flags s virt phys
  refine ⟨hsets, fun hb => ?_, fun hs href => shaped_of_treeShaped ?_ (hs.toBased.sets hsets)⟩
  · have hle : (kernelPlace.state s).refused ≤ (fillPage 3 (kernelPlace.state s) (fill flags virt phys)).refused :=
      refused_le_fillPage
    rwa [← state_mapvpPage hb, Renaming.refused_state, Renaming.refused_state] at hle
  · rw [state_mapvpPage hs.toBased]
    refine (fillPage_spec hs.treeShaped (by decide) (by decide) ?_).shape
    rw [← state_mapvpPage hs.toBased, Renaming.refused_state, Renaming.refused_state]
    exact href

theorem keepsShape_forPages (body : Nat → State → State) (h : ∀ i u, KeepsShape u (body i u)) (n : Nat) (s : State) :
    KeepsShape s (forPages body n s) := by
  induction n with
  | zero => exact .refl s
  | succ n ih => exact ih.trans (h n _)

theorem keepsShape_run (s : State) (c : Call) : KeepsShape s (c.run s) := by
  cases c with
  | getframe => exact keepsShape_pageGetframe s
  | mapv virt length flags => exact keepsShape_forPages _ (fun i u => keepsShape_mapvPage flags u (pageAt virt i)) _ s
  | mapvp virt phys length flags =>
      exact keepsShape_forPages _ (fun i u => keepsShape_mapvpPage flags u (pageAt virt i) (pageAt phys i)) _ s

theorem keepsShape_reaches (h : Reaches CallStep s t) : KeepsShape s t := by
  refine h.invariant (P := KeepsShape s) (fun u c v hu hstep => ?_) (.refl s)
  rw [hstep]
  exact hu.trans (keepsShape_run u c)

/-- No call clears a bit. -/
theorem sets_reaches (h : Reaches CallStep s t) : Sets s t := (keepsShape_reaches h).sets

/-- The tables of every state reached have their shape, as long as the calls get their frames. -/
theorem shaped_reaches (h : Reaches CallStep s t) (hs : Shaped s) (href : t.refused = s.refused) : Shaped t :=
  (keepsShape_reaches h).shape hs href

theorem not_bit_of_pageGetframe (h : (pageGetframe s).2 = f * pageSize) : ¬ Bit s.bitmap f := by
  cases hscan : scan s.bitmap pageBitmapSize 0 with
  | none =>
      rw [pageGetframe_none hscan] at h
      unfold pageSize at h
      omega
  | some x =>
      obtain ⟨i, j⟩ := x
      obtain ⟨-, -, hj, hfree⟩ := scan_some hscan
      rw [pageGetframe_some hscan] at h
      have hf : j + i * 8 = f := Nat.eq_of_mul_eq_mul_right (by decide : 0 < pageSize) h
      unfold Bit
      rw [← hf, show (j + i * 8) / 8 = i by omega, show (j + i * 8) % 8 = j by omega, hfree]
      decide

/-! ## The first tables -/

theorem forPages_mem (body : Nat → State → State) (h : ∀ i u, (body i u).mem g = u.mem g) (n : Nat) (s : State) :
    (forPages body n s).mem g = s.mem g := by
  induction n with
  | zero => rfl
  | succ n ih => exact (h n _).trans ih

theorem forPages_bitmap (body : Nat → State → State) (h : ∀ i u, (body i u).bitmap = u.bitmap) (n : Nat) (s : State) :
    (forPages body n s).bitmap = s.bitmap := by
  induction n with
  | zero => rfl
  | succ n ih => exact (h n _).trans ih

theorem forPages_setBit (n f : Nat) (s : State) :
    Bit (forPages (fun i s => s.setBit (i / 8) (i % 8)) n s).bitmap f ↔ f < n ∨ Bit s.bitmap f := by
  induction n with
  | zero => simp [forPages]
  | succ n ih =>
      refine (bit_set (Nat.mod_lt n (by decide : 8 > 0)) f).trans ?_
      rw [ih, show n % 8 + n / 8 * 8 = n by omega, Nat.lt_succ_iff_lt_or_eq, ← or_assoc, or_comm (b := f < n)]

/-- The boot stage's tables over empty memory, when it ends in the page `last`. -/
def stageTables (last : Nat) : State := pageInit (setupToLongmode fun _ _ => 0) last

theorem bit_stageTables (last f : Nat) : Bit (stageTables last).bitmap f ↔ f ≤ last := by
  have hbitmap := forPages_bitmap (fun i s => s.store 5 (Fin.ofNat 512 (last + 1 + i)) 0) (fun _ _ => rfl)
    (511 - last) (forPages (fun i s => s.setBit (i / 8) (i % 8)) (last + 1)
      { setupToLongmode fun _ _ => 0 with bitmap := fun _ => 0 })
  show Bit (forPages _ _ _).bitmap f ↔ _
  rw [hbitmap, forPages_setBit, Nat.lt_succ_iff]
  refine or_iff_left ?_
  simp [Bit]

theorem mem_pageInit (hg : g ≠ 5) (s : State) (last : Nat) : (pageInit s last).mem g = s.mem g := by
  unfold pageInit
  refine (forPages_mem _ (fun _ _ => mem_store_of_ne hg) _ _).trans ?_
  exact forPages_mem (fun i s => s.setBit (i / 8) (i % 8)) (fun _ _ => rfl) _ _

theorem storeDword_of_zero {i : Index} {e : Nat} (h : s.mem f i = 0) : storeDword s f i e = s.store f i e := by
  rw [storeDword, h, Nat.zero_div, Nat.zero_mul, Nat.zero_add]

/-- Above the page tables there are the entries of `setup_to_longmode`. -/
theorem mem_stageTables (last : Nat) (hg : g ≠ 5) (i : Index) : (stageTables last).mem g i =
    if g = 4 ∧ i = 511 then 0x6003 else if g = 4 ∧ i = 0 then 0x5003 else if g = 3 ∧ i = 0 then 0x4003
      else if g = 2 ∧ i = 0 then 0x3003 else 0 := by
  have hclear : clearTables (fun _ _ => 0) = fun _ _ => 0 := by
    funext f j
    unfold clearTables
    split_ifs <;> rfl
  unfold stageTables
  rw [mem_pageInit hg]
  unfold setupToLongmode
  simp only
  rw [forPages_mem (fun i s => storeDword s 5 (Fin.ofNat 512 i) (i <<< 12 ||| entryFlags))
    (fun _ _ => mem_store_of_ne hg), hclear]
  rw [storeDword_of_zero (f := 2) rfl, storeDword_of_zero (f := 3) rfl, storeDword_of_zero (f := 4) rfl,
    storeDword_of_zero (f := 4) rfl]
  rfl

theorem pmlt4_setupToLongmode (mem : Nat → Index → Nat) : (setupToLongmode mem).pmlt4 = pmlt4Address :=
  (sets_forPages (fun i s => storeDword s 5 (Fin.ofNat 512 i) (i <<< 12 ||| entryFlags))
    (fun _ u => sets_store u _ _ _) 512 _).pmlt4

theorem pmlt4_pageInit (s : State) (last : Nat) : (pageInit s last).pmlt4 = s.pmlt4 := by
  have hset := sets_forPages (fun i s => s.setBit (i / 8) (i % 8))
    (fun i u => sets_setBit u (i / 8) (Nat.mod_lt i (by decide : 8 > 0))) (last + 1) { s with bitmap := fun _ => 0 }
  have hstore := sets_forPages (fun i s => s.store 5 (Fin.ofNat 512 (last + 1 + i)) 0)
    (fun _ u => sets_store u _ _ _) (511 - last) (forPages (fun i s => s.setBit (i / 8) (i % 8)) (last + 1)
      { s with bitmap := fun _ => 0 })
  exact hstore.pmlt4.trans hset.pmlt4

theorem based_stageTables (h : 6 ≤ last) : Based (stageTables last) where
  pmlt4 := (pmlt4_pageInit _ last).trans (pmlt4_setupToLongmode _)
  reserved f _ h6 := (bit_stageTables last f).mpr (h6.trans h)

theorem child_stageTables (last : Nat) {g : Nat} (hg : 1 ≤ g ∧ g ≤ 3) (i : Index) :
    child (kernelPlace.state (stageTables last)).mem g i = child (kernelCreateNewPage fun _ _ => 0).mem g i := by
  have hplace : kernelPlace.place (g + 1) = g := by
    show lower (g + 1) = g
    unfold lower
    split_ifs <;> omega
  have hstate := kernelPlace.child_state (stageTables last) (g + 1) i
  rw [hplace] at hstate
  rw [hstate, child_kernelCreateNewPage _ hg, child, mem_stageTables last (by omega)]
  obtain rfl | rfl | rfl : g = 1 ∨ g = 2 ∨ g = 3 := by omega
  all_goals by_cases h0 : i = 0
  all_goals by_cases h5 : i = 511
  all_goals simp [h0, h5]
  all_goals decide

theorem table_stageTables (h : 6 ≤ last) {p : List Index} (hp : p.length ≤ 3) :
    (kernelPlace.state (stageTables last)).table p = (kernelCreateNewPage fun _ _ => 0).table p := by
  have hinner : ∀ x ∈ firstTables, x.1.length < 3 → 1 ≤ x.2 ∧ x.2 ≤ 3 := by decide
  have hroot : (kernelPlace.state (stageTables last)).root = (kernelCreateNewPage fun _ _ => 0).root := by
    rw [(based_stageTables h).root, root_kernelCreateNewPage]
    rfl
  unfold State.table
  rw [hroot]
  refine Lib.Radix.descend_congr_deep (fun q n hq hn i => child_stageTables last ?_ i) hp
  exact hinner _ (table_kernelCreateNewPage _ hq.le hn) hq

theorem shaped_stageTables (h : 6 ≤ last) : Shaped (stageTables last) := by
  have hlow : ∀ x ∈ firstTables, x.2 ≤ 6 := by decide
  have hb := based_stageTables h
  have hpmlt4 : (kernelPlace.state (stageTables last)).pmlt4 = (kernelCreateNewPage fun _ _ => 0).pmlt4 := by
    show kernelPlace.entry (stageTables last).pmlt4 = 0x1000
    rw [hb.pmlt4]
    decide
  refine shaped_of_treeShaped ((treeShaped_kernelCreateNewPage fun _ _ => 0).congr hpmlt4
    (fun p hp => table_stageTables h hp) fun f hf hused => ?_) hb
  have hf6 : f ≤ 6 := by
    rcases hused with hno | rfl
    · by_contra hgt
      exact hno fun p hp ht => hgt (hlow _ (table_kernelCreateNewPage _ hp ht))
    · decide
  refine ⟨hf.1, ?_⟩
  rw [Renaming.bitmap_state, bit_stageTables]
  exact hf6.trans h

/-! ## The first page table -/

theorem mem_identity (hs : ∀ j, s.mem 5 j = 0) (hn : n ≤ 512) (j : Index) :
    (forPages (fun i s => storeDword s 5 (Fin.ofNat 512 i) (i <<< 12 ||| entryFlags)) n s).mem 5 j =
      if j.val < n then j.val <<< 12 ||| entryFlags else 0 := by
  induction n generalizing j with
  | zero => exact (hs j).trans (if_neg (Nat.not_lt_zero _)).symm
  | succ n ih =>
      have hplace : (Fin.ofNat 512 n).val = n := Nat.mod_eq_of_lt hn
      have hold := ih (Nat.le_of_lt hn) (Fin.ofNat 512 n)
      rw [if_neg (by omega)] at hold
      rw [forPages, storeDword_of_zero hold, mem_store, ih (Nat.le_of_lt hn)]
      by_cases hj : j = Fin.ofNat 512 n
      · have hval : j.val = n := hj ▸ hplace
        rw [if_pos ⟨rfl, hj⟩, if_pos (by omega), hval]
      · have hne : j.val ≠ n := fun h => hj (Fin.ext (h.trans hplace.symm))
        rw [if_neg fun h => hj h.2]
        split_ifs <;> first | rfl | omega

theorem mem_cleared {k : Nat} (hk : k + n ≤ 512) (s : State) (j : Index) :
    (forPages (fun i s => s.store 5 (Fin.ofNat 512 (k + i)) 0) n s).mem 5 j =
      if k ≤ j.val ∧ j.val < k + n then 0 else s.mem 5 j := by
  induction n with
  | zero => rw [if_neg (by omega), forPages]
  | succ n ih =>
      have hplace : (Fin.ofNat 512 (k + n)).val = k + n := Nat.mod_eq_of_lt hk
      rw [forPages, mem_store, ih (by omega)]
      by_cases hj : j = Fin.ofNat 512 (k + n)
      · have hval : j.val = k + n := hj ▸ hplace
        rw [if_pos ⟨rfl, hj⟩, if_pos (by omega)]
      · have hne : j.val ≠ k + n := fun h => hj (Fin.ext (h.trans hplace.symm))
        rw [if_neg fun h => hj h.2]
        split_ifs <;> first | rfl | omega

/-- The first page table maps the frames of the boot stage to themselves. -/
theorem mem_firstPt (h : last ≤ 511) (j : Index) :
    (stageTables last).mem 5 j = if j.val ≤ last then j.val <<< 12 ||| entryFlags else 0 := by
  have hj := j.isLt
  have hzero : ∀ j, (storeDword (storeDword (storeDword (storeDword
      { mem := clearTables fun _ _ => 0, bitmap := fun _ => 0, pmlt4 := pmlt4Address, refused := 0 }
      2 0 (pdptAddress ||| entryFlags)) 3 0 (pdtAddress ||| entryFlags)) 4 0 (firstPtAddress ||| entryFlags))
      4 511 (framePtAddress ||| entryFlags)).mem 5 j = 0 := by
    intro j
    show clearTables (fun _ _ => 0) 5 j = 0
    unfold clearTables
    split_ifs <;> rfl
  unfold stageTables pageInit
  simp only
  rw [mem_cleared (by omega), forPages_mem (fun i s => s.setBit (i / 8) (i % 8)) (fun _ _ => rfl)]
  show (if _ then 0 else (setupToLongmode fun _ _ => 0).mem 5 j) = _
  rw [setupToLongmode, mem_identity hzero (le_refl 512), if_pos hj]
  split_ifs <;> first | rfl | omega

end HaOS.Paging.Boot
