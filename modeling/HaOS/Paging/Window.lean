import HaOS.Paging.RoundTrip
import HaOS.Paging.Usage

/-!
# The window after a call

A round maps tables into the page of the window, and only the exits behind `page_umapframe` clear its entry again.

* `Exit` : how a round leaves the window; `mapvExit`, `umapvExit` : the exits of the loops, by their tests;
* `Shut` : the last exit that has touched the window has closed it; `closed_forPages`, `closed_run_iff` : what a loop and
  a call leave, whatever their arguments and the state;
* `Tidy` : the same by the tables before the call; `shut_iff_tidy`;
* `closed_iff` : what holds after every call of a run.
-/

namespace HaOS.Paging
open Lib (Steps Meets)

variable {s u : State} {exit : Nat → State → Exit} {body : Nat → State → State} {c : Call} {n v flags virt length : Nat}

/-- No frame is mapped at the window. -/
def Closed (s : State) : Prop := s.mem framePt 0 = 0

instance (s : State) : Decidable (Closed s) := inferInstanceAs (Decidable (_ = _))

inductive Exit where
  | kept
  | opened
  | closed

/-- From `s` to `t` a round leaves the window as its exit says. -/
def Exit.Leads : Exit → State → State → Prop
  | .kept, s, t => t = s
  | .opened, _, t => ¬ Closed t
  | .closed, _, t => Closed t

def mapvExit (flags : Nat) (s : State) (virt : Nat) : Exit :=
  let (s, ptAddr) := tablesFor s virt flags
  if (pageMapframe (pageGetframe s).1 ptAddr).window (ptIndex virt) ≠ 0 then .opened else .closed

def umapvExit (s : State) (virt : Nat) : Exit :=
  if ¬ Present (s.mem s.root (pmlt4Index virt)) then .kept
  else
    let s := pageMapframe s (tableAddress (s.mem s.root (pmlt4Index virt)))
    if ¬ Present (s.window (pdptIndex virt)) then .opened
    else
      let s := pageMapframe s (tableAddress (s.window (pdptIndex virt)))
      if ¬ Present (s.window (pdtIndex virt)) then .opened else .closed

/-- No exit leaves the window open, but for those after which another one touches it. -/
def Shut (exit : Nat → State → Exit) (body : Nat → State → State) (n : Nat) (s : State) : Prop :=
  ∀ k < n, (∀ j < n, k < j → exit j (forPages body j s) = .kept) → exit k (forPages body k s) ≠ .opened

/-! ## Rounds -/

theorem closed_umapframe (s : State) : Closed (pageUmapframe s) := mem_umapframe s

theorem not_closed_mapframe (s : State) (addr : Nat) : ¬ Closed (pageMapframe s addr) := mapframe_ne_zero s addr

theorem mapvExit_leads (flags : Nat) (s : State) (virt : Nat) :
    (mapvExit flags s virt).Leads s (mapvPage flags s virt) := by
  unfold mapvExit mapvPage
  dsimp only
  split_ifs
  · exact not_closed_mapframe _ _
  · exact closed_umapframe _

theorem mapvpPage_closed (flags : Nat) (s : State) (virt phys : Nat) : Closed (mapvpPage flags s virt phys) := by
  unfold mapvpPage
  dsimp only
  split_ifs
  · exact closed_umapframe _
  · exact closed_umapframe _

theorem umapvExit_leads (s : State) (virt : Nat) : (umapvExit s virt).Leads s (umapvPage s virt) := by
  unfold umapvExit umapvPage
  dsimp only
  split_ifs
  · exact closed_umapframe _
  · exact not_closed_mapframe _ _
  · exact not_closed_mapframe _ _
  · show s = s
    rfl

/-- A loop leaves the window closed exactly when its last exit that touches it does. -/
theorem closed_forPages (h0 : Closed s) (hexit : ∀ i u, (exit i u).Leads u (body i u)) :
    Closed (forPages body n s) ↔ Shut exit body n s := by
  induction n with
  | zero => exact iff_of_true h0 fun k hk => absurd hk (Nat.not_lt_zero k)
  | succ n ih =>
      have hlead := hexit n (forPages body n s)
      rw [forPages]
      rcases hx : exit n (forPages body n s) <;> rw [hx] at hlead
      · -- the round does nothing
        rw [show body n (forPages body n s) = forPages body n s from hlead, ih]
        constructor
        · intro h k hk hlast
          rcases Nat.lt_succ_iff_lt_or_eq.mp hk with hlt | rfl
          · exact h k hlt fun j hj => hlast j (Nat.lt_succ_of_lt hj)
          · rw [hx]
            exact Exit.noConfusion
        · intro h k hk hlast
          refine h k (Nat.lt_succ_of_lt hk) fun j hj hkj => ?_
          rcases Nat.lt_succ_iff_lt_or_eq.mp hj with hlt | rfl
          · exact hlast j hlt hkj
          · exact hx
      · refine iff_of_false hlead fun h => ?_
        refine h n (Nat.lt_succ_self n) (fun j hj hnj => ?_) hx
        omega
      · refine iff_of_true hlead fun k hk hlast => ?_
        rcases Nat.lt_succ_iff_lt_or_eq.mp hk with hlt | rfl
        · have hkept := hlast n (Nat.lt_succ_self n) hlt
          rw [hx] at hkept
          cases hkept
        · rw [hx]
          exact Exit.noConfusion

/-! ## Calls -/

/-- The last exit of the call that touches the window closes it. -/
def Call.Shut (s : State) : Call → Prop
  | .mapv virt length flags =>
    Paging.Shut (fun i u => mapvExit flags u (pageAt virt i)) (fun i u => mapvPage flags u (pageAt virt i)) (rounds length) s
  | .umapv virt length =>
    Paging.Shut (fun i u => umapvExit u (pageAt virt i)) (fun i u => umapvPage u (pageAt virt i)) (rounds length) s
  | .mapvp .. | .alloc4K _ => True

theorem closed_run_iff (h0 : Closed s) (c : Call) : Closed (c.run s) ↔ c.Shut s := by
  cases c with
  | mapv virt length flags => exact closed_forPages h0 fun i u => mapvExit_leads flags u (pageAt virt i)
  | umapv virt length => exact closed_forPages h0 fun i u => umapvExit_leads u (pageAt virt i)
  | mapvp virt phys length flags =>
      refine iff_of_true ?_ trivial
      have hclosed : Closed (pageMapvp s virt phys length flags) ↔ Paging.Shut (fun _ _ => .closed)
          (fun i u => mapvpPage flags u (pageAt virt i) (pageAt phys i)) (rounds length) s :=
        closed_forPages h0 fun i u => mapvpPage_closed flags u (pageAt virt i) (pageAt phys i)
      exact hclosed.mpr fun _ _ _ => Exit.noConfusion
  | alloc4K flags => exact iff_of_true (closed_umapframe _) trivial

/-- The last page of `page_mapv` has no entry; the last page of `page_umapv` below a PDPT has a page table. -/
def Call.Tidy (s : State) : Call → Prop
  | .mapv virt length _ => ∀ n, rounds length = n + 1 → walk s (pageAt virt n) = 0
  | .umapv virt length => ∀ n < rounds length,
    (∀ j < rounds length, n < j → s.table [pmlt4Index (pageAt virt j)] = none) →
    s.table [pmlt4Index (pageAt virt n)] ≠ none → s.table (tablePath (pageAt virt n)) ≠ none
  | .mapvp .. | .alloc4K _ => True

/-- The call is one of those that keep the frames in use, and maps pages that are present. -/
def Call.Regular (s : State) (c : Call) : Prop :=
  c.Allowed s ∧ c.Fits s ∧
    match c with
    | .mapv _ _ flags => Present flags
    | _ => True

theorem mapvExit_opened_iff (hs : TreeShaped s) (hflags : flags < pageSize) (hp : Present flags) (hw : ¬ OnWindow v)
    (href : (mapvPage flags s v).refused = s.refused) : mapvExit flags s v = .opened ↔ walk s v ≠ 0 := by
  have hle1 : s.refused ≤ (tablesFor s v flags).1.refused := refused_le_tablesFor
  have hle2 := refused_le_pageGetframe (tablesFor s v flags).1
  rw [refused_mapvPage] at href
  have hgot : (tablesFor s v flags).1.refused = s.refused := le_antisymm (hle2.trans href.le) hle1
  have h := tablesFor_linked hs hflags hgot
  obtain ⟨f, hf, -⟩ := pageGetframe_granted (href.trans hgot.symm)
  rw [mapvExit]
  dsimp only
  rw [h.window_eq (h.shape.granted hf) hw hp]
  split_ifs with h0
  · exact iff_of_true rfl h0
  · exact iff_of_false (fun h => by cases h) h0

theorem umapvExit_kept_iff (s : State) (v : Nat) : umapvExit s v = .kept ↔ s.table [pmlt4Index v] = none := by
  have htable : s.table [pmlt4Index v] = target (s.mem s.root (pmlt4Index v)) := table_snoc (p := []) rfl _
  rw [htable, target, umapvExit]
  dsimp only
  split_ifs with h
  · exact iff_of_false (fun h => by cases h) fun h => by cases h
  · exact iff_of_false (fun h => by cases h) fun h => by cases h
  · exact iff_of_false (fun h => by cases h) fun h => by cases h
  · exact iff_of_true rfl rfl

theorem umapvExit_opened_iff (hs : TreeShaped s) (hw : ¬ OnWindow v) :
    umapvExit s v = .opened ↔ s.table [pmlt4Index v] ≠ none ∧ s.table (tablePath v) = none := by
  have hlead := umapvExit_leads s v
  have hkept := umapvExit_kept_iff s v
  obtain ⟨hnone, -, -, -, hopen⟩ | ⟨n, u, hn, -, -, heq⟩ := umapvPage_cases hs hw
  · rw [and_iff_left hnone, Ne, ← hkept]
    constructor
    · intro h hk
      rw [h] at hk
      cases hk
    · intro hne
      rcases hx : umapvExit s v
      · exact absurd hx hne
      · rfl
      · rw [hx] at hlead
        exact absurd hlead (hopen fun h => hne (hkept.mpr h))
  · refine iff_of_false (fun h => ?_) fun h => ?_
    · rw [h] at hlead
      exact hlead (heq ▸ closed_umapframe _)
    · rw [hn] at h
      cases h.2

/-- Where every round touches the window, the last one decides. -/
theorem shut_succ (hne : ∀ i u, exit i u ≠ .kept) :
    Shut exit body (n + 1) s ↔ exit n (forPages body n s) ≠ .opened := by
  constructor
  · intro h
    refine h n (Nat.lt_succ_self n) fun j hj hnj => ?_
    omega
  · intro h k hk hlast
    rcases Nat.lt_succ_iff_lt_or_eq.mp hk with hlt | rfl
    · exact absurd (hlast n (Nat.lt_succ_self n) hlt) (hne n _)
    · exact h

theorem mapvExit_ne_kept (flags : Nat) (s : State) (virt : Nat) : mapvExit flags s virt ≠ .kept := by
  unfold mapvExit
  dsimp only
  split_ifs
  · exact Exit.noConfusion
  · exact Exit.noConfusion

/-- The rounds before leave the entry of the last page as it is. -/
theorem shut_mapv_iff (hs : TreeShaped s) (hflags : flags < pageSize) (hp : Present flags)
    (hoff : ∀ i < rounds length, ¬ OnWindow (pageAt virt i))
    (href : (pageMapv s virt length flags).refused = s.refused) :
    Call.Shut s (.mapv virt length flags) ↔ Call.Tidy s (.mapv virt length flags) := by
  rw [pageMapv] at href
  rw [Call.Shut, Call.Tidy]
  generalize rounds length = m at href hoff ⊢
  rcases m with - | n
  · exact iff_of_true (fun k hk => absurd hk (Nat.not_lt_zero k)) fun n h => by cases h
  · have hpre := refused_forPages (fun _ _ => refused_le_mapvPage) href (Nat.le_succ n)
    have hfold : forPages (fun i u => mapvPage flags u (pageAt virt i)) n s =
        ((List.range n).map (pageAt virt)).foldl (mapvPage flags) s := by
      rw [forPages_eq_foldl, List.foldl_map]
    obtain ⟨new, lost, hm⟩ := mapping_foldl hs hflags (fun v hv => by
      obtain ⟨i, hi, rfl⟩ := List.mem_map.mp hv
      exact hoff i (Nat.lt_succ_of_lt (List.mem_range.mp hi))) (hfold ▸ hpre)
    have hlen : n * pageSize < 2 ^ 31 := by
      have hle := hm.length_le
      rw [List.length_map, List.length_range] at hle
      exact lt_of_le_of_lt (Nat.mul_le_mul_right pageSize hle) (by decide)
    have hwalk : walk (forPages (fun i u => mapvPage flags u (pageAt virt i)) n s) (pageAt virt n) =
        walk s (pageAt virt n) := by
      rw [hfold]
      refine hm.walk_other (hoff n (Nat.lt_succ_self n)) fun x hx heq => ?_
      obtain ⟨i, hi, rfl⟩ := List.mem_map.mp hx
      have hlt := List.mem_range.mp hi
      have hi31 : i * pageSize < 2 ^ 31 := lt_of_le_of_lt (Nat.mul_le_mul_right pageSize hlt.le) hlen
      exact absurd (vpn_pageAt_inj hlen hi31 heq) (Nat.ne_of_gt hlt)
    rw [shut_succ fun i u => mapvExit_ne_kept flags u (pageAt virt i), Ne,
      mapvExit_opened_iff (hfold ▸ hm.shape hs) hflags hp (hoff n (Nat.lt_succ_self n)) (href.trans hpre.symm), not_not,
      hwalk]
    constructor
    · rintro h m ⟨⟩
      exact h
    · exact fun h => h n rfl

/-- The rounds of `page_umapv` leave the tables as they are. -/
theorem shut_umapv_iff (hs : TreeShaped s) (hoff : ∀ i < rounds length, ¬ OnWindow (pageAt virt i))
    (hrel : Releasable s virt length) : Call.Shut s (.umapv virt length) ↔ Call.Tidy s (.umapv virt length) := by
  rw [Call.Shut, Call.Tidy, Paging.Shut]
  set round : Nat → State := fun k => forPages (fun i u => umapvPage u (pageAt virt i)) k s with hround
  have hspec : ∀ k < rounds length,
      (umapvExit (round k) (pageAt virt k) = .kept ↔ s.table [pmlt4Index (pageAt virt k)] = none) ∧
      (umapvExit (round k) (pageAt virt k) = .opened ↔ s.table [pmlt4Index (pageAt virt k)] ≠ none ∧
        s.table (tablePath (pageAt virt k)) = none) := by
    intro k hk
    have hfree : ∀ f, Freed s ((List.range k).map (pageAt virt)) f → s.NoTable f ∧ f ≠ bitmapFrame := by
      intro f hf
      obtain ⟨j, hj, hcl⟩ := freed_range.mp hf
      obtain ⟨hno, hne, -⟩ := hrel f ⟨j, hj.trans hk, hcl⟩
      exact ⟨hno, hne⟩
    have hend : Unmapped s (round k) ((List.range k).map (pageAt virt)) := by
      rw [hround]
      dsimp only
      rw [forPages_eq_foldl, ← List.foldl_map (f := pageAt virt) (g := umapvPage)]
      refine unmapped_foldl hs (fun v hv => ?_) hfree
      obtain ⟨i, hi, rfl⟩ := List.mem_map.mp hv
      exact hoff i ((List.mem_range.mp hi).trans hk)
    rw [umapvExit_kept_iff, umapvExit_opened_iff (hend.shape hs hfree) (hoff k hk),
      hend.table [pmlt4Index (pageAt virt k)] (Nat.succ_le_succ (Nat.zero_le 2)), hend.table _ (length_tablePath _).le]
    exact ⟨Iff.rfl, Iff.rfl⟩
  apply forall₂_congr
  intro k hk
  have hlast : (∀ j < rounds length, k < j → umapvExit (round j) (pageAt virt j) = .kept) ↔
      ∀ j < rounds length, k < j → s.table [pmlt4Index (pageAt virt j)] = none :=
    forall₂_congr fun j hj => imp_congr_right fun _ => (hspec j hj).1
  rw [hlast, Ne, (hspec k hk).2, not_and]

/-- In a state that keeps the frames in use, a call leaves the window closed exactly when the tables let it. -/
theorem shut_iff_tidy (h : Used s) (hc : c.Regular s) : c.Shut s ↔ c.Tidy s := by
  obtain ⟨ha, hf, hp⟩ := hc
  cases c with
  | mapv virt length flags => exact shut_mapv_iff h.shape hf hp (fun i hi => not_onWindow (ha.1 i hi)) ha.2
  | umapv virt length => exact shut_umapv_iff h.shape (fun i hi => not_onWindow (ha i hi)) hf
  | mapvp => exact Iff.rfl
  | alloc4K => exact Iff.rfl

/-! ## Runs -/

/-- The frame of the bitmap is marked, and it is no table. -/
def BitmapKept (s : State) : Prop := s.Marked bitmapFrame ∧ s.NoTable bitmapFrame

/-- What keeps the bitmap and the tables out of each other's memory: the frame of the bitmap is kept in each round, and the
bits that `page_umapv` clears, for which `page_clear_bitmap` has no bound, are bits of the bitmap. -/
def Call.KeepsBitmap (s : State) : Call → Prop
  | .mapv virt length flags =>
    ∀ k < rounds length, BitmapKept (forPages (fun i u => mapvPage flags u (pageAt virt i)) k s)
  | .mapvp virt phys length flags =>
    ∀ k < rounds length, BitmapKept (forPages (fun i u => mapvpPage flags u (pageAt virt i) (pageAt phys i)) k s)
  | .umapv virt length => ∀ k < rounds length,
    BitmapKept (forPages (fun i u => umapvPage u (pageAt virt i)) k s) ∧
      ∀ f ∈ umapvBit (forPages (fun i u => umapvPage u (pageAt virt i)) k s) (pageAt virt k), f < frames
  | .alloc4K _ => BitmapKept s

def Runs (s : State) (c : Call) (t : State) : Prop := c.KeepsBitmap s ∧ t = c.run s

theorem closed_of_runs {t : State} (hs : Closed s) (h : Runs s c t) : Closed t ↔ c.Shut s := by
  rw [h.2]
  exact closed_run_iff hs c

/-- In every run of calls, with any arguments as long as the bitmap is kept apart, the window is closed after each call
exactly when the last exit of each call that touches it closes it; where the calls keep the frames in use, exactly when the
tables before each call let it. -/
theorem closed_iff {tr : List (Call × State)} (h0 : Closed s) (hs : Steps Runs s tr) :
    ((∀ x ∈ tr, Closed x.2) ↔ Meets Call.Shut s tr) ∧
      (Used s → Meets Call.Regular s tr → ((∀ x ∈ tr, Closed x.2) ↔ Meets Call.Tidy s tr)) := by
  have hmeet : ∀ u c t, Closed u → Runs u c t → Call.Shut u c → Closed t := fun _ _ _ hu ht => (closed_of_runs hu ht).mpr
  have hmiss : ∀ u c t, Closed u → Runs u c t → ¬ Call.Shut u c → ¬ Closed t := fun _ _ _ hu ht =>
    mt (closed_of_runs hu ht).mp
  have hshut : (∀ x ∈ tr, Closed x.2) ↔ Meets Call.Shut s tr := Lib.always_iff_meets (fun _ h => h) hmeet hmiss h0 hs
  refine ⟨hshut, fun hused hreg => hshut.trans ?_⟩
  have hkeep : ∀ u c t, Used u → Runs u c t → Call.Regular u c → Used t := by
    intro u c t hu ht hc
    rw [ht.2]
    exact hu.run hc.1 hc.2.1
  have hiff : ∀ u c, Used u → Call.Regular u c → (c.Shut u ↔ c.Tidy u) := fun u c hu hc => shut_iff_tidy hu hc
  exact Lib.meets_congr hkeep hiff hused hs hreg

theorem Used.keepsBitmap (h : Used s) (virt flags : Nat) : Call.KeepsBitmap s (.mapv virt 0x1000 flags) := by
  intro k hk
  rw [show rounds 0x1000 = 1 from by decide, Nat.lt_one_iff] at hk
  rw [hk]
  exact h.shape.bitmap

theorem closed_iff_smallBoot :
    (∀ x ∈ [(Call.mapv 0x400000 0x1000 3, pageMapv smallBoot 0x400000 0x1000 3)], Closed x.2) ↔
      Meets Call.Tidy smallBoot [(Call.mapv 0x400000 0x1000 3, pageMapv smallBoot 0x400000 0x1000 3)] := by
  have hused : Used smallBoot := used_bootState (fun _ _ => 0) (by decide) (by decide) (by decide +kernel)
  have hsteps : Steps Runs smallBoot [(Call.mapv 0x400000 0x1000 3, pageMapv smallBoot 0x400000 0x1000 3)] :=
    ⟨⟨hused.keepsBitmap _ _, rfl⟩, trivial⟩
  refine (closed_iff (by decide +kernel) hsteps).2 hused ⟨⟨⟨outsideWindow_page (by decide), ?_⟩, ?_, ?_⟩, trivial⟩
  · decide +kernel
  · exact (by decide : 3 < pageSize)
  · exact (by decide : Present 3)

/-- A page that is mapped already: `page_mapv` leaves its page table behind the window. -/
theorem not_closed_mappedPage : Closed smallBoot ∧
    Steps Runs smallBoot [(.mapv 0x6000 0x1000 3, pageMapv smallBoot 0x6000 0x1000 3)] ∧
    ¬ ∀ x ∈ [(Call.mapv 0x6000 0x1000 3, pageMapv smallBoot 0x6000 0x1000 3)], Closed x.2 := by
  have hused : Used smallBoot := used_bootState (fun _ _ => 0) (by decide) (by decide) (by decide +kernel)
  refine ⟨by decide +kernel, ⟨⟨hused.keepsBitmap _ _, rfl⟩, trivial⟩, fun h => ?_⟩
  have hopen : ¬ Closed (pageMapv smallBoot 0x6000 0x1000 3) := by decide +kernel
  simp only [List.forall_mem_singleton] at h
  exact hopen h

end HaOS.Paging
