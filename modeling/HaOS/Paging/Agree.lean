import HaOS.Paging.Marks

/-!
# `page_mapvp` in the boot stage and in the kernel

* `Wanted` : the pages of a range that were not mapped, and the physical pages they should go to;
* `Agree` : both functions map these and no others;
* `kernelNewly_iff`, `bootNewly_iff` : what they map, over the rounds that they go through;
* `Covers`, `covers_iff` : when rounds map what is wanted;
* `Matches`, `agree_iff` : when this is the same.
-/

namespace HaOS.Paging

/-- The page of `v` is one of the `pages length` pages from `virt` on and was not mapped; `f` is the frame of the physical
page with its number. -/
def Wanted (s : State) (virt phys length v f : Nat) : Prop :=
  ∃ i < pages length, vpn v = vpn (Boot.pageAt virt i) ∧ frameOf (Boot.pageAt phys i) = f ∧ target (walk s v) = none

/-- From `b` to `c` and from `s` to `t` the same pages are mapped, those that are wanted. -/
structure Agree (b c s t : State) (virt phys length : Nat) : Prop where
  boot : ∀ v f, Boot.NewlyMapped b c v f ↔ Wanted b virt phys length v f
  kernel : ∀ v f, Boot.NewlyMapped s t v f ↔ Wanted b virt phys length v f

/-- The condition on the address space: the pages that are not mapped have no entry and lie in the first 2 GB of the range,
and the other pages that the two functions go through have entries: the one behind a range of whole pages, and those
that an `int` counts back to after 2 GB. -/
structure Matches (s : State) (virt length flags : Nat) : Prop where
  present : Present flags ∨ ∀ i < pages length, target (walk s (Boot.pageAt virt i)) ≠ none
  entry : Present flags → ∀ i < pages length, target (walk s (Boot.pageAt virt i)) = none →
    walk s (Boot.pageAt virt i) = 0 ∧ i < 2 ^ 19
  behind : Present flags → length % pageSize = 0 → ¬ Blank s (Boot.pageAt virt (pages length))
  back : Present flags → ∀ i < pages length, 2 ^ 19 ≤ i → i < 2 ^ 20 → ¬ Blank s (pageAt virt i)

variable {b c s t : State} {i j f n v w virt phys length flags : Nat}

/-! ## The rounds of the kernel -/

/-- How far a round of the kernel's loop is from the start, in pages; the product is an `int`. -/
def offset (i : Nat) : Nat := if i % 2 ^ 20 < 2 ^ 19 then i % 2 ^ 20 else 2 ^ 52 - 2 ^ 20 + i % 2 ^ 20

theorem sext32_mul (i : Nat) : sext32 (dword (i * pageSize)) = offset i * pageSize := by
  unfold sext32 dword offset pageSize
  split_ifs <;> omega

theorem pageAt_eq (virt i : Nat) : pageAt virt i = Boot.pageAt virt (offset i) := by
  rw [pageAt, sext32_mul]
  rfl

theorem offset_of_lt (hi : i < 2 ^ 19) : offset i = i := by
  unfold offset
  split_ifs <;> omega

/-- The pages that the kernel counts back to lie outside of a range of less than `2 ^ 36 - 2 ^ 20` pages. -/
theorem offset_back (hi : 2 ^ 19 ≤ i % 2 ^ 20) (hj : j ≤ 2 ^ 24) : vpn (pageAt virt i) ≠ vpn (Boot.pageAt virt j) := by
  rw [pageAt_eq, Boot.vpn_pageAt, Boot.vpn_pageAt]
  unfold offset
  split_ifs <;> omega

theorem mem_kernelFills {x : Fill} : x ∈ kernelFills virt phys length flags ↔
    ∃ i < rounds length, ⟨pageAt virt i, pageAt phys i ||| flags, none⟩ = x := by
  simp only [kernelFills, List.mem_map, List.mem_range]

/-- Rounds on the same page write the same entry. -/
theorem offset_inj (phys : Nat) (h : vpn (pageAt virt i) = vpn (pageAt virt j)) : pageAt phys i = pageAt phys j := by
  have heq : offset i = offset j := by
    rw [pageAt_eq, pageAt_eq, Boot.vpn_pageAt, Boot.vpn_pageAt] at h
    unfold offset at h ⊢
    split_ifs at h ⊢ <;> omega
  rw [pageAt_eq, pageAt_eq, heq]

/-! ## What is mapped -/

theorem present_pageAt (hphys : phys % pageSize = 0) (i : Nat) : Present (Boot.pageAt phys i ||| flags) ↔ Present flags := by
  rw [present_iff, present_iff, Nat.or_mod_two_eq_one]
  unfold Boot.pageAt qword pageSize at *
  omega

theorem target_pageAt (hphys : phys % pageSize = 0) (hflags : flags < pageSize) (i : Nat) :
    target (Boot.pageAt phys i ||| flags) = if Present flags then some (frameOf (Boot.pageAt phys i)) else none := by
  unfold target
  simp only [present_pageAt hphys, frameOf_or hflags]

theorem pageMapvp_walk (hs : TreeShaped s) (hflags : flags < pageSize) (hp : Present flags)
    (href : (pageMapvp s virt phys length flags).refused = s.refused) (hw : ¬ OnWindow v) :
    (∀ i < rounds length, vpn v = vpn (pageAt virt i) → walk s v = 0 →
        walk (pageMapvp s virt phys length flags) v = pageAt phys i ||| flags) ∧
      ((∀ i < rounds length, vpn v = vpn (pageAt virt i) → walk s v ≠ 0) →
        walk (pageMapvp s virt phys length flags) v = walk s v) := by
  rw [pageMapvp_fills] at href ⊢
  have hsame : ∀ x ∈ kernelFills virt phys length flags, ∀ y ∈ kernelFills virt phys length flags,
      vpn x.virt = vpn y.virt → x.entry = y.entry := by
    intro x hx y hy heq
    obtain ⟨i, -, rfl⟩ := mem_kernelFills.mp hx
    obtain ⟨j, -, rfl⟩ := mem_kernelFills.mp hy
    show pageAt phys i ||| flags = pageAt phys j ||| flags
    rw [offset_inj phys heq]
  obtain ⟨hnew, hold⟩ := fillPages_walk hs hflags hp href hsame hw
  refine ⟨fun i hi => hnew _ (mem_kernelFills.mpr ⟨i, hi, rfl⟩), fun hne => hold fun x hx => ?_⟩
  obtain ⟨i, hi, rfl⟩ := mem_kernelFills.mp hx
  exact hne i hi

theorem pageMapvp_window (hs : TreeShaped s) (hflags : flags < pageSize) (hp : Present flags)
    (href : (pageMapvp s virt phys length flags).refused = s.refused) (hw : OnWindow v)
    (hnone : target (walk s v) = none) : target (walk (pageMapvp s virt phys length flags) v) = none := by
  rw [pageMapvp_fills] at href ⊢
  have hgrew := fillPages_grew hs hflags hp href
  by_cases hnil : kernelFills virt phys length flags = []
  · rw [hnil]
    exact hnone
  · rw [hgrew.shape.walk_window hw, hgrew.closed hnil]
    rfl

/-- The kernel maps the pages without an entry that its rounds go through. -/
theorem kernelNewly_iff (hs : TreeShaped s) (hflags : flags < pageSize) (hphys : phys % pageSize = 0)
    (href : (pageMapvp s virt phys length flags).refused = s.refused) :
    Boot.NewlyMapped s (pageMapvp s virt phys length flags) v f ↔
      Present flags ∧ ∃ i < rounds length, vpn v = vpn (pageAt virt i) ∧ Blank s v ∧ frameOf (pageAt phys i) = f := by
  by_cases hp : Present flags
  · have hentry : ∀ i, target (pageAt phys i ||| flags) = some (frameOf (pageAt phys i)) := by
      intro i
      rw [pageAt_eq, target_pageAt hphys hflags, if_pos hp]
    rw [Boot.newlyMapped_of_walk (fun hw => pageMapvp_window hs hflags hp href hw) fun hw =>
      pageMapvp_walk hs hflags hp href hw]
    simp only [hentry, Option.some.injEq, hp, true_and]
  · refine iff_of_false (fun hnew => ?_) fun h => hp h.1
    rw [pageMapvp_fills] at href hnew
    have habsent : ∀ x ∈ kernelFills virt phys length flags, ¬ Present x.entry := by
      intro x hx
      obtain ⟨i, -, rfl⟩ := mem_kernelFills.mp hx
      rw [pageAt_eq phys, present_pageAt hphys]
      exact hp
    have hold := fillPages_absent hs hflags href habsent hnew.2
    rw [hnew.1] at hold
    cases hold

/-- So does the boot stage, through a page more when the range is one of whole pages. -/
theorem bootNewly_iff (hb : Boot.Shaped b) (hflags : flags < pageSize) (hphys : phys % pageSize = 0)
    (href : (Boot.pageMapvp b virt phys length flags).refused = b.refused) :
    Boot.NewlyMapped b (Boot.pageMapvp b virt phys length flags) v f ↔ Present flags ∧
      ∃ i < Boot.pages length, vpn v = vpn (Boot.pageAt virt i) ∧ Blank b v ∧ frameOf (Boot.pageAt phys i) = f := by
  rw [Boot.newlyMapped_iff hb href]
  simp only [target_pageAt hphys hflags]
  by_cases hp : Present flags
  · simp only [hp, if_true, Option.some.injEq, true_and]
  · simp only [hp, if_false, reduceCtorEq, and_false, exists_false, false_and]

/-! ## When they agree -/

/-- The two functions work on address spaces in which the same pages have the same entries, get their frames, and stay
outside of the window's page. -/
structure Both (b s : State) (virt phys length flags : Nat) : Prop where
  boot : Boot.Shaped b
  kernel : TreeShaped s
  same : ∀ v, ¬ OnWindow v → walk b v = walk s v
  aligned : phys % pageSize = 0
  low : flags < pageSize
  small : ¬ Large flags
  off : ∀ i < pages length, ¬ OnWindow (Boot.pageAt virt i)
  bootGets : (Boot.pageMapvp b virt phys length flags).refused = b.refused
  kernelGets : (pageMapvp s virt phys length flags).refused = s.refused

theorem Both.blank (h : Both b s virt phys length flags) (v : Nat) : Blank s v ↔ Blank b v := by
  refine and_congr_right fun hw => ?_
  rw [h.same v hw]

theorem Both.pages_le (h : Both b s virt phys length flags) : Boot.pages length ≤ 2 ^ 24 :=
  Boot.pages_granted h.boot h.bootGets

theorem Both.pages_eq (h : Both b s virt phys length flags) :
    Boot.pages length = pages length + if length % pageSize = 0 then 1 else 0 := by
  rw [Boot.pages_eq h.pages_le]
  unfold pages
  split_ifs <;> omega

theorem Both.le_pages (h : Both b s virt phys length flags) : pages length ≤ Boot.pages length :=
  h.pages_eq ▸ Nat.le_add_right _ _

theorem Both.rounds_eq (h : Both b s virt phys length flags) : rounds length = pages length := by
  have hle := h.le_pages.trans h.pages_le
  unfold rounds
  omega

theorem target_of_blank (h : Blank s v) : target (walk s v) = none := by
  rw [h.2]
  rfl

/-- Rounds that give the pages at `a i` the frames of `p i` map what is wanted when each page that is not mapped has no
entry and gets its frame in one of them, and each page that gets a frame is one of the range with its frame. -/
structure Covers (s : State) (virt phys length n : Nat) (a p : Nat → Nat) : Prop where
  entry : ∀ i < pages length, target (walk s (Boot.pageAt virt i)) = none → walk s (Boot.pageAt virt i) = 0 ∧
    ∃ j < n, vpn (Boot.pageAt virt i) = vpn (a j) ∧ frameOf (p j) = frameOf (Boot.pageAt phys i)
  within : ∀ j < n, Blank s (a j) →
    ∃ i < pages length, vpn (a j) = vpn (Boot.pageAt virt i) ∧ frameOf (Boot.pageAt phys i) = frameOf (p j)

theorem covers_iff {a p : Nat → Nat} (hoff : ∀ i < pages length, ¬ OnWindow (Boot.pageAt virt i)) :
    (∀ v f, (Present flags ∧ ∃ j < n, vpn v = vpn (a j) ∧ Blank s v ∧ frameOf (p j) = f) ↔ Wanted s virt phys length v f) ↔
      (Present flags ∨ ∀ i < pages length, target (walk s (Boot.pageAt virt i)) ≠ none) ∧
        (Present flags → Covers s virt phys length n a p) := by
  constructor
  · intro hall
    refine ⟨?_, fun hp => ⟨fun i hi hnone => ?_, fun j hj hb => ?_⟩⟩
    · by_contra hno
      rw [not_or] at hno
      refine hno.2 fun i hi hnone => hno.1 ?_
      exact ((hall _ _).mpr ⟨i, hi, rfl, rfl, hnone⟩).1
    · obtain ⟨-, j, hj, heq, hb, hf⟩ := (hall _ _).mpr ⟨i, hi, rfl, rfl, hnone⟩
      exact ⟨hb.2, j, hj, heq, hf⟩
    · obtain ⟨i, hi, heq, hf, -⟩ := (hall _ _).mp ⟨hp, j, hj, rfl, hb, rfl⟩
      exact ⟨i, hi, heq, hf⟩
  · rintro ⟨hflags, hcovers⟩ v f
    constructor
    · rintro ⟨hp, j, hj, heq, hb, hf⟩
      obtain ⟨i, hi, hpage, hframe⟩ := (hcovers hp).within j hj ((blank_congr heq).mp hb)
      exact ⟨i, hi, heq.trans hpage, hframe.trans hf, target_of_blank hb⟩
    · rintro ⟨i, hi, heq, hf, hnone⟩
      rw [walk_congr heq] at hnone
      have hp : Present flags := hflags.resolve_right fun hno => hno i hi hnone
      obtain ⟨h0, j, hj, hpage, hframe⟩ := (hcovers hp).entry i hi hnone
      refine ⟨hp, j, hj, heq.trans hpage, ?_, hframe.trans hf⟩
      rw [blank_congr heq]
      exact ⟨hoff i hi, h0⟩

/-- The boot stage's rounds are those of the range and one behind it when the range is one of whole pages. -/
theorem Both.boot_covers (h : Both b s virt phys length flags) :
    Covers b virt phys length (Boot.pages length) (Boot.pageAt virt) (Boot.pageAt phys) ↔
      (∀ i < pages length, target (walk b (Boot.pageAt virt i)) = none → walk b (Boot.pageAt virt i) = 0) ∧
        (length % pageSize = 0 → ¬ Blank b (Boot.pageAt virt (pages length))) := by
  have hpages := h.pages_eq
  have hle := h.pages_le
  constructor
  · intro hcovers
    refine ⟨fun i hi hnone => (hcovers.entry i hi hnone).1, fun hwhole hblank => ?_⟩
    have hlast : pages length < Boot.pages length := by
      rw [hpages, if_pos hwhole]
      exact Nat.lt_succ_self _
    obtain ⟨i, hi, heq, -⟩ := hcovers.within (pages length) hlast hblank
    have hsame := Boot.pageAt_inj virt (by omega) (by omega) heq
    omega
  · rintro ⟨hentry, hbehind⟩
    refine ⟨fun i hi hnone => ⟨hentry i hi hnone, i, hi.trans_le h.le_pages, rfl, rfl⟩, fun j hj hb => ?_⟩
    by_cases hlt : j < pages length
    · exact ⟨j, hlt, rfl, rfl⟩
    · rw [hpages] at hj
      split_ifs at hj with hwhole
      · obtain rfl : j = pages length := by omega
        exact absurd hb (hbehind hwhole)
      · omega

/-- The kernel comes to a page of the range in its first `2 ^ 19` rounds, or not at all. -/
theorem Both.kernel_covers (h : Both b s virt phys length flags) :
    Covers b virt phys length (pages length) (pageAt virt) (pageAt phys) ↔
      (∀ i < pages length, target (walk b (Boot.pageAt virt i)) = none → walk b (Boot.pageAt virt i) = 0 ∧ i < 2 ^ 19) ∧
        ∀ i < pages length, 2 ^ 19 ≤ i → i < 2 ^ 20 → ¬ Blank b (pageAt virt i) := by
  have hle := h.le_pages.trans h.pages_le
  constructor
  · intro hcovers
    refine ⟨fun i hi hnone => ?_, fun i hi hlo hhi hblank => ?_⟩
    · obtain ⟨h0, j, hj, heq, -⟩ := hcovers.entry i hi hnone
      refine ⟨h0, ?_⟩
      by_contra hge
      rw [pageAt_eq, Boot.vpn_pageAt, Boot.vpn_pageAt] at heq
      unfold offset at heq
      split_ifs at heq <;> omega
    · obtain ⟨j, hj, heq, -⟩ := hcovers.within i hi hblank
      exact offset_back (by omega) (by omega) heq
  · rintro ⟨hentry, hback⟩
    refine ⟨fun i hi hnone => ?_, fun j hj hb => ?_⟩
    · obtain ⟨h0, hlt⟩ := hentry i hi hnone
      refine ⟨h0, i, hi, ?_, ?_⟩
      · rw [pageAt_eq, offset_of_lt hlt]
      · rw [pageAt_eq, offset_of_lt hlt]
    · have hmod := Nat.mod_le j (2 ^ 20)
      have hsame : offset (j % 2 ^ 20) = offset j := by
        unfold offset
        rw [Nat.mod_mod]
      have hlow : j % 2 ^ 20 < 2 ^ 19 := by
        by_contra hge
        refine hback (j % 2 ^ 20) (by omega) (by omega) (by omega) ?_
        rw [pageAt_eq, hsame, ← pageAt_eq]
        exact hb
      have hoff : offset j = j % 2 ^ 20 := if_pos hlow
      rw [pageAt_eq virt, pageAt_eq phys, hoff]
      exact ⟨j % 2 ^ 20, by omega, rfl, rfl⟩

/-- A page that is wanted and has no entry is one that the boot stage maps. -/
theorem Both.boot_iff (h : Both b s virt phys length flags) :
    (∀ v f, Boot.NewlyMapped b (Boot.pageMapvp b virt phys length flags) v f ↔ Wanted b virt phys length v f) ↔
      (Present flags ∨ ∀ i < pages length, target (walk b (Boot.pageAt virt i)) ≠ none) ∧
      (Present flags → (∀ i < pages length, target (walk b (Boot.pageAt virt i)) = none → walk b (Boot.pageAt virt i) = 0) ∧
        (length % pageSize = 0 → ¬ Blank b (Boot.pageAt virt (pages length)))) := by
  simp only [bootNewly_iff h.boot h.low h.aligned h.bootGets]
  rw [covers_iff h.off, h.boot_covers]

theorem Both.kernel_iff (h : Both b s virt phys length flags) :
    (∀ v f, Boot.NewlyMapped s (pageMapvp s virt phys length flags) v f ↔ Wanted b virt phys length v f) ↔
      (Present flags ∨ ∀ i < pages length, target (walk b (Boot.pageAt virt i)) ≠ none) ∧
      (Present flags → (∀ i < pages length, target (walk b (Boot.pageAt virt i)) = none →
          walk b (Boot.pageAt virt i) = 0 ∧ i < 2 ^ 19) ∧
        ∀ i < pages length, 2 ^ 19 ≤ i → i < 2 ^ 20 → ¬ Blank b (pageAt virt i)) := by
  simp only [kernelNewly_iff h.kernel h.low h.aligned h.kernelGets, h.rounds_eq, h.blank]
  rw [covers_iff h.off, h.kernel_covers]

theorem Both.kernel_plain (h : Both b s virt phys length flags) (hs : Plain s) :
    Plain (pageMapvp s virt phys length flags) :=
  hs.grown (pageMapvp_grown h.kernel h.low h.kernelGets) h.small

/-- A boot stage of seven pages and the loader leave address spaces in which the same pages have the same entries. -/
theorem walk_stageTables (v : Nat) : walk (Boot.stageTables 6) v = walk (kernelCreateNewPage fun _ _ => 0) v := by
  have hlen := (length_tablePath v).le
  have htable := Boot.table_stageTables (le_refl 6) hlen
  unfold walk
  cases hk : (kernelCreateNewPage fun _ _ => 0).table (tablePath v) with
  | none =>
      rw [hk, Renaming.table_state, Option.map_eq_none_iff] at htable
      rw [entry_of_none hk, entry_of_none htable]
  | some g =>
      have hlast : ∀ x ∈ firstTables, x.1.length = 3 → x.2 = 4 ∨ x.2 = 5 := by decide
      have hg := hlast _ (table_kernelCreateNewPage _ hlen hk) (length_tablePath v)
      have hplace : Boot.kernelPlace.place (g + 1) = g := by
        obtain rfl | rfl := hg <;> rfl
      rw [hk, ← hplace] at htable
      rw [entry_of_table hk, entry_of_table ((Renaming.table_state_eq _ _ _ _).mp htable)]
      obtain rfl | rfl := hg
      · rw [Boot.mem_firstPt (by decide), mem_kernelCreateNewPage _ (by decide)]
        simp [Nat.shiftLeft_eq, Nat.lt_succ_iff, pageSize]
      · rw [Boot.mem_stageTables 6 (by decide), mem_kernelCreateNewPage _ (by decide)]
        simp

theorem both_stageTables (hpages : pages length ≤ 2)
    (hboot : (Boot.pageMapvp (Boot.stageTables 6) 0x8000 0x8000 length 3).refused = (Boot.stageTables 6).refused)
    (hkernel : (pageMapvp (kernelCreateNewPage fun _ _ => 0) 0x8000 0x8000 length 3).refused = 0) :
    Both (Boot.stageTables 6) (kernelCreateNewPage fun _ _ => 0) 0x8000 0x8000 length 3 where
  boot := Boot.shaped_stageTables (le_refl 6)
  kernel := treeShaped_kernelCreateNewPage _
  same v _ := walk_stageTables v
  aligned := by decide
  low := by decide
  small := by decide
  off i hi := by
    apply not_onWindow
    apply tablePath_ne_window
    unfold Boot.pageAt qword pageSize
    omega
  bootGets := hboot
  kernelGets := hkernel

/-- The two functions map the same, and what they should; in neither a table turns into a large page. -/
theorem agree_iff (h : Both b s virt phys length flags) :
    (Agree b (Boot.pageMapvp b virt phys length flags) s (pageMapvp s virt phys length flags) virt phys length ↔
      Matches b virt length flags) ∧
    (Plain b → Plain (Boot.pageMapvp b virt phys length flags)) ∧
    (Plain s → Plain (pageMapvp s virt phys length flags)) := by
  refine ⟨⟨?_, ?_⟩, Boot.pageMapvp_plain h.boot h.bootGets, h.kernel_plain⟩
  · rintro ⟨hboot, hkernel⟩
    obtain ⟨hflags, hbehind⟩ := h.boot_iff.mp hboot
    obtain ⟨-, hback⟩ := h.kernel_iff.mp hkernel
    exact ⟨hflags, fun hp => (hback hp).1, fun hp => (hbehind hp).2, fun hp => (hback hp).2⟩
  · rintro ⟨hflags, hentry, hbehind, hback⟩
    refine ⟨h.boot_iff.mpr ⟨hflags, fun hp => ⟨fun i hi hnone => ?_, hbehind hp⟩⟩, h.kernel_iff.mpr ⟨hflags, fun hp =>
      ⟨hentry hp, hback hp⟩⟩⟩
    exact (hentry hp i hi hnone).1

/-- Two pages behind the boot stage. -/
theorem agree_iff_twoPages : Agree (Boot.stageTables 6) (Boot.pageMapvp (Boot.stageTables 6) 0x8000 0x8000 0x1800 3)
    (kernelCreateNewPage fun _ _ => 0) (pageMapvp (kernelCreateNewPage fun _ _ => 0) 0x8000 0x8000 0x1800 3)
    0x8000 0x8000 0x1800 := by
  have hpages : pages 0x1800 = 2 := by decide
  refine (agree_iff (both_stageTables hpages.le (by decide +kernel) (by decide +kernel))).1.mpr
    ⟨.inl (by decide), ?_, ?_, ?_⟩
  · intro _ i hi _
    rw [hpages] at hi
    refine ⟨?_, by omega⟩
    obtain rfl | rfl : i = 0 ∨ i = 1 := by omega
    · decide +kernel
    · decide +kernel
  · intro _ hwhole
    exact absurd hwhole (by decide)
  · intro _ i hi hlow
    omega

/-- For one whole page the boot stage maps two. -/
theorem not_agree_wholePage : Both (Boot.stageTables 6) (kernelCreateNewPage fun _ _ => 0) 0x8000 0x8000 0x1000 3 ∧
    ¬ Agree (Boot.stageTables 6) (Boot.pageMapvp (Boot.stageTables 6) 0x8000 0x8000 0x1000 3)
      (kernelCreateNewPage fun _ _ => 0) (pageMapvp (kernelCreateNewPage fun _ _ => 0) 0x8000 0x8000 0x1000 3)
      0x8000 0x8000 0x1000 := by
  have hpages : pages 0x1000 = 1 := by decide
  refine ⟨both_stageTables (by omega) (by decide +kernel) (by decide +kernel), fun h => ?_⟩
  have hnew : Boot.NewlyMapped (Boot.stageTables 6) (Boot.pageMapvp (Boot.stageTables 6) 0x8000 0x8000 0x1000 3) 0x9000 9 :=
    ⟨by decide +kernel, by decide +kernel⟩
  obtain ⟨i, hi, heq, -⟩ := (h.boot 0x9000 9).mp hnew
  obtain rfl : i = 0 := by omega
  exact absurd heq (by decide)

end HaOS.Paging
