import HaOS.Paging.Fill
import HaOS.Paging.RoundTrip

/-!
# The rights of a page

The processor allows a write, or an access from user mode, when every entry on the way to the page does.

* `upper`, `Allows` : the entries above the page table, and what all entries together allow;
* `Stamped` : the rounds over a list of pages; `stamped_pageMapv`, `stamped_pageMapvp`;
* `rights_iff` : when the pages that a call maps get the rights it asks for.
-/

namespace HaOS.Paging

variable {s t u : State} {p q : List Index} {i : Index} {vs ws : List Nat}
  {n m f v w e bit flags phys virt length : Nat}

def pageUserspace : Nat := 1 <<< 2

/-- The tables above the page table on the way to a page, by their paths, and where they are entered. -/
def steps (v : Nat) : List (List Index × Index) :=
  [([], pmlt4Index v), ([pmlt4Index v], pdptIndex v), ([pmlt4Index v, pdptIndex v], pdtIndex v)]

def upper (s : State) (v : Nat) : List Nat := (steps v).map fun x => s.entry x.1 x.2

def Allows (s : State) (v bit : Nat) : Prop := (∀ e ∈ upper s v, e &&& bit ≠ 0) ∧ walk s v &&& bit ≠ 0

instance (s : State) (v bit : Nat) : Decidable (Allows s v bit) := inferInstanceAs (Decidable (_ ∧ _))

/-- The page has the rights that the flags ask for, and no others. -/
def Exact (flags : Nat) (s : State) (v : Nat) : Prop :=
  ∀ bit ∈ [pageReadwrite, pageUserspace], (Allows s v bit ↔ flags &&& bit ≠ 0)

/-- What the upper entries that are there have to have for this: the rights asked for; and where the physical address adds
a right to the entry of the page, not all of them are there with it. -/
def Compatible (flags phys : Nat) (s : State) (v : Nat) : Prop :=
  ∀ bit ∈ [pageReadwrite, pageUserspace],
    (flags &&& bit ≠ 0 → ∀ e ∈ upper s v, Present e → e &&& bit ≠ 0) ∧
    (flags &&& bit = 0 → phys &&& bit ≠ 0 → ∃ e ∈ upper s v, ¬ (Present e ∧ e &&& bit ≠ 0))

/-- A page that the processor finds after the step, and did not before. -/
def Newly (s t : State) (v : Nat) : Prop := ¬ OnWindow v ∧ ¬ Present (walk s v) ∧ Present (walk t v)

/-! ## Upper entries -/

theorem steps_spec {x : List Index × Index} (hx : x ∈ steps v) : x.1.length < 3 ∧ ∃ q, x.1 ++ [x.2] ++ q = tablePath v := by
  simp only [steps, List.mem_cons, List.not_mem_nil, or_false] at hx
  obtain rfl | rfl | rfl := hx
  · exact ⟨Nat.succ_pos 2, [pdptIndex v, pdtIndex v], rfl⟩
  · exact ⟨Nat.one_lt_succ_succ 1, [pdtIndex v], rfl⟩
  · exact ⟨Nat.lt_succ_self 2, [], rfl⟩

theorem upper_congr (h : vpn v = vpn w) : upper s v = upper s w := by
  have hp := ((vpn_eq_iff v w).mp h).1
  simp only [tablePath, List.cons.injEq, and_true] at hp
  rw [upper, upper, steps, steps, hp.1, hp.2.1, hp.2.2]

theorem present_of_walk (h : walk s v ≠ 0) {x : List Index × Index} (hx : x ∈ steps v) : Present (s.entry x.1 x.2) := by
  obtain ⟨-, q, hq⟩ := steps_spec hx
  have hnext : s.table (x.1 ++ [x.2]) ≠ none := fun hnone =>
    table_ne_none_of_walk h (hq ▸ table_append_none hnone q)
  rcases hn : s.table x.1 with - | n
  · exact absurd (table_append_none hn [x.2]) hnext
  · rw [entry_of_table hn]
    by_contra habsent
    exact hnext (table_absent hn habsent)

/-! ## Rounds -/

/-- A present entry with the rights of `phys` and of the flags. -/
def Leaf (flags phys e : Nat) : Prop :=
  Present e ∧ ∀ bit ∈ [pageReadwrite, pageUserspace], (e &&& bit ≠ 0 ↔ phys &&& bit ≠ 0 ∨ flags &&& bit ≠ 0)

/-- From `s` to `t` the pages of the list that had no entry get one with the rights of `phys` and of the flags. -/
structure Stamped (flags phys : Nat) (s t : State) (vs : List Nat) : Prop where
  shape : TreeShaped t
  grown : Grown flags s t
  other : ∀ w, ¬ OnWindow w → (∀ v ∈ vs, vpn w ≠ vpn v) → walk t w = walk s w
  kept : ∀ w, ¬ OnWindow w → walk s w ≠ 0 → walk t w = walk s w
  leaf : ∀ v ∈ vs, walk s v = 0 → Leaf flags phys (walk t v)

theorem Stamped.nil (hs : TreeShaped s) : Stamped flags phys s s [] :=
  ⟨hs, fun _ _ _ => .inl rfl, fun _ _ _ => rfl, fun _ _ _ => rfl, fun _ hv => absurd hv List.not_mem_nil⟩

theorem Stamped.append (hoff : ∀ v ∈ vs ++ ws, ¬ OnWindow v) (h : Stamped flags phys s t vs)
    (h' : Stamped flags phys t u ws) : Stamped flags phys s u (vs ++ ws) where
  shape := h'.shape
  grown := h.grown.trans h'.grown
  other w hw hne := by
    rw [h'.other w hw fun v hv => hne v (List.mem_append_right vs hv),
      h.other w hw fun v hv => hne v (List.mem_append_left ws hv)]
  kept w hw h0 := by
    have ht := h.kept w hw h0
    rw [h'.kept w hw (by rwa [ht]), ht]
  leaf w hw h0 := by
    have hoffw := hoff w hw
    by_cases hin : ∃ v ∈ vs, vpn w = vpn v
    · -- an earlier round has set the entry
      obtain ⟨v, hv, heq⟩ := hin
      rw [walk_congr heq] at h0
      have hleaf := h.leaf v hv h0
      rw [walk_congr heq, h'.kept v (hoff v (List.mem_append_left ws hv)) (ne_zero_of_present hleaf.1)]
      exact hleaf
    · have ht : walk t w = 0 := by
        rw [h.other w hoffw fun v hv heq => hin ⟨v, hv, heq⟩, h0]
      rcases List.mem_append.mp hw with hv | hv
      · exact absurd ⟨w, hv, rfl⟩ hin
      · exact h'.leaf w hv ht

theorem Stamped.single (hs : TreeShaped t) (hg : Grown flags s t) (hext : Extends flags (Only (tablePath v) (ptIndex v)) s t)
    (hv : ¬ OnWindow v) (hwalk : walk t v = if walk s v = 0 then e else walk s v) (he : Leaf flags phys e) :
    Stamped flags phys s t [v] where
  shape := hs
  grown := hg
  other w hw hne := hext.entry _ _ rfl hw fun h => hne v (List.mem_singleton_self v) ((vpn_eq_iff _ _).mpr ⟨h.1, h.2⟩)
  kept w hw h0 := by
    by_cases heq : vpn w = vpn v
    · rw [walk_congr heq] at h0 ⊢
      rw [walk_congr heq, hwalk, if_neg h0]
    · exact hext.entry _ _ rfl hw fun h => heq ((vpn_eq_iff _ _).mpr ⟨h.1, h.2⟩)
  leaf w hw h0 := by
    obtain rfl := List.mem_singleton.mp hw
    rwa [hwalk, if_pos h0]

theorem stamped_forPages {body : Nat → State → State} (hs : TreeShaped s)
    (hle : ∀ i u, u.refused ≤ (body i u).refused) (hoff : ∀ i < n, ¬ OnWindow (pageAt virt i))
    (hround : ∀ i < n, ∀ u, TreeShaped u → (body i u).refused = u.refused → Stamped flags phys u (body i u) [pageAt virt i])
    (href : (forPages body n s).refused = s.refused) :
    Stamped flags phys s (forPages body n s) ((List.range n).map (pageAt virt)) := by
  induction n with
  | zero => exact .nil hs
  | succ n ih =>
      have href' := refused_forPages hle href (Nat.le_succ n)
      have hrest := ih (fun i hi => hoff i (Nat.lt_succ_of_lt hi)) (fun i hi => hround i (Nat.lt_succ_of_lt hi)) href'
      rw [List.range_succ, List.map_append, List.map_singleton]
      refine hrest.append (fun v hv => ?_) (hround n (Nat.lt_succ_self n) _ hrest.shape (href.trans href'.symm))
      rw [← List.map_singleton, ← List.map_append, ← List.range_succ] at hv
      obtain ⟨i, hi, rfl⟩ := List.mem_map.mp hv
      exact hoff i (List.mem_range.mp hi)

theorem and_right_eq (hbit : bit ∈ [pageReadwrite, pageUserspace]) (a : Nat) : a &&& bit = a % 8 &&& bit := by
  have hlt : bit < 2 ^ 3 := by
    simp only [List.mem_cons, List.not_mem_nil, or_false] at hbit
    obtain rfl | rfl := hbit <;> decide
  have hmod := Nat.and_mod_two_pow (a := a) (b := bit) (n := 3)
  rwa [Nat.mod_eq_of_lt hlt, Nat.mod_eq_of_lt (Nat.and_lt_two_pow a hlt)] at hmod

theorem leaf_or (hp : Present flags) {a : Nat} (ha : a % 8 = phys % 8) : Leaf flags phys (a ||| flags) := by
  refine ⟨?_, fun bit hbit => ?_⟩
  · rw [present_iff] at hp ⊢
    exact Nat.or_mod_two_eq_one.mpr (.inr hp)
  · rw [Nat.and_or_distrib_right, Ne, Nat.or_eq_zero_iff, not_and_or, and_right_eq hbit a, ha, ← and_right_eq hbit phys]

theorem pageAt_mod (virt i : Nat) : pageAt virt i % 8 = virt % 8 := by
  unfold pageAt sext32 qword dword pageSize
  split_ifs <;> omega

theorem stamped_pageMapv (hs : TreeShaped s) (hflags : flags < pageSize) (hp : Present flags)
    (hoff : ∀ v ∈ pageList virt length, ¬ OnWindow v) (href : (pageMapv s virt length flags).refused = s.refused) :
    Stamped flags 0 s (pageMapv s virt length flags) (pageList virt length) := by
  have hoff' : ∀ i < rounds length, ¬ OnWindow (pageAt virt i) := fun i hi =>
    hoff _ (List.mem_map_of_mem (List.mem_range.mpr hi))
  refine stamped_forPages hs (fun _ _ => refused_le_mapvPage) hoff' (fun i hi u hu hr => ?_) href
  obtain ⟨f, hf⟩ := mapvPage_spec hu hflags (hoff' i hi) hr
  refine .single hf.written.shape (mapvPage_stands hu hflags hr).grown hf.written.ext (hoff' i hi) (hf.walk hp) ?_
  apply leaf_or hp
  unfold pageSize
  omega

theorem stamped_pageMapvp (hs : TreeShaped s) (hflags : flags < pageSize) (hp : Present flags)
    (hoff : ∀ v ∈ pageList virt length, ¬ OnWindow v) (href : (pageMapvp s virt phys length flags).refused = s.refused) :
    Stamped flags phys s (pageMapvp s virt phys length flags) (pageList virt length) := by
  have hoff' : ∀ i < rounds length, ¬ OnWindow (pageAt virt i) := fun i hi =>
    hoff _ (List.mem_map_of_mem (List.mem_range.mpr hi))
  refine stamped_forPages hs (fun _ _ => refused_le_mapvpPage) hoff' (fun i hi u hu hr => ?_) href
  have hf := mapvpPage_spec hu hflags (hoff' i hi) hr
  refine .single hf.written.shape (mapvpPage_grown hu hflags hr) hf.written.ext (hoff' i hi) (hf.walk hp) ?_
  exact leaf_or hp (pageAt_mod phys i)

/-! ## Rights -/

/-- An entry that is present after the rounds has a right when it had it before, or was created with it. -/
theorem Grown.entry_bit (h : Grown flags s t) (hbit : bit ∈ [pageReadwrite, pageUserspace]) {x : List Index × Index}
    (hx : x.1.length < 3) (hpres : Present (t.entry x.1 x.2)) :
    t.entry x.1 x.2 &&& bit ≠ 0 ↔ if Present (s.entry x.1 x.2) then s.entry x.1 x.2 &&& bit ≠ 0 else flags &&& bit ≠ 0 := by
  rcases h x.1 x.2 hx with heq | ⟨habsent, m, hm⟩
  · rw [if_pos (heq ▸ hpres), heq]
  · have hzero : m * pageSize % 8 = 0 % 8 := by
      unfold pageSize
      omega
    rw [if_neg habsent, hm, Nat.and_or_distrib_right, and_right_eq hbit (m * pageSize), hzero, Nat.zero_and, Nat.zero_or]

/-- A page of the list that had no entry has exactly the rights asked for when the entries above it were compatible. -/
theorem Stamped.exact_iff (h : Stamped flags phys s t vs) (hv : v ∈ vs) (h0 : walk s v = 0) :
    Exact flags t v ↔ Compatible flags phys s v := by
  have hleaf := h.leaf v hv h0
  apply forall₂_congr
  intro bit hbit
  have hupper : (∀ e ∈ upper t v, e &&& bit ≠ 0) ↔
      ∀ e ∈ upper s v, if Present e then e &&& bit ≠ 0 else flags &&& bit ≠ 0 := by
    simp only [upper, List.forall_mem_map]
    apply forall₂_congr
    intro x hx
    exact h.grown.entry_bit hbit (steps_spec hx).1 (present_of_walk (ne_zero_of_present hleaf.1) hx)
  rw [Allows, hupper, hleaf.2 bit hbit]
  by_cases hf : flags &&& bit = 0
  · have hall : (∀ e ∈ upper s v, if Present e then e &&& bit ≠ 0 else flags &&& bit ≠ 0) ↔
        ∀ e ∈ upper s v, Present e ∧ e &&& bit ≠ 0 := by
      apply forall₂_congr
      intro e _
      split_ifs with hpres
      · exact (and_iff_right hpres).symm
      · exact iff_of_false (not_not.mpr hf) fun h => hpres h.1
    rw [hall]
    constructor
    · intro hex
      refine ⟨fun hne => absurd hf hne, fun _ hphys => ?_⟩
      by_contra hno
      exact hex.mp ⟨fun e he => not_not.mp fun hn => hno ⟨e, he, hn⟩, .inl hphys⟩ hf
    · -- what the call does not ask for could only come from the address
      intro hcomp
      refine iff_of_false (fun ⟨hup, hor⟩ => ?_) (not_not.mpr hf)
      obtain ⟨e, he, hn⟩ := hcomp.2 hf (hor.resolve_right (not_not.mpr hf))
      exact hn (hup e he)
  · have hall : (∀ e ∈ upper s v, if Present e then e &&& bit ≠ 0 else flags &&& bit ≠ 0) ↔
        ∀ e ∈ upper s v, Present e → e &&& bit ≠ 0 := by
      apply forall₂_congr
      intro e _
      split_ifs with hpres
      · exact ⟨fun h _ => h, fun h => h hpres⟩
      · exact iff_of_true hf fun h => absurd h hpres
    rw [hall]
    constructor
    · exact fun hex => ⟨fun _ => (hex.mpr hf).1, fun h => absurd h hf⟩
    · exact fun hcomp => iff_of_true ⟨hcomp.1 hf, .inr hf⟩ hf

theorem exact_congr (h : vpn v = vpn w) (hw : Exact flags s w) : Exact flags s v := by
  intro bit hbit
  rw [Allows, upper_congr h, walk_congr h]
  exact hw bit hbit

theorem Stamped.newly_iff (hoff : ∀ v ∈ vs, ¬ OnWindow v) (h : Stamped flags phys s t vs) :
    (∀ v, Newly s t v → Exact flags t v) ↔ ∀ v ∈ vs, walk s v = 0 → Compatible flags phys s v := by
  constructor
  · intro hall v hv h0
    have habsent : ¬ Present (walk s v) := by
      rw [h0]
      decide
    exact (h.exact_iff hv h0).mp (hall v ⟨hoff v hv, habsent, (h.leaf v hv h0).1⟩)
  · intro hcomp v ⟨hw, habsent, hpres⟩
    by_cases hin : ∃ w ∈ vs, vpn v = vpn w
    · obtain ⟨w, hwv, heq⟩ := hin
      rw [walk_congr heq] at habsent hpres
      have h0 : walk s w = 0 := by
        by_contra hne
        exact habsent (h.kept w (hoff w hwv) hne ▸ hpres)
      exact exact_congr heq ((h.exact_iff hwv h0).mpr (hcomp w hwv h0))
    · rw [h.other v hw fun w hwv heq => hin ⟨w, hwv, heq⟩] at hpres
      exact absurd hpres habsent

/-- The pages that a call maps get exactly the rights that it asks for when the entries above them were compatible. -/
theorem rights_iff (hs : TreeShaped s) (hflags : flags < pageSize) (hp : Present flags)
    (hoff : ∀ v ∈ pageList virt length, ¬ OnWindow v) :
    ((pageMapv s virt length flags).refused = s.refused →
      ((∀ v, Newly s (pageMapv s virt length flags) v → Exact flags (pageMapv s virt length flags) v) ↔
        ∀ v ∈ pageList virt length, walk s v = 0 → Compatible flags 0 s v)) ∧
    ((pageMapvp s virt phys length flags).refused = s.refused →
      ((∀ v, Newly s (pageMapvp s virt phys length flags) v → Exact flags (pageMapvp s virt phys length flags) v) ↔
        ∀ v ∈ pageList virt length, walk s v = 0 → Compatible flags phys s v)) :=
  ⟨fun href => (stamped_pageMapv hs hflags hp hoff href).newly_iff hoff,
    fun href => (stamped_pageMapvp hs hflags hp hoff href).newly_iff hoff⟩

/-- A kernel page, below the loader's first tables. -/
theorem rights_iff_firstTables :
    (∀ v, Newly (kernelCreateNewPage fun _ _ => 0) (pageMapv (kernelCreateNewPage fun _ _ => 0) 0x400000 0x1000 3) v →
      Exact 3 (pageMapv (kernelCreateNewPage fun _ _ => 0) 0x400000 0x1000 3) v) ↔
      ∀ v ∈ pageList 0x400000 0x1000, walk (kernelCreateNewPage fun _ _ => 0) v = 0 →
        Compatible 3 0 (kernelCreateNewPage fun _ _ => 0) v :=
  (@rights_iff _ 3 0 0x400000 0x1000 (treeShaped_kernelCreateNewPage _) (by decide) (by decide) (by decide)).1
    (by decide +kernel)

/-- A page for a user program there: the loader's tables are not for user mode. -/
theorem not_exact_userPage : TreeShaped (kernelCreateNewPage fun _ _ => 0) ∧
    (∀ v ∈ pageList 0x400000 0x1000, ¬ OnWindow v) ∧
    (pageMapv (kernelCreateNewPage fun _ _ => 0) 0x400000 0x1000 7).refused = 0 ∧
    ¬ ∀ v, Newly (kernelCreateNewPage fun _ _ => 0) (pageMapv (kernelCreateNewPage fun _ _ => 0) 0x400000 0x1000 7) v →
      Exact 7 (pageMapv (kernelCreateNewPage fun _ _ => 0) 0x400000 0x1000 7) v := by
  refine ⟨treeShaped_kernelCreateNewPage _, by decide, by decide +kernel, fun hall => ?_⟩
  have hnew : Newly (kernelCreateNewPage fun _ _ => 0)
      (pageMapv (kernelCreateNewPage fun _ _ => 0) 0x400000 0x1000 7) 0x400000 :=
    ⟨by decide, by decide +kernel, by decide +kernel⟩
  have hnot : ¬ Allows (pageMapv (kernelCreateNewPage fun _ _ => 0) 0x400000 0x1000 7) 0x400000 pageUserspace := by
    decide +kernel
  exact hnot ((hall _ hnew pageUserspace (by decide)).mpr (by decide))

end HaOS.Paging
