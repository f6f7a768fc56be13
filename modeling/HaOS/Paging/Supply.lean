import HaOS.Paging.Shape

/-!
# How many frames a walk takes

* `Outcome` : a visit leaves the tables as they are, or adds one, or finds no free frame;
* `prefixes`, `missing` : the tables on the way to a page, and how many of them do not exist;
* `Supplied` : a walk gets its frames exactly when there are as many as tables are missing; `tablesFor_supplied`;
* `needed`, `Round`, `enough_foldl` : the same for a loop over pages.
-/

namespace HaOS.Paging

variable {s t u : State} {p q r : List Index} {qs : List (List Index)} {i : Index} {n m f flags virt : Nat}

theorem table_append_none (h : s.table p = none) (q : List Index) : s.table (p ++ q) = none := by
  unfold State.table at h ⊢
  rw [Lib.Radix.descend_append, h]
  rfl

theorem table_present (h : s.table p = some n) (hpres : Present (s.mem n i)) :
    s.table (p ++ [i]) = some (frameOf (s.mem n i)) := by
  rw [table_snoc h, target, if_pos hpres]

theorem table_absent (h : s.table p = some n) (hpres : ¬ Present (s.mem n i)) : s.table (p ++ [i]) = none := by
  rw [table_snoc h, target, if_neg hpres]

/-! ## One table -/

/-- From `s` to `t` the table at `q` is `f`, or is created there, or finds no frame. Without the present bit a table that
is created is at no path. -/
inductive Outcome (flags : Nat) (s t : State) (q : List Index) (f : Nat) : Prop
  | kept (hq : s.table q = some f) (hfree : t.free = s.free) (href : t.refused = s.refused)
    (htable : ∀ r, r.length ≤ 3 → t.table r = s.table r)
  | made (hq : s.table q = none) (hf : f ∈ s.free) (hfree : t.free = s.free.erase f) (href : t.refused = s.refused)
    (htable : ∀ r, r.length ≤ 3 → t.table r = if Present flags ∧ r = q then some f else s.table r)
  | full (hq : s.table q = none) (hfull : s.free = ∅) (href : s.refused < t.refused)

theorem free_congr (h : t.bitmap = s.bitmap) : t.free = s.free := by
  unfold State.free
  rw [h]

theorem Visit.outcome (h : Visit flags s n i t f) (hs : TreeShaped s) (hflags : flags < pageSize) (hp : p.length < 3)
    (hn : At flags s p n) (hex : s.table p = none ∨ s.table p = some n) : Outcome flags s t (p ++ [i]) f := by
  have hnone : ¬ Present (s.mem n i) → s.table (p ++ [i]) = none := by
    intro habsent
    obtain hp | hp := hex
    · exact table_append_none hp [i]
    · exact table_absent hp habsent
  cases h with
  | present hk hbitmap href hpres =>
      obtain hn | ⟨-, hn⟩ := hn
      · exact .kept (table_present hn hpres) (free_congr hbitmap) href hk.table
      · rw [hn.zero] at hpres
        exact absurd rfl hpres
  | @fresh u _ hk hm hfree href habsent hold hzero =>
      have hlinked := hs.attach hk hflags hp hn (by rwa [hold]) (mem_free.mp hm).2 (marked_of_free hm hfree) hzero
      refine .made (hnone habsent) hm hfree href fun r hr => ?_
      by_cases hpres : Present flags
      · have hu := hs.keeps hk
        have hnp : u.table p = some n := (hk.table p hp.le).trans (hn.resolve_right fun h => h.1 hpres)
        have hmb : f ≠ bitmapFrame := by
          rintro rfl
          exact (mem_free.mp hm).2 hs.bitmap.1.2
        have htable := (hu.attach_present hflags hpres hp hnp (by rwa [hold]) (marked_of_free hm hfree)
          (NoTable.keeps hk (hs.noTable (mem_free.mp hm).2)) hmb hzero).2 r hr
        rw [htable, hk.table r hr]
        simp only [hpres, true_and]
      · have htable := table_store_absent (by rwa [hold] : ¬ Present (u.mem n i))
          (fun h => hpres ((present_or f).mp h)) r
        rw [htable, hk.table r hr, if_neg fun h => hpres h.1]
  | refused habsent hfull href => exact .full (hnone habsent) hfull href

theorem Outcome.refused_le (h : Outcome flags s t q f) : s.refused ≤ t.refused := by
  cases h with
  | kept _ _ href => exact href.ge
  | made _ _ _ href => exact href.ge
  | full _ _ href => exact href.le

theorem Outcome.place (h : Outcome flags s t q f) (hq : q.length ≤ 3) (href : t.refused = s.refused) :
    t.table q = none ∨ t.table q = some f := by
  cases h with
  | kept h _ _ htable => exact .inr ((htable q hq).trans h)
  | made h _ _ _ htable =>
      rw [htable q hq]
      split_ifs
      · exact .inr rfl
      · exact .inl h
  | full _ _ hlt => omega

/-! ## The tables on the way -/

def prefixes (virt : Nat) : List (List Index) :=
  [[pmlt4Index virt], [pmlt4Index virt, pdptIndex virt], tablePath virt]

def State.has (s : State) (r : List Index) : Bool := (s.table r).isSome

/-- The tables that do not exist; `has` says which do. -/
def missing (has : List Index → Bool) (qs : List (List Index)) : Nat := qs.countP fun r => !has r

/-- From `s` to `t` the tables at `qs` are looked up and created. -/
structure Supplied (flags : Nat) (s t : State) (qs : List (List Index)) : Prop where
  refused_le : s.refused ≤ t.refused
  enough : t.refused = s.refused ↔ missing s.has qs ≤ s.free.card
  left : t.refused = s.refused → t.free.card + missing s.has qs = s.free.card
  has : t.refused = s.refused → ∀ r, r.length ≤ 3 → t.has r = (s.has r || decide (Present flags) && decide (r ∈ qs))
  table : t.refused = s.refused → ∀ r g, r.length ≤ 3 → s.table r = some g → t.table r = some g
  taken : t.refused = s.refused → Present flags → ∀ g ∈ s.free, g ∉ t.free → ¬ t.NoTable g

theorem has_eq_false (r : List Index) : s.has r = false ↔ s.table r = none := by
  rw [State.has, Option.isSome_eq_false_iff, Option.isNone_iff_eq_none]

theorem missing_snoc (has : List Index → Bool) (qs : List (List Index)) :
    missing has (qs ++ [q]) = missing has qs + if has q then 0 else 1 := by
  unfold missing
  rw [List.countP_append, List.countP_singleton]
  cases has q <;> rfl

theorem missing_nil (has : List Index → Bool) : missing has [] = 0 := rfl

theorem Supplied.nil (s : State) : Supplied flags s s [] where
  refused_le := le_refl _
  enough := by
    rw [missing_nil]
    exact ⟨fun _ => Nat.zero_le _, fun _ => rfl⟩
  left _ := by
    rw [missing_nil]
    exact Nat.add_zero _
  has _ r _ := by simp
  table _ _ _ _ h := h
  taken _ _ g hg hng := absurd hg hng

/-- A table that is there takes no frame. -/
theorem Supplied.kept (h : Supplied flags s t qs) (href : t.refused = s.refused) (hsq : s.has q = true)
    (hfree : u.free = t.free) (href' : u.refused = t.refused) (htable : ∀ r, r.length ≤ 3 → u.table r = t.table r) :
    Supplied flags s u (qs ++ [q]) := by
  have hm : missing s.has (qs ++ [q]) = missing s.has qs := by
    rw [missing_snoc, hsq]
    rfl
  refine ⟨h.refused_le.trans href'.ge, ?_, fun _ => ?_, fun _ r hr => ?_, fun _ r g hr hg => ?_, fun _ hp g hg hng => ?_⟩
  · rw [hm, href']
    exact h.enough
  · rw [hm, hfree]
    exact h.left href
  · rw [State.has, htable r hr, ← State.has, h.has href r hr]
    by_cases hrq : r = q
    · rw [hrq, hsq]
      rfl
    · simp [hrq]
  · rw [htable r hr]
    exact h.table href r g hr hg
  · rw [hfree] at hng
    exact fun hno => h.taken href hp g hg hng fun r hr => by
      rw [← htable r hr]
      exact hno r hr

/-- A table that is created takes the frame `f`. -/
theorem Supplied.made (h : Supplied flags s t qs) (href : t.refused = s.refused) (hq : q.length ≤ 3)
    (hsq : s.has q = false) (hqt : t.table q = none) (hf : f ∈ t.free) (hfree : u.free = t.free.erase f)
    (href' : u.refused = t.refused)
    (htable : ∀ r, r.length ≤ 3 → u.table r = if Present flags ∧ r = q then some f else t.table r) :
    Supplied flags s u (qs ++ [q]) := by
  have hm : missing s.has (qs ++ [q]) = missing s.has qs + 1 := by
    rw [missing_snoc, hsq]
    rfl
  have hleft := h.left href
  have hcard := Finset.card_erase_add_one hf
  have hstay : ∀ r g, r.length ≤ 3 → t.table r = some g → u.table r = some g := by
    intro r g hr hg
    rw [htable r hr, if_neg, hg]
    rintro ⟨-, rfl⟩
    rw [hqt] at hg
    cases hg
  refine ⟨h.refused_le.trans href'.ge, ?_, fun _ => ?_, fun _ r hr => ?_, fun _ r g hr hg => ?_, fun _ hp g hg hng => ?_⟩
  · rw [hm, href', iff_true_left href]
    omega
  · rw [hm, hfree]
    omega
  · by_cases hp : Present flags
    · by_cases hrq : r = q
      · rw [State.has, htable r hr, if_pos ⟨hp, hrq⟩]
        simp [hp, hrq]
      · rw [State.has, htable r hr, if_neg fun h => hrq h.2, ← State.has, h.has href r hr]
        simp [hrq]
    · rw [State.has, htable r hr, if_neg fun h => hp h.1, ← State.has, h.has href r hr]
      simp [hp]
  · exact hstay r g hr (h.table href r g hr hg)
  · by_cases hgf : g = f
    · intro hno
      refine hno q hq ?_
      rw [htable q hq, if_pos ⟨hp, rfl⟩, hgf]
    · have hgt : g ∉ t.free := by
        intro hg
        refine hng ?_
        rw [hfree]
        exact Finset.mem_erase.mpr ⟨hgf, hg⟩
      refine fun hno => h.taken href hp g hg hgt fun r hr hrg => hno r hr (hstay r g hr hrg)

/-- Once a frame was refused, only the count of the frames matters. -/
theorem supplied_refused (hlt : s.refused < u.refused) (hmany : ¬ missing s.has qs ≤ s.free.card) :
    Supplied flags s u qs := by
  have hne : u.refused ≠ s.refused := by omega
  refine ⟨hlt.le, ⟨fun h => absurd h hne, fun h => absurd h hmany⟩, ?_, ?_, ?_, ?_⟩
  all_goals exact fun h => absurd h hne

theorem Supplied.snoc (h : Supplied flags s t qs) (hle : t.refused ≤ u.refused) (hq : q.length ≤ 3) (hnew : q ∉ qs)
    (hstep : t.refused = s.refused → Outcome flags t u q f) : Supplied flags s u (qs ++ [q]) := by
  by_cases href : t.refused = s.refused
  · have hhas : t.has q = s.has q := by
      rw [h.has href q hq, decide_eq_false hnew, Bool.and_false, Bool.or_false]
    cases hstep href with
    | kept hqt hfree href' htable =>
        have hsq : s.has q = true := by
          rw [← hhas, State.has, hqt]
          rfl
        exact h.kept href hsq hfree href' htable
    | made hqt hf hfree href' htable =>
        have hsq : s.has q = false := by
          rw [← hhas, has_eq_false]
          exact hqt
        exact h.made href hq hsq hqt hf hfree href' htable
    | full hqt hfull hlt =>
        have hsq : s.has q = false := by
          rw [← hhas, has_eq_false]
          exact hqt
        have hleft := h.left href
        rw [hfull, Finset.card_empty] at hleft
        refine supplied_refused (by omega) ?_
        rw [missing_snoc, hsq]
        simp only [Bool.false_eq_true, if_false]
        omega
  · have hle' := h.refused_le
    have hlt := mt h.enough.mpr href
    refine supplied_refused (by omega) ?_
    rw [missing_snoc]
    exact fun h => hlt (Nat.le_of_add_right_le h)

/-- The tree with a table, or with the place of one. -/
structure Lies (flags : Nat) (s : State) (p : List Index) (f : Nat) : Prop where
  shape : TreeShaped s
  place : At flags s p f
  path : s.table p = none ∨ s.table p = some f

theorem Lies.root (hs : TreeShaped s) : Lies flags s [] s.root := ⟨hs, .inl rfl, .inr rfl⟩

theorem Lies.visit (h : Lies flags s p n) (hflags : flags < pageSize) (hp : p.length < 3)
    (hv : Visit flags s n i t f) (href : t.refused = s.refused) : Lies flags t (p ++ [i]) f := by
  have hlinked := hv.linked h.shape hflags hp h.place href
  refine ⟨hlinked.shape, hlinked.place, (hv.outcome h.shape hflags hp h.place h.path).place ?_ href⟩
  rw [List.length_append]
  exact hp

theorem Supplied.visit (h : Supplied flags s t qs) (hflags : flags < pageSize) (hp : p.length < 3)
    (hnew : p ++ [i] ∉ qs) (hat : t.refused = s.refused → Lies flags t p n) (hle : t.refused ≤ u.refused)
    (hv : t.refused = s.refused → Visit flags t n i u f) :
    Supplied flags s u (qs ++ [p ++ [i]]) ∧ (u.refused = s.refused → Lies flags u (p ++ [i]) f) := by
  have hlen : (p ++ [i]).length ≤ 3 := by
    rw [List.length_append]
    exact hp
  refine ⟨h.snoc (f := f) hle hlen hnew fun href => ?_, fun href => ?_⟩
  · have hl := hat href
    exact (hv href).outcome hl.shape hflags hp hl.place hl.path
  · have ht : t.refused = s.refused := le_antisymm (hle.trans href.le) h.refused_le
    exact (hat ht).visit hflags hp (hv ht) (href.trans ht.symm)

theorem tablesFor_supplied (hs : TreeShaped s) (hflags : flags < pageSize) (virt : Nat) :
    Supplied flags s (tablesFor s virt flags).1 (prefixes virt) := by
  have hlen1 : [pmlt4Index virt].length < 3 := Nat.lt_of_succ_lt (Nat.lt_succ_self 2)
  have hlen2 : ([pmlt4Index virt] ++ [pdptIndex virt]).length < 3 := Nat.lt_succ_self 2
  obtain ⟨h1, hl1⟩ := (Supplied.nil s).visit hflags (by decide) List.not_mem_nil (fun _ => Lies.root hs)
    refused_le_rootEntry fun _ => rootEntry_visit (i := pmlt4Index virt) hs hflags
  obtain ⟨h2, hl2⟩ := h1.visit hflags hlen1 (by simp) hl1 refused_le_tableEntry fun href =>
    tableEntry_visit (i := pdptIndex virt) (hl1 href).shape hflags hlen1 (hl1 href).place
  obtain ⟨h3, -⟩ := h2.visit hflags hlen2 (by simp) hl2 refused_le_tableEntry fun href =>
    tableEntry_visit (i := pdtIndex virt) (hl2 href).shape hflags hlen2 (hl2 href).place
  exact h3

/-! ## A loop -/

/-- A round of a loop on the page `virt`, which takes `extra` frames besides those for tables. -/
structure Round (flags extra : Nat) (s t : State) (virt : Nat) : Prop where
  refused_le : s.refused ≤ t.refused
  shape : t.refused = s.refused → TreeShaped t
  enough : t.refused = s.refused ↔ missing s.has (prefixes virt) + extra ≤ s.free.card
  left : t.refused = s.refused → t.free.card + (missing s.has (prefixes virt) + extra) = s.free.card
  has : t.refused = s.refused → ∀ r, r.length ≤ 3 →
    t.has r = (s.has r || decide (Present flags) && decide (r ∈ prefixes virt))

/-- The frames a loop over pages takes, with the tables that exist before it. -/
def needed (flags extra : Nat) : (List Index → Bool) → List Nat → Nat
  | _, [] => 0
  | has, virt :: vs => missing has (prefixes virt) + extra +
      needed flags extra (fun r => has r || decide (Present flags) && decide (r ∈ prefixes virt)) vs

theorem missing_congr {has has' : List Index → Bool} (h : ∀ r ∈ qs, has r = has' r) : missing has qs = missing has' qs := by
  unfold missing
  refine List.countP_congr fun r hr => ?_
  rw [h r hr]

theorem length_prefixes : ∀ r ∈ prefixes virt, r.length ≤ 3 := by
  unfold prefixes tablePath
  simp

theorem needed_congr {has has' : List Index → Bool} (h : ∀ r, r.length ≤ 3 → has r = has' r) (vs : List Nat)
    (extra : Nat) : needed flags extra has vs = needed flags extra has' vs := by
  induction vs generalizing has has' with
  | nil => rfl
  | cons v vs ih =>
      unfold needed
      rw [missing_congr fun r hr => h r (length_prefixes r hr), ih fun r hr => by rw [h r hr]]

theorem refused_le_foldl {α : Type} {body : State → α → State} (hle : ∀ u a, u.refused ≤ (body u a).refused)
    (l : List α) (s : State) : s.refused ≤ (l.foldl body s).refused := by
  induction l generalizing s with
  | nil => exact le_refl _
  | cons a l ih => exact (hle s a).trans (ih (body s a))

theorem enough_foldl {α : Type} {body : State → α → State} (addr : α → Nat) {extra : Nat} {l : List α}
    (hle : ∀ u a, u.refused ≤ (body u a).refused)
    (hround : ∀ u, TreeShaped u → ∀ a ∈ l, Round flags extra u (body u a) (addr a)) (hs : TreeShaped s) :
    ((l.foldl body s).refused = s.refused ↔ needed flags extra s.has (l.map addr) ≤ s.free.card) ∧
      ((l.foldl body s).refused = s.refused →
        (l.foldl body s).free.card + needed flags extra s.has (l.map addr) = s.free.card) := by
  induction l generalizing s with
  | nil => exact ⟨⟨fun _ => Nat.zero_le _, fun _ => rfl⟩, fun _ => Nat.add_zero _⟩
  | cons a l ih =>
      have h := hround s hs a List.mem_cons_self
      have hrest := refused_le_foldl hle l (body s a)
      have hfirst := h.refused_le
      rw [List.foldl_cons, List.map_cons, needed]
      by_cases href : (body s a).refused = s.refused
      · obtain ⟨henough, hleft⟩ := ih (fun u hu b hb => hround u hu b (List.mem_cons_of_mem a hb)) (h.shape href)
        rw [needed_congr (h.has href)] at henough hleft
        have hcard := h.left href
        rw [href] at henough hleft
        refine ⟨henough.trans ?_, fun hall => ?_⟩
        · omega
        · have := hleft hall
          omega
      · have hmany := mt h.enough.mpr href
        refine ⟨⟨fun hall => ?_, fun hall => ?_⟩, fun hall => ?_⟩
        all_goals omega

/-- A loop that gets its frames with more to come leaves the frames for what comes. -/
theorem needed_after_foldl {α : Type} {body : State → α → State} (addr : α → Nat) {extra : Nat} {l : List α} {vs : List Nat}
    (hround : ∀ u, TreeShaped u → ∀ a ∈ l, Round flags extra u (body u a) (addr a)) (hs : TreeShaped s)
    (h : needed flags extra s.has (l.map addr ++ vs) ≤ s.free.card) :
    (l.foldl body s).refused = s.refused ∧ needed flags extra (l.foldl body s).has vs ≤ (l.foldl body s).free.card := by
  induction l generalizing s with
  | nil => exact ⟨rfl, h⟩
  | cons a l ih =>
      have hr := hround s hs a List.mem_cons_self
      rw [List.map_cons, List.cons_append, needed] at h
      have href : (body s a).refused = s.refused := hr.enough.mpr (Nat.le_of_add_right_le h)
      have hleft := hr.left href
      obtain ⟨hrest, hneed⟩ := ih (fun u hu b hb => hround u hu b (List.mem_cons_of_mem a hb)) (hr.shape href) (by
        rw [needed_congr (hr.has href)]
        omega)
      exact ⟨hrest.trans href, hneed⟩

/-- Each page takes a frame of its own, besides those for tables. -/
theorem length_le_needed (has : List Index → Bool) (vs : List Nat) : vs.length ≤ needed flags 1 has vs := by
  induction vs generalizing has with
  | nil => exact Nat.zero_le _
  | cons v vs ih =>
      have hrest := ih fun r => has r || decide (Present flags) && decide (r ∈ prefixes v)
      rw [needed, List.length_cons]
      omega

end HaOS.Paging
