import HaOS.Paging.Handoff
import HaOS.Paging.Upper

/-!
# Entries for the pages that have none

The rounds of `page_mapvp` in the kernel and in the boot stage: the entry of a page that has none is written, and a bit
may be set with it.

* `Fill`, `fillPage`, `fillPages` : a round, and rounds one after another; `mapvpPage_eq` : the kernel's;
* `Filled`, `fillPage_spec` : what a round does;
* `Touched`, `fillPages_grown`, `fillPages_absent` : rounds with any flags; those whose entries are not present map
  nothing;
* `fillPages_walk` : in many rounds the first entry of a page stays;
* `NewTable`, `tableFrames`, `fillPages_bit` : the bits that are set are those of the new tables, whose frames are the
  lowest free ones, and those set with an entry; `Room`, `fillPages_granted` : there are frames for the tables;
* `pages_le` : the tables for a range do not fit into memory when it has more than `2 ^ 24` pages.
-/

namespace HaOS.Paging

/-- A page, its entry, and the frame whose bit is set with it. -/
structure Fill where
  virt : Nat
  entry : Nat
  slot : Option Nat

def State.mark (s : State) : Option Nat → State
  | none => s
  | some f => s.setBit (f / 8) (f % 8)

def fillPage (flags : Nat) (s : State) (x : Fill) : State :=
  let (s, ptAddr) := tablesFor s x.virt flags
  let s := pageMapframe s ptAddr
  if s.window (ptIndex x.virt) ≠ 0 then pageUmapframe s
  else pageUmapframe ((s.mark x.slot).storeWindow (ptIndex x.virt) x.entry)

def fillPages (flags : Nat) (s : State) (xs : List Fill) : State := xs.foldl (fillPage flags) s

def Blank (s : State) (v : Nat) : Prop := ¬ OnWindow v ∧ walk s v = 0

instance (s : State) (v : Nat) : Decidable (Blank s v) := inferInstanceAs (Decidable (_ ∧ _))

/-- The frame `f` holds a table of `t` that `s` does not have. -/
def NewTable (s t : State) (f : Nat) : Prop := ∃ p, p.length ≤ 3 ∧ t.table p = some f ∧ s.table p ≠ some f

variable {s t u : State} {x : Fill} {xs : List Fill} {F : Finset Nat} {p r : List Index} {i : Index}
  {e f g n k v w flags virt phys : Nat} {T : List Index → Index → Prop}

theorem mapvpPage_eq : mapvpPage flags s virt phys = fillPage flags s ⟨virt, phys ||| flags, none⟩ := rfl

theorem bit_mark (s : State) (o : Option Nat) (f : Nat) : Bit (s.mark o).bitmap f ↔ Bit s.bitmap f ∨ o = some f := by
  cases o with
  | none => simp [State.mark]
  | some g =>
      refine (bit_set (Nat.mod_lt g (by decide : 8 > 0)) f).trans ?_
      rw [show g % 8 + g / 8 * 8 = g by omega, or_comm, Option.some.injEq, eq_comm]

theorem keeps_mark (s : State) (o : Option Nat) : Keeps s (s.mark o) := by
  cases o with
  | none => exact .refl s
  | some g => exact keeps_setBit s (g / 8) (Nat.mod_lt g (by decide : 8 > 0))

theorem mem_mark (s : State) (o : Option Nat) : (s.mark o).mem = s.mem := by
  cases o <;> rfl

theorem refused_fillPage : (fillPage flags s x).refused = (tablesFor s x.virt flags).1.refused := by
  unfold fillPage
  simp only
  split_ifs
  · rfl
  · cases x.slot <;> rfl

theorem refused_le_fillPage : s.refused ≤ (fillPage flags s x).refused := by
  rw [refused_fillPage]
  exact refused_le_tablesFor

/-! ## A round -/

structure Filled (flags : Nat) (s t : State) (x : Fill) : Prop where
  shape : TreeShaped t
  ext : Extends flags (Only (tablePath x.virt) (ptIndex x.virt)) s t
  table : ∀ r, r.length ≤ 3 → t.table r = (tablesFor s x.virt flags).1.table r
  found : ∃ f, t.table (tablePath x.virt) = some f
  walk : ∀ w, ¬ OnWindow w → walk t w = if vpn w = vpn x.virt ∧ walk s w = 0 then x.entry else walk s w
  bit : ∀ f, Bit t.bitmap f ↔ Bit (tablesFor s x.virt flags).1.bitmap f ∨ Blank s x.virt ∧ x.slot = some f
  closed : t.mem framePt 0 = 0

theorem onWindow_congr (h : vpn v = vpn w) : OnWindow v ↔ OnWindow w := by
  obtain ⟨hp, hi⟩ := (vpn_eq_iff v w).mp h
  unfold OnWindow
  rw [hp, hi]

theorem blank_congr (h : vpn v = vpn w) : Blank s v ↔ Blank s w := by
  unfold Blank
  rw [onWindow_congr h, walk_congr h]

/-- The round finds an entry, or the page is the window's, whose entry is its own. -/
theorem Filled.skip (h : Linked flags s u (tablePath x.virt) (frameOf n)) (hu : u = (tablesFor s x.virt flags).1)
    (hp : Present flags) (hx : ¬ Blank s x.virt) : Filled flags s (pageUmapframe (pageMapframe u n)) x := by
  have hk := h.shape.mapframe n
  have hc := (h.shape.keeps hk).umapframe
  have hkeep := hk.trans hc
  have hext := h.ext.trans (h.shape.extends hkeep)
  have hplace := h.place.resolve_right fun h => h.1 hp
  refine ⟨h.shape.keeps hkeep, hext.mono fun _ _ => False.elim, fun r hr => ?_, ⟨frameOf n, ?_⟩, fun w hw => ?_,
    fun f => ?_, mem_umapframe _⟩
  · rw [← hu]
    exact hkeep.table r hr
  · exact (hkeep.table _ (length_tablePath x.virt).le).trans hplace
  · rw [if_neg]
    · exact hext.entry _ _ rfl hw id
    · rintro ⟨heq, h0⟩
      exact hx ((blank_congr heq).mp ⟨hw, h0⟩)
  · rw [← hu, or_iff_left fun h => hx h.1]
    rfl

theorem Filled.store (h : Linked flags s u (tablePath x.virt) (frameOf n)) (hu : u = (tablesFor s x.virt flags).1)
    (hp : Present flags) (hx : Blank s x.virt) :
    Filled flags s (pageUmapframe (((pageMapframe u n).mark x.slot).store (frameOf n) (ptIndex x.virt) x.entry)) x := by
  have hk := h.shape.mapframe n
  have hm := keeps_mark (pageMapframe u n) x.slot
  have hkeep := hk.trans hm
  have hs := h.shape.keeps hkeep
  have hext := h.ext.trans (h.shape.extends hkeep)
  have hat := h.place.keeps h.shape hkeep (length_tablePath x.virt).le
  have hplace := hat.resolve_right fun h => h.1 hp
  obtain ⟨hwritten, hnew⟩ := hat.write hs rfl hx.1 x.entry
  have hall := hwritten.after hext rfl hx.1
  have htable := fun (r : List Index) (hr : r.length ≤ 3) => hat.table_write hs rfl (ptIndex x.virt) x.entry hr
  refine ⟨hall.shape, hall.ext, fun r hr => ?_, ⟨frameOf n, ?_⟩, fun w hw => ?_, fun f => ?_, mem_umapframe _⟩
  · rw [htable r hr, ← hu, hkeep.table r hr]
  · exact (htable _ (length_tablePath x.virt).le).trans hplace
  · by_cases heq : vpn w = vpn x.virt
    · rw [if_pos ⟨heq, (walk_congr heq).trans hx.2⟩, walk_congr heq]
      exact hnew hp
    · rw [if_neg fun h => heq h.1]
      refine hall.ext.entry _ _ rfl hw ?_
      rintro ⟨hpath, hi⟩
      exact heq ((vpn_eq_iff _ _).mpr ⟨hpath, hi⟩)
  · rw [← hu, and_iff_right hx]
    exact bit_mark (pageMapframe u n) x.slot f

theorem fillPage_spec (hs : TreeShaped s) (hflags : flags < pageSize) (hp : Present flags)
    (href : (fillPage flags s x).refused = s.refused) : Filled flags s (fillPage flags s x) x := by
  have h := tablesFor_linked hs hflags (refused_fillPage.symm.trans href)
  set u := (tablesFor s x.virt flags).1 with hu
  set ptAddr := (tablesFor s x.virt flags).2 with hpt
  have hskip : (pageMapframe u ptAddr).window (ptIndex x.virt) ≠ 0 →
      fillPage flags s x = pageUmapframe (pageMapframe u ptAddr) := by
    intro hne
    simp only [fillPage, ← hu, ← hpt, hne, ne_eq, not_false_eq_true, if_true]
  by_cases hw : OnWindow x.virt
  · -- the window's own entry is in use while its page table shows
    have hplace := h.place.resolve_right fun h => h.1 hp
    have hframe : frameOf ptAddr = framePt := by
      have hwin := (h.ext.table _ _ (by decide) hs.window)
      rw [hw.1, hwin] at hplace
      exact (Option.some.inj hplace).symm
    have hne : (pageMapframe u ptAddr).window (ptIndex x.virt) ≠ 0 := by
      rw [State.window, windowFrame_mapframe, hframe, hw.2, pageMapframe, mem_store, if_pos ⟨rfl, rfl⟩]
      intro h0
      exact absurd (Nat.or_eq_zero_iff.mp h0).2 (by decide)
    rw [hskip hne]
    exact Filled.skip h hu hp fun hb => hb.1 hw
  · have hwin := h.window_eq (.refl u) hw hp
    by_cases h0 : walk s x.virt = 0
    · have ht : fillPage flags s x = pageUmapframe (((pageMapframe u ptAddr).mark x.slot).store (frameOf ptAddr)
          (ptIndex x.virt) x.entry) := by
        have hwf : ((pageMapframe u ptAddr).mark x.slot).windowFrame = frameOf ptAddr := by
          rw [State.windowFrame, mem_mark]
          exact windowFrame_mapframe ptAddr
        simp only [fillPage, ← hu, ← hpt, hwin, h0, State.storeWindow, hwf]
        rfl
      rw [ht]
      exact Filled.store h hu hp ⟨hw, h0⟩
    · rw [hskip fun h => h0 (hwin.symm.trans h)]
      exact Filled.skip h hu hp fun hb => h0 hb.2

theorem Linked.shape_store (h : Linked flags s u (tablePath v) (frameOf n)) (hk : Keeps u t) (i : Index) (e : Nat) :
    TreeShaped (pageUmapframe ((pageMapframe t n).store (frameOf n) i e)) := by
  have hkeep := hk.trans ((h.shape.keeps hk).mapframe n)
  have hat := h.place.keeps h.shape hkeep (length_tablePath v).le
  obtain ⟨hshape, -⟩ := hat.store (h.shape.keeps hkeep) (length_tablePath v) i e
  exact hshape.keeps hshape.umapframe

theorem Linked.shape_shut (h : Linked flags s u (tablePath v) (frameOf n)) (hk : Keeps u t) :
    TreeShaped (pageUmapframe (pageMapframe t n)) := by
  have hkeep := hk.trans ((h.shape.keeps hk).mapframe n)
  exact h.shape.keeps (hkeep.trans (h.shape.keeps hkeep).umapframe)

/-! ## Rounds without the present bit -/

/-- A round with any flags changes one entry at most. -/
structure Touched (flags : Nat) (s t : State) (x : Fill) : Prop where
  shape : TreeShaped t
  grown : Grown flags s t
  ext : Extends flags (Only (tablePath x.virt) (ptIndex x.virt)) s t
  entry : ¬ OnWindow x.virt → walk t x.virt = walk s x.virt ∨ walk t x.virt = x.entry
  closed : t.mem framePt 0 = 0

theorem fillPage_touched (hs : TreeShaped s) (hflags : flags < pageSize)
    (href : (fillPage flags s x).refused = s.refused) : Touched flags s (fillPage flags s x) x := by
  have h := tablesFor_linked hs hflags (refused_fillPage.symm.trans href)
  have hg := tablesFor_grown hs hflags (refused_fillPage.symm.trans href)
  set u := (tablesFor s x.virt flags).1 with hu
  set ptAddr := (tablesFor s x.virt flags).2 with hpt
  have hk := h.shape.mapframe ptAddr
  by_cases hold : (pageMapframe u ptAddr).window (ptIndex x.virt) = 0
  · have hwf : ((pageMapframe u ptAddr).mark x.slot).windowFrame = frameOf ptAddr := by
      rw [State.windowFrame, mem_mark]
      exact windowFrame_mapframe ptAddr
    have ht : fillPage flags s x = pageUmapframe (((pageMapframe u ptAddr).mark x.slot).store (frameOf ptAddr)
        (ptIndex x.virt) x.entry) := by
      simp only [fillPage, ← hu, ← hpt, hold, State.storeWindow, hwf]
      rfl
    have hkeep := hk.trans (keeps_mark (pageMapframe u ptAddr) x.slot)
    have hs' := h.shape.keeps hkeep
    have hext := h.ext.trans (h.shape.extends hkeep)
    have hat := h.place.keeps h.shape hkeep (length_tablePath x.virt).le
    obtain ⟨hshape, hstore⟩ := hat.store hs' (length_tablePath x.virt) (ptIndex x.virt) x.entry
    have hclose := hshape.umapframe
    rw [ht]
    refine ⟨hshape.keeps hclose, (hg.trans (h.shape.grown hkeep)).trans (hat.grown hs' rfl), ?_, fun hw => ?_,
      mem_umapframe _⟩
    · exact ((hext.mono fun _ _ => False.elim).trans hstore).trans (hshape.extends hclose)
    · exact ((hat.write hs' rfl hw x.entry).1.after hext rfl hw).entry
  · have ht : fillPage flags s x = pageUmapframe (pageMapframe u ptAddr) := by
      simp only [fillPage, ← hu, ← hpt, hold, ne_eq, not_false_eq_true, if_true]
    have hkeep := hk.trans (h.shape.keeps hk).umapframe
    have hext := h.ext.trans (h.shape.extends hkeep)
    rw [ht]
    refine ⟨h.shape.keeps hkeep, hg.trans (h.shape.grown hkeep), hext.mono fun _ _ => False.elim, fun hw => .inl ?_,
      mem_umapframe _⟩
    exact hext.entry _ _ rfl hw id

theorem mapvpPage_grown (hs : TreeShaped s) (hflags : flags < pageSize)
    (href : (mapvpPage flags s virt phys).refused = s.refused) : Grown flags s (mapvpPage flags s virt phys) := by
  rw [mapvpPage_eq] at href ⊢
  exact (fillPage_touched hs hflags href).grown

/-- What is not present maps nothing. -/
theorem Touched.target (h : Touched flags s t x) (hx : ¬ Present x.entry) (hf : target (walk t w) = some f) :
    target (walk s w) = some f := by
  by_cases hw : OnWindow w
  · rw [h.shape.walk_window hw, h.closed] at hf
    cases hf
  · by_cases heq : vpn w = vpn x.virt
    · rw [walk_congr heq] at hf ⊢
      obtain hsame | hnew := h.entry fun hv => hw ((onWindow_congr heq).mpr hv)
      · rwa [hsame] at hf
      · rw [hnew, Paging.target, if_neg hx] at hf
        cases hf
    · have hkept : walk t w = walk s w := by
        refine h.ext.entry _ _ rfl hw ?_
        rintro ⟨hpath, hi⟩
        exact heq ((vpn_eq_iff _ _).mpr ⟨hpath, hi⟩)
      rwa [hkept] at hf

/-! ## The entries after many rounds -/

def Visited (xs : List Fill) : List Index → Index → Prop := fun p i => ∃ x ∈ xs, Only (tablePath x.virt) (ptIndex x.virt) p i

theorem fillPages_cons : fillPages flags s (x :: xs) = fillPages flags (fillPage flags s x) xs := rfl

theorem refused_fillPages (href : (fillPages flags s (x :: xs)).refused = s.refused) :
    (fillPage flags s x).refused = s.refused ∧
      (fillPages flags (fillPage flags s x) xs).refused = (fillPage flags s x).refused := by
  have h1 : s.refused ≤ (fillPage flags s x).refused := refused_le_fillPage
  have h2 : (fillPage flags s x).refused ≤ (fillPages flags (fillPage flags s x) xs).refused :=
    refused_le_foldl (fun _ _ => refused_le_fillPage) xs _
  rw [fillPages_cons] at href
  omega

/-- After many rounds the tables have grown, and those of the pages exist. -/
structure Grew (flags : Nat) (s t : State) (xs : List Fill) : Prop where
  shape : TreeShaped t
  ext : Extends flags (Visited xs) s t
  found : ∀ x ∈ xs, ∃ f, t.table (tablePath x.virt) = some f
  closed : xs ≠ [] → t.mem framePt 0 = 0

theorem fillPages_grew (hs : TreeShaped s) (hflags : flags < pageSize) (hp : Present flags)
    (href : (fillPages flags s xs).refused = s.refused) : Grew flags s (fillPages flags s xs) xs := by
  induction xs generalizing s with
  | nil => exact ⟨hs, .refl s, fun x hx => absurd hx List.not_mem_nil, fun h => absurd rfl h⟩
  | cons x xs ih =>
      obtain ⟨href1, href2⟩ := refused_fillPages href
      have hx := fillPage_spec hs hflags hp href1
      have hrest := ih hx.shape href2
      rw [fillPages_cons]
      refine ⟨hrest.shape, ?_, fun y hy => ?_, fun _ => ?_⟩
      · refine (hx.ext.mono fun p i h => ⟨x, List.mem_cons_self, h⟩).trans (hrest.ext.mono ?_)
        rintro p i ⟨y, hy, h⟩
        exact ⟨y, List.mem_cons_of_mem x hy, h⟩
      · rcases List.mem_cons.mp hy with rfl | hy
        · obtain ⟨f, hf⟩ := hx.found
          exact ⟨f, hrest.ext.table _ f (length_tablePath y.virt).le hf⟩
        · exact hrest.found y hy
      · by_cases hxs : xs = []
        · rw [hxs]
          exact hx.closed
        · exact hrest.closed hxs

/-- Whatever the flags, the upper entries that are present stay. -/
theorem fillPages_grown (hs : TreeShaped s) (hflags : flags < pageSize)
    (href : (fillPages flags s xs).refused = s.refused) : Grown flags s (fillPages flags s xs) := by
  induction xs generalizing s with
  | nil => exact .refl s
  | cons x xs ih =>
      obtain ⟨href1, href2⟩ := refused_fillPages href
      have hx := fillPage_touched hs hflags href1
      exact hx.grown.trans (ih hx.shape href2)

def kernelFills (virt phys length flags : Nat) : List Fill :=
  (List.range (rounds length)).map fun i => ⟨pageAt virt i, pageAt phys i ||| flags, none⟩

theorem pageMapvp_fills (s : State) (virt phys length flags : Nat) :
    pageMapvp s virt phys length flags = fillPages flags s (kernelFills virt phys length flags) := by
  simp only [pageMapvp, forPages_eq_foldl, kernelFills, fillPages, List.foldl_map, mapvpPage_eq]

theorem pageMapvp_grown {length : Nat} (hs : TreeShaped s) (hflags : flags < pageSize)
    (href : (pageMapvp s virt phys length flags).refused = s.refused) :
    Grown flags s (pageMapvp s virt phys length flags) := by
  rw [pageMapvp_fills] at href ⊢
  exact fillPages_grown hs hflags href

theorem fillPages_absent (hs : TreeShaped s) (hflags : flags < pageSize)
    (href : (fillPages flags s xs).refused = s.refused) (hxs : ∀ x ∈ xs, ¬ Present x.entry)
    (hf : target (walk (fillPages flags s xs) w) = some f) : target (walk s w) = some f := by
  induction xs generalizing s with
  | nil => exact hf
  | cons x xs ih =>
      obtain ⟨href1, href2⟩ := refused_fillPages href
      have hx := fillPage_touched hs hflags href1
      exact hx.target (hxs x List.mem_cons_self) (ih hx.shape href2 (fun y hy => hxs y (List.mem_cons_of_mem x hy)) hf)

theorem fillPages_walk (hs : TreeShaped s) (hflags : flags < pageSize) (hp : Present flags)
    (href : (fillPages flags s xs).refused = s.refused)
    (hsame : ∀ x ∈ xs, ∀ y ∈ xs, vpn x.virt = vpn y.virt → x.entry = y.entry) (hw : ¬ OnWindow w) :
    (∀ x ∈ xs, vpn w = vpn x.virt → walk s w = 0 → walk (fillPages flags s xs) w = x.entry) ∧
      ((∀ x ∈ xs, vpn w = vpn x.virt → walk s w ≠ 0) → walk (fillPages flags s xs) w = walk s w) := by
  induction xs generalizing s with
  | nil => exact ⟨fun x hx => absurd hx List.not_mem_nil, fun _ => rfl⟩
  | cons x xs ih =>
      obtain ⟨href1, href2⟩ := refused_fillPages href
      have hx := fillPage_spec hs hflags hp href1
      obtain ⟨hnew, hold⟩ := ih hx.shape href2 fun y hy z hz =>
        hsame y (List.mem_cons_of_mem x hy) z (List.mem_cons_of_mem x hz)
      have hround := hx.walk w hw
      rw [fillPages_cons]
      refine ⟨fun y hy heq h0 => ?_, fun hne => ?_⟩
      · -- an entry `0` leaves the page without one, until the next round writes it again
        by_cases hother : ∃ z ∈ xs, vpn w = vpn z.virt ∧ walk (fillPage flags s x) w = 0
        · obtain ⟨z, hz, hzw, hz0⟩ := hother
          rw [hnew z hz hzw hz0]
          exact hsame z (List.mem_cons_of_mem x hz) y hy (hzw.symm.trans heq)
        · rw [hold fun z hz hzw hz0 => hother ⟨z, hz, hzw, hz0⟩, hround]
          rcases List.mem_cons.mp hy with rfl | hyxs
          · rw [if_pos ⟨heq, h0⟩]
          · by_cases hxw : vpn w = vpn x.virt
            · rw [if_pos ⟨hxw, h0⟩]
              exact hsame x List.mem_cons_self y hy (hxw.symm.trans heq)
            · rw [if_neg fun h => hxw h.1] at hround
              exact absurd ⟨y, hyxs, heq, hround.trans h0⟩ hother
      · have hkept : walk (fillPage flags s x) w = walk s w := by
          rw [hround, if_neg]
          rintro ⟨heq, h0⟩
          exact hne x List.mem_cons_self heq h0
        rw [hold, hkept]
        intro y hy heq
        rw [hkept]
        exact hne y (List.mem_cons_of_mem x hy) heq

/-! ## The bits that are set -/

/-- From `s` to `t` the lowest free frames are taken, and no other bit is set. -/
structure Takes (s t : State) : Prop where
  free : ∃ k, t.free = rest^[k] s.free
  behind : ∀ f, frames ≤ f → (Bit t.bitmap f ↔ Bit s.bitmap f)

theorem Takes.refl (s : State) : Takes s s := ⟨⟨0, rfl⟩, fun _ _ => Iff.rfl⟩

theorem Takes.trans (h : Takes s t) (h' : Takes t u) : Takes s u := by
  obtain ⟨k, hk⟩ := h.free
  obtain ⟨m, hm⟩ := h'.free
  refine ⟨⟨m + k, ?_⟩, fun f hf => (h'.behind f hf).trans (h.behind f hf)⟩
  rw [hm, hk, Function.iterate_add_apply]

theorem Takes.congr {s' t' : State} (h : Takes s t) (hs : s'.bitmap = s.bitmap) (ht : t'.bitmap = t.bitmap) :
    Takes s' t' := by
  obtain ⟨k, hk⟩ := h.free
  refine ⟨⟨k, ?_⟩, ?_⟩
  · rw [free_congr hs, free_congr ht, hk]
  · rw [hs, ht]
    exact h.behind

theorem takes_pageGetframe (s : State) : Takes s (pageGetframe s).1 := by
  by_cases href : (pageGetframe s).1.refused = s.refused
  · obtain ⟨f, hf, hframe⟩ := pageGetframe_granted href
    have hleast := pageGetframe_least hframe
    refine ⟨⟨1, ?_⟩, fun g hg => ?_⟩
    · rw [Function.iterate_one, hf.free_eq,
        rest_eq_erase hf.mem_free fun g hg => not_lt.mp fun hlt => (mem_free.mp hg).2 (hleast g hlt)]
    · rw [hf.bit, or_iff_right]
      rintro rfl
      exact absurd hf.lt (by omega)
  · rw [pageGetframe_refused href]
    exact (Takes.refl s).congr rfl rfl

theorem takes_rootEntry : Takes s (rootEntry s i flags).1 := by
  unfold rootEntry
  split_ifs
  · exact .refl s
  · exact (takes_pageGetframe s).congr rfl rfl

theorem takes_tableEntry : Takes s (tableEntry s n i flags).1 := by
  unfold tableEntry
  simp only
  split_ifs
  · exact (Takes.refl s).congr rfl rfl
  · exact (takes_pageGetframe (pageMapframe s n)).congr rfl rfl

theorem takes_tablesFor (s : State) (virt flags : Nat) : Takes s (tablesFor s virt flags).1 :=
  (takes_rootEntry.trans takes_tableEntry).trans takes_tableEntry

theorem tablesFor_free (hs : TreeShaped s) (hflags : flags < pageSize)
    (href : (tablesFor s virt flags).1.refused = s.refused) :
    (tablesFor s virt flags).1.free = rest^[missing s.has (prefixes virt)] s.free := by
  obtain ⟨k, hk⟩ := (takes_tablesFor s virt flags).free
  have hleft := (tablesFor_supplied hs hflags virt).left href
  rw [hk] at hleft ⊢
  exact iterate_rest_eq hleft

theorem tablesFor_bit (hs : TreeShaped s) (hflags : flags < pageSize)
    (href : (tablesFor s virt flags).1.refused = s.refused) (f : Nat) :
    Bit (tablesFor s virt flags).1.bitmap f ↔ Bit s.bitmap f ∨ f ∈ s.free \ rest^[missing s.has (prefixes virt)] s.free := by
  have hbit := (tablesFor_linked hs hflags href).ext.bit f
  rw [← tablesFor_free hs hflags href, Finset.mem_sdiff, mem_free, mem_free]
  by_cases hf : f < frames
  · tauto
  · rw [(takes_tablesFor s virt flags).behind f (not_lt.mp hf)]
    tauto

theorem NewTable.trans_iff (h : ∀ p f, p.length ≤ 3 → s.table p = some f → u.table p = some f)
    (h' : ∀ p f, p.length ≤ 3 → u.table p = some f → t.table p = some f) :
    NewTable s t f ↔ NewTable s u f ∨ NewTable u t f := by
  constructor
  · rintro ⟨p, hp, ht, hs⟩
    by_cases hu : u.table p = some f
    · exact .inl ⟨p, hp, hu, hs⟩
    · exact .inr ⟨p, hp, ht, hu⟩
  · rintro (⟨p, hp, hu, hs⟩ | ⟨p, hp, ht, hu⟩)
    · exact ⟨p, hp, h' p f hp hu, hs⟩
    · exact ⟨p, hp, ht, fun hs => hu (h p f hp hs)⟩

/-- The frames that a round takes are those of the new tables. -/
theorem Filled.newTable_iff (h : Filled flags s t x) (hs : TreeShaped s) (hflags : flags < pageSize) (hp : Present flags)
    (href : (tablesFor s x.virt flags).1.refused = s.refused) :
    NewTable s t f ↔ f ∈ s.free \ rest^[missing s.has (prefixes x.virt)] s.free := by
  have hlinked := tablesFor_linked hs hflags href
  rw [← tablesFor_free hs hflags href, Finset.mem_sdiff]
  constructor
  · rintro ⟨p, hlen, ht, hnot⟩
    rw [h.table p hlen] at ht
    obtain ⟨hlt, hbit⟩ := hlinked.shape.marked p f hlen ht
    have hfree := (hlinked.ext.fresh p f hlen ht).resolve_left hnot
    exact ⟨mem_free.mpr ⟨hlt, hfree⟩, fun hmem => (mem_free.mp hmem).2 hbit⟩
  · rintro ⟨hfree, hnot⟩
    have htaken := (tablesFor_supplied hs hflags x.virt).taken href hp f hfree hnot
    obtain ⟨p, hlen, ht⟩ : ∃ p, p.length ≤ 3 ∧ (tablesFor s x.virt flags).1.table p = some f := by
      by_contra hno
      exact htaken fun p hlen ht => hno ⟨p, hlen, ht⟩
    refine ⟨p, hlen, (h.table p hlen).trans ht, fun hold => ?_⟩
    exact (mem_free.mp hfree).2 (hs.marked p f hlen hold).2

/-- The frames that tables take, the lowest free ones in each round: `has` are the tables that exist, `F` the free frames,
and each round may mark a frame behind its tables. -/
def tableFrames : (List Index → Bool) → Finset Nat → List (Nat × Option Nat) → Finset Nat
  | _, _, [] => ∅
  | has, F, (virt, o) :: vs =>
    F \ rest^[missing has (prefixes virt)] F ∪
      tableFrames (fun r => has r || decide (r ∈ prefixes virt))
        ((rest^[missing has (prefixes virt)] F).filter fun f => o ≠ some f) vs

theorem iterate_rest_subset (k : Nat) (F : Finset Nat) : rest^[k] F ⊆ F := by
  induction k with
  | zero => exact Finset.Subset.refl F
  | succ k ih =>
      rw [Function.iterate_succ_apply']
      exact (Finset.filter_subset _ _).trans ih

theorem tableFrames_subset (has : List Index → Bool) (F : Finset Nat) (vs : List (Nat × Option Nat)) :
    tableFrames has F vs ⊆ F := by
  induction vs generalizing has F with
  | nil => exact Finset.empty_subset F
  | cons v vs ih =>
      obtain ⟨virt, o⟩ := v
      exact Finset.union_subset Finset.sdiff_subset
        ((ih _ _).trans ((Finset.filter_subset _ _).trans (iterate_rest_subset _ F)))

/-- The frame that a round marks, as the state before all rounds has it. -/
def marks (s : State) (x : Fill) : Nat × Option Nat := (x.virt, if Blank s x.virt then x.slot else none)

theorem tableFrames_congr {has has' : List Index → Bool} (h : ∀ r, r.length ≤ 3 → has r = has' r)
    (F : Finset Nat) (vs : List (Nat × Option Nat)) : tableFrames has F vs = tableFrames has' F vs := by
  induction vs generalizing has has' F with
  | nil => rfl
  | cons v vs ih =>
      obtain ⟨virt, o⟩ := v
      rw [tableFrames, tableFrames, missing_congr fun r hr => h r (length_prefixes r hr), ih]
      intro r hr
      rw [h r hr]

/-- Each round finds as many free frames as tables are missing. -/
inductive Room : (List Index → Bool) → Finset Nat → List (Nat × Option Nat) → Prop
  | nil (has : List Index → Bool) (F : Finset Nat) : Room has F []
  | cons {has : List Index → Bool} {F : Finset Nat} {virt : Nat} {o : Option Nat} {vs : List (Nat × Option Nat)}
      (enough : missing has (prefixes virt) ≤ F.card)
      (others : Room (fun r => has r || decide (r ∈ prefixes virt))
        ((rest^[missing has (prefixes virt)] F).filter fun f => o ≠ some f) vs) : Room has F ((virt, o) :: vs)

theorem room_cons {has : List Index → Bool} {virt : Nat} {o : Option Nat} {vs : List (Nat × Option Nat)} :
    Room has F ((virt, o) :: vs) ↔ missing has (prefixes virt) ≤ F.card ∧
      Room (fun r => has r || decide (r ∈ prefixes virt))
        ((rest^[missing has (prefixes virt)] F).filter fun f => o ≠ some f) vs := by
  constructor
  · rintro (_ | ⟨henough, hrest⟩)
    exact ⟨henough, hrest⟩
  · rintro ⟨henough, hrest⟩
    exact .cons henough hrest

theorem room_congr {has has' : List Index → Bool} (h : ∀ r, r.length ≤ 3 → has r = has' r)
    (F : Finset Nat) (vs : List (Nat × Option Nat)) : Room has F vs ↔ Room has' F vs := by
  induction vs generalizing has has' F with
  | nil => exact iff_of_true (.nil has F) (.nil has' F)
  | cons v vs ih =>
      obtain ⟨virt, o⟩ := v
      rw [room_cons, room_cons, missing_congr fun r hr => h r (length_prefixes r hr), ih]
      intro r hr
      rw [h r hr]

theorem Room.take {has : List Index → Bool} {vs : List (Nat × Option Nat)} (h : Room has F vs) (n : Nat) :
    Room has F (vs.take n) := by
  induction h generalizing n with
  | nil has F =>
      rw [List.take_nil]
      exact .nil has F
  | cons henough _ ih =>
      cases n with
      | zero => exact .nil _ _
      | succ n => exact .cons henough (ih n)

theorem Filled.has (h : Filled flags s t x) (hs : TreeShaped s) (hflags : flags < pageSize) (hp : Present flags)
    (href : (tablesFor s x.virt flags).1.refused = s.refused) (hr : r.length ≤ 3) :
    t.has r = (s.has r || decide (r ∈ prefixes x.virt)) := by
  rw [State.has, h.table r hr, ← State.has, (tablesFor_supplied hs hflags x.virt).has href r hr, decide_eq_true hp,
    Bool.true_and]

theorem Filled.free (h : Filled flags s t x) (hs : TreeShaped s) (hflags : flags < pageSize)
    (href : (tablesFor s x.virt flags).1.refused = s.refused) :
    t.free = (rest^[missing s.has (prefixes x.virt)] s.free).filter fun f => (marks s x).2 ≠ some f := by
  ext f
  have hmark : (marks s x).2 = some f ↔ Blank s x.virt ∧ x.slot = some f := by
    unfold marks
    by_cases hb : Blank s x.virt <;> simp [hb]
  rw [← tablesFor_free hs hflags href, Finset.mem_filter, mem_free, mem_free, h.bit f, Ne, hmark]
  tauto

/-- Pages that the round is not for keep their marks. -/
theorem Filled.blank_iff (h : Filled flags s t x) (hne : vpn v ≠ vpn x.virt) : Blank t v ↔ Blank s v := by
  refine and_congr_right fun hw => ?_
  rw [h.walk _ hw, if_neg fun heq => hne heq.1]

theorem Filled.marks_eq (h : Filled flags s t x) (hxs : ∀ y ∈ xs, vpn x.virt ≠ vpn y.virt) :
    xs.map (marks t) = xs.map (marks s) := by
  refine List.map_congr_left fun y hy => ?_
  unfold marks
  simp only [h.blank_iff (hxs y hy).symm]

/-- Rounds on different pages get their frames exactly when there is room for the tables. -/
theorem fillPages_granted (hs : TreeShaped s) (hflags : flags < pageSize) (hp : Present flags)
    (hdiff : xs.Pairwise fun x y => vpn x.virt ≠ vpn y.virt) :
    (fillPages flags s xs).refused = s.refused ↔ Room s.has s.free (xs.map (marks s)) := by
  induction xs generalizing s with
  | nil => exact iff_of_true rfl (.nil _ _)
  | cons x xs ih =>
      obtain ⟨hx, hxs⟩ := List.pairwise_cons.mp hdiff
      have henough := (tablesFor_supplied hs hflags x.virt).enough
      rw [← refused_fillPage] at henough
      by_cases href : (fillPage flags s x).refused = s.refused
      · have h := fillPage_spec hs hflags hp href
        have hreft : (tablesFor s x.virt flags).1.refused = s.refused := refused_fillPage.symm.trans href
        have hrest := ih h.shape hxs
        rw [h.marks_eq hx, h.free hs hflags hreft, room_congr fun r hr => h.has hs hflags hp hreft hr, href] at hrest
        rw [fillPages_cons, hrest, List.map_cons]
        exact (room_cons.trans (and_iff_right (henough.mp href))).symm
      · refine iff_of_false (fun hall => href (refused_fillPages hall).1) fun hall => ?_
        exact href (henough.mpr (room_cons.mp hall).1)

theorem fillPages_bit (hs : TreeShaped s) (hflags : flags < pageSize) (hp : Present flags)
    (href : (fillPages flags s xs).refused = s.refused) (hdiff : xs.Pairwise fun x y => vpn x.virt ≠ vpn y.virt) (f : Nat) :
    (NewTable s (fillPages flags s xs) f ↔ f ∈ tableFrames s.has s.free (xs.map (marks s))) ∧
      (Bit (fillPages flags s xs).bitmap f ↔
        Bit s.bitmap f ∨ NewTable s (fillPages flags s xs) f ∨ ∃ x ∈ xs, Blank s x.virt ∧ x.slot = some f) := by
  induction xs generalizing s with
  | nil =>
      refine ⟨?_, ?_⟩
      · rw [List.map_nil, tableFrames]
        refine iff_of_false ?_ (Finset.notMem_empty f)
        rintro ⟨p, -, ht, hnot⟩
        exact hnot ht
      · refine (or_iff_left ?_).symm
        rintro (⟨p, -, ht, hnot⟩ | ⟨x, hx, -⟩)
        · exact hnot ht
        · exact absurd hx List.not_mem_nil
  | cons x xs ih =>
      obtain ⟨href1, href2⟩ := refused_fillPages href
      obtain ⟨hx, hxs⟩ := List.pairwise_cons.mp hdiff
      have h := fillPage_spec hs hflags hp href1
      have hreft : (tablesFor s x.virt flags).1.refused = s.refused := refused_fillPage.symm.trans href1
      obtain ⟨hnew, hbit⟩ := ih h.shape href2 hxs
      have hgrew := fillPages_grew h.shape hflags hp href2
      have hsplit := NewTable.trans_iff (f := f) h.ext.table hgrew.ext.table
      have hfirst := h.newTable_iff (f := f) hs hflags hp hreft
      rw [fillPages_cons]
      refine ⟨?_, ?_⟩
      · rw [hsplit, hfirst, hnew, h.marks_eq hx, h.free hs hflags hreft,
          tableFrames_congr fun r hr => h.has hs hflags hp hreft hr]
        exact Finset.mem_union.symm
      · have hrest : (∃ y ∈ xs, Blank (fillPage flags s x) y.virt ∧ y.slot = some f) ↔
            ∃ y ∈ xs, Blank s y.virt ∧ y.slot = some f := by
          refine exists_congr fun y => and_congr_right fun hy => ?_
          rw [h.blank_iff (hx y hy).symm]
        rw [hbit, h.bit, tablesFor_bit hs hflags hreft, hsplit, ← hfirst, hrest, or_or_or_comm]
        simp only [List.mem_cons, exists_eq_or_imp, or_assoc]

/-! ## Long ranges -/

theorem div_of_tablePath (h : tablePath v = tablePath w) : v / 2 ^ 21 % 2 ^ 27 = w / 2 ^ 21 % 2 ^ 27 := by
  simp only [tablePath, List.cons.injEq, and_true, Fin.ext_iff, pmlt4Index, pdptIndex, pdtIndex, index_val] at h
  omega

theorem div_step (virt k : Nat) : qword (virt + k * 512 * pageSize) / 2 ^ 21 % 2 ^ 27 = (virt / 2 ^ 21 + k) % 2 ^ 27 := by
  unfold qword pageSize
  omega

theorem tablePath_step (virt : Nat) {i j : Nat} (hi : i ≤ frames) (hj : j ≤ frames)
    (h : tablePath (qword (virt + i * 512 * pageSize)) = tablePath (qword (virt + j * 512 * pageSize))) : i = j := by
  have hdiv := div_of_tablePath h
  rw [div_step, div_step] at hdiv
  unfold frames pageBitmapSize at hi hj
  omega

/-- There are not more tables than frames, and each serves 512 pages. -/
theorem pages_le (hs : TreeShaped t) (h : ∀ i < n, ∃ f, t.table (tablePath (qword (virt + i * pageSize))) = some f) :
    n ≤ 512 * frames := by
  by_contra hn
  have hfound : ∀ k, ∃ f, k ≤ frames → t.table (tablePath (qword (virt + k * 512 * pageSize))) = some f := by
    intro k
    by_cases hk : k ≤ frames
    · obtain ⟨f, hf⟩ := h (k * 512) (by omega)
      exact ⟨f, fun _ => hf⟩
    · exact ⟨0, fun h => absurd h hk⟩
  choose f hf using hfound
  have hmaps : ∀ k ∈ Finset.range (frames + 1), f k ∈ Finset.range frames := by
    intro k hk
    have hk' := Nat.lt_succ_iff.mp (Finset.mem_range.mp hk)
    exact Finset.mem_range.mpr (hs.marked _ _ (length_tablePath _).le (hf k hk')).1
  obtain ⟨i, hi, j, hj, hne, heq⟩ := Finset.exists_ne_map_eq_of_card_lt_of_maps_to (by simp) hmaps
  have hi' := Nat.lt_succ_iff.mp (Finset.mem_range.mp hi)
  have hj' := Nat.lt_succ_iff.mp (Finset.mem_range.mp hj)
  refine hne (tablePath_step virt hi' hj' ?_)
  have hfj := hf j hj'
  rw [← heq] at hfj
  exact hs.path_eq (length_tablePath _).le (length_tablePath _).le (hf i hi') hfj

end HaOS.Paging
