import HaOS.Paging.Map

/-!
# The shape of the tables

* `TreeShaped` : every table is found along one path from the root and is marked;
* `Keeps` : the tables stay where they are, as when the window moves or a frame is granted;
* `Extends` : the tables grow by fresh ones, and only some entries of page tables change;
* `At` : where a table that is being filled lies: on its path, or nowhere when the flags leave out the present bit;
* `tablesFor_walk`, `tablesFor_linked` : the tables on the way to a page exist afterwards; `At.store` : an entry is
  written.
-/

namespace HaOS.Paging
open Lib.Radix (IsTree setChild)

/-- The path to `frame_pt`, whose first entry is the window's. -/
def windowPath : List Index := tablePath 0x3fe00000

def bitmapFrame : Nat := frameOf pageBitmapAddress

def State.NoTable (s : State) (f : Nat) : Prop := ∀ p, p.length ≤ 3 → s.table p ≠ some f

structure TreeShaped (s : State) : Prop where
  tree : IsTree (child s.mem) s.root 3
  marked : ∀ p f, p.length ≤ 3 → s.table p = some f → s.Marked f
  window : s.table windowPath = some framePt
  /-- the bitmap lies apart from the tables, in a frame that is not granted -/
  bitmap : s.Marked bitmapFrame ∧ s.NoTable bitmapFrame

/-- The entry of the page table at a path; `0` where there is no page table. -/
def State.entry (s : State) (p : List Index) (i : Index) : Nat :=
  match s.table p with
  | some f => s.mem f i
  | none => 0

structure Keeps (s t : State) : Prop where
  pmlt4 : t.pmlt4 = s.pmlt4
  table : ∀ p, p.length ≤ 3 → t.table p = s.table p
  bit : ∀ f, Bit s.bitmap f → Bit t.bitmap f
  mem : ∀ f i, s.Marked f → ¬ (f = framePt ∧ i = 0) → t.mem f i = s.mem f i

/-- From `s` to `t` tables are linked in and only the entries in `T` change. -/
structure Extends (flags : Nat) (T : List Index → Index → Prop) (s t : State) : Prop where
  pmlt4 : t.pmlt4 = s.pmlt4
  table : ∀ p f, p.length ≤ 3 → s.table p = some f → t.table p = some f
  fresh : ∀ p f, p.length ≤ 3 → t.table p = some f → s.table p = some f ∨ ¬ Bit s.bitmap f
  bit : ∀ f, Bit s.bitmap f → Bit t.bitmap f
  entry : ∀ p i, p.length = 3 → ¬ (p = windowPath ∧ i = 0) → ¬ T p i → t.entry p i = s.entry p i
  data : Present flags → ∀ f, s.Marked f → t.NoTable f → t.mem f = s.mem f

variable {s t u : State} {p q : List Index} {i j : Index} {n m f g e addr flags virt : Nat}
  {T : List Index → Index → Prop}

theorem State.Marked.mono (hb : ∀ f, Bit s.bitmap f → Bit t.bitmap f) (h : s.Marked f) : t.Marked f := ⟨h.1, hb f h.2⟩

theorem entry_of_table (h : s.table p = some f) (i : Index) : s.entry p i = s.mem f i := by
  simp only [State.entry, h]

theorem entry_of_none (h : s.table p = none) (i : Index) : s.entry p i = 0 := by
  simp only [State.entry, h]

theorem entry_congr (htable : t.table p = s.table p) (hm : ∀ f, s.table p = some f → t.mem f i = s.mem f i) :
    t.entry p i = s.entry p i := by
  cases hf : s.table p with
  | none => rw [entry_of_none hf, entry_of_none (htable.trans hf)]
  | some f => rw [entry_of_table hf, entry_of_table (htable.trans hf), hm f hf]

theorem table_snoc (h : s.table p = some n) (i : Index) : s.table (p ++ [i]) = target (s.mem n i) :=
  Lib.Radix.descend_snoc h

theorem TreeShaped.path_eq (hs : TreeShaped s) (hp : p.length ≤ 3) (hq : q.length ≤ 3) (h : s.table p = some f)
    (h' : s.table q = some f) : p = q := hs.tree p q f hp hq h h'

theorem length_tablePath (v : Nat) : (tablePath v).length = 3 := rfl

/-- Frame `f` of a window that is moved, or of a page table, lies at no path of less than three entries. -/
theorem TreeShaped.deep (hs : TreeShaped s) (hp : p.length = 3) (h : s.table p = some f) (hq : q.length < 3) :
    s.table q ≠ some f := by
  intro h'
  have := congrArg List.length (hs.path_eq hp.le hq.le h h')
  omega

/-- Writes to frames that are found along no path of less than three entries do not move a table. -/
theorem table_congr (hroot : t.pmlt4 = s.pmlt4) (hm : ∀ q g, q.length < 3 → s.table q = some g → t.mem g = s.mem g)
    (hp : p.length ≤ 3) : t.table p = s.table p := by
  unfold State.table
  rw [show t.root = s.root from congrArg frameOf hroot]
  refine Lib.Radix.descend_congr_deep (fun q g hq hg i => ?_) hp
  unfold child
  rw [hm q g hq hg]

theorem mem_store_of_ne (h : g ≠ f) : (s.store f i e).mem g = s.mem g := by
  funext j
  rw [mem_store, if_neg fun h' => h h'.1]

theorem table_store (hf : ∀ q, q.length < 3 → s.table q ≠ some f) (hp : p.length ≤ 3) :
    (s.store f i e).table p = s.table p := by
  refine table_congr rfl (fun q g hq hg => mem_store_of_ne ?_) hp
  rintro rfl
  exact hf q hq hg

/-! ## The tables stay -/

theorem Keeps.refl (s : State) : Keeps s s := ⟨rfl, fun _ _ => rfl, fun _ h => h, fun _ _ _ _ => rfl⟩

theorem Keeps.trans (h : Keeps s t) (h' : Keeps t u) : Keeps s u where
  pmlt4 := h'.pmlt4.trans h.pmlt4
  table p hp := (h'.table p hp).trans (h.table p hp)
  bit f hf := h'.bit f (h.bit f hf)
  mem f i hf hw := (h'.mem f i (hf.mono h.bit) hw).trans (h.mem f i hf hw)

theorem TreeShaped.congr (hs : TreeShaped s) (hroot : t.pmlt4 = s.pmlt4)
    (htable : ∀ p, p.length ≤ 3 → t.table p = s.table p)
    (hmarked : ∀ f, s.Marked f → ¬ s.NoTable f ∨ f = bitmapFrame → t.Marked f) : TreeShaped t where
  tree := by
    have hroot : t.root = s.root := congrArg frameOf hroot
    rw [hroot]
    refine hs.tree.congr fun p hp => ?_
    have := htable p hp
    unfold State.table at this
    rwa [hroot] at this
  marked p f hp hf := by
    rw [htable p hp] at hf
    exact hmarked f (hs.marked p f hp hf) (.inl fun hn => hn p hp hf)
  window := (htable _ (by decide)).trans hs.window
  bitmap := by
    refine ⟨hmarked _ hs.bitmap.1 (.inr rfl), fun p hp => ?_⟩
    rw [htable p hp]
    exact hs.bitmap.2 p hp

theorem TreeShaped.keeps (hs : TreeShaped s) (h : Keeps s t) : TreeShaped t :=
  hs.congr h.pmlt4 h.table fun _ hf _ => hf.mono h.bit

/-- The window moves. -/
theorem TreeShaped.setWindow (hs : TreeShaped s) (e : Nat) : Keeps s (s.store framePt 0 e) where
  pmlt4 := rfl
  table _ hp := table_store (fun _ hq => hs.deep rfl hs.window hq) hp
  bit _ h := h
  mem _ _ _ hw := if_neg hw

theorem TreeShaped.mapframe (hs : TreeShaped s) (addr : Nat) : Keeps s (pageMapframe s addr) := hs.setWindow _

theorem TreeShaped.umapframe (hs : TreeShaped s) : Keeps s (pageUmapframe s) := hs.setWindow 0

theorem TreeShaped.noTable (hs : TreeShaped s) (hf : ¬ Bit s.bitmap f) : s.NoTable f :=
  fun p hp h => hf (hs.marked p f hp h).2

theorem TreeShaped.granted (hs : TreeShaped s) (h : Granted s t f) : Keeps s t where
  pmlt4 := h.pmlt4
  table p hp := by
    refine table_congr h.pmlt4 (fun q g hq hg => ?_) hp
    have hgw : g ≠ framePt := by
      rintro rfl
      exact hs.deep rfl hs.window hq hg
    have hgf : g ≠ f := by
      rintro rfl
      exact hs.noTable h.free q hq.le hg
    funext j
    rw [h.mem, if_neg fun hw => hgw hw.1, if_neg hgf]
  bit g hg := (h.bit g).mpr (.inr hg)
  mem g i hg hw := by
    have hgf : g ≠ f := by
      rintro rfl
      exact h.free hg.2
    rw [h.mem, if_neg hw, if_neg hgf]

theorem NoTable.keeps (h : Keeps s t) (hf : s.NoTable f) : t.NoTable f := by
  intro p hp
  rw [h.table p hp]
  exact hf p hp

theorem TreeShaped.framePt_ne (hs : TreeShaped s) (hf : s.NoTable f) : f ≠ framePt := by
  rintro rfl
  exact hf _ (by decide) hs.window

/-! ## The tables grow -/

theorem Extends.refl (s : State) : Extends flags T s s :=
  ⟨rfl, fun _ _ _ h => h, fun _ _ _ h => .inl h, fun _ h => h, fun _ _ _ _ _ => rfl, fun _ _ _ _ => rfl⟩

theorem Extends.noTable (h : Extends flags T s t) (hf : t.NoTable f) : s.NoTable f :=
  fun p hp hp' => hf p hp (h.table p f hp hp')

theorem Extends.trans (h : Extends flags T s t) (h' : Extends flags T t u) : Extends flags T s u where
  pmlt4 := h'.pmlt4.trans h.pmlt4
  table p f hp hf := h'.table p f hp (h.table p f hp hf)
  fresh p f hp hf := by
    obtain hf | hf := h'.fresh p f hp hf
    · exact h.fresh p f hp hf
    · exact .inr fun hb => hf (h.bit f hb)
  bit f hf := h'.bit f (h.bit f hf)
  entry p i hp hw hT := (h'.entry p i hp hw hT).trans (h.entry p i hp hw hT)
  data hflags f hf hn := (h'.data hflags f (hf.mono h.bit) hn).trans (h.data hflags f hf (h'.noTable hn))

theorem Extends.mono {T' : List Index → Index → Prop} (h : Extends flags T s t) (hT : ∀ p i, T p i → T' p i) :
    Extends flags T' s t :=
  { h with entry := fun p i hp hw hn => h.entry p i hp hw fun ht => hn (hT p i ht) }

theorem TreeShaped.entry_keeps (hs : TreeShaped s) (h : Keeps s t) (hp : p.length = 3)
    (hw : ¬ (p = windowPath ∧ i = 0)) : t.entry p i = s.entry p i := by
  refine entry_congr (h.table p hp.le) fun f hf => h.mem f i (hs.marked p f hp.le hf) ?_
  rintro ⟨rfl, hi⟩
  exact hw ⟨hs.path_eq hp.le (by decide) hf hs.window, hi⟩

theorem TreeShaped.extends (hs : TreeShaped s) (h : Keeps s t) : Extends flags T s t where
  pmlt4 := h.pmlt4
  table p f hp hf := (h.table p hp).trans hf
  fresh p f hp hf := .inl ((h.table p hp).symm.trans hf)
  bit := h.bit
  entry p i hp hw _ := hs.entry_keeps h hp hw
  data _ f hf hn := by
    funext i
    refine h.mem f i hf ?_
    rintro ⟨rfl, -⟩
    exact (hs.keeps h).framePt_ne hn rfl

/-! ## Linking a table -/

/-- A frame that was granted for a table and is linked nowhere, because its entry is not present. -/
structure Orphan (s : State) (f : Nat) : Prop where
  marked : s.Marked f
  noTable : s.NoTable f
  zero : ∀ i, s.mem f i = 0

def At (flags : Nat) (s : State) (p : List Index) (f : Nat) : Prop :=
  s.table p = some f ∨ ¬ Present flags ∧ Orphan s f

theorem Orphan.keeps (hs : TreeShaped s) (h : Keeps s t) (hf : Orphan s f) : Orphan t f where
  marked := hf.marked.mono h.bit
  noTable := NoTable.keeps h hf.noTable
  zero i := (h.mem f i hf.marked fun hw => hs.framePt_ne hf.noTable hw.1).trans (hf.zero i)

theorem At.keeps (hs : TreeShaped s) (h : Keeps s t) (hp : p.length ≤ 3) (hf : At flags s p f) : At flags t p f :=
  hf.imp ((h.table p hp).trans ·) (And.imp_right (·.keeps hs h))

theorem At.marked (hs : TreeShaped s) (hp : p.length ≤ 3) (hf : At flags s p f) : s.Marked f := by
  obtain hf | ⟨-, hf⟩ := hf
  · exact hs.marked p f hp hf
  · exact hf.marked

/-- `frame_pt` is a page table, not one further up. -/
theorem At.ne_framePt (hs : TreeShaped s) (hp : p.length < 3) (hf : At flags s p f) : f ≠ framePt := by
  obtain hf | ⟨-, hf⟩ := hf
  · rintro rfl
    exact hs.deep rfl hs.window hp hf
  · exact hs.framePt_ne hf.noTable

structure Linked (flags : Nat) (s t : State) (p : List Index) (f : Nat) : Prop where
  shape : TreeShaped t
  ext : Extends flags (fun _ _ => False) s t
  place : At flags t p f

theorem table_store_absent (hnone : ¬ Present (s.mem n i)) (he : ¬ Present e) (p : List Index) :
    (s.store n i e).table p = s.table p := by
  have hchild : child (s.store n i e).mem = child s.mem := by
    funext g j
    unfold child target
    rw [mem_store]
    by_cases h : g = n ∧ j = i
    · rw [if_pos h, if_neg he, h.1, h.2, if_neg hnone]
    · rw [if_neg h]
  unfold State.table
  rw [hchild, root_store]

theorem At.mem_store_below (hs : TreeShaped s) (hp : p.length < 3) (hn : At flags s p n) (hq : q.length = 3)
    (hf : s.table q = some f) (j : Index) : (s.store n i e).mem f j = s.mem f j := by
  rw [mem_store_of_ne]
  rintro rfl
  obtain hn | ⟨-, hn⟩ := hn
  · have := congrArg List.length (hs.path_eq hp.le hq.le hn hf)
    omega
  · exact hn.noTable q hq.le hf

theorem TreeShaped.attach_present (hs : TreeShaped s) (hflags : flags < pageSize) (hpres : Present flags)
    (hp : p.length < 3) (hn : s.table p = some n) (hnone : ¬ Present (s.mem n i)) (hm : s.Marked m) (hmn : s.NoTable m)
    (hmb : m ≠ bitmapFrame) (hzero : ∀ j, s.mem m j = 0) :
    TreeShaped (s.store n i (m * pageSize ||| flags)) ∧ ∀ q, q.length ≤ 3 →
      (s.store n i (m * pageSize ||| flags)).table q = if q = p ++ [i] then some m else s.table q := by
  have hm40 : m < 2 ^ 40 := Nat.lt_trans hm.1 (by decide)
  have hchild : child (s.store n i (m * pageSize ||| flags)).mem = setChild (child s.mem) n i (some m) := by
    rw [child_store, target_or hm40 hflags, if_pos hpres]
  have hi : child s.mem n i = none := if_neg hnone
  have hj : ∀ j, child s.mem m j = none := by
    intro j
    unfold child
    rw [hzero]
    rfl
  have htable : ∀ q, q.length ≤ 3 →
      (s.store n i (m * pageSize ||| flags)).table q = if q = p ++ [i] then some m else s.table q := by
    intro q hq
    unfold State.table
    rw [hchild]
    exact Lib.Radix.descend_setChild hs.tree hn hp hi hmn hj hq
  refine ⟨⟨?_, ?_, ?_, hs.bitmap.1, ?_⟩, htable⟩
  · rw [hchild]
    exact hs.tree.setChild hn hp hi hmn hj
  · intro q f hq hf
    rw [htable q hq] at hf
    split_ifs at hf
    · cases hf
      exact hm
    · exact hs.marked q f hq hf
  · rw [htable _ (by decide), if_neg, hs.window]
    intro h
    have hw := hs.window
    rw [h, table_snoc hn, target, if_neg hnone] at hw
    cases hw
  · intro q hq
    rw [htable q hq]
    split_ifs
    · exact fun h => hmb (Option.some.inj h)
    · exact hs.bitmap.2 q hq

/-- A fresh frame is linked below the table `n`, -/
theorem TreeShaped.attach_linked (hs : TreeShaped s) (hk : Keeps s u) (hflags : flags < pageSize) (hpres : Present flags)
    (hp : p.length < 3) (hn : u.table p = some n) (hnone : ¬ Present (u.mem n i)) (hfree : ¬ Bit s.bitmap m)
    (hm : u.Marked m) (hmn : m ≠ n) (hzero : ∀ j, u.mem m j = 0) :
    Linked flags s (u.store n i (m * pageSize ||| flags)) (p ++ [i]) m := by
  have hu : TreeShaped u := hs.keeps hk
  have hmu : u.NoTable m := NoTable.keeps hk (hs.noTable hfree)
  have hext : Extends flags (fun _ _ => False) s u := hs.extends hk
  have hlen : (p ++ [i]).length ≤ 3 := by
    simp only [List.length_append, List.length_singleton]
    omega
  have hmb : m ≠ bitmapFrame := by
    rintro rfl
    exact hfree hs.bitmap.1.2
  obtain ⟨htree, htable⟩ := hu.attach_present hflags hpres hp hn hnone hm hmu hmb hzero
  have hnew : u.table (p ++ [i]) = none := by
    rw [table_snoc hn, target, if_neg hnone]
  have hstay : ∀ q f, q.length ≤ 3 → u.table q = some f →
      (u.store n i (m * pageSize ||| flags)).table q = some f := by
    intro q f hq hf
    rw [htable q hq, if_neg, hf]
    rintro rfl
    rw [hnew] at hf
    cases hf
  refine ⟨htree, ⟨hk.pmlt4, ?_, ?_, hk.bit, ?_, ?_⟩, .inl ((htable _ hlen).trans (if_pos rfl))⟩
  · intro q f hq hf
    exact hstay q f hq (hext.table q f hq hf)
  · intro q f hq hf
    rw [htable q hq] at hf
    split_ifs at hf
    · cases hf
      exact .inr hfree
    · exact hext.fresh q f hq hf
  · intro q j hq hw hT
    rw [← hext.entry q j hq hw hT]
    by_cases hqi : q = p ++ [i]
    · subst hqi
      rw [entry_of_table ((htable _ hq.le).trans (if_pos rfl)), entry_of_none hnew, mem_store_of_ne hmn, hzero]
    · have hqt := (htable q hq.le).trans (if_neg hqi)
      have hat : At flags u p n := .inl hn
      exact entry_congr hqt fun f hf => hat.mem_store_below hu hp hq hf j
  · intro hfl f hf hno
    have hfn : f ≠ n := by
      rintro rfl
      exact hno p hp.le (hstay p f hp.le hn)
    rw [mem_store_of_ne hfn]
    exact hext.data hfl f hf fun q hq hfu => hno q hq (hstay q f hq hfu)

/-- or nowhere, when the flags leave out the present bit. -/
theorem TreeShaped.attach_orphan (hs : TreeShaped s) (hk : Keeps s u) (habsent : ¬ Present flags) (hp : p.length < 3)
    (hn : At flags u p n) (hnone : ¬ Present (u.mem n i)) (hfree : ¬ Bit s.bitmap m) (hm : u.Marked m) (hmn : m ≠ n)
    (hzero : ∀ j, u.mem m j = 0) : Linked flags s (u.store n i (m * pageSize ||| flags)) (p ++ [i]) m := by
  have hu : TreeShaped u := hs.keeps hk
  have hext : Extends flags (fun _ _ => False) s u := hs.extends hk
  have htable : ∀ q, q.length ≤ 3 → (u.store n i (m * pageSize ||| flags)).table q = u.table q :=
    fun q _ => table_store_absent hnone (fun h => habsent ((present_or m).mp h)) q
  refine ⟨hu.congr rfl htable fun f hf _ => hf, ⟨hk.pmlt4, ?_, ?_, hk.bit, ?_, fun h => absurd h habsent⟩,
    .inr ⟨habsent, hm, ?_, ?_⟩⟩
  · intro q f hq hf
    exact (htable q hq).trans (hext.table q f hq hf)
  · intro q f hq hf
    exact hext.fresh q f hq ((htable q hq).symm.trans hf)
  · intro q j hq hw hT
    rw [← hext.entry q j hq hw hT]
    exact entry_congr (htable q hq.le) fun f hf => hn.mem_store_below hu hp hq hf j
  · intro q hq hf
    exact NoTable.keeps hk (hs.noTable hfree) q hq ((htable q hq).symm.trans hf)
  · intro j
    rw [mem_store_of_ne hmn]
    exact hzero j

theorem TreeShaped.attach (hs : TreeShaped s) (hk : Keeps s u) (hflags : flags < pageSize) (hp : p.length < 3)
    (hn : At flags s p n) (hnone : ¬ Present (u.mem n i)) (hfree : ¬ Bit s.bitmap m) (hm : u.Marked m)
    (hzero : ∀ j, u.mem m j = 0) :
    Linked flags s (u.store n i (m * pageSize ||| flags)) (p ++ [i]) m := by
  have hnu : At flags u p n := hn.keeps hs hk hp.le
  have hmn : m ≠ n := by
    rintro rfl
    exact hfree (hn.marked hs hp.le).2
  by_cases hpres : Present flags
  · have hnp : u.table p = some n := hnu.resolve_right fun h => h.1 hpres
    exact hs.attach_linked hk hflags hpres hp hnp hnone hfree hm hmn hzero
  · exact hs.attach_orphan hk hpres hp hnu hnone hfree hm hmn hzero

theorem Linked.trans (h : Linked flags s t p f) (h' : Linked flags t u q g) : Linked flags s u q g :=
  ⟨h'.shape, h.ext.trans h'.ext, h'.place⟩

theorem At.next (hp : At flags s p n) (hpres : Present (s.mem n i)) : At flags s (p ++ [i]) (frameOf (s.mem n i)) := by
  obtain hp | ⟨-, hp⟩ := hp
  · refine .inl ?_
    rw [table_snoc hp, target, if_pos hpres]
  · rw [hp.zero] at hpres
    exact absurd rfl hpres

theorem pageGetframe_granted (h : (pageGetframe s).1.refused = s.refused) :
    ∃ f, Granted s (pageGetframe s).1 f ∧ (pageGetframe s).2 = f * pageSize := by
  obtain hf | ⟨hf, -⟩ := pageGetframe_cases s
  · exact hf
  · omega

theorem TreeShaped.keeps_getframe (hs : TreeShaped s) : Keeps s (pageGetframe s).1 := by
  by_cases h : (pageGetframe s).1.refused = s.refused
  · obtain ⟨f, hf, -⟩ := pageGetframe_granted h
    exact hs.granted hf
  · rw [pageGetframe_refused h]
    exact ⟨rfl, fun _ _ => rfl, fun _ hf => hf, fun _ _ _ _ => rfl⟩

theorem Granted.marked (h : Granted s t f) : t.Marked f := ⟨h.lt, (h.bit f).mpr (.inl rfl)⟩

theorem Granted.zero (h : Granted s t f) (j : Index) : t.mem f j = 0 := by
  rw [h.mem]
  simp only [if_true, ite_self]

/-- What the walk does at the entry `i` of the table `n`: it goes to the table behind a present entry, or it links a
fresh one, or it finds no frame. -/
inductive Visit (flags : Nat) (s : State) (n : Nat) (i : Index) : State → Nat → Prop
  | present {u : State} (hk : Keeps s u) (hbitmap : u.bitmap = s.bitmap) (href : u.refused = s.refused)
    (hpres : Present (s.mem n i)) : Visit flags s n i u (frameOf (s.mem n i))
  | fresh {u : State} {m : Nat} (hk : Keeps s u) (hm : m ∈ s.free) (hfree : u.free = s.free.erase m)
    (href : u.refused = s.refused) (habsent : ¬ Present (s.mem n i)) (hold : u.mem n i = s.mem n i)
    (hzero : ∀ j, u.mem m j = 0) : Visit flags s n i (u.store n i (m * pageSize ||| flags)) m
  | refused {u : State} (habsent : ¬ Present (s.mem n i)) (hfull : s.free = ∅) (href : s.refused < u.refused) (a : Nat) :
    Visit flags s n i u a

theorem marked_of_free (hm : m ∈ s.free) (hu : u.free = s.free.erase m) : u.Marked m := by
  refine ⟨(mem_free.mp hm).1, not_not.mp fun h => ?_⟩
  have hmem : m ∈ u.free := mem_free.mpr ⟨(mem_free.mp hm).1, h⟩
  rw [hu] at hmem
  exact Finset.notMem_erase m _ hmem

theorem Visit.linked (h : Visit flags s n i t f) (hs : TreeShaped s) (hflags : flags < pageSize) (hp : p.length < 3)
    (hn : At flags s p n) (href : t.refused = s.refused) : Linked flags s t (p ++ [i]) f := by
  cases h with
  | present hk _ _ hpres =>
      exact ⟨hs.keeps hk, hs.extends hk, (hn.next hpres).keeps hs hk (by simp only [List.length_append]; exact hp)⟩
  | fresh hk hm hfree _ habsent hold hzero =>
      exact hs.attach hk hflags hp hn (by rwa [hold]) (mem_free.mp hm).2 (marked_of_free hm hfree) hzero
  | refused _ _ hlt => omega

theorem rootEntry_visit (hs : TreeShaped s) (hflags : flags < pageSize) :
    Visit flags s s.root i (rootEntry s i flags).1 (frameOf (rootEntry s i flags).2) := by
  by_cases hpres : Present (s.mem s.root i)
  · simp only [rootEntry, hpres, if_true, frameOf_tableAddress]
    exact .present (.refl s) rfl rfl hpres
  · obtain ⟨m, hm, hframe⟩ | ⟨href, -⟩ := pageGetframe_cases s
    · have hk := hs.granted hm
      have hmem : (pageGetframe s).1.mem s.root i = s.mem s.root i := by
        refine hk.mem _ _ (hs.marked [] _ (by decide) rfl) ?_
        rintro ⟨h, -⟩
        exact hs.deep rfl hs.window (by decide : ([] : List Index).length < 3) (congrArg some h)
      have hr : (pageGetframe s).1.root = s.root := congrArg frameOf hk.pmlt4
      simp only [rootEntry, hpres, if_false, hframe, frameOf_tableAddress, root_store, hr, mem_store, and_self, if_true]
      rw [frameOf_or hflags, frameOf_mul (Nat.lt_trans hm.lt (by decide))]
      exact .fresh hk hm.mem_free hm.free_eq hm.refused hpres hmem hm.zero
    · have hlt : s.refused < (rootEntry s i flags).1.refused := by
        simp only [rootEntry, hpres, if_false, refused_store, href]
        exact Nat.lt_succ_self _
      exact .refused hpres (free_of_refused (by omega)) hlt _

theorem tableEntry_visit (hs : TreeShaped s) (hflags : flags < pageSize) (hp : p.length < 3)
    (hn : At flags s p (frameOf addr)) :
    Visit flags s (frameOf addr) i (tableEntry s addr i flags).1 (frameOf (tableEntry s addr i flags).2) := by
  have hne : frameOf addr ≠ framePt := hn.ne_framePt hs hp
  have hk1 := hs.mapframe addr
  have hs1 := hs.keeps hk1
  have hmem1 : (pageMapframe s addr).mem (frameOf addr) i = s.mem (frameOf addr) i :=
    hk1.mem _ i (hn.marked hs hp.le) fun h => hne h.1
  have hwin : (pageMapframe s addr).window i = s.mem (frameOf addr) i := by
    rw [State.window, windowFrame_mapframe, hmem1]
  by_cases hpres : Present (s.mem (frameOf addr) i)
  · simp only [tableEntry, hwin, hpres, if_true, frameOf_tableAddress]
    exact .present hk1 rfl rfl hpres
  · obtain ⟨m, hm, hframe⟩ | ⟨href, -⟩ := pageGetframe_cases (pageMapframe s addr)
    · have hk2 := hk1.trans (hs1.granted hm)
      have hk3 := hk2.trans ((hs.keeps hk2).mapframe addr)
      have hmem3 : (pageMapframe (pageGetframe (pageMapframe s addr)).1 addr).mem (frameOf addr) i =
          s.mem (frameOf addr) i := hk3.mem _ i (hn.marked hs hp.le) fun h => hne h.1
      have hmw : m ≠ framePt := by
        rintro rfl
        exact hm.free (hs1.marked _ _ (by decide) hs1.window).2
      have hzero : ∀ j, (pageMapframe (pageGetframe (pageMapframe s addr)).1 addr).mem m j = 0 := by
        intro j
        rw [pageMapframe, mem_store_of_ne hmw]
        exact hm.zero j
      have hstore : ∀ e, ((pageMapframe (pageGetframe (pageMapframe s addr)).1 addr).storeWindow i e) =
          (pageMapframe (pageGetframe (pageMapframe s addr)).1 addr).store (frameOf addr) i e := by
        intro e
        rw [State.storeWindow, windowFrame_mapframe]
      have hres : frameOf (((pageMapframe (pageGetframe (pageMapframe s addr)).1 addr).store (frameOf addr) i
          (m * pageSize ||| flags)).window i) = m := by
        have hw : ((pageMapframe (pageGetframe (pageMapframe s addr)).1 addr).store (frameOf addr) i
            (m * pageSize ||| flags)).windowFrame = frameOf addr := by
          rw [State.windowFrame, mem_store_of_ne (Ne.symm hne)]
          exact windowFrame_mapframe addr
        rw [State.window, hw, mem_store, if_pos ⟨rfl, rfl⟩, frameOf_or hflags,
          frameOf_mul (Nat.lt_trans hm.lt (by decide))]
      simp only [tableEntry, hwin, hpres, if_false, hframe, frameOf_tableAddress, hstore, hres]
      exact .fresh hk3 hm.mem_free hm.free_eq hm.refused hpres hmem3 hzero
    · have hlt : s.refused < (tableEntry s addr i flags).1.refused := by
        simp only [tableEntry, hwin, hpres, if_false]
        show s.refused < (pageGetframe (pageMapframe s addr)).1.refused
        rw [href]
        exact Nat.lt_succ_self _
      exact .refused hpres (free_of_refused (s := pageMapframe s addr) (by omega)) hlt _

theorem refused_le_rootEntry : s.refused ≤ (rootEntry s i flags).1.refused := by
  unfold rootEntry
  split_ifs
  · exact le_refl _
  · exact refused_le_pageGetframe s

theorem refused_le_tableEntry : s.refused ≤ (tableEntry s addr i flags).1.refused := by
  unfold tableEntry
  simp only
  split_ifs
  · exact le_refl _
  · exact refused_le_pageGetframe (pageMapframe s addr)

theorem refused_le_tablesFor : s.refused ≤ (tablesFor s virt flags).1.refused :=
  (refused_le_rootEntry.trans refused_le_tableEntry).trans refused_le_tableEntry

/-- A walk that gets its frames: what each visit keeps holds behind it, and the page table of `virt` exists. -/
theorem tablesFor_walk {P : State → Prop} (hs : TreeShaped s) (hflags : flags < pageSize)
    (href : (tablesFor s virt flags).1.refused = s.refused) (h0 : P s)
    (hvisit : ∀ u t p n i f, TreeShaped u → p.length < 3 → At flags u p n → Visit flags u n i t f →
      t.refused = u.refused → P u → P t) :
    Linked flags s (tablesFor s virt flags).1 (tablePath virt) (frameOf (tablesFor s virt flags).2) ∧
      P (tablesFor s virt flags).1 := by
  have h1 : s.refused ≤ (rootEntry s (pmlt4Index virt) flags).1.refused := refused_le_rootEntry
  have h2 : (rootEntry s (pmlt4Index virt) flags).1.refused ≤ (tableEntry (rootEntry s (pmlt4Index virt) flags).1
    (rootEntry s (pmlt4Index virt) flags).2 (pdptIndex virt) flags).1.refused := refused_le_tableEntry
  have h3 : _ ≤ (tablesFor s virt flags).1.refused := refused_le_tableEntry
  have hlen1 : [pmlt4Index virt].length < 3 := Nat.lt_of_succ_lt (Nat.lt_succ_self 2)
  have hlen2 : ([pmlt4Index virt] ++ [pdptIndex virt]).length < 3 := Nat.lt_succ_self 2
  have href1 := le_antisymm (href ▸ h2.trans h3) h1
  have href2 := le_antisymm (h3.trans (href.le.trans h1)) h2
  have href3 := le_antisymm (href.le.trans (h1.trans h2)) h3
  have hat : At flags s [] s.root := .inl rfl
  have hv1 := rootEntry_visit (i := pmlt4Index virt) hs hflags
  have hroot := hv1.linked hs hflags (by decide) hat href1
  have hv2 := tableEntry_visit (i := pdptIndex virt) hroot.shape hflags hlen1 hroot.place
  have hpdpt := hv2.linked hroot.shape hflags hlen1 hroot.place href2
  have hv3 := tableEntry_visit (i := pdtIndex virt) hpdpt.shape hflags hlen2 hpdpt.place
  have hpdt := hv3.linked hpdpt.shape hflags hlen2 hpdpt.place href3
  refine ⟨(hroot.trans hpdpt).trans hpdt, ?_⟩
  have hp1 := hvisit _ _ _ _ _ _ hs (by decide) hat hv1 href1 h0
  have hp2 := hvisit _ _ _ _ _ _ hroot.shape hlen1 hroot.place hv2 href2 hp1
  exact hvisit _ _ _ _ _ _ hpdpt.shape hlen2 hpdpt.place hv3 href3 hp2

theorem tablesFor_linked (hs : TreeShaped s) (hflags : flags < pageSize)
    (href : (tablesFor s virt flags).1.refused = s.refused) :
    Linked flags s (tablesFor s virt flags).1 (tablePath virt) (frameOf (tablesFor s virt flags).2) :=
  (tablesFor_walk (P := fun _ => True) hs hflags href trivial fun _ _ _ _ _ _ _ _ _ _ _ _ => trivial).1

/-! ## Writing an entry of a page table -/

def Only (p : List Index) (i : Index) : List Index → Index → Prop := fun q j => q = p ∧ j = i

theorem At.table_store (hs : TreeShaped s) (hp : p.length = 3) (hn : At flags s p n) (i : Index) (e : Nat)
    (hq : q.length ≤ 3) : (s.store n i e).table q = s.table q := by
  refine Paging.table_store (fun r hr h => ?_) hq
  obtain hn | ⟨-, hn⟩ := hn
  · exact hs.deep hp hn hr h
  · exact hn.noTable r hr.le h

theorem At.store (hs : TreeShaped s) (hp : p.length = 3) (hn : At flags s p n) (i : Index) (e : Nat) :
    TreeShaped (s.store n i e) ∧ Extends flags (Only p i) s (s.store n i e) := by
  have htable : ∀ q, q.length ≤ 3 → (s.store n i e).table q = s.table q := fun q hq => hn.table_store hs hp i e hq
  refine ⟨hs.congr rfl htable fun _ hf _ => hf, rfl, ?_, ?_, fun _ h => h, ?_, ?_⟩
  · intro q f hq hf
    exact (htable q hq).trans hf
  · intro q f hq hf
    exact .inl ((htable q hq).symm.trans hf)
  · intro q j hq hw hT
    refine entry_congr (htable q hq.le) fun f hf => ?_
    rw [mem_store, if_neg]
    rintro ⟨rfl, rfl⟩
    obtain hn | ⟨-, hn⟩ := hn
    · exact hT ⟨hs.path_eq hq.le hp.le hf hn, rfl⟩
    · exact hn.noTable q hq.le hf
  · intro hfl f hf hno
    have hnp := hn.resolve_right fun h => h.1 hfl
    refine mem_store_of_ne ?_
    rintro rfl
    exact hno p hp.le ((htable p hp.le).trans hnp)

theorem entry_store (hs : TreeShaped s) (hp : p.length = 3) (hn : s.table p = some n) (i : Index) (e : Nat) :
    (s.store n i e).entry p i = e := by
  have htable : (s.store n i e).table p = some n := (table_store (fun _ hq => hs.deep hp hn hq) hp.le).trans hn
  rw [entry_of_table htable, mem_store, if_pos ⟨rfl, rfl⟩]

theorem entry_store_orphan (hp : p.length ≤ 3) (hn : s.NoTable n) (i : Index) (e : Nat) :
    (s.store n i e).entry p j = s.entry p j := by
  have htable : (s.store n i e).table p = s.table p := table_store (fun q hq => hn q hq.le) hp
  refine entry_congr htable fun f hf => ?_
  rw [mem_store_of_ne]
  rintro rfl
  exact hn p hp hf

/-- From `s` to `t` one entry of a page table may have been written with `e`, and the window shows no free frame. -/
structure Written (flags : Nat) (s t : State) (p : List Index) (i : Index) (e : Nat) : Prop where
  shape : TreeShaped t
  ext : Extends flags (Only p i) s t
  entry : t.entry p i = s.entry p i ∨ t.entry p i = e
  window : t.mem framePt 0 = 0 ∨ t.Marked t.windowFrame

theorem mem_umapframe (s : State) : (pageUmapframe s).mem framePt 0 = 0 := by
  rw [pageUmapframe, mem_store, if_pos ⟨rfl, rfl⟩]

theorem Written.keep (hs : TreeShaped s) (hwin : s.mem framePt 0 = 0 ∨ s.Marked s.windowFrame) :
    Written flags s s p i e :=
  ⟨hs, .refl s, .inl rfl, hwin⟩

theorem At.write (hs : TreeShaped s) (hp : p.length = 3) (hw : ¬ (p = windowPath ∧ i = 0)) (hn : At flags s p n)
    (e : Nat) : Written flags s (pageUmapframe (s.store n i e)) p i e ∧
      (Present flags → (pageUmapframe (s.store n i e)).entry p i = e) := by
  obtain ⟨hshape, hext⟩ := hn.store hs hp i e
  have hclose := hshape.umapframe
  have hlast : (pageUmapframe (s.store n i e)).entry p i = (s.store n i e).entry p i := hshape.entry_keeps hclose hp hw
  refine ⟨⟨hshape.keeps hclose, hext.trans (hshape.extends hclose), ?_, .inl (mem_umapframe _)⟩, fun hfl => ?_⟩
  · rw [hlast]
    obtain hn | ⟨-, hn⟩ := hn
    · exact .inr (entry_store hs hp hn i e)
    · exact .inl (entry_store_orphan hp.le hn.noTable i e)
  · rw [hlast]
    exact entry_store hs hp (hn.resolve_right fun h => h.1 hfl) i e

theorem At.table_write (hs : TreeShaped s) (hp : p.length = 3) (hn : At flags s p n) (i : Index) (e : Nat)
    (hq : q.length ≤ 3) : (pageUmapframe (s.store n i e)).table q = s.table q :=
  ((hn.store hs hp i e).1.umapframe.table q hq).trans (hn.table_store hs hp i e hq)

theorem Written.after (h : Extends flags (fun _ _ => False) s t) (hp : p.length = 3)
    (hw : ¬ (p = windowPath ∧ i = 0)) (h' : Written flags t u p i e) : Written flags s u p i e where
  shape := h'.shape
  ext := (h.mono fun _ _ => False.elim).trans h'.ext
  entry := by
    rw [← h.entry p i hp hw id]
    exact h'.entry
  window := h'.window

/-- A marked frame that is no table does not become one. -/
theorem Extends.noTable_of_bit (h : Extends flags T s t) (hf : s.NoTable f) (hb : Bit s.bitmap f) : t.NoTable f := by
  intro p hp hfp
  obtain hfp | hfree := h.fresh p f hp hfp
  · exact hf p hp hfp
  · exact hfree hb

end HaOS.Paging
