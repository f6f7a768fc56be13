import HaOS.Paging.Identity
import HaOS.Paging.Stacks

/-!
# The address space that `page_create` makes

Four frames of `page_alloc4K` become a root table and one table on each level below its entry `0`; the entry for the
higher half is the one of the default address space.

* `pageCreate` : the function; what it writes goes to the addresses that `page_alloc4K` has mapped;
* `Fresh` : a frame of `page_alloc4K` that nobody has written to; `Built` : the four tables with their entries;
* `Shares s e` : what the paging code dereferences leads to the same frames in both address spaces, with the entry `e`
  in the window;
* `shares_iff` : so it is only where neither the bitmap nor `frame_pt` is mapped, and nothing in the window.
-/

namespace HaOS.Paging
open Lib.Radix (descend)

def kernelHigherHalf : Nat := 0xFFFFFFFF80000000

/-- `table[i] = e` for a table at a virtual address. -/
def poke (s : State) (addr : Nat) (i : Index) (e : Nat) : State := s.store (frameOf (walk s addr)) i e

/-- The five entries that `page_create` writes. -/
def linkTables (s : State) (pmlt4 pdpt pdt pt : Nat) : State :=
  let s := poke s pmlt4 0 (pdpt ||| 1 <<< 1 ||| 1 <<< 0)
  let s := poke s pdpt 0 (pdt ||| 1 <<< 1 ||| 1 <<< 0)
  let s := poke s pdt 0 (pt ||| 1 <<< 1 ||| 1 <<< 0)
  let s := poke s pt 0 (pageBitmapAddress ||| 1 <<< 1 ||| 1 <<< 0)
  let higherTable := tableAddress (s.mem s.root (pmlt4Index kernelHigherHalf))
  poke s pmlt4 (pmlt4Index kernelHigherHalf) (higherTable ||| 1 <<< 1 ||| 1 <<< 0)

/-- `page_create`; the address of the new root table. -/
def pageCreate (s : State) : State × Nat :=
  let flags := pagePresent ||| pageReadwrite
  let (s, pmlt4) := pageAlloc4K s flags
  let (s, pdpt) := pageAlloc4K s flags
  let (s, pdt) := pageAlloc4K s flags
  let (s, pt) := pageAlloc4K s flags
  (linkTables s pmlt4 pdpt pdt pt, pmlt4)

def State.space (s : State) (root : Nat) : State := { s with pmlt4 := root }

/-- The bitmap, `frame_pt`, the window and the kernel. -/
def Dereferenced (v : Nat) : Prop :=
  v / pageSize = pageBitmapAddress / pageSize ∨ v / pageSize = framePtAddress / pageSize ∨
    v / pageSize = windowAddress / pageSize ∨ kernelHigherHalf ≤ v

/-- What the default address space translates of these addresses, with the entry `e` in the window, the new one
translates alike. -/
def Shares (s : State) (e : Nat) : Prop :=
  ∀ v f, Dereferenced v → translate ((pageCreate s).1.store framePt 0 e) v = some f →
    translate (((pageCreate s).1.store framePt 0 e).space (pageCreate s).2) v = some f

variable {s t u : State} {a b c d e f g h v : Nat} {i : Index}

/-! ## Four frames -/

/-- A frame from `page_alloc4K`, as it was granted. -/
structure Fresh (s : State) (f : Nat) : Prop extends Orphan s f where
  mapped : walk s (f * pageSize) = f * pageSize ||| 3

theorem Fresh.lt (h : Fresh s f) : f < 2 ^ 40 := Nat.lt_trans h.marked.1 (by decide)

/-- The page of a frame is written where the frame lies. -/
theorem Fresh.poke (h : Fresh s f) (i : Index) (e : Nat) : poke s (f * pageSize) i e = s.store f i e := by
  rw [Paging.poke, h.mapped, frameOf_or (by decide), frameOf_mul h.lt]

/-- No table comes to lie in the frame, so that nothing is written to it on the way to its own page. -/
theorem pageAlloc4K_zero (hs : TreeShaped s) (href : (pageAlloc4K s 3).1.refused = s.refused)
    (hret : (pageAlloc4K s 3).2 = f * pageSize) (hno : (pageAlloc4K s 3).1.NoTable f) :
    (pageAlloc4K s 3).1.mem f = fun _ => 0 := by
  have hle : (pageGetframe s).1.refused ≤ (tablesFor (pageGetframe s).1 (pageGetframe s).2 3).1.refused :=
    refused_le_tablesFor
  obtain ⟨g, hg, hframe⟩ := pageGetframe_granted (le_antisymm (hle.trans href.le) (refused_le_pageGetframe s))
  have hgot : (tablesFor (pageGetframe s).1 (pageGetframe s).2 3).1.refused = (pageGetframe s).1.refused :=
    href.trans hg.refused.symm
  obtain rfl : g = f := Nat.eq_of_mul_eq_mul_right (by decide : 0 < pageSize) (hframe.symm.trans hret)
  have hs1 := hs.keeps (hs.granted hg)
  have hlinked := tablesFor_linked hs1 (by decide) hgot
  set s1 := (pageGetframe s).1 with hs1'
  set s2 := (tablesFor s1 (pageGetframe s).2 3).1 with hs2
  set ptAddr := (tablesFor s1 (pageGetframe s).2 3).2 with hpt
  have hk := hlinked.shape.mapframe ptAddr
  have hu := hlinked.shape.keeps hk
  have hat := hlinked.place.keeps hlinked.shape hk (length_tablePath (pageGetframe s).2).le
  obtain ⟨hshape, hext⟩ := hat.store hu rfl (ptIndex (pageGetframe s).2) ((pageGetframe s).2 ||| 3)
  have ht : (pageAlloc4K s 3).1 = pageUmapframe ((pageMapframe s2 ptAddr).store (frameOf ptAddr)
      (ptIndex (pageGetframe s).2) ((pageGetframe s).2 ||| 3)) := by
    simp only [pageAlloc4K, ← hs1', ← hs2, ← hpt, State.storeWindow, windowFrame_mapframe]
  rw [ht] at hno ⊢
  have hall := ((hlinked.ext.trans (hlinked.shape.extends hk)).mono fun _ _ => False.elim).trans hext
  rw [(hall.trans (hshape.extends hshape.umapframe)).data (by decide) g hg.marked hno]
  funext j
  exact hg.zero j

theorem pageAlloc4K_fresh {x : Nat} (hs : TreeShaped s) (h : pageAlloc4K s 3 = (t, x)) (href : t.refused = s.refused) :
    ∃ f, x = f * pageSize ∧ Allocated 3 s t f ∧ Fresh t f := by
  obtain ⟨rfl, rfl⟩ := Prod.mk.inj h
  obtain ⟨f, hret, ha⟩ := pageAlloc4K_spec hs (by decide) href
  have hzero := pageAlloc4K_zero hs href hret ha.noTable
  exact ⟨f, hret, ha, ⟨ha.marked, ha.noTable, fun i => congrFun hzero i⟩, ha.walk (by decide)⟩

theorem refused_le_of_alloc {x : Nat} (h : pageAlloc4K s 3 = (t, x)) : s.refused ≤ t.refused := by
  have hle : s.refused ≤ (pageAlloc4K s 3).1.refused := refused_le_pageAlloc4K
  rwa [h] at hle

theorem vpn_frame (hf : f < frames) : vpn (f * pageSize) = f := by
  have h128 : f < 0x8000 := hf
  unfold vpn pageSize
  omega

/-- A frame in use has its page still after the next call. -/
theorem Allocated.walk_marked (ha : Allocated 3 s t f) (hg : s.Marked g) :
    HaOS.Paging.walk t (g * pageSize) = HaOS.Paging.walk s (g * pageSize) := by
  have hf := (mem_free.mp ha.free).1
  refine ha.walk_of_ne (not_onWindow (not_inWindow_frame hg.1)) fun hv => ?_
  rw [vpn_frame hg.1, vpn_frame hf] at hv
  exact (mem_free.mp ha.free).2 (hv ▸ hg.2)

theorem Fresh.alloc (h : Fresh s g) (ha : Allocated 3 s t f) : Fresh t g := by
  have hno := ha.written.ext.noTable_of_bit h.noTable h.marked.2
  refine ⟨⟨h.marked.mono ha.written.ext.bit, hno, fun i => ?_⟩, (ha.walk_marked h.marked).trans h.mapped⟩
  rw [ha.written.ext.data (by decide) g h.marked hno]
  exact h.zero i

theorem Fresh.ne (h : Fresh s g) (ha : Allocated 3 s t f) : g ≠ f := by
  rintro rfl
  exact (mem_free.mp ha.free).2 h.marked.2

theorem Fresh.same (h : Fresh s f) (ht : SameTables s t) (hmem : t.mem f = s.mem f) : Fresh t f where
  marked := ht.marked h.marked
  noTable := ht.noTable h.noTable
  zero i := (congrFun hmem i).trans (h.zero i)
  mapped := (ht.walk _).trans h.mapped

/-- What `page_create` has in hand before it writes: four frames apart from each other. -/
structure Four (s : State) (a b c d : Nat) : Prop where
  root : Fresh s a
  pdpt : Fresh s b
  pdt : Fresh s c
  pt : Fresh s d
  nodup : [a, b, c, d].Nodup

theorem pageCreate_four (hs : TreeShaped s) (href : (pageCreate s).1.refused = s.refused) :
    ∃ u a b c d, TreeShaped u ∧ Four u a b c d ∧
      (∀ g, s.Marked g → walk u (g * pageSize) = walk s (g * pageSize)) ∧
      pageCreate s = (linkTables u (a * pageSize) (b * pageSize) (c * pageSize) (d * pageSize), a * pageSize) := by
  rcases h1 : pageAlloc4K s 3 with ⟨s1, x1⟩
  rcases h2 : pageAlloc4K s1 3 with ⟨s2, x2⟩
  rcases h3 : pageAlloc4K s2 3 with ⟨s3, x3⟩
  rcases h4 : pageAlloc4K s3 3 with ⟨s4, x4⟩
  have hcall : pageCreate s = (linkTables s4 x1 x2 x3 x4, x1) := by
    simp only [pageCreate, show pagePresent ||| pageReadwrite = 3 from by decide, h1, h2, h3, h4]
  rw [hcall] at href ⊢
  have href4 : s4.refused = s.refused := href
  have hle1 := refused_le_of_alloc h1
  have hle2 := refused_le_of_alloc h2
  have hle3 := refused_le_of_alloc h3
  have hle4 := refused_le_of_alloc h4
  obtain ⟨a, rfl, ha, hfa⟩ := pageAlloc4K_fresh hs h1 (by omega)
  obtain ⟨b, rfl, hb, hfb⟩ := pageAlloc4K_fresh ha.written.shape h2 (by omega)
  obtain ⟨c, rfl, hc, hfc⟩ := pageAlloc4K_fresh hb.written.shape h3 (by omega)
  obtain ⟨d, rfl, hd, hfd⟩ := pageAlloc4K_fresh hc.written.shape h4 (by omega)
  refine ⟨s4, a, b, c, d, hd.written.shape, ⟨((hfa.alloc hb).alloc hc).alloc hd, (hfb.alloc hc).alloc hd,
    hfc.alloc hd, hfd, ?_⟩, fun g hg => ?_, rfl⟩
  · simp only [List.nodup_cons, List.mem_cons, List.not_mem_nil, or_false, not_or, not_false_eq_true, List.nodup_nil,
      and_true]
    exact ⟨⟨hfa.ne hb, (hfa.alloc hb).ne hc, ((hfa.alloc hb).alloc hc).ne hd⟩,
      ⟨hfb.ne hc, (hfb.alloc hc).ne hd⟩, hfc.ne hd⟩
  · have hg1 := hg.mono ha.written.ext.bit
    have hg2 := hg1.mono hb.written.ext.bit
    have hg3 := hg2.mono hc.written.ext.bit
    rw [hd.walk_marked hg3, hc.walk_marked hg2, hb.walk_marked hg1, ha.walk_marked hg]

/-! ## The new tables -/

/-- The four tables, with the entry `h` for the higher half. -/
structure Built (s : State) (a b c d h : Nat) : Prop where
  root : ∀ i, s.mem a i = if i = pmlt4Index kernelHigherHalf then h else if i = 0 then b * pageSize ||| 3 else 0
  pdpt : ∀ i, s.mem b i = if i = 0 then c * pageSize ||| 3 else 0
  pdt : ∀ i, s.mem c i = if i = 0 then d * pageSize ||| 3 else 0
  pt : ∀ i, s.mem d i = if i = 0 then 0x6003 else 0

theorem or_flags (e : Nat) : e ||| 1 <<< 1 ||| 1 <<< 0 = e ||| 3 := by
  rw [Nat.or_assoc, show (1 : Nat) <<< 1 ||| 1 <<< 0 = 3 from by decide]

theorem Fresh.store (h : Fresh s f) (hg : s.NoTable g) (hne : f ≠ g) (i : Index) (e : Nat) : Fresh (s.store g i e) f :=
  h.same (sameTables_store hg i e) (mem_store_of_ne hne)

theorem linkTables_built (h4 : Four u a b c d) :
    ∃ t, linkTables u (a * pageSize) (b * pageSize) (c * pageSize) (d * pageSize) = t ∧ SameTables u t ∧
      t.mem u.root = u.mem u.root ∧
      Built t a b c d (tableAddress (u.mem u.root (pmlt4Index kernelHigherHalf)) ||| 3) := by
  obtain ⟨ha, hb, hc, hd, hnodup⟩ := h4
  simp only [List.nodup_cons, List.mem_cons, List.not_mem_nil, or_false, not_or] at hnodup
  obtain ⟨⟨hab, hac, had⟩, ⟨hbc, hbd⟩, hcd, -⟩ := hnodup
  have hroot : ∀ f, Fresh u f → u.root ≠ f := by
    intro f hf heq
    exact hf.noTable [] (by decide) (congrArg some heq)
  set u1 := u.store a 0 (b * pageSize ||| 3) with hu1
  have hb1 : Fresh u1 b := hb.store ha.noTable (Ne.symm hab) _ _
  have hc1 : Fresh u1 c := hc.store ha.noTable (Ne.symm hac) _ _
  have hd1 : Fresh u1 d := hd.store ha.noTable (Ne.symm had) _ _
  have same1 : SameTables u u1 := sameTables_store ha.noTable _ _
  set u2 := u1.store b 0 (c * pageSize ||| 3) with hu2
  have hc2 : Fresh u2 c := hc1.store hb1.noTable (Ne.symm hbc) _ _
  have hd2 : Fresh u2 d := hd1.store hb1.noTable (Ne.symm hbd) _ _
  have same2 : SameTables u u2 := same1.trans (sameTables_store hb1.noTable _ _)
  set u3 := u2.store c 0 (d * pageSize ||| 3) with hu3
  have hd3 : Fresh u3 d := hd2.store hc2.noTable (Ne.symm hcd) _ _
  have same3 : SameTables u u3 := same2.trans (sameTables_store hc2.noTable _ _)
  set u4 := u3.store d 0 0x6003 with hu4
  have same4 : SameTables u u4 := same3.trans (sameTables_store hd3.noTable _ _)
  have hlast : ∀ i e, poke u4 (a * pageSize) i e = u4.store a i e := by
    intro i e
    rw [poke, same4.walk, ha.mapped, frameOf_or (by decide), frameOf_mul ha.lt]
  have hroot4 : u4.mem u.root = u.mem u.root := by
    rw [hu4, mem_store_of_ne (hroot d hd), hu3, mem_store_of_ne (hroot c hc), hu2, mem_store_of_ne (hroot b hb), hu1,
      mem_store_of_ne (hroot a ha)]
  refine ⟨u4.store a (pmlt4Index kernelHigherHalf)
    (tableAddress (u.mem u.root (pmlt4Index kernelHigherHalf)) ||| 3), ?_, ?_, ?_, ?_⟩
  · simp only [linkTables, or_flags]
    rw [ha.poke, ← hu1, hb1.poke, ← hu2, hc2.poke, ← hu3, hd3.poke,
      show pageBitmapAddress ||| 3 = 0x6003 from by decide, ← hu4, hlast]
    rw [show u4.root = u.root from rfl, hroot4]
  · exact same4.trans (sameTables_store (same4.noTable ha.noTable) _ _)
  · rw [mem_store_of_ne (hroot a ha), hroot4]
  · refine ⟨fun i => ?_, fun i => ?_, fun i => ?_, fun i => ?_⟩
    · simp only [hu1, hu2, hu3, hu4, mem_store, hab, hac, had, ha.zero, true_and, false_and, if_false]
    · rw [mem_store_of_ne (Ne.symm hab)]
      simp only [hu1, hu2, hu3, hu4, mem_store, Ne.symm hab, hbc, hbd, hb.zero, true_and, false_and, if_false]
    · rw [mem_store_of_ne (Ne.symm hac)]
      simp only [hu1, hu2, hu3, hu4, mem_store, Ne.symm hac, Ne.symm hbc, hcd, hc.zero, true_and, false_and, if_false]
    · rw [mem_store_of_ne (Ne.symm had)]
      simp only [hu1, hu2, hu3, hu4, mem_store, Ne.symm had, Ne.symm hbd, Ne.symm hcd, hd.zero, true_and, false_and,
        if_false]

/-! ## Walks from the new root -/

theorem Built.setWindow (hb : Built t a b c d h) (hs : TreeShaped t) (ht : ∀ f ∈ [a, b, c, d], t.NoTable f) (e : Nat) :
    Built (t.store framePt 0 e) a b c d h := by
  have hmem : ∀ f ∈ [a, b, c, d], (t.store framePt 0 e).mem f = t.mem f := fun f hf =>
    mem_store_of_ne (hs.framePt_ne (ht f hf))
  refine ⟨fun i => ?_, fun i => ?_, fun i => ?_, fun i => ?_⟩
  · rw [hmem a (by simp), hb.root]
  · rw [hmem b (by simp), hb.pdpt]
  · rw [hmem c (by simp), hb.pdt]
  · rw [hmem d (by simp), hb.pt]

theorem target_flags (hf : f < 2 ^ 40) : target (f * pageSize ||| 3) = some f := by
  rw [target_or hf (by decide), if_pos (by decide)]

theorem table_space (ha : a < 2 ^ 40) (i : Index) (p : List Index) :
    (t.space (a * pageSize)).table (i :: p) = (target (t.mem a i)).bind fun f => descend (child t.mem) f p := by
  show (target (t.mem (frameOf (a * pageSize)) i)).bind _ = _
  rw [frameOf_mul ha]
  rfl

/-- Below the entry `0` there is one table on each level. -/
theorem Built.table_low (hb : Built t a b c d h) (hlt : ∀ f ∈ [a, b, c, d], f < 2 ^ 40) (i : Index) :
    (t.space (a * pageSize)).table [0, 0, i] = if i = 0 then some d else none := by
  have hd := hlt d (by simp)
  rw [table_space (hlt a (by simp)), hb.root, if_neg (by decide), if_pos rfl, target_flags (hlt b (by simp))]
  show (target (t.mem b 0)).bind (fun f => descend (child t.mem) f [i]) = _
  rw [hb.pdpt, if_pos rfl, target_flags (hlt c (by simp))]
  show (target (t.mem c i)).bind some = _
  rw [hb.pdt]
  split_ifs
  · rw [target_flags hd]
    rfl
  · rfl

theorem Built.walk_low (hb : Built t a b c d h) (hlt : ∀ f ∈ [a, b, c, d], f < 2 ^ 40) (hv : tablePath v = [0, 0, 0])
    (hi : ptIndex v ≠ 0) : walk (t.space (a * pageSize)) v = 0 := by
  have htable : (t.space (a * pageSize)).table (tablePath v) = some d := by
    rw [hv, hb.table_low hlt, if_pos rfl]
  rw [walk, entry_of_table htable]
  exact (hb.pt _).trans (if_neg hi)

theorem Built.walk_window (hb : Built t a b c d h) (hlt : ∀ f ∈ [a, b, c, d], f < 2 ^ 40) (hv : InWindow v) :
    walk (t.space (a * pageSize)) v = 0 := by
  have htable : (t.space (a * pageSize)).table (tablePath v) = none := by
    rw [show tablePath v = [0, 0, 511] from hv, hb.table_low hlt, if_neg (by decide)]
  rw [walk, entry_of_none htable]

theorem Built.walk_higher (hb : Built t a b c d (tableAddress (t.mem t.root (pmlt4Index kernelHigherHalf)) ||| 3))
    (ha : a < 2 ^ 40) (hv : pmlt4Index v = pmlt4Index kernelHigherHalf)
    (hp : Present (t.mem t.root (pmlt4Index kernelHigherHalf))) : walk (t.space (a * pageSize)) v = walk t v := by
  have htable : (t.space (a * pageSize)).table (tablePath v) = t.table (tablePath v) := by
    rw [tablePath, table_space ha, hv, hb.root, if_pos rfl]
    show _ = (target (t.mem t.root (pmlt4Index kernelHigherHalf))).bind fun f => descend (child t.mem) f _
    have hpres : ∀ e, Present (e ||| 3) := by
      intro e
      rw [present_iff, Nat.or_mod_two_eq_one]
      exact .inr rfl
    rw [target, if_pos (hpres _), frameOf_or (by decide), frameOf_tableAddress, target, if_pos hp]
  exact entry_congr htable fun _ _ => rfl

theorem present_rootEntry (hv : Present (walk t v)) : Present (t.mem t.root (pmlt4Index v)) := by
  by_contra hnone
  have htable : t.table (tablePath v) = none := by
    show (target (t.mem t.root (pmlt4Index v))).bind _ = none
    rw [target, if_neg hnone]
    rfl
  rw [walk, entry_of_none htable] at hv
  exact hv rfl

/-! ## What is shared -/

/-- The default address space with `e` in the window, and the tables of the new one there. -/
structure Made (s u : State) (a b c d e : Nat) : Prop where
  shape : TreeShaped u
  built : Built u a b c d (tableAddress (u.mem u.root (pmlt4Index kernelHigherHalf)) ||| 3)
  lt : ∀ f ∈ [a, b, c, d], f < 2 ^ 40
  window : u.mem framePt 0 = e
  kept : ∀ g, s.Marked g → ¬ InWindow (g * pageSize) → walk u (g * pageSize) = walk s (g * pageSize)

theorem pageCreate_made (hs : TreeShaped s) (href : (pageCreate s).1.refused = s.refused) (e : Nat) :
    ∃ a b c d, (pageCreate s).2 = a * pageSize ∧ Made s ((pageCreate s).1.store framePt 0 e) a b c d e := by
  obtain ⟨u, a, b, c, d, hu, h4, hkept, hcall⟩ := pageCreate_four hs href
  obtain ⟨t, ht, hsame, hroot, hbuilt⟩ := linkTables_built h4
  have hts : TreeShaped t := hu.congr hsame.pmlt4 hsame.table fun _ hf _ => hsame.marked hf
  have hfour : ∀ f ∈ [a, b, c, d], Fresh u f := by
    simp only [List.mem_cons, List.not_mem_nil, or_false, forall_eq_or_imp, forall_eq]
    exact ⟨h4.root, h4.pdpt, h4.pdt, h4.pt⟩
  have hno : ∀ f ∈ [a, b, c, d], t.NoTable f := fun f hf => hsame.noTable (hfour f hf).noTable
  have hrt : t.root = u.root := congrArg frameOf hsame.pmlt4
  have hrw : u.root ≠ framePt := by
    intro h
    exact hu.deep rfl hu.window (by decide : ([] : List Index).length < 3) (congrArg some h)
  rw [hcall, ht]
  refine ⟨a, b, c, d, rfl, ⟨hts.keeps (hts.setWindow e), ?_, fun f hf => (hfour f hf).lt, ?_, fun g hg hw => ?_⟩⟩
  · have hentry : (t.store framePt 0 e).mem (t.store framePt 0 e).root (pmlt4Index kernelHigherHalf) =
        u.mem u.root (pmlt4Index kernelHigherHalf) := by
      rw [root_store, hrt, mem_store_of_ne hrw, hroot]
    rw [hentry]
    exact hbuilt.setWindow hts hno e
  · rw [mem_store, if_pos ⟨rfl, rfl⟩]
  · have hstore : walk (t.store framePt 0 e) (g * pageSize) = walk t (g * pageSize) :=
      hts.entry_keeps (hts.setWindow e) rfl (not_onWindow hw)
    rw [hstore, hsame.walk, hkept g hg]

theorem walk_page {w : Nat} (h : v / pageSize = w / pageSize) : walk s v = walk s w := by
  refine walk_congr ?_
  unfold vpn
  rw [h]

/-- The new address space has the paging code's low pages nowhere, and so it shares them only where they are not mapped
in the default one either: the kernel's own pages are all it shares. -/
theorem shares_iff (hs : TreeShaped s) (href : (pageCreate s).1.refused = s.refused) (e : Nat) :
    Shares s e ↔ ¬ Present (walk s pageBitmapAddress) ∧ ¬ Present (walk s framePtAddress) ∧ ¬ Present e := by
  obtain ⟨a, b, c, d, haddr, hm⟩ := pageCreate_made hs href e
  unfold Shares
  rw [haddr]
  set u := (pageCreate s).1.store framePt 0 e with hu
  have hbitmap : walk u pageBitmapAddress = walk s pageBitmapAddress := hm.kept bitmapFrame hs.bitmap.1 (by decide)
  have hframePt : walk u framePtAddress = walk s framePtAddress :=
    hm.kept framePt (hs.marked _ _ (by decide) hs.window) (by decide)
  have hwindow : walk u windowAddress = e := (entry_of_table hm.shape.window 0).trans hm.window
  have hbitmap' := hm.built.walk_low hm.lt (v := pageBitmapAddress) (by decide) (by decide)
  have hframePt' := hm.built.walk_low hm.lt (v := framePtAddress) (by decide) (by decide)
  have hwindow' := hm.built.walk_window hm.lt (v := windowAddress) (by decide)
  constructor
  · -- each of the three pages is translated to nothing by the new tables
    intro h
    have hlost : ∀ v, Dereferenced v → Canonical v → walk (u.space (a * pageSize)) v = 0 → ¬ Present (walk u v) := by
      intro v hv hcan h0 hp
      have hnew := h v (frameOf (walk u v)) hv (by rw [translate, if_pos hcan, target, if_pos hp])
      rw [translate, if_pos hcan, h0] at hnew
      cases hnew
    refine ⟨?_, ?_, ?_⟩
    · rw [← hbitmap]
      exact hlost _ (.inl rfl) (by decide) hbitmap'
    · rw [← hframePt]
      exact hlost _ (.inr (.inl rfl)) (by decide) hframePt'
    · have := hlost windowAddress (.inr (.inr (.inl rfl))) (by decide) hwindow'
      rwa [hwindow] at this
  · rintro ⟨h6, h5, he⟩ v f hv hf
    have hcan : Canonical v := by
      by_contra hcan
      rw [translate, if_neg hcan] at hf
      cases hf
    have hp : Present (walk u v) := by
      by_contra hp
      rw [translate, if_pos hcan, target, if_neg hp] at hf
      cases hf
    obtain hv | hv | hv | hv := hv
    · rw [walk_page hv, hbitmap] at hp
      exact absurd hp h6
    · rw [walk_page hv, hframePt] at hp
      exact absurd hp h5
    · rw [walk_page hv, hwindow] at hp
      exact absurd hp he
    · have hidx : pmlt4Index v = pmlt4Index kernelHigherHalf := by
        rw [Fin.ext_iff, pmlt4Index, pmlt4Index, index_val, index_val]
        unfold Canonical at hcan
        unfold kernelHigherHalf at *
        omega
      have hroot := present_rootEntry hp
      rw [hidx] at hroot
      rw [translate, if_pos hcan, hm.built.walk_higher (hm.lt a (by simp)) hidx hroot]
      rwa [translate, if_pos hcan] at hf

theorem shares_iff_smallBoot : Shares smallBoot 0 ↔
    ¬ Present (walk smallBoot pageBitmapAddress) ∧ ¬ Present (walk smallBoot framePtAddress) ∧ ¬ Present 0 :=
  shares_iff (used_bootState _ (by decide) (by decide) (by decide +kernel)).shape (by decide +kernel) 0

/-- From the tables of the loader, with the window closed: the bitmap is mapped in the default address space only. -/
theorem not_shares_smallBoot : TreeShaped smallBoot ∧ (pageCreate smallBoot).1.refused = smallBoot.refused ∧
    (pageCreate smallBoot).1.mem framePt 0 = 0 ∧ ¬ Shares smallBoot 0 := by
  refine ⟨(used_bootState _ (by decide) (by decide) (by decide +kernel)).shape, by decide +kernel, by decide +kernel, ?_⟩
  intro h
  have hnew := h pageBitmapAddress bitmapFrame (.inl rfl) (by decide +kernel)
  revert hnew
  decide +kernel

end HaOS.Paging
