import Mathlib.Data.Finset.Max
import HaOS.Lib.Run
import HaOS.Paging.Rounds

/-!
# What the loader hands over

Any calls of `Kernel_MapPagePhysical` and `Kernel_MapPage` after `Kernel_createNewPage`.

* `rest` : what is left when the lowest free frame is taken; `kernelTables_free` : the tables take the lowest ones;
* `LoaderPage`, `loaderPage` : the rounds of the two functions; `Covered` : the frames they take are there, and the
  physical pages lie where the bitmap has a bit for them;
* `Handoff` : the frames in use are marked, and nothing is written behind the bitmap;
* `handoff_of_fits` : so it is in every run of calls that are covered.
-/

namespace HaOS.Paging
open Lib (Reaches Guarded)

variable {s t u : State} {p : List Index} {i : Index} {F : Finset Nat} {f n k m flags virt physc : Nat}

/-! ## The lowest frames -/

/-- All but the lowest. -/
def rest (F : Finset Nat) : Finset Nat := F.filter fun f => ∃ g ∈ F, g < f

theorem rest_eq_erase (hf : f ∈ F) (hleast : ∀ g ∈ F, f ≤ g) : rest F = F.erase f := by
  ext g
  rw [rest, Finset.mem_filter, Finset.mem_erase, and_comm]
  refine and_congr_left fun hg => ?_
  constructor
  · rintro ⟨a, ha, hlt⟩ rfl
    exact absurd (hleast a ha) (by omega)
  · intro hne
    exact ⟨f, hf, lt_of_le_of_ne (hleast g hg) (Ne.symm hne)⟩

theorem card_rest (F : Finset Nat) : (rest F).card = F.card - 1 := by
  obtain rfl | hne := F.eq_empty_or_nonempty
  · rfl
  · rw [rest_eq_erase (F.min'_mem hne) fun g hg => F.min'_le g hg]
    exact Finset.card_erase_of_mem (F.min'_mem hne)

theorem card_iterate_rest (F : Finset Nat) (k : Nat) : (rest^[k] F).card = F.card - k := by
  induction k with
  | zero => rfl
  | succ k ih =>
      rw [Function.iterate_succ_apply', card_rest, ih]
      omega

/-- How many have been taken is seen from how many are left. -/
theorem iterate_rest_eq (h : (rest^[k] F).card + m = F.card) : rest^[k] F = rest^[m] F := by
  rw [card_iterate_rest] at h
  obtain hk | hk := Nat.lt_or_ge F.card k
  · have hempty : ∀ n, F.card ≤ n → rest^[n] F = ∅ := by
      intro n hn
      rw [← Finset.card_eq_zero, card_iterate_rest]
      omega
    rw [hempty k hk.le, hempty m (by omega)]
  · obtain rfl : k = m := by omega
    rfl

/-! ## The tables -/

theorem kernelAlloc4KPage_free (s : State) : (kernelAlloc4KPage s).1.free = rest s.free := by
  obtain ⟨f, hf, hleast, -, -, -, hbit, -⟩ | ⟨hfull, hnone⟩ := kernelAlloc4KPage_cases s
  · rw [rest_eq_erase hf fun g hg => not_lt.mp fun hlt => (mem_free.mp hg).2 (hleast g hlt)]
    ext g
    rw [Finset.mem_erase, mem_free, mem_free, hbit, not_or]
    exact and_left_comm
  · rw [hnone, hfull]
    exact hfull

theorem kernelAlloc4KPage_behind (s : State) (hk : pageBitmapSize ≤ k) :
    (kernelAlloc4KPage s).1.bitmap k = s.bitmap k := by
  obtain ⟨f, -, -, -, -, -, -, hbehind, -⟩ | ⟨-, hnone⟩ := kernelAlloc4KPage_cases s
  · exact hbehind k hk
  · rw [hnone]

theorem checkAndCreateFrame_free (s : State) (n : Nat) (i : Index) (flags : Nat) :
    ∃ k, (checkAndCreateFrame s n i flags).1.free = rest^[k] s.free := by
  unfold checkAndCreateFrame
  split_ifs
  · exact ⟨0, rfl⟩
  · exact ⟨1, kernelAlloc4KPage_free s⟩

theorem checkAndCreateFrame_behind (s : State) (n : Nat) (i : Index) (flags : Nat) (hk : pageBitmapSize ≤ k) :
    (checkAndCreateFrame s n i flags).1.bitmap k = s.bitmap k := by
  unfold checkAndCreateFrame
  split_ifs
  · rfl
  · exact kernelAlloc4KPage_behind s hk

theorem kernelTables_supplied (hs : TreeShaped s) (hflags : flags < pageSize) (virt : Nat) :
    Supplied flags s (kernelTables s virt flags).1 (prefixes virt) := by
  have hlen1 : [pmlt4Index virt].length < 3 := Nat.lt_of_succ_lt (Nat.lt_succ_self 2)
  have hlen2 : ([pmlt4Index virt] ++ [pdptIndex virt]).length < 3 := Nat.lt_succ_self 2
  obtain ⟨h1, hl1⟩ := (Supplied.nil s).visit hflags (by decide) List.not_mem_nil (fun _ => Lies.root hs)
    refused_le_checkAndCreateFrame fun _ =>
      checkAndCreateFrame_visit (p := []) (i := pmlt4Index virt) hs hflags (by decide) (.inl rfl)
  obtain ⟨h2, hl2⟩ := h1.visit hflags hlen1 (by simp) hl1 refused_le_checkAndCreateFrame fun href =>
    checkAndCreateFrame_visit (i := pdptIndex virt) (hl1 href).shape hflags hlen1 (hl1 href).place
  obtain ⟨h3, -⟩ := h2.visit hflags hlen2 (by simp) hl2 refused_le_checkAndCreateFrame fun href =>
    checkAndCreateFrame_visit (i := pdtIndex virt) (hl2 href).shape hflags hlen2 (hl2 href).place
  exact h3

theorem kernelTables_free (hs : TreeShaped s) (hflags : flags < pageSize)
    (href : (kernelTables s virt flags).1.refused = s.refused) :
    (kernelTables s virt flags).1.free = rest^[missing s.has (prefixes virt)] s.free := by
  obtain ⟨k1, h1⟩ := checkAndCreateFrame_free s s.root (pmlt4Index virt) flags
  set s1 := (checkAndCreateFrame s s.root (pmlt4Index virt) flags).1
  set n1 := (checkAndCreateFrame s s.root (pmlt4Index virt) flags).2
  obtain ⟨k2, h2⟩ := checkAndCreateFrame_free s1 n1 (pdptIndex virt) flags
  set s2 := (checkAndCreateFrame s1 n1 (pdptIndex virt) flags).1
  set n2 := (checkAndCreateFrame s1 n1 (pdptIndex virt) flags).2
  obtain ⟨k3, h3⟩ := checkAndCreateFrame_free s2 n2 (pdtIndex virt) flags
  have hall : (kernelTables s virt flags).1.free = rest^[k3 + (k2 + k1)] s.free := by
    rw [Function.iterate_add_apply, Function.iterate_add_apply, ← h1, ← h2]
    exact h3
  have hleft := (kernelTables_supplied hs hflags virt).left href
  rw [hall] at hleft ⊢
  exact iterate_rest_eq hleft

theorem kernelTables_behind (s : State) (virt flags : Nat) (hk : pageBitmapSize ≤ k) :
    (kernelTables s virt flags).1.bitmap k = s.bitmap k := by
  unfold kernelTables
  simp only
  rw [checkAndCreateFrame_behind _ _ _ _ hk, checkAndCreateFrame_behind _ _ _ _ hk, checkAndCreateFrame_behind _ _ _ _ hk]

/-! ## A page -/

/-- A page of the loader's, with the physical page if the caller gives one. -/
structure LoaderPage where
  virt : Nat
  phys : Option Nat
  deriving DecidableEq

def loaderPage (flags : Nat) (s : State) (x : LoaderPage) : State :=
  match x.phys with
  | some physc => physicalPage flags s x.virt physc
  | none => freshPage flags s x.virt

def takes (has : List Index → Bool) (x : LoaderPage) : Nat :=
  missing has (prefixes x.virt) + if x.phys.isSome then 0 else 1

def leaves (has : List Index → Bool) (F : Finset Nat) (x : LoaderPage) : Finset Nat :=
  match x.phys with
  | some physc => (rest^[takes has x] F).erase (physc / pageSize)
  | none => rest^[takes has x] F

/-- After a page: the frames in use stay marked, and nothing is written behind the bitmap. -/
structure Handled (flags : Nat) (s t : State) (x : LoaderPage) : Prop where
  used : Used t
  has : ∀ r, r.length ≤ 3 → t.has r = (s.has r || decide (Present flags) && decide (r ∈ prefixes x.virt))
  free : t.free = leaves s.has s.free x
  behind : ∀ k, pageBitmapSize ≤ k → t.bitmap k = s.bitmap k

theorem has_store (hlinked : Linked flags s t p n) (hp : p.length = 3) {e : Nat} (hk : Keeps (t.store n i e) u)
    {r : List Index} (hr : r.length ≤ 3) : u.has r = t.has r := by
  rw [State.has, State.has, hk.table r hr, hlinked.place.table_store hlinked.shape hp i e hr]

theorem physicalPage_handled (hs : Used s) (hflags : flags < pageSize) (hphys : physc < frames * pageSize)
    (h : missing s.has (prefixes virt) ≤ s.free.card) :
    Handled flags s (physicalPage flags s virt physc) ⟨virt, some physc⟩ := by
  have hsup := kernelTables_supplied hs.shape hflags virt
  have href := hsup.enough.mpr h
  have hlinked := (kernelTables_linked hs.shape hflags href).1
  have hk := keeps_setBit ((kernelTables s virt flags).1.store (kernelTables s virt flags).2 (ptIndex virt)
    (physc ||| flags)) ((physc >>> 12) / 8) (Nat.mod_lt (physc >>> 12) (by decide : 8 > 0))
  refine ⟨used_physicalPage hs hflags hphys href, fun r hr => ?_, ?_, fun k hbehind => ?_⟩
  · exact (has_store hlinked (length_tablePath virt) hk hr).trans (hsup.has href r hr)
  · ext g
    rw [leaves, takes, Option.isSome_some, if_pos rfl, Nat.add_zero, ← kernelTables_free hs.shape hflags href,
      Finset.mem_erase, mem_free, mem_free, physicalPage, bit_markPage, not_or]
    exact and_left_comm
  · refine (Function.update_of_ne ?_ _ _).trans (kernelTables_behind s virt flags hbehind)
    have hsize : frames * pageSize = 2 ^ 27 := by decide
    rw [Nat.shiftRight_eq_div_pow]
    unfold pageBitmapSize at hbehind
    omega

theorem freshPage_handled (hs : Used s) (hflags : flags < pageSize)
    (h : missing s.has (prefixes virt) + 1 ≤ s.free.card) :
    Handled flags s (freshPage flags s virt) ⟨virt, none⟩ := by
  have hsup := kernelTables_supplied hs.shape hflags virt
  have href := hsup.enough.mpr (Nat.le_of_add_right_le h)
  have hleft := hsup.left href
  obtain ⟨hlinked, hwin⟩ := kernelTables_linked hs.shape hflags href
  have hbehind : ∀ k, pageBitmapSize ≤ k → (freshPage flags s virt).bitmap k = s.bitmap k := fun k hk =>
    (kernelAlloc4KPage_behind _ hk).trans (kernelTables_behind s virt flags hk)
  have hfree : (freshPage flags s virt).free = rest^[missing s.has (prefixes virt) + 1] s.free := by
    rw [Function.iterate_succ_apply', ← kernelTables_free hs.shape hflags href]
    exact kernelAlloc4KPage_free _
  have hgrant : (kernelAlloc4KPage (kernelTables s virt flags).1).1.refused = (kernelTables s virt flags).1.refused := by
    obtain ⟨f, -, -, -, -, hsame, -⟩ | ⟨hfull, -⟩ := kernelAlloc4KPage_cases (kernelTables s virt flags).1
    · exact hsame
    · rw [hfull, Finset.card_empty] at hleft
      omega
  obtain ⟨f, hf, -, hk, hframe, hfreef, -, hwin'⟩ := kernelAlloc4KPage_spec hlinked.shape hgrant
  have hlinked' : Linked flags s (kernelAlloc4KPage (kernelTables s virt flags).1).1 (tablePath virt)
      (kernelTables s virt flags).2 :=
    ⟨hlinked.shape.keeps hk, hlinked.ext.trans (hlinked.shape.extends hk),
      hlinked.place.keeps hlinked.shape hk (length_tablePath virt).le⟩
  have hmarked : (kernelAlloc4KPage (kernelTables s virt flags).1).1.Marked f := marked_of_free hf hfreef
  refine ⟨?_, fun r hr => ?_, hfree, hbehind⟩
  · refine hs.store (e := f * pageSize ||| flags) hlinked' (hwin'.trans hwin) (length_tablePath virt) (ptIndex virt)
      (u := freshPage flags s virt) ?_ ?_ fun g hg => ?_
    · rw [← hframe]
      exact .refl _
    · rw [← hframe]
      rfl
    · rw [target_or_eq hflags hg, frameOf_mul (Nat.lt_trans hmarked.1 (by decide))]
      exact hmarked
  · refine (has_store (e := (kernelAlloc4KPage (kernelTables s virt flags).1).2 ||| flags) hlinked' (length_tablePath virt)
      (.refl _) hr).trans ?_
    rw [State.has, hk.table r hr]
    exact hsup.has href r hr

theorem loaderPage_handled (hs : Used s) (hflags : flags < pageSize) {x : LoaderPage}
    (hphys : ∀ physc, x.phys = some physc → physc < frames * pageSize) (h : takes s.has x ≤ s.free.card) :
    Handled flags s (loaderPage flags s x) x := by
  obtain ⟨virt, _ | physc⟩ := x
  · exact freshPage_handled hs hflags h
  · exact physicalPage_handled hs hflags (hphys physc rfl) h

/-! ## Runs -/

/-- The physical pages lie where the bitmap has a bit, and there are frames for what the pages take: `has` are the tables
that exist, and `F` are the free frames. -/
def Covered (flags : Nat) : (List Index → Bool) → Finset Nat → List LoaderPage → Prop
  | _, _, [] => True
  | has, F, x :: xs =>
    (∀ physc, x.phys = some physc → physc < frames * pageSize) ∧ takes has x ≤ F.card ∧
      Covered flags (fun r => has r || decide (Present flags) && decide (r ∈ prefixes x.virt)) (leaves has F x) xs

theorem takes_congr {has has' : List Index → Bool} (h : ∀ r, r.length ≤ 3 → has r = has' r) (x : LoaderPage) :
    takes has x = takes has' x := by
  unfold takes
  rw [missing_congr fun r hr => h r (length_prefixes r hr)]

theorem leaves_congr {has has' : List Index → Bool} (h : ∀ r, r.length ≤ 3 → has r = has' r) (x : LoaderPage) :
    leaves has F x = leaves has' F x := by
  unfold leaves
  rw [takes_congr h]

theorem covered_congr {has has' : List Index → Bool} {xs : List LoaderPage} (h : ∀ r, r.length ≤ 3 → has r = has' r) :
    Covered flags has F xs ↔ Covered flags has' F xs := by
  induction xs generalizing has has' F with
  | nil => exact Iff.rfl
  | cons x xs ih =>
      unfold Covered
      rw [takes_congr h, leaves_congr h, ih]
      intro r hr
      rw [h r hr]

theorem covered_foldl (hs : Used s) (hflags : flags < pageSize) {xs : List LoaderPage}
    (h : Covered flags s.has s.free xs) :
    Used (xs.foldl (loaderPage flags) s) ∧
      ∀ k, pageBitmapSize ≤ k → (xs.foldl (loaderPage flags) s).bitmap k = s.bitmap k := by
  induction xs generalizing s with
  | nil => exact ⟨hs, fun _ _ => rfl⟩
  | cons x xs ih =>
      obtain ⟨hphys, henough, hrest⟩ := h
      have hx := loaderPage_handled hs hflags hphys henough
      rw [← hx.free, ← covered_congr hx.has] at hrest
      obtain ⟨hused, hbehind⟩ := ih hx.used hrest
      exact ⟨hused, fun k hk => (hbehind k hk).trans (hx.behind k hk)⟩

inductive LoaderCall where
  | mapPagePhysical (virtAddress physicalAddress size flags : Nat)
  | mapPage (virtAddress size flags : Nat)

def LoaderCall.run (s : State) : LoaderCall → State
  | .mapPagePhysical virtAddress physicalAddress size flags =>
    kernelMapPagePhysical s virtAddress physicalAddress size flags
  | .mapPage virtAddress size flags => kernelMapPage s virtAddress size flags

def LoaderCall.callFlags : LoaderCall → Nat
  | .mapPagePhysical _ _ _ flags | .mapPage _ _ flags => flags

def LoaderCall.pages : LoaderCall → List LoaderPage
  | .mapPagePhysical virtAddress physicalAddress size _ => (List.range (Paging.pages size)).map fun i =>
    ⟨qword (virtAddress + i * pageSize), some (qword (physicalAddress + i * pageSize))⟩
  | .mapPage virtAddress size _ => (List.range (Paging.pages size)).map fun i =>
    ⟨qword (virtAddress + i * pageSize), none⟩

theorem LoaderCall.run_eq (s : State) (c : LoaderCall) : c.run s = c.pages.foldl (loaderPage c.callFlags) s := by
  cases c with
  | mapPagePhysical =>
      rw [run, kernelMapPagePhysical, forPages_eq_foldl, pages, List.foldl_map]
      rfl
  | mapPage =>
      rw [run, kernelMapPage, forPages_eq_foldl, pages, List.foldl_map]
      rfl

def LoaderStep (s : State) (c : LoaderCall) (t : State) : Prop := t = c.run s

/-- The flags lie below the address in an entry, and the pages are covered. -/
def LoaderCall.Fits (s : State) (c : LoaderCall) : Prop := c.callFlags < pageSize ∧ Covered c.callFlags s.has s.free c.pages

/-- What the kernel relies on: the tables and the pages that are mapped are marked, and the bytes behind the bitmap's page,
which are counted from zero here, have not been written. -/
structure Handoff (s : State) : Prop where
  table : ∀ p f, p.length ≤ 3 → s.table p = some f → s.Marked f
  page : ∀ p i f, p.length = 3 → target (s.entry p i) = some f → s.Marked f
  behind : ∀ k, pageBitmapSize ≤ k → s.bitmap k = 0

theorem identityPages_behind (s : State) (hn : n ≤ 8) (hk : 0 < k) :
    (forPages identityPage n s).bitmap k = s.bitmap k := by
  induction n with
  | zero => rfl
  | succ n ih =>
      refine (Function.update_of_ne ?_ _ _).trans (ih (Nat.le_of_lt hn))
      omega

theorem behind_kernelCreateNewPage (mem : Nat → Index → Nat) (hk : pageBitmapSize ≤ k) :
    (kernelCreateNewPage mem).bitmap k = 0 := by
  have hpos : 0 < k := lt_of_lt_of_le (by decide) hk
  show (forPages identityPage 7 _).bitmap k = 0
  rw [identityPages_behind _ (by decide) hpos]
  rfl

/-- In every run of calls whose pages are covered, from the first tables. -/
theorem handoff_of_fits (mem : Nat → Index → Nat)
    (hs : Reaches (Guarded (fun s c => LoaderCall.Fits s c) LoaderStep) (kernelCreateNewPage mem) s) : Handoff s := by
  have hall : Used s ∧ ∀ k, pageBitmapSize ≤ k → s.bitmap k = 0 := by
    have h0 : Used (kernelCreateNewPage mem) ∧ ∀ k, pageBitmapSize ≤ k → (kernelCreateNewPage mem).bitmap k = 0 :=
      ⟨used_kernelCreateNewPage mem, fun k => behind_kernelCreateNewPage mem⟩
    refine hs.invariant (P := fun u => Used u ∧ ∀ k, pageBitmapSize ≤ k → u.bitmap k = 0) (fun u c v hu hstep => ?_) h0
    obtain ⟨⟨hflags, hcovered⟩, rfl⟩ := hstep
    rw [c.run_eq u]
    obtain ⟨hused, hbehind⟩ := covered_foldl hu.1 hflags hcovered
    exact ⟨hused, fun k hk => (hbehind k hk).trans (hu.2 k hk)⟩
  exact ⟨hall.1.shape.marked, hall.1.leaf, hall.2⟩

/-- The first page of the kernel, for which three tables are missing. -/
theorem handoff_of_fits_gkrnl :
    Handoff (kernelMapPagePhysical (kernelCreateNewPage fun _ _ => 0) 0xFFFFFFFF80100000 0x100000 0x1000 3) := by
  refine handoff_of_fits (fun _ _ => 0)
    ((Lib.Reaches.refl _).snoc (l := .mapPagePhysical 0xFFFFFFFF80100000 0x100000 0x1000 3) ⟨⟨by decide, ?_⟩, rfl⟩)
  have hpages : LoaderCall.pages (.mapPagePhysical 0xFFFFFFFF80100000 0x100000 0x1000 3) =
      [⟨0xFFFFFFFF80100000, some 0x100000⟩] := by decide
  have htakes : takes (kernelCreateNewPage fun _ _ => 0).has ⟨0xFFFFFFFF80100000, some 0x100000⟩ = 3 := by decide +kernel
  have hfree : ∀ f ∈ [20, 21, 22], f < frames ∧ ¬ Bit (kernelCreateNewPage fun _ _ => 0).bitmap f := by decide +kernel
  have hcard : [20, 21, 22].toFinset.card ≤ (kernelCreateNewPage fun _ _ => 0).free.card :=
    Finset.card_le_card fun f hf => mem_free.mpr (hfree f (List.mem_toFinset.mp hf))
  rw [hpages]
  refine ⟨fun physc hphysc => ?_, htakes.le.trans hcard, trivial⟩
  cases hphysc
  decide

/-- The firmware puts the font at 128 MB: its bit lies behind the bitmap. -/
theorem not_handoff_font : ¬ ∀ s, Reaches LoaderStep (kernelCreateNewPage fun _ _ => 0) s → Handoff s := by
  intro h
  have hh := h _ ((Lib.Reaches.refl _).snoc (rfl : LoaderStep (kernelCreateNewPage fun _ _ => 0)
    (.mapPagePhysical 0x8000000 0x8000000 0x2000 3) _))
  have hbit : (kernelMapPagePhysical (kernelCreateNewPage fun _ _ => 0) 0x8000000 0x8000000 0x2000 3).bitmap 0x1000 ≠ 0 := by
    decide +kernel
  exact hbit (hh.behind _ (le_refl _))

end HaOS.Paging
