import HaOS.Lib.Run
import HaOS.Paging.Unmap

/-!
# Runs of the paging calls

* `Call`, `Call.run` : the calls; `Call.Allowed` : what a caller provides; `Call.Fits` : flags that leave the address
  alone, and a range whose entries name frames of its own;
* `Cleared`, `Releasable` : the bits that `page_umapv` clears, and when it may;
* `Used.run` : a call that fits keeps the frames in use marked;
* `safe_of_fits` : so that no frame in use is granted, in any run.
-/

namespace HaOS.Paging
open Lib (Reaches Guarded)

variable {s t u : State} {p : List Index} {i j : Index} {n m f flags virt phys length : Nat}

/-! ## Unmapping -/

def Revisited (virt k : Nat) : Prop := ∃ j < k, vpn (pageAt virt j) = vpn (pageAt virt k)

/-- The first `m` rounds of `page_umapv` clear the bit `f`: it belongs to an entry of the range, or it is the bit that an
entry without a frame names. -/
def Cleared (s : State) (virt m f : Nat) : Prop :=
  ∃ k < m, s.table (tablePath (pageAt virt k)) ≠ none ∧
    (f = bitOf (walk s (pageAt virt k)) ∨ f = bitOf 0 ∧ Revisited virt k)

theorem range_page_iff {k : Nat} :
    Range virt 0 k (tablePath (pageAt virt k)) (ptIndex (pageAt virt k)) ↔ Revisited virt k := by
  constructor
  · rintro ⟨j, -, hj, hp, hi⟩
    exact ⟨j, hj, ((vpn_eq_iff _ _).mpr ⟨hp, hi⟩).symm⟩
  · rintro ⟨j, hj, h⟩
    obtain ⟨hp, hi⟩ := (vpn_eq_iff _ _).mp h
    exact ⟨j, j.zero_le, hj, hp.symm, hi.symm⟩

theorem pages_range : Pages ((List.range m).map (pageAt virt)) p i ↔ Range virt 0 m p i := by
  unfold Pages Range
  simp only [List.mem_map, List.mem_range]
  constructor
  · rintro ⟨v, ⟨k, hk, rfl⟩, h⟩
    exact ⟨k, k.zero_le, hk, h⟩
  · rintro ⟨k, -, hk, h⟩
    exact ⟨pageAt virt k, ⟨k, hk, rfl⟩, h⟩

theorem freed_range : Freed s ((List.range m).map (pageAt virt)) f ↔ Cleared s virt m f := by
  induction m with
  | zero =>
      constructor
      · rintro ⟨as, v, hpre, -⟩
        simpa using hpre.length_le
      · rintro ⟨k, hk, -⟩
        exact absurd hk (Nat.not_lt_zero k)
  | succ m ih =>
      rw [List.range_succ, List.map_append, List.map_singleton, freed_snoc, ih, FreedAt, pages_range, range_page_iff]
      constructor
      · rintro (⟨k, hk, h⟩ | h)
        · exact ⟨k, Nat.lt_succ_of_lt hk, h⟩
        · exact ⟨m, Nat.lt_succ_self m, h⟩
      · rintro ⟨k, hk, h⟩
        obtain hlt | rfl := Nat.lt_succ_iff_lt_or_eq.mp hk
        · exact .inl ⟨k, hlt, h⟩
        · exact .inr h

/-- Nothing outside the range uses the frames whose bits `page_umapv` clears, nor do the tables or the bitmap lie there. An
entry of the range that is zero names the frame 0. -/
def Releasable (s : State) (virt length : Nat) : Prop :=
  ∀ f, Cleared s virt (rounds length) f → s.NoTable f ∧ f ≠ bitmapFrame ∧
    ∀ p i, p.length = 3 → target (s.entry p i) = some f → Range virt 0 (rounds length) p i

theorem used_pageUmapv (h : Used s) (hw : ∀ i < rounds length, ¬ InWindow (pageAt virt i))
    (hrel : Releasable s virt length) : Used (pageUmapv s virt length) := by
  have hfree : ∀ f, Freed s (pageList virt length) f → s.NoTable f ∧ f ≠ bitmapFrame := by
    intro f hf
    obtain ⟨hno, hne, -⟩ := hrel f (freed_range.mp hf)
    exact ⟨hno, hne⟩
  have hoff : ∀ v ∈ pageList virt length, ¬ OnWindow v := by
    intro v hv
    obtain ⟨k, hk, rfl⟩ := List.mem_map.mp hv
    exact not_onWindow (hw k (List.mem_range.mp hk))
  have hend : Unmapped s (pageUmapv s virt length) (pageList virt length) := by
    rw [pageUmapv_eq]
    exact unmapped_foldl h.shape hoff hfree
  have hshape := hend.shape h.shape hfree
  have hmarked : ∀ f, s.Marked f → ¬ Cleared s virt (rounds length) f → (pageUmapv s virt length).Marked f :=
    fun f hf hc => ⟨hf.1, (hend.bit f).mpr ⟨hf.2, fun h => hc (freed_range.mp h)⟩⟩
  refine ⟨hshape, fun p i f hp hf => ?_⟩
  by_cases hwp : p = windowPath ∧ i = 0
  · rw [hwp.1, hwp.2, entry_of_table hshape.window] at hf
    obtain hf | hf := hend.window f hf
    · refine hmarked f (h.leaf windowPath 0 f (by decide) ?_) fun hc => ?_
      · rwa [entry_of_table h.shape.window]
      · -- the window lies in no range
        have hold : target (s.entry windowPath 0) = some f := by
          rwa [entry_of_table h.shape.window]
        obtain ⟨k, -, hk, hp', -⟩ := (hrel f hc).2.2 windowPath 0 (by decide) hold
        exact hw k hk hp'.symm
    · obtain ⟨q, hq, hqf⟩ : ∃ q, q.length ≤ 3 ∧ s.table q = some f := by
        simpa [State.NoTable] using hf
      exact hmarked f (h.shape.marked q f hq hqf) fun hc => (hrel f hc).1 q hq hqf
  · by_cases hr : Range virt 0 (rounds length) p i
    · have h0 : (pageUmapv s virt length).entry p i = 0 := hend.gone p i hp hwp (pages_range.mpr hr)
      rw [h0] at hf
      cases hf
    · have hkept : (pageUmapv s virt length).entry p i = s.entry p i :=
        hend.kept p i hp hwp fun h => hr (pages_range.mp h)
      rw [hkept] at hf
      exact hmarked f (h.leaf p i f hp hf) fun hc => hr ((hrel f hc).2.2 p i hp hf)

/-! ## Mapping -/

theorem used_pageMapv (h : Used s) (hflags : flags < pageSize) (hw : ∀ i < rounds length, ¬ InWindow (pageAt virt i))
    (href : (pageMapv s virt length flags).refused = s.refused) : Used (pageMapv s virt length flags) := by
  refine forPages_invariant (fun i u => ?_) (fun i hi u hu hr => ?_) h href
  · exact refused_le_mapvPage
  · obtain ⟨f, hf⟩ := mapvPage_spec hu.shape hflags (not_onWindow (hw i hi)) hr
    refine hu.written (length_tablePath _) hf.written fun g hg => ?_
    rw [target_or_eq hflags hg, frameOf_mul (Nat.lt_trans hf.marked.1 (by decide))]
    exact hf.marked

theorem used_pageMapvp (h : Used s) (hflags : flags < pageSize) (hw : ∀ i < rounds length, ¬ InWindow (pageAt virt i))
    (hphys : ∀ i < rounds length, s.Marked (frameOf (pageAt phys i)))
    (href : (pageMapvp s virt phys length flags).refused = s.refused) : Used (pageMapvp s virt phys length flags) := by
  have hboth : Used (pageMapvp s virt phys length flags) ∧ ∀ f, Bit s.bitmap f →
      Bit (pageMapvp s virt phys length flags).bitmap f := by
    refine forPages_invariant (P := fun u => Used u ∧ ∀ f, Bit s.bitmap f → Bit u.bitmap f)
      (fun _ _ => refused_le_mapvpPage) (fun i hi u hu hr => ?_) ⟨h, fun _ hf => hf⟩ href
    have hwritten := (mapvpPage_spec hu.1.shape hflags (not_onWindow (hw i hi)) hr).written
    have hbit : ∀ f, Bit s.bitmap f → Bit (mapvpPage flags u (pageAt virt i) (pageAt phys i)).bitmap f :=
      fun f hf => hwritten.ext.bit f (hu.2 f hf)
    refine ⟨hu.1.written (length_tablePath _) hwritten fun g hg => ?_, hbit⟩
    rw [target_or_eq hflags hg]
    exact (hphys i hi).mono hbit
  exact hboth.1

theorem used_pageAlloc4K (h : Used s) (hflags : flags < pageSize)
    (href : (pageAlloc4K s flags).1.refused = s.refused) : Used (pageAlloc4K s flags).1 := by
  obtain ⟨f, -, hf⟩ := pageAlloc4K_spec h.shape hflags href
  refine h.written (length_tablePath _) hf.written fun g hg => ?_
  rw [target_or_eq hflags hg, frameOf_mul (Nat.lt_trans hf.marked.1 (by decide))]
  exact hf.marked

/-! ## Runs -/

inductive Call where
  | mapv (virt length flags : Nat)
  | mapvp (virt phys length flags : Nat)
  | umapv (virt length : Nat)
  | alloc4K (flags : Nat)

def Call.run (s : State) : Call → State
  | .mapv virt length flags => pageMapv s virt length flags
  | .mapvp virt phys length flags => pageMapvp s virt phys length flags
  | .umapv virt length => pageUmapv s virt length
  | .alloc4K flags => (pageAlloc4K s flags).1

def OutsideWindow (virt length : Nat) : Prop := ∀ i < rounds length, ¬ InWindow (pageAt virt i)

/-- What callers provide: a range outside the window, physical pages that are in use already, and enough free frames. -/
def Call.Allowed (s : State) : Call → Prop
  | .mapv virt length flags => OutsideWindow virt length ∧ (pageMapv s virt length flags).refused = s.refused
  | .mapvp virt phys length flags => OutsideWindow virt length ∧
    (∀ i < rounds length, s.Marked (frameOf (pageAt phys i))) ∧
    (pageMapvp s virt phys length flags).refused = s.refused
  | .umapv virt length => OutsideWindow virt length
  | .alloc4K flags => (pageAlloc4K s flags).1.refused = s.refused

/-- The flags lie below the address in an entry, and an unmapped range releases frames of its own only. -/
def Call.Fits (s : State) : Call → Prop
  | .mapv _ _ flags | .mapvp _ _ _ flags | .alloc4K flags => flags < pageSize
  | .umapv virt length => Releasable s virt length

def CallStep (s : State) (c : Call) (t : State) : Prop := c.Allowed s ∧ t = c.run s

theorem Used.run (h : Used s) {c : Call} (ha : c.Allowed s) (hc : c.Fits s) : Used (c.run s) := by
  cases c with
  | mapv => exact used_pageMapv h hc ha.1 ha.2
  | mapvp => exact used_pageMapvp h hc ha.1 ha.2.1 ha.2.2
  | umapv => exact used_pageUmapv h ha hc
  | alloc4K => exact used_pageAlloc4K h hc ha

/-- A table that can be reached, or the frame of a present entry of a page table. -/
def InUse (s : State) (f : Nat) : Prop :=
  (∃ p, p.length ≤ 3 ∧ s.table p = some f) ∨ ∃ p i, p.length = 3 ∧ target (s.entry p i) = some f

theorem Used.marked (h : Used s) (hf : InUse s f) : s.Marked f := by
  obtain ⟨p, hp, hf⟩ | ⟨p, i, hp, hf⟩ := hf
  · exact h.shape.marked p f hp hf
  · exact h.leaf p i f hp hf

/-- The frames in use are marked, and `page_getframe` returns none of them. -/
def Safe (s : State) : Prop := ∀ f, InUse s f → s.Marked f ∧ (pageGetframe s).2 ≠ f * pageSize

theorem Used.safe (h : Used s) : Safe s := by
  intro f hf
  have hm := h.marked hf
  refine ⟨hm, fun heq => ?_⟩
  obtain ⟨g, hg, hgs⟩ | ⟨-, hnone⟩ := pageGetframe_cases s
  · have hfg : f = g := Nat.eq_of_mul_eq_mul_right (by decide : 0 < pageSize) (heq.symm.trans hgs)
    rw [hfg] at hm
    exact hg.free hm.2
  · rw [hnone, pageSize] at heq
    omega

/-- In every run of calls that fit, from the tables of the loader, no frame in use is granted. -/
theorem safe_of_fits (mem : Nat → Index → Nat) {kernelSize fontData : Nat}
    (hkernel : 0x100000 + kernelSize ≤ frames * pageSize) (hfont : fontData + 0x2000 ≤ frames * pageSize)
    (href : (bootState mem kernelSize fontData).refused = 0)
    (hs : Reaches (Guarded (fun s c => Call.Fits s c) CallStep) (bootState mem kernelSize fontData) s) : Safe s := by
  have hused : Used s := by
    refine hs.invariant (fun u c v hu hstep => ?_) (used_bootState mem hkernel hfont href)
    obtain ⟨hfits, hallowed, rfl⟩ := hstep
    exact hu.run hallowed hfits
  exact hused.safe

def smallBoot : State := bootState (fun _ _ => 0) 0x1000 0x200000

theorem outsideWindow_page {v : Nat} (hv : v < 0x3fe00000) : OutsideWindow v 0x1000 := by
  intro i hi
  have hi0 : i = 0 := by
    have : rounds 0x1000 = 1 := by decide
    omega
  have hpage : pageAt v 0 = v := by
    rw [pageAt_of_lt (by decide), qword_of_lt (by omega)]
    rfl
  rw [hi0, hpage]
  exact tablePath_ne_window (by omega)

theorem safe_of_fits_smallBoot : Safe (pageMapv smallBoot 0x400000 0x1000 3) := by
  refine safe_of_fits (fun _ _ => 0) (by decide) (by decide) (by decide +kernel)
    ((Lib.Reaches.refl _).snoc (l := .mapv 0x400000 0x1000 3)
      ⟨(by decide : 3 < pageSize), ⟨outsideWindow_page (by decide), ?_⟩, rfl⟩)
  decide +kernel

/-- The page at 0x8000 is not mapped, and unmapping it frees the frame 0, which is mapped at 0. -/
theorem not_safe_smallBoot : ¬ ∀ s, Reaches CallStep smallBoot s → Safe s := by
  intro h
  have hstep : CallStep smallBoot (.umapv 0x8000 0x1000) (pageUmapv smallBoot 0x8000 0x1000) :=
    ⟨outsideWindow_page (by decide), rfl⟩
  have hsafe := h _ ((Lib.Reaches.refl _).snoc hstep)
  have huse : target ((pageUmapv smallBoot 0x8000 0x1000).entry [0, 0, 0] 0) = some 0 := by decide +kernel
  have hfree : ¬ (pageUmapv smallBoot 0x8000 0x1000).Marked 0 := by decide +kernel
  exact hfree (hsafe 0 (.inr ⟨[0, 0, 0], 0, rfl, huse⟩)).1

end HaOS.Paging
