import HaOS.Paging.Upper
import HaOS.Paging.Usage

/-!
# The page that `page_alloc4K` maps

A frame that is granted is mapped at the virtual address that equals its physical one, whatever is mapped there.

* `Serves s flags` : what a caller expects of `page_alloc4K`;
* `serves_iff` : so it is exactly when the page of the lowest free frame is not mapped, or as it would be.
-/

namespace HaOS.Paging

variable {s : State} {f flags : Nat}

/-- The call returns a frame that was free, maps it at its own address, and leaves what is mapped off the window. -/
def Serves (s : State) (flags : Nat) : Prop :=
  ∃ f ∈ s.free, (pageAlloc4K s flags).2 = f * pageSize ∧
    walk (pageAlloc4K s flags).1 (f * pageSize) = f * pageSize ||| flags ∧
    ∀ v, ¬ OnWindow v → Present (walk s v) → walk (pageAlloc4K s flags).1 v = walk s v

def Lowest (s : State) (f : Nat) : Prop := f ∈ s.free ∧ ∀ g ∈ s.free, f ≤ g

theorem Allocated.lowest {t : State} (h : Allocated flags s t f) : Lowest s f :=
  ⟨h.free, fun g hg => not_lt.mp fun hlt => (mem_free.mp hg).2 (h.least g hlt)⟩

theorem Lowest.unique {g : Nat} (hf : Lowest s f) (hg : Lowest s g) : f = g :=
  le_antisymm (hf.2 g hg.1) (hg.2 f hf.1)

theorem Allocated.walk_of_ne {t : State} {v : Nat} (h : Allocated flags s t f) (hw : ¬ OnWindow v)
    (hne : vpn v ≠ vpn (f * pageSize)) : HaOS.Paging.walk t v = HaOS.Paging.walk s v :=
  h.written.ext.entry _ _ rfl hw fun hp => hne ((vpn_eq_iff _ _).mpr ⟨hp.1, hp.2⟩)

/-- The call keeps its promise exactly when the address of the lowest free frame is not mapped, or has the entry already. No
table turns into a large page. -/
theorem serves_iff (hs : TreeShaped s) (hflags : flags < pageSize) (hsmall : ¬ Large flags) (hp : Present flags)
    (href : (pageAlloc4K s flags).1.refused = s.refused) :
    (Serves s flags ↔
      ∀ f, Lowest s f → Present (walk s (f * pageSize)) → walk s (f * pageSize) = f * pageSize ||| flags) ∧
    (Plain s → Plain (pageAlloc4K s flags).1) := by
  obtain ⟨f, hret, ha⟩ := pageAlloc4K_spec hs hflags href
  have hwp : ¬ OnWindow (f * pageSize) := not_onWindow (not_inWindow_frame (mem_free.mp ha.free).1)
  refine ⟨⟨?_, ?_⟩, fun hplain => hplain.grown (pageAlloc4K_grown hs hflags href) hsmall⟩
  · intro ⟨f', _, hret', _, hkept⟩ g hg hmapped
    obtain rfl : g = f := hg.unique ha.lowest
    rw [← hkept _ hwp hmapped]
    exact ha.walk hp
  · intro hsame
    refine ⟨f, ha.free, hret, ha.walk hp, fun v hw hmapped => ?_⟩
    by_cases heq : vpn v = vpn (f * pageSize)
    · rw [walk_congr heq] at hmapped ⊢
      rw [walk_congr heq, ha.walk hp]
      exact (hsame f ha.lowest hmapped).symm
    · exact ha.walk_of_ne hw heq

theorem serves_iff_smallBoot : (Serves smallBoot 3 ↔
    ∀ f, Lowest smallBoot f → Present (walk smallBoot (f * pageSize)) →
      walk smallBoot (f * pageSize) = f * pageSize ||| 3) ∧ (Plain smallBoot → Plain (pageAlloc4K smallBoot 3).1) :=
  serves_iff (used_bootState _ (by decide) (by decide) (by decide +kernel)).shape (by decide) (by decide) (by decide)
    (by decide +kernel)

/-- A page is mapped at 0xC000, and the next free frame is the one of that address. -/
theorem not_serves_lowPage : ∃ s, Lib.Reaches CallStep smallBoot s ∧ (pageAlloc4K s 3).1.refused = s.refused ∧
    ¬ Serves s 3 := by
  refine ⟨pageMapv smallBoot 0xC000 0x1000 3, ?_, by decide +kernel, ?_⟩
  · exact (Lib.Reaches.refl _).snoc (l := .mapv 0xC000 0x1000 3)
      ⟨⟨outsideWindow_page (by decide), by decide +kernel⟩, rfl⟩
  · intro ⟨_, _, _, _, hkept⟩
    have hmapped : Present (walk (pageMapv smallBoot 0xC000 0x1000 3) 0xC000) := by decide +kernel
    have hlost : walk (pageAlloc4K (pageMapv smallBoot 0xC000 0x1000 3) 3).1 0xC000 ≠
        walk (pageMapv smallBoot 0xC000 0x1000 3) 0xC000 := by decide +kernel
    exact hlost (hkept 0xC000 (by decide) hmapped)

end HaOS.Paging
