import HaOS.Paging.BootCall

/-!
# The bits of the pages that the boot stage maps

`page_mapvp` of the boot stage sets a bit for each page that it maps, with the number that the page table entry of the
physical page would have: bits 12 to 20 of its address.

* `NewlyMapped` : the frames that a call maps; `Marks` : what should become of the bitmap;
* `MapsFrame`, `SetsSlot` : the frames that are mapped and the bits that are set, read off the state before the call;
* `Fits`, `marks_iff` : when the bits are those of the frames;
* `fits_of_low` : so they are as long as the physical pages lie in the first 2 MB.
-/

namespace HaOS.Paging.Boot
open Lib (Reaches)

/-- From `s` to `t` the page of `v` is mapped to the frame `f`, and it was not mapped before. -/
def NewlyMapped (s t : State) (v f : Nat) : Prop := target (walk s v) = none ∧ target (walk t v) = some f

structure Marks (s t : State) : Prop where
  marked : ∀ v f, NewlyMapped s t v f → t.Marked f
  others : ∀ f, ¬ (Bit t.bitmap f ↔ Bit s.bitmap f) → NewTable s t f ∨ ∃ v, NewlyMapped s t v f
  later : ∀ u v f, Reaches CallStep t u → NewlyMapped s t v f → (pageGetframe u).2 ≠ f * pageSize

/-- The frame `f` is one of those that go to pages without an entry. -/
def MapsFrame (s : State) (virt phys length flags f : Nat) : Prop :=
  ∃ i < pages length, Blank s (pageAt virt i) ∧ target (pageAt phys i ||| flags) = some f

/-- The bit `f` is set with the entry of such a page. -/
def SetsSlot (s : State) (virt phys length f : Nat) : Prop :=
  ∃ i < pages length, Blank s (pageAt virt i) ∧ (ptIndex (pageAt phys i)).val = f

/-- Each frame that is mapped has its bit, or gets it by a new table or as the slot of a page; each slot is the bit of such
a frame, or of a new table, or was set before. -/
structure Fits (s : State) (virt phys length flags : Nat) : Prop where
  frame : ∀ f, MapsFrame s virt phys length flags f → f < frames ∧
    (Bit s.bitmap f ∨ f ∈ tableFrames s.has s.free (slots s virt phys length) ∨ SetsSlot s virt phys length f)
  slot : ∀ f, SetsSlot s virt phys length f →
    Bit s.bitmap f ∨ f ∈ tableFrames s.has s.free (slots s virt phys length) ∨ MapsFrame s virt phys length flags f

variable {s t u : State} {f n v virt phys length flags last : Nat}

/-- Rounds that give the page at `a i` the entry `e i`, when it has none, map what these entries map. -/
theorem newlyMapped_of_walk {a e : Nat → Nat}
    (hwindow : OnWindow v → target (walk s v) = none → target (walk t v) = none)
    (hwalk : ¬ OnWindow v → (∀ i < n, vpn v = vpn (a i) → walk s v = 0 → walk t v = e i) ∧
      ((∀ i < n, vpn v = vpn (a i) → walk s v ≠ 0) → walk t v = walk s v)) :
    NewlyMapped s t v f ↔ ∃ i < n, vpn v = vpn (a i) ∧ Blank s v ∧ target (e i) = some f := by
  constructor
  · rintro ⟨hnone, hsome⟩
    have hw : ¬ OnWindow v := by
      intro hw
      rw [hwindow hw hnone] at hsome
      cases hsome
    obtain ⟨hnew, hold⟩ := hwalk hw
    by_cases hex : ∃ i < n, vpn v = vpn (a i) ∧ walk s v = 0
    · obtain ⟨i, hi, heq, h0⟩ := hex
      rw [hnew i hi heq h0] at hsome
      exact ⟨i, hi, heq, ⟨hw, h0⟩, hsome⟩
    · rw [hold fun i hi heq h0 => hex ⟨i, hi, heq, h0⟩, hnone] at hsome
      cases hsome
  · rintro ⟨i, hi, heq, ⟨hw, h0⟩, hsome⟩
    refine ⟨?_, ?_⟩
    · rw [h0]
      rfl
    · rw [(hwalk hw).1 i hi heq h0]
      exact hsome

theorem newlyMapped_iff (h : Shaped s) (href : (pageMapvp s virt phys length flags).refused = s.refused) :
    NewlyMapped s (pageMapvp s virt phys length flags) v f ↔
      ∃ i < pages length, vpn v = vpn (pageAt virt i) ∧ Blank s v ∧ target (pageAt phys i ||| flags) = some f := by
  refine newlyMapped_of_walk (fun hw _ => ?_) fun hw => pageMapvp_walk h href hw
  rw [pageMapvp_window h href hw]
  rfl

theorem mapsFrame_iff (h : Shaped s) (href : (pageMapvp s virt phys length flags).refused = s.refused) :
    (∃ v, NewlyMapped s (pageMapvp s virt phys length flags) v f) ↔ MapsFrame s virt phys length flags f := by
  simp only [newlyMapped_iff h href]
  constructor
  · rintro ⟨v, i, hi, heq, hb, hf⟩
    exact ⟨i, hi, (blank_congr heq).mp hb, hf⟩
  · rintro ⟨i, hi, hb, hf⟩
    exact ⟨pageAt virt i, i, hi, rfl, hb, hf⟩

/-- For a call that has room for its tables. -/
theorem marks_iff (h : Shaped s) (hroom : Room s.has s.free (slots s virt phys length)) :
    Marks s (pageMapvp s virt phys length flags) ↔ Fits s virt phys length flags := by
  have href := (granted_iff h flags).mpr hroom
  have hbit := fun f => (pageMapvp_bit h href f).2
  have htable := fun f => (pageMapvp_bit h href f).1
  have hnewly := fun f => mapsFrame_iff (f := f) h href
  constructor
  · intro hm
    refine ⟨fun f hf => ?_, fun f hf => ?_⟩
    · obtain ⟨v, hv⟩ := (hnewly f).mpr hf
      obtain ⟨hlt, hset⟩ := hm.marked v f hv
      refine ⟨hlt, ?_⟩
      rw [← htable f]
      exact (hbit f).mp hset
    · by_cases hold : Bit s.bitmap f
      · exact .inl hold
      · have hset := (hbit f).mpr (.inr (.inr hf))
        have hother := hm.others f fun heq => hold (heq.mp hset)
        rw [htable f, hnewly f] at hother
        exact .inr hother
  · intro hf
    have hmarked : ∀ v f, NewlyMapped s (pageMapvp s virt phys length flags) v f →
        (pageMapvp s virt phys length flags).Marked f := by
      intro v f hv
      obtain ⟨hlt, hset⟩ := hf.frame f ((hnewly f).mp ⟨v, hv⟩)
      rw [← htable f] at hset
      exact ⟨hlt, (hbit f).mpr hset⟩
    refine ⟨hmarked, fun f hne => ?_, fun u v f hu hv hget => ?_⟩
    · rw [hbit f] at hne
      have hold : ¬ Bit s.bitmap f := fun hold => hne (iff_of_true (.inl hold) hold)
      have hset : NewTable s (pageMapvp s virt phys length flags) f ∨ SetsSlot s virt phys length f := by
        by_contra hno
        exact hne (or_iff_left hno)
      rcases hset with htab | hslot
      · exact .inl htab
      · rw [htable f, hnewly f]
        exact (hf.slot f hslot).resolve_left hold
    · exact not_bit_of_pageGetframe hget ((sets_reaches hu).bit f (hmarked v f hv).2)

theorem target_low (hp : Present flags) (hflags : flags < pageSize) (hlow : v < 2 ^ 21) :
    target (v ||| flags) = some (ptIndex v).val := by
  have hpres : Present (v ||| flags) := by
    rw [present_iff, Nat.or_mod_two_eq_one]
    exact .inr ((present_iff flags).mp hp)
  unfold target
  rw [if_pos hpres, frameOf_or hflags, ptIndex, index_val]
  unfold frameOf pageSize
  congr 1
  omega

theorem fits_of_low (hp : Present flags) (hflags : flags < pageSize)
    (hlow : ∀ i < pages length, Blank s (pageAt virt i) → pageAt phys i < 2 ^ 21) : Fits s virt phys length flags := by
  refine ⟨?_, ?_⟩
  · rintro f ⟨i, hi, hb, hf⟩
    rw [target_low hp hflags (hlow i hi hb), Option.some.injEq] at hf
    refine ⟨?_, .inr (.inr ⟨i, hi, hb, hf⟩)⟩
    rw [← hf]
    exact Nat.lt_trans (ptIndex (pageAt phys i)).isLt (by decide)
  · rintro f ⟨i, hi, hb, hf⟩
    refine .inr (.inr ⟨i, hi, hb, ?_⟩)
    rw [target_low hp hflags (hlow i hi hb), hf]

/-- A boot stage that ends at 64 KB maps the page of the screen's text. -/
theorem marks_iff_text : Marks (stageTables 15) (pageMapvp (stageTables 15) 0xb8000 0xb8000 0xfa0 3) := by
  have hpages : pages 0xfa0 = 1 := by decide
  have h : Shaped (stageTables 15) := shaped_stageTables (by decide)
  have hroom : Room (stageTables 15).has (stageTables 15).free (slots (stageTables 15) 0xb8000 0xb8000 0xfa0) :=
    (granted_iff h 3).mp (by decide +kernel)
  refine (marks_iff h hroom).mpr ?_
  refine fits_of_low (by decide) (by decide) fun i hi _ => ?_
  unfold pageAt qword pageSize
  omega

/-- The page at 2 MB is mapped, and the bit of the page 0 is set for it. -/
theorem not_marks_high : Shaped (stageTables 15) ∧
    Room (stageTables 15).has (stageTables 15).free (slots (stageTables 15) 0x200000 0x200000 0x800) ∧
      ¬ Marks (stageTables 15) (pageMapvp (stageTables 15) 0x200000 0x200000 0x800 3) := by
  have hshaped : Shaped (stageTables 15) := shaped_stageTables (by decide)
  refine ⟨hshaped, (granted_iff hshaped 3).mp (by decide +kernel), fun h => ?_⟩
  have hnew : NewlyMapped (stageTables 15) (pageMapvp (stageTables 15) 0x200000 0x200000 0x800 3) 0x200000 0x200 :=
    ⟨by decide +kernel, by decide +kernel⟩
  have hbit : ¬ Bit (pageMapvp (stageTables 15) 0x200000 0x200000 0x800 3).bitmap 0x200 := by decide +kernel
  exact hbit (h.marked _ _ hnew).2

end HaOS.Paging.Boot
