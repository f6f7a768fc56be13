import HaOS.Alloc.Tiling

/-!
# When `new_alloc` returns

* `CanServe h size` : some free block is large enough, or the block that ends the list is free;
* `newAlloc_growing` : a free last block is enlarged until it is large enough;
* `returns_iff` : in a reachable heap the call returns, within the expected number of growth steps, exactly when the
  heap can serve it. A live last block is enlarged for ever (`newAlloc_live`).
-/

namespace HaOS.Alloc

variable {s : State} {h h' : Heap} {init : List Block} {last : Block} {size start : Nat}
  {mem : Nat → AllocBlock}

def CanServe (h : Heap) (size : Nat) : Prop :=
  ∃ init last, Laid h.mem h.heapStart (init ++ [last]) ∧
    ((∃ b ∈ init ++ [last], b.Fits (size + sizeofAllocBlock)) ∨ last.free = true)

/-- `new_alloc` returns the payload of a block of the list, now unavailable and large enough, after at most `growths`
growth steps. -/
def Returns (h : Heap) (size growths : Nat) : Prop :=
  ∃ w, ∀ walk, w ≤ walk → ∃ h' l a, newAlloc walk (growths + 1) h size = some (h', a + sizeofAllocBlock) ∧
    Lib.Chain h.next h.heapStart l ∧ a ∈ l ∧ (h'.mem a).available = 0 ∧
    size + sizeofAllocBlock ≤ (h'.mem a).size

/-- A free last block is enlarged page by page until it is large enough. -/
theorem newAlloc_growing (walk : Nat) (hn : size + sizeofAllocBlock < 2 ^ 31) (hsize : size ≠ 0) : ∀ (k : Nat) {h : Heap}
    {init : List Block} {last : Block}, Laid h.mem h.heapStart (init ++ [last]) → 0 < h.heapStart →
    (∀ c ∈ init, 0 < c.size) → (∀ c ∈ init, ¬ c.Fits (size + sizeofAllocBlock)) → last.free = true →
    size + sizeofAllocBlock ≤ last.size + 0x1000 * k → init.length + 1 < walk →
    ∃ h', newAlloc walk (k + 1) h size = some (h', qword (h.heapStart + extent init + sizeofAllocBlock)) ∧
      (h'.mem (h.heapStart + extent init)).available = 0 ∧
      size + sizeofAllocBlock ≤ (h'.mem (h.heapStart + extent init)).size := by
  intro k
  induction k with
  | zero =>
      intro h init last hl ha _ hno hfree hle hw
      obtain ⟨h', -, h1, h2, heq⟩ := newAlloc_fits walk 0 hl ha hsize hn hno ⟨hfree, by omega⟩
      exact ⟨h', by rw [heq, if_pos (by omega)], h1, h2⟩
  | succ k ih =>
      intro h init last hl ha hpos hno hfree hle hw
      by_cases hfit : last.Fits (size + sizeofAllocBlock)
      · obtain ⟨h', -, h1, h2, heq⟩ := newAlloc_fits walk (k + 1) hl ha hsize hn hno hfit
        exact ⟨h', by rw [heq, if_pos (by omega)], h1, h2⟩
      · have hlt : last.size < size + sizeofAllocBlock := by
          simp only [Block.Fits, hfree, true_and] at hfit
          omega
        have hno' : ∀ c ∈ init ++ [last], ¬ c.Fits (size + sizeofAllocBlock) := by
          intro c hc
          simp only [List.mem_append, List.mem_singleton] at hc
          rcases hc with hc | rfl
          · exact hno c hc
          · exact hfit
        have hg := laid_grow (e := h.heapStart + extent init) hl hpos ha
        rw [qword_of_lt (by omega)] at hg
        rw [newAlloc_grow hl ha hsize (by rwa [required_of_lt (by omega)]), if_pos hw]
        have := ih hg (by rwa [heapStart_grow]) hpos hno hfree (by simp only; omega) hw
        rwa [heapStart_grow] at this

/-- The payload of a block of the heap has an address, no matter what happens behind it. -/
theorem Inv.qword_payload {bs pre post : List Block} {b : Block} (hi : Inv s bs) (hbs : bs = pre ++ b :: post) :
    qword (s.heap.heapStart + extent pre + sizeofAllocBlock) = s.heap.heapStart + extent pre + sizeofAllocBlock := by
  subst hbs
  have hsize := hi.tiled.size
  have hmin := hi.tiled.min b (by simp)
  have htop := hi.top
  simp only [extent_append, extent_cons] at hsize
  exact qword_of_lt (by omega)

theorem Inv.returns {bs : List Block} (hi : Inv s bs) (hsize : size ≠ 0) (hn : size + sizeofAllocBlock < 2 ^ 31)
    (hc : CanServe s.heap size) : Returns s.heap size ((size + sizeofAllocBlock + 0xFFF) / 0x1000) := by
  obtain ⟨init, last, hl, hserve⟩ := hc
  obtain rfl := hl.unique hi.tiled.start hi.tiled.laid
  have hchain := hl.chain hi.tiled.start
  rcases first_fit (size + sizeofAllocBlock) (init ++ [last]) with ⟨pre, b, post, hbs, hpre, hb⟩ | hno
  · rw [hbs] at hl
    refine ⟨pre.length + 1, fun walk hw => ?_⟩
    obtain ⟨h', -, h1, h2, heq⟩ := newAlloc_fits walk ((size + sizeofAllocBlock + 0xFFF) / 0x1000) hl
      hi.tiled.start hsize hn hpre hb
    refine ⟨h', _, s.heap.heapStart + extent pre, ?_, hchain, ?_, h1, h2⟩
    · rw [heq, if_pos (by omega), hi.qword_payload hbs]
    · rw [hbs]
      exact mem_starts
  · have hfree : last.free = true := by
      rcases hserve with ⟨b, hb, hfit⟩ | hfree
      · exact absurd hfit (hno b hb)
      · exact hfree
    refine ⟨init.length + 2, fun walk hw => ?_⟩
    obtain ⟨h', heq, h1, h2⟩ := newAlloc_growing walk hn hsize ((size + sizeofAllocBlock + 0xFFF) / 0x1000) hl hi.tiled.start
      (fun c hc => hi.tiled.pos c (by simp [hc])) (fun c hc => hno c (by simp [hc])) hfree (by omega)
      (by omega)
    exact ⟨h', _, s.heap.heapStart + extent init, by rw [heq, hi.qword_payload rfl], hchain, mem_starts, h1, h2⟩

/-- A request that no block fits never returns when the last block is in use. -/
theorem Inv.not_returns {bs : List Block} (hi : Inv s bs) (hsize : size ≠ 0) (hn : size + sizeofAllocBlock < 2 ^ 31)
    (hc : ¬ CanServe s.heap size) (walk depth : Nat) : newAlloc walk depth s.heap size = none := by
  obtain ⟨init, last, rfl⟩ := hi.tiled.eq_concat
  have hlaid := hi.tiled.laid
  refine newAlloc_live hsize depth hlaid hi.tiled.start (fun c hc => hi.tiled.pos c (by simp [hc])) ?_ ?_
  · rw [required_of_lt (by omega)]
    exact fun c hmem hfit => hc ⟨init, last, hlaid, .inl ⟨c, by simp [hmem], hfit⟩⟩
  · exact Bool.eq_false_iff.mpr fun hfree => hc ⟨init, last, hlaid, .inr hfree⟩

/-- In a heap reached by a run without overruns, whose requests were each below `2 ^ 31` with their header, such a request
is served within the expected number of growth steps exactly when some free block is large enough or the last block is
free. -/
theorem returns_iff (hstart : Linked start)
    (hr : Lib.Reaches (Lib.Guarded (fun s c => ¬ Call.Overruns s c) Step) (.boot mem start) s)
    (hsize : 0 < size) (hn : size + sizeofAllocBlock < 2 ^ 31) :
    Returns s.heap size ((size + sizeofAllocBlock + 0xFFF) / 0x1000) ↔ CanServe s.heap size := by
  obtain ⟨bs, hi⟩ := hr.invariant (P := fun s => ∃ bs, Inv s bs)
    (fun s c t hi hs => hi.choose_spec.step hs.2 hs.1) ⟨_, inv_boot hstart⟩
  refine ⟨fun ⟨w, hw⟩ => ?_, hi.returns (by omega) hn⟩
  by_contra hc
  obtain ⟨h', l, a, hret, -⟩ := hw w (Nat.le_refl w)
  rw [hi.not_returns (by omega) hn hc] at hret
  cases hret

/-- The first request of a run is served. -/
theorem returns_boot : Returns (State.boot (fun _ => ⟨0, 0, 0⟩) 0xFFFFFFFF80200000).heap 1 1 ↔
    CanServe (State.boot (fun _ => ⟨0, 0, 0⟩) 0xFFFFFFFF80200000).heap 1 :=
  returns_iff (by unfold Linked; decide) (Lib.Reaches.refl _) (by decide) (by decide)

/-- After the first page was handed out as one block, no request ever returns. -/
theorem not_returns_fullPage : Linked 0xFFFFFFFF80200000 ∧
    ∃ s, Lib.Reaches Step (.boot (fun _ => ⟨0, 0, 0⟩) 0xFFFFFFFF80200000) s ∧
      ∀ walk depth, newAlloc walk depth s.heap 1 = none := by
  let boot : State := .boot (fun _ => ⟨0, 0, 0⟩) 0xFFFFFFFF80200000
  obtain ⟨tr, htr⟩ : ∃ tr, exec 8 8 boot [.alloc 4079] = some tr := Option.isSome_iff_exists.mp (by decide +kernel)
  have hlast : ((exec 8 8 boot [.alloc 4079]).bind fun tr => tr[0]?.map fun x =>
      (x.2.heap.heapStart, x.2.heap.mem 0xFFFFFFFF80200000)) = some (0xFFFFFFFF80200000, ⟨0x1000, 0, 0⟩) := by
    decide +kernel
  rw [htr, Option.bind_some, Option.map_eq_some_iff] at hlast
  obtain ⟨x, hx, hs⟩ := hlast
  simp only [Prod.mk.injEq] at hs
  obtain ⟨h1, h2⟩ := hs
  refine ⟨by unfold Linked; decide, x.2, (steps_exec htr).reaches x (List.mem_of_getElem? hx), fun walk depth => ?_⟩
  have hl : Laid x.2.heap.mem x.2.heap.heapStart ([] ++ [⟨0x1000, false⟩]) := by
    rw [h1]
    exact h2
  exact newAlloc_live (by decide) depth hl (by rw [h1]; decide) (by simp) (by simp) rfl

end HaOS.Alloc
