import HaOS.Alloc.Refine
import HaOS.Lib.Chain
import HaOS.Lib.Run

/-!
# Runs of `new_alloc` and `free_alloc`

A run starts from `init_alloc` and makes calls in any order; a pointer that is freed is live. `page_mapv` succeeds: each
page of the heap lies below the top of the address space.

* `Tiling h` : the list from `heap_start` tiles the heap; `Sound s` : and the live payloads lie in it, apart;
* `Call.Overruns` : the calls that spoil the list;
* `sound_iff` : all states of a run are sound exactly when no call overruns.
-/

namespace HaOS.Alloc

/-- The heap, and the live pointers with the sizes they were asked for. -/
structure State where
  heap : Heap
  live : Nat → Option Nat

def State.give (s : State) (h : Heap) (p size : Nat) : State :=
  ⟨h, if p = 0 then s.live else Function.update s.live p (some size)⟩

inductive Call where
  | alloc (size : Nat)
  | free (ptr : Nat)

/-- One call that returns. -/
inductive Step : State → Call → State → Prop
  | alloc {s : State} {size walk depth p : Nat} {h : Heap} : size + sizeofAllocBlock < 2 ^ 31 →
      newAlloc walk depth s.heap size = some (h, p) → h.heapStart + h.heapSize < 2 ^ 64 →
      Step s (.alloc size) (s.give h p size)
  | free {s : State} {size walk p : Nat} {h : Heap} : s.live p = some size → freeAlloc walk s.heap p = some h →
      Step s (.free p) ⟨h, Function.update s.live p none⟩

/-- The state `init_alloc` leaves. -/
def State.boot (mem : Nat → AllocBlock) (start : Nat) : State := ⟨initAlloc mem start, fun _ => none⟩

/-- The calls of a run one after another, each with the state it leaves; `none` when one may not be made or does not
return within the bounds. -/
def exec (walk depth : Nat) : State → List Call → Option (List (Call × State))
  | _, [] => some []
  | s, .alloc size :: cs =>
    if size + sizeofAllocBlock < 2 ^ 31 then
      match newAlloc walk depth s.heap size with
      | some (h, p) =>
        if h.heapStart + h.heapSize < 2 ^ 64 then
          (exec walk depth (s.give h p size) cs).map fun tr => (.alloc size, s.give h p size) :: tr
        else none
      | none => none
    else none
  | s, .free p :: cs =>
    match s.live p, freeAlloc walk s.heap p with
    | some _, some h =>
      (exec walk depth ⟨h, Function.update s.live p none⟩ cs).map fun tr =>
        (.free p, ⟨h, Function.update s.live p none⟩) :: tr
    | _, _ => none

theorem steps_exec {walk depth : Nat} : ∀ {cs : List Call} {s : State} {tr : List (Call × State)},
    exec walk depth s cs = some tr → Lib.Steps Step s tr
  | [], _, _, h => by
      cases h
      trivial
  | .alloc size :: cs, s, tr, h => by
      rw [exec] at h
      split_ifs at h with hn
      split at h
      · rename_i hr
        split_ifs at h with htop
        obtain ⟨tr', htr, rfl⟩ := Option.map_eq_some_iff.mp h
        exact ⟨.alloc hn hr htop, steps_exec htr⟩
      · cases h
  | .free p :: cs, s, tr, h => by
      rw [exec] at h
      split at h
      · rename_i hp hr
        obtain ⟨tr', htr, rfl⟩ := Option.map_eq_some_iff.mp h
        exact ⟨.free hp hr, steps_exec htr⟩
      · cases h

/-- Where the linker puts `__heap_start`: behind the kernel, which is linked at this address. -/
def Linked (start : Nat) : Prop := 0xFFFFFFFF80100000 ≤ start ∧ start + 0x1000 < 2 ^ 64

/-! ## Blocks without gaps -/

def Heap.next (h : Heap) (a : Nat) : Option Nat := if (h.mem a).next = 0 then none else some (h.mem a).next

/-- The blocks from `heap_start` on follow each other without gaps, up to the end of the heap. -/
def Tiling (h : Heap) : Prop :=
  ∃ l, Lib.Chain h.next h.heapStart l ∧ l.Pairwise (· < ·) ∧
    ∀ a ∈ l, a + (h.mem a).size = if (h.mem a).next = 0 then h.heapStart + h.heapSize else (h.mem a).next

/-- Where the payload at `p` ends: at the end of its block. -/
def payloadEnd (h : Heap) (p : Nat) : Nat := p - sizeofAllocBlock + (h.mem (p - sizeofAllocBlock)).size

structure Sound (s : State) : Prop where
  tiling : Tiling s.heap
  holds : ∀ p size, s.live p = some size → p + size ≤ payloadEnd s.heap p
  inside : ∀ p size, s.live p = some size →
    s.heap.heapStart ≤ p ∧ payloadEnd s.heap p ≤ s.heap.heapStart + s.heap.heapSize
  disjoint : ∀ p q m n, s.live p = some m → s.live q = some n → p ≠ q →
    payloadEnd s.heap p ≤ q ∨ payloadEnd s.heap q ≤ p

def Call.Overruns (s : State) : Call → Prop
  | .alloc size => Alloc.Overruns s.heap size
  | .free _ => False

/-! ## The invariant -/

/-- The heap is a list of blocks, and each live pointer is the payload of a block in use. -/
structure Inv (s : State) (bs : List Block) : Prop where
  tiled : Tiled s.heap bs
  base : 2 ^ 64 - 2 ^ 31 ≤ s.heap.heapStart
  top : s.heap.heapStart + s.heap.heapSize < 2 ^ 64
  live : ∀ p size, s.live p = some size → ∃ o b, At o b bs ∧ b.free = false ∧
    p = s.heap.heapStart + o + sizeofAllocBlock ∧ size + sizeofAllocBlock ≤ b.size

variable {s t : State} {bs pre post : List Block} {b : Block} {h h' : Heap} {a o p n size start : Nat}
  {mem : Nat → AllocBlock} {c : Call}

def starts : Nat → List Block → List Nat
  | _, [] => []
  | a, b :: bs => a :: starts (a + b.size) bs

theorem le_of_mem_starts {x : Nat} (hx : x ∈ starts a bs) : a ≤ x := by
  induction bs generalizing a with
  | nil => simp [starts] at hx
  | cons b bs ih =>
      rw [starts, List.mem_cons] at hx
      rcases hx with rfl | hx
      · exact Nat.le_refl _
      · exact Nat.le_trans (Nat.le_add_right _ _) (ih hx)

theorem mem_starts : a + extent pre ∈ starts a (pre ++ b :: post) := by
  induction pre generalizing a with
  | nil => exact List.mem_cons_self
  | cons c pre ih =>
      rw [extent_cons, ← Nat.add_assoc]
      exact List.mem_cons_of_mem _ ih

theorem pairwise_starts (hs : ∀ b ∈ bs, 0 < b.size) : (starts a bs).Pairwise (· < ·) := by
  induction bs generalizing a with
  | nil => exact .nil
  | cons b bs ih =>
      refine .cons (fun x hx => ?_) (ih fun c hc => hs c (List.mem_cons_of_mem _ hc))
      have := le_of_mem_starts hx
      have := hs b (by simp)
      omega

theorem Laid.chain (hl : Laid h.mem a bs) (ha : 0 < a) : Lib.Chain h.next a (starts a bs) := by
  induction bs generalizing a with
  | nil => exact hl.elim
  | cons b bs ih =>
      have hb := laid_head hl
      by_cases hp : bs = []
      · subst hp
        exact .last (by simp [Heap.next, hb, nextOf])
      · refine .link ?_ (ih (laid_tail hl hp) (by omega))
        rw [Heap.next, hb, Block.next_header, nextOf, if_neg hp, if_neg (by omega)]

theorem Laid.tiles (hl : Laid h.mem a bs) (ha : 0 < a) : ∀ x ∈ starts a bs,
    x + (h.mem x).size = if (h.mem x).next = 0 then a + extent bs else (h.mem x).next := by
  induction bs generalizing a with
  | nil => exact hl.elim
  | cons b bs ih =>
      have hb := laid_head hl
      intro x hx
      rw [starts, List.mem_cons] at hx
      rcases hx with rfl | hx
      · rw [hb, Block.size_header, Block.next_header, nextOf]
        by_cases hp : bs = []
        · simp [hp]
        · rw [if_neg hp, if_neg (by omega)]
      · have hp : bs ≠ [] := by
          rintro rfl
          simp [starts] at hx
        rw [ih (laid_tail hl hp) (by omega) x hx, extent_cons, Nat.add_assoc]

theorem Tiled.tiling (ht : Tiled h bs) : Tiling h :=
  ⟨starts h.heapStart bs, ht.laid.chain ht.start, pairwise_starts ht.pos, by
    rw [← ht.size]
    exact ht.laid.tiles ht.start⟩

theorem Tiled.at (ht : Tiled h bs) (hb : At o b bs) : (h.mem (h.heapStart + o)).size = b.size := by
  obtain ⟨pre, post, rfl, rfl⟩ := hb.exists_append
  rw [ht.header, Block.size_header]

theorem Inv.payloadEnd (hi : Inv s bs) (hb : At o b bs) :
    Alloc.payloadEnd s.heap (s.heap.heapStart + o + sizeofAllocBlock) = s.heap.heapStart + o + b.size := by
  rw [Alloc.payloadEnd, Nat.add_sub_cancel, hi.tiled.at hb]

theorem Inv.sound (hi : Inv s bs) : Sound s where
  tiling := hi.tiled.tiling
  holds p size hp := by
    obtain ⟨o, b, hb, -, rfl, hsize⟩ := hi.live p size hp
    rw [hi.payloadEnd hb]
    omega
  inside p size hp := by
    obtain ⟨o, b, hb, -, rfl, hsize⟩ := hi.live p size hp
    have := hb.le_extent
    rw [hi.payloadEnd hb, ← hi.tiled.size]
    omega
  disjoint p q m n hp hq hne := by
    obtain ⟨o, b, hb, -, rfl, -⟩ := hi.live p m hp
    obtain ⟨o', c, hc, -, rfl, -⟩ := hi.live q n hq
    rw [hi.payloadEnd hb, hi.payloadEnd hc]
    rcases hb.disjoint hc (by omega) with h | h
    · exact .inl (by omega)
    · exact .inr (by omega)

theorem inv_boot (hstart : Linked start) : Inv (.boot mem start) [⟨0x1000, true⟩] where
  tiled := tiled_initAlloc mem (by unfold Linked at hstart; omega)
  base := by
    have := hstart.1
    simp only [State.boot, initAlloc]
    omega
  top := hstart.2
  live _ _ hp := by cases hp

/-! ## Steps -/

theorem Inv.alloc {bs' : List Block} (hi : Inv s bs) (ha : Allocates (size + sizeofAllocBlock) bs o bs') (ht : Tiled h bs')
    (hstart : h.heapStart = s.heap.heapStart) (htop : h.heapStart + h.heapSize < 2 ^ 64) :
    Inv ⟨h, Function.update s.live (s.heap.heapStart + o + sizeofAllocBlock) (some size)⟩ bs' := by
  refine ⟨ht, hstart ▸ hi.base, htop, fun q n hq => ?_⟩
  simp only [Function.update_apply] at hq
  rw [hstart]
  split_ifs at hq with hqp
  · obtain ⟨b, hb, hf, hn⟩ := ha.taken
    cases hq
    exact ⟨o, b, hb, hf, hqp, hn⟩
  · obtain ⟨o', b, hb, hf, rfl, hn⟩ := hi.live q n hq
    obtain ⟨b', hb', hf', hle⟩ := ha.keeps hb hf
    exact ⟨o', b', hb', hf', rfl, by omega⟩

theorem Inv.free {bs' : List Block} (hi : Inv s bs) (hrel : Releases o bs bs') (ht : Tiled h bs')
    (hstart : h.heapStart = s.heap.heapStart) (hsize : h.heapSize = s.heap.heapSize) :
    Inv ⟨h, Function.update s.live (s.heap.heapStart + o + sizeofAllocBlock) none⟩ bs' := by
  refine ⟨ht, hstart ▸ hi.base, by rw [hstart, hsize]; exact hi.top, fun q n hq => ?_⟩
  simp only [Function.update_apply] at hq
  rw [hstart]
  split_ifs at hq with hqp
  obtain ⟨o', c, hc, hfc, rfl, hn⟩ := hi.live q n hq
  exact ⟨o', c, hrel.keeps hc hfc (by omega), hfc, rfl, hn⟩

/-- A live pointer that is freed gives the block back. -/
theorem Inv.releases (hi : Inv s bs) {walk : Nat} (hp : s.live p = some size) (hr : freeAlloc walk s.heap p = some h) :
    ∃ o bs', p = s.heap.heapStart + o + sizeofAllocBlock ∧ h.heapStart = s.heap.heapStart ∧
      h.heapSize = s.heap.heapSize ∧ Releases o bs bs' ∧ Tiled h bs' := by
  obtain ⟨o, b, hb, -, rfl, -⟩ := hi.live p size hp
  obtain ⟨pre, post, rfl, rfl⟩ := hb.exists_append
  obtain ⟨hstart, hsize, bs', hrel, ht⟩ := freeAlloc_refines hi.tiled hi.top hr
  exact ⟨_, bs', rfl, hstart, hsize, hrel, ht⟩

/-- A request that returns is served, unless it overruns. -/
theorem Inv.served (hi : Inv s bs) {walk depth : Nat} (hsize : size ≠ 0) (hn : size + sizeofAllocBlock < 2 ^ 31)
    (hc : ¬ Alloc.Overruns s.heap size) (hr : newAlloc walk depth s.heap size = some (h, p))
    (htop : h.heapStart + h.heapSize < 2 ^ 64) : Served s.heap h (size + sizeofAllocBlock) bs p := by
  obtain ⟨init, last, rfl⟩ := hi.tiled.eq_concat
  have hext := hi.tiled.size
  have htop' := hi.top
  have hbase := hi.base
  simp only [extent_append, extent_cons, extent_nil] at hext
  exact newAlloc_refines hn hsize htop depth hi.tiled hi.base (by omega) (by omega) hc hr

theorem newAlloc_zero {walk depth : Nat} (hr : newAlloc walk depth h 0 = some (h', p)) : h' = h ∧ p = 0 := by
  cases depth with
  | zero => cases hr
  | succ depth =>
      rw [newAlloc, if_pos rfl] at hr
      simp only [Option.some.injEq, Prod.mk.injEq] at hr
      exact ⟨hr.1.symm, hr.2.symm⟩

theorem Inv.step (hi : Inv s bs) (hs : Step s c t) (hc : ¬ c.Overruns s) : ∃ bs', Inv t bs' := by
  cases hs with
  | @alloc size walk depth p h hn hr htop =>
      by_cases hsize : size = 0
      · subst hsize
        obtain ⟨rfl, rfl⟩ := newAlloc_zero hr
        exact ⟨bs, hi⟩
      · obtain ⟨hstart, -, o, bs', ha, ht, rfl⟩ := hi.served hsize hn hc hr htop
        have hpos := hi.tiled.start
        rw [State.give, if_neg (by omega)]
        exact ⟨bs', hi.alloc ha ht hstart htop⟩
  | free hp hr =>
      obtain ⟨o, bs', rfl, hstart, hsize, hrel, ht⟩ := hi.releases hp hr
      exact ⟨bs', hi.free hrel ht hstart hsize⟩

/-- Following the pointers passes through blocks that are laid down. -/
theorem Filled.mem_chain {l : List Nat} (hf : Filled h.mem a bs) (ha : 0 < a) (hl : Lib.Chain h.next a l) :
    a + extent bs ∈ l := by
  induction bs generalizing a l with
  | nil => exact hl.head_mem
  | cons b bs ih =>
      have hnext : h.next a = some (a + b.size) := by
        rw [Heap.next, hf.1, Block.next_header, if_neg (by omega)]
      cases hl with
      | last hn =>
          rw [hn] at hnext
          cases hnext
      | link hn ht =>
          rw [hn, Option.some.injEq] at hnext
          subst hnext
          rw [extent_cons, ← Nat.add_assoc]
          exact List.mem_cons_of_mem _ (ih hf.2 (by omega) ht)

/-- After a cut with a page for the heap in between, the second block's size goes past the block that follows it. -/
theorem Cut.not_tiling {r : Nat} (ht : Tiled h (pre ++ b :: post)) (hp : post ≠ [])
    (hcut : Cut h h' (h.heapStart + extent pre) n r (nextOf (h.heapStart + extent pre) b post))
    (hn : 0 < n) (hr : b.size < n + r) : ¬ Tiling h' := by
  rintro ⟨l, hl, -, htile⟩
  have hstart := ht.start
  have hpre : Filled h'.mem h'.heapStart (pre ++ [⟨n, false⟩]) := by
    rw [hcut.start, filled_append]
    refine ⟨((laid_append (by simp)).mp ht.laid).1.congr (fun x h1 h2 => hcut.other x (by omega) (by omega))
      fun c hc => ht.pos c (by simp [hc]), ?_⟩
    exact ⟨by rw [hcut.first]; rfl, trivial⟩
  have hx := hpre.mem_chain (by rwa [hcut.start]) hl
  rw [hcut.start, extent_append, extent_cons, extent_nil, Nat.add_zero, ← Nat.add_assoc] at hx
  have hsize := htile _ hx
  rw [hcut.second, nextOf, if_neg hp] at hsize
  simp only at hsize
  split_ifs at hsize <;> omega

/-- A call that overruns leaves a list that does not tile the heap. -/
theorem Inv.overruns (hi : Inv s bs) (hs : Step s c t) (hc : c.Overruns s) : ¬ Sound t := by
  cases hs with
  | free => exact hc.elim
  | @alloc size walk depth p h hn hr htop =>
      obtain ⟨hpos, pre, b, post, hl, hp, hpre, hb, hbn, hext⟩ := hc
      obtain rfl := hl.unique hi.tiled.start hi.tiled.laid
      have h17 : sizeofAllocBlock = 17 := rfl
      have hsize := hi.tiled.size
      have hbase := hi.base
      have htop' := hi.top
      simp only [extent_append, extent_cons] at hsize
      have hm : s.heap.mem (s.heap.heapStart + extent pre) =
          ⟨b.size, 1, nextOf (s.heap.heapStart + extent pre) b post⟩ := by
        rw [hi.tiled.header, Block.header, if_pos hb.1]
      cases depth with
      | zero => cases hr
      | succ depth =>
          obtain ⟨h1, hpick, -, -, hnew⟩ := newAlloc_fits walk depth hl hi.tiled.start (by omega) hn hpre hb
          obtain ⟨h2, hpick', hsize', hcut⟩ := pick_split hm hn hbn (by omega) (by omega)
          rw [hpick, Scan.found.injEq] at hpick'
          obtain ⟨rfl, -⟩ := hpick'
          rw [hnew, Option.ite_none_right_eq_some, Option.some.injEq, Prod.mk.injEq] at hr
          obtain ⟨-, rfl, -⟩ := hr
          rw [if_pos hext, qword_of_lt (show s.heap.heapSize + 0x1000 < 2 ^ 64 by omega)] at hsize' hcut
          rw [hcut.start, hsize'] at htop
          rw [qword_of_lt (by omega), qsub_of_le (by omega) (by omega), dword_of_lt (by omega)] at hcut
          exact fun hsound => hcut.not_tiling hi.tiled hp (by omega) (by omega) hsound.tiling

/-! ## Runs -/

/-- All states of a run are sound exactly when no call of the run overruns. -/
theorem sound_iff {tr : List (Call × State)} (hstart : Linked start) (hs : Lib.Steps Step (.boot mem start) tr) :
    (Sound (.boot mem start) ∧ ∀ x ∈ tr, Sound x.2) ↔
      Lib.Meets (fun s c => ¬ c.Overruns s) (.boot mem start) tr := by
  have hboot : Inv (.boot mem start) _ := inv_boot hstart
  rw [and_iff_right hboot.sound]
  refine Lib.always_iff_meets (I := fun s => ∃ bs, Inv s bs) (fun s hi => ?_) (fun s c t hi hs hc => ?_)
    (fun s c t hi hs hc => ?_) ⟨_, hboot⟩ hs
  · exact hi.choose_spec.sound
  · exact hi.choose_spec.step hs hc
  · exact hi.choose_spec.overruns hs (not_not.mp hc)

/-- A large first block, a short rest behind it that is taken whole, and a request that cuts the first block again. -/
def overrunRun : Option (List (Call × State)) :=
  exec 8 8 (.boot (fun _ => ⟨0, 0, 0⟩) 0xFFFFFFFF80200000)
    [.alloc 19983, .alloc 4559, .free 0xFFFFFFFF80200011, .alloc 14983]

theorem sound_iff_overrunRun : ∃ tr, overrunRun = some tr ∧
    ((Sound (.boot (fun _ => ⟨0, 0, 0⟩) 0xFFFFFFFF80200000) ∧ ∀ x ∈ tr, Sound x.2) ↔
      Lib.Meets (fun s c => ¬ c.Overruns s) (.boot (fun _ => ⟨0, 0, 0⟩) 0xFFFFFFFF80200000) tr) := by
  obtain ⟨tr, htr⟩ : ∃ tr, overrunRun = some tr := Option.isSome_iff_exists.mp (by decide +kernel)
  exact ⟨tr, htr, sound_iff (by unfold Linked; decide) (steps_exec htr)⟩

/-- The cut gives the second block 13672 bytes, though the next block starts after 5000. -/
theorem not_sound_overrunRun : Linked 0xFFFFFFFF80200000 ∧
    ∃ tr, Lib.Steps Step (.boot (fun _ => ⟨0, 0, 0⟩) 0xFFFFFFFF80200000) tr ∧
    ∃ x ∈ tr, ¬ Sound x.2 := by
  obtain ⟨tr, htr⟩ : ∃ tr, overrunRun = some tr := Option.isSome_iff_exists.mp (by decide +kernel)
  have hlast : (overrunRun.bind fun tr => tr[3]?.map fun x =>
      (x.2.heap.heapStart, x.2.heap.mem 0xFFFFFFFF80200000, x.2.heap.mem (0xFFFFFFFF80200000 + 15000))) =
      some (0xFFFFFFFF80200000, ⟨15000, 0, 0xFFFFFFFF80200000 + 15000⟩, ⟨13672, 1, 0xFFFFFFFF80200000 + 20000⟩) := by
    decide +kernel
  rw [htr, Option.bind_some, Option.map_eq_some_iff] at hlast
  obtain ⟨x, hx, hs⟩ := hlast
  simp only [Prod.mk.injEq] at hs
  obtain ⟨h1, h2, h3⟩ := hs
  refine ⟨by unfold Linked; decide, tr, steps_exec htr, x, List.mem_of_getElem? hx, fun hsound => ?_⟩
  obtain ⟨l, hl, -, htile⟩ := hsound.tiling
  have hf : Filled x.2.heap.mem x.2.heap.heapStart [⟨15000, false⟩] := by
    rw [h1]
    exact ⟨h2, trivial⟩
  have hsize := htile _ (hf.mem_chain (by rw [h1]; decide) hl)
  rw [h1, extent_cons, extent_nil, Nat.add_zero, h3, if_neg (by decide)] at hsize
  revert hsize
  decide

end HaOS.Alloc
