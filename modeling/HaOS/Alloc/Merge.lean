import HaOS.Alloc.Tiling
import Mathlib.Data.List.Chain

/-!
# What `free_alloc` leaves, and what it does not merge

* `inUse a bs` : the blocks in use, with their places; `Releases.inUse` : giving a block back takes only it from them;
* `freeAlloc_frame` : a call on a live block frees its bytes and leaves the rest of the heap as it was;
* `Separate bs` : no two free blocks next to each other; `Call.Behind` : the frees that spoil this, of a block behind a
  free one;
* `request` : any call of a run, whatever its size; `merged_of_reaches` : while no free comes behind a free block, the
  free blocks stay apart, and giving back all of them leaves one.
-/

namespace HaOS.Alloc

variable {h h' : Heap} {s t : State} {bs bs' cs pre post : List Block} {b c : Block} {a o o' p n size start walk depth : Nat}
  {mem : Nat → AllocBlock} {call : Call}

/-! ## The blocks in use -/

def inUse : Nat → List Block → List (Nat × Nat)
  | _, [] => []
  | a, b :: bs => if b.free then inUse (a + b.size) bs else (a, b.size) :: inUse (a + b.size) bs

theorem inUse_append : inUse a (bs ++ cs) = inUse a bs ++ inUse (a + extent bs) cs := by
  induction bs generalizing a with
  | nil => rfl
  | cons b bs ih =>
      rw [List.cons_append, inUse, inUse, ih, extent_cons, Nat.add_assoc]
      split_ifs <;> rfl

theorem mem_inUse {x : Nat × Nat} : x ∈ inUse a bs ↔ ∃ o b, At o b bs ∧ b.free = false ∧ x = (a + o, b.size) := by
  induction bs generalizing a with
  | nil => exact ⟨nofun, fun ⟨_, _, h, _⟩ => nomatch h⟩
  | cons c bs ih =>
      have hrest : x ∈ inUse (a + c.size) bs ↔
          ∃ o b, (∃ o', o = c.size + o' ∧ At o' b bs) ∧ b.free = false ∧ x = (a + o, b.size) := by
        rw [ih]
        constructor
        · intro ⟨o, b, hb, hf, hx⟩
          exact ⟨_, b, ⟨o, rfl, hb⟩, hf, by rw [hx, Nat.add_assoc]⟩
        · intro ⟨_, b, ⟨o, ho, hb⟩, hf, hx⟩
          exact ⟨o, b, hb, hf, by rw [hx, ho, Nat.add_assoc]⟩
      simp only [at_cons, or_and_right, exists_or, ← hrest]
      rw [inUse]
      cases hc : c.free with
      | true =>
          refine ⟨.inr, fun h => h.elim (fun ⟨_, _, ⟨_, hb⟩, hf, _⟩ => ?_) id⟩
          rw [hb, hc] at hf
          cases hf
      | false =>
          rw [if_neg (by simp), List.mem_cons]
          refine or_congr_left ⟨fun hx => ⟨0, c, ⟨rfl, rfl⟩, hc, hx⟩, fun ⟨_, _, ⟨ho, hb⟩, _, hx⟩ => ?_⟩
          rw [hx, ho, hb]
          rfl

theorem le_of_mem_inUse {x : Nat × Nat} (hx : x ∈ inUse a bs) : a ≤ x.1 ∧ x.1 + x.2 ≤ a + extent bs := by
  obtain ⟨o, b, hb, -, rfl⟩ := mem_inUse.mp hx
  have hle := hb.le_extent
  constructor
  · exact Nat.le_add_right _ _
  · show a + o + b.size ≤ a + extent bs
    omega

theorem Releases.inUse (h : Releases o bs bs') (hpos : ∀ b ∈ bs, 0 < b.size) :
    inUse a bs' = (inUse a bs).filter (·.1 ≠ a + o) := by
  have hbefore : ∀ pre : List Block, (∀ c ∈ pre, 0 < c.size) →
      (Alloc.inUse a pre).filter (·.1 ≠ a + extent pre) = Alloc.inUse a pre := by
    intro pre hpre
    refine List.filter_eq_self.mpr fun x hx => decide_eq_true ?_
    obtain ⟨o, c, hc, -, rfl⟩ := mem_inUse.mp hx
    have hle := hc.le_extent
    have hc0 := hpre c hc.mem
    show a + o ≠ a + extent pre
    omega
  have hbehind : ∀ a' cs, a + o < a' → (Alloc.inUse a' cs).filter (·.1 ≠ a + o) = Alloc.inUse a' cs := by
    intro a' cs ha'
    refine List.filter_eq_self.mpr fun x hx => decide_eq_true ?_
    have hle := (le_of_mem_inUse hx).1
    omega
  have hown : ∀ b : Block, 0 < b.size → ∀ cs, (Alloc.inUse (a + o) (b :: cs)).filter (·.1 ≠ a + o) =
      Alloc.inUse (a + o + b.size) cs := by
    intro b hb cs
    rw [Alloc.inUse]
    split_ifs
    · exact hbehind _ _ (by omega)
    · rw [List.filter_cons, if_neg (by simp)]
      exact hbehind _ _ (by omega)
  cases h with
  | @merge pre post b c hc =>
      have hb := hpos b (by simp)
      rw [inUse_append, inUse_append, List.filter_append, hbefore pre fun d hd => hpos d (by simp [hd]), hown b hb,
        Alloc.inUse, if_pos rfl, Alloc.inUse, if_pos hc, Nat.add_assoc _ b.size c.size]
  | @keep pre post b hnext =>
      have hb := hpos b (by simp)
      rw [inUse_append, inUse_append, List.filter_append, hbefore pre fun d hd => hpos d (by simp [hd]), hown b hb,
        Alloc.inUse, if_pos rfl]

theorem At.unique (hpos : ∀ d ∈ bs, 0 < d.size) (hb : At o b bs) (hc : At o c bs) : b = c := by
  induction hb with
  | head =>
      rcases at_cons.mp hc with ⟨-, rfl⟩ | ⟨k, hk, -⟩
      · rfl
      · have := hpos _ List.mem_cons_self
        omega
  | @tail o b d bs _ ih =>
      rcases at_cons.mp hc with ⟨hk, -⟩ | ⟨k, hk, hc'⟩
      · have := hpos d List.mem_cons_self
        omega
      · obtain rfl : k = o := by omega
        exact ih (fun e he => hpos e (List.mem_cons_of_mem _ he)) hc'

/-- The bytes given back belong to a free block. -/
theorem Releases.freed (h : Releases o bs bs') (hpos : ∀ d ∈ bs, 0 < d.size) (hb : At o b bs) :
    ∃ c, At o c bs' ∧ c.free = true ∧ b.size ≤ c.size := by
  have hat : ∀ (pre : List Block) c post, At (extent pre) c (pre ++ c :: post) :=
    fun pre c post => at_append.mpr (.inr ⟨0, rfl, .head⟩)
  cases h with
  | @merge pre post d c hc =>
      rw [hb.unique hpos (hat pre d _)]
      exact ⟨_, hat .., rfl, Nat.le_add_right _ _⟩
  | @keep pre post d hnext =>
      rw [hb.unique hpos (hat pre d _)]
      exact ⟨_, hat .., rfl, Nat.le_refl _⟩

/-- Giving back a block in use returns a heap of the same size, in which the block's bytes are free and the other blocks in
use are where they were, in the same order. -/
theorem freeAlloc_frame (walk : Nat) (ht : Tiled h bs) (htop : h.heapStart + h.heapSize < 2 ^ 64) (hb : At o b bs)
    (hused : b.free = false) :
    ∃ h' bs', freeAlloc walk h (h.heapStart + o + sizeofAllocBlock) = some h' ∧ Tiled h' bs' ∧
      h'.heapStart = h.heapStart ∧ h'.heapSize = h.heapSize ∧
      (∃ o' c, At o' c bs' ∧ c.free = true ∧ o' ≤ o ∧ o + b.size ≤ o' + c.size) ∧
      (h.heapStart + o, b.size) ∈ inUse h.heapStart bs ∧
      inUse h'.heapStart bs' = (inUse h.heapStart bs).filter (·.1 ≠ h.heapStart + o) := by
  obtain ⟨pre, post, rfl, rfl⟩ := hb.exists_append
  obtain ⟨h', hr⟩ : ∃ h', freeAlloc walk h (h.heapStart + extent pre + sizeofAllocBlock) = some h' := by
    rw [freeAlloc_eq]
    split_ifs <;> exact ⟨_, rfl⟩
  obtain ⟨hstart, hsize, bs', hrel, ht'⟩ := freeAlloc_refines ht htop hr
  obtain ⟨c, hc, hfree, hle⟩ := hrel.freed ht.pos hb
  refine ⟨h', bs', hr, ht', hstart, hsize, ⟨_, c, hc, hfree, Nat.le_refl _, by omega⟩, ?_, ?_⟩
  · exact mem_inUse.mpr ⟨_, b, hb, hused, rfl⟩
  · rw [hstart]
    exact hrel.inUse ht.pos

/-- A heap of one block in use, which is given back. -/
theorem freeAlloc_frame_fullPage : ∃ h' bs', freeAlloc 0
      ⟨fun _ => ⟨0x1000, 0, 0⟩, 0xFFFFFFFF80200000, 0xFFFFFFFF80200000, 0x1000⟩ (0xFFFFFFFF80200000 + 0 + sizeofAllocBlock) =
        some h' ∧ Tiled h' bs' ∧ h'.heapStart = 0xFFFFFFFF80200000 ∧ h'.heapSize = 0x1000 ∧
      (∃ o' c, At o' c bs' ∧ c.free = true ∧ o' ≤ 0 ∧ 0 + 0x1000 ≤ o' + c.size) ∧
      (0xFFFFFFFF80200000 + 0, 0x1000) ∈ inUse 0xFFFFFFFF80200000 [⟨0x1000, false⟩] ∧
      inUse h'.heapStart bs' = (inUse 0xFFFFFFFF80200000 [⟨0x1000, false⟩]).filter (·.1 ≠ 0xFFFFFFFF80200000 + 0) :=
  @freeAlloc_frame ⟨fun _ => ⟨0x1000, 0, 0⟩, 0xFFFFFFFF80200000, 0xFFFFFFFF80200000, 0x1000⟩ [⟨0x1000, false⟩]
    ⟨0x1000, false⟩ 0 0 ⟨rfl, rfl, by simp [sizeofAllocBlock], by decide⟩ (by decide) .head rfl

theorem mergeNext_available (h : Heap) (block nextBlock x : Nat) :
    ((mergeNext h block nextBlock).mem x).available = (h.mem x).available := by
  have hstore : ∀ (g : Heap) (a size next : Nat),
      ((g.store a ⟨size, (g.mem a).available, next⟩).mem x).available = (g.mem x).available := by
    intro g a size next
    by_cases hx : x = a
    · rw [hx, Heap.mem_store]
    · rw [Heap.mem_store_ne _ _ hx]
  unfold mergeNext
  split_ifs
  · exact (hstore _ nextBlock _ 0).trans (hstore h block _ _)
  · rfl

theorem freeAlloc_available (hp : p ≠ 0) (hr : freeAlloc walk h p = some h') :
    (h'.mem (qsub p sizeofAllocBlock)).available = 1 := by
  rw [freeAlloc_eq, if_neg hp, Option.some.injEq] at hr
  rw [← hr, mergeNext_available, Heap.mem_store]

/-- No other block is marked. -/
theorem freeAlloc_available_ne (hp : p ≠ 0) (hr : freeAlloc walk h p = some h') {x : Nat}
    (hx : x ≠ qsub p sizeofAllocBlock) : (h'.mem x).available = (h.mem x).available := by
  rw [freeAlloc_eq, if_neg hp, Option.some.injEq] at hr
  rw [← hr, mergeNext_available, Heap.mem_store_ne _ _ hx]

/-! ## Neighbours -/

def Separate (bs : List Block) : Prop := bs.IsChain fun b c => ¬ (b.free = true ∧ c.free = true)

def Coalesced (h : Heap) : Prop :=
  ∃ l, Lib.Chain h.next h.heapStart l ∧
    ∀ x ∈ l, ∀ y, h.next x = some y → ¬ ((h.mem x).available = 1 ∧ (h.mem y).available = 1)

theorem Laid.next (hl : Laid h.mem a (b :: c :: post)) (ha : 0 < a) : h.next a = some (a + b.size) := by
  rw [Heap.next, laid_head hl, Block.next_header, nextOf, if_neg (List.cons_ne_nil _ _), if_neg (by omega)]

theorem Laid.separate_iff (hl : Laid h.mem a bs) (ha : 0 < a) :
    (∀ x ∈ starts a bs, ∀ y, h.next x = some y → ¬ ((h.mem x).available = 1 ∧ (h.mem y).available = 1)) ↔
      Separate bs := by
  induction bs generalizing a with
  | nil => exact hl.elim
  | cons b bs ih =>
      cases bs with
      | nil =>
          refine iff_of_true (fun x hx y hy => ?_) (List.isChain_singleton _)
          rw [starts, starts, List.mem_singleton] at hx
          rw [hx, Heap.next, laid_head hl, Block.next_header, nextOf, if_pos rfl, if_pos rfl] at hy
          cases hy
      | cons c post =>
          have htail := laid_tail hl (List.cons_ne_nil _ _)
          have hb := laid_head hl
          have hc := laid_head htail
          rw [starts, List.forall_mem_cons, ih htail (by omega), hl.next ha]
          unfold Separate
          rw [List.isChain_cons_cons]
          refine and_congr_left fun _ => ?_
          simp only [Option.some.injEq, forall_eq', hb, hc, Block.available_header]

theorem Tiled.coalesced_iff (ht : Tiled h bs) : Coalesced h ↔ Separate bs := by
  have hchain := ht.laid.chain ht.start
  rw [← ht.laid.separate_iff ht.start]
  constructor
  · intro ⟨l, hl, hne⟩
    rwa [hl.unique hchain] at hne
  · intro hne
    exact ⟨_, hchain, hne⟩

theorem separate_append : Separate (bs ++ cs) ↔ Separate bs ∧ Separate cs ∧
    ∀ b ∈ bs.getLast?, ∀ c ∈ cs.head?, ¬ (b.free = true ∧ c.free = true) := List.isChain_append

theorem separate_cons : Separate (b :: bs) ↔ (∀ c ∈ bs.head?, ¬ (b.free = true ∧ c.free = true)) ∧ Separate bs :=
  List.isChain_cons

theorem Allocates.separate (h : Allocates n bs o bs') (hs : Separate bs) : Separate bs' := by
  induction h with
  | @take pre post b _ hb _ =>
      obtain ⟨hpre, hrest, -⟩ := separate_append.mp hs
      obtain ⟨-, hpost⟩ := separate_cons.mp hrest
      refine separate_append.mpr ⟨hpre, separate_cons.mpr ⟨?_, hpost⟩, ?_⟩
      · simp
      · simp
  | @split pre post b _ hb _ =>
      obtain ⟨hpre, hrest, -⟩ := separate_append.mp hs
      obtain ⟨hhead, hpost⟩ := separate_cons.mp hrest
      -- the remainder has the neighbour that the block had
      have hrem : Separate (⟨b.size - n, true⟩ :: post) := by
        refine separate_cons.mpr ⟨fun c hc => ?_, hpost⟩
        have hne := hhead c hc
        rwa [hb.1] at hne
      refine separate_append.mpr ⟨hpre, separate_cons.mpr ⟨?_, hrem⟩, ?_⟩
      · simp
      · simp
  | @extend pre b _ hb _ _ =>
      obtain ⟨hpre, -, -⟩ := separate_append.mp hs
      refine separate_append.mpr ⟨hpre, separate_cons.mpr ⟨?_, List.isChain_singleton _⟩, ?_⟩
      · simp
      · simp
  | @grow pre b _ _ _ _ ih =>
      apply ih
      obtain ⟨hpre, -, hlast⟩ := separate_append.mp hs
      exact separate_append.mpr ⟨hpre, List.isChain_singleton _, by simpa using hlast⟩

/-- A free block ends at the offset `o`, and another one starts there. -/
def FreeBefore (o : Nat) (bs : List Block) : Prop :=
  ∃ pre d b post, bs = pre ++ d :: b :: post ∧ o = extent pre + d.size ∧ d.free = true

/-- A place in the list is known by the bytes in front of it. -/
theorem prefix_unique {pre' post' : List Block} {b' : Block} (heq : pre ++ b :: post = pre' ++ b' :: post')
    (hext : extent pre = extent pre') (hpos : ∀ d ∈ pre ++ b :: post, 0 < d.size) : pre = pre' := by
  induction pre generalizing pre' with
  | nil =>
      cases pre' with
      | nil => rfl
      | cons d pre' =>
          have hd := hpos d (by rw [heq]; simp)
          rw [extent_nil, extent_cons] at hext
          omega
  | cons c pre ih =>
      cases pre' with
      | nil =>
          have hc := hpos c (by simp)
          rw [extent_nil, extent_cons] at hext
          omega
      | cons d pre' =>
          rw [List.cons_append, List.cons_append, List.cons.injEq] at heq
          obtain ⟨rfl, heq⟩ := heq
          rw [extent_cons, extent_cons, Nat.add_left_cancel_iff] at hext
          rw [ih heq hext fun e he => hpos e (List.mem_cons_of_mem _ he)]

/-- A free block put behind `pre` has a free neighbour there exactly when one ends `pre`. -/
theorem separate_freed (hpos : ∀ d ∈ pre ++ b :: post, 0 < d.size) (hpre : Separate pre) (hc : c.free = true)
    (hrest : Separate (c :: cs)) : Separate (pre ++ c :: cs) ↔ ¬ FreeBefore (extent pre) (pre ++ b :: post) := by
  rw [separate_append, and_iff_right hpre, and_iff_right hrest]
  constructor
  · intro hlast ⟨pre', d, b', post', heq, ho, hd⟩
    have hext : extent pre = extent (pre' ++ [d]) := by simpa using ho
    rw [show pre' ++ d :: b' :: post' = (pre' ++ [d]) ++ b' :: post' by simp] at heq
    rw [prefix_unique heq hext hpos] at hlast
    exact hlast d (by simp) c rfl ⟨hd, hc⟩
  · intro hnot d hd c' _ ⟨hdf, _⟩
    obtain ⟨pre', rfl⟩ : ∃ pre', pre = pre' ++ [d] := ⟨_, (List.dropLast_append_getLast? d hd).symm⟩
    exact hnot ⟨pre', d, b, post, by simp, by simp, hdf⟩

/-- Freeing makes free neighbours exactly behind a free block. -/
theorem Releases.separate_iff (h : Releases o bs bs') (hpos : ∀ d ∈ bs, 0 < d.size) (hs : Separate bs) :
    Separate bs' ↔ ¬ FreeBefore o bs := by
  cases h with
  | @merge pre post b c hc =>
      obtain ⟨hpre, hrest, -⟩ := separate_append.mp hs
      obtain ⟨hhead, hpost⟩ := separate_cons.mp (separate_cons.mp hrest).2
      refine separate_freed hpos hpre rfl (separate_cons.mpr ⟨fun d hd => ?_, hpost⟩)
      have hne := hhead d hd
      rwa [hc] at hne
  | @keep pre post b hnext =>
      obtain ⟨hpre, hrest, -⟩ := separate_append.mp hs
      refine separate_freed hpos hpre rfl (separate_cons.mpr ⟨fun d hd => ?_, (separate_cons.mp hrest).2⟩)
      rw [hnext d hd]
      simp

theorem mem_starts_iff {x : Nat} : x ∈ starts a bs ↔ ∃ pre b post, bs = pre ++ b :: post ∧ x = a + extent pre := by
  constructor
  · intro hx
    induction bs generalizing a with
    | nil => simp [starts] at hx
    | cons c bs ih =>
        rw [starts, List.mem_cons] at hx
        rcases hx with rfl | hx
        · exact ⟨[], c, bs, rfl, rfl⟩
        · obtain ⟨pre, b, post, rfl, rfl⟩ := ih hx
          exact ⟨c :: pre, b, post, rfl, by rw [extent_cons, Nat.add_assoc]⟩
  · rintro ⟨pre, b, post, rfl, rfl⟩
    exact mem_starts

def AvailableBefore (h : Heap) (y : Nat) : Prop :=
  ∃ l, Lib.Chain h.next h.heapStart l ∧ ∃ x ∈ l, h.next x = some y ∧ (h.mem x).available = 1

theorem Tiled.availableBefore_iff (ht : Tiled h bs) : AvailableBefore h (h.heapStart + o) ↔ FreeBefore o bs := by
  have hchain := ht.laid.chain ht.start
  constructor
  · intro ⟨l, hl, x, hx, hnext, havail⟩
    rw [hl.unique hchain] at hx
    obtain ⟨pre, d, post, rfl, rfl⟩ := mem_starts_iff.mp hx
    have hd := ht.header
    rw [hd, Block.available_header] at havail
    rw [Heap.next, hd, Block.next_header, nextOf] at hnext
    cases post with
    | nil => simp at hnext
    | cons b post =>
        rw [if_neg (List.cons_ne_nil _ _)] at hnext
        split_ifs at hnext with h0
        rw [Option.some.injEq] at hnext
        exact ⟨pre, d, b, post, rfl, by omega, havail⟩
  · rintro ⟨pre, d, b, post, rfl, rfl, hfree⟩
    have hl := ((laid_append (by simp)).mp ht.laid).2
    refine ⟨_, hchain, _, mem_starts, ?_, ?_⟩
    · rw [hl.next (by have := ht.start; omega), Nat.add_assoc]
    · rw [ht.header, Block.available_header]
      exact hfree

/-! ## Requests of any size -/

/-- One call that returns. The pages by which `new_alloc` enlarges the heap before it finds a block, at most `depth`, and
the heap that it leaves lie below the top of the address space; a pointer that is freed is `NULL` or live. -/
def request (walk depth : Nat) (s : State) : Call → Option State
  | .alloc size =>
    match newAlloc walk (depth + 1) s.heap size with
    | some (h, p) =>
      if s.heap.heapStart + s.heap.heapSize + 0x1000 * depth < 2 ^ 64 ∧ h.heapStart + h.heapSize < 2 ^ 64 then
        some (s.give h p size)
      else none
    | none => none
  | .free p =>
    if p = 0 ∨ s.live p ≠ none then
      (freeAlloc walk s.heap p).map fun h => ⟨h, Function.update s.live p none⟩
    else none

def Request (s : State) (c : Call) (t : State) : Prop := ∃ walk depth, request walk depth s c = some t

theorem reaches_requests {walk depth : Nat} : ∀ {cs : List Call} {s t : State},
    cs.foldlM (request walk depth) s = some t → Lib.Reaches Request s t
  | [], s, t, hr => by
      cases hr
      exact .refl s
  | c :: cs, s, t, hr => by
      rw [List.foldlM_cons, Option.bind_eq_bind, Option.bind_eq_some_iff] at hr
      obtain ⟨u, hu, hr⟩ := hr
      exact (reaches_requests hr).head ⟨walk, depth, hu⟩

def Call.Wraps : Call → Prop
  | .alloc size => 2 ^ 64 ≤ size + sizeofAllocBlock
  | .free _ => False

def Call.Behind (s : State) : Call → Prop
  | .alloc _ => False
  | .free p => AvailableBefore s.heap (p - sizeofAllocBlock)

/-- A request of a size that the arithmetic of `new_alloc` can take, or a free that has nothing to merge in front. -/
def Call.Plain (s : State) (c : Call) : Prop := ¬ c.Overruns s ∧ ¬ c.Wraps ∧ ¬ c.Behind s

/-- No two neighbouring blocks are available, and when all is given back, one block is left. -/
structure Merged (s : State) : Prop where
  coalesced : Coalesced s.heap
  single : (∀ p, s.live p = none) → s.heap.mem s.heap.heapStart = ⟨s.heap.heapSize, 1, 0⟩

/-- The free blocks are apart, and a caller holds each block in use. -/
structure Settled (s : State) (bs : List Block) : Prop extends Inv s bs where
  separate : Separate bs
  held : ∀ x ∈ inUse s.heap.heapStart bs, s.live (x.1 + sizeofAllocBlock) ≠ none

theorem settled_boot (hstart : Linked start) : Settled (.boot mem start) [⟨0x1000, true⟩] where
  toInv := inv_boot hstart
  separate := List.isChain_singleton _
  held x hx := by simp [inUse] at hx

theorem free_of_inUse (h : inUse a bs = []) : ∀ b ∈ bs, b.free = true := by
  intro b hb
  by_contra hused
  obtain ⟨pre, post, rfl⟩ := List.append_of_mem hb
  have hmem : (a + extent pre, b.size) ∈ inUse a (pre ++ b :: post) :=
    mem_inUse.mpr ⟨_, b, at_append.mpr (.inr ⟨0, rfl, .head⟩), Bool.eq_false_iff.mpr hused, rfl⟩
  rw [h] at hmem
  cases hmem

theorem Settled.merged (hs : Settled s bs) : Merged s where
  coalesced := hs.tiled.coalesced_iff.mpr hs.separate
  single hlive := by
    have hfree := free_of_inUse (List.eq_nil_iff_forall_not_mem.mpr fun x hx => hs.held x hx (hlive _))
    have hlaid := hs.tiled.laid
    have hsize := hs.tiled.size
    rcases bs with - | ⟨b, - | ⟨c, bs⟩⟩
    · exact hlaid.elim
    · rw [laid_head hlaid, Block.header, if_pos (hfree b List.mem_cons_self), ← hsize, extent_cons, extent_nil, nextOf,
        if_pos rfl, Nat.add_zero]
    · have hne := (separate_cons.mp hs.separate).1 c rfl
      exact absurd ⟨hfree b (by simp), hfree c (by simp)⟩ hne

theorem Allocates.only (ha : Allocates n bs o bs') (hb : At o' b bs') (hf : b.free = false) :
    o' = o ∨ ∃ c, At o' c bs ∧ c.free = false := by
  -- the second block of a cut is free, so what is in use of the two is the first
  have hcut : ∀ k m, At k b [⟨n, false⟩, ⟨m, true⟩] → k = 0 := by
    intro k m hk
    rcases at_cons.mp hk with ⟨hk, -⟩ | ⟨_, -, hk⟩
    · exact hk
    · rw [(at_singleton.mp hk).2] at hf
      cases hf
  induction ha with
  | @take pre post d _ _ _ =>
      rcases hb.replace [{ d with free := false }] [d] (fun _ => rfl) with hb' | ⟨k, rfl, hk⟩
      · exact .inr ⟨b, hb', hf⟩
      · exact .inl (by rw [(at_singleton.mp hk).1, Nat.add_zero])
  | @split pre post d _ hd hn =>
      have hext : extent [d] = extent [⟨n, false⟩, ⟨d.size - n, true⟩] := by
        simp only [extent_cons]
        omega
      rcases hb.replace [⟨n, false⟩, ⟨d.size - n, true⟩] [d] (fun _ => hext) with hb' | ⟨k, rfl, hk⟩
      · exact .inr ⟨b, hb', hf⟩
      · exact .inl (by rw [hcut k _ hk, Nat.add_zero])
  | @extend pre d _ _ _ _ =>
      rcases hb.replace [⟨n, false⟩, ⟨d.size - n + 0x1000, true⟩] [d] (fun hp => absurd rfl hp) with hb' | ⟨k, rfl, hk⟩
      · exact .inr ⟨b, hb', hf⟩
      · exact .inl (by rw [hcut k _ hk, Nat.add_zero])
  | @grow pre d _ _ _ _ ih =>
      rcases ih hb with ho | ⟨c, hc, hused⟩
      · exact .inl ho
      · rcases hc.replace [{ d with size := d.size + 0x1000 }] [d] (fun hp => absurd rfl hp) with hc' | ⟨k, rfl, hk⟩
        · exact .inr ⟨c, hc', hused⟩
        · obtain ⟨rfl, rfl⟩ := at_singleton.mp hk
          exact .inr ⟨d, at_append.mpr (.inr ⟨0, rfl, .head⟩), hused⟩

theorem Settled.alloc (hs : Settled s bs) (ha : Allocates (size + sizeofAllocBlock) bs o bs') (ht : Tiled h bs')
    (hstart : h.heapStart = s.heap.heapStart) (htop : h.heapStart + h.heapSize < 2 ^ 64) :
    Settled ⟨h, Function.update s.live (s.heap.heapStart + o + sizeofAllocBlock) (some size)⟩ bs' where
  toInv := hs.toInv.alloc ha ht hstart htop
  separate := ha.separate hs.separate
  held x hx := by
    obtain ⟨o', b, hb, hf, rfl⟩ := mem_inUse.mp hx
    simp only [hstart, Function.update_apply]
    split_ifs with heq
    · exact Option.some_ne_none _
    · rcases ha.only hb hf with rfl | ⟨c, hc, hused⟩
      · exact absurd rfl heq
      · exact hs.held (s.heap.heapStart + o', c.size) (mem_inUse.mpr ⟨o', c, hc, hused, rfl⟩)

theorem Settled.free (hs : Settled s bs) (hrel : Releases o bs bs') (ht : Tiled h bs')
    (hstart : h.heapStart = s.heap.heapStart) (hsize : h.heapSize = s.heap.heapSize) (hbefore : ¬ FreeBefore o bs) :
    Settled ⟨h, Function.update s.live (s.heap.heapStart + o + sizeofAllocBlock) none⟩ bs' where
  toInv := hs.toInv.free hrel ht hstart hsize
  separate := (hrel.separate_iff hs.tiled.pos hs.separate).mpr hbefore
  held x hx := by
    simp only [hstart] at hx ⊢
    rw [hrel.inUse hs.tiled.pos, List.mem_filter] at hx
    obtain ⟨hx, hne⟩ := hx
    have hne' : x.1 ≠ s.heap.heapStart + o := of_decide_eq_true hne
    rw [Function.update_of_ne (by omega)]
    exact hs.held x hx

theorem Tiled.not_fits (ht : Tiled h bs) (hn : h.heapSize < n) : ∀ c ∈ bs, ¬ c.Fits n := by
  intro c hc ⟨_, hle⟩
  obtain ⟨pre, post, rfl⟩ := List.append_of_mem hc
  have hext := ht.size
  rw [extent_append, extent_cons] at hext
  omega

/-- What does not fit below the top of the address space is not served. -/
theorem newAlloc_large (hsize : size ≠ 0) (hn : 2 ^ 31 ≤ required size) : ∀ (depth : Nat) {h : Heap} {init : List Block}
    {last : Block}, Tiled h (init ++ [last]) → 2 ^ 64 - 2 ^ 31 ≤ h.heapStart →
    h.heapStart + h.heapSize + 0x1000 * depth < 2 ^ 64 → newAlloc walk (depth + 1) h size = none := by
  intro depth
  induction depth with
  | zero =>
      intro h init last ht hbase htop
      rw [newAlloc_grow ht.laid ht.start hsize (ht.not_fits (by omega))]
      split_ifs <;> rfl
  | succ depth ih =>
      intro h init last ht hbase htop
      replace htop : h.heapStart + (h.heapSize + 0x1000) + 0x1000 * depth < 2 ^ 64 := by omega
      have hqword : qword (h.heapSize + 0x1000) = h.heapSize + 0x1000 := qword_of_lt (by omega)
      have hg := ht.grow (e := h.heapStart + extent init) (by omega)
      rw [newAlloc_grow ht.laid ht.start hsize (ht.not_fits (by omega)), ite_eq_right_iff]
      intro _
      refine ih hg (by rwa [heapStart_grow]) ?_
      rwa [heapStart_grow, heapSize_grow, hqword]

theorem Settled.free_cases (hs : Settled s bs) (hr : Request s (.free p) t) :
    t = s ∧ p = 0 ∨ ∃ o bs' h, p = s.heap.heapStart + o + sizeofAllocBlock ∧ h.heapStart = s.heap.heapStart ∧
      h.heapSize = s.heap.heapSize ∧ Releases o bs bs' ∧ Tiled h bs' ∧ t = ⟨h, Function.update s.live p none⟩ := by
  obtain ⟨walk, depth, hr⟩ := hr
  rw [request, Option.ite_none_right_eq_some, Option.map_eq_some_iff] at hr
  obtain ⟨hp, h, hfree, rfl⟩ := hr
  cases hlive : s.live p with
  | some size =>
      obtain ⟨o, bs', rfl, hstart, hsize, hrel, ht⟩ := hs.toInv.releases hlive hfree
      exact .inr ⟨o, bs', h, rfl, hstart, hsize, hrel, ht, rfl⟩
  | none =>
      obtain rfl : p = 0 := hp.resolve_right fun hne => hne hlive
      rw [freeAlloc_eq, if_pos rfl, Option.some.injEq] at hfree
      refine .inl ⟨?_, rfl⟩
      rw [← hfree, ← hlive, Function.update_eq_self]

theorem Settled.behind_iff (hs : Settled s bs) :
    (Call.free (s.heap.heapStart + o + sizeofAllocBlock)).Behind s ↔ FreeBefore o bs := by
  rw [Call.Behind, Nat.add_sub_cancel, hs.tiled.availableBefore_iff]

theorem Settled.step (hs : Settled s bs) (hc : call.Plain s) (hr : Request s call t) : ∃ bs', Settled t bs' := by
  obtain ⟨hover, hwrap, hbehind⟩ := hc
  cases call with
  | free p =>
      rcases hs.free_cases hr with ⟨rfl, -⟩ | ⟨o, bs', h, rfl, hstart, hsize, hrel, ht, rfl⟩
      · exact ⟨bs, hs⟩
      · exact ⟨bs', hs.free hrel ht hstart hsize (hs.behind_iff.not.mp hbehind)⟩
  | alloc size =>
      obtain ⟨walk, depth, hr⟩ := hr
      rw [request] at hr
      split at hr
      case h_2 => cases hr
      case h_1 h p hnew =>
        rw [Option.ite_none_right_eq_some, Option.some.injEq] at hr
        obtain ⟨⟨hdepth, htop⟩, rfl⟩ := hr
        by_cases hsize : size = 0
        · subst hsize
          obtain ⟨rfl, rfl⟩ := newAlloc_zero hnew
          exact ⟨bs, hs⟩
        · have hn : size + sizeofAllocBlock < 2 ^ 64 := not_le.mp hwrap
          by_cases hsmall : size + sizeofAllocBlock < 2 ^ 31
          · obtain ⟨hstart, -, o, bs', ha, ht, rfl⟩ := hs.toInv.served hsize hsmall hover hnew htop
            have hpos := hs.tiled.start
            rw [State.give, if_neg (by omega)]
            exact ⟨bs', hs.alloc ha ht hstart htop⟩
          · obtain ⟨init, last, rfl⟩ := hs.tiled.eq_concat
            rw [newAlloc_large hsize (by rw [required_of_lt hn]; omega) depth hs.tiled hs.base hdepth] at hnew
            cases hnew

/-- While no request wraps or overruns and no block is freed behind an available one, the free blocks stay apart, and
giving everything back leaves one; a free behind an available block leaves two free neighbours. -/
theorem merged_of_reaches (hstart : Linked start) (hr : Lib.Reaches (Lib.Guarded Call.Plain Request) (.boot mem start) s) :
    Merged s ∧ ∀ p t, Request s (.free p) t → (Coalesced t.heap ↔ ¬ (Call.free p).Behind s) := by
  obtain ⟨bs, hs⟩ := hr.invariant (P := fun s => ∃ bs, Settled s bs)
    (fun s c t hs hr => hs.choose_spec.step hr.1 hr.2) ⟨_, settled_boot hstart⟩
  refine ⟨hs.merged, fun p t hr => ?_⟩
  rcases hs.free_cases hr with ⟨rfl, rfl⟩ | ⟨o, bs', h, rfl, hstart, -, hrel, ht, rfl⟩
  · refine iff_of_true hs.merged.coalesced ?_
    rintro ⟨l, -, x, -, hnext, -⟩
    rw [Heap.next] at hnext
    split_ifs at hnext with h0
    exact h0 (Option.some.inj hnext)
  · rw [hs.behind_iff, ht.coalesced_iff]
    exact hrel.separate_iff hs.tiled.pos hs.separate

theorem merged_of_reaches_boot : Merged (State.boot (fun _ => ⟨0, 0, 0⟩) 0xFFFFFFFF80200000) ∧
    ∀ p t, Request (State.boot (fun _ => ⟨0, 0, 0⟩) 0xFFFFFFFF80200000) (.free p) t →
      (Coalesced t.heap ↔ ¬ (Call.free p).Behind (State.boot (fun _ => ⟨0, 0, 0⟩) 0xFFFFFFFF80200000)) :=
  merged_of_reaches (by unfold Linked; decide) (Lib.Reaches.refl _)

def forwardRun : Option State :=
  [Call.alloc 100, .alloc 100, .free 0xFFFFFFFF80200011, .free 0xFFFFFFFF80200086].foldlM (request 4 0)
    (.boot (fun _ => ⟨0, 0, 0⟩) 0xFFFFFFFF80200000)

/-- The first of them stays apart from the rest of the page, though no block is in use any more. -/
theorem not_merged_forwardRun : Linked 0xFFFFFFFF80200000 ∧
    ∃ s, Lib.Reaches Request (.boot (fun _ => ⟨0, 0, 0⟩) 0xFFFFFFFF80200000) s ∧ ¬ Coalesced s.heap ∧
      s.heap.mem s.heap.heapStart = ⟨117, 1, 0xFFFFFFFF80200075⟩ ∧
      s.heap.mem 0xFFFFFFFF80200075 = ⟨0x1000 - 117, 1, 0⟩ := by
  obtain ⟨s, hs⟩ : ∃ s, forwardRun = some s := Option.isSome_iff_exists.mp (by decide +kernel)
  have hmem : (forwardRun.map fun s => (s.heap.heapStart, s.heap.mem 0xFFFFFFFF80200000, s.heap.mem 0xFFFFFFFF80200075)) =
      some (0xFFFFFFFF80200000, ⟨117, 1, 0xFFFFFFFF80200075⟩, ⟨0x1000 - 117, 1, 0⟩) := by decide +kernel
  rw [hs, Option.map_some, Option.some.injEq, Prod.mk.injEq, Prod.mk.injEq] at hmem
  obtain ⟨hstart, hfirst, hsecond⟩ := hmem
  refine ⟨by unfold Linked; decide, s, reaches_requests hs, ?_, by rw [hstart, hfirst], hsecond⟩
  intro ⟨l, hl, hne⟩
  have hnext : s.heap.next s.heap.heapStart = some 0xFFFFFFFF80200075 := by
    rw [Heap.next, hstart, hfirst]
    rfl
  exact hne _ hl.head_mem _ hnext ⟨by rw [hstart, hfirst], by rw [hsecond]⟩

end HaOS.Alloc
