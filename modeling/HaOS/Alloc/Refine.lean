import HaOS.Alloc.Blocks

/-!
# `new_alloc` and `free_alloc` on the block list

* `scan_found`, `scan_exhausted` : the walk stops at the first block that fits, or at the end of the list;
* `carve_take`, `carve_split` : cutting a block; `Overruns` : the cut that spoils the list;
* `newAlloc_refines` : a call that returns is a first-fit allocation on the block list, unless it `Overruns`;
* `freeAlloc_refines` : a call on the payload of a block gives that block back.
-/

namespace HaOS.Alloc

variable {h h' : Heap} {bs pre post : List Block} {b last : Block} {size walk depth a e p n : Nat}

theorem required_of_lt (h : size + sizeofAllocBlock < 2 ^ 64) : required size = size + sizeofAllocBlock := qword_of_lt h

/-! ## The walk over the list -/

/-- What `scan` does with the block at `current` when it is free and large enough. -/
def pick (h : Heap) (current size : Nat) : Scan :=
  if (h.mem current).size = required size then
    .found (h.store current { h.mem current with available := 0 }) (qword (current + sizeofAllocBlock))
  else
    match carve h current size with
    | some (h, ptr) => .found h ptr
    | none => .stuck

theorem scan_fits (ha : a ≠ 0) (hb : (h.mem a).available = 1 ∧ required size ≤ (h.mem a).size) :
    scan size (walk + 1) h a e = pick h a size := by
  rw [scan, if_neg ha]
  unfold pick
  by_cases heq : (h.mem a).size = required size
  · simp [hb.1, heq]
  · have hlt : required size < (h.mem a).size := by omega
    cases carve h a size <;> simp only [hb.1, heq, hlt, and_false, and_self, if_true, if_false]

theorem scan_skip (ha : a ≠ 0) (hb : ¬ ((h.mem a).available = 1 ∧ required size ≤ (h.mem a).size)) :
    scan size (walk + 1) h a e = if (h.mem a).next = 0 then scan size walk { h with heapEnd := a } 0 a
      else scan size walk h (h.mem a).next e := by
  rw [scan, if_neg ha]
  have h1 : ¬ ((h.mem a).available = 1 ∧ (h.mem a).size = required size) := fun hc => hb ⟨hc.1, Nat.le_of_eq hc.2.symm⟩
  have h2 : ¬ ((h.mem a).available = 1 ∧ required size < (h.mem a).size) := fun hc => hb ⟨hc.1, Nat.le_of_lt hc.2⟩
  simp only [h1, h2, if_false]
  split_ifs with hn
  · rw [hn]
  · rfl

theorem header_fits (next : Nat) :
    ((b.header next).available = 1 ∧ n ≤ (b.header next).size) ↔ b.Fits n := by
  simp [Block.Fits]

theorem scan_next (hl : Laid h.mem a (b :: post)) (ha : 0 < a) (hp : post ≠ []) (hb : ¬ b.Fits (required size)) :
    scan size (walk + 1) h a e = scan size walk h (a + b.size) e := by
  have hm := laid_head hl
  rw [scan_skip (by omega) (by rwa [hm, header_fits]), hm, Block.next_header, nextOf, if_neg hp, if_neg (by omega)]

theorem scan_found (hl : Laid h.mem a (pre ++ b :: post)) (ha : 0 < a) (hpre : ∀ c ∈ pre, ¬ c.Fits (required size))
    (hb : b.Fits (required size)) :
    scan size walk h a e = if pre.length < walk then pick h (a + extent pre) size else .stuck := by
  induction pre generalizing a walk with
  | nil =>
      cases walk with
      | zero => rfl
      | succ walk =>
          rw [extent_nil, Nat.add_zero, if_pos (by simp)]
          exact scan_fits (by omega) (by rwa [laid_head hl, header_fits])
  | cons c pre ih =>
      cases walk with
      | zero => rfl
      | succ walk =>
          have hne : pre ++ b :: post ≠ [] := by simp
          rw [List.cons_append] at hl
          rw [scan_next hl ha hne (hpre c (by simp)), ih (laid_tail hl hne) (by omega) fun d hd => hpre d (by simp [hd]),
            extent_cons, Nat.add_assoc]
          simp only [List.length_cons, Nat.add_lt_add_iff_right]

theorem scan_exhausted (hl : Laid h.mem a (pre ++ [last])) (ha : 0 < a)
    (hno : ∀ c ∈ pre ++ [last], ¬ c.Fits (required size)) :
    scan size walk h a e = if pre.length + 1 < walk then
      .exhausted { h with heapEnd := a + extent pre } (a + extent pre) else .stuck := by
  induction pre generalizing a walk with
  | nil =>
      have hm := laid_head hl
      have hskip : ∀ walk, scan size (walk + 1) h a e = scan size walk { h with heapEnd := a } 0 a := fun walk => by
        rw [scan_skip (by omega) (by rw [hm, header_fits]; exact hno last (by simp)), hm]
        simp [nextOf]
      rcases walk with - | - | walk
      · rfl
      · rw [hskip]
        rfl
      · rw [hskip, scan, if_pos rfl, if_pos (by simp)]
        rfl
  | cons c pre ih =>
      cases walk with
      | zero => rfl
      | succ walk =>
          have hne : pre ++ [last] ≠ [] := by simp
          rw [List.cons_append] at hl
          rw [scan_next hl ha hne (hno c (by simp)), ih (laid_tail hl hne) (by omega) fun d hd => hno d (by simp_all),
            extent_cons, Nat.add_assoc]
          simp only [List.length_cons, Nat.add_lt_add_iff_right]

/-- Some block fits, and then there is a first one; or none does. -/
theorem first_fit (n : Nat) (bs : List Block) :
    (∃ pre b post, bs = pre ++ b :: post ∧ (∀ c ∈ pre, ¬ c.Fits n) ∧ b.Fits n) ∨ ∀ c ∈ bs, ¬ c.Fits n := by
  cases hf : bs.find? fun b => b.Fits n with
  | none => exact .inr fun c hc => by simpa using List.find?_eq_none.mp hf c hc
  | some b =>
      obtain ⟨hb, pre, post, rfl, hpre⟩ := List.find?_eq_some_iff_append.mp hf
      exact .inl ⟨pre, b, post, rfl, fun c hc => by simpa using hpre c hc, by simpa using hb⟩

/-! ## Cutting a block -/

/-- `h'` is `h` with the block at `a` cut after `n` bytes, the rest being a free block of size `r`. -/
structure Cut (h h' : Heap) (a n r next : Nat) : Prop where
  start : h'.heapStart = h.heapStart
  first : h'.mem a = ⟨n, 0, a + n⟩
  second : h'.mem (a + n) = ⟨r, 1, next⟩
  other : ∀ x, x ≠ a → x ≠ a + n → h'.mem x = h.mem x

/-- The heap gets a page when a second block of the requested size would not fit behind the first. -/
def Extends (h : Heap) (a n : Nat) : Prop := qword (h.heapStart + h.heapSize) < qword (a + n + n)

instance (h : Heap) (a n : Nat) : Decidable (Extends h a n) := inferInstanceAs (Decidable (_ < _))

theorem carve_take {s next : Nat} (hb : h.mem a = ⟨s, 1, next⟩) (hn : size + sizeofAllocBlock < 2 ^ 31)
    (hns : size + sizeofAllocBlock ≤ s) (hs : s < size + sizeofAllocBlock + sizeofAllocBlock)
    (ha : a + sizeofAllocBlock < 2 ^ 64) :
    carve h a size = some (h.store a ⟨s, 0, next⟩, a + sizeofAllocBlock) := by
  simp only [sizeofAllocBlock] at *
  have hreq : required size = size + 17 := qword_of_lt (by simp only [sizeofAllocBlock]; omega)
  have hrem : dword (qsub s (size + 17)) < 17 := by
    rw [qsub_of_le (by omega) hns, dword_of_lt (by omega)]
    omega
  simp only [carve, hb, hreq, dword_of_lt (show size + 17 < 2 ^ 32 by omega), sizeofAllocBlock, if_pos hrem, qword_of_lt ha]

theorem carve_split {s next : Nat} (hb : h.mem a = ⟨s, 1, next⟩) (hn : size + sizeofAllocBlock < 2 ^ 31)
    (hns : size + sizeofAllocBlock + sizeofAllocBlock ≤ s) (hs : s < 2 ^ 32) (ha : a + s < 2 ^ 64) :
    ∃ h', carve h a size = some (h', a + sizeofAllocBlock) ∧
      h'.heapSize = (if Extends h a (size + sizeofAllocBlock) then qword (h.heapSize + 0x1000) else h.heapSize) ∧
      Cut h h' a (size + sizeofAllocBlock) (if Extends h a (size + sizeofAllocBlock) then
        dword (qsub (qword (h.heapStart + qword (h.heapSize + 0x1000))) (a + (size + sizeofAllocBlock)))
        else s - (size + sizeofAllocBlock)) next := by
  have h17 : sizeofAllocBlock = 17 := rfl
  have hreq : required size = size + sizeofAllocBlock := required_of_lt (by omega)
  generalize hm : size + sizeofAllocBlock = n at *
  have hrem : dword (qsub s n) = s - n := by rw [qsub_of_le (by omega) (by omega), dword_of_lt (by omega)]
  have hne : a + n ≠ a := by omega
  have hn0 : n ≠ 0 := by omega
  rw [carve, hb, hreq, dword_of_lt (show n < 2 ^ 32 by omega), hrem]
  simp only [if_neg (show ¬ s - n < sizeofAllocBlock by omega), qword_of_lt (show a + n < 2 ^ 64 by omega),
    qword_of_lt (show a + sizeofAllocBlock < 2 ^ 64 by omega), Heap.heapStart_store, Heap.heapSize_store,
    if_neg (fun hc : a + n ≠ 0 ∧ a = a + n => hne hc.2.symm)]
  by_cases he : Extends h a n
  · rw [if_pos he, if_pos he]
    unfold Extends at he
    simp only [if_pos he]
    exact ⟨_, rfl, rfl, rfl, by simp [hn0], by simp [hn0], fun x h1 h2 => by simp [h1, h2]⟩
  · rw [if_neg he, if_neg he]
    unfold Extends at he
    simp only [if_neg he]
    exact ⟨_, rfl, rfl, rfl, by simp [hn0], by simp [hn0], fun x h1 h2 => by simp [h1, h2]⟩

/-- Taking a block leaves the start of the heap and adds at most a page to it. -/
theorem pick_heap (hr : pick h a size = .found h' p) :
    h'.heapStart = h.heapStart ∧ (h'.heapSize = h.heapSize ∨ h'.heapSize = qword (h.heapSize + 0x1000)) := by
  unfold pick at hr
  split at hr
  · simp only [Scan.found.injEq] at hr
    obtain ⟨rfl, -⟩ := hr
    exact ⟨rfl, .inl rfl⟩
  · split at hr
    · rename_i hc
      simp only [Scan.found.injEq] at hr
      obtain ⟨rfl, rfl⟩ := hr
      unfold carve at hc
      simp only at hc
      split at hc
      · simp only [Option.some.injEq, Prod.mk.injEq] at hc
        obtain ⟨rfl, -⟩ := hc
        exact ⟨rfl, .inl rfl⟩
      · split at hc
        · cases hc
        · simp only [Option.some.injEq, Prod.mk.injEq] at hc
          obtain ⟨rfl, -⟩ := hc
          exact ⟨rfl, (ite_eq_or_eq _ _ _).symm⟩
    · cases hr

theorem pick_take {s next : Nat} (hb : h.mem a = ⟨s, 1, next⟩) (hn : size + sizeofAllocBlock < 2 ^ 31)
    (hns : size + sizeofAllocBlock ≤ s) (hs : s < size + sizeofAllocBlock + sizeofAllocBlock)
    (ha : a + sizeofAllocBlock < 2 ^ 64) :
    pick h a size = .found (h.store a ⟨s, 0, next⟩) (a + sizeofAllocBlock) := by
  unfold pick
  rw [carve_take hb hn hns hs ha, qword_of_lt ha, hb]
  simp

theorem pick_split {s next : Nat} (hb : h.mem a = ⟨s, 1, next⟩) (hn : size + sizeofAllocBlock < 2 ^ 31)
    (hns : size + sizeofAllocBlock + sizeofAllocBlock ≤ s) (hs : s < 2 ^ 32) (ha : a + s < 2 ^ 64) :
    ∃ h', pick h a size = .found h' (a + sizeofAllocBlock) ∧
      h'.heapSize = (if Extends h a (size + sizeofAllocBlock) then qword (h.heapSize + 0x1000) else h.heapSize) ∧
      Cut h h' a (size + sizeofAllocBlock) (if Extends h a (size + sizeofAllocBlock) then
        dword (qsub (qword (h.heapStart + qword (h.heapSize + 0x1000))) (a + (size + sizeofAllocBlock)))
        else s - (size + sizeofAllocBlock)) next := by
  obtain ⟨h', hc, hcut⟩ := carve_split hb hn hns hs ha
  refine ⟨h', ?_, hcut⟩
  have h17 : sizeofAllocBlock = 17 := rfl
  have hreq : required size = size + sizeofAllocBlock := required_of_lt (by omega)
  unfold pick
  rw [hc, hb, hreq, if_neg (by simp only; omega)]

/-! ## `new_alloc` on the block list -/

/-- The cut that spoils the list: the block taken is not the last one, it is cut, and the heap gets a page for it. -/
def Overruns (h : Heap) (size : Nat) : Prop :=
  0 < size ∧ ∃ pre b post, Laid h.mem h.heapStart (pre ++ b :: post) ∧ post ≠ [] ∧
    (∀ c ∈ pre, ¬ c.Fits (size + sizeofAllocBlock)) ∧ b.Fits (size + sizeofAllocBlock) ∧
    size + sizeofAllocBlock + sizeofAllocBlock ≤ b.size ∧
    Extends h (h.heapStart + extent pre) (size + sizeofAllocBlock)

/-- From `h`, a heap with the blocks `bs`, a request for `n` bytes leads to `h'` and the pointer `p`, as first fit on
the blocks does. -/
structure Served (h h' : Heap) (n : Nat) (bs : List Block) (p : Nat) : Prop where
  start : h'.heapStart = h.heapStart
  grows : h.heapSize ≤ h'.heapSize
  tiled : ∃ o bs', Allocates n bs o bs' ∧ Tiled h' bs' ∧ p = h.heapStart + o + sizeofAllocBlock

theorem Tiled.take (ht : Tiled h (pre ++ b :: post)) :
    Tiled (h.store (h.heapStart + extent pre)
      ⟨b.size, 0, nextOf (h.heapStart + extent pre) b post⟩) (pre ++ { b with free := false } :: post) := by
  have hpos := ht.pos b (by simp)
  refine ht.replace [b] [] rfl ?_ trivial ?_ (by simp) (by simp) ?_ (by simp)
  · intro x hx
    simp only [extent_cons, extent_nil] at hx
    exact Heap.mem_store_ne _ _ (by omega)
  · simp [Block.header, nextOf]
  · simpa using ht.min b (by simp)

theorem Tiled.cut {r : Nat} (ht : Tiled h (pre ++ b :: post))
    (hcut : Cut h h' (h.heapStart + extent pre) n r (nextOf (h.heapStart + extent pre) b post))
    (hn : sizeofAllocBlock ≤ n) (hr : sizeofAllocBlock ≤ r) (hnb : n < b.size) (hrb : post ≠ [] → n + r = b.size)
    (hsize : h'.heapSize + b.size = h.heapSize + (n + r)) : Tiled h' (pre ++ ⟨n, false⟩ :: ⟨r, true⟩ :: post) := by
  refine ht.replace [b] [⟨n, false⟩] (c := ⟨r, true⟩) hcut.start ?_ ?_ ?_ ?_ ?_ ?_ (by simp)
  · intro x hx
    simp only [extent_cons, extent_nil] at hx
    have := ht.pos b (by simp)
    exact hcut.other x (by omega) (by omega)
  · simp [Filled, hcut.first, Block.header]
  · simp only [extent_cons, extent_nil, Nat.add_zero, hcut.second, Block.header, nextOf, if_true]
    split
    · rfl
    · rename_i hp
      rw [← hrb hp, Nat.add_assoc (_ + _)]
  · simpa using hrb
  · simpa using hsize
  · simpa using ⟨hn, hr⟩

theorem pick_refines (ht : Tiled h (pre ++ b :: post)) (hpre : ∀ c ∈ pre, ¬ c.Fits (size + sizeofAllocBlock))
    (hb : b.Fits (size + sizeofAllocBlock)) (hn : size + sizeofAllocBlock < 2 ^ 31)
    (hbase : 2 ^ 64 - 2 ^ 31 ≤ h.heapStart) (hsz : h.heapSize < 2 ^ 33)
    (hov : post ≠ [] → size + sizeofAllocBlock + sizeofAllocBlock ≤ b.size →
      ¬ Extends h (h.heapStart + extent pre) (size + sizeofAllocBlock))
    (hr : pick h (h.heapStart + extent pre) size = .found h' p) (htop : h'.heapStart + h'.heapSize < 2 ^ 64) :
    Served h h' (size + sizeofAllocBlock) (pre ++ b :: post) p := by
  obtain ⟨hstart, hsize⟩ := pick_heap hr
  have hgrows : h.heapSize ≤ h'.heapSize := by
    rcases hsize with hsize | hsize
    · omega
    · rw [hsize, qword_of_lt (by omega)]
      omega
  have hext := ht.size
  simp only [extent_append, extent_cons] at hext
  have h17 : sizeofAllocBlock = 17 := rfl
  have hnb := hb.2
  have hmem : h.mem (h.heapStart + extent pre) = ⟨b.size, 1, nextOf (h.heapStart + extent pre) b post⟩ := by
    rw [ht.header, Block.header, if_pos hb.1]
  refine ⟨hstart, hgrows, extent pre, ?_⟩
  by_cases hsplit : b.size < size + sizeofAllocBlock + sizeofAllocBlock
  · rw [pick_take hmem hn hb.2 hsplit (by omega)] at hr
    simp only [Scan.found.injEq] at hr
    obtain ⟨rfl, rfl⟩ := hr
    exact ⟨_, .take hpre hb hsplit, ht.take, rfl⟩
  · obtain ⟨h1, hp1, hsize1, hcut⟩ := pick_split hmem hn (by omega) (by omega) (by omega)
    rw [hp1] at hr
    simp only [Scan.found.injEq] at hr
    obtain ⟨rfl, rfl⟩ := hr
    by_cases he : Extends h (h.heapStart + extent pre) (size + sizeofAllocBlock)
    · obtain rfl : post = [] := by
        by_contra hp
        exact hov hp (by omega) he
      rw [if_pos he] at hsize1 hcut
      rw [qword_of_lt (by omega)] at hsize1 hcut
      unfold Extends at he
      rw [qword_of_lt (by omega)] at he
      have hlt : b.size < 2 * (size + sizeofAllocBlock) := by
        have := Nat.mod_le (h.heapStart + extent pre + (size + sizeofAllocBlock) + (size + sizeofAllocBlock)) (2 ^ 64)
        unfold qword at he
        simp only [extent_nil] at hext
        omega
      simp only [extent_nil] at hext
      rw [qword_of_lt (by omega), qsub_of_le (by omega) (by omega), dword_of_lt (by omega)] at hcut
      have hr : h.heapStart + (h.heapSize + 0x1000) - (h.heapStart + extent pre + (size + sizeofAllocBlock)) =
          b.size - (size + sizeofAllocBlock) + 0x1000 := by omega
      rw [hr] at hcut
      exact ⟨_, .extend hpre hb (by omega) hlt,
        ht.cut hcut (by omega) (by omega) (by omega) (by simp) (by omega), rfl⟩
    · rw [if_neg he] at hsize1 hcut
      exact ⟨_, .split hpre hb (by omega),
        ht.cut hcut (by omega) (by omega) (by omega) (fun _ => by omega) (by omega), rfl⟩

@[simp] theorem heapStart_grow (h : Heap) (e : Nat) : (grow h e).heapStart = h.heapStart := by
  unfold grow
  split_ifs <;> rfl

@[simp] theorem heapSize_grow (h : Heap) (e : Nat) : (grow h e).heapSize = qword (h.heapSize + 0x1000) := by
  unfold grow
  split_ifs <;> rfl

theorem laid_grow {init : List Block} (hl : Laid h.mem h.heapStart (init ++ [last]))
    (hpos : ∀ c ∈ init, 0 < c.size) (ha : 0 < h.heapStart) :
    Laid (grow { h with heapEnd := e } (h.heapStart + extent init)).mem
      (grow { h with heapEnd := e } (h.heapStart + extent init)).heapStart
      (init ++ [{ last with size := qword (last.size + 0x1000) }]) := by
  rw [heapStart_grow]
  obtain ⟨hinit, hlast⟩ := (laid_append (by simp)).mp hl
  have hm := laid_head hlast
  rw [laid_append (by simp)]
  simp only [grow, if_neg (show ¬ h.heapStart + extent init = 0 by omega)]
  constructor
  · exact hinit.congr (fun x _ hx => Heap.mem_store_ne _ _ (by omega)) hpos
  · simp [Laid, Heap.store, hm, Block.header, nextOf]

theorem Tiled.grow {init : List Block} (ht : Tiled h (init ++ [last])) (hs : h.heapSize + 0x1000 < 2 ^ 64) :
    Tiled (grow { h with heapEnd := e } (h.heapStart + extent init))
      (init ++ [{ last with size := last.size + 0x1000 }]) where
  laid := by
    have hsize := ht.size
    simp only [extent_append, extent_cons, extent_nil] at hsize
    have := laid_grow (e := e) ht.laid (fun c hc => ht.pos c (by simp [hc])) ht.start
    rwa [qword_of_lt (by omega)] at this
  size := by
    have hsize := ht.size
    simp only [extent_append, extent_cons, extent_nil, heapSize_grow] at hsize ⊢
    rw [qword_of_lt (by omega)]
    omega
  min := by
    intro c hc
    simp only [List.mem_append, List.mem_singleton] at hc
    rcases hc with hc | rfl
    · exact ht.min c (by simp [hc])
    · have := ht.min last (by simp)
      simp only
      omega
  start := by simpa using ht.start

/-- A block that fits is taken: afterwards it is unavailable and still holds the bytes asked for. -/
theorem pick_found (hb : (h.mem a).available = 1 ∧ required size ≤ (h.mem a).size) (hn : size + sizeofAllocBlock < 2 ^ 31) :
    ∃ h', pick h a size = .found h' (qword (a + sizeofAllocBlock)) ∧ (h'.mem a).available = 0 ∧
      size + sizeofAllocBlock ≤ (h'.mem a).size := by
  have h17 : sizeofAllocBlock = 17 := rfl
  have hreq : required size = size + sizeofAllocBlock := required_of_lt (by omega)
  obtain ⟨-, hb⟩ := hb
  rw [hreq] at hb
  unfold pick
  rw [hreq]
  by_cases heq : (h.mem a).size = size + sizeofAllocBlock
  · rw [if_pos heq]
    exact ⟨_, rfl, by simp, by simpa using hb⟩
  · rw [if_neg heq]
    simp only [carve, hreq, dword_of_lt (show size + sizeofAllocBlock < 2 ^ 32 by omega)]
    by_cases hrem : dword (qsub (h.mem a).size (size + sizeofAllocBlock)) < sizeofAllocBlock
    · simp only [if_pos hrem]
      exact ⟨_, rfl, by simp, by simpa using hb⟩
    · have hne : a ≠ qword (a + (size + sizeofAllocBlock)) := by
        unfold qword
        omega
      simp only [if_neg hrem, if_neg (fun hc : _ ∧ a = _ => hne hc.2)]
      exact ⟨_, rfl, by simp [hne], by simp⟩

section Unfold
variable {init : List Block}

theorem newAlloc_fits (walk depth : Nat) (hl : Laid h.mem h.heapStart (pre ++ b :: post)) (ha : 0 < h.heapStart)
    (hsize : size ≠ 0) (hn : size + sizeofAllocBlock < 2 ^ 31) (hpre : ∀ c ∈ pre, ¬ c.Fits (size + sizeofAllocBlock))
    (hb : b.Fits (size + sizeofAllocBlock)) :
    ∃ h', pick h (h.heapStart + extent pre) size = .found h' (qword (h.heapStart + extent pre + sizeofAllocBlock)) ∧
      (h'.mem (h.heapStart + extent pre)).available = 0 ∧
      size + sizeofAllocBlock ≤ (h'.mem (h.heapStart + extent pre)).size ∧
      newAlloc walk (depth + 1) h size = if pre.length < walk then
        some (h', qword (h.heapStart + extent pre + sizeofAllocBlock)) else none := by
  have hreq : required size = size + sizeofAllocBlock := required_of_lt (by omega)
  have hm := laid_head ((laid_append (by simp)).mp hl).2
  obtain ⟨h', hp, h1, h2⟩ := pick_found (h := h) (a := h.heapStart + extent pre)
    (by rwa [hm, header_fits, hreq]) hn
  refine ⟨h', hp, h1, h2, ?_⟩
  rw [newAlloc, if_neg hsize, scan_found hl ha (by rwa [hreq]) (by rwa [hreq]), hp]
  split_ifs <;> rfl

theorem newAlloc_grow (hl : Laid h.mem h.heapStart (init ++ [last])) (ha : 0 < h.heapStart) (hsize : size ≠ 0)
    (hno : ∀ c ∈ init ++ [last], ¬ c.Fits (required size)) :
    newAlloc walk (depth + 1) h size = if init.length + 1 < walk then
      newAlloc walk depth (grow { h with heapEnd := h.heapStart + extent init } (h.heapStart + extent init)) size
      else none := by
  rw [newAlloc, if_neg hsize, scan_exhausted hl ha hno]
  split_ifs <;> rfl

end Unfold

/-- A live last block is enlarged for ever: nothing is returned within any bounds. -/
theorem newAlloc_live (hsize : size ≠ 0) : ∀ (depth : Nat) {h : Heap} {init : List Block} {last : Block},
    Laid h.mem h.heapStart (init ++ [last]) → 0 < h.heapStart → (∀ c ∈ init, 0 < c.size) →
    (∀ c ∈ init, ¬ c.Fits (required size)) → last.free = false → newAlloc walk depth h size = none
  | 0, _, _, _, _, _, _, _, _ => rfl
  | depth + 1, h, init, last, hl, ha, hpos, hno, hlast => by
      have hno' : ∀ c ∈ init ++ [last], ¬ c.Fits (required size) := by
        intro c hc
        simp only [List.mem_append, List.mem_singleton] at hc
        rcases hc with hc | rfl
        · exact hno c hc
        · simp [Block.Fits, hlast]
      rw [newAlloc_grow hl ha hsize hno']
      split_ifs
      · have hg := laid_grow (e := h.heapStart + extent init) hl hpos ha
        exact newAlloc_live hsize depth hg (by rwa [heapStart_grow]) hpos hno hlast
      · rfl

/-- A heap that grew for the request overruns nothing: only its last block fits. -/
theorem not_overruns_of_last {init : List Block} (hl : Laid h.mem h.heapStart (init ++ [last])) (ha : 0 < h.heapStart)
    (hno : ∀ c ∈ init, ¬ c.Fits (size + sizeofAllocBlock)) : ¬ Overruns h size := by
  rintro ⟨-, pre, b, post, hl', hp, -, hb, -⟩
  have heq := hl.unique ha hl'
  obtain ⟨post, c, rfl⟩ : ∃ l c, post = l ++ [c] := ⟨_, _, (List.dropLast_concat_getLast hp).symm⟩
  rw [← List.cons_append, ← List.append_assoc] at heq
  obtain ⟨rfl, -⟩ := List.append_inj' heq rfl
  exact hno b (by simp) hb

def onlyLastFree (h : Heap) : Nat → Nat → Bool
  | 0, _ => false
  | n + 1, a => (h.mem a).next = 0 || ((h.mem a).available = 0 && onlyLastFree h n (h.mem a).next)

/-- A test for calls that do not overrun: in front of the last block there is none to cut, and the heap still ends below the
top of the address space. -/
def roomy (walk : Nat) (h h' : Heap) : Bool :=
  0 < h.heapStart && onlyLastFree h walk h.heapStart && h'.heapStart + h'.heapSize < 2 ^ 64

theorem onlyLastFree_laid (hl : Laid h.mem a (pre ++ b :: post)) (ha : 0 < a) (hpost : post ≠ [])
    (htest : onlyLastFree h n a = true) : b.free = false := by
  induction pre generalizing a n with
  | nil =>
      cases n with
      | zero => cases htest
      | succ n =>
          have hnext : a + b.size ≠ 0 := by omega
          rw [onlyLastFree, laid_head hl, Block.next_header, nextOf, if_neg hpost] at htest
          simp only [hnext, decide_false, Bool.false_or, Bool.and_eq_true, decide_eq_true_eq] at htest
          simpa [Block.header] using htest.1
  | cons c pre ih =>
      cases n with
      | zero => cases htest
      | succ n =>
          have hne : pre ++ b :: post ≠ [] := by simp
          have hnext : a + c.size ≠ 0 := by omega
          rw [List.cons_append] at hl
          rw [onlyLastFree, laid_head hl, Block.next_header, nextOf, if_neg hne] at htest
          simp only [hnext, decide_false, Bool.false_or, Bool.and_eq_true, decide_eq_true_eq] at htest
          exact ih (laid_tail hl hne) (by omega) htest.2

theorem of_roomy (hroomy : roomy walk h h' = true) : ¬ Overruns h size ∧ h'.heapStart + h'.heapSize < 2 ^ 64 := by
  simp only [roomy, Bool.and_eq_true, decide_eq_true_eq] at hroomy
  obtain ⟨⟨hstart, hlast⟩, htop⟩ := hroomy
  refine ⟨?_, htop⟩
  rintro ⟨-, pre, b, post, hl, hpost, -, hb, -⟩
  have hfree := hb.1
  rw [onlyLastFree_laid hl hstart hpost hlast] at hfree
  cases hfree

/-- A call that returns is a first-fit allocation on the block list, unless it overruns. -/
theorem newAlloc_refines (hn : size + sizeofAllocBlock < 2 ^ 31) (hsize : size ≠ 0)
    (htop : h'.heapStart + h'.heapSize < 2 ^ 64) : ∀ (depth : Nat) {h : Heap} {init : List Block} {last : Block},
    Tiled h (init ++ [last]) → 2 ^ 64 - 2 ^ 31 ≤ h.heapStart → extent init < 2 ^ 31 → last.size < 2 ^ 31 + 0x1000 →
    ¬ Overruns h size → newAlloc walk depth h size = some (h', p) →
    Served h h' (size + sizeofAllocBlock) (init ++ [last]) p
  | 0, _, _, _, _, _, _, _, _, hr => by cases hr
  | depth + 1, h, init, last, ht, hbase, hinit, hlast, hov, hr => by
      have hreq : required size = size + sizeofAllocBlock := required_of_lt (by omega)
      have hext := ht.size
      simp only [extent_append, extent_cons, extent_nil] at hext
      rcases first_fit (size + sizeofAllocBlock) (init ++ [last]) with ⟨pre, b, post, hbs, hpre, hb⟩ | hno
      · rw [hbs] at ht ⊢
        obtain ⟨h1, hp, -, -, heq⟩ := newAlloc_fits walk depth ht.laid ht.start hsize hn hpre hb
        rw [heq, Option.ite_none_right_eq_some, Option.some.injEq, Prod.mk.injEq] at hr
        obtain ⟨-, rfl, rfl⟩ := hr
        exact pick_refines ht hpre hb hn hbase (by omega)
          (fun hp hbn hext => hov ⟨by omega, pre, b, post, ht.laid, hp, hpre, hb, hbn, hext⟩) hp htop
      · have hno' : ∀ c ∈ init, ¬ c.Fits (size + sizeofAllocBlock) := fun c hc => hno c (by simp [hc])
        cases hfree : last.free with
        | false =>
            rw [newAlloc_live hsize _ ht.laid ht.start (fun c hc => ht.pos c (by simp [hc])) (by rwa [hreq]) hfree] at hr
            cases hr
        | true =>
            have hlt : last.size < size + sizeofAllocBlock := by
              have := hno last (by simp)
              simp only [Block.Fits, hfree, true_and] at this
              omega
            rw [newAlloc_grow ht.laid ht.start hsize (by rwa [hreq]), Option.ite_none_right_eq_some] at hr
            have hg := ht.grow (e := h.heapStart + extent init) (by omega)
            obtain ⟨hstart, hgrows, o, bs', hal, ht', hp⟩ := newAlloc_refines hn hsize htop depth hg
              (by rwa [heapStart_grow]) hinit (by simp only; omega) (not_overruns_of_last hg.laid hg.start hno') hr.2
            simp only [heapStart_grow, heapSize_grow] at hstart hgrows hp
            rw [qword_of_lt (by omega)] at hgrows
            exact ⟨hstart, by omega, o, bs', .grow hno hal, ht', hp⟩

/-! ## `free_alloc` on the block list -/

theorem Tiled.release (ht : Tiled h (pre ++ b :: post)) :
    Tiled (h.store (h.heapStart + extent pre) ⟨b.size, 1, nextOf (h.heapStart + extent pre) b post⟩)
      (pre ++ { b with free := true } :: post) := by
  have hpos := ht.pos b (by simp)
  refine ht.replace [b] [] rfl ?_ trivial ?_ (by simp) (by simp) ?_ (by simp)
  · intro x hx
    simp only [extent_cons, extent_nil] at hx
    exact Heap.mem_store_ne _ _ (by omega)
  · simp [Block.header, nextOf]
  · simpa using ht.min b (by simp)

/-- A block that takes in its successor, whose header loses its pointer. -/
theorem Tiled.merge (ht : Tiled h (pre ++ b :: c :: post)) :
    Tiled ((h.store (h.heapStart + extent pre)
        ⟨b.size + c.size, 1, nextOf (h.heapStart + extent pre + b.size) c post⟩).store
        (h.heapStart + extent pre + b.size) ⟨c.size, n, 0⟩) (pre ++ ⟨b.size + c.size, true⟩ :: post) := by
  have hb := ht.pos b (by simp)
  have hc := ht.pos c (by simp)
  refine ht.replace [b, c] [] rfl ?_ trivial ?_ (by simp) (by simp) ?_ (by simp)
  · intro x hx
    simp only [extent_cons, extent_nil] at hx
    rw [Heap.mem_store_ne _ _ (by omega), Heap.mem_store_ne _ _ (by omega)]
  · rw [extent_nil, Nat.add_zero, Heap.mem_store_ne _ _ (by omega), Heap.mem_store, Block.header, if_pos rfl]
    simp only [nextOf, Nat.add_assoc]
  · have := ht.min b (by simp)
    simp only [List.nil_append, List.mem_singleton, forall_eq]
    omega

/-- A call on the payload of a block gives the block back. -/
theorem freeAlloc_refines (ht : Tiled h (pre ++ b :: post)) (htop : h.heapStart + h.heapSize < 2 ^ 64)
    (hr : freeAlloc walk h (h.heapStart + extent pre + sizeofAllocBlock) = some h') :
    h'.heapStart = h.heapStart ∧ h'.heapSize = h.heapSize ∧
      ∃ bs', Releases (extent pre) (pre ++ b :: post) bs' ∧ Tiled h' bs' := by
  have h17 : sizeofAllocBlock = 17 := rfl
  have hext := ht.size
  have hmin := ht.min b (by simp)
  simp only [extent_append, extent_cons] at hext
  have hblock : qsub (h.heapStart + extent pre + sizeofAllocBlock) sizeofAllocBlock = h.heapStart + extent pre := by
    rw [qsub_of_le (by omega) (by omega)]
    omega
  rw [freeAlloc_eq, if_neg (by omega), hblock, ht.header, Option.some.injEq] at hr
  subst hr
  simp only [Block.size_header, Block.next_header]
  cases post with
  | nil =>
      rw [mergeNext, if_neg (by simp [nextOf])]
      exact ⟨rfl, rfl, _, .keep (by simp), ht.release⟩
  | cons c post =>
      have hc : h.mem (h.heapStart + extent pre + b.size) =
          c.header (nextOf (h.heapStart + extent pre + b.size) c post) :=
        laid_head (laid_tail ((laid_append (by simp)).mp ht.laid).2 (by simp))
      have hstart := ht.start
      have hnext : nextOf (h.heapStart + extent pre) b (c :: post) = h.heapStart + extent pre + b.size := by simp [nextOf]
      simp only [extent_cons] at hext
      by_cases hfree : c.free = true
      · have hne : h.heapStart + extent pre + b.size ≠ h.heapStart + extent pre := by omega
        simp only [mergeNext, hnext, Heap.mem_store, Heap.mem_store_ne _ _ hne, hc]
        rw [if_pos ⟨by omega, by simpa using hfree⟩, Block.next_header, Block.size_header, qword_of_lt (by omega),
          Heap.store_store]
        exact ⟨rfl, rfl, _, .merge hfree, ht.merge⟩
      · rw [hnext, mergeNext, Heap.mem_store_ne _ _ (by omega), hc, if_neg (by simp [hfree])]
        rw [← hnext]
        exact ⟨rfl, rfl, _, .keep (by simpa using hfree), ht.release⟩

end HaOS.Alloc
