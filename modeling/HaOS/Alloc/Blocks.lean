import HaOS.Alloc.Heap

/-!
# The block list as a tiling of the heap

What the heap is for, without its pointers: a list of blocks, each a size and whether it is free, laid one after
another from the start of the heap.

* `Allocates n bs o bs'` : first fit for `n` bytes on the blocks `bs` takes the block at offset `o` and leaves `bs'`;
* `Releases o bs bs'` : giving back the block at offset `o`, which takes in a free successor;
* `Filled mem a bs` / `Laid mem a bs` : the headers in memory from `a` on are those of `bs`, each pointing at the next
  block (`Laid` : and the last one at nothing);
* `Tiled h bs` : the list at `heap_start` is `bs` and fills the heap.
-/

namespace HaOS.Alloc

structure Block where
  size : Nat
  free : Bool
deriving DecidableEq, Repr

def extent (bs : List Block) : Nat := (bs.map Block.size).sum

@[simp] theorem extent_nil : extent [] = 0 := rfl

@[simp] theorem extent_cons (b : Block) (bs : List Block) : extent (b :: bs) = b.size + extent bs := by
  simp [extent]

@[simp] theorem extent_append (bs cs : List Block) : extent (bs ++ cs) = extent bs + extent cs := by
  simp [extent]

/-- A block a request for `n` bytes (header included) can take. -/
def Block.Fits (n : Nat) (b : Block) : Prop := b.free = true ∧ n ≤ b.size

instance (n : Nat) (b : Block) : Decidable (b.Fits n) := inferInstanceAs (Decidable (_ ∧ _))

/-! ## The abstract operations -/

/-- First fit. A remainder of at least a header becomes a free block; a short one at the end of the heap may be given
a page at once. When no block fits, the last block gets the next page. -/
inductive Allocates (n : Nat) : List Block → Nat → List Block → Prop
  | take {pre post : List Block} {b : Block} : (∀ c ∈ pre, ¬ c.Fits n) → b.Fits n → b.size < n + sizeofAllocBlock →
      Allocates n (pre ++ b :: post) (extent pre) (pre ++ { b with free := false } :: post)
  | split {pre post : List Block} {b : Block} : (∀ c ∈ pre, ¬ c.Fits n) → b.Fits n → n + sizeofAllocBlock ≤ b.size →
      Allocates n (pre ++ b :: post) (extent pre) (pre ++ ⟨n, false⟩ :: ⟨b.size - n, true⟩ :: post)
  | extend {pre : List Block} {b : Block} : (∀ c ∈ pre, ¬ c.Fits n) → b.Fits n → n + sizeofAllocBlock ≤ b.size →
      b.size < 2 * n → Allocates n (pre ++ [b]) (extent pre) (pre ++ [⟨n, false⟩, ⟨b.size - n + 0x1000, true⟩])
  | grow {pre : List Block} {b : Block} {o : Nat} {bs : List Block} : (∀ c ∈ pre ++ [b], ¬ c.Fits n) →
      Allocates n (pre ++ [{ b with size := b.size + 0x1000 }]) o bs → Allocates n (pre ++ [b]) o bs

inductive Releases : Nat → List Block → List Block → Prop
  | merge {pre post : List Block} {b c : Block} : c.free = true →
      Releases (extent pre) (pre ++ b :: c :: post) (pre ++ ⟨b.size + c.size, true⟩ :: post)
  | keep {pre post : List Block} {b : Block} : (∀ c ∈ post.head?, c.free = false) →
      Releases (extent pre) (pre ++ b :: post) (pre ++ { b with free := true } :: post)

inductive At : Nat → Block → List Block → Prop
  | head {b : Block} {bs : List Block} : At 0 b (b :: bs)
  | tail {o : Nat} {b c : Block} {bs : List Block} : At o b bs → At (c.size + o) b (c :: bs)

section At
variable {o o' n : Nat} {b c : Block} {bs bs' cs : List Block}

theorem at_cons : At o b (c :: bs) ↔ (o = 0 ∧ b = c) ∨ ∃ o', o = c.size + o' ∧ At o' b bs := by
  constructor
  · rintro (_ | h)
    · exact .inl ⟨rfl, rfl⟩
    · exact .inr ⟨_, rfl, h⟩
  · rintro (⟨rfl, rfl⟩ | ⟨o', rfl, h⟩)
    · exact .head
    · exact .tail h

theorem at_append : At o b (bs ++ cs) ↔ At o b bs ∨ ∃ o', o = extent bs + o' ∧ At o' b cs := by
  induction bs generalizing o with
  | nil => simpa using (nofun : At o b [] → At o b cs)
  | cons d bs ih =>
      simp only [List.cons_append, at_cons, ih, extent_cons]
      constructor
      · rintro (h | ⟨o', rfl, h | ⟨o', rfl, h⟩⟩)
        · exact .inl (.inl h)
        · exact .inl (.inr ⟨o', rfl, h⟩)
        · exact .inr ⟨o', by omega, h⟩
      · rintro ((h | ⟨o', rfl, h⟩) | ⟨o', rfl, h⟩)
        · exact .inl h
        · exact .inr ⟨o', rfl, .inl h⟩
        · exact .inr ⟨extent bs + o', by omega, .inr ⟨o', rfl, h⟩⟩

theorem At.mem (h : At o b bs) : b ∈ bs := by
  induction h with
  | head => simp
  | tail _ ih => exact List.mem_cons_of_mem _ ih

theorem At.le_extent (h : At o b bs) : o + b.size ≤ extent bs := by
  induction h with
  | head => simp
  | tail _ ih =>
      rw [extent_cons]
      omega

theorem At.disjoint (h : At o b bs) (h' : At o' c bs) (hne : o ≠ o') : o + b.size ≤ o' ∨ o' + c.size ≤ o := by
  induction h generalizing o' with
  | head =>
      rcases at_cons.mp h' with ⟨rfl, rfl⟩ | ⟨k, rfl, -⟩
      · exact absurd rfl hne
      · exact .inl (by omega)
  | @tail o b d bs hb ih =>
      rcases at_cons.mp h' with ⟨rfl, rfl⟩ | ⟨k, rfl, hk⟩
      · exact .inr (by omega)
      · rcases ih hk (by omega) with h | h
        · exact .inl (by omega)
        · exact .inr (by omega)

theorem At.exists_append (h : At o b bs) : ∃ pre post, bs = pre ++ b :: post ∧ o = extent pre := by
  induction h with
  | head => exact ⟨[], _, rfl, rfl⟩
  | @tail o b c bs _ ih =>
      obtain ⟨pre, post, rfl, rfl⟩ := ih
      exact ⟨c :: pre, post, rfl, by simp⟩

/-- Blocks outside a stretch of the list that keeps its length, or ends the list, stay where they are. -/
theorem At.replace {pre post : List Block} (olds ms : List Block) (h : At o b (pre ++ (olds ++ post)))
    (hext : post ≠ [] → extent ms = extent olds) :
    At o b (pre ++ (ms ++ post)) ∨ ∃ o', o = extent pre + o' ∧ At o' b olds := by
  rcases at_append.mp h with h1 | ⟨o1, rfl, h1⟩
  · exact .inl (at_append.mpr (.inl h1))
  · rcases at_append.mp h1 with h2 | ⟨o2, rfl, h2⟩
    · exact .inr ⟨o1, rfl, h2⟩
    · have hp : post ≠ [] := List.ne_nil_of_mem h2.mem
      exact .inl (at_append.mpr (.inr ⟨_, rfl, at_append.mpr (.inr ⟨o2, by rw [hext hp], h2⟩)⟩))

theorem at_singleton : At o b [c] ↔ o = 0 ∧ b = c := by
  rw [at_cons]
  constructor
  · rintro (h | ⟨_, -, ⟨⟩⟩)
    exact h
  · exact .inl

theorem Allocates.taken (h : Allocates n bs o bs') : ∃ b, At o b bs' ∧ b.free = false ∧ n ≤ b.size := by
  induction h with
  | take _ hb _ => exact ⟨_, at_append.mpr (.inr ⟨0, rfl, .head⟩), rfl, hb.2⟩
  | split => exact ⟨_, at_append.mpr (.inr ⟨0, rfl, .head⟩), rfl, Nat.le_refl _⟩
  | extend => exact ⟨_, at_append.mpr (.inr ⟨0, rfl, .head⟩), rfl, Nat.le_refl _⟩
  | grow _ _ ih => exact ih

/-- Blocks in use stay where they are. -/
theorem Allocates.keeps (h : Allocates n bs o bs') (hb : At o' b bs) (hf : b.free = false) :
    ∃ b', At o' b' bs' ∧ b'.free = false ∧ b.size ≤ b'.size := by
  induction h generalizing b with
  | @take pre post d _ hd _ =>
      rcases hb.replace [d] [{ d with free := false }] (fun _ => rfl) with hb' | ⟨_, -, hb'⟩
      · exact ⟨b, hb', hf, Nat.le_refl _⟩
      · obtain ⟨-, rfl⟩ := at_singleton.mp hb'
        rw [hd.1] at hf
        cases hf
  | @split pre post d _ hd hn =>
      have hext : extent [⟨n, false⟩, ⟨d.size - n, true⟩] = extent [d] := by
        simp only [extent_cons]
        omega
      rcases hb.replace [d] [⟨n, false⟩, ⟨d.size - n, true⟩] (fun _ => hext) with hb' | ⟨_, -, hb'⟩
      · exact ⟨b, hb', hf, Nat.le_refl _⟩
      · obtain ⟨-, rfl⟩ := at_singleton.mp hb'
        rw [hd.1] at hf
        cases hf
  | @extend pre d _ hd _ =>
      rcases hb.replace [d] [⟨n, false⟩, ⟨d.size - n + 0x1000, true⟩] (fun hp => absurd rfl hp) with hb' | ⟨_, -, hb'⟩
      · exact ⟨b, hb', hf, Nat.le_refl _⟩
      · obtain ⟨-, rfl⟩ := at_singleton.mp hb'
        rw [hd.1] at hf
        cases hf
  | @grow pre d _ _ _ _ ih =>
      rcases hb.replace [d] [{ d with size := d.size + 0x1000 }] (fun hp => absurd rfl hp) with hb' | ⟨_, rfl, hb'⟩
      · exact ih hb' hf
      · obtain ⟨rfl, rfl⟩ := at_singleton.mp hb'
        obtain ⟨b', h1, h2, h3⟩ := ih (at_append.mpr (.inr ⟨0, rfl, .head⟩)) hf
        exact ⟨b', h1, h2, Nat.le_trans (Nat.le_add_right _ _) h3⟩

/-- Giving back a block leaves the other blocks in use where they are. -/
theorem Releases.keeps (h : Releases o bs bs') (hb : At o' b bs) (hf : b.free = false) (hne : o' ≠ o) :
    At o' b bs' := by
  cases h with
  | @merge pre post d c hc =>
      rcases hb.replace [d, c] [⟨d.size + c.size, true⟩] (fun _ => by simp) with hb' | ⟨k, rfl, hb'⟩
      · exact hb'
      · rcases at_cons.mp hb' with ⟨rfl, rfl⟩ | ⟨_, rfl, hc'⟩
        · exact absurd rfl hne
        · obtain ⟨-, rfl⟩ := at_singleton.mp hc'
          rw [hc] at hf
          cases hf
  | @keep pre post d hd =>
      rcases hb.replace [d] [{ d with free := true }] (fun _ => by simp) with hb' | ⟨k, rfl, hb'⟩
      · exact hb'
      · obtain ⟨rfl, rfl⟩ := at_singleton.mp hb'
        exact absurd rfl hne

end At

/-! ## Headers in memory -/

def Block.header (b : Block) (next : Nat) : AllocBlock := ⟨b.size, if b.free then 1 else 0, next⟩

@[simp] theorem Block.size_header (b : Block) (next : Nat) : (b.header next).size = b.size := rfl

@[simp] theorem Block.next_header (b : Block) (next : Nat) : (b.header next).next = next := rfl

@[simp] theorem Block.available_header (b : Block) (next : Nat) :
    (b.header next).available = 1 ↔ b.free = true := by
  cases h : b.free <;> simp [header, h]

/-- The blocks `bs` lie from `a` on, each pointing at the address right after it. -/
def Filled (mem : Nat → AllocBlock) : Nat → List Block → Prop
  | _, [] => True
  | a, b :: bs => mem a = b.header (a + b.size) ∧ Filled mem (a + b.size) bs

/-- The blocks `bs` lie from `a` on, each pointing at the next one, and the last ends the list. -/
def Laid (mem : Nat → AllocBlock) : Nat → List Block → Prop
  | _, [] => False
  | a, [b] => mem a = b.header 0
  | a, b :: c :: bs => mem a = b.header (a + b.size) ∧ Laid mem (a + b.size) (c :: bs)

section Memory
variable {mem mem' : Nat → AllocBlock} {a : Nat} {b c : Block} {bs cs pre post : List Block}

theorem filled_append : Filled mem a (bs ++ cs) ↔ Filled mem a bs ∧ Filled mem (a + extent bs) cs := by
  induction bs generalizing a with
  | nil => simp [Filled]
  | cons b bs ih => simp [Filled, ih, and_assoc, Nat.add_assoc]

theorem laid_append (hcs : cs ≠ []) :
    Laid mem a (bs ++ cs) ↔ Filled mem a bs ∧ Laid mem (a + extent bs) cs := by
  induction bs generalizing a with
  | nil => simp [Filled]
  | cons b bs ih =>
      obtain ⟨d, ds, hd⟩ := List.exists_cons_of_ne_nil (l := bs ++ cs) (by simp [hcs])
      rw [List.cons_append, hd, Laid, ← hd, ih, Filled, extent_cons, Nat.add_assoc, and_assoc]

theorem laid_cons (hbs : bs ≠ []) : Laid mem a (b :: bs) ↔ mem a = b.header (a + b.size) ∧ Laid mem (a + b.size) bs := by
  obtain ⟨c, cs, rfl⟩ := List.exists_cons_of_ne_nil hbs
  rfl

def nextOf (a : Nat) (b : Block) (post : List Block) : Nat := if post = [] then 0 else a + b.size

theorem laid_head (h : Laid mem a (b :: post)) : mem a = b.header (nextOf a b post) := by
  cases post with
  | nil => simpa [nextOf, Laid] using h
  | cons => simpa [nextOf] using h.1

theorem laid_tail (h : Laid mem a (b :: post)) (hp : post ≠ []) : Laid mem (a + b.size) post := ((laid_cons hp).mp h).2

theorem laid_of_head (hb : mem a = b.header (nextOf a b post)) (hp : post ≠ [] → Laid mem (a + b.size) post) :
    Laid mem a (b :: post) := by
  cases post with
  | nil => simpa [nextOf, Laid] using hb
  | cons c cs => exact ⟨by simpa [nextOf] using hb, hp (by simp)⟩

theorem Filled.congr (h : Filled mem a bs) (hm : ∀ x, a ≤ x → x < a + extent bs → mem' x = mem x)
    (hs : ∀ b ∈ bs, 0 < b.size) : Filled mem' a bs := by
  induction bs generalizing a with
  | nil => trivial
  | cons b bs ih =>
      have hb := hs b (by simp)
      rw [extent_cons] at hm
      exact ⟨(hm a (by omega) (by omega)).trans h.1,
        ih h.2 (fun x h1 h2 => hm x (by omega) (by omega)) fun c hc => hs c (by simp [hc])⟩

theorem Laid.congr (h : Laid mem a bs) (hm : ∀ x, a ≤ x → x < a + extent bs → mem' x = mem x)
    (hs : ∀ b ∈ bs, 0 < b.size) : Laid mem' a bs := by
  induction bs generalizing a with
  | nil => exact h
  | cons b bs ih =>
      have hb := hs b (by simp)
      rw [extent_cons] at hm
      refine laid_of_head ((hm a (by omega) (by omega)).trans (laid_head h)) fun hne => ?_
      exact ih (laid_tail h hne) (fun x h1 h2 => hm x (by omega) (by omega)) fun c hc => hs c (by simp [hc])

theorem Block.header_inj {n m : Nat} : b.header n = c.header m ↔ b = c ∧ n = m := by
  obtain ⟨s, f⟩ := b
  obtain ⟨t, g⟩ := c
  cases f <;> cases g <;> simp [header]

theorem Laid.unique (h : Laid mem a bs) (ha : 0 < a) (h' : Laid mem a cs) : bs = cs := by
  induction bs generalizing a cs with
  | nil => exact h.elim
  | cons b bs ih =>
      cases cs with
      | nil => exact h'.elim
      | cons c cs =>
          obtain ⟨rfl, hnext⟩ := Block.header_inj.mp ((laid_head h).symm.trans (laid_head h'))
          unfold nextOf at hnext
          split_ifs at hnext with hb hc hc
          · rw [hb, hc]
          · omega
          · omega
          · rw [ih (laid_tail h hb) (by omega) (laid_tail h' hc)]

end Memory

/-- The list at `heap_start` is `bs`, and it fills the heap. -/
structure Tiled (h : Heap) (bs : List Block) : Prop where
  laid : Laid h.mem h.heapStart bs
  size : extent bs = h.heapSize
  min : ∀ b ∈ bs, sizeofAllocBlock ≤ b.size
  start : 0 < h.heapStart

theorem Tiled.eq_concat {h : Heap} {bs : List Block} (ht : Tiled h bs) : ∃ init last, bs = init ++ [last] :=
  ⟨_, _, (List.dropLast_concat_getLast (by rintro rfl; exact ht.laid)).symm⟩

theorem Tiled.pos {h : Heap} {bs : List Block} (ht : Tiled h bs) : ∀ b ∈ bs, 0 < b.size :=
  fun b hb => Nat.lt_of_lt_of_le (by decide) (ht.min b hb)

/-- The header of a block of the heap, from its place in the list. -/
theorem Tiled.header {h : Heap} {pre post : List Block} {b : Block} (ht : Tiled h (pre ++ b :: post)) :
    h.mem (h.heapStart + extent pre) = b.header (nextOf (h.heapStart + extent pre) b post) :=
  laid_head ((laid_append (by simp)).mp ht.laid).2

/-- Putting the blocks `ms ++ [c]` in the place of `olds`: their headers are written inside the old ones' bytes, and
only at the end of the heap may they take more or fewer bytes. -/
theorem Tiled.replace {h h' : Heap} {pre post : List Block} {c : Block} (olds ms : List Block)
    (ht : Tiled h (pre ++ (olds ++ post)))
    (hs : h'.heapStart = h.heapStart)
    (hout : ∀ x, x < h.heapStart + extent pre ∨ h.heapStart + extent pre + extent olds ≤ x → h'.mem x = h.mem x)
    (hms : Filled h'.mem (h.heapStart + extent pre) ms)
    (hc : h'.mem (h.heapStart + extent pre + extent ms) =
      c.header (nextOf (h.heapStart + extent pre + extent ms) c post))
    (hext : post ≠ [] → extent ms + c.size = extent olds)
    (hsize : h'.heapSize + extent olds = h.heapSize + (extent ms + c.size))
    (hmin : ∀ d ∈ ms ++ [c], sizeofAllocBlock ≤ d.size) (ho : olds ≠ []) :
    Tiled h' (pre ++ (ms ++ c :: post)) where
  laid := by
    obtain ⟨hpre, hrest⟩ := (laid_append (by simp [ho])).mp ht.laid
    rw [hs, laid_append (by simp), laid_append (by simp)]
    refine ⟨hpre.congr (fun x _ hx => hout x (Or.inl hx)) fun b hb => ht.pos b (by simp [hb]), hms, ?_⟩
    refine laid_of_head hc fun hp => ?_
    have hpost := ((laid_append hp).mp hrest).2
    rw [← hext hp, ← Nat.add_assoc] at hpost
    refine hpost.congr (fun x hx _ => hout x (Or.inr ?_)) fun b hb => ht.pos b (by simp [hb])
    rw [← hext hp]
    omega
  size := by
    have := ht.size
    simp only [extent_append, extent_cons] at this ⊢
    omega
  min := by
    intro d hd
    simp only [List.mem_append, List.mem_cons] at hd
    rcases hd with hd | hd | rfl | hd
    · exact ht.min d (by simp [hd])
    · exact hmin d (by simp [hd])
    · exact hmin d (by simp)
    · exact ht.min d (by simp [hd])
  start := hs ▸ ht.start

theorem tiled_initAlloc (mem : Nat → AllocBlock) {start : Nat} (hs : 0 < start) :
    Tiled (initAlloc mem start) [⟨0x1000, true⟩] where
  laid := by simp [Laid, initAlloc, Block.header]
  size := rfl
  min := by simp [sizeofAllocBlock]
  start := hs

end HaOS.Alloc
