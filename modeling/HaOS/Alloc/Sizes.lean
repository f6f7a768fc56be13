import HaOS.Alloc.Refine

/-!
# The size of the block that `new_alloc` hands out

The size asked for is added to the header's in 64 bits, compared in 64 bits and stored in 32 bits.

* `Comes n bs o b` : first fit for `n` bytes comes to the block `b` at the offset `o`, which it may have enlarged;
* `Whole n b` : this block is handed out as it is, else it is cut after the lower 32 bits of `n`;
* `pick_size` : the size field that is left; `newAlloc_comes`, `Comes.newAlloc` : the calls that return are those that
  come to a block and take it;
* `holds_iff` : when a block handed out has the bytes asked for.
-/

namespace HaOS.Alloc

variable {h h' : Heap} {bs pre post init : List Block} {b last : Block} {size walk depth a s o p n next : Nat}

/-- First fit comes to the first free block that is large enough; the last block gets pages until it is. -/
inductive Comes (n : Nat) : List Block → Nat → Block → Prop
  | fits {pre post : List Block} {b : Block} : (∀ c ∈ pre, ¬ c.Fits n) → b.Fits n →
      Comes n (pre ++ b :: post) (extent pre) b
  | grown {init : List Block} {last b : Block} {o : Nat} : (∀ c ∈ init ++ [last], ¬ c.Fits n) →
      Comes n (init ++ [{ last with size := qword (last.size + 0x1000) }]) o b → Comes n (init ++ [last]) o b

/-- The block is of the size required, or what `remain_size` says is left of it is too small for a header. -/
def Whole (n : Nat) (b : Block) : Prop := b.size = n ∨ dword (b.size - dword n) < sizeofAllocBlock

instance (n : Nat) (b : Block) : Decidable (Whole n b) := inferInstanceAs (Decidable (_ ∨ _))

/-! ## Taking the block -/

/-- A block taken whole keeps its size. Else it has the lower half of the size required, and when that is 0, an assertion
halts the kernel. -/
theorem pick_size (hb : h.mem a = ⟨s, 1, next⟩) (hn : required size ≤ s) (hs : s < 2 ^ 64) (ha : 0 < a)
    (htop : a + sizeofAllocBlock < 2 ^ 64) :
    (Whole (required size) ⟨s, true⟩ ∧ ∃ h', pick h a size = .found h' (a + sizeofAllocBlock) ∧ (h'.mem a).size = s) ∨
      (¬ Whole (required size) ⟨s, true⟩ ∧ dword (required size) ≠ 0 ∧
        ∃ h', pick h a size = .found h' (a + sizeofAllocBlock) ∧ (h'.mem a).size = dword (required size)) ∨
      (¬ Whole (required size) ⟨s, true⟩ ∧ dword (required size) = 0 ∧ pick h a size = .stuck) := by
  have h17 : sizeofAllocBlock = 17 := rfl
  have hlow : dword (required size) ≤ required size := Nat.mod_le _ _
  have hlow32 : dword (required size) < 2 ^ 32 := Nat.mod_lt _ (by decide)
  have hrem : qsub s (dword (required size)) = s - dword (required size) := qsub_of_le hs (hlow.trans hn)
  unfold pick Whole
  by_cases heq : s = required size
  · rw [hb, if_pos heq, qword_of_lt htop]
    exact .inl ⟨.inl heq, _, rfl, by simp⟩
  · rw [hb, if_neg heq]
    simp only [carve, hb, hrem, qword_of_lt htop]
    by_cases hshort : dword (s - dword (required size)) < sizeofAllocBlock
    · simp only [if_pos hshort]
      exact .inl ⟨.inr hshort, _, rfl, by simp⟩
    · have hcut : ¬ (s = required size ∨ dword (s - dword (required size)) < sizeofAllocBlock) := not_or.mpr ⟨heq, hshort⟩
      by_cases hzero : dword (required size) = 0
      · have hself : qword (a + dword (required size)) = a := by
          rw [hzero, Nat.add_zero]
          exact qword_of_lt (by omega)
        simp only [if_neg hshort, hself]
        exact .inr (.inr ⟨hcut, hzero, by simp [ha.ne']⟩)
      · have hne : a ≠ qword (a + dword (required size)) := by
          unfold qword
          omega
        simp only [if_neg hshort]
        rw [if_neg fun hc => hne hc.2]
        exact .inr (.inl ⟨hcut, hzero, _, rfl, by simp⟩)

/-! ## Coming to the block -/

theorem newAlloc_pick (hl : Laid h.mem h.heapStart (pre ++ b :: post)) (ha : 0 < h.heapStart) (hsize : size ≠ 0)
    (hpre : ∀ c ∈ pre, ¬ c.Fits (required size)) (hb : b.Fits (required size)) :
    newAlloc walk (depth + 1) h size = some (h', p) ↔
      pre.length < walk ∧ pick h (h.heapStart + extent pre) size = .found h' p := by
  rw [newAlloc, if_neg hsize, scan_found hl ha hpre hb]
  split_ifs with hw
  · unfold pick
    split_ifs
    · simp [hw]
    · rcases carve h (h.heapStart + extent pre) size with - | ⟨h1, q⟩ <;> simp [hw]
  · simp [hw]

theorem grow_available (h : Heap) (e x : Nat) : ((grow h e).mem x).available = (h.mem x).available := by
  unfold grow
  split_ifs
  · rfl
  · by_cases hx : x = e
    · rw [hx, Heap.mem_store]
    · rw [Heap.mem_store_ne _ _ hx]

theorem carve_available (hr : carve h a size = some (h', p)) {x : Nat} (hx : x ≠ a) :
    (h'.mem x).available = (h.mem x).available ∨ (h'.mem x).available = 1 := by
  rw [carve] at hr
  dsimp only at hr
  generalize qword (a + dword (required size)) = newBlock at hr
  split_ifs at hr
  · rw [Option.some.injEq, Prod.mk.injEq] at hr
    rw [← hr.1, Heap.mem_store_ne _ _ hx]
    exact .inl rfl
  all_goals
    rw [Option.some.injEq, Prod.mk.injEq] at hr
    rw [← hr.1]
    dsimp only
    rw [Heap.mem_store_ne _ _ hx]
    by_cases hnew : x = newBlock
    · rw [hnew, Heap.mem_store]
      exact .inr rfl
    · rw [Heap.mem_store_ne _ _ hnew]
      dsimp only
      rw [Heap.mem_store_ne _ _ hx]
      exact .inl rfl

/-- What is left of a block that is taken is marked available, and no other mark is changed. -/
theorem pick_available (hr : pick h a size = .found h' p) {x : Nat} (hx : x ≠ a) :
    (h'.mem x).available = (h.mem x).available ∨ (h'.mem x).available = 1 := by
  unfold pick at hr
  split_ifs at hr
  · obtain ⟨rfl, -⟩ := Scan.found.inj hr
    exact .inl (by rw [Heap.mem_store_ne _ _ hx])
  · cases hcarve : carve h a size with
    | none =>
        rw [hcarve] at hr
        cases hr
    | some r =>
        rw [hcarve] at hr
        obtain ⟨rfl, rfl⟩ := Scan.found.inj hr
        exact carve_available hcarve hx

theorem newAlloc_comes (hsize : size ≠ 0) : ∀ {depth : Nat} {h : Heap} {init : List Block} {last : Block},
    Laid h.mem h.heapStart (init ++ [last]) → 0 < h.heapStart → (∀ c ∈ init, 0 < c.size) →
    newAlloc walk depth h size = some (h', p) →
    ∃ o b h1 next, Comes (required size) (init ++ [last]) o b ∧ h1.mem (h.heapStart + o) = b.header next ∧
      pick h1 (h.heapStart + o) size = .found h' p ∧ ∀ x, (h1.mem x).available = (h.mem x).available
  | 0, _, _, _, _, _, _, hr => by cases hr
  | depth + 1, h, init, last, hl, ha, hpos, hr => by
      rcases first_fit (required size) (init ++ [last]) with ⟨pre, b, post, hbs, hpre, hb⟩ | hno
      · rw [hbs] at hl ⊢
        obtain ⟨-, hpick⟩ := (newAlloc_pick hl ha hsize hpre hb).mp hr
        exact ⟨_, b, h, _, .fits hpre hb, laid_head ((laid_append (by simp)).mp hl).2, hpick, fun _ => rfl⟩
      · rw [newAlloc_grow hl ha hsize hno, Option.ite_none_right_eq_some] at hr
        have hg := laid_grow (e := h.heapStart + extent init) hl hpos ha
        obtain ⟨o, b, h1, next, hc, hm, hpick, hmarks⟩ := newAlloc_comes hsize hg (by rwa [heapStart_grow]) hpos hr.2
        rw [heapStart_grow] at hm hpick
        exact ⟨o, b, h1, next, .grown hno hc, hm, hpick, fun x => (hmarks x).trans (grow_available _ _ x)⟩

theorem Comes.newAlloc (hsize : size ≠ 0) (hc : Comes (required size) bs o b) : ∀ {h : Heap},
    Laid h.mem h.heapStart bs → 0 < h.heapStart → (∀ c ∈ bs.dropLast, 0 < c.size) →
    ∃ depth h1 next, h1.mem (h.heapStart + o) = b.header next ∧
      ∀ h' p, pick h1 (h.heapStart + o) size = .found h' p → newAlloc (bs.length + 1) depth h size = some (h', p) := by
  induction hc with
  | @fits pre post b hpre hb =>
      intro h hl ha _
      refine ⟨1, h, _, laid_head ((laid_append (by simp)).mp hl).2, fun h' p hpick => ?_⟩
      exact (newAlloc_pick hl ha hsize hpre hb).mpr ⟨by rw [List.length_append]; omega, hpick⟩
  | @grown init last b o hno hc ih =>
      intro h hl ha hpos
      rw [List.dropLast_concat] at hpos
      have hg := laid_grow (e := h.heapStart + extent init) hl hpos ha
      obtain ⟨depth, h1, next, hm, hret⟩ := ih hg (by rwa [heapStart_grow]) (by rwa [List.dropLast_concat])
      rw [heapStart_grow] at hm hret
      refine ⟨depth + 1, h1, next, hm, fun h' p hpick => ?_⟩
      rw [newAlloc_grow hl ha hsize hno, if_pos (by simp)]
      simpa using hret h' p hpick

/-- The block stands where a free block of the list does, and is available. -/
theorem Comes.spec (hc : Comes n bs o b) : b.Fits n ∧ ∃ c, At o c bs ∧ c.free = true := by
  induction hc with
  | fits _ hb => exact ⟨hb, _, at_append.mpr (.inr ⟨0, rfl, .head⟩), hb.1⟩
  | @grown init last b o _ _ ih =>
      obtain ⟨hb, c, hc, hfree⟩ := ih
      refine ⟨hb, ?_⟩
      rcases hc.replace [{ last with size := qword (last.size + 0x1000) }] [last] (fun hp => absurd rfl hp) with
        hc' | ⟨k, rfl, hk⟩
      · exact ⟨c, hc', hfree⟩
      · obtain ⟨rfl, rfl⟩ := at_singleton.mp hk
        exact ⟨last, at_append.mpr (.inr ⟨0, rfl, .head⟩), hfree⟩

theorem Comes.size_lt (hc : Comes n bs o b) (hbs : ∀ c ∈ bs, c.size < 2 ^ 64) : b.size < 2 ^ 64 := by
  induction hc with
  | fits => exact hbs _ (by simp)
  | @grown init last b o _ _ ih =>
      refine ih fun c hc => ?_
      rcases List.mem_append.mp hc with hc | hc
      · exact hbs c (List.mem_append_left _ hc)
      · rw [List.mem_singleton.mp hc]
        exact qword_lt _

/-- A call that returns takes a block that was free, and marks no other block as taken. -/
theorem newAlloc_block (ht : Tiled h bs) (htop : h.heapStart + h.heapSize < 2 ^ 64) (hsize : size ≠ 0)
    (hn : size + sizeofAllocBlock < 2 ^ 31) (hr : newAlloc walk depth h size = some (h', p)) :
    ∃ o c, At o c bs ∧ c.free = true ∧ p = h.heapStart + o + sizeofAllocBlock ∧ p < 2 ^ 64 ∧
      (h'.mem (h.heapStart + o)).available = 0 ∧
      ∀ x ≠ h.heapStart + o, (h'.mem x).available = (h.mem x).available ∨ (h'.mem x).available = 1 := by
  obtain ⟨init, last, rfl⟩ := ht.eq_concat
  have hpos : ∀ c ∈ init, 0 < c.size := fun c hc => ht.pos c (List.mem_append_left _ hc)
  obtain ⟨o, b, h1, next, hc, hm, hpick, hmarks⟩ := newAlloc_comes hsize ht.laid ht.start hpos hr
  obtain ⟨hb, c, hat, hfree⟩ := hc.spec
  have htaken := fun x (hx : x ≠ h.heapStart + o) => hmarks x ▸ pick_available hpick hx
  obtain ⟨h2, hpick', hav, -⟩ := pick_found (h := h1) (a := h.heapStart + o) (by rwa [hm, header_fits]) hn
  rw [hpick, Scan.found.injEq] at hpick'
  obtain ⟨rfl, rfl⟩ := hpick'
  have hlt : h.heapStart + o + sizeofAllocBlock < 2 ^ 64 := by
    have hmin := ht.min c hat.mem
    have hle := hat.le_extent
    have hext := ht.size
    omega
  rw [qword_of_lt hlt]
  exact ⟨o, c, hat, hfree, rfl, hlt, hav, htaken⟩

/-! ## The bytes handed out -/

/-- Every block handed out has the bytes asked for, as a natural number. -/
def Holds (h : Heap) (size : Nat) : Prop :=
  ∀ walk depth h' p, newAlloc walk depth h size = some (h', p) → p ≠ 0 →
    size + sizeofAllocBlock ≤ (h'.mem (qsub p sizeofAllocBlock)).size

theorem Comes.taken {h1 : Heap} (hc : Comes (required size) bs o b) (ht : Tiled h bs)
    (htop : h.heapStart + h.heapSize < 2 ^ 64) (hm : h1.mem (h.heapStart + o) = b.header next) :
    0 < h.heapStart + o ∧ h.heapStart + o + sizeofAllocBlock < 2 ^ 64 ∧ required size ≤ b.size ∧ b.size < 2 ^ 64 ∧
      ((Whole (required size) b ∧ ∃ h', pick h1 (h.heapStart + o) size = .found h' (h.heapStart + o + sizeofAllocBlock) ∧
          (h'.mem (h.heapStart + o)).size = b.size) ∨
        (¬ Whole (required size) b ∧ dword (required size) ≠ 0 ∧
          ∃ h', pick h1 (h.heapStart + o) size = .found h' (h.heapStart + o + sizeofAllocBlock) ∧
            (h'.mem (h.heapStart + o)).size = dword (required size)) ∨
        (¬ Whole (required size) b ∧ dword (required size) = 0 ∧ pick h1 (h.heapStart + o) size = .stuck)) := by
  obtain ⟨⟨hfree, hle⟩, c, hat, -⟩ := hc.spec
  have hstart := ht.start
  have hext := ht.size
  have hplace := hat.le_extent
  have hmin := ht.min c hat.mem
  have hlt : b.size < 2 ^ 64 := by
    refine hc.size_lt fun d hd => ?_
    obtain ⟨pre, post, rfl⟩ := List.append_of_mem hd
    rw [extent_append, extent_cons] at hext
    omega
  obtain ⟨s, free⟩ := b
  dsimp only at hfree hle hlt
  subst hfree
  have htop' : h.heapStart + o + sizeofAllocBlock < 2 ^ 64 := by omega
  exact ⟨by omega, htop', hle, hlt, pick_size hm hle hlt (by omega) htop'⟩

theorem qsub_payload (ha : a + sizeofAllocBlock < 2 ^ 64) : qsub (a + sizeofAllocBlock) sizeofAllocBlock = a := by
  rw [qsub_of_le ha (Nat.le_add_left _ _), Nat.add_sub_cancel]

theorem holds_zero (h : Heap) : Holds h 0 := by
  intro walk depth h' p hr hp
  cases depth with
  | zero => cases hr
  | succ depth =>
      rw [newAlloc, if_pos rfl, Option.some.injEq, Prod.mk.injEq] at hr
      exact absurd hr.2.symm hp

/-- A large request comes to a block that has the bytes, or halts. -/
theorem Holds.comes (hh : Holds h size) (ht : Tiled h (init ++ [last])) (htop : h.heapStart + h.heapSize < 2 ^ 64)
    (hsize : size ≠ 0) (hlarge : ¬ size + sizeofAllocBlock < 2 ^ 32) (hc : Comes (required size) (init ++ [last]) o b) :
    (Whole (required size) b ∧ size + sizeofAllocBlock < 2 ^ 64) ∨
      (¬ Whole (required size) b ∧ dword (required size) = 0) := by
  have hpos : ∀ c ∈ init, 0 < c.size := fun c hc => ht.pos c (List.mem_append_left _ hc)
  have hlow32 : dword (required size) < 2 ^ 32 := Nat.mod_lt _ (by decide)
  obtain ⟨depth, h1, next, hm, hret⟩ := hc.newAlloc hsize ht.laid ht.start (by rwa [List.dropLast_concat])
  obtain ⟨ha, htop', -, hlt, hcases⟩ := hc.taken ht htop hm
  -- a block that is handed out has to have the bytes
  have hserved : ∀ h', pick h1 (h.heapStart + o) size = .found h' (h.heapStart + o + sizeofAllocBlock) →
      size + sizeofAllocBlock ≤ (h'.mem (h.heapStart + o)).size := by
    intro h' hpick
    have hle := hh _ _ _ _ (hret _ _ hpick) (by omega)
    rwa [qsub_payload htop'] at hle
  rcases hcases with ⟨hwhole, h', hpick, hb⟩ | ⟨-, -, h', hpick, hb⟩ | ⟨hcut, hzero, -⟩
  · have hle := hserved h' hpick
    rw [hb] at hle
    exact .inl ⟨hwhole, by omega⟩
  · have hle := hserved h' hpick
    rw [hb] at hle
    omega
  · exact .inr ⟨hcut, hzero⟩

/-- A small request has its bytes, and a large one at a block that is handed out whole. -/
theorem holds_of_comes (ht : Tiled h (init ++ [last])) (htop : h.heapStart + h.heapSize < 2 ^ 64) (hsize : size ≠ 0)
    (hcond : size + sizeofAllocBlock < 2 ^ 32 ∨ ∀ o b, Comes (required size) (init ++ [last]) o b →
      (Whole (required size) b ∧ size + sizeofAllocBlock < 2 ^ 64) ∨
      (¬ Whole (required size) b ∧ dword (required size) = 0)) : Holds h size := by
  have hpos : ∀ c ∈ init, 0 < c.size := fun c hc => ht.pos c (List.mem_append_left _ hc)
  intro walk depth h' p hr _
  obtain ⟨o, b, h1, next, hc, hm, hpick, -⟩ := newAlloc_comes hsize ht.laid ht.start hpos hr
  obtain ⟨ha, htop', hle, hlt, hcases⟩ := hc.taken ht htop hm
  rcases hcases with ⟨hwhole, h2, hpick2, hb⟩ | ⟨hcut, hne, h2, hpick2, hb⟩ | ⟨-, -, hstuck⟩
  · rw [hpick, Scan.found.injEq] at hpick2
    rw [hpick2.1, hpick2.2, qsub_payload htop', hb]
    have hlt64 : size + sizeofAllocBlock < 2 ^ 64 := by
      rcases hcond with hsmall | hsafe
      · omega
      · exact (hsafe o b hc).elim (·.2) fun hbad => absurd hwhole hbad.1
    rwa [required_of_lt hlt64] at hle
  · rw [hpick, Scan.found.injEq] at hpick2
    rw [hpick2.1, hpick2.2, qsub_payload htop', hb]
    rcases hcond with hsmall | hsafe
    · rw [required_of_lt (by omega), dword_of_lt hsmall]
    · exact (hsafe o b hc).elim (fun hgood => absurd hgood.1 hcut) fun hbad => absurd hbad.2 hne
  · rw [hpick] at hstuck
    cases hstuck

/-- Requests below 2^32 bytes are served in full. A larger one is when first fit comes to a block that is handed out whole,
and `size + 17` is not past 2^64; or when the call halts, as there is nothing left of the size in its lower 32 bits. -/
theorem holds_iff (ht : Tiled h bs) (htop : h.heapStart + h.heapSize < 2 ^ 64) :
    Holds h size ↔ size = 0 ∨ size + sizeofAllocBlock < 2 ^ 32 ∨ ∀ o b, Comes (required size) bs o b →
      (Whole (required size) b ∧ size + sizeofAllocBlock < 2 ^ 64) ∨
      (¬ Whole (required size) b ∧ dword (required size) = 0) := by
  obtain ⟨init, last, rfl⟩ := ht.eq_concat
  by_cases hsize : size = 0
  · rw [hsize]
    exact iff_of_true (holds_zero h) (.inl rfl)
  constructor
  · intro hholds
    by_cases hsmall : size + sizeofAllocBlock < 2 ^ 32
    · exact .inr (.inl hsmall)
    · exact .inr (.inr fun o b hc => hholds.comes ht htop hsize hsmall hc)
  · intro hcond
    exact holds_of_comes ht htop hsize (hcond.resolve_left hsize)

theorem holds_iff_firstPage : Holds (initAlloc (fun _ => ⟨0, 0, 0⟩) 0xFFFFFFFF80200000) 48 ↔
    48 = 0 ∨ 48 + sizeofAllocBlock < 2 ^ 32 ∨ ∀ o b, Comes (required 48) [⟨0x1000, true⟩] o b →
      (Whole (required 48) b ∧ 48 + sizeofAllocBlock < 2 ^ 64) ∨ (¬ Whole (required 48) b ∧ dword (required 48) = 0) :=
  holds_iff (tiled_initAlloc _ (by decide)) (by decide)

/-- A request for all bytes of the address space gets a block of 16, less than its header. -/
theorem not_holds_firstPage : ¬ Holds (initAlloc (fun _ => ⟨0, 0, 0⟩) 0xFFFFFFFF80200000) (2 ^ 64 - 1) := by
  intro hholds
  have hnew : (newAlloc 2 1 (initAlloc (fun _ => ⟨0, 0, 0⟩) 0xFFFFFFFF80200000) (2 ^ 64 - 1)).map
      (fun r => (r.2, (r.1.mem 0xFFFFFFFF80200000).size)) = some (0xFFFFFFFF80200011, 16) := by decide +kernel
  obtain ⟨⟨h', p⟩, hr, heq⟩ := Option.map_eq_some_iff.mp hnew
  obtain ⟨rfl, hsize⟩ := Prod.mk.injEq .. ▸ heq
  have hle := hholds _ _ _ _ hr (by decide)
  rw [show qsub 0xFFFFFFFF80200011 sizeofAllocBlock = 0xFFFFFFFF80200000 by decide, hsize] at hle
  revert hle
  decide

end HaOS.Alloc
