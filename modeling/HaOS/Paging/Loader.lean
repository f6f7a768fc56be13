import HaOS.Paging.Supply

/-!
# The tables of the loader (`boot/UEFI/page.c`, `boot/UEFI/main.c`)

The loader runs with the firmware's identity mapping and writes the tables at their physical addresses. The allocations
it asks of the firmware succeed, or it halts.

* `kernelCreateNewPage`, `kernelAlloc4KPage`, `kernelMapPagePhysical`, `kernelMapPage` : the functions of `page.c`;
* `bootState` : the tables and the bitmap with which `LoadKernel` ends;
* `Used` : every table and every frame a page table entry names is marked; `used_bootState` : so it is at the start.
-/

namespace HaOS.Paging
open Lib.Radix (descend)

def entryFlags : Nat := 1 <<< 0 ||| 1 <<< 1

/-- A round of the loop that maps the first frames to themselves. -/
def identityPage (i : Nat) (s : State) : State :=
  (s.store 4 (Fin.ofNat 512 i) (i * pageSize ||| entryFlags)).setBit (i / 8) (i % 8)

/-- `Kernel_createNewPage`; the firmware's memory is `mem`. -/
def kernelCreateNewPage (mem : Nat → Index → Nat) : State :=
  let s : State :=
    { mem := fun f i => if 1 ≤ f ∧ f ≤ 6 then 0 else mem f i
      bitmap := fun _ => 0
      pmlt4 := 0x1000
      refused := 0 }
  let s := s.store 1 0 (0x2000 ||| entryFlags)
  let s := s.store 2 0 (0x3000 ||| entryFlags)
  let s := s.store 3 0 (0x4000 ||| entryFlags)
  let s := forPages identityPage 7 s
  s.store 3 511 (0x5000 ||| entryFlags)

/-- `Kernel_Alloc4KPage`. -/
def kernelAlloc4KPage (s : State) : State × Nat :=
  match scan s.bitmap pageBitmapSize 0 with
  | some (i, j) =>
    let s := { s with mem := fun g k => if g = i * 8 + j then 0 else s.mem g k }
    (s.setBit i j, (i * 8 + j) * pageSize)
  | none => ({ s with refused := s.refused + 1 }, 2 ^ 64 - 1)

/-- `CHECK_AND_CREATE_FRAME` on the entry `i` of the table `f`, and the frame of the table it names. -/
def checkAndCreateFrame (s : State) (f : Nat) (i : Index) (flags : Nat) : State × Nat :=
  let s :=
    if Present (s.mem f i) then s
    else
      let (s, page) := kernelAlloc4KPage s
      s.store f i (page ||| flags)
  (s, frameOf (s.mem f i))

def kernelTables (s : State) (virt flags : Nat) : State × Nat :=
  let (s, pdptTable) := checkAndCreateFrame s s.root (pmlt4Index virt) flags
  let (s, pdtTable) := checkAndCreateFrame s pdptTable (pdptIndex virt) flags
  checkAndCreateFrame s pdtTable (pdtIndex virt) flags

def physicalPage (flags : Nat) (s : State) (virt physc : Nat) : State :=
  let (s, ptTable) := kernelTables s virt flags
  let s := s.store ptTable (ptIndex virt) (physc ||| flags)
  s.setBit ((physc >>> 12) / 8) ((physc >>> 12) % 8)

def kernelMapPagePhysical (s : State) (virtAddress physicalAddress size flags : Nat) : State :=
  forPages (fun i s => physicalPage flags s (qword (virtAddress + i * pageSize)) (qword (physicalAddress + i * pageSize)))
    (pages size) s

def freshPage (flags : Nat) (s : State) (virt : Nat) : State :=
  let (s, ptTable) := kernelTables s virt flags
  let (s, page) := kernelAlloc4KPage s
  s.store ptTable (ptIndex virt) (page ||| flags)

def kernelMapPage (s : State) (virtAddress size flags : Nat) : State :=
  forPages (fun i s => freshPage flags s (qword (virtAddress + i * pageSize))) (pages size) s

/-- `LoadKernel`: the kernel at its virtual address, `gkrnl.bin` and the font where they lie. -/
def bootState (mem : Nat → Index → Nat) (kernelSize fontData : Nat) : State :=
  let s := kernelCreateNewPage mem
  let s := kernelMapPagePhysical s 0xffffffff80100000 0x100000 kernelSize entryFlags
  let s := kernelMapPagePhysical s 0x15000 0x15000 0x1000 entryFlags
  kernelMapPagePhysical s fontData fontData 0x2000 entryFlags

/-! ## The first tables -/

theorem identityPages (s : State) {n : Nat} (hn : n ≤ 512) :
    (forPages identityPage n s).pmlt4 = s.pmlt4 ∧ (forPages identityPage n s).refused = s.refused ∧
      (∀ g j, (forPages identityPage n s).mem g j =
        if g = 4 ∧ j.val < n then j * pageSize ||| entryFlags else s.mem g j) ∧
      ∀ f, Bit (forPages identityPage n s).bitmap f ↔ f < n ∨ Bit s.bitmap f := by
  induction n with
  | zero => simp [forPages]
  | succ n ih =>
      obtain ⟨hpmlt4, href, hmem, hbit⟩ := ih (by omega)
      refine ⟨hpmlt4, href, fun g j => ?_, fun f => ?_⟩
      · show (if g = 4 ∧ j = Fin.ofNat 512 n then n * pageSize ||| entryFlags else (forPages identityPage n s).mem g j) = _
        rw [hmem]
        have hj : j = Fin.ofNat 512 n ↔ j.val = n := by
          rw [Fin.ext_iff]
          show j.val = n % 512 ↔ _
          rw [Nat.mod_eq_of_lt (by omega)]
        simp only [hj]
        by_cases h4 : g = 4 <;> by_cases hlt : j.val < n <;> by_cases heq : j.val = n <;>
          simp [h4, hlt, heq] <;> omega
      · refine (bit_set (Nat.mod_lt _ (by decide)) f).trans ?_
        rw [bitmap_store, hbit, show n % 8 + n / 8 * 8 = n by omega, Nat.lt_succ_iff_lt_or_eq, ← or_assoc,
          or_comm (b := f < n)]

theorem mem_kernelCreateNewPage (mem : Nat → Index → Nat) {f : Nat} (hf : 1 ≤ f ∧ f ≤ 5) (i : Index) :
    (kernelCreateNewPage mem).mem f i =
      if f = 3 ∧ i = 511 then 0x5003 else if f = 4 ∧ i.val < 7 then i * pageSize ||| entryFlags
      else if f = 3 ∧ i = 0 then 0x4003 else if f = 2 ∧ i = 0 then 0x3003 else if f = 1 ∧ i = 0 then 0x2003 else 0 := by
  show (if f = 3 ∧ i = 511 then 0x5003 else (forPages identityPage 7 _).mem f i) = _
  rw [(identityPages _ (by decide)).2.2.1]
  simp only [mem_store, hf.1, show f ≤ 6 from by omega, and_self, if_true]
  rfl

theorem child_kernelCreateNewPage (mem : Nat → Index → Nat) {g : Nat} (hg : 1 ≤ g ∧ g ≤ 3) (i : Index) :
    child (kernelCreateNewPage mem).mem g i =
      if g = 3 ∧ i = 511 then some 5 else if i = 0 then some (g + 1) else none := by
  unfold child
  rw [mem_kernelCreateNewPage mem ⟨hg.1, by omega⟩]
  obtain rfl | rfl | rfl : g = 1 ∨ g = 2 ∨ g = 3 := by omega
  all_goals by_cases h0 : i = 0
  all_goals by_cases h5 : i = 511
  all_goals simp [h0, h5]
  all_goals decide

theorem root_kernelCreateNewPage (mem : Nat → Index → Nat) : (kernelCreateNewPage mem).root = 1 := by
  show frameOf 0x1000 = 1
  decide

def firstTables : List (List Index × Nat) := [([], 1), ([0], 2), ([0, 0], 3), ([0, 0, 0], 4), ([0, 0, 511], 5)]

theorem table_kernelCreateNewPage (mem : Nat → Index → Nat) {p : List Index} {f : Nat} (hp : p.length ≤ 3)
    (h : (kernelCreateNewPage mem).table p = some f) : (p, f) ∈ firstTables := by
  -- below the root and the first two tables, the entry 0 leads on
  have hnext : ∀ g a q, 1 ≤ g ∧ g ≤ 2 → descend (child (kernelCreateNewPage mem).mem) g (a :: q) = some f →
      a = 0 ∧ descend (child (kernelCreateNewPage mem).mem) (g + 1) q = some f := by
    intro g a q hg h
    rw [descend, child_kernelCreateNewPage mem ⟨hg.1, by omega⟩, if_neg (by omega)] at h
    by_cases ha : a = 0
    · rw [if_pos ha] at h
      exact ⟨ha, h⟩
    · rw [if_neg ha] at h
      cases h
  unfold State.table at h
  rw [root_kernelCreateNewPage] at h
  rcases p with - | ⟨a, - | ⟨b, - | ⟨c, - | ⟨d, p⟩⟩⟩⟩
  · cases h
    decide
  · obtain ⟨rfl, h'⟩ := hnext 1 a [] (by decide) h
    cases h'
    decide
  · obtain ⟨rfl, h'⟩ := hnext 1 a [b] (by decide) h
    obtain ⟨rfl, h''⟩ := hnext 2 b [] (by decide) h'
    cases h''
    decide
  · obtain ⟨rfl, h'⟩ := hnext 1 a [b, c] (by decide) h
    obtain ⟨rfl, h''⟩ := hnext 2 b [c] (by decide) h'
    rw [descend, child_kernelCreateNewPage mem (by decide)] at h''
    by_cases h5 : c = 511
    · subst h5
      cases h''
      decide
    · rw [if_neg fun h => h5 h.2] at h''
      by_cases h0 : c = 0
      · subst h0
        cases h''
        decide
      · rw [if_neg h0] at h''
        cases h''
  · simp only [List.length_cons] at hp
    omega

theorem bit_kernelCreateNewPage (mem : Nat → Index → Nat) (f : Nat) : Bit (kernelCreateNewPage mem).bitmap f ↔ f < 7 := by
  refine ((identityPages _ (by decide)).2.2.2 f).trans (or_iff_left ?_)
  simp [Bit]

theorem marked_kernelCreateNewPage (mem : Nat → Index → Nat) {f : Nat} (hf : f < 7) :
    (kernelCreateNewPage mem).Marked f :=
  ⟨Nat.lt_trans hf (by decide), (bit_kernelCreateNewPage mem f).mpr hf⟩

/-- The first page table maps the first frames to themselves, and `frame_pt` nothing. -/
theorem leaf_kernelCreateNewPage (mem : Nat → Index → Nat) {p : List Index} {i : Index} {f : Nat} (hp : p.length = 3)
    (hf : target ((kernelCreateNewPage mem).entry p i) = some f) : f < 7 := by
  cases ht : (kernelCreateNewPage mem).table p with
  | none =>
      rw [entry_of_none ht] at hf
      cases hf
  | some g =>
      have hg : ∀ x ∈ firstTables, x.1.length = 3 → x.2 = 4 ∨ x.2 = 5 := by decide
      rw [entry_of_table ht] at hf
      obtain rfl | rfl : g = 4 ∨ g = 5 := hg _ (table_kernelCreateNewPage mem hp.le ht) hp
      · rw [mem_kernelCreateNewPage mem (by decide)] at hf
        simp only [Nat.reduceEqDiff, false_and, true_and, if_false] at hf
        split_ifs at hf with hi
        · have hflags : entryFlags < pageSize := by decide
          have := (target_or_eq hflags hf).trans (frameOf_mul (Nat.lt_trans i.isLt (by decide)))
          omega
        · cases hf
      · rw [mem_kernelCreateNewPage mem (by decide)] at hf
        simp at hf
        cases hf

/-- The tables start out as a tree. -/
theorem treeShaped_kernelCreateNewPage (mem : Nat → Index → Nat) : TreeShaped (kernelCreateNewPage mem) := by
  have hbit : ∀ f < 7, (kernelCreateNewPage mem).Marked f := fun f hf => marked_kernelCreateNewPage mem hf
  have hlow : ∀ x ∈ firstTables, x.2 < 6 := by decide
  have hinj : ∀ x ∈ firstTables, ∀ y ∈ firstTables, x.2 = y.2 → x.1 = y.1 := by decide
  refine ⟨?_, ?_, ?_, hbit _ (by decide), ?_⟩
  · intro p q n hp hq hpn hqn
    exact hinj _ (table_kernelCreateNewPage mem hp hpn) _ (table_kernelCreateNewPage mem hq hqn) rfl
  · intro p f hp h
    exact hbit f (Nat.lt_succ_of_lt (hlow _ (table_kernelCreateNewPage mem hp h)))
  · show descend (child (kernelCreateNewPage mem).mem) (kernelCreateNewPage mem).root [0, 0, 511] = some 5
    rw [root_kernelCreateNewPage]
    have h1 : child (kernelCreateNewPage mem).mem 1 0 = some 2 := child_kernelCreateNewPage mem (by decide) 0
    have h2 : child (kernelCreateNewPage mem).mem 2 0 = some 3 := child_kernelCreateNewPage mem (by decide) 0
    have h3 : child (kernelCreateNewPage mem).mem 3 511 = some 5 := child_kernelCreateNewPage mem (by decide) 511
    simp only [descend, h1, h2, h3, Option.bind_some]
  · intro p hp h
    have := hlow _ (table_kernelCreateNewPage mem hp h)
    simp [bitmapFrame, frameOf, pageBitmapAddress, pageSize] at this

/-! ## Frames in use -/

/-- Every table is marked, and so is every frame that a present entry of a page table names. -/
structure Used (s : State) : Prop where
  shape : TreeShaped s
  leaf : ∀ p i f, p.length = 3 → target (s.entry p i) = some f → s.Marked f

variable {s t u : State} {p : List Index} {i : Index} {n f e flags virt physc : Nat}

/-- A page table entry that is written names a marked frame, and so does the one of the window. -/
theorem Used.step (h : Used s) (hs : TreeShaped t) (hext : Extends flags (Only p i) s t)
    (hentry : ∀ f, target (t.entry p i) = some f → t.Marked f)
    (hwin : ∀ f, target (t.mem framePt 0) = some f → t.Marked f) : Used t where
  shape := hs
  leaf q j f hq hf := by
    by_cases hw : q = windowPath ∧ j = 0
    · rw [hw.1, hw.2, entry_of_table hs.window] at hf
      exact hwin f hf
    · by_cases hT : q = p ∧ j = i
      · rw [hT.1, hT.2] at hf
        exact hentry f hf
      · rw [hext.entry q j hq hw hT] at hf
        exact (h.leaf q j f hq hf).mono hext.bit

theorem Used.written (h : Used s) (hp : p.length = 3) (hw : Written flags s t p i e)
    (he : ∀ f, target e = some f → t.Marked f) : Used t := by
  refine h.step hw.shape hw.ext (fun f hf => ?_) fun f hf => ?_
  · obtain hold | hnew := hw.entry
    · rw [hold] at hf
      exact (h.leaf p i f hp hf).mono hw.ext.bit
    · rw [hnew] at hf
      exact he f hf
  · obtain h0 | hm := hw.window
    · rw [h0] at hf
      cases hf
    · rw [target_frameOf hf]
      exact hm

theorem refused_le_kernelAlloc4KPage (s : State) : s.refused ≤ (kernelAlloc4KPage s).1.refused := by
  unfold kernelAlloc4KPage
  split
  · exact le_refl _
  · exact Nat.le_succ _

theorem kernelAlloc4KPage_cases (s : State) :
    (∃ f ∈ s.free, (∀ g < f, Bit s.bitmap g) ∧ (kernelAlloc4KPage s).2 = f * pageSize ∧
      (kernelAlloc4KPage s).1.pmlt4 = s.pmlt4 ∧ (kernelAlloc4KPage s).1.refused = s.refused ∧
      (∀ g, Bit (kernelAlloc4KPage s).1.bitmap g ↔ g = f ∨ Bit s.bitmap g) ∧
      (∀ i, pageBitmapSize ≤ i → (kernelAlloc4KPage s).1.bitmap i = s.bitmap i) ∧
      ∀ g j, (kernelAlloc4KPage s).1.mem g j = if g = f then 0 else s.mem g j) ∨
    s.free = ∅ ∧ kernelAlloc4KPage s = ({ s with refused := s.refused + 1 }, 2 ^ 64 - 1) := by
  unfold kernelAlloc4KPage
  cases h : scan s.bitmap pageBitmapSize 0 with
  | none =>
      refine .inr ⟨Finset.eq_empty_iff_forall_notMem.mpr fun g hg => ?_, rfl⟩
      obtain ⟨hlt, hfree⟩ := mem_free.mp hg
      refine hfree (scan_none h g (Nat.zero_le g) ?_)
      rwa [Nat.zero_add]
  | some x =>
      obtain ⟨-, hi, hj, hbit⟩ := scan_some h
      have hleast := scan_lowest h
      obtain ⟨i, j⟩ := x
      simp only at hi hj hbit hleast
      refine .inl ⟨i * 8 + j, mem_free.mpr ⟨?_, ?_⟩, fun g hg => hleast g (Nat.zero_le g) (by omega), rfl, rfl, rfl,
        fun g => ?_, fun k hk => ?_, fun _ _ => rfl⟩
      · unfold frames
        omega
      · unfold Bit
        rw [show (i * 8 + j) / 8 = i by omega, show (i * 8 + j) % 8 = j by omega, hbit]
        decide
      · rw [Nat.add_comm (i * 8)]
        exact bit_set hj g
      · exact Function.update_of_ne (by omega) _ _

/-- What a grant of the loader's keeps, and the frame it takes. -/
theorem kernelAlloc4KPage_spec (hs : TreeShaped s) (href : (kernelAlloc4KPage s).1.refused = s.refused) :
    ∃ f ∈ s.free, (∀ g < f, Bit s.bitmap g) ∧ Keeps s (kernelAlloc4KPage s).1 ∧ (kernelAlloc4KPage s).2 = f * pageSize ∧
      (kernelAlloc4KPage s).1.free = s.free.erase f ∧ (∀ j, (kernelAlloc4KPage s).1.mem f j = 0) ∧
      (kernelAlloc4KPage s).1.mem framePt 0 = s.mem framePt 0 := by
  obtain ⟨f, hf, hleast, hframe, hpmlt4, -, hbit, -, hmem⟩ | ⟨-, hnone⟩ := kernelAlloc4KPage_cases s
  · have hne : ∀ g, s.Marked g → g ≠ f := by
      rintro g hg rfl
      exact (mem_free.mp hf).2 hg.2
    have hold : ∀ g j, s.Marked g → (kernelAlloc4KPage s).1.mem g j = s.mem g j := fun g j hg => by
      rw [hmem, if_neg (hne g hg)]
    refine ⟨f, hf, hleast, ⟨hpmlt4, fun p hp => ?_, fun g hg => (hbit g).mpr (.inr hg), fun g k hg _ => hold g k hg⟩,
      hframe, ?_, fun j => by rw [hmem, if_pos rfl], hold _ _ (hs.marked _ _ (by decide) hs.window)⟩
    · refine table_congr hpmlt4 (fun q g hq hg => ?_) hp
      funext k
      exact hold g k (hs.marked q g hq.le hg)
    · ext g
      rw [Finset.mem_erase, mem_free, mem_free, hbit, not_or]
      exact and_left_comm
  · rw [hnone] at href
    exact absurd href (Nat.succ_ne_self _)

theorem refused_le_checkAndCreateFrame : s.refused ≤ (checkAndCreateFrame s n i flags).1.refused := by
  unfold checkAndCreateFrame
  split_ifs
  · exact le_refl _
  · exact refused_le_kernelAlloc4KPage s

theorem checkAndCreateFrame_visit (hs : TreeShaped s) (hflags : flags < pageSize) (hp : p.length < 3)
    (hn : At flags s p n) : Visit flags s n i (checkAndCreateFrame s n i flags).1 (checkAndCreateFrame s n i flags).2 := by
  by_cases hpres : Present (s.mem n i)
  · simp only [checkAndCreateFrame, hpres, if_true]
    exact .present (.refl s) rfl rfl hpres
  · by_cases href : (kernelAlloc4KPage s).1.refused = s.refused
    · obtain ⟨f, hf, -, hk, hframe, hfree, hzero, -⟩ := kernelAlloc4KPage_spec hs href
      have hmem : (kernelAlloc4KPage s).1.mem n i = s.mem n i :=
        hk.mem n i (hn.marked hs hp.le) fun h => hn.ne_framePt hs hp h.1
      simp only [checkAndCreateFrame, hpres, if_false, hframe, mem_store, and_self, if_true]
      rw [frameOf_or hflags, frameOf_mul (Nat.lt_trans (mem_free.mp hf).1 (by decide))]
      exact .fresh hk hf hfree href hpres hmem hzero
    · obtain ⟨f, -, -, -, -, hsame, -⟩ | ⟨hfull, -⟩ := kernelAlloc4KPage_cases s
      · exact absurd hsame href
      · have hlt : s.refused < (checkAndCreateFrame s n i flags).1.refused := by
          simp only [checkAndCreateFrame, hpres, if_false, refused_store]
          exact lt_of_le_of_ne (refused_le_kernelAlloc4KPage s) (Ne.symm href)
        exact .refused hpres hfull hlt _

theorem checkAndCreateFrame_linked (hs : TreeShaped s) (hflags : flags < pageSize) (hp : p.length < 3)
    (hn : At flags s p n) (href : (checkAndCreateFrame s n i flags).1.refused = s.refused) :
    Linked flags s (checkAndCreateFrame s n i flags).1 (p ++ [i]) (checkAndCreateFrame s n i flags).2 ∧
      (checkAndCreateFrame s n i flags).1.mem framePt 0 = s.mem framePt 0 := by
  refine ⟨(checkAndCreateFrame_visit hs hflags hp hn).linked hs hflags hp hn href, ?_⟩
  have hne : n ≠ framePt := hn.ne_framePt hs hp
  unfold checkAndCreateFrame at href ⊢
  split_ifs at href ⊢
  · rfl
  · obtain ⟨f, -, -, -, -, -, -, hwin⟩ := kernelAlloc4KPage_spec hs href
    rw [mem_store_of_ne (Ne.symm hne)]
    exact hwin

theorem refused_le_kernelTables : s.refused ≤ (kernelTables s virt flags).1.refused :=
  (refused_le_checkAndCreateFrame.trans refused_le_checkAndCreateFrame).trans refused_le_checkAndCreateFrame

theorem refused_le_physicalPage : s.refused ≤ (physicalPage flags s virt physc).refused := refused_le_kernelTables

theorem kernelTables_linked (hs : TreeShaped s) (hflags : flags < pageSize)
    (href : (kernelTables s virt flags).1.refused = s.refused) :
    Linked flags s (kernelTables s virt flags).1 (tablePath virt) (kernelTables s virt flags).2 ∧
      (kernelTables s virt flags).1.mem framePt 0 = s.mem framePt 0 := by
  have h1 : s.refused ≤ (checkAndCreateFrame s s.root (pmlt4Index virt) flags).1.refused :=
    refused_le_checkAndCreateFrame
  have h2 : (checkAndCreateFrame s s.root (pmlt4Index virt) flags).1.refused ≤ (checkAndCreateFrame
    (checkAndCreateFrame s s.root (pmlt4Index virt) flags).1
    (checkAndCreateFrame s s.root (pmlt4Index virt) flags).2 (pdptIndex virt) flags).1.refused :=
    refused_le_checkAndCreateFrame
  have h3 : _ ≤ (kernelTables s virt flags).1.refused := refused_le_checkAndCreateFrame
  have hlen0 : ([] : List Index).length < 3 := by decide
  have hlen1 : [pmlt4Index virt].length < 3 := Nat.lt_of_succ_lt (Nat.lt_succ_self 2)
  have hlen2 : ([pmlt4Index virt] ++ [pdptIndex virt]).length < 3 := Nat.lt_succ_self 2
  have hat : At flags s [] s.root := .inl rfl
  obtain ⟨hpdpt, hw1⟩ := checkAndCreateFrame_linked hs hflags hlen0 hat (le_antisymm (href ▸ h2.trans h3) h1)
  obtain ⟨hpdt, hw2⟩ := checkAndCreateFrame_linked hpdpt.shape hflags hlen1 hpdpt.place
    (le_antisymm (h3.trans (href.le.trans h1)) h2)
  obtain ⟨hpt, hw3⟩ := checkAndCreateFrame_linked hpdt.shape hflags hlen2 hpdt.place
    (le_antisymm (href.le.trans (h1.trans h2)) h3)
  exact ⟨(hpdpt.trans hpdt).trans hpt, hw3.trans (hw2.trans hw1)⟩

theorem keeps_setBit (s : State) (a : Nat) {b : Nat} (hb : b < 8) : Keeps s (s.setBit a b) where
  pmlt4 := rfl
  table _ _ := rfl
  bit f hf := (bit_set hb f).mpr (.inr hf)
  mem _ _ _ _ := rfl

theorem Used.store (h : Used s) (hlinked : Linked flags s t p n) (hwin : t.mem framePt 0 = s.mem framePt 0)
    (hp : p.length = 3) (i : Index) (hk : Keeps (t.store n i e) u) (hmem : u.mem = (t.store n i e).mem)
    (he : ∀ f, target e = some f → u.Marked f) : Used u := by
  obtain ⟨hshape, hext⟩ := hlinked.place.store hlinked.shape hp i e
  have hall : Extends flags (Only p i) s u :=
    ((hlinked.ext.mono fun _ _ => False.elim).trans hext).trans (hshape.extends hk)
  have hentry : u.entry p i = (t.store n i e).entry p i := by
    unfold State.entry
    rw [hk.table p hp.le, hmem]
  refine h.step (hshape.keeps hk) hall (fun f hf => ?_) fun f hf => ?_
  · rw [hentry] at hf
    obtain hn | ⟨hpres, hn⟩ := hlinked.place
    · rw [entry_store hlinked.shape hp hn] at hf
      exact he f hf
    · -- without the present bit the table is at no path
      have hsame : (t.store n i e).entry p i = t.entry p i := entry_store_orphan hp.le hn.noTable i e
      rw [hsame] at hf
      by_cases hw : p = windowPath ∧ i = 0
      · rw [hw.1, hw.2, entry_of_table hlinked.shape.window, hwin, ← entry_of_table h.shape.window 0] at hf
        exact (h.leaf windowPath 0 f rfl hf).mono hall.bit
      · rw [hlinked.ext.entry p i hp hw id] at hf
        exact (h.leaf p i f hp hf).mono hall.bit
  · rw [hmem, mem_store] at hf
    split_ifs at hf
    · exact he f hf
    · rw [hwin, ← entry_of_table h.shape.window 0] at hf
      exact (h.leaf windowPath 0 f rfl hf).mono hall.bit

theorem bit_markPage (s : State) (physc f : Nat) :
    Bit (s.setBit ((physc >>> 12) / 8) ((physc >>> 12) % 8)).bitmap f ↔ f = physc / pageSize ∨ Bit s.bitmap f := by
  refine (bit_set (Nat.mod_lt _ (by decide)) f).trans ?_
  rw [Nat.shiftRight_eq_div_pow, Nat.add_comm, Nat.div_add_mod']
  rfl

theorem used_physicalPage (h : Used s) (hflags : flags < pageSize) (hphys : physc < frames * pageSize)
    (href : (physicalPage flags s virt physc).refused = s.refused) : Used (physicalPage flags s virt physc) := by
  have htables : (kernelTables s virt flags).1.refused = s.refused := href
  obtain ⟨hlinked, hwin⟩ := kernelTables_linked h.shape hflags htables
  refine h.store hlinked hwin (length_tablePath virt) (ptIndex virt)
    (keeps_setBit _ ((physc >>> 12) / 8) (Nat.mod_lt (physc >>> 12) (by decide : 8 > 0))) rfl fun f hf => ?_
  have hlt : physc / pageSize < frames := Nat.div_lt_of_lt_mul (by rwa [Nat.mul_comm] at hphys)
  have hfp : f = physc / pageSize := by
    rw [target_or_eq hflags hf]
    exact Nat.mod_eq_of_lt (Nat.lt_trans hlt (by decide))
  rw [hfp]
  exact ⟨hlt, (bit_markPage _ _ _).mpr (.inl rfl)⟩

theorem refused_le_kernelMapPagePhysical {a size : Nat} :
    s.refused ≤ (kernelMapPagePhysical s virt a size flags).refused :=
  refused_le_forPages (fun _ u => refused_le_physicalPage (s := u)) (Nat.zero_le (pages size)) s

theorem used_kernelMapPagePhysical {a size : Nat} (h : Used s) (hflags : flags < pageSize)
    (hphys : ∀ i < pages size, a + i * pageSize < frames * pageSize)
    (href : (kernelMapPagePhysical s virt a size flags).refused = s.refused) :
    Used (kernelMapPagePhysical s virt a size flags) := by
  refine forPages_invariant (fun _ _ => refused_le_physicalPage) (fun i hi u hu hr => ?_) h href
  exact used_physicalPage hu hflags (lt_of_le_of_lt (Nat.mod_le _ _) (hphys i hi)) hr

theorem tablePath_ne_window {v : Nat} (h : v / 2 ^ 21 % 2 ^ 27 ≠ 511) : tablePath v ≠ windowPath := by
  intro heq
  refine h ?_
  simp only [windowPath, tablePath, List.cons.injEq, Fin.ext_iff, pmlt4Index, pdptIndex, pdtIndex, index_val] at heq
  omega

theorem pages_mul_lt_add {size i : Nat} (hi : i < pages size) : i * pageSize < size := by
  unfold pages pageSize at *
  split_ifs at hi <;> omega

theorem used_kernelCreateNewPage (mem : Nat → Index → Nat) : Used (kernelCreateNewPage mem) := by
  refine ⟨treeShaped_kernelCreateNewPage mem, fun p i f hp hf => ?_⟩
  exact marked_kernelCreateNewPage mem (leaf_kernelCreateNewPage mem hp hf)

/-- At the start every frame in use is marked, when what the loader maps lies below 128 MB. -/
theorem used_bootState (mem : Nat → Index → Nat) {kernelSize fontData : Nat}
    (hkernel : 0x100000 + kernelSize ≤ frames * pageSize) (hfont : fontData + 0x2000 ≤ frames * pageSize)
    (href : (bootState mem kernelSize fontData).refused = 0) : Used (bootState mem kernelSize fontData) := by
  have hsize : frames * pageSize = 0x8000000 := by decide
  have h0 : Used (kernelCreateNewPage mem) := used_kernelCreateNewPage mem
  set s0 := kernelCreateNewPage mem with hs0
  set s1 := kernelMapPagePhysical s0 0xffffffff80100000 0x100000 kernelSize entryFlags with hs1
  set s2 := kernelMapPagePhysical s1 0x15000 0x15000 0x1000 entryFlags with hs2
  have hr0 : s0.refused = 0 := rfl
  have hr1 : s0.refused ≤ s1.refused := refused_le_kernelMapPagePhysical
  have hr2 : s1.refused ≤ s2.refused := refused_le_kernelMapPagePhysical
  have hr3 : s2.refused ≤ (bootState mem kernelSize fontData).refused := refused_le_kernelMapPagePhysical
  have hr10 : s1.refused = s0.refused := by omega
  have hr21 : s2.refused = s1.refused := by omega
  have hr32 : (bootState mem kernelSize fontData).refused = s2.refused := by omega
  have hflags : entryFlags < pageSize := by decide
  have h1 : Used s1 := by
    refine used_kernelMapPagePhysical h0 hflags (fun i hi => ?_) hr10
    have := pages_mul_lt_add hi
    omega
  have h2 : Used s2 := by
    refine used_kernelMapPagePhysical h1 hflags (fun i hi => ?_) hr21
    have := pages_mul_lt_add hi
    omega
  refine used_kernelMapPagePhysical h2 hflags (fun i hi => ?_) hr32
  have := pages_mul_lt_add hi
  omega

end HaOS.Paging
