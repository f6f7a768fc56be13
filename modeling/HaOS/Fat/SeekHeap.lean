import HaOS.Alloc.Growth
import HaOS.Alloc.Merge
import HaOS.Alloc.Sizes
import HaOS.Fat.Seek

/-!
# `fat_seek` and the heap

The sectors of the FAT are read into a block of the heap, which is given back behind the loop.

* `fatSeekHeap` : the call with its heap; `fatSeekHeap_pointer` : it leaves the pointer as `fatSeek` does;
* `Unreachable v fptr pos` : the chain comes to a mark before it comes to the cluster of the position;
* `Undone` : the call returns, the pointer is as it was, and every block that was free is free again;
* `Unnoticed` : the walk does not come to the mark, and what it stores is in the pointer already;
* `undone_iff` : a call is undone exactly when the heap can serve it and it is unnoticed.
-/

namespace HaOS.Fat
open Alloc (Heap Tiled CanServe newAlloc freeAlloc)

/-- `fat_seek` with the heap, whose walks are bounded by `walk` and `depth`. -/
def fatSeekHeap (walk depth : Nat) (v : Volume) (h : Heap) (fptr : FatFilePtr) (pos : Nat) : Option (Heap × FatFilePtr) :=
  let len := pos / fatSizeSector v
  let off := word (pos % fatSizeSector v)
  (newAlloc walk depth h v.header.bytesPerSector).bind fun r =>
    let s := seekLoop v len fptr.currentCluster fptr
    -- the return on a bad cluster leaves `fat_buffer` as it is
    if s.2 then (freeAlloc walk r.1 r.2).map fun h => (h, { s.1 with offset := off }) else some (r.1, s.1)

def chainAt (v : Volume) (fptr : FatFilePtr) (k : Nat) : Nat := (fatGetNextCluster v)^[k] fptr.currentCluster

/-- The cluster of the position, or one before it, is the mark of a bad cluster or of the end. -/
def Unreachable (v : Volume) (fptr : FatFilePtr) (pos : Nat) : Prop :=
  ∃ k ≤ pos / fatSizeSector v, fat16BadCluster ≤ chainAt v fptr k

/-- Every block that was free is free again. -/
def FreeAgain (h h' : Heap) : Prop := ∀ a, (h.mem a).available = 1 → (h'.mem a).available = 1

/-- The call returns with the pointer as it was, and leaves no block of the heap in use. -/
def Undone (v : Volume) (h : Heap) (fptr : FatFilePtr) (pos : Nat) : Prop :=
  ∃ depth w, ∀ walk, w ≤ walk → ∃ h', fatSeekHeap walk depth v h fptr pos = some (h', fptr) ∧ FreeAgain h h'

/-- The values that the walk looks at are clusters, and the pointer has the cluster and the offset that are stored. -/
structure Unnoticed (v : Volume) (fptr : FatFilePtr) (pos : Nat) : Prop where
  clusters : ∀ k < pos / fatSizeSector v, chainAt v fptr k < fat16BadCluster
  cluster : ∀ n, pos / fatSizeSector v = n + 1 → fptr.cluster = chainAt v fptr n
  offset : fptr.offset = word (pos % fatSizeSector v)

variable {v : Volume} {h h' : Heap} {bs : List Alloc.Block} {fptr : FatFilePtr} {pos p walk depth size : Nat}

/-! ## The walk -/

theorem seekLoop_bad : ∀ (len c : Nat) (fptr : FatFilePtr), (∃ k < len, fat16BadCluster ≤ (fatGetNextCluster v)^[k] c) →
    (seekLoop v len c fptr).2 = false
  | 0, _, _, ⟨_, hk, _⟩ => absurd hk (Nat.not_lt_zero _)
  | len + 1, c, fptr, ⟨k, hk, hbad⟩ => by
      rw [seekLoop]
      split_ifs with hfirst
      · rfl
      · cases k with
        | zero => exact absurd hbad hfirst
        | succ k => exact seekLoop_bad len _ _ ⟨k, Nat.lt_of_succ_lt_succ hk, hbad⟩

theorem fatSeekHeap_pointer {fptr' : FatFilePtr} (hr : fatSeekHeap walk depth v h fptr pos = some (h', fptr')) :
    fptr' = fatSeek v fptr pos := by
  obtain ⟨r, -, hr⟩ := Option.bind_eq_some_iff.mp hr
  dsimp only at hr
  rw [fatSeek]
  cases hs : seekLoop v (pos / fatSizeSector v) fptr.currentCluster fptr with
  | mk f good =>
      rw [hs] at hr
      cases good with
      | false =>
          cases hr
          rfl
      | true =>
          obtain ⟨h1, -, heq⟩ := Option.map_eq_some_iff.mp hr
          cases heq
          rfl

/-! ## The block of the call -/

/-- The block that `new_alloc` takes was free, and no other block is taken. -/
structure Taken (h h' : Heap) (a : Nat) : Prop where
  before : (h.mem a).available = 1
  after : (h'.mem a).available = 0
  others : ∀ x ≠ a, (h'.mem x).available = (h.mem x).available ∨ (h'.mem x).available = 1

theorem taken_newAlloc (ht : Tiled h bs) (htop : h.heapStart + h.heapSize < 2 ^ 64) (hsize : size ≠ 0)
    (hn : size + Alloc.sizeofAllocBlock < 2 ^ 31) (hr : newAlloc walk depth h size = some (h', p)) :
    p ≠ 0 ∧ Taken h h' (qsub p Alloc.sizeofAllocBlock) := by
  have h17 : Alloc.sizeofAllocBlock = 17 := rfl
  obtain ⟨o, c, hat, hfree, rfl, hlt, hav, hothers⟩ := Alloc.newAlloc_block ht htop hsize hn hr
  obtain ⟨pre, post, rfl, rfl⟩ := hat.exists_append
  have hblock : qsub (h.heapStart + Alloc.extent pre + Alloc.sizeofAllocBlock) Alloc.sizeofAllocBlock =
      h.heapStart + Alloc.extent pre := Alloc.qsub_payload hlt
  rw [hblock]
  refine ⟨by omega, ?_, hav, hothers⟩
  rw [ht.header, Alloc.Block.available_header, hfree]

theorem Taken.freeAlloc {h₁ : Heap} (ht : Taken h h₁ (qsub p Alloc.sizeofAllocBlock)) (hp : p ≠ 0)
    (hr : freeAlloc walk h₁ p = some h') : FreeAgain h h' := by
  intro x hx
  by_cases hxp : x = qsub p Alloc.sizeofAllocBlock
  · rw [hxp]
    exact Alloc.freeAlloc_available hp hr
  · rw [Alloc.freeAlloc_available_ne hp hr hxp]
    exact (ht.others x hxp).elim (fun heq => heq.trans hx) id

theorem Taken.not_freeAgain {a : Nat} (ht : Taken h h' a) : ¬ FreeAgain h h' := by
  intro hfree
  have hav := hfree a ht.before
  rw [ht.after] at hav
  exact absurd hav (by decide)

/-! ## What a call leaves -/

/-- The heap is a list of blocks that ends below 2^64, and a sector of the FAT has room in the block that is asked for. -/
structure HeapReady (v : Volume) (h : Heap) (bs : List Alloc.Block) : Prop where
  room : 512 ≤ v.header.bytesPerSector
  small : v.header.bytesPerSector < 2 ^ 16
  clusters : 0 < v.header.sectorPerCluster
  tiled : Tiled h bs
  base : 2 ^ 64 - 2 ^ 31 ≤ h.heapStart
  top : h.heapStart + h.heapSize < 2 ^ 64

theorem HeapReady.request (hh : HeapReady v h bs) :
    v.header.bytesPerSector ≠ 0 ∧ v.header.bytesPerSector + Alloc.sizeofAllocBlock < 2 ^ 31 := by
  have h17 : Alloc.sizeofAllocBlock = 17 := rfl
  have hroom := hh.room
  have hsmall := hh.small
  omega

theorem HeapReady.inv (hh : HeapReady v h bs) : Alloc.Inv ⟨h, fun _ => none⟩ bs :=
  ⟨hh.tiled, hh.base, hh.top, fun _ _ hl => by cases hl⟩

theorem HeapReady.taken (hh : HeapReady v h bs) (hr : newAlloc walk depth h v.header.bytesPerSector = some (h', p)) :
    p ≠ 0 ∧ Taken h h' (qsub p Alloc.sizeofAllocBlock) := by
  obtain ⟨hsize, hn⟩ := hh.request
  exact taken_newAlloc hh.tiled hh.top hsize hn hr

/-- A walk that comes to a mark leaves the block of the call in use. -/
theorem HeapReady.not_undone_of_bad (hh : HeapReady v h bs)
    (hbad : ∃ k < pos / fatSizeSector v, fat16BadCluster ≤ chainAt v fptr k) : ¬ Undone v h fptr pos := by
  rintro ⟨depth, w, hw⟩
  obtain ⟨h', hr, hfree⟩ := hw w (Nat.le_refl w)
  obtain ⟨⟨h₁, p⟩, hnew, hr⟩ := Option.bind_eq_some_iff.mp hr
  dsimp only at hr
  rw [seekLoop_bad _ _ _ hbad, if_neg Bool.false_ne_true, Option.some.injEq, Prod.mk.injEq] at hr
  obtain ⟨rfl, -⟩ := hr
  exact (hh.taken hnew).2.not_freeAgain hfree

/-- The call whose walk goes through clusters. -/
theorem fatSeekHeap_good (hgood : ∀ k < pos / fatSizeSector v, chainAt v fptr k < fat16BadCluster) : ∃ cluster,
    (∀ walk depth, fatSeekHeap walk depth v h fptr pos =
      (newAlloc walk depth h v.header.bytesPerSector).bind fun r => (freeAlloc walk r.1 r.2).map fun h =>
        (h, { fptr with cluster := cluster, offset := word (pos % fatSizeSector v) })) ∧
    (pos / fatSizeSector v = 0 → cluster = fptr.cluster) ∧
    ∀ n, pos / fatSizeSector v = n + 1 → cluster = chainAt v fptr n := by
  unfold fatSeekHeap
  cases hlen : pos / fatSizeSector v with
  | zero => exact ⟨fptr.cluster, fun _ _ => rfl, fun _ => rfl, fun n hn => absurd hn.symm (Nat.succ_ne_zero n)⟩
  | succ n =>
      rw [hlen] at hgood
      have hrun := seekLoop_clusters n fptr.currentCluster fptr fun k hk => hgood k (Nat.lt_succ_of_le hk)
      refine ⟨chainAt v fptr n, fun walk depth => ?_, fun h => absurd h (Nat.succ_ne_zero n), fun m hm => ?_⟩
      · dsimp only
        rw [hrun]
        rfl
      · rw [Nat.succ.inj hm]

theorem HeapReady.canServe (hh : HeapReady v h bs) (hu : Undone v h fptr pos) : CanServe h v.header.bytesPerSector := by
  obtain ⟨depth, w, hw⟩ := hu
  obtain ⟨h', hr, -⟩ := hw w (Nat.le_refl w)
  obtain ⟨r, hnew, -⟩ := Option.bind_eq_some_iff.mp hr
  obtain ⟨hsize, hn⟩ := hh.request
  by_contra hno
  rw [hh.inv.not_returns hsize hn hno] at hnew
  cases hnew

/-- A call that is unnoticed returns when the heap can serve it. -/
theorem HeapReady.undone (hh : HeapReady v h bs) (hs : CanServe h v.header.bytesPerSector) (hu : Unnoticed v fptr pos) :
    Undone v h fptr pos := by
  obtain ⟨hsize, hn⟩ := hh.request
  obtain ⟨w, hw⟩ := hh.inv.returns hsize hn hs
  obtain ⟨cluster, hrun, hzero, hlast⟩ := @fatSeekHeap_good v h fptr pos hu.clusters
  have hcluster : cluster = fptr.cluster := by
    cases hlen : pos / fatSizeSector v with
    | zero => exact hzero hlen
    | succ n => exact (hlast n hlen).trans (hu.cluster n hlen).symm
  refine ⟨(v.header.bytesPerSector + Alloc.sizeofAllocBlock + 0xFFF) / 0x1000 + 1, w, fun walk hwalk => ?_⟩
  obtain ⟨h₁, l, a, hnew, -⟩ := hw walk hwalk
  dsimp only at hnew
  obtain ⟨hp, htaken⟩ := hh.taken hnew
  obtain ⟨h₂, hfree⟩ : ∃ h₂, freeAlloc walk h₁ (a + Alloc.sizeofAllocBlock) = some h₂ := by
    rw [Alloc.freeAlloc_eq, if_neg hp]
    exact ⟨_, rfl⟩
  refine ⟨h₂, ?_, htaken.freeAlloc hp hfree⟩
  rw [hrun, hnew, Option.bind_some]
  dsimp only
  rw [hfree, Option.map_some, hcluster, ← hu.offset]

theorem HeapReady.undone_iff (hh : HeapReady v h bs) :
    Undone v h fptr pos ↔ CanServe h v.header.bytesPerSector ∧ Unnoticed v fptr pos := by
  refine ⟨fun hu => ⟨hh.canServe hu, ?_⟩, fun h => hh.undone h.1 h.2⟩
  by_cases hgood : ∀ k < pos / fatSizeSector v, chainAt v fptr k < fat16BadCluster
  · obtain ⟨cluster, hrun, -, hlast⟩ := @fatSeekHeap_good v h fptr pos hgood
    obtain ⟨depth, w, hw⟩ := hu
    obtain ⟨h', hr, -⟩ := hw w (Nat.le_refl w)
    rw [hrun] at hr
    obtain ⟨r, -, hr⟩ := Option.bind_eq_some_iff.mp hr
    obtain ⟨h₂, -, heq⟩ := Option.map_eq_some_iff.mp hr
    have hptr := (Prod.mk.inj heq).2
    refine ⟨hgood, fun n hn => ?_, ?_⟩
    · rw [← hlast n hn]
      exact (congrArg FatFilePtr.cluster hptr).symm
    · exact (congrArg FatFilePtr.offset hptr).symm
  · simp only [not_forall, Nat.not_lt] at hgood
    obtain ⟨k, hk, hbad⟩ := hgood
    exact absurd hu (hh.not_undone_of_bad ⟨k, hk, hbad⟩)

/-- A seek that cannot reach its position is undone exactly when the heap can serve it, the walk does not come to the mark,
and the pointer already has the cluster and the offset that are stored. -/
theorem seekFailure_iff (hh : HeapReady v h bs) (fptr : FatFilePtr) (pos : Nat) :
    (Unreachable v fptr pos → Undone v h fptr pos) ↔
      (Unreachable v fptr pos → CanServe h v.header.bytesPerSector ∧ Unnoticed v fptr pos) :=
  imp_congr_right fun _ => hh.undone_iff

def firstHeap : Heap := Alloc.initAlloc (fun _ => ⟨0, 0, 0⟩) 0xFFFFFFFF80200000

theorem heapReady_firstHeap : HeapReady smallVolume firstHeap [⟨0x1000, true⟩] where
  room := by decide
  small := by decide
  clusters := by decide
  tiled := Alloc.tiled_initAlloc _ (by decide)
  base := by decide
  top := by decide

theorem seekFailure_iff_smallFile :
    (Unreachable smallVolume (fatFileOpen smallFile) 2048 → Undone smallVolume firstHeap (fatFileOpen smallFile) 2048) ↔
      (Unreachable smallVolume (fatFileOpen smallFile) 2048 → CanServe firstHeap smallVolume.header.bytesPerSector ∧
        Unnoticed smallVolume (fatFileOpen smallFile) 2048) :=
  seekFailure_iff heapReady_firstHeap _ _

/-- The file has three clusters. A seek to byte 2048 returns from the walk and leaves its block in use; one to byte 1536
leaves the pointer in the last cluster. -/
theorem not_undone_smallFile :
    (Unreachable smallVolume (fatFileOpen smallFile) 2048 ∧
      ¬ Undone smallVolume firstHeap (fatFileOpen smallFile) 2048) ∧
    Unreachable smallVolume (fatFileOpen smallFile) 1536 ∧
      ¬ Undone smallVolume firstHeap (fatFileOpen smallFile) 1536 := by
  have hmark : fat16BadCluster ≤ chainAt smallVolume (fatFileOpen smallFile) 3 := by decide +kernel
  refine ⟨⟨⟨3, by decide, hmark⟩, ?_⟩, ⟨3, by decide, hmark⟩, fun hu => ?_⟩
  · exact heapReady_firstHeap.not_undone_of_bad ⟨3, by decide, hmark⟩
  · have hcluster := (heapReady_firstHeap.undone_iff.mp hu).2.cluster 2 (by decide)
    exact absurd hcluster (by decide +kernel)

end HaOS.Fat
