import HaOS.Fat.Driver
import HaOS.Lib.Chain
import HaOS.Lib.Run

/-!
# `fat_seek` and the cluster chain of a file

* `FileChain v c cs` : the clusters of the file that starts at `c`, as its FAT entries link them;
* `seekLoop_clusters` : the loop stores the cluster it starts from, so it stays one behind the position;
* `Op`, `Step` : the calls on a pointer; they keep its first cluster (`Step.currentCluster`);
* `seek_iff` : the pointer denotes the position exactly when the position is in the first cluster and the pointer is
  there already.
-/

namespace HaOS.Fat
open Lib (Chain Reaches)

variable {v : Volume} {fptr fptr' : FatFilePtr} {cs : List Nat} {c n pos : Nat} {fdir : FatFileDirectory}

/-! ## Chains -/

/-- The cluster the FAT links a cluster to; `none` for the marks of a bad cluster and of the end of the file. -/
def chainNext (v : Volume) (c : Nat) : Option Nat :=
  if fatGetNextCluster v c < fat16BadCluster then some (fatGetNextCluster v c) else none

/-- `cs` are the clusters of the file that starts at `c`. -/
structure FileChain (v : Volume) (c : Nat) (cs : List Nat) : Prop where
  first : c < fat16BadCluster
  chain : Chain (chainNext v) c cs

theorem chainNext_eq_some {d : Nat} : chainNext v c = some d ↔ fatGetNextCluster v c = d ∧ d < fat16BadCluster := by
  unfold chainNext
  split_ifs with h
  · rw [Option.some.injEq]
    constructor
    · rintro rfl
      exact ⟨rfl, h⟩
    · exact And.left
  · refine ⟨nofun, ?_⟩
    rintro ⟨rfl, hd⟩
    exact absurd hd h

theorem FileChain.length_pos (h : FileChain v c cs) : 0 < cs.length := List.length_pos_of_ne_nil h.chain.ne_nil

theorem FileChain.zero (h : FileChain v c cs) : cs[0]? = some c := by
  rw [← List.head?_eq_getElem?]
  exact h.chain.head?

theorem FileChain.next (h : FileChain v c cs) (hn : n + 1 < cs.length) : fatGetNextCluster v cs[n] = cs[n + 1] :=
  (chainNext_eq_some.mp (h.chain.succ_getElem hn)).1

theorem FileChain.inj (h : FileChain v c cs) {i j : Nat} (hi : i < cs.length) (hj : j < cs.length)
    (hij : cs[i] = cs[j]) : i = j :=
  (List.Nodup.getElem_inj_iff h.chain.nodup).mp hij

theorem FileChain.lt (h : FileChain v c cs) : ∀ x ∈ cs, x < fat16BadCluster := by
  obtain ⟨hc, hch⟩ := h
  induction hch with
  | last => simpa using hc
  | link hn _ ih =>
      obtain ⟨rfl, hd⟩ := chainNext_eq_some.mp hn
      simpa using ⟨hc, by simpa using ih hd⟩

theorem FileChain.iterate (h : FileChain v c cs) : ∀ n (hn : n < cs.length), (fatGetNextCluster v)^[n] c = cs[n]
  | 0, hn => by
      have h0 := h.zero
      rw [List.getElem?_eq_getElem hn, Option.some.injEq] at h0
      exact h0.symm
  | n + 1, hn => by rw [Function.iterate_succ_apply', h.iterate n (Nat.lt_of_succ_lt hn), h.next hn]

/-! ## The walk of `fat_seek` -/

/-- After `n + 1` passes over clusters the pointer is at value `n` of the chain, and the walk itself at the one behind it. -/
theorem seekLoop_clusters : ∀ (n c : Nat) (fptr : FatFilePtr), (∀ k ≤ n, (fatGetNextCluster v)^[k] c < fat16BadCluster) →
    seekLoop v (n + 1) c fptr = ({ fptr with cluster := (fatGetNextCluster v)^[n] c }, true)
  | 0, c, fptr, h => if_neg (Nat.not_le.mpr (h 0 (Nat.le_refl 0)))
  | n + 1, c, fptr, h => by
      have hfirst : ¬ fat16BadCluster ≤ c := Nat.not_le.mpr (h 0 (Nat.zero_le _))
      rw [seekLoop, if_neg hfirst]
      exact seekLoop_clusters n (fatGetNextCluster v c) { fptr with cluster := c } fun k hk =>
        h (k + 1) (Nat.succ_le_succ hk)

theorem seekLoop_succ (fptr : FatFilePtr) (h : FileChain v c cs) (hn : n < cs.length) :
    seekLoop v (n + 1) c fptr = ({ fptr with cluster := cs[n] }, true) := by
  rw [← h.iterate n hn]
  refine seekLoop_clusters n c fptr fun k hk => ?_
  rw [h.iterate k (by omega)]
  exact h.lt _ (List.getElem_mem _)

theorem fatSeek_first (hpos : pos / fatSizeSector v = 0) :
    fatSeek v fptr pos = { fptr with offset := word (pos % fatSizeSector v) } := by
  simp only [fatSeek, hpos, seekLoop]

theorem fatSeek_later (h : FileChain v fptr.currentCluster cs) (hpos : pos / fatSizeSector v = n + 1)
    (hn : n < cs.length) :
    fatSeek v fptr pos = { fptr with cluster := cs[n], offset := word (pos % fatSizeSector v) } := by
  simp only [fatSeek, hpos, seekLoop_succ _ h hn]

/-! ## Calls on a pointer -/

inductive Op where
  | seek (pos : Nat)
  | read (size : Nat)

inductive Step (v : Volume) : FatFilePtr → Op → FatFilePtr → Prop
  | seek {fptr : FatFilePtr} {pos : Nat} : Step v fptr (.seek pos) (fatSeek v fptr pos)
  | read {fptr : FatFilePtr} {buf : Nat → UInt8} {size : Nat} : Step v fptr (.read size) (fatRead v buf fptr size).fptr

theorem seekLoop_currentCluster (v : Volume) : ∀ (len clus : Nat) (fptr : FatFilePtr),
    (seekLoop v len clus fptr).1.currentCluster = fptr.currentCluster ∧
      (seekLoop v len clus fptr).1.nextCluster = fptr.nextCluster
  | 0, _, _ => ⟨rfl, rfl⟩
  | len + 1, clus, fptr => by
      rw [seekLoop]
      split_ifs
      · exact ⟨rfl, rfl⟩
      · exact seekLoop_currentCluster v len _ { fptr with cluster := clus }

theorem fatSeek_currentCluster : (fatSeek v fptr pos).currentCluster = fptr.currentCluster ∧
    (fatSeek v fptr pos).nextCluster = fptr.nextCluster := by
  have := seekLoop_currentCluster v (pos / fatSizeSector v) fptr.currentCluster fptr
  simp only [fatSeek]
  split <;> rename_i h <;> rwa [h] at this

theorem readLoop_currentCluster {passes cluster size : Nat} {buf : Nat → UInt8} :
    (readLoop v passes buf fptr cluster size).fptr.currentCluster = fptr.currentCluster := by
  induction passes generalizing buf fptr cluster size with
  | zero => rfl
  | succ passes ih =>
      rw [readLoop]
      split_ifs
      · rfl
      · exact ih

theorem Step.currentCluster {o : Op} (h : Step v fptr o fptr') : fptr'.currentCluster = fptr.currentCluster := by
  cases h with
  | seek => exact fatSeek_currentCluster.1
  | read => exact readLoop_currentCluster

/-- From every state of an open file's pointer, `fat_seek` leaves the pointer at byte `pos` exactly when the byte is in
the first cluster and the pointer still is in that cluster. -/
theorem seek_iff (hr : Reaches (Step v) (fatFileOpen fdir) fptr) (hc : FileChain v (fatFileOpen fdir).currentCluster cs)
    (hS : 0 < fatSizeSector v) (hS' : fatSizeSector v ≤ 65535) (hpos : pos / fatSizeSector v < cs.length) :
    ((fatSeek v fptr pos).cluster = cs[pos / fatSizeSector v] ∧
      (fatSeek v fptr pos).offset = pos % fatSizeSector v) ↔
    (pos / fatSizeSector v = 0 ∧ fptr.cluster = (fatFileOpen fdir).currentCluster) := by
  have hcur : fptr.currentCluster = (fatFileOpen fdir).currentCluster :=
    hr.invariant (P := fun s => s.currentCluster = (fatFileOpen fdir).currentCluster)
      (fun s o t h hs => hs.currentCluster.trans h) rfl
  have hlt := Nat.mod_lt pos hS
  have hoff : word (pos % fatSizeSector v) = pos % fatSizeSector v := word_of_lt (by omega)
  rw [← hcur] at hc ⊢
  obtain hk | ⟨n, hk⟩ : pos / fatSizeSector v = 0 ∨ ∃ n, pos / fatSizeSector v = n + 1 := by
    cases pos / fatSizeSector v <;> simp
  · have h0 := hc.zero
    rw [List.getElem?_eq_getElem hc.length_pos, Option.some.injEq] at h0
    rw [fatSeek_first hk]
    simp only [hk, h0, hoff, and_true, true_and]
  · rw [fatSeek_later hc hk (by omega)]
    simp only [hk, hoff, and_true, Nat.add_one_ne_zero, false_and, iff_false]
    intro heq
    have := hc.inj (by omega) (by omega) heq
    omega

/-! ## A small volume -/

/-- One sector a cluster; the file's clusters are 2, 3 and 4, whose sectors are filled with the bytes 3, 4 and 5. -/
def smallVolume : Volume where
  header := ⟨512, 1, 1, 1, 16, 1⟩
  fatLbaStart := 0
  disk lba i :=
    if lba = 1 then if i = 4 then 3 else if i = 6 then 4 else if i = 8 ∨ i = 9 then 0xFF else 0
    else UInt8.ofNat lba

def smallFile : FatFileDirectory := ⟨0x20, 0, 2⟩

theorem fileChain_smallFile : FileChain smallVolume (fatFileOpen smallFile).currentCluster [2, 3, 4] where
  first := by decide
  chain := .link (by decide +kernel) (.link (by decide +kernel) (.last (by decide +kernel)))

/-- A seek back to the file's first cluster, after a read has gone on to its second. -/
theorem seek_iff_smallFile :
    let fptr := (fatRead smallVolume (fun _ => 0) (fatFileOpen smallFile) 600).fptr
    ((fatSeek smallVolume fptr 5).cluster = [2, 3, 4][5 / fatSizeSector smallVolume] ∧
      (fatSeek smallVolume fptr 5).offset = 5 % fatSizeSector smallVolume) ↔
    (5 / fatSizeSector smallVolume = 0 ∧ fptr.cluster = (fatFileOpen smallFile).currentCluster) :=
  seek_iff ((Reaches.refl _).snoc (l := .read 600) .read) fileChain_smallFile (by decide) (by decide) (by decide)

/-- Byte 512 is the first byte of the file's second cluster, but `fat_seek` leaves the pointer in the first one. -/
theorem seek_smallFile : Reaches (Step smallVolume) (fatFileOpen smallFile) (fatFileOpen smallFile) ∧
    FileChain smallVolume (fatFileOpen smallFile).currentCluster [2, 3, 4] ∧
    (fatSeek smallVolume (fatFileOpen smallFile) 512).cluster ≠ [2, 3, 4][512 / fatSizeSector smallVolume] :=
  ⟨Reaches.refl _, fileChain_smallFile, by decide +kernel⟩

end HaOS.Fat
