import HaOS.Fat.Seek

/-!
# The two cluster fields of a file pointer

`fat_read` starts from `cluster` and goes on from `next_cluster`.

* `Coherent v fptr` : the fields agree, and so a read of any size goes from each cluster to the one the FAT links it to;
* `Op.KeepsStep` : the seeks that leave the fields in step;
* `coherent_iff` : all states of a run on an open file are coherent exactly when its seeks keep in step.
-/

namespace HaOS.Fat
open Lib (Steps Guarded Meets)

variable {v : Volume} {fptr fptr' : FatFilePtr} {cs : List Nat} {o : Op} {fdir : FatFileDirectory}

structure Coherent (v : Volume) (fptr : FatFilePtr) : Prop where
  same : fptr.nextCluster = fptr.cluster
  follows : ∀ buf size, (fatRead v buf fptr size).clusters.IsChain fun a b => fatGetNextCluster v a = b

def Op.Inside (v : Volume) (cs : List Nat) : Op → Prop
  | .seek pos => pos / fatSizeSector v < cs.length
  | .read _ => True

/-- A seek into the first cluster moves neither field; a later one moves `cluster` alone, to the cluster before the one
of the position. -/
def Op.KeepsStep (v : Volume) (cs : List Nat) (fptr : FatFilePtr) : Op → Prop
  | .seek pos => pos / fatSizeSector v = 0 ∨ cs[pos / fatSizeSector v - 1]? = some fptr.nextCluster
  | .read _ => True

def nextPass (v : Volume) (fptr : FatFilePtr) (size : Nat) : FatFilePtr :=
  { fptr with
    offset := word (fptr.offset + min size (fatSizeSector v - fptr.offset)) % fatSizeSector v
    nextCluster := fatGetNextCluster v fptr.nextCluster
    cluster := fatGetNextCluster v fptr.nextCluster }

theorem readLoop_same : ∀ (passes : Nat) (buf : Nat → UInt8) (fptr : FatFilePtr) (size : Nat),
    fptr.nextCluster = fptr.cluster → (readLoop v passes buf fptr fptr.cluster size).fptr.nextCluster =
      (readLoop v passes buf fptr fptr.cluster size).fptr.cluster
  | 0, _, _, _, h => h
  | passes + 1, buf, fptr, size, h => by
      rw [readLoop]
      split_ifs
      · exact h
      · exact readLoop_same passes _ (nextPass v fptr size) _ rfl

theorem readLoop_clusters : ∀ (passes : Nat) (buf : Nat → UInt8) (fptr : FatFilePtr) (size : Nat),
    fptr.nextCluster = fptr.cluster →
    (readLoop v passes buf fptr fptr.cluster size).clusters.IsChain (fun a b => fatGetNextCluster v a = b) ∧
      ∀ c ∈ (readLoop v passes buf fptr fptr.cluster size).clusters.head?, c = fptr.cluster
  | 0, _, _, _, _ => ⟨.nil, nofun⟩
  | passes + 1, buf, fptr, size, h => by
      rw [readLoop]
      split_ifs
      · exact ⟨.singleton _, by simp⟩
      · obtain ⟨hchain, hhead⟩ := readLoop_clusters passes (readCluster v fptr.cluster buf v.header.sectorPerCluster)
          (nextPass v fptr size) (size - min size (fatSizeSector v - fptr.offset)) rfl
        refine ⟨List.isChain_cons.mpr ⟨fun c hc => ?_, hchain⟩, by simp⟩
        rw [hhead c hc, ← h]
        rfl

theorem coherent_of_same (h : fptr.nextCluster = fptr.cluster) : Coherent v fptr :=
  ⟨h, fun _ _ => (readLoop_clusters _ _ _ _ h).1⟩

theorem fatFileOpen_same : (fatFileOpen fdir).nextCluster = (fatFileOpen fdir).cluster := by
  unfold fatFileOpen
  split_ifs <;> rfl

/-- A seek inside the file leaves the fields in step exactly when it keeps in step. -/
theorem fatSeek_same_iff (hc : FileChain v fptr.currentCluster cs) (h : fptr.nextCluster = fptr.cluster) {pos : Nat}
    (hpos : pos / fatSizeSector v < cs.length) :
    (fatSeek v fptr pos).nextCluster = (fatSeek v fptr pos).cluster ↔ (Op.seek pos).KeepsStep v cs fptr := by
  simp only [Op.KeepsStep]
  obtain hk | ⟨n, hk⟩ : pos / fatSizeSector v = 0 ∨ ∃ n, pos / fatSizeSector v = n + 1 := by
    cases pos / fatSizeSector v <;> simp
  · simp [fatSeek_first hk, hk, h]
  · have hn : n < cs.length := by omega
    rw [fatSeek_later hc hk hn, hk]
    simp [List.getElem?_eq_getElem hn, eq_comm]

/-- All states of a run on an open file are coherent exactly when every seek of the run keeps in step. -/
theorem coherent_iff {tr : List (Op × FatFilePtr)} (hc : FileChain v (fatFileOpen fdir).currentCluster cs)
    (hs : Steps (Guarded (fun _ o => o.Inside v cs) (Step v)) (fatFileOpen fdir) tr) :
    (Coherent v (fatFileOpen fdir) ∧ ∀ x ∈ tr, Coherent v x.2) ↔
      Meets (fun fptr o => o.KeepsStep v cs fptr) (fatFileOpen fdir) tr := by
  rw [and_iff_right (coherent_of_same fatFileOpen_same)]
  have hstep : ∀ s o t, (FileChain v s.currentCluster cs ∧ s.nextCluster = s.cluster) →
      Guarded (fun _ o => o.Inside v cs) (Step v) s o t →
      FileChain v t.currentCluster cs ∧ (t.nextCluster = t.cluster ↔ o.KeepsStep v cs s) := by
    rintro s o t ⟨hcs, hsame⟩ ⟨hin, hstep⟩
    refine ⟨hstep.currentCluster ▸ hcs, ?_⟩
    cases hstep with
    | seek => exact fatSeek_same_iff hcs hsame hin
    | read => exact ⟨fun _ => trivial, fun _ => readLoop_same _ _ _ _ hsame⟩
  refine Lib.always_iff_meets (I := fun s => FileChain v s.currentCluster cs ∧ s.nextCluster = s.cluster)
    (fun s hi => coherent_of_same hi.2) (fun s o t hi hs hk => ?_) (fun s o t hi hs hk hcoh => ?_)
    ⟨hc, fatFileOpen_same⟩ hs
  · exact ⟨(hstep s o t hi hs).1, (hstep s o t hi hs).2.mpr hk⟩
  · exact hk ((hstep s o t hi hs).2.mp hcoh.same)

def readOn : FatFilePtr := (fatRead smallVolume (fun _ => 0) (fatFileOpen smallFile) 600).fptr

theorem coherent_iff_readOn :
    (Coherent smallVolume (fatFileOpen smallFile) ∧ ∀ x ∈ [(Op.read 600, readOn)], Coherent smallVolume x.2) ↔
    Meets (fun fptr o => o.KeepsStep smallVolume [2, 3, 4] fptr) (fatFileOpen smallFile) [(Op.read 600, readOn)] :=
  coherent_iff fileChain_smallFile ⟨⟨trivial, .read⟩, trivial⟩

/-- Seeking to byte 1024 moves `cluster` to 3, while `next_cluster` stays 2: after a cluster the pointer reads on with 3
again. -/
theorem not_coherent_smallFile : FileChain smallVolume (fatFileOpen smallFile).currentCluster [2, 3, 4] ∧
    ∃ tr, Steps (Guarded (fun _ o => o.Inside smallVolume [2, 3, 4]) (Step smallVolume)) (fatFileOpen smallFile) tr ∧
      ∃ x ∈ tr, x.2.nextCluster ≠ x.2.cluster := by
  refine ⟨fileChain_smallFile, [(.seek 1024, fatSeek smallVolume (fatFileOpen smallFile) 1024)],
    ⟨⟨by unfold Op.Inside; decide, .seek⟩, trivial⟩, _, List.mem_singleton_self _, ?_⟩
  decide +kernel

end HaOS.Fat
