import HaOS.Fat.Cursor
import HaOS.Fat.Whole

/-!
# The clusters whose sectors are read

Only the clusters 2 to 0xFFF6 have data; the other values in the FAT and in a directory entry are marks.

* `Reader`, `Asks` : a file pointer with the data sectors that were asked for, and the calls on it;
* `fatRead_clusters` : the clusters that a read goes to;
* `SafeCall`, `SafeChain` : a call, and the chain of a file, come to data clusters only;
* `asksData_iff` : no other cluster's sectors are asked for exactly when this is so.
-/

namespace HaOS.Fat
open Lib (Steps Meets)

def DataCluster (c : Nat) : Prop := 2 ≤ c ∧ c ≤ 0xFFF6

instance (c : Nat) : Decidable (DataCluster c) := inferInstanceAs (Decidable (_ ∧ _))

/-- The sectors of clusters, each as its cluster and its place there. -/
def dataSectors (v : Volume) (clusters : List Nat) : List (Nat × Nat) :=
  clusters.flatMap fun c => (List.range v.header.sectorPerCluster).map fun j => (c, j)

/-- A pointer, and the data sectors that were asked for through it. -/
structure Reader where
  fptr : FatFilePtr
  asked : List (Nat × Nat)

inductive Call where
  | seek (pos : Nat)
  | read (size : Nat)
  | readSector

inductive Asks (v : Volume) : Reader → Call → Reader → Prop
  | seek {s : Reader} {pos : Nat} : Asks v s (.seek pos) ⟨fatSeek v s.fptr pos, s.asked⟩
  | read {s : Reader} {buf : Nat → UInt8} {size : Nat} : Asks v s (.read size)
      ⟨(fatRead v buf s.fptr size).fptr, s.asked ++ dataSectors v (fatRead v buf s.fptr size).clusters⟩
  | readSector {s : Reader} {t : Target} : Asks v s .readSector
      ⟨(fatReadSector v s.fptr t).fptr, s.asked ++ dataSectors v (fatReadSector v s.fptr t).clusters⟩

def AsksData (asked : List (Nat × Nat)) : Prop := ∀ x ∈ asked, DataCluster x.1

instance (asked : List (Nat × Nat)) : Decidable (AsksData asked) := inferInstanceAs (Decidable (∀ x ∈ asked, _))

/-- `__len` of `fat_read`. -/
def readPasses (v : Volume) (size : Nat) : Nat :=
  dword (dword (size / fatSizeSector v) + if 0 < size % fatSizeSector v then 1 else 0)

/-- A read has data clusters for all its passes: the first is for `cluster`, the others are for the values that the FAT links
`next_cluster` to. `fat_readSector` reads nothing if `next_cluster` is past the last cluster. -/
def SafeCall (v : Volume) (fptr : FatFilePtr) : Call → Prop
  | .seek _ => True
  | .read size => (0 < readPasses v size → DataCluster fptr.cluster) ∧
      ∀ i, 0 < i → i < readPasses v size → DataCluster ((fatGetNextCluster v)^[i] fptr.nextCluster)
  | .readSector => fptr.nextCluster < fat16NoCluster → DataCluster fptr.nextCluster

/-- The chain goes through data clusters until it comes to the end mark, if it does. -/
def SafeChain (v : Volume) (c : Nat) : Prop :=
  ∀ n, (∀ k ≤ n, (fatGetNextCluster v)^[k] c < fat16NoCluster) → DataCluster ((fatGetNextCluster v)^[n] c)

variable {v : Volume} {fptr : FatFilePtr} {fdir : FatFileDirectory} {c size : Nat} {cs : List Nat} {t : Target}
  {asked : List (Nat × Nat)}

/-! ## What a call asks for -/

theorem asksData_append {more : List (Nat × Nat)} : AsksData (asked ++ more) ↔ AsksData asked ∧ AsksData more :=
  List.forall_mem_append

theorem asksData_dataSectors (hspc : 0 < v.header.sectorPerCluster) :
    AsksData (dataSectors v cs) ↔ ∀ c ∈ cs, DataCluster c := by
  constructor
  · intro h c hc
    have hmem : (c, 0) ∈ dataSectors v cs := by
      refine List.mem_flatMap.mpr ⟨c, hc, List.mem_map.mpr ⟨0, List.mem_range.mpr hspc, rfl⟩⟩
    exact h _ hmem
  · intro h x hx
    obtain ⟨c, hc, hx⟩ := List.mem_flatMap.mp hx
    obtain ⟨j, -, rfl⟩ := List.mem_map.mp hx
    exact h c hc

/-- The first pass is for the cluster given, the others are for those behind `next_cluster`. -/
theorem readLoop_passes : ∀ (n : Nat) (buf : Nat → UInt8) (fptr : FatFilePtr) (c size : Nat),
    (readLoop v (n + 1) buf fptr c size).clusters =
      c :: (List.range n).map fun i => (fatGetNextCluster v)^[i + 1] fptr.nextCluster
  | 0, _, _, _, _ => rfl
  | n + 1, buf, fptr, c, size => by
      rw [readLoop, if_neg (Nat.succ_ne_zero n), List.range_succ_eq_map]
      dsimp only
      rw [readLoop_passes n, List.map_cons, List.map_map]
      rfl

theorem opened_same (hfile : fdir.attributes &&& fatDirectory = 0) :
    (fatFileOpen fdir).cluster = firstCluster fdir ∧ (fatFileOpen fdir).nextCluster = firstCluster fdir := by
  have hnext := firstCluster_eq hfile
  exact ⟨fatFileOpen_same.symm.trans hnext, hnext⟩

theorem fatRead_clusters (buf : Nat → UInt8) : (∀ c ∈ (fatRead v buf fptr size).clusters, DataCluster c) ↔
    SafeCall v fptr (.read size) := by
  have hrun : (fatRead v buf fptr size).clusters =
      (readLoop v (readPasses v size) buf fptr fptr.cluster size).clusters := rfl
  rw [hrun, SafeCall]
  cases readPasses v size with
  | zero => exact iff_of_true (fun c hc => absurd hc List.not_mem_nil) ⟨fun h => absurd h (Nat.lt_irrefl 0),
      fun i _ hi => absurd hi (Nat.not_lt_zero i)⟩
  | succ n =>
      rw [readLoop_passes, List.forall_mem_cons, List.forall_mem_map]
      constructor
      · rintro ⟨hfirst, hrest⟩
        refine ⟨fun _ => hfirst, fun i hpos hi => ?_⟩
        obtain ⟨k, rfl⟩ := Nat.exists_eq_succ_of_ne_zero (Nat.ne_of_gt hpos)
        exact hrest k (List.mem_range.mpr (Nat.lt_of_succ_lt_succ hi))
      · rintro ⟨hfirst, hrest⟩
        refine ⟨hfirst (Nat.succ_pos n), fun i hi => hrest (i + 1) (Nat.succ_pos i) ?_⟩
        exact Nat.succ_lt_succ (List.mem_range.mp hi)

/-- A read of a file that was just opened, all of whose clusters have data, is safe as far as the clusters go. -/
theorem safeCall_opened (hfile : fdir.attributes &&& fatDirectory = 0) (h : FileWalk v (firstCluster fdir) cs)
    (hdata : ∀ c ∈ cs, DataCluster c) : SafeCall v (fatFileOpen fdir) (.read size) ↔ readPasses v size ≤ cs.length := by
  have hat : ∀ i < cs.length, DataCluster ((fatGetNextCluster v)^[i] (firstCluster fdir)) := by
    intro i hi
    rw [← h.getElem hi]
    exact hdata _ (List.getElem_mem hi)
  have hend : ¬ DataCluster ((fatGetNextCluster v)^[cs.length] (firstCluster fdir)) := by
    intro hlast
    have hstop : 0xFFF8 ≤ (fatGetNextCluster v)^[cs.length] (firstCluster fdir) := h.stops
    have hle := hlast.2
    omega
  have hopen := opened_same hfile
  rw [SafeCall, hopen.1, hopen.2]
  constructor
  · rintro ⟨hfirst, hrest⟩
    by_contra hlt
    have hlt := Nat.not_le.mp hlt
    rcases Nat.eq_zero_or_pos cs.length with h0 | hpos
    · rw [h0] at hend
      exact hend (hfirst (Nat.lt_of_le_of_lt (Nat.zero_le _) hlt))
    · exact hend (hrest _ hpos hlt)
  · exact fun hle => ⟨fun hpos => hat 0 (Nat.lt_of_lt_of_le hpos hle), fun i _ hi => hat i (Nat.lt_of_lt_of_le hi hle)⟩

theorem fatReadSector_clusters (t : Target) : (∀ c ∈ (fatReadSector v fptr t).clusters, DataCluster c) ↔
    SafeCall v fptr .readSector := by
  rw [fatReadSector, SafeCall]
  split_ifs with h
  · exact ⟨fun hall _ => hall _ List.mem_cons_self, fun hdata c hc => List.mem_singleton.mp hc ▸ hdata h⟩
  · exact iff_of_true (fun c hc => absurd hc List.not_mem_nil) fun h' => absurd h' h

theorem Asks.asksData {s s' : Reader} {call : Call} (hspc : 0 < v.header.sectorPerCluster) (hs : Asks v s call s')
    (h : AsksData s.asked) : AsksData s'.asked ↔ SafeCall v s.fptr call := by
  cases hs with
  | seek => exact iff_of_true h trivial
  | @read buf size =>
      rw [asksData_append, asksData_dataSectors hspc, fatRead_clusters]
      exact and_iff_right h
  | @readSector t =>
      rw [asksData_append, asksData_dataSectors hspc, fatReadSector_clusters]
      exact and_iff_right h

/-! ## What `fat_readFile` asks for -/

/-- The clusters visited are the values of the chain with no mark before them. -/
theorem mem_visited {next : Nat → Nat} {x : Nat} : ∀ (n c : Nat) (t : Target) (vs : List Nat),
    x ∈ (readFileLoop v next n ⟨t, c, vs⟩).visited ↔ x ∈ vs ∨
      ∃ k < n, x = (fatGetNextCluster v)^[k] c ∧ ∀ j ≤ k, (fatGetNextCluster v)^[j] c < fat16NoCluster
  | 0, c, t, vs => by
      refine ⟨.inl, ?_⟩
      rintro (h | ⟨k, hk, -⟩)
      · exact h
      · exact absurd hk (Nat.not_lt_zero k)
  | n + 1, c, t, vs => by
      rw [readFileLoop]
      split_ifs with h
      · have hrest := @mem_visited next x n (fatGetNextCluster v c) (readFilePass v next ⟨t, c, vs⟩).target (vs ++ [c])
        refine hrest.trans ?_
        rw [List.mem_append, List.mem_singleton, or_assoc]
        refine or_congr_right ⟨?_, ?_⟩
        · rintro (rfl | ⟨k, hk, hx, hall⟩)
          · exact ⟨0, Nat.succ_pos n, rfl, fun j hj => Nat.le_zero.mp hj ▸ h⟩
          · refine ⟨k + 1, Nat.succ_lt_succ hk, hx, fun j hj => ?_⟩
            cases j with
            | zero => exact h
            | succ j => exact hall j (Nat.le_of_succ_le_succ hj)
        · rintro ⟨k, hk, hx, hall⟩
          cases k with
          | zero => exact .inl hx
          | succ k => exact .inr ⟨k, Nat.lt_of_succ_lt_succ hk, hx, fun j hj => hall (j + 1) (Nat.succ_le_succ hj)⟩
      · refine ⟨.inl, ?_⟩
        rintro (hx | ⟨k, -, -, hall⟩)
        · exact hx
        · exact absurd (hall 0 (Nat.zero_le k)) h

/-- In every run of calls on an opened file, only sectors of data clusters are asked for exactly when every call is safe in
the state it starts from; and `fat_readFile` asks for no others, however far it comes, exactly when the chain is safe. -/
theorem asksData_iff (hS : 0 < fatSizeSector v) (fdir : FatFileDirectory) :
    (∀ tr, Steps (Asks v) ⟨fatFileOpen fdir, []⟩ tr →
      ((∀ x ∈ tr, AsksData x.2.asked) ↔ Meets (fun s call => SafeCall v s.fptr call) ⟨fatFileOpen fdir, []⟩ tr)) ∧
    ∀ mem buffer, (∀ passes, AsksData (dataSectors v (fatReadFile v fdir mem buffer passes).visited)) ↔
      SafeChain v (firstCluster fdir) := by
  have hspc : 0 < v.header.sectorPerCluster := Nat.pos_of_mul_pos_right hS
  refine ⟨fun tr htr => ?_, fun mem buffer => ?_⟩
  · refine Lib.always_iff_meets (I := fun s => AsksData s.asked) (fun s h => h) (fun s call s' h hs hsafe => ?_)
      (fun s call s' h hs hsafe hgood => ?_) (fun x hx => absurd hx List.not_mem_nil) htr
    · exact (hs.asksData hspc h).mpr hsafe
    · exact hsafe ((hs.asksData hspc h).mp hgood)
  · simp only [asksData_dataSectors hspc, fatReadFile, mem_visited, List.not_mem_nil, false_or]
    constructor
    · exact fun h n hall => h (n + 1) _ ⟨n, Nat.lt_succ_self n, rfl, hall⟩
    · rintro h passes x ⟨k, -, rfl, hall⟩
      exact h k hall

theorem asksData_iff_smallFile :
    (∀ tr, Steps (Asks smallVolume) ⟨fatFileOpen smallFile, []⟩ tr → ((∀ x ∈ tr, AsksData x.2.asked) ↔
      Meets (fun s call => SafeCall smallVolume s.fptr call) ⟨fatFileOpen smallFile, []⟩ tr)) ∧
    ∀ mem buffer, (∀ passes,
      AsksData (dataSectors smallVolume (fatReadFile smallVolume smallFile mem buffer passes).visited)) ↔
        SafeChain smallVolume (firstCluster smallFile) :=
  asksData_iff (by decide) smallFile

def emptyFile : FatFileDirectory := ⟨0x20, 0, 0⟩

/-- Reading a byte of a file without data asks for a sector of cluster 0, and so does reading it whole; reading more than the
three clusters of the small file asks for a sector of its end mark. -/
theorem not_asksData_emptyFile :
    (∃ s, Asks smallVolume ⟨fatFileOpen emptyFile, []⟩ (.read 1) s ∧ ¬ AsksData s.asked) ∧
    ¬ AsksData (dataSectors smallVolume (fatReadFile smallVolume emptyFile (fun _ => 0) 0 1).visited) ∧
    ∃ s, Asks smallVolume ⟨fatFileOpen smallFile, []⟩ (.read 1537) s ∧ (0xFFFF, 0) ∈ s.asked := by
  refine ⟨⟨_, @Asks.read smallVolume _ (fun _ => 0) 1, ?_⟩, ?_, _, @Asks.read smallVolume _ (fun _ => 0) 1537, ?_⟩
  · decide +kernel
  · decide +kernel
  · decide +kernel

end HaOS.Fat
