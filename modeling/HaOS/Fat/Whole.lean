import HaOS.Fat.Seek
import HaOS.Lib.Walk

/-!
# Files read as a whole

`fat_readFile` and `fat_readFile_map` follow the chain in a local loop, `fat_readSector` one cluster a call.

* `storeSectors` : the loop over the sectors of a cluster, for any way to go on in the memory;
* `readFileLoop` : the loop over the clusters, after any number of passes; `Ends` : it ends;
* `FileWalk v c cs` : the clusters from `c` on, before the first value that is no cluster;
* `ends_iff` : the loops end exactly when the chain does not come back to a cluster, and visit each once;
* `StoresWhole` : the three store the same bytes; `wholeFile_iff` : when these are the data of the clusters.
-/

namespace HaOS.Fat
open Lib (slice storeBytes Walk)

def fat16NoCluster : Nat := 0xFFF8

/-! ## The readers -/

/-- The memory that is stored to, and the address of the next sector. -/
structure Target where
  mem : Nat → UInt8
  addr : Nat

/-- The `for` loop over the sectors of a cluster, after `i` passes; `next` is how the address goes on. -/
def storeSectors (v : Volume) (next : Nat → Nat) (cluster : Nat) (t : Target) : Nat → Target
  | 0 => t
  | i + 1 =>
    let t := storeSectors v next cluster t i
    ⟨storeBytes t.mem t.addr (ataReadDisk v.disk (clusterSector v cluster i) 0 512), next t.addr⟩

/-- The state of the loop over the clusters, and the clusters that it has visited. -/
structure FileRead where
  target : Target
  cluster : Nat
  visited : List Nat

def readFilePass (v : Volume) (next : Nat → Nat) (s : FileRead) : FileRead where
  target := storeSectors v next s.cluster s.target v.header.sectorPerCluster
  cluster := fatGetNextCluster v s.cluster
  visited := s.visited ++ [s.cluster]

/-- The `while( cluster < FAT16_NOCLUSTER )` loop, stopped after `passes` if it has not ended. -/
def readFileLoop (v : Volume) (next : Nat → Nat) : Nat → FileRead → FileRead
  | 0, s => s
  | passes + 1, s => if s.cluster < fat16NoCluster then readFileLoop v next passes (readFilePass v next s) else s

/-- `file->high_cluster << 16 | file->low_cluster`, a `dword`. -/
def firstCluster (file : FatFileDirectory) : Nat := dword (file.highCluster <<< 16) ||| file.lowCluster

def fatReadFile (v : Volume) (file : FatFileDirectory) (mem : Nat → UInt8) (buffer passes : Nat) : FileRead :=
  readFileLoop v (· + 512) passes ⟨⟨mem, buffer⟩, firstCluster file, []⟩

/-- `virt` is a `dword`; nothing is stored through `buffer`. -/
def fatReadFileMap (v : Volume) (file : FatFileDirectory) (mem : Nat → UInt8) (virt passes : Nat) : FileRead :=
  readFileLoop v (fun virt => dword (virt + 512)) passes ⟨⟨mem, virt⟩, firstCluster file, []⟩

/-- What a call of `fat_readSector` leaves: the pointer, the memory with the place where the call ended in it, and the
clusters that were read. -/
structure SectorRead where
  fptr : FatFilePtr
  target : Target
  clusters : List Nat

def fatReadSector (v : Volume) (fptr : FatFilePtr) (t : Target) : SectorRead :=
  if fptr.nextCluster < fat16NoCluster then
    ⟨{ fptr with nextCluster := fatGetNextCluster v fptr.nextCluster },
      storeSectors v (· + 512) fptr.nextCluster t v.header.sectorPerCluster, [fptr.nextCluster]⟩
  else ⟨fptr, t, []⟩

/-- Calls of `fat_readSector`, each where the one before it ended, until `next_cluster` is no cluster. -/
def readSectorCalls (v : Volume) : Nat → FatFilePtr → Target → FatFilePtr × Target
  | 0, fptr, t => (fptr, t)
  | calls + 1, fptr, t =>
    if fptr.nextCluster < fat16NoCluster then
      let r := fatReadSector v fptr t
      readSectorCalls v calls r.fptr r.target
    else (fptr, t)

def Ends (run : Nat → FileRead) (s : FileRead) : Prop := ∃ passes, run passes = s ∧ fat16NoCluster ≤ s.cluster

/-- From cluster `c` on, the clusters before the first value that is none are `cs`. -/
def FileWalk (v : Volume) (c : Nat) (cs : List Nat) : Prop := Walk (fatGetNextCluster v) (fat16NoCluster ≤ ·) c cs

/-- The sectors of the drive from the first of a cluster on, as many as a cluster has of the volume's sectors. -/
def sectorData (v : Volume) (c : Nat) : List UInt8 := slice (clusterByte v c) 0 (512 * v.header.sectorPerCluster)

/-- The data of a cluster, `fat_sizeSector` bytes: each sector as `fat_read` takes it. -/
def clusterData (v : Volume) (c : Nat) : List UInt8 :=
  (List.range v.header.sectorPerCluster).flatMap fun j => ataReadDisk v.disk (clusterSector v c j) 0 v.header.bytesPerSector

/-- The three ways to read the whole file store `data`: the calls of `fat_readSector`, each where the one before it ended,
`fat_readFile`, and `fat_readFile_map` where the addresses do not wrap. -/
def StoresWhole (v : Volume) (file : FatFileDirectory) (data : List UInt8) : Prop :=
  ∀ (mem : Nat → UInt8) (buffer virt : Nat),
    (∃ calls fptr t, readSectorCalls v calls (fatFileOpen file) ⟨mem, buffer⟩ = (fptr, t) ∧
      fat16NoCluster ≤ fptr.nextCluster ∧ t.mem = storeBytes mem buffer data) ∧
    (∃ s, Ends (fatReadFile v file mem buffer) s ∧ s.target.mem = storeBytes mem buffer data) ∧
    (virt + data.length ≤ 2 ^ 32 → ∃ s, Ends (fatReadFileMap v file mem virt) s ∧ s.target.mem = storeBytes mem virt data)

variable {v : Volume} {next : Nat → Nat} {c n : Nat} {cs vs : List Nat} {t : Target} {mem : Nat → UInt8} {s : FileRead}
  {file : FatFileDirectory}

/-! ## A cluster -/

theorem length_sectorData (v : Volume) (c : Nat) : (sectorData v c).length = 512 * v.header.sectorPerCluster :=
  Lib.length_slice ..

theorem length_fileData (v : Volume) (cs : List Nat) :
    (cs.flatMap (sectorData v)).length = 512 * (v.header.sectorPerCluster * cs.length) := by
  induction cs with
  | nil => rfl
  | cons c cs ih =>
      rw [List.flatMap_cons, List.length_append, length_sectorData, ih, List.length_cons, Nat.mul_succ]
      omega

theorem ataReadDisk_cluster (v : Volume) (c n : Nat) :
    ataReadDisk v.disk (clusterSector v c n) 0 512 = slice (clusterByte v c) (0 + 512 * n) 512 := by
  rw [ataReadDisk_eq _ _ (Nat.le_refl _)]
  refine Lib.slice_congr fun i hi => ?_
  have hdiv : (0 + 512 * n + i) / 512 = n := by omega
  have hmod : (0 + 512 * n + i) % 512 = 0 + i := by omega
  rw [clusterByte, hdiv, hmod]

theorem storeSectors_addr (n : Nat) : (storeSectors v next c t n).addr = next^[n] t.addr := by
  induction n with
  | zero => rfl
  | succ n ih => rw [storeSectors, Function.iterate_succ_apply', ih]

/-- When the addresses follow each other, the sectors of a cluster are stored as one block. -/
theorem storeSectors_mem (hnext : ∀ i < n, next^[i] t.addr = t.addr + 512 * i) :
    (storeSectors v next c t n).mem = storeBytes t.mem t.addr (slice (clusterByte v c) 0 (512 * n)) := by
  induction n with
  | zero => exact (Lib.storeBytes_nil ..).symm
  | succ n ih =>
      have haddr : (storeSectors v next c t n).addr = t.addr + 512 * n := by
        rw [storeSectors_addr, hnext n (Nat.lt_succ_self n)]
      have happend := Lib.storeBytes_append t.mem t.addr (slice (clusterByte v c) 0 (512 * n))
        (slice (clusterByte v c) (0 + 512 * n) 512)
      rw [Lib.length_slice] at happend
      rw [storeSectors, haddr, ih fun i hi => hnext i (Nat.lt_succ_of_lt hi), ataReadDisk_cluster, happend, Nat.mul_succ,
        Lib.slice_add]

/-! ## The loop over the clusters -/

theorem fatGetNextCluster_lt (v : Volume) (c : Nat) : fatGetNextCluster v c < 2 ^ 16 := by
  have hword : ∀ buffer off, wordAt buffer off < 2 ^ 16 := by
    intro buffer off
    have hlow := (buffer.getD (2 * off) 0).toNat_lt
    have hhigh := (buffer.getD (2 * off + 1) 0).toNat_lt
    unfold wordAt
    omega
  exact hword _ _

theorem readFileLoop_end (h : fat16NoCluster ≤ s.cluster) (passes : Nat) : readFileLoop v next passes s = s := by
  cases passes with
  | zero => rfl
  | succ passes => exact if_neg (Nat.not_lt.mpr h)

/-- The loop after the clusters of a walk, and any number of passes more. -/
theorem readFileLoop_walk (h : FileWalk v c cs) : ∀ (t : Target) (vs : List Nat) (extra : Nat), ∃ t',
    readFileLoop v next (cs.length + extra) ⟨t, c, vs⟩ = ⟨t', (fatGetNextCluster v)^[cs.length] c, vs ++ cs⟩ ∧
    ((∀ i < v.header.sectorPerCluster * cs.length, next^[i] t.addr = t.addr + 512 * i) →
      t'.mem = storeBytes t.mem t.addr (cs.flatMap (sectorData v))) := by
  induction h with
  | done hend =>
      intro t vs extra
      rw [List.append_nil]
      exact ⟨t, readFileLoop_end hend _, fun _ => (Lib.storeBytes_nil ..).symm⟩
  | @pass c cs hc _ ih =>
      intro t vs extra
      have hlt : c < fat16NoCluster := Nat.not_le.mp hc
      obtain ⟨t', hrun, hmem⟩ := ih (storeSectors v next c t v.header.sectorPerCluster) (vs ++ [c]) extra
      have hlen : (c :: cs).length + extra = cs.length + extra + 1 := by rw [List.length_cons]; omega
      have hstep : readFileLoop v next ((c :: cs).length + extra) ⟨t, c, vs⟩ =
          readFileLoop v next (cs.length + extra) (readFilePass v next ⟨t, c, vs⟩) := by
        rw [hlen]
        exact if_pos hlt
      refine ⟨t', ?_, fun hnext => ?_⟩
      · rw [hstep]
        refine hrun.trans ?_
        rw [List.append_assoc, List.singleton_append]
        rfl
      · rw [List.length_cons, Nat.mul_succ] at hnext
        have haddr : (storeSectors v next c t v.header.sectorPerCluster).addr = next^[v.header.sectorPerCluster] t.addr :=
          storeSectors_addr _
        have hfirst : (storeSectors v next c t v.header.sectorPerCluster).mem = storeBytes t.mem t.addr (sectorData v c) :=
          storeSectors_mem fun i hi => hnext i (by omega)
        by_cases hcs : v.header.sectorPerCluster * cs.length = 0
        · have hnil : cs.flatMap (sectorData v) = [] := List.eq_nil_of_length_eq_zero (by rw [length_fileData, hcs])
          rw [hmem fun i hi => absurd hi (by omega), hfirst, List.flatMap_cons, hnil, List.append_nil, Lib.storeBytes_nil]
        · have hat := hnext v.header.sectorPerCluster (by omega)
          have hblock := Lib.storeBytes_append t.mem t.addr (sectorData v c) (cs.flatMap (sectorData v))
          rw [length_sectorData] at hblock
          rw [hmem, hfirst, haddr, hat, hblock, List.flatMap_cons]
          intro i hi
          have hi' := hnext (i + v.header.sectorPerCluster) (by omega)
          rw [haddr, ← Function.iterate_add_apply, hi', hat]
          omega

theorem readFileLoop_cluster : ∀ (n : Nat) (s : FileRead), ∃ k,
    (readFileLoop v next n s).cluster = (fatGetNextCluster v)^[k] s.cluster
  | 0, _ => ⟨0, rfl⟩
  | n + 1, s => by
      rw [readFileLoop]
      split_ifs
      · obtain ⟨k, hk⟩ := readFileLoop_cluster n (readFilePass v next s)
        exact ⟨k + 1, hk⟩
      · exact ⟨0, rfl⟩

theorem exists_ends_iff (v : Volume) (next : Nat → Nat) (t : Target) (c : Nat) :
    (∃ s, Ends (fun passes => readFileLoop v next passes ⟨t, c, []⟩) s) ↔
      ∃ n, fat16NoCluster ≤ (fatGetNextCluster v)^[n] c := by
  constructor
  · rintro ⟨s, passes, rfl, hend⟩
    obtain ⟨k, hk⟩ := @readFileLoop_cluster v next passes ⟨t, c, []⟩
    exact ⟨k, hk ▸ hend⟩
  · intro h
    obtain ⟨cs, hwalk⟩ := Lib.exists_walk_iff.mpr h
    obtain ⟨t', hrun, -⟩ := @readFileLoop_walk v next c cs hwalk t [] 0
    exact ⟨_, cs.length, hrun, hwalk.stops⟩

theorem readFileLoop_add : ∀ (m n : Nat) (s : FileRead),
    readFileLoop v next (m + n) s = readFileLoop v next n (readFileLoop v next m s)
  | 0, n, s => by rw [Nat.zero_add]; rfl
  | m + 1, n, s => by
      rw [Nat.add_right_comm, readFileLoop, readFileLoop]
      split_ifs with h
      · exact readFileLoop_add m n (readFilePass v next s)
      · exact (readFileLoop_end (Nat.not_lt.mp h) n).symm

/-- The state that the loop ends in is the one behind the clusters of the walk. -/
theorem Ends.walk (h : Ends (fun passes => readFileLoop v next passes ⟨t, c, []⟩) s) (hwalk : FileWalk v c cs) :
    s.visited = cs ∧ ((∀ i < v.header.sectorPerCluster * cs.length, next^[i] t.addr = t.addr + 512 * i) →
      s.target.mem = storeBytes t.mem t.addr (cs.flatMap (sectorData v))) := by
  obtain ⟨passes, rfl, hend⟩ := h
  obtain ⟨t', hrun, hmem⟩ := @readFileLoop_walk v next c cs hwalk t [] passes
  have hsame : readFileLoop v next (cs.length + passes) ⟨t, c, []⟩ = readFileLoop v next passes ⟨t, c, []⟩ := by
    rw [Nat.add_comm, readFileLoop_add]
    exact readFileLoop_end hend _
  dsimp only
  rw [← hsame, hrun]
  exact ⟨List.nil_append cs, hmem⟩

/-- Following the chain from `c` comes back to a value before it comes to one that is no cluster. -/
def ComesBack (v : Volume) (c : Nat) : Prop :=
  ∃ i j, i < j ∧ (fatGetNextCluster v)^[i] c = (fatGetNextCluster v)^[j] c ∧
    ∀ k ≤ j, (fatGetNextCluster v)^[k] c < fat16NoCluster

theorem stops_iff (v : Volume) (c : Nat) : (∃ n, fat16NoCluster ≤ (fatGetNextCluster v)^[n] c) ↔ ¬ ComesBack v c := by
  have hiff := @Lib.exists_stop_iff Nat (fatGetNextCluster v) (fat16NoCluster ≤ ·) c (Finset.range (2 ^ 16))
    fun x => Finset.mem_range.mpr (fatGetNextCluster_lt v x)
  simp only [Nat.not_le] at hiff
  exact hiff

/-- The loops of `fat_readFile` and `fat_readFile_map` end exactly when the chain of the file does not come back before
it ends, and then they have visited no cluster twice. -/
theorem ends_iff (v : Volume) (file : FatFileDirectory) (mem : Nat → UInt8) (buffer virt : Nat) :
    (((∃ s, Ends (fatReadFile v file mem buffer) s) ↔ ¬ ComesBack v (firstCluster file)) ∧
      ∀ s, Ends (fatReadFile v file mem buffer) s → s.visited.Nodup) ∧
    ((∃ s, Ends (fatReadFileMap v file mem virt) s) ↔ ¬ ComesBack v (firstCluster file)) ∧
      ∀ s, Ends (fatReadFileMap v file mem virt) s → s.visited.Nodup := by
  have hloop : ∀ next t, ((∃ s, Ends (fun passes => readFileLoop v next passes ⟨t, firstCluster file, []⟩) s) ↔
      ¬ ComesBack v (firstCluster file)) ∧
      ∀ s, Ends (fun passes => readFileLoop v next passes ⟨t, firstCluster file, []⟩) s → s.visited.Nodup := by
    intro next t
    refine ⟨(exists_ends_iff v next t _).trans (stops_iff v _), fun s hs => ?_⟩
    obtain ⟨cs, hwalk⟩ := Lib.exists_walk_iff.mpr ((exists_ends_iff v next t _).mp ⟨s, hs⟩)
    rw [(hs.walk hwalk).1]
    exact hwalk.nodup
  exact ⟨hloop _ _, hloop _ _⟩

/-- The FAT links cluster 2 to itself. -/
def cyclicVolume : Volume where
  header := ⟨512, 1, 1, 1, 16, 1⟩
  fatLbaStart := 0
  disk lba i := if lba = 1 ∧ i = 4 then 2 else 0

/-- The file that starts at cluster 2 is read for ever. -/
theorem not_ends_cyclicVolume : (∀ s, ¬ Ends (fatReadFile cyclicVolume smallFile (fun _ => 0) 0) s) ∧
    ∀ s, ¬ Ends (fatReadFileMap cyclicVolume smallFile (fun _ => 0) 0) s := by
  have hback : ComesBack cyclicVolume (firstCluster smallFile) := by
    refine ⟨0, 1, Nat.one_pos, by decide +kernel, ?_⟩
    decide +kernel
  have hnever : ∀ next t s, ¬ Ends (fun passes => readFileLoop cyclicVolume next passes ⟨t, firstCluster smallFile, []⟩) s :=
    fun next t s hs => (stops_iff _ _).mp ((exists_ends_iff _ next t _).mp ⟨s, hs⟩) hback
  exact ⟨hnever _ _, hnever _ _⟩

/-! ## The bytes stored -/

/-- The calls of `fat_readSector` make the passes of the loop. -/
theorem readSectorCalls_eq : ∀ (calls : Nat) (fptr : FatFilePtr) (t : Target) (vs : List Nat),
    readSectorCalls v calls fptr t =
      ({ fptr with nextCluster := (readFileLoop v (· + 512) calls ⟨t, fptr.nextCluster, vs⟩).cluster },
        (readFileLoop v (· + 512) calls ⟨t, fptr.nextCluster, vs⟩).target)
  | 0, _, _, _ => rfl
  | calls + 1, fptr, t, vs => by
      rw [readSectorCalls, readFileLoop, fatReadSector]
      split_ifs
      · exact readSectorCalls_eq calls _ _ (vs ++ [fptr.nextCluster])
      · rfl

theorem iterate_add_sector (a i : Nat) : (· + 512)^[i] a = a + 512 * i := by
  induction i with
  | zero => rfl
  | succ i ih => rw [Function.iterate_succ_apply', ih, Nat.mul_succ, Nat.add_assoc]

/-- A `dword` that goes on by sectors does not wrap inside the first 4 GiB. -/
theorem iterate_dword {virt i : Nat} (h : virt + 512 * i < 2 ^ 32) :
    (fun virt => dword (virt + 512))^[i] virt = virt + 512 * i := by
  induction i with
  | zero => rfl
  | succ i ih =>
      have hbefore : (fun virt => dword (virt + 512))^[i] virt = virt + 512 * i := ih (by omega)
      have hsum : virt + 512 * (i + 1) = virt + 512 * i + 512 := by omega
      rw [hsum] at h ⊢
      rw [Function.iterate_succ_apply', hbefore]
      exact dword_of_lt h

theorem firstCluster_eq {file : FatFileDirectory} (h : file.attributes &&& fatDirectory = 0) :
    (fatFileOpen file).nextCluster = firstCluster file := by
  rw [fatFileOpen, if_pos h]
  exact Nat.or_comm _ _

theorem storesWhole_sectorData (hfile : file.attributes &&& fatDirectory = 0) (hwalk : FileWalk v (firstCluster file) cs) :
    StoresWhole v file (cs.flatMap (sectorData v)) := by
  intro mem buffer virt
  have hend := Lib.exists_walk_iff.mp ⟨cs, hwalk⟩
  obtain ⟨s, hs⟩ := (exists_ends_iff v (· + 512) ⟨mem, buffer⟩ (firstCluster file)).mpr hend
  obtain ⟨s', hs'⟩ := (exists_ends_iff v (fun virt => dword (virt + 512)) ⟨mem, virt⟩ (firstCluster file)).mpr hend
  have hmem := (hs.walk hwalk).2 fun i _ => iterate_add_sector buffer i
  refine ⟨?_, ⟨s, hs, hmem⟩, fun hfits => ⟨s', hs', (hs'.walk hwalk).2 fun i hi => ?_⟩⟩
  · obtain ⟨calls, hrun, hno⟩ := hs
    have hcalls := @readSectorCalls_eq v calls (fatFileOpen file) ⟨mem, buffer⟩ []
    dsimp only at hrun
    rw [firstCluster_eq hfile, hrun] at hcalls
    exact ⟨calls, _, _, hcalls, hno, hmem⟩
  · rw [length_fileData] at hfits
    exact iterate_dword (show virt + 512 * i < 2 ^ 32 by omega)

theorem length_clusterData (v : Volume) (c : Nat) : (clusterData v c).length = fatSizeSector v := by
  rw [clusterData, List.length_flatMap]
  simp [length_ataReadDisk, fatSizeSector]

/-- With 512-byte sectors the sectors of the drive are those of the volume. -/
theorem clusterData_eq (hb : v.header.bytesPerSector = 512) (c : Nat) : clusterData v c = sectorData v c := by
  have hrange : ∀ n, ((List.range n).flatMap fun j => ataReadDisk v.disk (clusterSector v c j) 0 512) =
      slice (clusterByte v c) 0 (512 * n) := by
    intro n
    induction n with
    | zero => rfl
    | succ n ih =>
        rw [List.range_succ, List.flatMap_append, ih, List.flatMap_singleton, Nat.mul_succ, Lib.slice_add,
          ataReadDisk_cluster]
  rw [clusterData, hb, hrange]
  rfl

/-- What is stored is the data of the clusters when it is as long. -/
theorem storesWhole_iff (hfile : file.attributes &&& fatDirectory = 0) (hwalk : FileWalk v (firstCluster file) cs) :
    StoresWhole v file (cs.flatMap (clusterData v)) ↔
      v.header.bytesPerSector = 512 ∨ v.header.sectorPerCluster = 0 ∨ fat16NoCluster ≤ firstCluster file := by
  have hbyte : Nontrivial UInt8 := ⟨0, 1, by decide⟩
  constructor
  · intro h
    have hlen : (cs.flatMap (sectorData v)).length = (cs.flatMap (clusterData v)).length := by
      apply @Lib.length_eq_of_storeBytes _ 0
      intro mem
      obtain ⟨s, hs, hmem⟩ := (h mem 0 0).2.1
      exact ((hs.walk hwalk).2 fun i _ => iterate_add_sector 0 i).symm.trans hmem
    have hdata : (cs.flatMap (clusterData v)).length = fatSizeSector v * cs.length := by
      rw [List.length_flatMap]
      simp [length_clusterData, Nat.mul_comm]
    rw [length_fileData, hdata, fatSizeSector] at hlen
    by_contra hne
    obtain ⟨hb, hspc, hfirst⟩ := by simpa only [not_or] using hne
    have hcs : cs.length ≠ 0 := by
      intro h0
      rw [List.length_eq_zero_iff.mp h0] at hwalk
      exact hfirst hwalk.stops
    have hpos : 0 < v.header.sectorPerCluster * cs.length :=
      Nat.mul_pos (Nat.pos_of_ne_zero hspc) (Nat.pos_of_ne_zero hcs)
    refine hb (Nat.eq_of_mul_eq_mul_right hpos ?_)
    rw [hlen]
    exact (Nat.mul_left_comm _ _ _).trans (Nat.mul_assoc _ _ _).symm
  · intro h
    have hsame : cs.flatMap (clusterData v) = cs.flatMap (sectorData v) := by
      rcases h with hb | hspc | hfirst
      · exact List.flatMap_congr fun c _ => clusterData_eq hb c
      · refine List.flatMap_congr fun c _ => ?_
        rw [clusterData, sectorData, hspc]
        rfl
      · cases hwalk with
        | done => rfl
        | pass hc => exact absurd hfirst hc
    rw [hsame]
    exact storesWhole_sectorData hfile hwalk

/-- For a chain that ends, the three ways to read the whole file store the same, the sectors of the drive from the first of
each cluster on. This is the data of the clusters exactly when a sector of the volume is one of the drive, or there is
nothing to read. -/
theorem wholeFile_iff {file : FatFileDirectory} (hfile : file.attributes &&& fatDirectory = 0)
    (hend : ∃ n, fat16NoCluster ≤ (fatGetNextCluster v)^[n] (firstCluster file)) :
    ∃ cs, FileWalk v (firstCluster file) cs ∧ StoresWhole v file (cs.flatMap (sectorData v)) ∧
      (StoresWhole v file (cs.flatMap (clusterData v)) ↔
        v.header.bytesPerSector = 512 ∨ v.header.sectorPerCluster = 0 ∨ fat16NoCluster ≤ firstCluster file) := by
  obtain ⟨cs, hwalk⟩ := Lib.exists_walk_iff.mpr hend
  exact ⟨cs, hwalk, storesWhole_sectorData hfile hwalk, storesWhole_iff hfile hwalk⟩

theorem wholeFile_iff_smallFile : ∃ cs, FileWalk smallVolume (firstCluster smallFile) cs ∧
    StoresWhole smallVolume smallFile (cs.flatMap (sectorData smallVolume)) ∧
    (StoresWhole smallVolume smallFile (cs.flatMap (clusterData smallVolume)) ↔
      smallVolume.header.bytesPerSector = 512 ∨ smallVolume.header.sectorPerCluster = 0 ∨
        fat16NoCluster ≤ firstCluster smallFile) :=
  wholeFile_iff (by decide) ⟨3, by decide +kernel⟩

def wideVolume : Volume := { smallVolume with header := { smallVolume.header with bytesPerSector := 1024 } }

/-- Of each cluster of 1024 bytes, the first 512 are stored. -/
theorem not_storesWhole_wideVolume : FileWalk wideVolume (firstCluster smallFile) [2, 3, 4] ∧
    ¬ StoresWhole wideVolume smallFile ([2, 3, 4].flatMap (clusterData wideVolume)) := by
  have hwalk : FileWalk wideVolume 2 [2, 3, 4] := by
    have h2 : fatGetNextCluster wideVolume 2 = 3 := by decide +kernel
    have h3 : fatGetNextCluster wideVolume 3 = 4 := by decide +kernel
    have h4 : fatGetNextCluster wideVolume 4 = 0xFFFF := by decide +kernel
    refine .pass (by decide) ?_
    rw [h2]
    refine .pass (by decide) ?_
    rw [h3]
    refine .pass (by decide) ?_
    rw [h4]
    exact .done (by decide)
  refine ⟨hwalk, fun h => ?_⟩
  rcases (storesWhole_iff (by decide) hwalk).mp h with hb | hspc | hfirst
  · exact absurd hb (by decide)
  · exact absurd hspc (by decide)
  · exact absurd hfirst (by decide)

end HaOS.Fat
