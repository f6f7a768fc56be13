import HaOS.Types
import HaOS.Lib.Bytes

/-!
# The FAT16 driver (`kernel/fs/fat.c`, `kernel/fs/disk.c`)

A volume is what the driver reads of it: the header fields, the first sector of the partition, and the sectors of the
disk. Buffers are memories of their own, from index 0 on.

* `ataReadDisk` : the PIO read; `fatGetNextCluster` : the FAT entry of a cluster;
* `fatFileOpen` : the pointer made from a directory entry (the second half of `fat_fileOpen`);
* `fatSeek`, `fatRead` : the two operations on a file pointer.
-/

namespace HaOS.Fat
open Lib (slice storeBytes)

/-- The fields of `fat_header_t` that reading uses. -/
structure FatHeader where
  bytesPerSector : Nat
  sectorPerCluster : Nat
  reservedSector : Nat
  fatNumber : Nat
  rootDirEntries : Nat
  sectorPerFat : Nat

structure Volume where
  header : FatHeader
  fatLbaStart : Nat
  disk : Nat → Nat → UInt8

/-- The fields of `fat_filedirectory_t` that opening uses. -/
structure FatFileDirectory where
  attributes : Nat
  highCluster : Nat
  lowCluster : Nat

structure FatFilePtr where
  currentCluster : Nat
  nextCluster : Nat
  cluster : Nat
  offset : Nat
deriving DecidableEq, Repr

def fatDirectory : Nat := 0x10

def fat16BadCluster : Nat := 0xFFF7

/-! ## Sectors -/

/-- The sector read for an `lba`: `ata_init_pio` sends its low 28 bits. -/
def ataSector (disk : Nat → Nat → UInt8) (lba : Nat) : Nat → UInt8 := disk (lba % 2 ^ 28)

/-- The loop of `ata_read_disk` over the sectors, run at most `n` times. -/
def ataReadLoop (disk : Nat → Nat → UInt8) : Nat → Nat → Nat → Nat → List UInt8
  | 0, _, _, _ => []
  | n + 1, lba, offset, size =>
    if size = 0 then []
    else
      let bytes := min size (512 - offset)
      slice (ataSector disk lba) offset bytes ++ ataReadLoop disk n (dword (lba + 1)) 0 (size - bytes)

/-- `ata_read_disk`: the bytes put into the buffer. Every pass but the first copies a byte. -/
def ataReadDisk (disk : Nat → Nat → UInt8) (lba offset size : Nat) : List UInt8 :=
  ataReadLoop disk (size + 1) lba offset size

/-! ## The volume -/

/-- Bytes of a cluster. The product of a byte and a word is an `int`. -/
def fatSizeSector (v : Volume) : Nat := v.header.sectorPerCluster * v.header.bytesPerSector

def fatStart (v : Volume) : Nat := dword (v.fatLbaStart + v.header.reservedSector)

def rootDirsStart (v : Volume) : Nat := dword (fatStart v + v.header.fatNumber * v.header.sectorPerFat)

/-- The quotient is by `sizeof( fat_filedirectory_t )`, 32 bytes. -/
def rootDirSectors (v : Volume) : Nat := v.header.rootDirEntries / (v.header.bytesPerSector / 32)

def dataStart (v : Volume) : Nat := dword (rootDirsStart v + rootDirSectors v)

/-- `((word*) buffer)[ off ]`. -/
def wordAt (buffer : List UInt8) (off : Nat) : Nat :=
  (buffer.getD (2 * off) 0).toNat + 256 * (buffer.getD (2 * off + 1) 0).toNat

def fatGetNextCluster (v : Volume) (cluster : Nat) : Nat :=
  let seg := cluster / 256
  let off := cluster % 256
  wordAt (ataReadDisk v.disk (dword (fatStart v + seg)) 0 512) off

/-- The pointer `fat_fileOpen` makes from the directory entry it found. -/
def fatFileOpen (fdir : FatFileDirectory) : FatFilePtr :=
  if fdir.attributes &&& fatDirectory = 0 then
    let cluster := fdir.lowCluster ||| dword (fdir.highCluster <<< 16)
    ⟨cluster, cluster, cluster, 0⟩
  else ⟨0xFFFFFFFF, 0xFFFFFFFF, 0xFFFFFFFF, 0⟩

/-! ## `fat_seek` -/

/-- The `while( __len > 0 )` loop; `false` is the early return on a bad cluster. -/
def seekLoop (v : Volume) : Nat → Nat → FatFilePtr → FatFilePtr × Bool
  | 0, _, fptr => (fptr, true)
  | len + 1, clus, fptr =>
    if fat16BadCluster ≤ clus then (fptr, false)
    else
      let fptr := { fptr with cluster := clus }
      let f := clus / 256
      let o := clus % 256
      seekLoop v len (wordAt (ataReadDisk v.disk (dword (fatStart v + f)) 0 512) o) fptr

/-- `fat_seek`; `new_alloc` is taken to return a block for the sector of the FAT. -/
def fatSeek (v : Volume) (fptr : FatFilePtr) (pos : Nat) : FatFilePtr :=
  let len := pos / fatSizeSector v
  let off := word (pos % fatSizeSector v)
  match seekLoop v len fptr.currentCluster fptr with
  | (fptr, true) => { fptr with offset := off }
  | (fptr, false) => fptr

/-! ## `fat_read` -/

/-- The first sector of a cluster is `data_start + ( cluster - 2 ) * sector_per_cluster`; this is its sector `j`. -/
def clusterSector (v : Volume) (cluster j : Nat) : Nat :=
  dword (dataStart v + (cluster + (2 ^ 32 - 2)) * v.header.sectorPerCluster + j)

/-- The loop that fills `_buf` with the sectors of a cluster. -/
def readCluster (v : Volume) (cluster : Nat) (buf : Nat → UInt8) : Nat → Nat → UInt8
  | 0 => buf
  | j + 1 => storeBytes (readCluster v cluster buf j) (j * v.header.bytesPerSector)
      (ataReadDisk v.disk (clusterSector v cluster j) 0 v.header.bytesPerSector)

/-- What a call of `fat_read` leaves: the pointer, the bytes stored from `buffer` on, the indices of `_buf` it used and
the clusters it read. -/
structure Reading where
  fptr : FatFilePtr
  out : List UInt8
  indices : List Nat
  clusters : List Nat

/-- The `for( int i = 0; i < __len; i++ )` loop, with the passes left counted down. -/
def readLoop (v : Volume) : Nat → (Nat → UInt8) → FatFilePtr → Nat → Nat → Reading
  | 0, _, fptr, _, _ => ⟨fptr, [], [], []⟩
  | passes + 1, buf, fptr, cluster, size =>
    let buf := readCluster v cluster buf v.header.sectorPerCluster
    if passes = 0 then
      ⟨{ fptr with offset := word (fptr.offset + size) }, slice buf fptr.offset size, slice id fptr.offset size,
        [cluster]⟩
    else
      -- the copy ends with the cluster or when `size` reaches 0
      let bytes := min size (fatSizeSector v - fptr.offset)
      let next := fatGetNextCluster v fptr.nextCluster
      let r := readLoop v passes buf
        { fptr with offset := word (fptr.offset + bytes) % fatSizeSector v, nextCluster := next, cluster := next }
        next (size - bytes)
      ⟨r.fptr, slice buf fptr.offset bytes ++ r.out, slice id fptr.offset bytes ++ r.indices, cluster :: r.clusters⟩

/-- `fat_read`; `new_alloc` is taken to return, for `_buf` a block that holds `buf`. -/
def fatRead (v : Volume) (buf : Nat → UInt8) (fptr : FatFilePtr) (size : Nat) : Reading :=
  let sizeSector := fatSizeSector v
  let len := dword (dword (size / sizeSector) + if 0 < size % sizeSector then 1 else 0)
  readLoop v len buf fptr fptr.cluster size

/-! ## First facts -/

theorem ataReadDisk_eq (disk : Nat → Nat → UInt8) (lba : Nat) {size : Nat} (hs : size ≤ 512) :
    ataReadDisk disk lba 0 size = slice (ataSector disk lba) 0 size := by
  unfold ataReadDisk
  by_cases h0 : size = 0
  · subst h0
    rfl
  · obtain ⟨n, rfl⟩ := Nat.exists_eq_succ_of_ne_zero h0
    simp only [ataReadLoop, if_neg h0, Nat.sub_zero, Nat.min_eq_left hs, Nat.sub_self, if_true, List.append_nil]

theorem length_ataReadLoop (disk : Nat → Nat → UInt8) : ∀ {n lba offset size : Nat}, offset < 512 → size ≤ n →
    (ataReadLoop disk n lba offset size).length = size
  | 0, _, _, _, _, hsize => (Nat.le_zero.mp hsize).symm
  | n + 1, lba, offset, size, hoffset, hsize => by
      rw [ataReadLoop]
      split_ifs with h0
      · exact h0.symm
      · have hrest : size - min size (512 - offset) ≤ n := by omega
        have ih := @length_ataReadLoop disk n (dword (lba + 1)) 0 _ (by decide) hrest
        dsimp only
        rw [List.length_append, Lib.length_slice, ih]
        omega

theorem length_ataReadDisk (disk : Nat → Nat → UInt8) (lba size : Nat) : (ataReadDisk disk lba 0 size).length = size :=
  length_ataReadLoop disk (by decide) (Nat.le_succ size)

/-- Byte `i` of a cluster of 512-byte sectors. -/
def clusterByte (v : Volume) (cluster i : Nat) : UInt8 := ataSector v.disk (clusterSector v cluster (i / 512)) (i % 512)

theorem readCluster_of_lt {v : Volume} (hb : v.header.bytesPerSector = 512) (cluster : Nat) (buf : Nat → UInt8) :
    ∀ {n i : Nat}, i < n * 512 → readCluster v cluster buf n i = clusterByte v cluster i
  | 0, i, hi => by omega
  | n + 1, i, hi => by
      rw [readCluster, hb, ataReadDisk_eq _ _ (Nat.le_refl _)]
      by_cases hn : i < n * 512
      · rw [Lib.storeBytes_out (.inl hn), readCluster_of_lt hb cluster buf hn]
      · obtain ⟨k, rfl⟩ : ∃ k, i = n * 512 + k := ⟨i - n * 512, by omega⟩
        have hk : k < 512 := by omega
        rw [Lib.storeBytes_in (Lib.getElem?_slice hk), clusterByte, Nat.zero_add]
        congr 2 <;> omega

end HaOS.Fat
