import HaOS.Fat.Seek
import Mathlib.Data.List.Perm.Subperm

/-!
# `fat_read`

* `fileByte v cs p` : byte `p` of the data of the clusters `cs`, one cluster after another;
* `readLoop_spec` : what the passes of `fat_read` leave, from any cluster and offset;
* `ReadFits` : the bytes of the last pass lie in its cluster, and the offset behind them in a `word`;
* `read_iff` : a read delivers the file's bytes, stays in `_buf` and leaves the pointer behind them exactly when it
  fits; a run of reads that fit delivers the bytes of one read of their sum.
-/

namespace HaOS.Fat
open Lib (slice)

variable {v : Volume} {fptr : FatFilePtr} {cs : List Nat} {c k o size : Nat} {buf : Nat → UInt8}

/-- A volume with 512-byte sectors and at most 128 of them in a cluster. -/
structure Fat16 (v : Volume) : Prop where
  sector : v.header.bytesPerSector = 512
  pos : 0 < v.header.sectorPerCluster
  le : v.header.sectorPerCluster ≤ 128

/-- Byte `p` of the file with the clusters `cs`. -/
def fileByte (v : Volume) (cs : List Nat) (p : Nat) : UInt8 :=
  clusterByte v (cs.getD (p / fatSizeSector v) 0) (p % fatSizeSector v)

/-- The pointer is at offset `o` of the file's cluster `k`, and will go on from there. -/
structure At (cs : List Nat) (fptr : FatFilePtr) (k o : Nat) : Prop where
  cluster : cs[k]? = some fptr.cluster
  next : fptr.nextCluster = fptr.cluster
  offset : fptr.offset = o

/-- The pointer denotes position `p`. The end of a cluster is denoted by the offset behind its last byte, too. -/
def Denotes (v : Volume) (cs : List Nat) (fptr : FatFilePtr) (p : Nat) : Prop :=
  ∃ k o, At cs fptr k o ∧ o ≤ fatSizeSector v ∧ p = k * fatSizeSector v + o

def lastChunk (s size : Nat) : Nat := (size - 1) % s + 1

/-- What is left for the last pass lies in its cluster, and the offset behind it in a `word`. -/
def ReadFits (s o size : Nat) : Prop :=
  size = 0 ∨ (o + lastChunk s size ≤ s ∧ o + lastChunk s size < 2 ^ 16)

instance (s o size : Nat) : Decidable (ReadFits s o size) := inferInstanceAs (Decidable (_ ∨ _))

/-- The read stored the bytes from `p` on, used `_buf` inside its bounds, and the pointer denotes the byte behind. -/
structure ReadsExactly (v : Volume) (cs : List Nat) (r : Reading) (p size : Nat) : Prop where
  out : r.out = slice (fileByte v cs) p size
  indices : ∀ i ∈ r.indices, i < fatSizeSector v
  denotes : Denotes v cs r.fptr (p + size)

/-! ## The clusters of a file -/

theorem FileChain.length_le (h : FileChain v c cs) : cs.length ≤ fat16BadCluster := by
  have := (h.chain.nodup.subperm fun x hx => List.mem_range.mpr (h.lt x hx)).length_le
  rwa [List.length_range] at this

theorem Fat16.sizeSector (hv : Fat16 v) :
    fatSizeSector v = v.header.sectorPerCluster * 512 ∧ 512 ≤ fatSizeSector v ∧ fatSizeSector v ≤ 2 ^ 16 := by
  have h1 := hv.pos
  have h2 := hv.le
  have h3 : fatSizeSector v = v.header.sectorPerCluster * 512 := by rw [fatSizeSector, hv.sector]
  omega

theorem fileByte_cluster {x y : Nat} (hk : cs[k]? = some x) (hy : y < fatSizeSector v) :
    fileByte v cs (k * fatSizeSector v + y) = clusterByte v x y := by
  have hdiv : (k * fatSizeSector v + y) / fatSizeSector v = k := by
    rw [Nat.mul_comm, Nat.mul_add_div (by omega), Nat.div_eq_of_lt hy, Nat.add_zero]
  have hmod : (k * fatSizeSector v + y) % fatSizeSector v = y := by
    rw [Nat.mul_comm, Nat.mul_add_mod, Nat.mod_eq_of_lt hy]
  rw [fileByte, hdiv, hmod, List.getD_eq_getElem?_getD, hk, Option.getD_some]

/-- The copy out of `_buf` within a cluster. -/
theorem slice_readCluster (hv : Fat16 v) {x n : Nat} (hk : cs[k]? = some x) (ho : o + n ≤ fatSizeSector v) :
    slice (readCluster v x buf v.header.sectorPerCluster) o n = slice (fileByte v cs) (k * fatSizeSector v + o) n := by
  have hS := hv.sizeSector.1
  refine Lib.slice_congr fun i hi => ?_
  rw [readCluster_of_lt hv.sector _ _ (by omega), Nat.add_assoc, fileByte_cluster hk (by omega)]

theorem mem_slice_id {i n : Nat} : i ∈ slice id o n ↔ o ≤ i ∧ i < o + n := by
  simp only [slice, List.mem_map, List.mem_range, id_eq]
  constructor
  · rintro ⟨j, hj, rfl⟩
    omega
  · rintro ⟨h1, h2⟩
    exact ⟨i - o, by omega, by omega⟩

/-! ## The passes -/

/-- `n + 1` passes from offset `o` of cluster `k`: all but the last end at the end of a cluster. -/
theorem readLoop_spec (buf : Nat → UInt8) (hv : Fat16 v) (hc : FileChain v c cs) {n : Nat} (hat : At cs fptr k o)
    (ho : o ≤ fatSizeSector v) (hn : n * fatSizeSector v < size) (hk : k + n < cs.length) :
    At cs (readLoop v (n + 1) buf fptr fptr.cluster size).fptr (k + n) (word (o + size - n * fatSizeSector v)) ∧
    ((∀ i ∈ (readLoop v (n + 1) buf fptr fptr.cluster size).indices, i < fatSizeSector v) ↔
      o + size ≤ (n + 1) * fatSizeSector v) ∧
    (o + size ≤ (n + 1) * fatSizeSector v → (readLoop v (n + 1) buf fptr fptr.cluster size).out =
      slice (fileByte v cs) (k * fatSizeSector v + o) size) := by
  obtain ⟨-, hS, hS'⟩ := hv.sizeSector
  induction n generalizing k o size fptr buf with
  | zero =>
      rw [readLoop, if_pos rfl]
      simp only [Nat.zero_mul, Nat.sub_zero, Nat.add_zero, Nat.zero_add, Nat.one_mul, hat.offset] at *
      refine ⟨⟨hat.cluster, hat.next, rfl⟩, ?_, fun h => slice_readCluster hv hat.cluster h⟩
      constructor
      · intro h
        have := h (o + size - 1) (mem_slice_id.mpr (by omega))
        omega
      · intro h i hi
        have := mem_slice_id.mp hi
        omega
  | succ n ih =>
      have hlt : k < cs.length := by omega
      have hcl : fptr.cluster = cs[k] := by
        have := hat.cluster
        rw [List.getElem?_eq_getElem hlt, Option.some.injEq] at this
        exact this.symm
      have hnext : fatGetNextCluster v fptr.nextCluster = cs[k + 1] := by rw [hat.next, hcl, hc.next]
      have hmul : (n + 1) * fatSizeSector v = n * fatSizeSector v + fatSizeSector v := Nat.succ_mul _ _
      have hmul' : (n + 1 + 1) * fatSizeSector v = (n + 1) * fatSizeSector v + fatSizeSector v := Nat.succ_mul _ _
      have hoff : word (o + (fatSizeSector v - o)) % fatSizeSector v = 0 := by
        rw [Nat.add_sub_cancel' ho]
        unfold word
        rcases Nat.lt_or_eq_of_le hS' with h | h
        · rw [Nat.mod_eq_of_lt h, Nat.mod_self]
        · rw [h, Nat.mod_self, Nat.zero_mod]
      rw [readLoop, if_neg (by omega)]
      simp only [hat.offset, Nat.min_eq_right (show fatSizeSector v - o ≤ size by omega), hoff, hnext]
      let fptr' : FatFilePtr := { fptr with offset := 0, nextCluster := cs[k + 1], cluster := cs[k + 1] }
      have hat' : At cs fptr' (k + 1) 0 := ⟨List.getElem?_eq_getElem (by omega), rfl, rfl⟩
      have hsize' : n * fatSizeSector v < size - (fatSizeSector v - o) := by omega
      obtain ⟨h1, h2, h3⟩ := ih (readCluster v fptr.cluster buf v.header.sectorPerCluster) hat' (Nat.zero_le _) hsize'
        (by omega)
      refine ⟨?_, ?_, fun h => ?_⟩
      · rw [show k + (n + 1) = k + 1 + n by omega, show o + size - (n + 1) * fatSizeSector v =
          0 + (size - (fatSizeSector v - o)) - n * fatSizeSector v by omega]
        exact h1
      · simp only [List.mem_append, or_imp, forall_and]
        rw [and_iff_right fun i hi => by have := mem_slice_id.mp hi; omega, h2]
        omega
      · rw [h3 (by omega), slice_readCluster hv hat.cluster (by omega)]
        have hp : (k + 1) * fatSizeSector v + 0 = k * fatSizeSector v + o + (fatSizeSector v - o) := by
          rw [Nat.succ_mul]
          omega
        rw [hp, ← Lib.slice_add, show fatSizeSector v - o + (size - (fatSizeSector v - o)) = size by omega]

/-! ## One read -/

theorem passes_eq {s : Nat} (hs : 0 < s) (hsize : size ≠ 0) :
    size / s + (if 0 < size % s then 1 else 0) = (size - 1) / s + 1 := by
  have hdiv := Nat.div_add_mod (size - 1) s
  have hlt := Nat.mod_lt (size - 1) hs
  by_cases hr : (size - 1) % s + 1 = s
  · have heq : size = s * ((size - 1) / s + 1) := by
      rw [Nat.mul_succ]
      omega
    have hmod : size % s = 0 := by rw [heq, Nat.mul_mod_right]
    have hquot : size / s = (size - 1) / s + 1 := by
      conv_lhs => rw [heq]
      exact Nat.mul_div_cancel_left _ hs
    rw [hmod, hquot, if_neg (Nat.lt_irrefl 0)]
  · have hlt' : (size - 1) % s + 1 < s := by omega
    have heq : size = s * ((size - 1) / s) + ((size - 1) % s + 1) := by omega
    have hmod : size % s = (size - 1) % s + 1 := by
      conv_lhs => rw [heq]
      rw [Nat.mul_add_mod, Nat.mod_eq_of_lt hlt']
    have hquot : size / s = (size - 1) / s := by
      conv_lhs => rw [heq]
      rw [Nat.mul_add_div hs, Nat.div_eq_of_lt hlt', Nat.add_zero]
    rw [hmod, hquot, if_pos (Nat.succ_pos _)]

theorem fatRead_eq (hS : 0 < fatSizeSector v) (hsize : size ≠ 0) (hlt : (size - 1) / fatSizeSector v + 1 < 2 ^ 32) :
    fatRead v buf fptr size = readLoop v ((size - 1) / fatSizeSector v + 1) buf fptr fptr.cluster size := by
  have hlen := passes_eq hS hsize
  simp only [fatRead]
  rw [dword_of_lt (show size / fatSizeSector v < 2 ^ 32 by omega), hlen, dword_of_lt hlt]

theorem fatRead_zero (buf : Nat → UInt8) : fatRead v buf fptr 0 = ⟨fptr, [], [], []⟩ := by
  simp [fatRead, dword, readLoop]

/-- What a read of at least a byte leaves. -/
theorem fatRead_spec (buf : Nat → UInt8) (hv : Fat16 v) (hc : FileChain v c cs) (hat : At cs fptr k o)
    (ho : o ≤ fatSizeSector v) (hsize : size ≠ 0) (hend : k * fatSizeSector v + o + size ≤ cs.length * fatSizeSector v) :
    At cs (fatRead v buf fptr size).fptr (k + (size - 1) / fatSizeSector v)
      (word (o + lastChunk (fatSizeSector v) size)) ∧
    ((∀ i ∈ (fatRead v buf fptr size).indices, i < fatSizeSector v) ↔
      o + lastChunk (fatSizeSector v) size ≤ fatSizeSector v) ∧
    (o + lastChunk (fatSizeSector v) size ≤ fatSizeSector v →
      (fatRead v buf fptr size).out = slice (fileByte v cs) (k * fatSizeSector v + o) size) := by
  obtain ⟨-, hS, -⟩ := hv.sizeSector
  have hdiv := Nat.div_add_mod (size - 1) (fatSizeSector v)
  rw [Nat.mul_comm] at hdiv
  have hk : k + (size - 1) / fatSizeSector v < cs.length := by
    refine Nat.lt_of_mul_lt_mul_right (a := fatSizeSector v) ?_
    rw [Nat.add_mul]
    omega
  have hle : cs.length < 2 ^ 32 := Nat.lt_of_le_of_lt hc.length_le (by decide)
  rw [fatRead_eq (by omega) hsize (by omega)]
  have hn : (size - 1) / fatSizeSector v * fatSizeSector v < size := by omega
  obtain ⟨h1, h2, h3⟩ := readLoop_spec buf hv hc hat ho hn hk
  have hlast : o + size - (size - 1) / fatSizeSector v * fatSizeSector v = o + lastChunk (fatSizeSector v) size := by
    unfold lastChunk
    omega
  have hiff : o + size ≤ ((size - 1) / fatSizeSector v + 1) * fatSizeSector v ↔
      o + lastChunk (fatSizeSector v) size ≤ fatSizeSector v := by
    rw [Nat.succ_mul]
    omega
  rw [hlast] at h1
  rw [hiff] at h2 h3
  exact ⟨h1, h2, h3⟩

/-- Where a read of at least a byte ends, as a cluster and an offset behind its last byte. -/
theorem add_size_eq {s : Nat} (hsize : size ≠ 0) :
    k * s + o + size = (k + (size - 1) / s) * s + (o + lastChunk s size) := by
  have hdiv := Nat.div_add_mod (size - 1) s
  rw [Nat.mul_comm] at hdiv
  rw [Nat.add_mul, lastChunk]
  omega

theorem At.denotes_inj (hc : FileChain v c cs) {k' o' : Nat} (h : At cs fptr k o) (h' : At cs fptr k' o') :
    k = k' ∧ o = o' := by
  obtain ⟨hk, e⟩ := List.getElem?_eq_some_iff.mp h.cluster
  obtain ⟨hk', e'⟩ := List.getElem?_eq_some_iff.mp h'.cluster
  exact ⟨hc.inj hk hk' (e.trans e'.symm), h.offset.symm.trans h'.offset⟩

theorem readsExactly_iff (hv : Fat16 v) (hc : FileChain v c cs) (hat : At cs fptr k o) (ho : o ≤ fatSizeSector v)
    (hend : k * fatSizeSector v + o + size ≤ cs.length * fatSizeSector v) :
    ReadsExactly v cs (fatRead v buf fptr size) (k * fatSizeSector v + o) size ↔ ReadFits (fatSizeSector v) o size := by
  by_cases hsize : size = 0
  · subst hsize
    rw [fatRead_zero]
    exact ⟨fun _ => .inl rfl, fun _ => ⟨rfl, nofun, k, o, hat, ho, rfl⟩⟩
  · obtain ⟨h1, h2, h3⟩ := fatRead_spec buf hv hc hat ho hsize hend
    constructor
    · rintro ⟨-, hi, k', o', hat', -, hp⟩
      have hle := h2.mp hi
      obtain ⟨rfl, rfl⟩ := hat'.denotes_inj hc h1
      rw [add_size_eq hsize] at hp
      have hw : word (o + lastChunk (fatSizeSector v) size) = o + lastChunk (fatSizeSector v) size := by omega
      exact .inr ⟨hle, by rw [← hw]; exact Nat.mod_lt _ (by decide)⟩
    · rintro (h0 | ⟨hle, hlt⟩)
      · exact absurd h0 hsize
      · rw [word_of_lt hlt] at h1
        exact ⟨h3 hle, h2.mpr hle, _, _, h1, hle, add_size_eq hsize⟩

/-! ## Reads one after another -/

/-- Reads in a row, each with the memory it gets for `_buf` and its size; the bytes they store. -/
def fatReads (v : Volume) : FatFilePtr → List ((Nat → UInt8) × Nat) → List UInt8
  | _, [] => []
  | fptr, (buf, size) :: rs => (fatRead v buf fptr size).out ++ fatReads v (fatRead v buf fptr size).fptr rs

def ReadsFit (s : Nat) : Nat → List Nat → Prop
  | _, [] => True
  | o, n :: ns => ReadFits s o n ∧ ReadsFit s (if n = 0 then o else o + lastChunk s n) ns

theorem fatReads_eq (hv : Fat16 v) (hc : FileChain v c cs) {rs : List ((Nat → UInt8) × Nat)} (hat : At cs fptr k o)
    (ho : o ≤ fatSizeSector v) (hfit : ReadsFit (fatSizeSector v) o (rs.map Prod.snd))
    (hend : k * fatSizeSector v + o + (rs.map Prod.snd).sum ≤ cs.length * fatSizeSector v) :
    fatReads v fptr rs = slice (fileByte v cs) (k * fatSizeSector v + o) (rs.map Prod.snd).sum := by
  induction rs generalizing fptr k o with
  | nil => rfl
  | cons r rs ih =>
      obtain ⟨buf, n⟩ := r
      simp only [List.map_cons, List.sum_cons] at hend hfit ⊢
      obtain ⟨hn, hns⟩ := hfit
      rw [fatReads, Lib.slice_add]
      by_cases h0 : n = 0
      · subst h0
        rw [fatRead_zero]
        simp only [if_true, Nat.zero_add, Nat.add_zero, Lib.slice_zero, List.nil_append] at hns hend ⊢
        exact ih hat ho hns hend
      · obtain ⟨h1, -, h3⟩ := fatRead_spec buf hv hc hat ho h0 (by omega)
        rcases hn with hn | ⟨hle, hlt⟩
        · exact absurd hn h0
        · rw [word_of_lt hlt] at h1
          rw [if_neg h0] at hns
          have hp := add_size_eq (k := k) (o := o) (s := fatSizeSector v) h0
          rw [h3 hle, hp, ih h1 hle hns (by omega)]

/-- A read from a coherent pointer is exact exactly when its last pass stays in its cluster; and then reads in a row that
fit deliver what one read of their sum does. -/
theorem read_iff (hv : Fat16 v) (hc : FileChain v c cs) (hat : At cs fptr k o) (ho : o ≤ fatSizeSector v)
    (hend : k * fatSizeSector v + o + size ≤ cs.length * fatSizeSector v) :
    (ReadsExactly v cs (fatRead v buf fptr size) (k * fatSizeSector v + o) size ↔
      ReadFits (fatSizeSector v) o size) ∧
    ∀ rs : List ((Nat → UInt8) × Nat), (rs.map Prod.snd).sum = size →
      ReadsFit (fatSizeSector v) o (rs.map Prod.snd) → ReadFits (fatSizeSector v) o size →
      fatReads v fptr rs = (fatRead v buf fptr size).out := by
  refine ⟨readsExactly_iff hv hc hat ho hend, fun rs hsum hfits hfit => ?_⟩
  subst hsum
  rw [fatReads_eq hv hc hat ho hfits hend, ((readsExactly_iff hv hc hat ho hend).mpr hfit).out]

theorem fat16_smallVolume : Fat16 smallVolume := ⟨rfl, by decide, by decide⟩

def smallPtr : FatFilePtr := fatSeek smallVolume (fatFileOpen smallFile) 100

theorem at_smallPtr : At [2, 3, 4] smallPtr 0 100 := ⟨by decide, by decide, by decide⟩

theorem read_iff_smallPtr :
    (ReadsExactly smallVolume [2, 3, 4] (fatRead smallVolume (fun _ => 0) smallPtr 10)
      (0 * fatSizeSector smallVolume + 100) 10 ↔ ReadFits (fatSizeSector smallVolume) 100 10) ∧
    ∀ rs : List ((Nat → UInt8) × Nat), (rs.map Prod.snd).sum = 10 →
      ReadsFit (fatSizeSector smallVolume) 100 (rs.map Prod.snd) → ReadFits (fatSizeSector smallVolume) 100 10 →
      fatReads smallVolume smallPtr rs = (fatRead smallVolume (fun _ => 0) smallPtr 10).out :=
  read_iff fat16_smallVolume fileChain_smallFile at_smallPtr (by decide) (by decide)

/-- 512 bytes from byte 100 on are the rest of a cluster and the start of the next, but `fat_read` makes one pass. -/
theorem not_readsExactly_smallPtr :
    100 + 512 ≤ [2, 3, 4].length * fatSizeSector smallVolume ∧ At [2, 3, 4] smallPtr 0 100 ∧
      ∀ buf, ¬ ReadsExactly smallVolume [2, 3, 4] (fatRead smallVolume buf smallPtr 512) 100 512 := by
  refine ⟨by decide, at_smallPtr, fun buf h => ?_⟩
  have hfit : ReadFits (fatSizeSector smallVolume) 100 512 :=
    (readsExactly_iff fat16_smallVolume fileChain_smallFile at_smallPtr (by decide) (by decide)).mp
      (by rwa [Nat.zero_mul, Nat.zero_add])
  exact absurd hfit (by decide)

end HaOS.Fat
