import HaOS.Fat.Read

/-!
# Reads at positions of a file

A loader moves the pointer to a position and reads from there, again and again.

* `fatReadAt` : one such access; `Cursor v cs fptr k m` : the clusters of the file that the two fields of the pointer are;
* `AccessFits` : the access starts in the first cluster, and the pointer is there; `AccessesFit` : so do all of a list;
* `Cursor.readAt` : an access that fits reads the file's bytes.
-/

namespace HaOS.Fat
open Lib (slice)

def fatReadAt (v : Volume) (buf : Nat → UInt8) (fptr : FatFilePtr) (pos size : Nat) : Reading :=
  fatRead v buf (fatSeek v fptr pos) size

/-- `cluster` is the file's cluster `k`, and `next_cluster` its cluster `m`. -/
structure Cursor (v : Volume) (cs : List Nat) (fptr : FatFilePtr) (k m : Nat) : Prop where
  chain : FileChain v fptr.currentCluster cs
  cluster : cs[k]? = some fptr.cluster
  next : cs[m]? = some fptr.nextCluster

/-- Where a seek leaves `cluster`, with `s` bytes in a cluster. -/
def seekCluster (s k pos : Nat) : Nat := if pos / s = 0 then k else pos / s - 1

/-- The access starts in the first cluster, and the pointer is there. Its last pass stays in its cluster, and a read that
goes on to further clusters finds them behind the first one. -/
def AccessFits (s k m pos size : Nat) : Prop :=
  size = 0 ∨ (pos / s = 0 ∧ k = 0 ∧ pos + lastChunk s size ≤ s ∧ (size ≤ s ∨ m = 0))

/-- Each access fits where the ones before it leave the two fields. -/
def AccessesFit (s : Nat) : Nat → Nat → List (Nat × Nat) → Prop
  | _, _, [] => True
  | k, m, (pos, size) :: rest => AccessFits s k m pos size ∧
      if size ≤ s then AccessesFit s (seekCluster s k pos) m rest
      else AccessesFit s ((size - 1) / s) ((size - 1) / s) rest

instance (s k m pos size : Nat) : Decidable (AccessFits s k m pos size) := inferInstanceAs (Decidable (_ ∨ _))

instance decidableAccessesFit (s : Nat) : (k m : Nat) → (l : List (Nat × Nat)) → Decidable (AccessesFit s k m l)
  | _, _, [] => inferInstanceAs (Decidable True)
  | k, m, (pos, size) :: rest =>
    have := decidableAccessesFit s (seekCluster s k pos) m rest
    have := decidableAccessesFit s ((size - 1) / s) ((size - 1) / s) rest
    inferInstanceAs (Decidable (_ ∧ _))

variable {v : Volume} {fptr : FatFilePtr} {cs : List Nat} {buf : Nat → UInt8} {k m pos size : Nat}
  {fdir : FatFileDirectory}

theorem cursor_fatFileOpen (hc : FileChain v (fatFileOpen fdir).currentCluster cs) : Cursor v cs (fatFileOpen fdir) 0 0 := by
  have hsame : (fatFileOpen fdir).cluster = (fatFileOpen fdir).currentCluster ∧
      (fatFileOpen fdir).nextCluster = (fatFileOpen fdir).currentCluster := by
    unfold fatFileOpen
    split_ifs <;> exact ⟨rfl, rfl⟩
  refine ⟨hc, ?_, ?_⟩
  · rw [hsame.1]
    exact hc.zero
  · rw [hsame.2]
    exact hc.zero

theorem Cursor.seek (h : Cursor v cs fptr k m) (hpos : pos / fatSizeSector v ≤ cs.length) :
    Cursor v cs (fatSeek v fptr pos) (seekCluster (fatSizeSector v) k pos) m := by
  obtain ⟨hcur, hnext⟩ := @fatSeek_currentCluster v fptr pos
  refine ⟨hcur ▸ h.chain, ?_, hnext ▸ h.next⟩
  unfold seekCluster
  rcases Nat.eq_zero_or_pos (pos / fatSizeSector v) with h0 | hlater
  · rw [if_pos h0, fatSeek_first h0]
    exact h.cluster
  · obtain ⟨n, hn⟩ : ∃ n, pos / fatSizeSector v = n + 1 := ⟨pos / fatSizeSector v - 1, by omega⟩
    have hlt : n < cs.length := by omega
    rw [hn, if_neg (Nat.succ_ne_zero n), Nat.add_sub_cancel, fatSeek_later h.chain hn hlt]
    exact List.getElem?_eq_getElem hlt

/-- A read of at most a cluster is one pass. -/
theorem fatRead_single (hS : 0 < fatSizeSector v) (hsize : size ≠ 0) (hle : size ≤ fatSizeSector v) :
    fatRead v buf fptr size = readLoop v 1 buf fptr fptr.cluster size := by
  have hdiv : (size - 1) / fatSizeSector v = 0 := Nat.div_eq_of_lt (by omega)
  rw [fatRead_eq hS hsize (by rw [hdiv]; decide), hdiv]

/-- An access that fits reads the file's bytes from its position on, and is known where it leaves the pointer. -/
theorem Cursor.readAt (buf : Nat → UInt8) (hv : Fat16 v) (h : Cursor v cs fptr k m)
    (hend : pos + size ≤ cs.length * fatSizeSector v) (hfit : AccessFits (fatSizeSector v) k m pos size) :
    (fatReadAt v buf fptr pos size).out = slice (fileByte v cs) pos size ∧
      if size ≤ fatSizeSector v then
        Cursor v cs (fatReadAt v buf fptr pos size).fptr (seekCluster (fatSizeSector v) k pos) m
      else Cursor v cs (fatReadAt v buf fptr pos size).fptr ((size - 1) / fatSizeSector v)
        ((size - 1) / fatSizeSector v) := by
  obtain ⟨-, hS, hS'⟩ := hv.sizeSector
  have hpos : pos / fatSizeSector v ≤ cs.length := by
    rw [← Nat.mul_div_cancel cs.length (show 0 < fatSizeSector v by omega)]
    exact Nat.div_le_div_right (by omega)
  have hseek := h.seek hpos
  unfold fatReadAt
  rcases hfit with rfl | ⟨h0, rfl, hlast, hmany⟩
  · rw [fatRead_zero, if_pos (Nat.zero_le _)]
    exact ⟨rfl, hseek⟩
  by_cases hsize : size = 0
  · subst hsize
    rw [fatRead_zero, if_pos (Nat.zero_le _)]
    exact ⟨rfl, hseek⟩
  have hlt : pos < fatSizeSector v := (Nat.div_eq_zero_iff_lt (by omega)).mp h0
  have hoff : (fatSeek v fptr pos).offset = pos := by
    rw [fatSeek_first h0]
    show word (pos % fatSizeSector v) = pos
    rw [Nat.mod_eq_of_lt hlt, word_of_lt (by omega)]
  have hk : seekCluster (fatSizeSector v) 0 pos = 0 := if_pos h0
  rw [hk] at hseek ⊢
  by_cases hle : size ≤ fatSizeSector v
  · have hchunk : lastChunk (fatSizeSector v) size = size := by
      rw [lastChunk, Nat.mod_eq_of_lt (by omega)]
      omega
    rw [hchunk] at hlast
    rw [if_pos hle, fatRead_single (by omega) hsize hle, readLoop, if_pos rfl]
    refine ⟨?_, hseek.chain, hseek.cluster, hseek.next⟩
    show slice (readCluster v (fatSeek v fptr pos).cluster buf v.header.sectorPerCluster) (fatSeek v fptr pos).offset
      size = _
    rw [hoff, slice_readCluster hv hseek.cluster hlast, Nat.zero_mul, Nat.zero_add]
  · obtain rfl : m = 0 := hmany.resolve_left hle
    have hsame : (fatSeek v fptr pos).nextCluster = (fatSeek v fptr pos).cluster :=
      Option.some.inj (hseek.next.symm.trans hseek.cluster)
    obtain ⟨hat, -, hout⟩ := fatRead_spec buf hv hseek.chain ⟨hseek.cluster, hsame, hoff⟩ hlt.le hsize
      (by rwa [Nat.zero_mul, Nat.zero_add])
    rw [Nat.zero_mul, Nat.zero_add] at hout
    rw [Nat.zero_add] at hat
    have hcur : (fatRead v buf (fatSeek v fptr pos) size).fptr.currentCluster = (fatSeek v fptr pos).currentCluster :=
      readLoop_currentCluster
    rw [if_neg hle]
    refine ⟨hout hlast, hcur ▸ hseek.chain, hat.cluster, ?_⟩
    rw [hat.next]
    exact hat.cluster

theorem Cursor.access (buf : Nat → UInt8) (hv : Fat16 v) (h : Cursor v cs fptr k m) {rest : List (Nat × Nat)}
    (hend : pos + size ≤ cs.length * fatSizeSector v) (hfit : AccessesFit (fatSizeSector v) k m ((pos, size) :: rest)) :
    (fatReadAt v buf fptr pos size).out = slice (fileByte v cs) pos size ∧
      ∃ k' m', Cursor v cs (fatReadAt v buf fptr pos size).fptr k' m' ∧ AccessesFit (fatSizeSector v) k' m' rest := by
  obtain ⟨hfirst, hrest⟩ := hfit
  obtain ⟨hout, hcur⟩ := h.readAt buf hv hend hfirst
  refine ⟨hout, ?_⟩
  by_cases hle : size ≤ fatSizeSector v
  · rw [if_pos hle] at hrest hcur
    exact ⟨_, _, hcur, hrest⟩
  · rw [if_neg hle] at hrest hcur
    exact ⟨_, _, hcur, hrest⟩

/-- Reading from an open file without a seek. -/
theorem fatRead_fatFileOpen (buf : Nat → UInt8) (fdir : FatFileDirectory) (size : Nat) :
    fatRead v buf (fatFileOpen fdir) size = fatReadAt v buf (fatFileOpen fdir) 0 size := by
  have hseek : fatSeek v (fatFileOpen fdir) 0 = fatFileOpen fdir := by
    rw [fatSeek_first (Nat.zero_div _), Nat.zero_mod]
    unfold fatFileOpen
    split_ifs <;> rfl
  rw [fatReadAt, hseek]

theorem accessesFit_header {s : Nat} (hs : 512 ≤ s) {rest : List (Nat × Nat)} (h : AccessesFit s 0 0 rest) :
    AccessesFit s 0 0 ((0, 64) :: rest) := by
  refine ⟨.inr ⟨Nat.zero_div s, rfl, ?_, .inl (by omega)⟩, ?_⟩
  · rw [lastChunk, Nat.mod_eq_of_lt (by omega)]
    omega
  · rw [if_pos (by omega), seekCluster, if_pos (Nat.zero_div s)]
    exact h

end HaOS.Fat
