import HaOS.Fat.Driver

/-!
# Opening a file by its name (`convert_name_to_fat16name`, `fat_findFile`, `fat_fileOpen`)

Strings are their characters, without the terminator. A result is `none` where the source reads memory it has not
written or writes past an array of its stack frame.

* `fatFindFile` : the search for a name in the root directory; `fatOpen` : `fat_fileOpen`;
* `rootEntries`, `ShortName` : what the search is about, the entries of the root directory and the names of 8.3 form;
* `written_iff` : which names the conversion gives the form of the directory, and that it tells these apart;
* `fatFindFile_filename` : the search finds the first entry of the name that it looks for.
-/

namespace HaOS.Fat

/-! ## Names -/

def upper (c : UInt8) : UInt8 := if 0x61 ≤ c ∧ c ≤ 0x7A then c - 0x61 + 0x41 else c

def strupper (text : List UInt8) : List UInt8 := text.map upper

/-- `strncmp` does not stop at a terminator. -/
def strncmp (c1 c2 : List UInt8) (size : Nat) : Nat := if ∀ i < size, c1.getD i 0 = c2.getD i 0 then 0 else 1

/-- The first `'.'`, or -1. -/
def dotFileIndex (filename : List UInt8) : Int :=
  match filename.findIdx? (· = 0x2E) with
  | some i => i
  | none => -1

/-- `convert_name_to_fat16name`: the eleven characters of `fat16Name`. -/
def convertNameToFat16Name (filename : List UInt8) : Option (List UInt8) :=
  let filename := strupper filename
  let dot := dotFileIndex filename
  let base := (List.range 8).map fun i : Nat => if dot ≤ i then 0x20 else filename.getD i 0
  let ext := filename.drop (dot + 1).toNat
  -- the last loop copies all of `ext` from index 8 on
  if 3 < ext.length then none else some (base ++ (ext ++ List.replicate (3 - ext.length) 0x20))

/-! ## The root directory -/

/-- An entry of the root directory, as the search sees it. -/
structure Entry extends FatFileDirectory where
  name : List UInt8

/-- `dirs[j]`. -/
def dirEntry (buffer : List UInt8) (j : Nat) : Entry where
  name := (buffer.drop (32 * j)).take 11
  attributes := (buffer.getD (32 * j + 11) 0).toNat
  highCluster := wordAt buffer (16 * j + 10)
  lowCluster := wordAt buffer (16 * j + 13)

/-- The loop over the entries of a sector, -/
def searchSector (buffer fname : List UInt8) : Option FatFileDirectory :=
  (List.range 16).findSome? fun j =>
    if strncmp (dirEntry buffer j).name fname 11 = 0 then some (dirEntry buffer j).toFatFileDirectory else none

/-- and the one over the sectors of the root directory. -/
def searchRoot (v : Volume) (fname : List UInt8) : Option FatFileDirectory :=
  (List.range (rootDirSectors v)).findSome? fun i =>
    searchSector (ataReadDisk v.disk (dword (rootDirsStart v + i)) 0 512) fname

/-- What `fat_findFile` does at the end of a path component; `fname` is `none` before its first character is written. -/
def searchComponent (v : Volume) (fname : Option (List UInt8)) : Option (Option FatFileDirectory) :=
  (fname.bind convertNameToFat16Name).map (searchRoot v)

/-- The `while( indexPath <= sizeFilename )` loop. -/
def findFileLoop (v : Volume) : List UInt8 → Option (List UInt8) → Option FatFileDirectory
  | [], fname => (searchComponent v fname).map fun found => found.getD ⟨0, 0, 0⟩
  | c :: path, fname =>
    if c = 0x2F then
      match searchComponent v fname with
      | none => none
      | some (some fdir) => some fdir
      | some none => findFileLoop v path (some [])
    else
      let fname := fname.getD [] ++ [c]
      if fname.length < 64 then findFileLoop v path (some fname) else none

def fatFindFile (v : Volume) (filename : List UInt8) : Option FatFileDirectory := findFileLoop v filename none

/-- `fat_fileOpen`; `open` puts the pointer on the heap. -/
def fatOpen (v : Volume) (filename : List UInt8) : Option FatFilePtr := (fatFindFile v filename).map fatFileOpen

/-- The test of `elf64_load` and `elf64_loadLibrary`. -/
def FatFilePtr.NotFound (fptr : FatFilePtr) : Prop := fptr.currentCluster = 0xFFFFFFFF

/-! ## What the search is about -/

/-- The 32-byte entries of the root directory, 16 in a sector. -/
def rootEntries (v : Volume) : List Entry :=
  (List.range (rootDirSectors v)).flatMap fun i =>
    (List.range 16).map (dirEntry (ataReadDisk v.disk (dword (rootDirsStart v + i)) 0 512))

def fatVolumeId : Nat := 0x08

def FatFileDirectory.IsDirectory (e : FatFileDirectory) : Prop := e.attributes &&& fatDirectory ≠ 0

instance (e : FatFileDirectory) : Decidable e.IsDirectory := inferInstanceAs (Decidable (_ ≠ _))

def FatFileDirectory.firstCluster (e : FatFileDirectory) : Nat := e.lowCluster ||| dword (e.highCluster <<< 16)

/-- A filename of 8.3 form; `ext` is what stands behind the dot. -/
structure ShortName where
  base : List UInt8
  ext : Option (List UInt8)
  base_ne_nil : base ≠ []
  base_le : base.length ≤ 8
  ext_le : ∀ e, ext = some e → e.length ≤ 3
  chars : ∀ c ∈ base ++ ext.getD [], c ≠ 0 ∧ c ≠ 0x2E ∧ c ≠ 0x2F

def blankPadded (n : Nat) (text : List UInt8) : List UInt8 := text ++ List.replicate (n - text.length) 0x20

namespace ShortName

def filename (n : ShortName) : List UInt8 :=
  match n.ext with
  | some ext => n.base ++ 0x2E :: ext
  | none => n.base

/-- The name in the entry of the file. -/
def onDisk (n : ShortName) : List UInt8 := blankPadded 8 (strupper n.base) ++ blankPadded 3 (strupper (n.ext.getD []))

/-- Neither part ends in a blank, which the padding could not be told from, and a dot has an extension behind it. -/
def Trimmed (n : ShortName) : Prop :=
  n.base.getLast? ≠ some 0x20 ∧ ∀ ext, n.ext = some ext → ext ≠ [] ∧ ext.getLast? ≠ some 0x20

/-- The conversion writes the form of the directory, inside its eleven characters. -/
def Written (n : ShortName) : Prop := convertNameToFat16Name n.filename = some n.onDisk

/-- Only names that differ in letter case get the same form. -/
def Distinct (n : ShortName) : Prop :=
  ∀ m : ShortName, m.Trimmed → convertNameToFat16Name m.filename = convertNameToFat16Name n.filename →
    strupper m.filename = strupper n.filename

def searched (n : ShortName) : Option (List UInt8) :=
  match n.ext with
  | some _ => some n.onDisk
  | none => if 3 < n.base.length then none else some (blankPadded 8 [] ++ blankPadded 3 (strupper n.base))

/-- The entry of a regular file of that name: neither a directory's nor a volume label. -/
def IsFile (n : ShortName) (v : Volume) (e : Entry) : Prop :=
  e ∈ rootEntries v ∧ e.name = n.onDisk ∧ ¬ e.IsDirectory ∧ e.attributes &&& fatVolumeId = 0

end ShortName

variable {v : Volume} {n : ShortName} {name : List UInt8}

/-! ## The name that is searched -/

theorem upper_ne {c d : UInt8} (hd : d.toNat < 0x41) (h : c ≠ d) : upper c ≠ d := by
  unfold upper
  split_ifs with hc
  · intro heq
    have hlow : 0x61 ≤ c.toNat := UInt8.le_iff_toNat_le.mp hc.1
    have hhigh : c.toNat ≤ 0x7A := UInt8.le_iff_toNat_le.mp hc.2
    have hnat := congrArg UInt8.toNat heq
    rw [UInt8.toNat_add, UInt8.toNat_sub_of_le _ _ hc.1] at hnat
    have h61 : (0x61 : UInt8).toNat = 0x61 := rfl
    have h41 : (0x41 : UInt8).toNat = 0x41 := rfl
    omega
  · exact h

theorem dotFileIndex_of_noDot {text : List UInt8} (h : ∀ c ∈ text, c ≠ 0x2E) : dotFileIndex (strupper text) = -1 := by
  have hnone : (strupper text).findIdx? (· = 0x2E) = none := by
    rw [List.findIdx?_eq_none_iff]
    intro c hc
    obtain ⟨d, hd, rfl⟩ := List.mem_map.mp hc
    exact decide_eq_false (upper_ne (by decide) (h d hd))
  rw [dotFileIndex, hnone]

theorem strupper_dot (base ext : List UInt8) : strupper (base ++ 0x2E :: ext) = strupper base ++ 0x2E :: strupper ext := by
  rw [strupper, List.map_append, List.map_cons]
  rfl

theorem dotFileIndex_of_dot {base ext : List UInt8} (h : ∀ c ∈ base, c ≠ 0x2E) :
    dotFileIndex (strupper base ++ 0x2E :: ext) = base.length := by
  have hlen : (strupper base).length = base.length := List.length_map ..
  have hsome : (strupper base ++ 0x2E :: ext).findIdx? (· = 0x2E) = some base.length := by
    rw [List.findIdx?_eq_some_iff_getElem]
    refine ⟨by simp [hlen], by simp [← hlen], fun j hj => ?_⟩
    have hbase : base[j] ≠ 0x2E := h _ (List.getElem_mem hj)
    rw [List.getElem_append_left (hlen ▸ hj)]
    simp [strupper, upper_ne (by decide) hbase]
  rw [dotFileIndex, hsome]

theorem map_base {text rest : List UInt8} (hlen : text.length ≤ 8) :
    ((List.range 8).map fun i : Nat => if (text.length : Int) ≤ i then 0x20 else (text ++ rest).getD i 0) =
      blankPadded 8 text := by
  refine List.ext_getElem (by simp [blankPadded, hlen]) fun i h1 h2 => ?_
  simp only [List.getElem_map, List.getElem_range, blankPadded]
  by_cases hi : i < text.length
  · rw [if_neg (by omega), List.getElem_append_left hi]
    simp [List.getElem?_append_left hi, hi]
  · rw [if_pos (by omega), List.getElem_append_right (by omega), List.getElem_replicate]

theorem length_strupper (text : List UInt8) : (strupper text).length = text.length := List.length_map ..

/-- The search converts a name with a dot to the one on disk; a name without one it takes for an extension. -/
theorem convert_filename (n : ShortName) : convertNameToFat16Name n.filename = n.searched := by
  obtain ⟨base, ext, hne, hlen, hext, hchars⟩ := n
  cases ext with
  | none =>
      have hdot : dotFileIndex (strupper base) = -1 := dotFileIndex_of_noDot fun c hc => (hchars c (by simp [hc])).2.1
      have hblank : ((List.range 8).map fun i : Nat => if (-1 : Int) ≤ i then 0x20 else (strupper base).getD i 0) =
          blankPadded 8 [] := by
        refine List.ext_getElem rfl fun i h1 h2 => ?_
        rw [List.getElem_map, if_pos (by omega)]
        exact (List.getElem_replicate ..).symm
      simp only [convertNameToFat16Name, ShortName.filename, ShortName.searched, hdot, hblank]
      simp [blankPadded, length_strupper]
  | some ext =>
      have hdot : dotFileIndex (strupper base ++ 0x2E :: strupper ext) = base.length :=
        dotFileIndex_of_dot fun c hc => (hchars c (by simp [hc])).2.1
      have hbase : ((List.range 8).map fun i : Nat =>
          if (base.length : Int) ≤ i then 0x20 else (strupper base ++ 0x2E :: strupper ext).getD i 0) =
          blankPadded 8 (strupper base) := by
        have h := @map_base (strupper base) (0x2E :: strupper ext) (by rwa [length_strupper])
        rwa [length_strupper] at h
      have hdrop : (strupper base ++ 0x2E :: strupper ext).drop (base.length + 1 : Int).toNat = strupper ext := by
        rw [show (base.length + 1 : Int).toNat = (strupper base).length + 1 by rw [length_strupper]; omega]
        simp
      have hshort : ¬ 3 < (strupper ext).length := by
        rw [length_strupper]
        exact not_lt.mpr (hext ext rfl)
      simp only [convertNameToFat16Name, ShortName.filename, ShortName.searched, strupper_dot, hdot, hbase, hdrop,
        if_neg hshort]
      rfl

/-! ## The form in the directory -/

theorem getLast?_strupper {text : List UInt8} (h : text.getLast? ≠ some 0x20) : (strupper text).getLast? ≠ some 0x20 := by
  rw [strupper, List.getLast?_map]
  intro hlast
  obtain ⟨c, hc, hupper⟩ := Option.map_eq_some_iff.mp hlast
  refine upper_ne (by decide) (fun heq => h ?_) hupper
  rw [hc, heq]

/-- Texts that do not end in a blank are told apart whatever blanks are put behind them. -/
theorem eq_of_append_blanks {a b : List UInt8} (ha : a.getLast? ≠ some 0x20) (hb : b.getLast? ≠ some 0x20) :
    ∀ {k l : Nat}, a ++ List.replicate k 0x20 = b ++ List.replicate l 0x20 → a = b
  | 0, 0, h => by simpa using h
  | 0, l + 1, h => by
      rw [List.replicate_zero, List.append_nil] at h
      exact absurd (by rw [h, List.replicate_succ', ← List.append_assoc, List.getLast?_concat]) ha
  | k + 1, 0, h => by
      rw [List.replicate_zero, List.append_nil] at h
      exact absurd (by rw [← h, List.replicate_succ', ← List.append_assoc, List.getLast?_concat]) hb
  | k + 1, l + 1, h => by
      rw [List.replicate_succ', List.replicate_succ', ← List.append_assoc, ← List.append_assoc] at h
      exact eq_of_append_blanks ha hb (List.append_inj_left' h rfl)

theorem length_blankPadded {k : Nat} {text : List UInt8} (h : text.length ≤ k) : (blankPadded k text).length = k := by
  rw [blankPadded, List.length_append, List.length_replicate]
  omega

/-- The upper case of a base or an extension, read back from its padded form. -/
theorem strupper_of_blankPadded {k : Nat} {a b : List UInt8} (ha : a.getLast? ≠ some 0x20) (hb : b.getLast? ≠ some 0x20)
    (h : blankPadded k (strupper a) = blankPadded k (strupper b)) : strupper a = strupper b :=
  eq_of_append_blanks (getLast?_strupper ha) (getLast?_strupper hb) h

/-- A name without a dot gets blanks for its base. -/
theorem written_of_noDot (hext : n.ext = none) : n.Written ↔ n.base.length ≤ 3 ∧ ∀ c ∈ n.base, c = 0x20 := by
  have hle := n.base_le
  unfold ShortName.Written ShortName.onDisk
  rw [convert_filename, ShortName.searched, hext]
  dsimp only [Option.getD_none]
  constructor
  · intro h
    split_ifs at h with h3
    have hbase : blankPadded 8 [] = blankPadded 8 (strupper n.base) :=
      List.append_inj_left (Option.some.inj h)
        (by rw [length_blankPadded, length_blankPadded] <;> simp [length_strupper, hle])
    refine ⟨not_lt.mp h3, fun c hc => by_contra fun hne => ?_⟩
    have hmem : upper c ∈ blankPadded 8 [] := by
      rw [hbase]
      exact List.mem_append_left _ (List.mem_map_of_mem hc)
    exact upper_ne (by decide) hne (List.eq_of_mem_replicate hmem)
  · intro ⟨h3, hblank⟩
    have hbase : strupper n.base = List.replicate n.base.length 0x20 := by
      refine List.eq_replicate_iff.mpr ⟨length_strupper _, fun d hd => ?_⟩
      obtain ⟨c, hc, rfl⟩ := List.mem_map.mp hd
      rw [hblank c hc]
      rfl
    rw [if_neg (not_lt.mpr h3), hbase]
    simp only [blankPadded, strupper, List.map_nil, List.nil_append, List.length_nil, List.length_replicate,
      List.replicate_append_replicate, Nat.sub_zero]
    congr 3 <;> omega

theorem written_of_dot {ext : List UInt8} (hext : n.ext = some ext) : n.Written := by
  unfold ShortName.Written
  rw [convert_filename, ShortName.searched, hext]

/-- A name that ends in no blank has a character that the blanks of a name without a dot cannot stand for. -/
theorem base_ne_blanks (ht : n.Trimmed) : ¬ ∀ c ∈ n.base, c = 0x20 := by
  intro h
  have hlast := List.getLast?_eq_some_getLast n.base_ne_nil
  rw [h _ (List.getLast_mem n.base_ne_nil)] at hlast
  exact ht.1 hlast

/-- The form of the directory, given to a name with a dot, is given to no other. -/
theorem distinct_of_dot (ht : n.Trimmed) {ext : List UInt8} (hext : n.ext = some ext) : n.Distinct := by
  intro m hm heq
  have hw : n.Written := written_of_dot hext
  have hn8 := n.base_le
  have hm8 := m.base_le
  unfold ShortName.Written at hw
  rw [hw, convert_filename] at heq
  unfold ShortName.searched at heq
  unfold ShortName.onDisk at heq
  rcases hmext : m.ext with _ | ext'
  · rw [hmext] at heq
    dsimp only at heq
    split_ifs at heq
    have hbase := List.append_inj_left (Option.some.inj heq)
      (by rw [length_blankPadded, length_blankPadded] <;> simp [length_strupper, hn8])
    have hnil := @strupper_of_blankPadded 8 [] n.base (by simp) ht.1 hbase
    have hlen := congrArg List.length hnil
    rw [length_strupper, length_strupper] at hlen
    exact absurd (List.eq_nil_of_length_eq_zero hlen.symm) n.base_ne_nil
  · rw [hmext, hext] at heq
    dsimp only [Option.getD_some] at heq
    obtain ⟨hbase, hrest⟩ := List.append_inj (Option.some.inj heq)
      (by rw [length_blankPadded, length_blankPadded] <;> simp [length_strupper, hn8, hm8])
    have hupper := strupper_of_blankPadded hm.1 ht.1 hbase
    have hextupper := strupper_of_blankPadded (hm.2 _ hmext).2 (ht.2 _ hext).2 hrest
    unfold ShortName.filename
    rw [hmext, hext]
    dsimp only
    rw [strupper_dot, strupper_dot, hupper, hextupper]

/-- The conversion writes the form of the directory exactly for the names with a dot (and for up to three blanks), and the
names with a dot are the ones that it tells from all others. -/
theorem written_iff (n : ShortName) :
    (n.Written ↔ n.ext ≠ none ∨ n.base.length ≤ 3 ∧ ∀ c ∈ n.base, c = 0x20) ∧
      (n.Trimmed → (n.Written ∧ n.Distinct ↔ n.ext ≠ none)) := by
  rcases hext : n.ext with _ | ext
  · refine ⟨by simp [written_of_noDot hext], fun ht => ?_⟩
    simp only [ne_eq, not_true_eq_false, iff_false, not_and]
    intro hw
    exact absurd ((written_of_noDot hext).mp hw).2 (base_ne_blanks ht)
  · have hw := written_of_dot hext
    exact ⟨by simp [hw], fun ht => by simp [hw, distinct_of_dot ht hext]⟩

def kernelName : ShortName where
  base := [0x4B, 0x45, 0x52, 0x4E, 0x45, 0x4C]
  ext := none
  base_ne_nil := by decide
  base_le := by decide
  ext_le := by simp
  chars := by simp

def binName : ShortName where
  base := [0x62, 0x69, 0x6E]
  ext := none
  base_ne_nil := by decide
  base_le := by decide
  ext_le := by simp
  chars := by simp

/-- `KERNEL` is written past the end of the array, and `bin` in the place of an extension. -/
theorem not_written_noDot : ¬ kernelName.Written ∧ convertNameToFat16Name kernelName.filename = none ∧ ¬ binName.Written ∧
    convertNameToFat16Name binName.filename = some (blankPadded 8 [] ++ [0x42, 0x49, 0x4E]) := by
  unfold ShortName.Written
  decide +kernel

/-! ## The entry that is found -/

theorem strncmp_eq_zero {c1 c2 : List UInt8} {size : Nat} (h1 : c1.length = size) (h2 : c2.length = size) :
    strncmp c1 c2 size = 0 ↔ c1 = c2 := by
  unfold strncmp
  constructor
  · intro h
    split_ifs at h with hall
    refine List.ext_getElem (h1.trans h2.symm) fun i hi hi' => ?_
    have hget := hall i (h1 ▸ hi)
    simpa [List.getD_eq_getElem?_getD, hi, hi'] using hget
  · rintro rfl
    exact if_pos fun _ _ => rfl

theorem length_dirEntry {buffer : List UInt8} (hb : buffer.length = 512) {j : Nat} (hj : j < 16) :
    (dirEntry buffer j).name.length = 11 := by
  simp only [dirEntry, List.length_take, List.length_drop]
  omega

theorem findSome?_congr {α β : Type*} {f g : α → Option β} :
    ∀ {l : List α}, (∀ x ∈ l, f x = g x) → l.findSome? f = l.findSome? g
  | [], _ => rfl
  | x :: l, h => by
      rw [List.findSome?_cons, List.findSome?_cons, h x List.mem_cons_self,
        findSome?_congr fun y hy => h y (List.mem_cons_of_mem _ hy)]

theorem searchSector_eq {buffer : List UInt8} (hb : buffer.length = 512) (hname : name.length = 11) :
    searchSector buffer name =
      (((List.range 16).map (dirEntry buffer)).find? (·.name = name)).map Entry.toFatFileDirectory := by
  rw [List.find?_eq_findSome?_guard, List.findSome?_map, List.map_findSome?, searchSector]
  refine findSome?_congr fun j hj => ?_
  have hlen := length_dirEntry hb (List.mem_range.mp hj)
  simp only [strncmp_eq_zero hlen hname, Function.comp, Option.guard, decide_eq_true_eq]
  split_ifs <;> rfl

/-- The search finds the first entry of the name. -/
theorem searchRoot_eq (v : Volume) (hname : name.length = 11) :
    searchRoot v name = ((rootEntries v).find? (·.name = name)).map Entry.toFatFileDirectory := by
  rw [rootEntries, List.find?_flatMap, List.map_findSome?, searchRoot]
  refine findSome?_congr fun i _ => searchSector_eq ?_ hname
  rw [ataReadDisk_eq _ _ (Nat.le_refl _), Lib.length_slice]

theorem length_searched {n : ShortName} (h : n.searched = some name) : name.length = 11 := by
  have hbase := n.base_le
  unfold ShortName.searched at h
  split at h
  · rename_i ext hext
    have hext := n.ext_le ext hext
    cases h
    simp only [ShortName.onDisk, blankPadded, List.length_append, List.length_replicate, length_strupper]
    simp only [*, Option.getD_some]
    omega
  · split_ifs at h with h3
    cases h
    simp only [blankPadded, List.length_append, List.length_replicate, length_strupper, List.length_nil]
    omega

/-! ## The search for a name of 8.3 form -/

theorem findFileLoop_of_noSlash {text : List UInt8} (h : ∀ c ∈ text, c ≠ 0x2F) :
    ∀ (fname : List UInt8), fname.length + text.length < 64 →
      findFileLoop v text (some fname) =
        (searchComponent v (some (fname ++ text))).map fun found => found.getD ⟨0, 0, 0⟩ := by
  induction text with
  | nil => intro fname _; rw [List.append_nil]; rfl
  | cons c text ih =>
      intro fname hlen
      rw [List.length_cons] at hlen
      have hshort : (fname ++ [c]).length < 64 := by
        rw [List.length_append, List.length_singleton]
        omega
      rw [findFileLoop, if_neg (h c List.mem_cons_self), Option.getD_some, if_pos hshort,
        ih (fun d hd => h d (List.mem_cons_of_mem _ hd)) _ (by simp; omega), List.append_assoc, List.singleton_append]

theorem filename_spec (n : ShortName) : n.filename ≠ [] ∧ n.filename.length ≤ 12 ∧ ∀ c ∈ n.filename, c ≠ 0x2F := by
  obtain ⟨base, ext, hne, hlen, hext, hchars⟩ := n
  cases ext with
  | none => exact ⟨hne, hlen.trans (by omega), fun c hc => (hchars c (List.mem_append_left _ hc)).2.2⟩
  | some ext =>
      have h3 := hext ext rfl
      refine ⟨by simp [ShortName.filename], by simp [ShortName.filename]; omega, fun c hc => ?_⟩
      rcases List.mem_append.mp hc with hc | hc
      · exact (hchars c (by simp [hc])).2.2
      · rcases List.mem_cons.mp hc with rfl | hc
        · decide
        · exact (hchars c (by simp [hc])).2.2

/-- The search finds the first entry of the name that it looks for, or the zero record. -/
theorem fatFindFile_filename (v : Volume) (n : ShortName) :
    fatFindFile v n.filename = n.searched.map fun name =>
      (((rootEntries v).find? (·.name = name)).map Entry.toFatFileDirectory).getD ⟨0, 0, 0⟩ := by
  obtain ⟨hne, hlen, hslash⟩ := filename_spec n
  obtain ⟨c, text, htext⟩ := List.exists_cons_of_ne_nil hne
  have hloop : fatFindFile v n.filename =
      (searchComponent v (some n.filename)).map fun found => found.getD ⟨0, 0, 0⟩ := by
    rw [htext] at hlen hslash ⊢
    rw [List.length_cons] at hlen
    rw [fatFindFile, findFileLoop, if_neg (hslash c List.mem_cons_self)]
    exact findFileLoop_of_noSlash (fun d hd => hslash d (List.mem_cons_of_mem _ hd)) [c] (by simp; omega)
  rw [hloop, searchComponent, Option.bind_some, convert_filename]
  cases hs : n.searched with
  | none => rfl
  | some name =>
      rw [Option.map_some, Option.map_some, Option.map_some, searchRoot_eq v (length_searched hs)]

/-- `A.B`. -/
def someName : ShortName where
  base := [0x41]
  ext := some [0x42]
  base_ne_nil := by decide
  base_le := by decide
  ext_le := by simp
  chars := by simp

end HaOS.Fat
