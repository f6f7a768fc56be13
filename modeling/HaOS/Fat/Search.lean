import HaOS.Fat.Path

/-!
# What the search for a path finds

* `rootRecords` : the records of the root directory, in disk order; `searchRecord_eq` : the search is for the first of
  them with a name;
* `splitPath`, `components` : the components of a path that are searched; `findFile_eq` : the search goes from one to the
  next and ends at the first that it finds (`searchPath`, with what a step does in `searchPath_found`, `searchPath_passed`
  and `searchPath_ok`);
* `findFile_named` : what is returned for a name of 8.3 form;
* `resolved_iff` : when a record returned for a longer path is its file.
-/

namespace HaOS.Fat
open Lib (slice)
open Print (Text)

/-! ## The root directory on the disk -/

def rootPlace (v : Volume) : Nat :=
  v.fatLbaStart + v.header.reservedSector + v.header.fatNumber * v.header.sectorPerFat

def rootByte (v : Volume) (p : Nat) : UInt8 := ataSector v.disk (rootPlace v + p / 512) (p % 512)

/-- The 32-byte records of the root directory. -/
def rootRecords (v : Volume) : List (List UInt8) :=
  (List.range v.header.rootDirEntries).map fun k => slice (rootByte v) (32 * k) 32

/-- The records that the search looks at, 16 in a sector. -/
def searchedRecords (v : Volume) : List (List UInt8) :=
  (List.range (rootDirSectors v)).flatMap fun i =>
    (List.range 16).map (dirRecord (ataReadDisk v.disk (dword (rootDirsStart v + i)) 0 512))

variable {v : Volume} {text old name rest : List UInt8} {comps : List (List UInt8)} {i k : Nat} {c : UInt8}
  {n : ShortName}

theorem length_dirRecord {buffer : List UInt8} (hb : buffer.length = 512) {j : Nat} (hj : j < 16) :
    ((dirRecord buffer j).take 11).length = 11 := by
  simp only [dirRecord, List.length_take, List.length_drop]
  omega

/-- The search finds the first record of the name. -/
theorem searchRecord_eq (v : Volume) (hname : name.length = 11) :
    searchRecord v name = (searchedRecords v).find? (·.take 11 = name) := by
  rw [searchedRecords, List.find?_flatMap, searchRecord]
  refine findSome?_congr fun i _ => ?_
  dsimp only
  rw [List.find?_eq_findSome?_guard, List.findSome?_map]
  refine findSome?_congr fun j hj => ?_
  have h512 : (ataReadDisk v.disk (dword (rootDirsStart v + i)) 0 512).length = 512 := by
    rw [ataReadDisk_eq _ _ (Nat.le_refl _), Lib.length_slice]
  have hlen := length_dirRecord h512 (List.mem_range.mp hj)
  simp only [strncmp_eq_zero hlen hname, Function.comp, Option.guard, decide_eq_true_eq]

theorem range_mul_flatMap {β : Type} (f : Nat → β) (k : Nat) : ∀ n : Nat,
    ((List.range n).flatMap fun i => (List.range k).map fun j => f (k * i + j)) = (List.range (k * n)).map f
  | 0 => by rw [Nat.mul_zero]; rfl
  | n + 1 => by
      rw [List.range_succ, List.flatMap_append, range_mul_flatMap f k n, Nat.mul_succ, List.range_add, List.map_append,
        List.map_map]
      simp only [List.flatMap_cons, List.flatMap_nil, List.append_nil, Function.comp_def]

/-- Every sector address is sent modulo 2^28, so the steps that the place is computed in do not matter. -/
theorem ataSector_root (v : Volume) (i : Nat) :
    ataSector v.disk (dword (rootDirsStart v + i)) = ataSector v.disk (rootPlace v + i) := by
  unfold ataSector
  congr 1
  unfold rootDirsStart fatStart rootPlace dword
  generalize v.header.fatNumber * v.header.sectorPerFat = p
  omega

theorem dirRecord_slice (f : Nat → UInt8) {j : Nat} (hj : j < 16) : dirRecord (slice f 0 512) j = slice f (32 * j) 32 := by
  have hfirst := Lib.slice_add f 0 (32 * j) (512 - 32 * j)
  have hsecond := Lib.slice_add f (32 * j) 32 (512 - 32 * j - 32)
  rw [Nat.add_sub_cancel' (by omega), Nat.zero_add] at hfirst
  rw [Nat.add_sub_cancel' (by omega)] at hsecond
  rw [dirRecord, hfirst, hsecond, List.drop_left' (Lib.length_slice ..), List.take_left' (Lib.length_slice ..)]

/-- With 512-byte sectors filled with entries, the search looks at the records of the root directory. -/
theorem searchedRecords_eq (hb : v.header.bytesPerSector = 512) (h16 : 16 ∣ v.header.rootDirEntries) :
    searchedRecords v = rootRecords v := by
  obtain ⟨m, hm⟩ := h16
  have hsectors : rootDirSectors v = m := by
    rw [rootDirSectors, hb, hm]
    exact Nat.mul_div_cancel_left m (by decide)
  rw [rootRecords, hm, ← range_mul_flatMap, searchedRecords, hsectors]
  refine List.flatMap_congr fun i _ => List.map_congr_left fun j hj => ?_
  have hj := List.mem_range.mp hj
  rw [ataReadDisk_eq _ _ (Nat.le_refl _), dirRecord_slice _ hj, ataSector_root]
  refine Lib.slice_congr fun x hx => ?_
  have hdiv : (32 * (16 * i + j) + x) / 512 = i := by omega
  have hmod : (32 * (16 * i + j) + x) % 512 = 32 * j + x := by omega
  rw [rootByte, hdiv, hmod]

/-! ## The components of a path -/

/-- The components that end in `path`, the first of which starts with `text`, and what is left behind the last of them. -/
def splitPath : List UInt8 → List UInt8 → List (List UInt8) × List UInt8
  | text, [] => ([], text)
  | text, c :: path =>
    if c = 0x2F ∨ c = 0 then (text :: (splitPath [] path).1, (splitPath [] path).2) else splitPath (text ++ [c]) path

/-- The components that the search comes to, while none of them is found. -/
def components (filename : Text) : List (List UInt8) := (splitPath [] (looked filename)).1

/-- The characters behind the last of them, when the length of the path does not fit an `int`. -/
def unfinished (filename : Text) : List UInt8 := (splitPath [] (looked filename)).2

/-- The search from one component to the next, over the bytes `old` in the buffer. -/
def searchPath (v : Volume) (last : Except Fault Search) : List UInt8 → List (List UInt8) → Except Fault Search
  | _, [] => last
  | old, text :: comps =>
    if 64 ≤ text.length then .error (.fname 64)
    else if old = [] ∧ text = [] then .error (.unwritten 0)
    else
      match convertNameToFat16Name text with
      | none => .error (.fat16Name 11)
      | some name =>
        let fname := ofBytes (converted old text name)
        match searchRecord v name with
        | some r => .ok ⟨r, [(name, r)], [fname, fname]⟩
        | none => (searchPath v last (converted old text name) comps).map fun s =>
            { s with printed := fname :: s.printed }

section Step
variable {last : Except Fault Search} {s : Search} {r : List UInt8}

theorem searchPath_found (hlen : text.length < 64) (hne : ¬ (old = [] ∧ text = []))
    (hconv : convertNameToFat16Name text = some name) (hr : searchRecord v name = some r) :
    searchPath v last old (text :: comps) =
      .ok ⟨r, [(name, r)], [ofBytes (converted old text name), ofBytes (converted old text name)]⟩ := by
  rw [searchPath, if_neg (Nat.not_le.mpr hlen), if_neg hne, hconv]
  dsimp only
  rw [hr]

/-- The search goes on behind a component that is not found. -/
theorem searchPath_passed (hlen : text.length < 64) (hne : ¬ (old = [] ∧ text = []))
    (hconv : convertNameToFat16Name text = some name) (hr : searchRecord v name = none) :
    searchPath v last old (text :: comps) = (searchPath v last (converted old text name) comps).map fun s =>
      { s with printed := ofBytes (converted old text name) :: s.printed } := by
  rw [searchPath, if_neg (Nat.not_le.mpr hlen), if_neg hne, hconv]
  dsimp only
  rw [hr]

/-- A search that returns has converted its first component, and found it or gone on. -/
theorem searchPath_ok (hs : searchPath v last old (text :: comps) = .ok s) :
    text.length < 64 ∧ ¬ (old = [] ∧ text = []) ∧ ∃ name, convertNameToFat16Name text = some name ∧
      ((∃ r, searchRecord v name = some r ∧
          s = ⟨r, [(name, r)], [ofBytes (converted old text name), ofBytes (converted old text name)]⟩) ∨
        (searchRecord v name = none ∧ ∃ s₁, searchPath v last (converted old text name) comps = .ok s₁ ∧
          s = { s₁ with printed := ofBytes (converted old text name) :: s₁.printed })) := by
  have hrun := hs
  rw [searchPath] at hrun
  split_ifs at hrun with h64 hempty
  have hlen := Nat.not_le.mp h64
  refine ⟨hlen, hempty, ?_⟩
  cases hconv : convertNameToFat16Name text with
  | none =>
      rw [hconv] at hrun
      cases hrun
  | some name =>
      refine ⟨name, rfl, ?_⟩
      cases hr : searchRecord v name with
      | some r =>
          rw [searchPath_found hlen hempty hconv hr] at hs
          cases hs
          exact .inl ⟨r, rfl, rfl⟩
      | none =>
          rw [searchPath_passed hlen hempty hconv hr] at hs
          cases hrest : searchPath v last (converted old text name) comps with
          | error e =>
              rw [hrest] at hs
              cases hs
          | ok s₁ =>
              rw [hrest] at hs
              cases hs
              exact .inr ⟨rfl, s₁, rfl, rfl⟩

end Step

/-- The end of the loop, behind `size` characters. -/
def searchEnd (rest : List UInt8) (size : Nat) : Except Fault Search :=
  if 64 ≤ rest.length then .error (.fname 64)
  else if size = 2 ^ 31 then .error .overflow
  else .ok ⟨zeroRecord, [], []⟩

theorem splitPath_prefix (path text : List UInt8) :
    (∃ text' comps rest, splitPath text path = (text' :: comps, rest) ∧ text.length ≤ text'.length) ∨
      ∃ rest, splitPath text path = ([], rest) ∧ text.length ≤ rest.length := by
  induction path generalizing text with
  | nil => exact .inr ⟨text, rfl, Nat.le_refl _⟩
  | cons c path ih =>
      rw [splitPath]
      split_ifs
      · exact .inl ⟨text, _, _, rfl, Nat.le_refl _⟩
      · have hlen : (text ++ [c]).length = text.length + 1 := by rw [List.length_append, List.length_singleton]
        rcases ih (text ++ [c]) with ⟨text', comps, rest, heq, hle⟩ | ⟨rest, heq, hle⟩
        · exact .inl ⟨text', comps, rest, heq, by omega⟩
        · exact .inr ⟨rest, heq, by omega⟩

/-- A component that does not fit the buffer is written behind it. -/
theorem searchPath_long {path : List UInt8} {size : Nat} (hlong : 64 ≤ text.length) :
    searchPath v (searchEnd (splitPath text path).2 size) old (splitPath text path).1 = .error (.fname 64) := by
  rcases splitPath_prefix path text with ⟨text', comps, rest, heq, hle⟩ | ⟨rest, heq, hle⟩
  · have hlong' : 64 ≤ text'.length := by omega
    rw [heq, searchPath, if_pos hlong']
  · have hlong' : 64 ≤ rest.length := by omega
    rw [heq, searchPath, searchEnd, if_pos hlong']

theorem findFileRun_eq (v : Volume) : ∀ (path : List UInt8) (i : Nat) (old text : List UInt8), 0 ∉ text → text.length < 64 →
    findFileRun v path i (ofBytes (component old text)) text.length =
      searchPath v (searchEnd (splitPath text path).2 (i + path.length)) old (splitPath text path).1
  | [], i, old, text, _, hlen => by
      have hfits : ¬ 64 ≤ text.length := Nat.not_le.mpr hlen
      rw [findFileRun, splitPath, searchPath, searchEnd, if_neg hfits]
      rfl
  | c :: path, i, old, text, hnul, hlen => by
      have hcount : i + (c :: path).length = i + 1 + path.length := by rw [List.length_cons]; omega
      have hfits : ¬ 64 ≤ text.length := Nat.not_le.mpr hlen
      by_cases hend : c = 0x2F ∨ c = 0
      · rw [findFileRun_end hend hnul hlen, splitPath, if_pos hend, searchPath, if_neg hfits, hcount]
        split_ifs
        · rfl
        · cases convertNameToFat16Name text with
          | none => rfl
          | some name =>
              dsimp only
              cases searchRecord v name with
              | some r => rfl
              | none =>
                  dsimp only
                  rw [← findFileRun_eq v path (i + 1) (converted old text name) [] (by simp) (by decide)]
                  rfl
      · obtain ⟨hslash, hzero⟩ := not_or.mp hend
        have hlength : (text ++ [c]).length = text.length + 1 := by rw [List.length_append, List.length_singleton]
        rw [findFileRun_char hslash hzero hlen, splitPath, if_neg hend, hcount]
        split_ifs with h64
        · have hnext := findFileRun_eq v path (i + 1) old (text ++ [c]) (by simp [hnul, Ne.symm hzero]) (by omega)
          rw [hlength] at hnext
          exact hnext
        · rw [searchPath_long (by omega)]

theorem findFile_eq (v : Volume) (filename : Text) :
    findFile v filename =
      searchPath v (searchEnd (unfinished filename) (looked filename).length) [] (components filename) := by
  have hempty : (fun _ => none : Fname) = ofBytes (component [] []) := rfl
  have hrun := findFileRun_eq v (looked filename) 0 [] [] (by simp) (by decide)
  rw [Nat.zero_add] at hrun
  rw [findFile, hempty]
  exact hrun

/-! ## The search on characters -/

/-- The fields of a record that opening uses. -/
def directoryOf (r : List UInt8) : FatFileDirectory := (dirEntry r 0).toFatFileDirectory

theorem getD_dirRecord {buffer : List UInt8} {j : Nat} (hk : k < 32) :
    (dirRecord buffer j).getD k 0 = buffer.getD (32 * j + k) 0 := by
  rw [dirRecord, List.getD_eq_getElem?_getD, List.getElem?_take_of_lt hk, List.getElem?_drop, ← List.getD_eq_getElem?_getD]

theorem directoryOf_dirRecord (buffer : List UInt8) (j : Nat) :
    directoryOf (dirRecord buffer j) = (dirEntry buffer j).toFatFileDirectory := by
  have hword : ∀ w < 16, wordAt (dirRecord buffer j) (16 * 0 + w) = wordAt buffer (16 * j + w) := by
    intro w hw
    rw [wordAt, wordAt, getD_dirRecord (by omega), getD_dirRecord (by omega),
      show 2 * (16 * j + w) = 32 * j + 2 * (16 * 0 + w) by omega]
    rfl
  have hbyte : (dirRecord buffer j).getD (32 * 0 + 11) 0 = buffer.getD (32 * j + 11) 0 := getD_dirRecord (by decide)
  simp only [directoryOf, dirEntry, hword 10 (by decide), hword 13 (by decide), hbyte]

theorem searchRoot_eq_map (v : Volume) (name : List UInt8) :
    searchRoot v name = (searchRecord v name).map directoryOf := by
  rw [searchRoot, searchRecord, List.map_findSome?]
  refine findSome?_congr fun i _ => ?_
  simp only [Function.comp_def]
  rw [searchSector, List.map_findSome?]
  refine findSome?_congr fun j _ => ?_
  have hname : ∀ buffer : List UInt8, (dirEntry buffer j).name = (dirRecord buffer j).take 11 := by
    intro buffer
    rw [dirRecord, List.take_take]
    rfl
  simp only [Function.comp_def, hname]
  split_ifs
  · rw [Option.map_some, directoryOf_dirRecord]
  · rfl

/-- The search on characters is the one in the buffer, without what the latter reads and writes. -/
theorem findFileLoop_eq {size : Nat} (hsize : size ≠ 2 ^ 31) : ∀ (path : List UInt8) (old text : List UInt8), 0 ∉ path →
    text.length < 64 → findFileLoop v path (if old = [] ∧ text = [] then none else some text) =
      (searchPath v (searchEnd (splitPath text (path ++ [0])).2 size) old (splitPath text (path ++ [0])).1).toOption.map
        fun s => directoryOf s.record
  | [], old, text, _, hlen => by
      have hfits : ¬ 64 ≤ text.length := Nat.not_le.mpr hlen
      rw [List.nil_append, splitPath, if_pos (show (0 : UInt8) = 0x2F ∨ (0 : UInt8) = 0 from .inr rfl), searchPath,
        if_neg hfits, findFileLoop]
      split_ifs with h
      · rfl
      · rw [searchComponent, Option.bind_some]
        cases convertNameToFat16Name text with
        | none => rfl
        | some name =>
            rw [Option.map_some, Option.map_some, searchRoot_eq_map]
            dsimp only
            cases searchRecord v name with
            | some r => rfl
            | none =>
                have hend : searchEnd (splitPath [] []).2 size = .ok ⟨zeroRecord, [], []⟩ := by
                  rw [splitPath, searchEnd, if_neg (by decide), if_neg hsize]
                dsimp only
                rw [splitPath] at hend ⊢
                rw [searchPath, hend]
                rfl
  | c :: path, old, text, hnul, hlen => by
      have hfits : ¬ 64 ≤ text.length := Nat.not_le.mpr hlen
      have hzero : c ≠ 0 := fun h => hnul (h ▸ List.mem_cons_self)
      have hnul' : 0 ∉ path := fun h => hnul (List.mem_cons_of_mem c h)
      rw [List.cons_append, splitPath, findFileLoop]
      by_cases hslash : c = 0x2F
      · rw [if_pos hslash, if_pos (show c = 0x2F ∨ c = 0 from .inl hslash), searchPath, if_neg hfits]
        split_ifs with h
        · rfl
        · rw [searchComponent, Option.bind_some]
          cases convertNameToFat16Name text with
          | none => rfl
          | some name =>
              rw [Option.map_some, searchRoot_eq_map]
              dsimp only
              cases searchRecord v name with
              | some r => rfl
              | none =>
                  have hrest := findFileLoop_eq hsize path (converted old text name) [] hnul' (by decide)
                  rw [if_neg (fun h => length_converted_pos old text name h.1)] at hrest
                  rw [Option.map_none]
                  dsimp only
                  rw [hrest]
                  cases searchPath v (searchEnd (splitPath [] (path ++ [0])).2 size) (converted old text name)
                    (splitPath [] (path ++ [0])).1 <;> rfl
      · have hgetD : (if old = [] ∧ text = [] then none else some text : Option (List UInt8)).getD [] = text := by
          split_ifs with h
          · exact h.2.symm
          · rfl
        have hlength : (text ++ [c]).length = text.length + 1 := by rw [List.length_append, List.length_singleton]
        rw [if_neg hslash, if_neg (not_or.mpr ⟨hslash, hzero⟩), hgetD]
        dsimp only
        split_ifs with h64
        · have hnext := findFileLoop_eq hsize path old (text ++ [c]) hnul' h64
          rwa [if_neg (by simp)] at hnext
        · rw [searchPath_long (Nat.not_lt.mp h64)]
          rfl

/-! ## A name of 8.3 form -/

theorem looked_of_lt {filename : Text} (h : filename.bytes.length < 2 ^ 31) : looked filename = filename.bytes ++ [0] := by
  rw [looked, Nat.mod_eq_of_lt (by omega), if_pos h, List.take_of_length_le (by simp)]

theorem splitPath_text {path : List UInt8} (h : ∀ c ∈ text, ¬ (c = 0x2F ∨ c = 0)) (acc : List UInt8) :
    splitPath acc (text ++ path) = splitPath (acc ++ text) path := by
  induction text generalizing acc with
  | nil => rw [List.append_nil]; rfl
  | cons c text ih =>
      rw [List.cons_append, splitPath, if_neg (h c List.mem_cons_self), ih fun d hd => h d (List.mem_cons_of_mem c hd),
        List.append_assoc, List.singleton_append]

theorem fatFindFile_eq (v : Volume) {filename : Text} (h : filename.bytes.length < 2 ^ 31 - 1) :
    fatFindFile v filename.bytes = (findFile v filename).toOption.map fun s => directoryOf s.record := by
  have hlooked : looked filename = filename.bytes ++ [0] := looked_of_lt (by omega)
  have hsize : (looked filename).length ≠ 2 ^ 31 := by
    rw [hlooked, List.length_append, List.length_singleton]
    omega
  have hloop := findFileLoop_eq (v := v) hsize filename.bytes [] [] filename.nul (by decide)
  rw [findFile_eq, unfinished, components]
  rw [hlooked] at hloop ⊢
  exact hloop

theorem ShortName.plain (n : ShortName) : ∀ c ∈ n.filename, ¬ (c = 0x2F ∨ c = 0) := by
  intro c hc
  have hslash := (filename_spec n).2.2 c hc
  obtain ⟨base, ext, hne, hlen, hext, hchars⟩ := n
  cases ext with
  | none =>
      have hzero := (hchars c (by simp only [Option.getD_none, List.append_nil]; exact hc)).1
      exact not_or.mpr ⟨hslash, hzero⟩
  | some ext =>
      rcases List.mem_append.mp hc with hc | hc
      · exact not_or.mpr ⟨hslash, (hchars c (List.mem_append_left _ hc)).1⟩
      · rcases List.mem_cons.mp hc with rfl | hc
        · decide
        · exact not_or.mpr ⟨hslash, (hchars c (List.mem_append_right _ hc)).1⟩

def ShortName.string (n : ShortName) : Text := ⟨n.filename, fun h => n.plain 0 h (.inr rfl)⟩

theorem components_filename (n : ShortName) : components n.string = [n.filename] ∧ unfinished n.string = [] := by
  have hlen := (filename_spec n).2.1
  have hlooked : looked n.string = n.filename ++ [0] := looked_of_lt (show n.filename.length < 2 ^ 31 by omega)
  have hsplit : splitPath [] (looked n.string) = ([n.filename], []) := by
    rw [hlooked, splitPath_text n.plain, List.nil_append]
    rfl
  rw [components, unfinished, hsplit]
  exact ⟨rfl, rfl⟩

theorem head_convert (hnul : 0 ∉ text) (h : convertNameToFat16Name text = some name) : name.head? ≠ some 0 := by
  unfold convertNameToFat16Name at h
  dsimp only at h
  split_ifs at h with h3
  cases h
  rw [List.range_succ_eq_map, List.map_cons, List.cons_append, List.head?_cons]
  intro h0
  have h0 := Option.some.inj h0
  split_ifs at h0 with hdot
  · exact absurd h0 (by decide)
  · rcases dotFileIndex_cases (strupper text) with hd | ⟨d, hd, hdot'⟩
    · rw [hd] at hdot
      exact hdot (by decide)
    · rw [List.getD_eq_getElem?_getD, List.getElem?_eq_getElem (by omega), Option.getD_some] at h0
      exact nul_strupper hnul (h0 ▸ List.getElem_mem _)

theorem ne_zeroRecord {r : List UInt8} (hnul : 0 ∉ text) (h : convertNameToFat16Name text = some name)
    (hr : r.take 11 = name) : r ≠ zeroRecord := by
  rintro rfl
  exact head_convert hnul h (by rw [← hr]; rfl)

/-- The first record of the root directory with the name is returned, and the zero record exactly when there is none. -/
theorem findFile_named (hb : v.header.bytesPerSector = 512) (h16 : 16 ∣ v.header.rootDirEntries)
    (hext : n.ext ≠ none) : ∃ s, findFile v n.string = .ok s ∧
      s.record = ((rootRecords v).find? (·.take 11 = n.onDisk)).getD zeroRecord ∧
      (s.record = zeroRecord ↔ ∀ r ∈ rootRecords v, r.take 11 ≠ n.onDisk) := by
  obtain ⟨ext, hsome⟩ := Option.ne_none_iff_exists'.mp hext
  obtain ⟨hne, hlen, -⟩ := filename_spec n
  obtain ⟨hcomps, hrest⟩ := components_filename n
  have hconv : convertNameToFat16Name n.filename = some n.onDisk := by
    rw [convert_filename, ShortName.searched, hsome]
  have hlooked : (looked n.string).length ≠ 2 ^ 31 := by
    rw [looked_of_lt (show n.filename.length < 2 ^ 31 by omega), List.length_append]
    show n.filename.length + 1 ≠ 2 ^ 31
    omega
  have hlength : n.filename.length < 64 := by omega
  have hfirst : ¬ (([] : List UInt8) = [] ∧ n.filename = []) := fun h => hne h.2
  have hrecord := searchRecord_eq v (length_convert hconv)
  rw [searchedRecords_eq hb h16] at hrecord
  rw [findFile_eq, hcomps, hrest]
  cases hfind : (rootRecords v).find? (·.take 11 = n.onDisk) with
  | some r =>
      have hr : r.take 11 = n.onDisk := by simpa using List.find?_some hfind
      refine ⟨_, searchPath_found hlength hfirst hconv (hrecord.trans hfind), rfl, fun h => ?_, fun h => ?_⟩
      · exact absurd h (ne_zeroRecord n.string.nul hconv hr)
      · exact absurd hr (h r (List.mem_of_find?_eq_some hfind))
  | none =>
      have hend : searchEnd [] (looked n.string).length = .ok ⟨zeroRecord, [], []⟩ := by
        rw [searchEnd, if_neg (by decide), if_neg hlooked]
      rw [searchPath_passed hlength hfirst hconv (hrecord.trans hfind), searchPath, hend]
      refine ⟨_, rfl, rfl, fun _ r hr => ?_, fun _ => rfl⟩
      simpa using List.find?_eq_none.mp hfind r hr

/-- A volume whose root directory holds the file `A.B`, and the name `a.b`. -/
def oneFileVolume : Volume where
  header := ⟨512, 1, 1, 1, 16, 1⟩
  fatLbaStart := 0
  disk lba i :=
    if lba = 2 ∧ i < 32 then ((someName.onDisk ++ [0x20]).getD i 0) else 0

/-! ## Paths -/

/-- The component was converted, and no record has its name. -/
def Unlisted (v : Volume) (text : List UInt8) : Prop :=
  ∃ name, convertNameToFat16Name text = some name ∧ ∀ r ∈ searchedRecords v, r.take 11 ≠ name

theorem searchRecord_none (hconv : convertNameToFat16Name text = some name) :
    searchRecord v name = none ↔ Unlisted v text := by
  rw [searchRecord_eq v (length_convert hconv), List.find?_eq_none]
  constructor
  · exact fun h => ⟨name, hconv, fun r hr => by simpa using h r hr⟩
  · rintro ⟨name', hconv', h⟩ r hr
    obtain rfl : name = name' := Option.some.inj (hconv.symm.trans hconv')
    simpa using h r hr

theorem searchPath_unlisted {last : Except Fault Search} (h : ∀ text ∈ comps, Unlisted v text)
    (hfit : ∀ text ∈ comps, text.length < 64 ∧ text ≠ []) : ∃ printed : List Fname,
      searchPath v last old comps = last.map fun s => { s with printed := printed ++ s.printed } := by
  induction comps generalizing old with
  | nil =>
      refine ⟨[], ?_⟩
      rw [searchPath]
      cases last <;> rfl
  | cons text comps ih =>
      obtain ⟨name, hconv, hnone⟩ := h text List.mem_cons_self
      obtain ⟨hlen, hne⟩ := hfit text List.mem_cons_self
      obtain ⟨printed, hrest⟩ := @ih (converted old text name) (fun t ht => h t (List.mem_cons_of_mem _ ht))
        (fun t ht => hfit t (List.mem_cons_of_mem _ ht))
      refine ⟨ofBytes (converted old text name) :: printed, ?_⟩
      rw [searchPath_passed hlen (fun h => hne h.2) hconv ((searchRecord_none hconv).mpr ⟨name, hconv, hnone⟩), hrest]
      cases last <;> rfl

/-- What a search that returns has found: nothing, or one component, whose record it returns. -/
theorem searchPath_cases {last : Except Fault Search} {s : Search} (hs : searchPath v last old comps = .ok s)
    (hnul : ∀ text ∈ comps, 0 ∉ text) :
    (∃ s', last = .ok s' ∧ s.record = s'.record ∧ s.found = s'.found ∧ ∀ text ∈ comps, Unlisted v text) ∨
      ∃ name, s.found = [(name, s.record)] ∧ s.record ≠ zeroRecord := by
  induction comps generalizing old s with
  | nil => exact .inl ⟨s, hs, rfl, rfl, fun _ h => absurd h List.not_mem_nil⟩
  | cons text comps ih =>
      obtain ⟨-, -, name, hconv, ⟨r, hr, rfl⟩ | ⟨hr, s₁, hrest, rfl⟩⟩ := searchPath_ok hs
      · rw [searchRecord_eq v (length_convert hconv)] at hr
        refine .inr ⟨name, rfl, ne_zeroRecord (hnul text List.mem_cons_self) hconv ?_⟩
        simpa using List.find?_some hr
      · rcases ih hrest fun t ht => hnul t (List.mem_cons_of_mem _ ht) with ⟨s', hlast, hrec, hfound, hall⟩ | hfound
        · refine .inl ⟨s', hlast, hrec, hfound, fun t ht => ?_⟩
          rcases List.mem_cons.mp ht with rfl | ht
          · exact (searchRecord_none hconv).mp hr
          · exact hall t ht
        · exact .inr hfound

def pathOf (n : ShortName) : List ShortName → List UInt8
  | [] => n.filename
  | m :: p => n.filename ++ 0x2F :: pathOf m p

theorem nul_pathOf (n : ShortName) : ∀ p : List ShortName, 0 ∉ pathOf n p
  | [] => fun h => n.plain 0 h (.inr rfl)
  | m :: p => by
      rw [pathOf, List.mem_append, List.mem_cons]
      rintro (h | h | h)
      · exact n.plain 0 h (.inr rfl)
      · exact absurd h (by decide)
      · exact nul_pathOf m p h

def pathString (n : ShortName) (p : List ShortName) : Text := ⟨pathOf n p, nul_pathOf n p⟩

/-- As much of a path as is looked at has some of its names as components, and all of it has all. -/
theorem splitPath_pathOf (n : ShortName) (p : List ShortName) (k : Nat) :
    (∃ j, (splitPath [] ((pathOf n p ++ [0]).take k)).1 = ((n :: p).take j).map ShortName.filename) ∧
      (splitPath [] ((pathOf n p ++ [0]).take k)).2.length ≤ 12 ∧
      ((pathOf n p ++ [0]).length ≤ k →
        (splitPath [] ((pathOf n p ++ [0]).take k)).1 = (n :: p).map ShortName.filename) := by
  have hshort := (filename_spec n).2.1
  -- a cut inside the first name leaves no component
  have hcut : ∀ tail : List UInt8, k ≤ n.filename.length →
      splitPath [] ((n.filename ++ tail).take k) = ([], n.filename.take k) := by
    intro tail hk
    rw [List.take_append_of_le_length hk, ← List.append_nil (n.filename.take k),
      splitPath_text (fun c hc => n.plain c (List.mem_of_mem_take hc)), List.nil_append, List.append_nil]
    rfl
  have hwhole : ∀ tail : List UInt8, n.filename.length ≤ k →
      splitPath [] ((n.filename ++ tail).take k) = splitPath n.filename (tail.take (k - n.filename.length)) := by
    intro tail hk
    rw [List.take_append, List.take_of_length_le hk, splitPath_text n.plain, List.nil_append]
  have hpiece : (n.filename.take k).length ≤ 12 := by rw [List.length_take]; omega
  cases p with
  | nil =>
      rw [pathOf]
      rcases Nat.lt_or_ge n.filename.length k with hk | hk
      · obtain ⟨m, hm⟩ : ∃ m, k - n.filename.length = m + 1 := ⟨k - n.filename.length - 1, by omega⟩
        rw [hwhole _ hk.le, hm, List.take_succ_cons, List.take_nil]
        exact ⟨⟨1, rfl⟩, Nat.zero_le _, fun _ => rfl⟩
      · rw [hcut _ hk]
        refine ⟨⟨0, rfl⟩, hpiece, fun h => ?_⟩
        rw [List.length_append, List.length_singleton] at h
        omega
  | cons m p =>
      have hassoc : pathOf n (m :: p) ++ [0] = n.filename ++ 0x2F :: (pathOf m p ++ [0]) := by
        rw [pathOf, List.append_assoc, List.cons_append]
      rw [hassoc]
      rcases Nat.lt_or_ge n.filename.length k with hk | hk
      · obtain ⟨l, hl⟩ : ∃ l, k - n.filename.length = l + 1 := ⟨k - n.filename.length - 1, by omega⟩
        rw [hwhole _ hk.le, hl, List.take_succ_cons, splitPath, if_pos (.inl rfl)]
        obtain ⟨⟨j, hj⟩, hrest, hall⟩ := splitPath_pathOf m p l
        refine ⟨⟨j + 1, ?_⟩, hrest, fun h => ?_⟩
        · rw [hj]
          rfl
        · rw [hall]
          · rfl
          · rw [List.length_append, List.length_cons] at h
            omega
      · rw [hcut _ hk]
        refine ⟨⟨0, rfl⟩, hpiece, fun h => ?_⟩
        rw [List.length_append, List.length_cons] at h
        omega

/-- Every name was found in its turn, all but the last as directories, and the last as the record that is returned. -/
structure Resolved (names : List ShortName) (s : Search) : Prop where
  name : ∀ n ∈ names.getLast?, s.record.take 11 = n.onDisk
  found : s.found.map Prod.fst = names.map ShortName.onDisk
  last : s.found.getLast?.map Prod.snd = some s.record
  directories : ∀ d ∈ s.found.dropLast, (dirEntry d.2 0).IsDirectory

/-- A record that is returned for the path, unless it is the zero record, is the one of its file. -/
def Resolves (v : Volume) (n : ShortName) (p : List ShortName) : Prop :=
  ∃ s, findFile v (pathString n p) = .ok s ∧ (s.record ≠ zeroRecord → Resolved (n :: p) s)

theorem looked_eq_take (filename : Text) : ∃ k, looked filename = (filename.bytes ++ [0]).take k := by
  rw [looked]
  split_ifs
  · exact ⟨_, rfl⟩
  · exact ⟨0, rfl⟩

theorem length_looked (filename : Text) :
    (looked filename).length = 2 ^ 31 ↔ filename.bytes.length % 2 ^ 32 = 2 ^ 31 - 1 := by
  have hle := Nat.mod_le filename.bytes.length (2 ^ 32)
  rw [looked]
  split_ifs with h
  · rw [List.length_take, List.length_append, List.length_singleton]
    omega
  · exact iff_of_false not_false (by omega)

theorem components_pathString (n : ShortName) (p : List ShortName) :
    (∃ j, components (pathString n p) = ((n :: p).take j).map ShortName.filename) ∧
      (unfinished (pathString n p)).length < 64 ∧
      ((pathOf n p).length < 2 ^ 31 → components (pathString n p) = (n :: p).map ShortName.filename) := by
  obtain ⟨k, hk⟩ := looked_eq_take (pathString n p)
  obtain ⟨hsome, hrest, -⟩ := splitPath_pathOf n p k
  refine ⟨?_, ?_, fun hlt => ?_⟩
  · rw [components, hk]
    exact hsome
  · rw [unfinished, hk]
    exact Nat.lt_of_le_of_lt hrest (by decide)
  · have hall := (splitPath_pathOf n p (pathOf n p ++ [0]).length).2.2 (Nat.le_refl _)
    rw [List.take_length] at hall
    rw [components, looked_of_lt (show (pathString n p).bytes.length < 2 ^ 31 from hlt)]
    exact hall

/-- The file of a longer path is never found. -/
theorem not_resolved {s : Search} {m : ShortName} {p : List ShortName} {x : List UInt8 × List UInt8} (hs : s.found = [x]) :
    ¬ Resolved (n :: m :: p) s := by
  intro h
  have hlen := congrArg List.length h.found
  rw [hs, List.length_map, List.length_map, List.length_cons, List.length_cons, List.length_cons, List.length_nil] at hlen
  omega

theorem resolves_iff_unlisted (v : Volume) (n m : ShortName) (p : List ShortName) :
    Resolves v n (m :: p) ↔ (∀ text ∈ components (pathString n (m :: p)), Unlisted v text) ∧
      (pathOf n (m :: p)).length % 2 ^ 32 ≠ 2 ^ 31 - 1 := by
  obtain ⟨⟨j, hcomps⟩, hrest, -⟩ := components_pathString n (m :: p)
  have hfile : ∀ text ∈ components (pathString n (m :: p)), ∃ k : ShortName, text = k.filename := by
    intro text ht
    rw [hcomps] at ht
    obtain ⟨k, -, rfl⟩ := List.mem_map.mp ht
    exact ⟨k, rfl⟩
  have hend : searchEnd (unfinished (pathString n (m :: p))) (looked (pathString n (m :: p))).length =
      if (pathOf n (m :: p)).length % 2 ^ 32 = 2 ^ 31 - 1 then .error .overflow else .ok ⟨zeroRecord, [], []⟩ := by
    rw [searchEnd, if_neg (Nat.not_le.mpr hrest)]
    exact if_congr (length_looked _) rfl rfl
  unfold Resolves
  rw [findFile_eq, hend]
  constructor
  · rintro ⟨s, hs, hres⟩
    have hnul : ∀ text ∈ components (pathString n (m :: p)), 0 ∉ text := by
      intro text ht h0
      obtain ⟨k, rfl⟩ := hfile text ht
      exact k.plain 0 h0 (.inr rfl)
    rcases searchPath_cases hs hnul with ⟨s', hlast, -, -, hall⟩ | ⟨name, hfound, hne⟩
    · refine ⟨hall, fun h => ?_⟩
      rw [if_pos h] at hlast
      cases hlast
    · exact absurd (hres hne) (not_resolved hfound)
  · rintro ⟨hall, hsize⟩
    have hfit : ∀ text ∈ components (pathString n (m :: p)), text.length < 64 ∧ text ≠ [] := by
      intro text ht
      obtain ⟨k, rfl⟩ := hfile text ht
      have hk := filename_spec k
      exact ⟨by omega, hk.1⟩
    rw [if_neg hsize]
    obtain ⟨printed, hrun⟩ := @searchPath_unlisted v [] _ (.ok ⟨zeroRecord, [], []⟩) hall hfit
    exact ⟨_, hrun, fun h => absurd rfl h⟩

/-- A record returned for a path of two names or more is the one of its file exactly when none is returned: when no
component, up to the length that an `int` holds, has its name in the root directory, and each could be converted. -/
theorem resolved_iff (v : Volume) (n m : ShortName) (p : List ShortName) :
    (Resolves v n (m :: p) ↔ (∀ text ∈ components (pathString n (m :: p)), Unlisted v text) ∧
      (pathOf n (m :: p)).length % 2 ^ 32 ≠ 2 ^ 31 - 1) ∧
    ((pathOf n (m :: p)).length < 2 ^ 31 - 1 → (Resolves v n (m :: p) ↔
      ∀ k ∈ n :: m :: p, ∃ name, k.searched = some name ∧ ∀ r ∈ searchedRecords v, r.take 11 ≠ name)) := by
  refine ⟨resolves_iff_unlisted v n m p, fun hlt => ?_⟩
  have hcomps := (components_pathString n (m :: p)).2.2 (by omega)
  have hsize : (pathOf n (m :: p)).length % 2 ^ 32 ≠ 2 ^ 31 - 1 := by
    rw [Nat.mod_eq_of_lt (by omega)]
    omega
  rw [resolves_iff_unlisted, hcomps, List.forall_mem_map, and_iff_left hsize]
  simp only [Unlisted, convert_filename]

def noDir : ShortName where
  base := [0x4E]
  ext := some [0x44]
  base_ne_nil := by decide
  base_le := by decide
  ext_le := by simp
  chars := by simp

/-- `a.b/N.D` is answered with the file `A.B`, and so is `N.D/a.b`. -/
theorem not_resolves_oneFile :
    ¬ Resolves oneFileVolume someName [noDir] ∧ ¬ Resolves oneFileVolume noDir [someName] := by
  have hlisted : ¬ Unlisted oneFileVolume someName.filename := by
    rintro ⟨name, hconv, hne⟩
    obtain ⟨r, hr, hname⟩ :
        ∃ r ∈ searchedRecords oneFileVolume, some (r.take 11) = convertNameToFat16Name someName.filename := by
      decide +kernel
    exact hne r hr (Option.some.inj (hname.trans hconv))
  have hshort : ∀ n m : ShortName, (pathOf n [m]).length < 2 ^ 31 := by
    intro n m
    have hn := (filename_spec n).2.1
    have hm := (filename_spec m).2.1
    rw [pathOf, pathOf, List.length_append, List.length_cons]
    omega
  constructor
  · intro h
    refine hlisted (((resolves_iff_unlisted _ _ _ _).mp h).1 _ ?_)
    rw [(components_pathString someName [noDir]).2.2 (hshort _ _)]
    exact List.mem_cons_self
  · intro h
    refine hlisted (((resolves_iff_unlisted _ _ _ _).mp h).1 _ ?_)
    rw [(components_pathString noDir [someName]).2.2 (hshort _ _)]
    exact List.mem_cons_of_mem _ List.mem_cons_self

end HaOS.Fat
