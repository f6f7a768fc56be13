import HaOS.Fat.Bounds

/-!
# What is found and opened under a name of 8.3 form

* `Scanned` : the format scan of the converted name ends in the bytes that were written; `inBounds_string` : the accesses
  to the buffers are right exactly for the names that are scanned and can be converted;
* `findsFirst_iff` : when the first record of the root directory with the name is returned, with all accesses right;
* `opened_iff` : when the pointer says whether there is such a file.
-/

namespace HaOS.Fat
open Print (percent)

namespace ShortName

/-- With eight characters and three the name leaves a NUL behind the one that ends its converted form. Else no percent
sign may pass over the latter: the third character of the extension is none, or the one before it passes over it. -/
def Scanned (n : ShortName) : Prop :=
  n.filename.length = 12 ∨ ∀ a b, n.ext.getD n.base = [a, b, percent] → a ≠ percent ∧ b = percent

/-- The pointer says whether the file exists, and where it starts. -/
def Told (n : ShortName) (v : Volume) : Prop :=
  ∃ fptr, fatOpen v n.filename = some fptr ∧
    ((∀ e ∈ rootEntries v, e.name = n.onDisk → e.IsDirectory) → fptr.currentCluster = 0xFFFFFFFF) ∧
    (∀ e, n.IsFile v e → fptr.currentCluster = e.firstCluster) ∧ (fptr.NotFound ↔ ¬ ∃ e, n.IsFile v e)

/-- The entry `r` says the same about the file as the entries of its name: it is a directory's (or has the cluster that
stands for one) when none is a regular file's, and else has the first cluster of those that are. -/
def Agrees (n : ShortName) (v : Volume) (r : FatFileDirectory) : Prop :=
  (¬ r.IsDirectory ∧ r.firstCluster ≠ 0xFFFFFFFF ↔ ∃ e, n.IsFile v e) ∧ ∀ e, n.IsFile v e → e.firstCluster = r.firstCluster

/-- With a dot, there is an entry of that name, and the first of them agrees with all. Without one, what is looked up is an
extension, and the outcome may only agree by chance. -/
def Listed (n : ShortName) (v : Volume) : Prop :=
  match n.ext with
  | some _ => ∃ r, (rootEntries v).find? (·.name = n.onDisk) = some r ∧ n.Agrees v r.toFatFileDirectory
  | none => n.base.length ≤ 3 ∧ n.Agrees v ((((rootEntries v).find?
      (·.name = blankPadded 8 [] ++ blankPadded 3 (strupper n.base))).map Entry.toFatFileDirectory).getD ⟨0, 0, 0⟩)

end ShortName

/-- Every access of the search to its buffers is right, the first record of the root directory with the name is returned,
and the zero record exactly when there is none. -/
def FindsFirst (v : Volume) (n : ShortName) : Prop :=
  InBounds v n.string ∧ ∃ s, findFile v n.string = .ok s ∧
    s.record = ((rootRecords v).find? (·.take 11 = n.onDisk)).getD zeroRecord ∧
    (s.record = zeroRecord ↔ ∀ r ∈ rootRecords v, r.take 11 ≠ n.onDisk)

variable {v : Volume} {n : ShortName} {c : UInt8} {ys : List UInt8}

/-! ## The scan of the converted name -/

/-- A character that is no percent sign is where the scan goes on, whether it was read or passed over. -/
theorem scanEnds_append (h0 : c ≠ 0) (hc : c ≠ percent) : ∀ {xs : List UInt8}, 0 ∉ xs →
    scanEnds (xs ++ c :: ys) = scanEnds ys
  | [], _ => by
      cases ys with
      | nil => simp [scanEnds, h0]
      | cons d ys => rw [List.nil_append, scanEnds, if_neg h0, if_neg hc]
  | [x], hx => by
      have hx0 : x ≠ 0 := fun h => hx (h ▸ List.mem_cons_self)
      rw [List.singleton_append, scanEnds, if_neg hx0]
      split_ifs
      · rfl
      · exact @scanEnds_append h0 hc [] List.not_mem_nil
  | x :: y :: xs, hx => by
      have hx0 : x ≠ 0 := fun h => hx (h ▸ List.mem_cons_self)
      have hy : 0 ∉ y :: xs := fun h => hx (List.mem_cons_of_mem x h)
      rw [List.cons_append, List.cons_append, scanEnds, if_neg hx0, ← List.cons_append]
      split_ifs
      · exact scanEnds_append h0 hc fun h => hy (List.mem_cons_of_mem y h)
      · exact scanEnds_append h0 hc hy

theorem scanEnds_two : ∀ xs : List UInt8, scanEnds (xs ++ [0, 0]) = true
  | [] => by decide
  | [x] => by
      rw [List.singleton_append, scanEnds]
      split_ifs <;> decide
  | x :: y :: xs => by
      have hy := scanEnds_two (y :: xs)
      rw [List.cons_append, List.cons_append, scanEnds, ← List.cons_append]
      split_ifs
      · rfl
      · exact scanEnds_two xs
      · exact hy

/-- The scan of an extension of three characters, and the NUL behind it. -/
theorem scanEnds_three {x y z : UInt8} (hx : x ≠ 0) (hy : y ≠ 0) (hz : z ≠ 0) :
    scanEnds [x, y, z, 0] = true ↔ (z = percent → x ≠ percent ∧ y = percent) := by
  simp only [scanEnds, hx, hy, hz, if_false]
  split_ifs with hxp hzp hyp
  · simp [hzp, hxp]
  · simp [hzp]
  · simp [hxp, hyp]
  · simp [*]
  · simp [*]

theorem blankPadded_succ {k : Nat} {text : List UInt8} (h : text.length ≤ k) :
    blankPadded (k + 1) text = blankPadded k text ++ [0x20] := by
  rw [blankPadded, blankPadded, Nat.succ_sub h, List.replicate_succ', List.append_assoc]

theorem nul_blankPadded {k : Nat} {text : List UInt8} (h : 0 ∉ text) : 0 ∉ blankPadded k text := by
  rw [blankPadded, List.mem_append]
  exact not_or.mpr ⟨h, fun hblank => absurd (List.eq_of_mem_replicate hblank) (by decide)⟩

theorem upper_eq_percent : upper c = percent ↔ c = percent := by
  constructor
  · intro h
    by_contra hne
    exact upper_ne (by decide) hne h
  · rintro rfl
    rfl

/-- What is looked up: a base, or none, filled up with blanks, and what stands behind the dot, or all of the name. -/
theorem searched_form {name : List UInt8} (h : n.searched = some name) : ∃ base : List UInt8, base.length ≤ 8 ∧ 0 ∉ base ∧
    name = blankPadded 8 base ++ blankPadded 3 (strupper (n.ext.getD n.base)) ∧ (n.ext.getD n.base).length ≤ 3 ∧
    0 ∉ n.ext.getD n.base ∧ (n.filename.length = 12 ↔ base.length = 8 ∧ (n.ext.getD n.base).length = 3) := by
  have hbase : 0 ∉ n.base := fun h0 => (n.chars 0 (List.mem_append_left _ h0)).1 rfl
  have hlen := n.base_le
  unfold ShortName.searched at h
  unfold ShortName.filename
  cases hext : n.ext with
  | some ext =>
      have hext0 : 0 ∉ ext := by
        intro h0
        refine (n.chars 0 (List.mem_append_right _ ?_)).1 rfl
        rw [hext]
        exact h0
      have h3 := n.ext_le ext hext
      rw [hext] at h
      cases h
      refine ⟨strupper n.base, by rwa [length_strupper], nul_strupper hbase, ?_, h3, hext0, ?_⟩
      · rw [ShortName.onDisk, hext]
        rfl
      · simp only [length_strupper, List.length_append, List.length_cons, Option.getD_some]
        omega
  | none =>
      rw [hext] at h
      dsimp only at h
      split_ifs at h with h3
      cases h
      refine ⟨[], Nat.zero_le _, List.not_mem_nil, rfl, Nat.not_lt.mp h3, hbase, ?_⟩
      simp only [List.length_nil]
      omega

/-- The scan of a name that is padded to 8 and 3 characters, where a blank separates the two parts. -/
theorem scanEnds_padded {base part : List UInt8} (hbase0 : 0 ∉ base) (hpart0 : 0 ∉ part) (hbase : base.length ≤ 8)
    (hpart : part.length ≤ 3) (hshort : ¬ (base.length = 8 ∧ part.length = 3)) :
    scanEnds (blankPadded 8 base ++ blankPadded 3 (strupper part) ++ [0]) = true ↔
      ∀ a b, part = [a, b, percent] → a ≠ percent ∧ b = percent := by
  by_cases h3 : part.length = 3
  · have hpad : blankPadded 8 base = blankPadded 7 base ++ [0x20] := blankPadded_succ (by omega)
    obtain ⟨x, y, z, rfl⟩ := List.length_eq_three.mp h3
    simp only [List.mem_cons, not_or, List.not_mem_nil, not_false_iff, and_true] at hpart0
    obtain ⟨hx, hy, hz⟩ := hpart0
    have hscan := scanEnds_three (upper_ne_zero (Ne.symm hx)) (upper_ne_zero (Ne.symm hy)) (upper_ne_zero (Ne.symm hz))
    have hbytes : blankPadded 8 base ++ blankPadded 3 (strupper [x, y, z]) ++ [0] =
        blankPadded 7 base ++ 0x20 :: [upper x, upper y, upper z, 0] := by
      rw [hpad]
      simp [blankPadded, strupper]
    rw [hbytes, scanEnds_append (by decide) (by decide) (nul_blankPadded hbase0), hscan]
    simp only [ne_eq, upper_eq_percent, List.cons.injEq, and_true]
    constructor
    · rintro h a b ⟨rfl, rfl, hz⟩
      exact h hz
    · exact fun h hz => h x y ⟨rfl, rfl, hz⟩
  · have hpad : blankPadded 3 (strupper part) = blankPadded 2 (strupper part) ++ [0x20] :=
      blankPadded_succ (by rw [length_strupper]; omega)
    have hnul : 0 ∉ blankPadded 8 base ++ blankPadded 2 (strupper part) := by
      rw [List.mem_append]
      exact not_or.mpr ⟨nul_blankPadded hbase0, nul_blankPadded (nul_strupper hpart0)⟩
    have hbytes : blankPadded 8 base ++ blankPadded 3 (strupper part) ++ [0] =
        blankPadded 8 base ++ blankPadded 2 (strupper part) ++ 0x20 :: [0] := by
      rw [hpad]
      simp
    rw [hbytes, scanEnds_append (by decide) (by decide) hnul]
    refine iff_of_true rfl fun a b hab => ?_
    rw [hab] at h3
    exact absurd rfl h3

/-- The scan of what the conversion leaves in the buffer. -/
theorem scanEnds_name {name : List UInt8} (h : n.searched = some name) :
    scanEnds (leftBy [n.filename]) = true ↔ n.Scanned := by
  obtain ⟨base, hbase, hbase0, rfl, hpart, hpart0, h12⟩ := searched_form h
  have hle := (filename_spec n).2.1
  have hconv := (convert_filename n).trans h
  have hleft := leftBy_snoc [] hconv
  rw [List.nil_append] at hleft
  rw [hleft, converted, leftBy, List.foldl_nil, List.drop_nil]
  unfold ShortName.Scanned
  by_cases hlen : n.filename.length = 12
  · have hrest : (strupper n.filename ++ [0]).drop 12 = [0] :=
      List.drop_left' (by rw [length_strupper, hlen])
    rw [hrest]
    exact iff_of_true (scanEnds_two _) (.inl hlen)
  · have hrest : (strupper n.filename ++ [0]).drop 12 = [] := by
      apply List.drop_eq_nil_of_le
      rw [List.length_append, length_strupper, List.length_singleton]
      omega
    rw [hrest, or_iff_right hlen]
    exact scanEnds_padded hbase0 hpart0 hbase hpart (mt h12.mpr hlen)

/-- The accesses to the buffers are right for the names that can be converted and are scanned. -/
theorem inBounds_string (v : Volume) (n : ShortName) :
    InBounds v n.string ↔ (∃ name, n.searched = some name) ∧ n.Scanned := by
  obtain ⟨hne, hlen, -⟩ := filename_spec n
  obtain ⟨hcomps, hrest⟩ := components_filename n
  have hsize : n.string.bytes.length % 2 ^ 32 ≠ 2 ^ 31 - 1 := by
    show n.filename.length % 2 ^ 32 ≠ 2 ^ 31 - 1
    omega
  have hshort : n.filename.length < 64 := by omega
  have hend : (∀ text ∈ [n.filename], Unlisted v text) → ([] : List UInt8).length < 64 ∧
      n.string.bytes.length % 2 ^ 32 ≠ 2 ^ 31 - 1 := fun _ => ⟨by decide, hsize⟩
  have hnil : ∀ pre text post, ([] : List (List UInt8)) = pre ++ text :: post → (∀ t ∈ n.filename :: pre, Unlisted v t) →
      text.length < 64 ∧ (n.filename :: pre = [] → text ≠ []) ∧ (extension text).length ≤ 3 ∧
        scanEnds (leftBy (n.filename :: pre ++ [text])) = true := fun pre text post h => by simp at h
  rw [inBounds_iff_fits, Fits, hcomps, hrest, and_iff_left hend, forall_split_cons, and_iff_left hnil, extension_le,
    convert_filename]
  constructor
  · intro h
    obtain ⟨-, -, ⟨name, hname⟩, hscan⟩ := h fun t ht => absurd ht List.not_mem_nil
    exact ⟨⟨name, hname⟩, (scanEnds_name hname).mp hscan⟩
  · rintro ⟨⟨name, hname⟩, hscan⟩ -
    exact ⟨hshort, fun _ => hne, ⟨name, hname⟩, (scanEnds_name hname).mpr hscan⟩

/-! ## What is found -/

theorem inBounds_dot (v : Volume) (hext : n.ext ≠ none) : InBounds v n.string ↔ n.Scanned := by
  obtain ⟨ext, hsome⟩ := Option.ne_none_iff_exists'.mp hext
  rw [inBounds_string]
  apply and_iff_right
  rw [ShortName.searched, hsome]
  exact ⟨n.onDisk, rfl⟩

/-- The first record of the root directory with the name is returned, with all accesses right, exactly for the names whose
converted form the format scan does not leave. -/
theorem findsFirst_iff (hb : v.header.bytesPerSector = 512) (h16 : 16 ∣ v.header.rootDirEntries) (hext : n.ext ≠ none) :
    FindsFirst v n ↔ n.Scanned := by
  rw [FindsFirst, inBounds_dot v hext]
  exact and_iff_left (findFile_named hb h16 hext)

theorem findsFirst_iff_someName : FindsFirst oneFileVolume someName ↔ someName.Scanned :=
  findsFirst_iff rfl (by decide) (by decide)

/-- `A.BC%`. -/
def percentName : ShortName where
  __ := someName
  ext := some [0x42, 0x43, 0x25]
  ext_le e h := by
    cases h
    decide
  chars c h := by
    obtain rfl | rfl | rfl | rfl : c = 0x41 ∨ c = 0x42 ∨ c = 0x43 ∨ c = 0x25 := by simpa [someName] using h
    all_goals decide

theorem not_scanned_percentName : ¬ percentName.Scanned := by
  intro h
  rcases h with h | h
  · exact absurd h (by decide)
  · exact absurd (h 0x42 0x43 rfl).2 (by decide)

/-- The percent sign at the end of `A.BC%` passes over the NUL, and `printf` reads the byte behind it. -/
theorem not_findsFirst_percentName : ¬ FindsFirst oneFileVolume percentName :=
  fun h => not_scanned_percentName ((inBounds_dot _ (by decide)).mp h.1)

/-! ## What opening tells -/

theorem notFound_iff {e : FatFileDirectory} :
    (fatFileOpen e).NotFound ↔ ¬ (¬ e.IsDirectory ∧ e.firstCluster ≠ 0xFFFFFFFF) := by
  unfold FatFilePtr.NotFound fatFileOpen FatFileDirectory.IsDirectory FatFileDirectory.firstCluster
  by_cases h : e.attributes &&& fatDirectory = 0
  · simp [h]
  · simp [h]

theorem currentCluster_of_not_notFound {e : FatFileDirectory} (h : ¬ (fatFileOpen e).NotFound) :
    (fatFileOpen e).currentCluster = e.firstCluster := by
  rw [notFound_iff, not_not] at h
  have hdir : e.attributes &&& fatDirectory = 0 := not_not.mp h.1
  rw [fatFileOpen, if_pos hdir]
  rfl

/-- A pointer made from `r` says the right thing about the file when `r` agrees. -/
theorem agrees_iff {r : FatFileDirectory} :
    (((∀ e ∈ rootEntries v, e.name = n.onDisk → e.IsDirectory) → (fatFileOpen r).currentCluster = 0xFFFFFFFF) ∧
      (∀ e, n.IsFile v e → (fatFileOpen r).currentCluster = e.firstCluster) ∧
      ((fatFileOpen r).NotFound ↔ ¬ ∃ e, n.IsFile v e)) ↔ n.Agrees v r := by
  unfold ShortName.Agrees
  constructor
  · intro ⟨_, hclus, hnot⟩
    refine ⟨not_iff_not.mp (notFound_iff.symm.trans hnot), fun e he => ?_⟩
    have hfound : ¬ (fatFileOpen r).NotFound := fun h => hnot.mp h ⟨e, he⟩
    rw [← hclus e he, currentCluster_of_not_notFound hfound]
  · intro ⟨hiff, hclus⟩
    have hnot : (fatFileOpen r).NotFound ↔ ¬ ∃ e, n.IsFile v e := notFound_iff.trans (not_congr hiff)
    refine ⟨fun hdir => hnot.mpr ?_, fun e he => ?_, hnot⟩
    · rintro ⟨e, hmem, hname, hreg, _⟩
      exact hreg (hdir e hmem hname)
    · have hfound : ¬ (fatFileOpen r).NotFound := fun h => hnot.mp h ⟨e, he⟩
      rw [currentCluster_of_not_notFound hfound, hclus e he]

/-- The zero record agrees with no directory that lacks the name. -/
theorem not_agrees_zero (h : (rootEntries v).find? (·.name = n.onDisk) = none) : ¬ n.Agrees v ⟨0, 0, 0⟩ := by
  intro ⟨hiff, _⟩
  obtain ⟨e, hmem, hname, _⟩ := hiff.mp ⟨by decide, by decide⟩
  have hne := List.find?_eq_none.mp h e hmem
  exact hne (decide_eq_true hname)

theorem told_iff (v : Volume) (n : ShortName) : n.Told v ↔ n.Listed v := by
  have hopen : fatOpen v n.filename = n.searched.map fun name =>
      fatFileOpen ((((rootEntries v).find? (·.name = name)).map Entry.toFatFileDirectory).getD ⟨0, 0, 0⟩) := by
    rw [fatOpen, fatFindFile_filename, Option.map_map]
    rfl
  unfold ShortName.Told ShortName.Listed
  rw [hopen]
  unfold ShortName.searched
  cases hext : n.ext with
  | some ext =>
      simp only [Option.map_some, Option.some.injEq, exists_eq_left', agrees_iff]
      constructor
      · intro h
        cases hfind : (rootEntries v).find? (·.name = n.onDisk) with
        | none =>
            rw [hfind] at h
            exact absurd h (not_agrees_zero hfind)
        | some r =>
            rw [hfind] at h
            exact ⟨r, rfl, h⟩
      · rintro ⟨r, hfind, hr⟩
        rw [hfind]
        exact hr
  | none =>
      dsimp only
      split_ifs with h3
      · simp only [Option.map_none, reduceCtorEq, false_and, exists_false, false_iff]
        exact fun h => absurd h3 (not_lt.mpr h.1)
      · simp only [Option.map_some, Option.some.injEq, exists_eq_left', agrees_iff]
        exact (and_iff_right (not_lt.mp h3)).symm

/-- On a volume with at most one entry of that name, which is no label and starts at a 16-bit cluster, this just means that
there is one. -/
theorem told_iff_exists (hdot : n.ext ≠ none)
    (hone : ∀ e ∈ rootEntries v, ∀ e' ∈ rootEntries v, e.name = n.onDisk → e'.name = n.onDisk → e = e')
    (hfile : ∀ e ∈ rootEntries v, e.name = n.onDisk → e.attributes &&& fatVolumeId = 0 ∧ e.firstCluster < 2 ^ 16) :
    n.Told v ↔ ∃ e ∈ rootEntries v, e.name = n.onDisk := by
  obtain ⟨ext, hext⟩ := Option.ne_none_iff_exists'.mp hdot
  rw [told_iff]
  unfold ShortName.Listed
  rw [hext]
  constructor
  · rintro ⟨r, hfind, _⟩
    have hname := List.find?_some hfind
    exact ⟨r, List.mem_of_find?_eq_some hfind, by simpa using hname⟩
  · rintro ⟨e, hmem, hname⟩
    have hsome : ((rootEntries v).find? (·.name = n.onDisk)).isSome :=
      List.find?_isSome.mpr ⟨e, hmem, decide_eq_true hname⟩
    obtain ⟨r, hfind⟩ := Option.isSome_iff_exists.mp hsome
    have hr := List.mem_of_find?_eq_some hfind
    have hrname : r.name = n.onDisk := by simpa using List.find?_some hfind
    obtain ⟨hlabel, hclus⟩ := hfile r hr hrname
    refine ⟨r, hfind, ⟨fun h => ⟨r, hr, hrname, h.1, hlabel⟩, ?_⟩, ?_⟩
    · rintro ⟨f, hf, hfname, hreg, _⟩
      rw [hone f hf r hr hfname hrname] at hreg
      exact ⟨hreg, by omega⟩
    · rintro f ⟨hf, hfname, _, _⟩
      rw [hone f hf r hr hfname hrname]

end HaOS.Fat
