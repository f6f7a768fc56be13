import HaOS.Fat.Search

/-!
# The accesses of `fat_findFile` to its buffers

* `printfReads` : what `printf` reads of a component, which it takes for a format;
* `InBounds` : no access to `fname` or `fat16Name` goes wrong; `Fits` : what this asks of the path;
* `scanEnds`, `leftBy` : where the scan of `printf` ends, and the bytes that the components leave in the buffer;
* `inBounds_iff` : the accesses are right exactly for the paths that fit.
-/

namespace HaOS.Fat
open Print (Text percent)

/-- What `printf_impl` reads from index `i` on. The components are in upper case, so no letter behind a percent sign is one
of a conversion; it is passed, even if it is the NUL. -/
def printfReads (fname : Fname) : Nat → Nat → Except Fault Unit
  | 0, i => .error (.unwritten i)
  | rounds + 1, i => do
    let c ← load fname i
    if c = 0 then pure ()
    else if c = percent then do
      let _ ← load fname (i + 1)
      printfReads fname rounds (i + 2)
    else printfReads fname rounds (i + 1)

/-- Every write to `fname` and to `fat16Name` is inside the array, and no byte of `fname` is read before it was written. -/
def InBounds (v : Volume) (filename : Text) : Prop :=
  ∃ s, findFile v filename = .ok s ∧ ∀ fname ∈ s.printed, printfReads fname 65 0 = .ok ()

/-- The scan of a format comes to a NUL among the bytes. -/
def scanEnds : List UInt8 → Bool
  | [] => false
  | [c] => c = 0
  | c :: d :: rest => if c = 0 then true else if c = percent then scanEnds rest else scanEnds (d :: rest)

/-- The bytes in the buffer after the components were converted one after another. -/
def leftBy (comps : List (List UInt8)) : List UInt8 :=
  comps.foldl (fun old text => converted old text ((convertNameToFat16Name text).getD [])) []

/-- What stands behind the first dot, or all of the component. -/
def extension (text : List UInt8) : List UInt8 := text.drop (dotFileIndex text + 1).toNat

/-- Every component that is searched has at most 63 characters and at most 3 in its extension, the first is not empty, and
the scan of its name comes to an end in what the components left in the buffer. If none is found, the length of the path
is no `int` that cannot be counted on from. -/
def Fits (v : Volume) (filename : Text) : Prop :=
  (∀ pre text post, components filename = pre ++ text :: post → (∀ t ∈ pre, Unlisted v t) →
    text.length < 64 ∧ (pre = [] → text ≠ []) ∧ (extension text).length ≤ 3 ∧ scanEnds (leftBy (pre ++ [text])) = true) ∧
  ((∀ t ∈ components filename, Unlisted v t) →
    (unfinished filename).length < 64 ∧ filename.bytes.length % 2 ^ 32 ≠ 2 ^ 31 - 1)

variable {v : Volume} {text old name : List UInt8} {comps done : List (List UInt8)} {filename : Text}

/-! ## The scan -/

/-- The scan reads written bytes only exactly when it comes to a NUL among them. -/
theorem printfReads_ofBytes : ∀ (rest pre : List UInt8) (rounds : Nat), rest.length < rounds →
    (printfReads (ofBytes (pre ++ rest)) rounds pre.length = .ok () ↔ scanEnds rest = true)
  | [], pre, rounds + 1, _ => by
      rw [printfReads, List.append_nil, load_behind (Nat.le_refl _), error_bind]
      exact iff_of_false (by simp) (by simp [scanEnds])
  | c :: rest, pre, rounds + 1, hlen => by
      have hlen : rest.length < rounds := by simpa using hlen
      have happ : pre ++ c :: rest = pre ++ [c] ++ rest := by rw [List.append_assoc, List.singleton_append]
      have hlength : (pre ++ [c]).length = pre.length + 1 := by rw [List.length_append, List.length_singleton]
      have hload : load (ofBytes (pre ++ c :: rest)) pre.length = .ok c := by
        rw [load_ofBytes (by simp), List.getElem_append_right (Nat.le_refl _)]
        simp
      have hnext := printfReads_ofBytes rest (pre ++ [c]) rounds hlen
      rw [← happ, hlength] at hnext
      rw [printfReads, hload, ok_bind]
      by_cases h0 : c = 0
      · rw [if_pos h0]
        refine iff_of_true rfl ?_
        cases rest <;> simp [scanEnds, h0]
      · rw [if_neg h0]
        cases rest with
        | nil =>
            refine iff_of_false ?_ (by simp [scanEnds, h0])
            split_ifs
            · rw [load_behind (by simp), error_bind]
              simp
            · rw [hnext]
              simp [scanEnds]
        | cons d rest =>
            have happ' : pre ++ c :: d :: rest = pre ++ [c, d] ++ rest := by simp
            have hload' : load (ofBytes (pre ++ c :: d :: rest)) (pre.length + 1) = .ok d := by
              rw [load_ofBytes (by simp), List.getElem_append_right (by omega)]
              simp
            have hskip := printfReads_ofBytes rest (pre ++ [c, d]) rounds (by simp at hlen; omega)
            rw [← happ', List.length_append] at hskip
            rw [hload', ok_bind, scanEnds, if_neg h0]
            split_ifs
            · exact hskip
            · exact hnext

/-! ## What the components leave -/

theorem leftBy_snoc (done : List (List UInt8)) (hconv : convertNameToFat16Name text = some name) :
    leftBy (done ++ [text]) = converted (leftBy done) text name := by
  rw [leftBy, leftBy, List.foldl_append, List.foldl_cons, List.foldl_nil, hconv, Option.getD_some]

theorem leftBy_eq_nil : leftBy done = [] ↔ done = [] := by
  constructor
  · intro h
    rcases List.eq_nil_or_concat done with rfl | ⟨pre, text, rfl⟩
    · rfl
    · rw [List.concat_eq_append, leftBy, List.foldl_append, List.foldl_cons, List.foldl_nil] at h
      exact absurd h (length_converted_pos _ _ _)
  · rintro rfl
    rfl

theorem length_converted (hold : old.length ≤ 64) (htext : text.length < 64) (hname : name.length = 11) :
    (converted old text name).length ≤ 64 := by
  simp only [converted, List.length_append, List.length_cons, List.length_drop, hname, length_strupper]
  omega

theorem extension_le (text : List UInt8) :
    (extension text).length ≤ 3 ↔ ∃ name, convertNameToFat16Name text = some name := by
  have hdot : dotFileIndex (strupper text) = dotFileIndex text := by
    have hupper : ∀ c : UInt8, upper c = 0x2E ↔ c = 0x2E := by
      intro c
      constructor
      · intro h
        by_contra hne
        exact upper_ne (by decide) hne h
      · rintro rfl
        rfl
    have hindex : (strupper text).findIdx? (· = 0x2E) = text.findIdx? (· = 0x2E) := by
      rw [strupper, List.findIdx?_map]
      congr 1
      funext c
      simp only [Function.comp, hupper]
    rw [dotFileIndex, dotFileIndex, hindex]
  have hlen : ((strupper text).drop (dotFileIndex text + 1).toNat).length = (extension text).length := by
    rw [extension, List.length_drop, List.length_drop, length_strupper]
  simp only [convertNameToFat16Name, hdot, hlen]
  split_ifs with h3
  · exact iff_of_false (Nat.not_le.mpr h3) (by simp)
  · exact iff_of_true (Nat.not_lt.mp h3) ⟨_, rfl⟩

theorem forall_split_cons {α : Type} {x : α} {xs : List α} {P : List α → α → Prop} :
    (∀ pre y post, x :: xs = pre ++ y :: post → P pre y) ↔
      P [] x ∧ ∀ pre y post, xs = pre ++ y :: post → P (x :: pre) y := by
  constructor
  · intro h
    refine ⟨h [] x xs rfl, fun pre y post heq => h (x :: pre) y post ?_⟩
    rw [heq, List.cons_append]
  · rintro ⟨hfirst, hrest⟩ pre y post heq
    cases pre with
    | nil =>
        rw [List.nil_append] at heq
        obtain ⟨rfl, -⟩ := List.cons.inj heq
        exact hfirst
    | cons z pre =>
        rw [List.cons_append] at heq
        obtain ⟨rfl, htail⟩ := List.cons.inj heq
        exact hrest pre y post htail

def Fine (done : List (List UInt8)) (text : List UInt8) : Prop :=
  text.length < 64 ∧ (done = [] → text ≠ []) ∧ (extension text).length ≤ 3 ∧ scanEnds (leftBy (done ++ [text])) = true

/-- A component that is fine is converted, and found or passed. -/
theorem searchPath_fine {last : Except Fault Search} (hfine : Fine done text) (hold : (leftBy done).length ≤ 64) :
    ∃ name, convertNameToFat16Name text = some name ∧ leftBy (done ++ [text]) = converted (leftBy done) text name ∧
      (leftBy (done ++ [text])).length ≤ 64 ∧ printfReads (ofBytes (leftBy (done ++ [text]))) 65 0 = .ok () ∧
      (∀ r, searchRecord v name = some r → searchPath v last (leftBy done) (text :: comps) =
        .ok ⟨r, [(name, r)], [ofBytes (leftBy (done ++ [text])), ofBytes (leftBy (done ++ [text]))]⟩) ∧
      (searchRecord v name = none → searchPath v last (leftBy done) (text :: comps) =
        (searchPath v last (leftBy (done ++ [text])) comps).map fun s =>
          { s with printed := ofBytes (leftBy (done ++ [text])) :: s.printed }) := by
  obtain ⟨hlen, hempty, hext, hscan⟩ := hfine
  obtain ⟨name, hconv⟩ := (extension_le text).mp hext
  have hleft := leftBy_snoc done hconv
  have hlength := length_converted hold hlen (length_convert hconv)
  rw [← hleft] at hlength
  have hne : ¬ (leftBy done = [] ∧ text = []) := fun h => hempty (leftBy_eq_nil.mp h.1) h.2
  refine ⟨name, hconv, hleft, hlength, ?_, fun r hr => ?_, fun hr => ?_⟩
  · exact (printfReads_ofBytes (leftBy (done ++ [text])) [] 65 (by omega)).mpr hscan
  · rw [searchPath_found hlen hne hconv hr, hleft]
  · rw [searchPath_passed hlen hne hconv hr, hleft]

/-- A component that is not fine goes wrong. -/
theorem fine_of_ok {last : Except Fault Search} {s : Search} (hold : (leftBy done).length ≤ 64)
    (hs : searchPath v last (leftBy done) (text :: comps) = .ok s)
    (hprinted : ∀ fname ∈ s.printed, printfReads fname 65 0 = .ok ()) : Fine done text := by
  obtain ⟨hlen, hempty, name, hconv, hcases⟩ := searchPath_ok hs
  have hleft := leftBy_snoc done hconv
  have hlength := length_converted hold hlen (length_convert hconv)
  rw [← hleft] at hlength hcases
  have hmem : ofBytes (leftBy (done ++ [text])) ∈ s.printed := by
    rcases hcases with ⟨r, -, rfl⟩ | ⟨-, s₁, -, rfl⟩
    · exact List.mem_cons_self
    · exact List.mem_cons_self
  refine ⟨hlen, fun hdone htext => hempty ⟨leftBy_eq_nil.mpr hdone, htext⟩, (extension_le text).mpr ⟨name, hconv⟩, ?_⟩
  exact (printfReads_ofBytes (leftBy (done ++ [text])) [] 65 (by omega)).mp (hprinted _ hmem)

/-- The search goes right exactly when every component is fine that it comes to, and its end is right. -/
theorem searchPath_inBounds (last : Except Fault Search) : ∀ (comps done : List (List UInt8)), (leftBy done).length ≤ 64 →
    ((∃ s, searchPath v last (leftBy done) comps = .ok s ∧ ∀ fname ∈ s.printed, printfReads fname 65 0 = .ok ()) ↔
      (∀ pre text post, comps = pre ++ text :: post → (∀ t ∈ pre, Unlisted v t) → Fine (done ++ pre) text) ∧
      ((∀ t ∈ comps, Unlisted v t) → ∃ s, last = .ok s ∧ ∀ fname ∈ s.printed, printfReads fname 65 0 = .ok ()))
  | [], done, _ => by
      rw [searchPath]
      constructor
      · exact fun h => ⟨fun pre text post heq => by simp at heq, fun _ => h⟩
      · exact fun h => h.2 fun t ht => absurd ht List.not_mem_nil
  | text :: comps, done, hold => by
      rw [forall_split_cons]
      by_cases hfine : Fine done text
      · obtain ⟨name, hconv, hleft, hlength, hreads, hfound, hpassed⟩ := @searchPath_fine v text comps done last hfine hold
        have hrest := searchPath_inBounds last comps (done ++ [text]) hlength
        cases hr : searchRecord v name with
        | some r =>
            have hlisted : ¬ Unlisted v text := by
              rw [← searchRecord_none hconv, hr]
              simp
            refine iff_of_true ⟨_, hfound r hr, ?_⟩ ⟨⟨fun _ => by rwa [List.append_nil], ?_⟩, ?_⟩
            · intro fname hmem
              simp only [List.mem_cons, List.not_mem_nil, or_false, or_self] at hmem
              rw [hmem]
              exact hreads
            · exact fun pre t post _ hpre => absurd (hpre text List.mem_cons_self) hlisted
            · exact fun hall => absurd (hall text List.mem_cons_self) hlisted
        | none =>
            have hunlisted := (searchRecord_none hconv).mp hr
            have hmap : (∃ s, (searchPath v last (leftBy (done ++ [text])) comps).map (fun s =>
                { s with printed := ofBytes (leftBy (done ++ [text])) :: s.printed }) = .ok s ∧
                ∀ fname ∈ s.printed, printfReads fname 65 0 = .ok ()) ↔
                ∃ s, searchPath v last (leftBy (done ++ [text])) comps = .ok s ∧
                  ∀ fname ∈ s.printed, printfReads fname 65 0 = .ok () := by
              cases searchPath v last (leftBy (done ++ [text])) comps with
              | error e => exact iff_of_false (by simp [Except.map]) (by simp)
              | ok s => simp [Except.map, hreads]
            rw [hpassed hr, hmap, hrest]
            simp only [List.forall_mem_cons, hunlisted, true_and, List.append_assoc, List.singleton_append, List.append_nil,
              List.not_mem_nil, false_implies, implies_true, hfine]
      · refine iff_of_false ?_ fun h => hfine ?_
        · rintro ⟨s, hs, hprinted⟩
          exact hfine (fine_of_ok hold hs hprinted)
        · have hfirst := h.1.1 fun t ht => absurd ht List.not_mem_nil
          rwa [List.append_nil] at hfirst

theorem inBounds_iff_fits (v : Volume) (filename : Text) : InBounds v filename ↔ Fits v filename := by
  have hend : (∃ s, searchEnd (unfinished filename) (looked filename).length = .ok s ∧
      ∀ fname ∈ s.printed, printfReads fname 65 0 = .ok ()) ↔
      (unfinished filename).length < 64 ∧ filename.bytes.length % 2 ^ 32 ≠ 2 ^ 31 - 1 := by
    have hlooked := length_looked filename
    rw [searchEnd]
    split_ifs with h64 hsize
    · exact iff_of_false (by simp) fun h => absurd h.1 (Nat.not_lt.mpr h64)
    · exact iff_of_false (by simp) fun h => h.2 (hlooked.mp hsize)
    · exact iff_of_true ⟨_, rfl, by simp⟩ ⟨Nat.not_le.mp h64, fun h => hsize (hlooked.mpr h)⟩
  have hrun := @searchPath_inBounds v (searchEnd (unfinished filename) (looked filename).length) (components filename) []
    (by decide)
  rw [InBounds, findFile_eq, Fits, ← hend]
  exact hrun

/-- Every access to the buffers is right exactly for the paths that fit. -/
theorem inBounds_iff (v : Volume) (filename : Text) : InBounds v filename ↔ Fits v filename := inBounds_iff_fits v filename

theorem not_inBounds_of {f : Text} (h : (findFile v f).toOption.isNone = true) : ¬ InBounds v f := by
  rintro ⟨s, hs, -⟩
  rw [hs] at h
  cases h

/-- The fourth character of `KERNEL` goes behind `fat16Name`, and for the empty path the buffer is read before it is
written. -/
theorem not_inBounds : ¬ InBounds oneFileVolume kernelName.string ∧ ¬ InBounds oneFileVolume ⟨[], by decide⟩ :=
  ⟨not_inBounds_of (by decide +kernel), not_inBounds_of (by decide +kernel)⟩

end HaOS.Fat
