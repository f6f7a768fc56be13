import HaOS.Elf.Segments
import HaOS.Fat.Access
import HaOS.Fat.Open
import HaOS.Paging.Memory

/-!
# Loading the segments of a program (`elf64_load` in `kernel/elf.c`)

* `elf64Load` : `elf64_load` up to the end of the loop that loads the segments;
* `Image` : the file is a program; `Loaded` : what a segment should be in memory;
* `Loadable` : each access to the file fits, and there are frames for all segments;
* `loadSegment_spec`, `loadSegments_spec` : a segment, and the loop, from any addresses that are in use;
* `loaded_of_loadable` : a program that is loadable is loaded.
-/

namespace HaOS.Elf
open HaOS.Paging HaOS.Fat
open Lib (slice littleEndian)

/-! ## The loader -/

/-- The fields of `elf64_header_t` that loading uses. -/
structure Elf64Header where
  progHeaderTableOff : Nat
  countProg : Nat

def elf64Header (mem : Nat → UInt8) : Elf64Header where
  progHeaderTableOff := littleEndian mem 32 8
  countProg := littleEndian mem 56 2

/-- The `elf64_program_t` at the index `p`. -/
def elf64Program (mem : Nat → UInt8) (p : Nat) : Elf64Program where
  typeSegment := littleEndian mem p 4
  progOff := littleEndian mem (p + 8) 8
  virtAddr := littleEndian mem (p + 16) 8
  filesize := littleEndian mem (p + 32) 8
  memsize := littleEndian mem (p + 40) 8

def elf64Programs (mem : Nat → UInt8) (p count : Nat) : List Elf64Program :=
  (List.range count).map fun i => elf64Program mem (p + 56 * i)

/-- The first byte is not `0x7F`, or the next ones are not `"ELF"`. -/
def WrongMagic (mem : Nat → UInt8) : Prop := mem 0 ≠ 0x7F ∨ strncmp [0x45, 0x4C, 0x46] (slice mem 1 3) 3 = 1

instance (mem : Nat → UInt8) : Decidable (WrongMagic mem) := inferInstanceAs (Decidable (_ ∨ _))

/-- The memories that `new_alloc` gave: for the header, for the program headers, and for `_buf` in each read. -/
structure Buffers where
  hdr : Nat → UInt8
  programs : Nat → UInt8
  buf : Nat → Nat → UInt8

/-- `none` is a page fault. -/
def loadSegment (v : Volume) (buf : Nat → UInt8) (s : State) (file : FatFilePtr) (prog : Elf64Program) :
    Option (State × FatFilePtr) :=
  if prog.typeSegment ≠ eptLoad then some (s, file)
  else
    let s := pageMapv s prog.virtAddr prog.memsize (pagePresent ||| pageReadwrite)
    -- `memzero`
    match storeBytes s prog.virtAddr (List.replicate prog.memsize 0) with
    | none => none
    | some s =>
      let r := fatReadAt v buf file prog.progOff prog.filesize
      (storeBytes s prog.virtAddr r.out).map fun s => (s, r.fptr)

/-- The loop over the program headers; `i` counts the reads. -/
def loadSegments (v : Volume) (buf : Nat → Nat → UInt8) : Nat → State → FatFilePtr → List Elf64Program →
    Option (State × FatFilePtr)
  | _, s, file, [] => some (s, file)
  | i, s, file, prog :: programs =>
    match loadSegment v (buf i) s file prog with
    | none => none
    | some (s, file) => loadSegments v buf (i + 1) s file programs

inductive LoadResult where
  | notFound
  | notElf
  | fault
  | loaded (s : State)

/-- `elf64_load` until it calls the program; `file` is what `open` returned. -/
def elf64Load (v : Volume) (m : Buffers) (s : State) (file : FatFilePtr) : LoadResult :=
  if file.currentCluster = 0xFFFFFFFF then .notFound
  else
    let r := fatRead v (m.buf 0) file 64
    let hdr := Lib.storeBytes m.hdr 0 r.out
    if WrongMagic hdr then .notElf
    else
      let header := elf64Header hdr
      let r := fatReadAt v (m.buf 1) r.fptr header.progHeaderTableOff (56 * header.countProg)
      let programs := elf64Programs (Lib.storeBytes m.programs 0 r.out) 0 header.countProg
      match loadSegments v m.buf 2 s r.fptr programs with
      | none => .fault
      | some (s, _) => .loaded s

/-! ## Programs in files -/

/-- The header of the program in the file with the clusters `cs`. -/
def imageHeader (v : Volume) (cs : List Nat) : Elf64Header := elf64Header (fileByte v cs)

def imagePrograms (v : Volume) (cs : List Nat) : List Elf64Program :=
  elf64Programs (fileByte v cs) (imageHeader v cs).progHeaderTableOff (imageHeader v cs).countProg

/-- The segment lies in the file, and in whole pages from its address on. -/
structure SegmentOk (v : Volume) (cs : List Nat) (prog : Elf64Program) : Prop where
  size : prog.filesize ≤ prog.memsize
  inside : prog.progOff + prog.filesize ≤ cs.length * fatSizeSector v
  aligned : prog.virtAddr % pageSize = 0
  last : prog.virtAddr + prog.memsize ≤ 2 ^ 64

def PagesApart (programs : List Elf64Program) : Prop :=
  programs.Pairwise fun p q => ∀ x ∈ segmentPages [p], ∀ y ∈ segmentPages [q], vpn x ≠ vpn y

structure Image (v : Volume) (cs : List Nat) : Prop where
  magic : slice (fileByte v cs) 0 4 = [0x7F, 0x45, 0x4C, 0x46]
  table : (imageHeader v cs).progHeaderTableOff + 56 * (imageHeader v cs).countProg ≤ cs.length * fatSizeSector v
  segments : ∀ prog ∈ imagePrograms v cs, prog.typeSegment = eptLoad → SegmentOk v cs prog
  apart : PagesApart (imagePrograms v cs)

def Loaded (v : Volume) (cs : List Nat) (s : State) (prog : Elf64Program) : Prop :=
  (∀ i < prog.filesize, loadByte s (prog.virtAddr + i) = some (fileByte v cs (prog.progOff + i))) ∧
    ∀ i, prog.filesize ≤ i → i < prog.memsize → loadByte s (prog.virtAddr + i) = some 0

def segmentAccesses (programs : List Elf64Program) : List (Nat × Nat) :=
  programs.flatMap fun prog => if prog.typeSegment ≠ eptLoad then [] else [(prog.progOff, prog.filesize)]

/-- There are frames for the pages of the segments, none of which is the window. -/
structure Mappable (s : State) (programs : List Elf64Program) : Prop where
  off : ∀ v ∈ segmentPages programs, ¬ OnWindow v
  frames : needed segmentFlags 1 s.has (segmentPages programs) ≤ s.free.card

/-- The accesses to the file fit: to the program headers, and then to each segment. -/
structure Loadable (v : Volume) (cs : List Nat) (s : State) : Prop where
  mappable : Mappable s (imagePrograms v cs)
  accesses : AccessesFit (fatSizeSector v) 0 0
    (((imageHeader v cs).progHeaderTableOff, 56 * (imageHeader v cs).countProg) :: segmentAccesses (imagePrograms v cs))

variable {v : Volume} {cs : List Nat} {s t : State} {A : Nat → Prop} {file : FatFilePtr} {prog : Elf64Program}
  {programs : List Elf64Program} {buf : Nat → UInt8} {a k m : Nat} {fdir : FatFileDirectory}

/-! ## One segment -/

theorem segmentPages_of_load (hload : prog.typeSegment = eptLoad) :
    segmentPages [prog] = rangePages prog.virtAddr prog.memsize := by
  simp only [segmentPages, List.flatMap_cons, List.flatMap_nil, List.append_nil, hload, ne_eq, not_true_eq_false,
    if_false]

theorem segmentPages_of_skip (hload : prog.typeSegment ≠ eptLoad) : segmentPages [prog] = [] := by
  simp only [segmentPages, List.flatMap_cons, List.flatMap_nil, List.append_nil, if_pos hload]

theorem loadSegment_skip (hload : prog.typeSegment ≠ eptLoad) : loadSegment v buf s file prog = some (s, file) :=
  if_pos hload

theorem Mappable.skip (h : Mappable s (prog :: programs)) (hload : prog.typeSegment ≠ eptLoad) : Mappable s programs := by
  obtain ⟨hoff, hframes⟩ := h
  rw [segmentPages_cons, segmentPages_of_skip hload, List.nil_append] at hoff hframes
  exact ⟨hoff, hframes⟩

theorem Mappable.same (h : Mappable s programs) (hst : SameTables s t) : Mappable t programs where
  off := h.off
  frames := by
    rw [hst.free]
    exact (hst.needed _).trans_le h.frames

/-- What a segment that is loaded leaves: its bytes, in addresses of its own, and everything else as it was. -/
structure SegmentStep (v : Volume) (cs : List Nat) (A : Nat → Prop) (s t : State) (prog : Elf64Program) : Prop where
  loaded : Loaded v cs t prog
  owned : Owned (fun a => A a ∨ InRange prog.virtAddr prog.memsize a) t
  kept : ∀ a, A a → loadByte t a = loadByte s a
  walk : ∀ w, ¬ OnWindow w → (∀ x ∈ segmentPages [prog], vpn w ≠ vpn x) → walk t w = walk s w

theorem loadSegment_spec (buf : Nat → UInt8) (hload : prog.typeSegment = eptLoad) (hok : SegmentOk v cs prog)
    (hcan : ∀ a, InRange prog.virtAddr prog.memsize a → Canonical a) (hown : Owned A s)
    (h0 : ∀ w ∈ segmentPages [prog], walk s w = 0) (hm : Mappable s (prog :: programs))
    (hread : (fatReadAt v buf file prog.progOff prog.filesize).out = slice (fileByte v cs) prog.progOff prog.filesize) :
    ∃ t, loadSegment v buf s file prog = some (t, (fatReadAt v buf file prog.progOff prog.filesize).fptr) ∧
      SegmentStep v cs A s t prog ∧ Mappable t programs := by
  obtain ⟨hsize, -, halign, hend⟩ := hok
  obtain ⟨hoff, hframes⟩ := hm
  rw [segmentPages_of_load hload] at h0
  rw [segmentPages_cons, segmentPages_of_load hload] at hoff hframes
  have hoff' : ∀ w ∈ rangePages prog.virtAddr prog.memsize, ¬ OnWindow w := fun w hw => hoff w (List.mem_append_left _ hw)
  obtain ⟨⟨new, lost, hmap⟩, hneed⟩ := mapping_of_needed hown.shape (by decide) hoff' hframes
  obtain ⟨hown', hkeep⟩ := hown.map hmap (by decide) (by decide) halign hend hcan h0
  -- `memzero`
  have hzero : (List.replicate prog.memsize (0 : UInt8)).length = prog.memsize := List.length_replicate ..
  obtain ⟨u, hu, hsu, hzeros, hother⟩ := hown'.storeBytes (fun i hi => .inr ⟨Nat.le_add_right _ i, by omega⟩)
    (show prog.virtAddr + (List.replicate prog.memsize (0 : UInt8)).length ≤ 2 ^ 64 by omega)
  unfold segmentFlags at hu
  -- the read
  have hlen : (slice (fileByte v cs) prog.progOff prog.filesize).length = prog.filesize := Lib.length_slice ..
  obtain ⟨t, ht, hst, hbytes, hrest⟩ := (hown'.same hsu).storeBytes (fun i hi => .inr ⟨Nat.le_add_right _ i, by omega⟩)
    (show prog.virtAddr + (slice (fileByte v cs) prog.progOff prog.filesize).length ≤ 2 ^ 64 by omega)
  refine ⟨t, ?_, ⟨⟨fun i hi => ?_, fun i hlo hi => ?_⟩, (hown'.same hsu).same hst, fun a ha => ?_, fun w hw hne => ?_⟩, ?_⟩
  · rw [loadSegment, if_neg (not_not.mpr hload)]
    simp only [hu, hread, ht, Option.map_some]
  · rw [hbytes i (by omega), Lib.getElem?_slice hi]
  · rw [hrest _ (.inr ⟨Nat.le_add_right _ i, by omega⟩) (.inr (by omega)), hzeros i (by omega),
      List.getElem?_replicate_of_lt hi]
  · have hout : a < prog.virtAddr ∨ prog.virtAddr + prog.memsize ≤ a := by
      have hnot := hown.not_inRange ha halign hend h0
      unfold InRange at hnot
      omega
    rw [hrest a (.inl ha) (by omega), hother a (.inl ha) (by omega), hkeep a ha]
  · rw [segmentPages_of_load hload] at hne
    rw [hst.walk, hsu.walk, hmap.walk_other hw hne]
  · have hmapped : Mappable (pageMapv s prog.virtAddr prog.memsize segmentFlags) programs :=
      ⟨fun w hw => hoff w (List.mem_append_right _ hw), hneed⟩
    exact (hmapped.same hsu).same hst

/-! ## The loop -/

theorem segmentAccesses_of_load (hload : prog.typeSegment = eptLoad) :
    segmentAccesses (prog :: programs) = (prog.progOff, prog.filesize) :: segmentAccesses programs := by
  unfold segmentAccesses
  rw [List.flatMap_cons, if_neg (not_not.mpr hload), List.singleton_append]

theorem segmentAccesses_of_skip (hload : prog.typeSegment ≠ eptLoad) :
    segmentAccesses (prog :: programs) = segmentAccesses programs := by
  unfold segmentAccesses
  rw [List.flatMap_cons, if_pos hload, List.nil_append]

theorem mem_segmentPages {w : Nat} (hw : w ∈ segmentPages programs) : ∃ prog ∈ programs, w ∈ segmentPages [prog] := by
  obtain ⟨prog, hprog, hmem⟩ := List.mem_flatMap.mp hw
  refine ⟨prog, hprog, ?_⟩
  rw [segmentPages, List.flatMap_cons, List.flatMap_nil, List.append_nil]
  exact hmem

theorem Loaded.congr (h : Loaded v cs s prog)
    (hkeep : ∀ a, InRange prog.virtAddr prog.memsize a → loadByte t a = loadByte s a) (hle : prog.filesize ≤ prog.memsize) :
    Loaded v cs t prog := by
  refine ⟨fun i hi => ?_, fun i hlo hi => ?_⟩
  · rw [hkeep _ ⟨Nat.le_add_right _ i, by omega⟩]
    exact h.1 i hi
  · rw [hkeep _ ⟨Nat.le_add_right _ i, by omega⟩]
    exact h.2 i hlo hi

/-- The segments are loaded one after another, and the bytes that were in use before stay. -/
theorem loadSegments_spec (bufs : Nat → Nat → UInt8) (hv : Fat16 v) (hown : Owned A s) (hcur : Cursor v cs file k m)
    (hok : ∀ prog ∈ programs, prog.typeSegment = eptLoad → SegmentOk v cs prog)
    (hcan : ∀ prog ∈ programs, prog.typeSegment = eptLoad → ∀ a, InRange prog.virtAddr prog.memsize a → Canonical a)
    (hapart : PagesApart programs) (h0 : ∀ w ∈ segmentPages programs, walk s w = 0) (hm : Mappable s programs)
    (hfit : AccessesFit (fatSizeSector v) k m (segmentAccesses programs)) (i : Nat) :
    ∃ t file', loadSegments v bufs i s file programs = some (t, file') ∧
      (∀ prog ∈ programs, prog.typeSegment = eptLoad → Loaded v cs t prog) ∧ ∀ a, A a → loadByte t a = loadByte s a := by
  induction programs generalizing A s file k m i with
  | nil => exact ⟨s, file, rfl, fun _ h => absurd h List.not_mem_nil, fun _ _ => rfl⟩
  | cons prog programs ih =>
      obtain ⟨hok1, hoks⟩ := List.forall_mem_cons.mp hok
      obtain ⟨hcan1, hcans⟩ := List.forall_mem_cons.mp hcan
      obtain ⟨hapart1, haparts⟩ := List.pairwise_cons.mp hapart
      by_cases hload : prog.typeSegment = eptLoad
      · replace hok1 := hok1 hload
        rw [segmentAccesses_of_load hload] at hfit
        rw [segmentPages_cons, List.forall_mem_append] at h0
        obtain ⟨hread, k', m', hcur', hfit'⟩ := hcur.access (bufs i) hv hok1.inside hfit
        obtain ⟨u, hu, hstep, hmu⟩ := loadSegment_spec (bufs i) hload hok1 (hcan1 hload) hown h0.1 hm hread
        have h0' : ∀ w ∈ segmentPages programs, walk u w = 0 := by
          intro w hw
          obtain ⟨q, hq, hwq⟩ := mem_segmentPages hw
          rw [hstep.walk w (hmu.off w hw) fun x hx => (hapart1 q hq x hx w hwq).symm]
          exact h0.2 w hw
        obtain ⟨t, file', ht, hloaded, hkept⟩ := ih hstep.owned hcur' hoks hcans haparts h0' hmu hfit' (i + 1)
        refine ⟨t, file', ?_, List.forall_mem_cons.mpr ⟨fun _ => ?_, hloaded⟩, fun a ha => ?_⟩
        · simp only [loadSegments, hu]
          exact ht
        · exact hstep.loaded.congr (fun a ha => hkept a (.inr ha)) hok1.size
        · rw [hkept a (.inl ha), hstep.kept a ha]
      · rw [segmentAccesses_of_skip hload] at hfit
        rw [segmentPages_cons, segmentPages_of_skip hload, List.nil_append] at h0
        obtain ⟨t, file', ht, hloaded, hkept⟩ := ih hown hcur hoks hcans haparts h0 (hm.skip hload) hfit (i + 1)
        refine ⟨t, file', ?_, List.forall_mem_cons.mpr ⟨fun h => absurd h hload, hloaded⟩, hkept⟩
        simp only [loadSegments, loadSegment_skip hload]
        exact ht

/-- A loop that ends has met no address that the processor refuses. -/
theorem canonical_of_loadSegments {bufs : Nat → Nat → UInt8} {i : Nat} {r : State × FatFilePtr}
    (hok : ∀ prog ∈ programs, prog.typeSegment = eptLoad → SegmentOk v cs prog)
    (h : loadSegments v bufs i s file programs = some r) :
    ∀ prog ∈ programs, prog.typeSegment = eptLoad → ∀ a, InRange prog.virtAddr prog.memsize a → Canonical a := by
  induction programs generalizing s file i with
  | nil => exact fun _ h => absurd h List.not_mem_nil
  | cons prog programs ih =>
      obtain ⟨hok1, hoks⟩ := List.forall_mem_cons.mp hok
      rw [loadSegments] at h
      cases hstep : loadSegment v (bufs i) s file prog with
      | none =>
          rw [hstep] at h
          cases h
      | some x =>
          rw [hstep] at h
          refine List.forall_mem_cons.mpr ⟨fun hload a ha => ?_, ih hoks h⟩
          have hend := (hok1 hload).last
          rw [loadSegment, if_neg (not_not.mpr hload)] at hstep
          cases hzero : storeBytes (pageMapv s prog.virtAddr prog.memsize (pagePresent ||| pageReadwrite)) prog.virtAddr
              (List.replicate prog.memsize 0) with
          | none =>
              simp only [hzero] at hstep
              cases hstep
          | some u =>
              have hall := canonical_of_storeBytes hzero (by rwa [List.length_replicate])
              rw [List.length_replicate] at hall
              obtain ⟨hlo, hhi⟩ := ha
              rw [← Nat.add_sub_cancel' hlo]
              exact hall _ (by omega)

/-! ## The headers -/

theorem elf64Header_congr {f g : Nat → UInt8} (h : ∀ i < 64, f i = g i) : elf64Header f = elf64Header g := by
  have hfield : ∀ p n, p + n ≤ 64 → littleEndian f p n = littleEndian g p n := fun p n hp =>
    Lib.littleEndian_congr fun i hi => h (p + i) (by omega)
  rw [elf64Header, elf64Header, hfield 32 8 (by decide), hfield 56 2 (by decide)]

theorem elf64Program_congr {f g : Nat → UInt8} {p q : Nat} (h : ∀ i < 56, f (p + i) = g (q + i)) :
    elf64Program f p = elf64Program g q := by
  have hfield : ∀ o n, o + n ≤ 56 → littleEndian f (p + o) n = littleEndian g (q + o) n := fun o n ho =>
    Lib.littleEndian_congr fun i hi => by
      rw [Nat.add_assoc, Nat.add_assoc]
      exact h (o + i) (by omega)
  rw [elf64Program, elf64Program, hfield 8 8 (by decide), hfield 16 8 (by decide), hfield 32 8 (by decide),
    hfield 40 8 (by decide)]
  have htype := hfield 0 4 (by decide)
  rw [Nat.add_zero, Nat.add_zero] at htype
  rw [htype]

theorem elf64Programs_congr {f g : Nat → UInt8} {p q count : Nat} (h : ∀ i < 56 * count, f (p + i) = g (q + i)) :
    elf64Programs f p count = elf64Programs g q count := by
  unfold elf64Programs
  refine List.map_congr_left fun n hn => elf64Program_congr fun i hi => ?_
  have hlt := List.mem_range.mp hn
  rw [Nat.add_assoc, Nat.add_assoc]
  exact h _ (by omega)

theorem storeBytes_slice (mem f : Nat → UInt8) (p n : Nat) :
    ∀ i < n, Lib.storeBytes mem 0 (slice f p n) i = f (p + i) := by
  intro i hi
  have h := Lib.storeBytes_in (m := mem) (a := 0) (Lib.getElem?_slice (f := f) (p := p) hi)
  rwa [Nat.zero_add] at h

theorem not_wrongMagic {mem : Nat → UInt8} (h : slice mem 0 4 = [0x7F, 0x45, 0x4C, 0x46]) : ¬ WrongMagic mem := by
  have hfirst : mem 0 = 0x7F := Option.some.inj ((Lib.getElem?_slice (p := 0) (by decide : 0 < 4)).symm.trans
    (congrArg (·[0]?) h))
  have hrest : slice mem 1 3 = [0x45, 0x4C, 0x46] := congrArg List.tail h
  unfold WrongMagic
  rw [hfirst, hrest]
  decide

/-! ## The program -/

/-- Where the header and the program headers can be read, what is left is the loop, with the file's program headers. -/
theorem elf64Load_iff (b : Buffers) (hv : Fat16 v) (hc : FileChain v (fatFileOpen fdir).currentCluster cs)
    (hi : Image v cs) (hfit : AccessesFit (fatSizeSector v) 0 0
      (((imageHeader v cs).progHeaderTableOff, 56 * (imageHeader v cs).countProg) ::
        segmentAccesses (imagePrograms v cs))) :
    ∃ file k m, Cursor v cs file k m ∧ AccessesFit (fatSizeSector v) k m (segmentAccesses (imagePrograms v cs)) ∧
      ∀ s t, elf64Load v b s (fatFileOpen fdir) = .loaded t ↔
        ∃ file', loadSegments v b.buf 2 s file (imagePrograms v cs) = some (t, file') := by
  obtain ⟨-, hS, -⟩ := hv.sizeSector
  have hlen : 0 + 64 ≤ cs.length * fatSizeSector v := by
    have hmul := Nat.mul_le_mul_right (fatSizeSector v) hc.length_pos
    omega
  obtain ⟨hhdr, k, m, hcur, hfit⟩ := (cursor_fatFileOpen hc).access (b.buf 0) hv hlen (accessesFit_header hS hfit)
  rw [← fatRead_fatFileOpen] at hhdr hcur
  obtain ⟨htable, k', m', hcur', hfit'⟩ := hcur.access (b.buf 1) hv hi.table hfit
  refine ⟨_, k', m', hcur', hfit', fun s t => ?_⟩
  have hfound : (fatFileOpen fdir).currentCluster ≠ 0xFFFFFFFF := by
    have hfirst := hc.first
    unfold fat16BadCluster at hfirst
    omega
  have hmem : ∀ i < 64, Lib.storeBytes b.hdr 0 (fatRead v (b.buf 0) (fatFileOpen fdir) 64).out i = fileByte v cs i := by
    intro i hi
    rw [hhdr, storeBytes_slice _ _ _ _ i hi, Nat.zero_add]
  have hmagic : ¬ WrongMagic (Lib.storeBytes b.hdr 0 (fatRead v (b.buf 0) (fatFileOpen fdir) 64).out) := by
    apply not_wrongMagic
    rw [← hi.magic]
    exact Lib.slice_congr fun i hi => hmem (0 + i) (by omega)
  have hheader : elf64Header (Lib.storeBytes b.hdr 0 (fatRead v (b.buf 0) (fatFileOpen fdir) 64).out) =
      imageHeader v cs := elf64Header_congr hmem
  have hprograms : elf64Programs (Lib.storeBytes b.programs 0 (fatReadAt v (b.buf 1)
      (fatRead v (b.buf 0) (fatFileOpen fdir) 64).fptr (imageHeader v cs).progHeaderTableOff
      (56 * (imageHeader v cs).countProg)).out) 0 (imageHeader v cs).countProg = imagePrograms v cs := by
    apply elf64Programs_congr
    intro i hi
    rw [htable, Nat.zero_add]
    exact storeBytes_slice _ _ _ _ i hi
  simp only [elf64Load, if_neg hfound, if_neg hmagic, hheader, hprograms]
  split
  · next h => simp [h]
  · next h => simp [h]

/-- A program that is loadable is loaded, if its addresses are such that the processor accepts; and once the loop is over,
each of its segments is in memory. -/
theorem loaded_of_loadable (b : Buffers) (hv : Fat16 v) (hc : FileChain v (fatFileOpen fdir).currentCluster cs)
    (hi : Image v cs) (hs : TreeShaped s) (h0 : ∀ w ∈ segmentPages (imagePrograms v cs), walk s w = 0)
    (hfit : Loadable v cs s) :
    (∀ t, elf64Load v b s (fatFileOpen fdir) = .loaded t →
      ∀ prog ∈ imagePrograms v cs, prog.typeSegment = eptLoad → Loaded v cs t prog) ∧
    ((∀ prog ∈ imagePrograms v cs, prog.typeSegment = eptLoad →
      ∀ a, InRange prog.virtAddr prog.memsize a → Canonical a) →
        ∃ t, elf64Load v b s (fatFileOpen fdir) = .loaded t) := by
  obtain ⟨file, k, m, hcur, hrest, hload⟩ := elf64Load_iff b hv hc hi hfit.accesses
  -- before the loop no address is of interest
  have hnone : Owned (fun _ => False) s :=
    ⟨hs, fun _ h => h.elim, fun _ h => h.elim, fun _ h => h.elim, fun _ _ _ h => h.elim⟩
  have hloop := loadSegments_spec b.buf hv hnone hcur hi.segments
  refine ⟨fun t ht => ?_, fun hcan => ?_⟩
  · obtain ⟨file', heq⟩ := (hload s t).mp ht
    obtain ⟨u, file'', hu, hall, -⟩ :=
      hloop (canonical_of_loadSegments hi.segments heq) hi.apart h0 hfit.mappable hrest 2
    rw [heq, Option.some.injEq, Prod.mk.injEq] at hu
    rw [hu.1]
    exact hall
  · obtain ⟨t, file', ht, -⟩ := hloop hcan hi.apart h0 hfit.mappable hrest 2
    exact ⟨t, (hload s t).mpr ⟨file', ht⟩⟩

/-! ## A small program -/

/-- A segment of one byte at 4 MB, with a zero behind it. It is at the start of the file or, with `second`, of its second
cluster. -/
def elfBytes (second : Bool) : List UInt8 :=
  [0x7F, 0x45, 0x4C, 0x46] ++ List.replicate 28 0 ++ [64] ++ List.replicate 23 0 ++ [1] ++ List.replicate 7 0 ++
    [1] ++ List.replicate 8 0 ++ [if second then 2 else 0] ++ List.replicate 8 0 ++ [0x40] ++ List.replicate 13 0 ++
    [1] ++ List.replicate 7 0 ++ [2] ++ List.replicate 15 0

/-- The file's clusters are 2 and 3, of one sector each. -/
def elfVolume (second : Bool) : Volume where
  header := ⟨512, 1, 1, 1, 16, 1⟩
  fatLbaStart := 0
  disk lba i :=
    if lba = 1 then if i = 4 then 3 else if i = 6 ∨ i = 7 then 0xFF else 0
    else if lba = 3 then (elfBytes second).getD i 0 else 0

def elfFile : FatFileDirectory := ⟨0x20, 0, 2⟩

def emptyBuffers : Buffers := ⟨fun _ => 0, fun _ => 0, fun _ _ => 0⟩

deriving instance DecidableEq for Elf64Program

theorem imagePrograms_elfVolume (second : Bool) :
    imagePrograms (elfVolume second) [2, 3] = [⟨eptLoad, if second then 512 else 0, 0x400000, 1, 2⟩] := by
  cases second <;> decide +kernel

theorem segmentPages_elfVolume (second : Bool) : segmentPages (imagePrograms (elfVolume second) [2, 3]) = [0x400000] := by
  rw [imagePrograms_elfVolume]
  cases second <;> decide +kernel

theorem fileChain_elfVolume (second : Bool) : FileChain (elfVolume second) (fatFileOpen elfFile).currentCluster [2, 3] := by
  refine ⟨by decide, .link ?_ (.last ?_)⟩
  · cases second <;> decide +kernel
  · cases second <;> decide +kernel

theorem image_elfVolume (second : Bool) : Image (elfVolume second) [2, 3] where
  magic := by cases second <;> decide +kernel
  table := by cases second <;> decide +kernel
  segments := by
    rw [imagePrograms_elfVolume]
    intro prog hprog _
    obtain rfl := List.mem_singleton.mp hprog
    have haligned : 0x400000 % pageSize = 0 := by decide
    have hlast : 0x400000 + 2 ≤ 2 ^ 64 := by decide
    refine ⟨Nat.le_succ 1, ?_, haligned, hlast⟩
    cases second <;> decide
  apart := by
    rw [imagePrograms_elfVolume]
    exact List.pairwise_singleton _ _

theorem unmapped_elfVolume (second : Bool) :
    ∀ w ∈ segmentPages (imagePrograms (elfVolume second) [2, 3]), walk (kernelCreateNewPage fun _ _ => 0) w = 0 := by
  rw [segmentPages_elfVolume, List.forall_mem_singleton]
  decide +kernel

theorem loadable_elfVolume : Loadable (elfVolume false) [2, 3] (kernelCreateNewPage fun _ _ => 0) := by
  have hoff : ∀ w ∈ pageList 0x400000 2, ¬ OnWindow w := by decide +kernel
  have hframes : needed segmentFlags 1 (kernelCreateNewPage fun _ _ => 0).has (pageList 0x400000 2) ≤
      (kernelCreateNewPage fun _ _ => 0).free.card :=
    (enough_pageMapv (treeShaped_kernelCreateNewPage fun _ _ => 0) (by decide)).1.mp (by decide +kernel)
  refine ⟨⟨?_, ?_⟩, by decide +kernel⟩
  · rw [segmentPages_elfVolume]
    exact hoff
  · rw [segmentPages_elfVolume]
    exact hframes

theorem loaded_elfVolume : ∃ t,
    elf64Load (elfVolume false) emptyBuffers (kernelCreateNewPage fun _ _ => 0) (fatFileOpen elfFile) = .loaded t ∧
      ∀ prog ∈ imagePrograms (elfVolume false) [2, 3], prog.typeSegment = eptLoad →
        Loaded (elfVolume false) [2, 3] t prog := by
  have h := loaded_of_loadable emptyBuffers ⟨rfl, by decide, by decide⟩ (fileChain_elfVolume false)
    (image_elfVolume false) (treeShaped_kernelCreateNewPage fun _ _ => 0) (unmapped_elfVolume false) loadable_elfVolume
  obtain ⟨t, ht⟩ := h.2 fun prog hprog _ a ha => by
    rw [imagePrograms_elfVolume] at hprog
    obtain rfl := List.mem_singleton.mp hprog
    exact .inl (Nat.lt_trans ha.2 (by decide))
  exact ⟨t, ht, h.1 t ht⟩

def LoadResult.state : LoadResult → Option State
  | .loaded s => some s
  | _ => none

/-- A segment at byte 512 of the file is filled from byte 0: `fat_seek` leaves the pointer in the first cluster. -/
theorem not_loaded_elfVolume :
    ¬ ∀ (v : Volume) (cs : List Nat) (fdir : FatFileDirectory) (b : Buffers) (s t : State), Fat16 v →
      FileChain v (fatFileOpen fdir).currentCluster cs → Image v cs → TreeShaped s →
      (∀ w ∈ segmentPages (imagePrograms v cs), walk s w = 0) → elf64Load v b s (fatFileOpen fdir) = .loaded t →
      ∀ prog ∈ imagePrograms v cs, prog.typeSegment = eptLoad → Loaded v cs t prog := by
  intro h
  have hbyte : (elf64Load (elfVolume true) emptyBuffers (kernelCreateNewPage fun _ _ => 0)
      (fatFileOpen elfFile)).state.bind (loadByte · 0x400000) = some 0x7F := by
    decide +kernel
  cases hload : elf64Load (elfVolume true) emptyBuffers (kernelCreateNewPage fun _ _ => 0) (fatFileOpen elfFile) with
  | loaded t =>
      have hall := h _ _ _ _ _ t ⟨rfl, by decide, by decide⟩ (fileChain_elfVolume true) (image_elfVolume true)
        (treeShaped_kernelCreateNewPage fun _ _ => 0) (unmapped_elfVolume true) hload
      rw [imagePrograms_elfVolume, List.forall_mem_singleton] at hall
      have hfirst := (hall rfl).1 0 Nat.one_pos
      rw [hload] at hbyte
      have hsame : some (fileByte (elfVolume true) [2, 3] 512) = some 0x7F := hfirst.symm.trans hbyte
      exact absurd hsame (by decide +kernel)
  | _ =>
      rw [hload] at hbyte
      cases hbyte

end HaOS.Elf
