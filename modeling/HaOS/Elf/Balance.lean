import HaOS.Elf.Load
import HaOS.Fat.Gpt
import HaOS.Fat.Search
import HaOS.Fat.SeekHeap

/-!
# What loading a program leaves on the heap

`elf64_load` once more, with its calls of `new_alloc` and `free_alloc` and those of the functions that it calls. The
segments lie off the heap, and what is stored into its blocks fits there, but for the sectors that `fat_seek` reads: these
are stored over what lies behind a block of fewer than 512 bytes.

* `Host` : what a call finds; `seekSectors`, `seekOn`, `readOn`, `openOn`, `loadSegmentOn`, `loadSegmentsOn`,
  `elf64LoadOn` : the functions;
* `Balanced` : the file is there, and it is no program or each seek in it stays among its clusters;
* `elf64LoadOn_spec` : what a call leaves on the heap, and that it comes to what `elf64Load` comes to;
* `balanced_iff` : a call that returns leaves the blocks in use as they were exactly when it is balanced, and the search for
  a partition never does.
-/

namespace HaOS.Elf
open HaOS.Paging HaOS.Fat
open Alloc (Account Heap Block Leaves InUse Ready)

/-- The bounds of the walks on the heap, the disk, the memories that `new_alloc` gives, the number of the task, and the
program, which gets the account and the memory; `none` is a program that does not return. -/
structure Host where
  walk : Nat
  depth : Nat
  volume : Volume
  buffers : Buffers
  task : Nat
  entry : Account × State → Option (Account × State)

/-- The sectors of the FAT that the loop of `fat_seek` reads into `fat_buffer`. -/
def seekSectors (v : Volume) : Nat → Nat → List (List UInt8)
  | 0, _ => []
  | len + 1, clus =>
    if fat16BadCluster ≤ clus then []
    else
      let sector := ataReadDisk v.disk (dword (fatStart v + clus / 256)) 0 512
      sector :: seekSectors v len (wordAt sector (clus % 256))

/-- `fat_seek`; the quotient is by 0 on a volume without clusters. -/
def seekOn (e : Host) (k : Account) (file : FatFilePtr) (pos : Nat) : Option (Account × FatFilePtr) :=
  if fatSizeSector e.volume = 0 then none
  else
    (k.alloc e.walk e.depth e.volume.header.bytesPerSector).bind fun r =>
      let s := seekLoop e.volume (pos / fatSizeSector e.volume) file.currentCluster file
      let k := r.1.storeAll r.2 (seekSectors e.volume (pos / fatSizeSector e.volume) file.currentCluster)
      -- the return on a bad cluster leaves `fat_buffer` as it is
      if s.2 then (k.free e.walk r.2).map fun k => (k, { s.1 with offset := word (pos % fatSizeSector e.volume) })
      else some (k, s.1)

/-- `fat_read` behind the system call; `buf` is the memory of `_buf`. -/
def readOn (e : Host) (k : Account) (buf : Nat → UInt8) (file : FatFilePtr) (size : Nat) : Option (Account × Reading) :=
  if e.volume.header.bytesPerSector / 32 = 0 ∨ fatSizeSector e.volume = 0 then none
  else
    (k.alloc e.walk e.depth (fatSizeSector e.volume)).bind fun r =>
      (r.1.free e.walk r.2).map fun k => (k, fatRead e.volume buf file size)

def sizeofFatFilePtr : Nat := 14

/-- `open`: the pointer to the file, and what it points to. -/
def openOn (e : Host) (k : Account) (filename : List UInt8) : Option (Account × Nat × FatFilePtr) :=
  if e.volume.header.bytesPerSector / 32 = 0 then none
  else
    (fatOpen e.volume filename).bind fun fileptr =>
      (k.alloc e.walk e.depth sizeofFatFilePtr).map fun r => (r.1, r.2, fileptr)

/-- `task_exit`, which returns for the kernel's task only. -/
def taskExit {α : Type} (id : Nat) (a : α) : Option α := if id = 0 then some a else none

def loadSegmentOn (e : Host) (i : Nat) (k : Account) (s : State) (file : FatFilePtr) (prog : Elf64Program) :
    Option (Account × State × FatFilePtr) :=
  if prog.typeSegment ≠ eptLoad then some (k, s, file)
  else
    let s := pageMapv s prog.virtAddr prog.memsize (pagePresent ||| pageReadwrite)
    (storeBytes s prog.virtAddr (List.replicate prog.memsize 0)).bind fun s =>
      (seekOn e k file prog.progOff).bind fun x =>
        (readOn e x.1 (e.buffers.buf i) x.2 prog.filesize).bind fun y =>
          (storeBytes s prog.virtAddr y.2.out).map fun s => (y.1, s, y.2.fptr)

def loadSegmentsOn (e : Host) : Nat → Account → State → FatFilePtr → List Elf64Program →
    Option (Account × State × FatFilePtr)
  | _, k, s, file, [] => some (k, s, file)
  | i, k, s, file, prog :: programs =>
    (loadSegmentOn e i k s file prog).bind fun x => loadSegmentsOn e (i + 1) x.1 x.2.1 x.2.2 programs

/-- `elf64_load` from the program headers on; the program headers are at the pointer `programs`. -/
def runOn (e : Host) (k : Account) (s : State) (file : FatFilePtr) (header : Elf64Header) :
    Option (Nat × Account × State) :=
  (k.alloc e.walk e.depth (56 * header.countProg)).bind fun programs =>
    (seekOn e programs.1 file header.progHeaderTableOff).bind fun x =>
      (readOn e x.1 (e.buffers.buf 1) x.2 (56 * header.countProg)).bind fun y =>
        let list := elf64Programs (Lib.storeBytes e.buffers.programs 0 y.2.out) 0 header.countProg
        (loadSegmentsOn e 2 y.1 s y.2.fptr list).bind fun z =>
          (e.entry (z.1, z.2.1)).bind fun w =>
            (w.1.free e.walk programs.2).map fun k => (0, k, unmapSegments w.2 list)

/-- `elf64_load`: the value, and what the call leaves. -/
def elf64LoadOn (e : Host) (k : Account) (s : State) (filename : List UInt8) : Option (Nat × Account × State) :=
  (k.alloc e.walk e.depth 64).bind fun hdr =>
    (openOn e hdr.1 filename).bind fun file =>
      if file.2.2.currentCluster = 0xFFFFFFFF then
        (file.1.free e.walk file.2.1).bind fun k => taskExit e.task (1, k, s)
      else
        (readOn e file.1 (e.buffers.buf 0) file.2.2 64).bind fun x =>
          let mem := Lib.storeBytes e.buffers.hdr 0 x.2.out
          if WrongMagic mem then
            (x.1.free e.walk hdr.2).bind fun k =>
              (k.free e.walk file.2.1).bind fun k => taskExit e.task (2, k, s)
          else
            (runOn e x.1 s x.2.fptr (elf64Header mem)).bind fun y =>
              (y.2.1.free e.walk hdr.2).bind fun k =>
                (k.free e.walk file.2.1).bind fun k => taskExit e.task (y.1, k, y.2.2)

/-! ## When a call is balanced -/

/-- A walk from the cluster `c` to the position `pos` looks at clusters only. -/
def InChain (v : Volume) (c pos : Nat) : Prop :=
  ∀ k < pos / fatSizeSector v, (fatGetNextCluster v)^[k] c < fat16BadCluster

def headerBytes (v : Volume) (m : Buffers) (file : FatFilePtr) : Nat → UInt8 :=
  Lib.storeBytes m.hdr 0 (fatRead v (m.buf 0) file 64).out

def programHeaders (v : Volume) (m : Buffers) (file : FatFilePtr) : List Elf64Program :=
  let header := elf64Header (headerBytes v m file)
  let r := fatReadAt v (m.buf 1) (fatRead v (m.buf 0) file 64).fptr header.progHeaderTableOff (56 * header.countProg)
  elf64Programs (Lib.storeBytes m.programs 0 r.out) 0 header.countProg

/-- Each seek of a program that is loaded stays among the clusters of its file. -/
def SeeksInChain (v : Volume) (m : Buffers) (file : FatFilePtr) : Prop :=
  InChain v file.currentCluster (elf64Header (headerBytes v m file)).progHeaderTableOff ∧
    ∀ prog ∈ programHeaders v m file, prog.typeSegment = eptLoad → InChain v file.currentCluster prog.progOff

/-- The file is found, and it is no program or all its seeks stay in it. -/
def Balanced (v : Volume) (m : Buffers) (filename : List UInt8) : Prop :=
  ∃ file, fatOpen v filename = some file ∧ file.currentCluster ≠ 0xFFFFFFFF ∧
    (WrongMagic (headerBytes v m file) ∨ SeeksInChain v m file)

/-- The program gives back what it takes. -/
def Tidy (entry : Account × State → Option (Account × State)) : Prop :=
  ∀ x y, entry x = some y →
    x.1.asked <:+ y.1.asked ∧ ∀ m, InUse x.1.heap m → y.1.Plain → InUse y.1.heap m

/-- The fields of the boot sector that sizes are computed from are a word and a byte, and a sector of the FAT has room in a
block of `bytes_per_sector` bytes. -/
structure Sized (v : Volume) : Prop where
  room : 512 ≤ v.header.bytesPerSector
  word : v.header.bytesPerSector < 2 ^ 16
  byte : v.header.sectorPerCluster < 2 ^ 8

variable {e : Host} {k k' : Account} {s s' : State} {file file' : FatFilePtr} {prog : Elf64Program}
  {programs : List Elf64Program} {buf : Nat → UInt8} {r : Reading} {filename : List UInt8} {i pos size value : Nat}
  {v : Volume}

/-! ## The accesses to the file -/

theorem seekLoop_snd (v : Volume) (len c : Nat) (fptr : FatFilePtr) :
    (seekLoop v len c fptr).2 = true ↔ ∀ k < len, (fatGetNextCluster v)^[k] c < fat16BadCluster := by
  constructor
  · intro h k hk
    by_contra hbad
    rw [seekLoop_bad len c fptr ⟨k, hk, not_lt.mp hbad⟩] at h
    cases h
  · intro h
    cases len with
    | zero => rfl
    | succ n => rw [seekLoop_clusters n c fptr fun k hk => h k (Nat.lt_succ_of_le hk)]

theorem Sized.requests (hv : Sized v) : v.header.bytesPerSector + Alloc.sizeofAllocBlock < 2 ^ 31 ∧
    fatSizeSector v + Alloc.sizeofAllocBlock < 2 ^ 31 := by
  have h17 : Alloc.sizeofAllocBlock = 17 := rfl
  have hword := hv.word
  have hprod : fatSizeSector v ≤ 2 ^ 8 * 2 ^ 16 := Nat.mul_le_mul hv.byte.le hword.le
  omega

theorem length_seekSectors (v : Volume) : ∀ (len clus : Nat), ∀ bs ∈ seekSectors v len clus, bs.length = 512
  | 0, _, bs, hbs => absurd hbs List.not_mem_nil
  | len + 1, clus, bs, hbs => by
      rw [seekSectors] at hbs
      split_ifs at hbs
      · exact absurd hbs List.not_mem_nil
      · rcases List.mem_cons.mp hbs with heq | hbs
        · rw [heq, length_ataReadDisk]
        · exact length_seekSectors v len _ bs hbs

/-- A seek leaves its buffer on the heap when it meets a bad cluster. -/
theorem seekOn_leaves (hv : Sized e.volume) (h : seekOn e k file pos = some (k', file')) :
    Leaves k k' 0 (InChain e.volume file.currentCluster pos) ∧ file' = fatSeek e.volume file pos := by
  unfold seekOn at h
  split_ifs at h with hzero
  obtain ⟨⟨k₁, p⟩, h1, h⟩ := Option.bind_eq_some_iff.mp h
  have hb : e.volume.header.bytesPerSector ≠ 0 := fun hb => hzero (by rw [fatSizeSector, hb, Nat.mul_zero])
  obtain ⟨halloc, hroom⟩ := (Leaves.refl k).alloc hv.requests.1 h1
  have hsectors : ∀ bs ∈ seekSectors e.volume (pos / fatSizeSector e.volume) file.currentCluster,
      bs.length ≤ e.volume.header.bytesPerSector := by
    intro bs hbs
    rw [length_seekSectors _ _ _ bs hbs]
    exact hv.room
  have hleaves := halloc.storeAll hroom hb hsectors
  have hsnd := seekLoop_snd e.volume (pos / fatSizeSector e.volume) file.currentCluster file
  cases hs : seekLoop e.volume (pos / fatSizeSector e.volume) file.currentCluster file with
  | mk f good =>
      rw [hs] at h hsnd
      cases good with
      | true =>
          obtain ⟨k₂, h2, heq⟩ := Option.map_eq_some_iff.mp h
          obtain ⟨rfl, rfl⟩ := Prod.mk.inj heq
          exact ⟨(hleaves.free h2).congr (iff_of_true trivial (hsnd.mp rfl)), by simp only [fatSeek, hs]⟩
      | false =>
          obtain ⟨rfl, rfl⟩ := Prod.mk.inj (Option.some.inj h)
          have hbad : ¬ InChain e.volume file.currentCluster pos := fun hin => Bool.false_ne_true (hsnd.mpr hin)
          refine ⟨(hleaves.forget fun m hm hplain => (hroom m hm ?_ hb).1).congr (iff_of_false id hbad),
            by simp only [fatSeek, hs]⟩
          rwa [Account.Plain, Alloc.storeAll_asked] at hplain

theorem readOn_leaves (hv : Sized e.volume) (h : readOn e k buf file size = some (k', r)) :
    Leaves k k' 0 True ∧ r = fatRead e.volume buf file size := by
  unfold readOn at h
  split_ifs at h
  obtain ⟨⟨k₁, p⟩, h1, h⟩ := Option.bind_eq_some_iff.mp h
  obtain ⟨k₂, h2, heq⟩ := Option.map_eq_some_iff.mp h
  obtain ⟨rfl, rfl⟩ := Prod.mk.inj heq
  exact ⟨((Leaves.refl k).alloc hv.requests.2 h1).1.free h2, rfl⟩

theorem fatRead_currentCluster : (fatRead v buf file size).fptr.currentCluster = file.currentCluster :=
  readLoop_currentCluster

theorem openOn_spec {p : Nat} (h : openOn e k filename = some (k', p, file)) :
    fatOpen e.volume filename = some file ∧ k.alloc e.walk e.depth sizeofFatFilePtr = some (k', p) := by
  unfold openOn at h
  split_ifs at h
  obtain ⟨fileptr, hopen, h⟩ := Option.bind_eq_some_iff.mp h
  obtain ⟨x, hx, heq⟩ := Option.map_eq_some_iff.mp h
  cases heq
  exact ⟨hopen, hx⟩

/-! ## The segments -/

theorem loadSegmentOn_spec (hv : Sized e.volume) (h : loadSegmentOn e i k s file prog = some (k', s', file')) :
    loadSegment e.volume (e.buffers.buf i) s file prog = some (s', file') ∧
      file'.currentCluster = file.currentCluster ∧
      Leaves k k' 0 (prog.typeSegment = eptLoad → InChain e.volume file.currentCluster prog.progOff) := by
  unfold loadSegmentOn at h
  split_ifs at h with hload
  · cases h
    exact ⟨loadSegment_skip hload, rfl, (Leaves.refl k).congr (iff_of_true trivial fun hl => absurd hl hload)⟩
  · obtain ⟨s₁, hzero, h⟩ := Option.bind_eq_some_iff.mp h
    obtain ⟨⟨k₁, f₁⟩, hseek, h⟩ := Option.bind_eq_some_iff.mp h
    obtain ⟨⟨k₂, r⟩, hread, h⟩ := Option.bind_eq_some_iff.mp h
    obtain ⟨s₂, hstore, heq⟩ := Option.map_eq_some_iff.mp h
    cases heq
    obtain ⟨hl1, rfl⟩ := seekOn_leaves hv hseek
    obtain ⟨hl2, rfl⟩ := readOn_leaves hv hread
    have hload' := not_not.mp hload
    refine ⟨?_, ?_, (hl1.trans hl2).congr ⟨fun hin _ => hin.1, fun hin => ⟨hin hload', trivial⟩⟩⟩
    · rw [loadSegment, if_neg hload]
      simp only [hzero, fatReadAt]
      rw [hstore, Option.map_some]
    · exact fatRead_currentCluster.trans fatSeek_currentCluster.1

theorem loadSegmentsOn_spec (hv : Sized e.volume) (h : loadSegmentsOn e i k s file programs = some (k', s', file')) :
    loadSegments e.volume e.buffers.buf i s file programs = some (s', file') ∧
      Leaves k k' 0 (∀ prog ∈ programs, prog.typeSegment = eptLoad →
        InChain e.volume file.currentCluster prog.progOff) := by
  induction programs generalizing i k s file with
  | nil =>
      cases h
      exact ⟨rfl, (Leaves.refl _).congr (iff_of_true trivial fun _ hp => absurd hp List.not_mem_nil)⟩
  | cons prog programs ih =>
      obtain ⟨⟨k₁, s₁, f₁⟩, hstep, h⟩ := Option.bind_eq_some_iff.mp h
      obtain ⟨hload, hcluster, hl1⟩ := loadSegmentOn_spec hv hstep
      obtain ⟨hrest, hl2⟩ := ih h
      rw [show f₁.currentCluster = file.currentCluster from hcluster] at hl2
      refine ⟨?_, (hl1.trans hl2).congr ?_⟩
      · simp only [loadSegments, hload]
        exact hrest
      · rw [List.forall_mem_cons]

/-! ## The call -/

theorem taskExit_some {α : Type} {id : Nat} {a b : α} (h : taskExit id a = some b) : a = b := by
  unfold taskExit at h
  split_ifs at h
  exact Option.some.inj h

theorem Tidy.leaves (h : Tidy e.entry) {x y : Account × State} (hr : e.entry x = some y) : Leaves x.1 y.1 0 True := by
  obtain ⟨hasked, hholds⟩ := h x y hr
  refine ⟨hasked, fun m hm hplain => ⟨0, ?_, iff_of_true trivial rfl⟩⟩
  rw [zero_add, zero_add]
  exact hholds m hm hplain

/-- From the program headers on, what stays on the heap is what the seeks leave there. -/
theorem runOn_spec (hentry : Tidy e.entry) (hv : Sized e.volume)
    (h : runOn e k s (fatRead e.volume (e.buffers.buf 0) file 64).fptr
      (elf64Header (headerBytes e.volume e.buffers file)) = some (value, k', s')) :
    Leaves k k' 0 (SeeksInChain e.volume e.buffers file) ∧
      ∃ s₁ file', loadSegments e.volume e.buffers.buf 2 s (fatReadAt e.volume (e.buffers.buf 1)
          (fatRead e.volume (e.buffers.buf 0) file 64).fptr
          (elf64Header (headerBytes e.volume e.buffers file)).progHeaderTableOff
          (56 * (elf64Header (headerBytes e.volume e.buffers file)).countProg)).fptr
        (programHeaders e.volume e.buffers file) = some (s₁, file') ∧ ∃ x y, x.2 = s₁ ∧ e.entry x = some y := by
  obtain ⟨⟨k₁, p⟩, halloc, h⟩ := Option.bind_eq_some_iff.mp h
  obtain ⟨⟨k₂, f₂⟩, hseek, h⟩ := Option.bind_eq_some_iff.mp h
  obtain ⟨⟨k₃, r₃⟩, hread, h⟩ := Option.bind_eq_some_iff.mp h
  obtain ⟨⟨k₄, s₄, f₄⟩, hload, h⟩ := Option.bind_eq_some_iff.mp h
  obtain ⟨⟨k₅, s₅⟩, hrun, h⟩ := Option.bind_eq_some_iff.mp h
  obtain ⟨k₆, hfree, heq⟩ := Option.map_eq_some_iff.mp h
  obtain ⟨-, heq⟩ := Prod.mk.inj heq
  obtain ⟨rfl, -⟩ := Prod.mk.inj heq
  have hprograms : 56 * (elf64Header (headerBytes e.volume e.buffers file)).countProg + Alloc.sizeofAllocBlock < 2 ^ 31 := by
    have h17 : Alloc.sizeofAllocBlock = 17 := rfl
    have hcount : (elf64Header (headerBytes e.volume e.buffers file)).countProg < 256 ^ 2 := Lib.littleEndian_lt _ 2 56
    omega
  obtain ⟨hl1, rfl⟩ := seekOn_leaves hv hseek
  obtain ⟨hl2, hreading⟩ := readOn_leaves hv hread
  rw [hreading] at hload
  obtain ⟨hsegments, hl3⟩ := loadSegmentsOn_spec hv hload
  have hcluster : (fatRead e.volume (e.buffers.buf 1) (fatSeek e.volume (fatRead e.volume (e.buffers.buf 0) file 64).fptr
      (elf64Header (headerBytes e.volume e.buffers file)).progHeaderTableOff)
      (56 * (elf64Header (headerBytes e.volume e.buffers file)).countProg)).fptr.currentCluster = file.currentCluster :=
    (fatRead_currentCluster.trans fatSeek_currentCluster.1).trans fatRead_currentCluster
  have hfirst : (fatRead e.volume (e.buffers.buf 0) file 64).fptr.currentCluster = file.currentCluster :=
    fatRead_currentCluster
  dsimp only at hl1 hl3
  rw [hfirst] at hl1
  rw [hcluster] at hl3
  have hall := ((((Leaves.refl k).alloc hprograms halloc).1.trans hl1).trans hl2).trans hl3
  refine ⟨((hall.trans (hentry.leaves hrun)).free hfree).congr ?_, s₄, f₄, hsegments, _, _, rfl, hrun⟩
  simp only [true_and, and_true]
  exact Iff.rfl

theorem elf64LoadOn_spec (hentry : Tidy e.entry) (hv : Sized e.volume)
    (h : elf64LoadOn e k s filename = some (value, k', s')) :
    Leaves k k' 0 (Balanced e.volume e.buffers filename) ∧
      ∃ file, fatOpen e.volume filename = some file ∧
        (elf64Load e.volume e.buffers s file = .notFound ∨ elf64Load e.volume e.buffers s file = .notElf ∨
          ∃ s₁, elf64Load e.volume e.buffers s file = .loaded s₁ ∧ ∃ x y, x.2 = s₁ ∧ e.entry x = some y) := by
  obtain ⟨⟨k₁, hdr⟩, halloc, h⟩ := Option.bind_eq_some_iff.mp h
  obtain ⟨⟨k₂, fptr, file⟩, hopen, h⟩ := Option.bind_eq_some_iff.mp h
  obtain ⟨hopen, hptr⟩ := openOn_spec hopen
  obtain ⟨hl1, hhdr⟩ := (Leaves.refl k).alloc (by decide) halloc
  obtain ⟨hl2, -⟩ := hl1.alloc (by decide) hptr
  have hbalanced : Balanced e.volume e.buffers filename ↔ file.currentCluster ≠ 0xFFFFFFFF ∧
      (WrongMagic (headerBytes e.volume e.buffers file) ∨ SeeksInChain e.volume e.buffers file) := by
    unfold Balanced
    simp only [hopen, Option.some.injEq, exists_eq_left']
  dsimp only at h
  split_ifs at h with hfound
  · -- `hdr` is forgotten
    obtain ⟨k₃, hclose, h⟩ := Option.bind_eq_some_iff.mp h
    cases taskExit_some h
    have hbetween := ((Leaves.refl k₁).alloc (by decide) hptr).1.free hclose
    have hnull : ∀ m, InUse k.heap m → k'.Plain → hdr ≠ 0 :=
      fun m hm hplain => (hhdr m hm (hbetween.plain hplain) (by decide)).1
    refine ⟨((hl2.free hclose).forget hnull).congr ?_, file, hopen, .inl (if_pos hfound)⟩
    rw [hbalanced]
    exact iff_of_false id fun hf => hf.1 hfound
  · obtain ⟨⟨k₃, r₃⟩, hread, h⟩ := Option.bind_eq_some_iff.mp h
    obtain ⟨hl3, rfl⟩ := readOn_leaves hv hread
    dsimp only at h
    have hl := hl2.trans hl3
    rw [add_left_comm] at hl
    split_ifs at h with hmagic
    · obtain ⟨k₄, hfree, h⟩ := Option.bind_eq_some_iff.mp h
      obtain ⟨k₅, hclose, h⟩ := Option.bind_eq_some_iff.mp h
      cases taskExit_some h
      refine ⟨((hl.free hfree).free hclose).congr ?_, file, hopen, .inr (.inl ?_)⟩
      · rw [hbalanced]
        exact iff_of_true ⟨trivial, trivial⟩ ⟨hfound, .inl hmagic⟩
      · exact (if_neg hfound).trans (if_pos hmagic)
    · obtain ⟨⟨value', k₄, s₄⟩, hrun, h⟩ := Option.bind_eq_some_iff.mp h
      obtain ⟨k₅, hfree, h⟩ := Option.bind_eq_some_iff.mp h
      obtain ⟨k₆, hclose, h⟩ := Option.bind_eq_some_iff.mp h
      cases taskExit_some h
      obtain ⟨hseeks, s₁, file', hload, hentered⟩ := runOn_spec hentry hv hrun
      refine ⟨(((hl.trans hseeks).free hfree).free hclose).congr ?_, file, hopen, .inr (.inr ⟨s₁, ?_, hentered⟩)⟩
      · rw [hbalanced]
        exact ⟨fun hin => ⟨hfound, .inr hin.2⟩, fun hin => ⟨⟨trivial, trivial⟩, hin.2.resolve_left hmagic⟩⟩
      · unfold programHeaders headerBytes at hload
        simp only [elf64Load, if_neg hfound, if_neg hmagic, hload]

/-- From a list of blocks, `gpt_get_lba_start_volume` never leaves the blocks in use as they were; `elf64_load`, where it
returns, leaves them so exactly when the file is found and, if it is a program, all seeks stay in it. -/
theorem balanced_iff (hentry : Tidy e.entry) (hv : Sized e.volume) {h : Heap} {bs : List Block} (hready : Ready h bs) :
    (∀ walk depth disk tmp g g' k' index lba,
      gptGetLbaStartVolume walk depth disk tmp g ⟨h, []⟩ index = some (g', k', lba) → k'.Plain →
        ¬ ∀ a, k'.heap.Live a ↔ h.Live a) ∧
    ∀ k' s s' filename value, elf64LoadOn e ⟨h, []⟩ s filename = some (value, k', s') → k'.Plain →
      ((∀ a, k'.heap.Live a ↔ h.Live a) ↔ Balanced e.volume e.buffers filename) := by
  refine ⟨?_, ?_⟩
  · intro walk depth disk tmp g g' k' index lba hr hplain
    exact ((gpt_leaves hr).live_iff hready hplain).not.mpr id
  · intro k' s s' filename value hr hplain
    exact (elf64LoadOn_spec hentry hv hr).1.live_iff hready hplain

/-! ## Small calls -/

def smallHost (v : Volume) : Host := ⟨8, 8, v, emptyBuffers, 0, some⟩

def directoryVolume : Volume :=
  { oneFileVolume with disk := fun lba i => if lba = 2 ∧ i < 32 then (someName.onDisk ++ [0x10]).getD i 0 else 0 }

theorem ready_firstHeap : Ready firstHeap [⟨0x1000, true⟩] :=
  ⟨heapReady_firstHeap.tiled, heapReady_firstHeap.base, heapReady_firstHeap.top⟩

theorem tidy_smallHost (v : Volume) : Tidy (smallHost v).entry := by
  intro x y h
  cases h
  exact ⟨List.suffix_refl _, fun _ hm _ => hm⟩

/-- A partition, and a file that is no program. -/
theorem balanced_iff_oneFile :
    (∃ r, gptGetLbaStartVolume 8 8 oneFileVolume.disk (fun _ => 0) ⟨[], 0⟩ ⟨firstHeap, []⟩ 0 = some r ∧
      ¬ ∀ a, r.2.1.heap.Live a ↔ firstHeap.Live a) ∧
    ∃ r, elf64LoadOn (smallHost oneFileVolume) ⟨firstHeap, []⟩ (kernelCreateNewPage fun _ _ => 0) someName.filename =
      some r ∧ ((∀ a, r.2.1.heap.Live a ↔ firstHeap.Live a) ↔
        Balanced oneFileVolume emptyBuffers someName.filename) := by
  have hv : Sized oneFileVolume := ⟨by decide, by decide, by decide⟩
  have h := balanced_iff (tidy_smallHost oneFileVolume) hv ready_firstHeap
  refine ⟨?_, ?_⟩
  · have hrun : ((gptGetLbaStartVolume 8 8 oneFileVolume.disk (fun _ => 0) ⟨[], 0⟩ ⟨firstHeap, []⟩ 0).map
        fun r => r.2.1.asked.all fun x => Alloc.roomy 8 x.before x.after) = some true := by decide +kernel
    obtain ⟨r, hr, hcheck⟩ := Option.map_eq_some_iff.mp hrun
    exact ⟨r, hr, h.1 _ _ _ _ _ _ _ _ _ hr (Account.plain hcheck)⟩
  · have hrun : ((elf64LoadOn (smallHost oneFileVolume) ⟨firstHeap, []⟩ (kernelCreateNewPage fun _ _ => 0)
        someName.filename).map fun r => r.2.1.asked.all fun x => Alloc.roomy 8 x.before x.after) = some true := by
      decide +kernel
    obtain ⟨r, hr, hcheck⟩ := Option.map_eq_some_iff.mp hrun
    exact ⟨r, hr, h.2 _ _ _ _ _ hr (Account.plain hcheck)⟩

/-- The search for a partition keeps a buffer, and the load of a directory the memory for the header: the first block of the
heap is in use behind the calls. -/
theorem not_balanced_directory : ¬ firstHeap.Live 0xFFFFFFFF80200000 ∧
    (∃ r, gptGetLbaStartVolume 8 8 oneFileVolume.disk (fun _ => 0) ⟨[], 0⟩ ⟨firstHeap, []⟩ 0 = some r ∧
      r.2.1.heap.Live 0xFFFFFFFF80200000) ∧
    ∃ r, elf64LoadOn (smallHost directoryVolume) ⟨firstHeap, []⟩ (kernelCreateNewPage fun _ _ => 0) someName.filename =
      some r ∧ r.1 = 1 ∧ r.2.1.heap.Live 0xFFFFFFFF80200000 := by
  have hm : InUse firstHeap _ := ⟨_, ready_firstHeap, rfl⟩
  refine ⟨fun h => absurd h.1 (by decide), ?_, ?_⟩
  · have hrun : ((gptGetLbaStartVolume 8 8 oneFileVolume.disk (fun _ => 0) ⟨[], 0⟩ ⟨firstHeap, []⟩ 0).map fun r =>
        (r.2.1.asked.all (fun x => Alloc.roomy 8 x.before x.after), r.2.1.heap.heapStart,
          (r.2.1.heap.mem r.2.1.heap.heapStart).available)) = some (true, 0xFFFFFFFF80200000, 0) := by decide +kernel
    obtain ⟨r, hr, heq⟩ := Option.map_eq_some_iff.mp hrun
    obtain ⟨hcheck, hstart, hav⟩ := Prod.mk.inj heq |>.imp_right Prod.mk.inj
    obtain ⟨lost, hholds, -⟩ := (gpt_leaves hr).2 _ hm (Account.plain hcheck)
    have hlive := hholds.live_start hav
    rw [hstart] at hlive
    exact ⟨r, hr, hlive⟩
  · have hrun : ((elf64LoadOn (smallHost directoryVolume) ⟨firstHeap, []⟩ (kernelCreateNewPage fun _ _ => 0)
        someName.filename).map fun r => (r.2.1.asked.all (fun x => Alloc.roomy 8 x.before x.after), r.1,
          r.2.1.heap.heapStart, (r.2.1.heap.mem r.2.1.heap.heapStart).available)) =
        some (true, 1, 0xFFFFFFFF80200000, 0) := by
      decide +kernel
    obtain ⟨r, hr, heq⟩ := Option.map_eq_some_iff.mp hrun
    obtain ⟨hcheck, hvalue, heq⟩ := Prod.mk.inj heq |>.imp_right Prod.mk.inj
    obtain ⟨hstart, hav⟩ := Prod.mk.inj heq
    have hv : Sized directoryVolume := ⟨by decide, by decide, by decide⟩
    obtain ⟨lost, hholds, -⟩ := (elf64LoadOn_spec (tidy_smallHost _) hv hr).1.2 _ hm (Account.plain hcheck)
    have hlive := hholds.live_start hav
    rw [hstart] at hlive
    exact ⟨r, hr, hvalue, hlive⟩

end HaOS.Elf
