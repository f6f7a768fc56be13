import HaOS.Fat.Driver

/-!
# The drive and its driver (`kernel/fs/disk.c`, `kernel/fs/disk.asm`)

The drive is what the driver relies on: it stays busy for some polls after a command, and then transfers the 256
little-endian words of the sector whose number its registers hold.

* `Drive`, `portOutb`, `portInb`, `portOutw`, `portInw` : the drive behind its ports;
* `ataInitPio`, `ataReadDisk`, `ataWriteDisk` : the driver; `none` is a call that has not returned within its bounds;
* `ataReadDisk_eq` : a read ends, and stores the bytes that `Fat.ataReadDisk` lists;
* `reads_exactly` : the bytes of the disk from a byte on.
-/

namespace HaOS.Disk
open Lib (slice storeBytes littleEndian bytesOf)

structure Drive where
  sectors : Nat → Nat → UInt8
  -- the registers at 0x1F2 to 0x1F6
  count : Nat
  low : Nat
  mid : Nat
  high : Nat
  select : Nat
  /-- polls of the status that still say busy -/
  busy : Nat
  /-- words of the sector that were transferred -/
  pos : Nat
  /-- commands so far, and the polls that each takes -/
  commands : Nat
  delay : Nat → Nat

def Drive.lba (d : Drive) : Nat := d.low + 2 ^ 8 * d.mid + 2 ^ 16 * d.high + 2 ^ 24 * (d.select % 16)

def ataPrimaryBus : Nat := 0x1F0
def ataPioCommand : Nat := 7
def ataPioStatus : Nat := 7
def ataPioData : Nat := 0

/-! ## The ports -/

/-- A command, 0x20 to read and 0x30 to write, is about one sector. -/
def portOutb (d : Drive) (port data : Nat) : Drive :=
  match port with
  | 0x1F2 => { d with count := data % 256 }
  | 0x1F3 => { d with low := data % 256 }
  | 0x1F4 => { d with mid := data % 256 }
  | 0x1F5 => { d with high := data % 256 }
  | 0x1F6 => { d with select := data % 256 }
  | 0x1F7 => { d with pos := 0, busy := d.delay d.commands, commands := d.commands + 1 }
  | _ => d

def portInb (d : Drive) (port : Nat) : Nat × Drive :=
  if port = 0x1F7 then if d.busy = 0 then (0x58, d) else (0x80, { d with busy := d.busy - 1 }) else (0, d)

def portInw (d : Drive) (port : Nat) : Nat × Drive :=
  if port = 0x1F0 then (littleEndian (d.sectors d.lba) (2 * d.pos) 2, { d with pos := d.pos + 1 }) else (0, d)

def portOutw (d : Drive) (port data : Nat) : Drive :=
  if port = 0x1F0 then
    { d with
      sectors := Function.update d.sectors d.lba (storeBytes (d.sectors d.lba) (2 * d.pos) (bytesOf data 2))
      pos := d.pos + 1 }
  else d

/-! ## The driver -/

def ataInitPio (d : Drive) (lba : Nat) : Drive :=
  let dx := ataPrimaryBus + 6
  let al := 0xE0
  let ecx := lba >>> 24
  let cl := ecx &&& 0x0F
  let al := al + cl
  let d := portOutb d dx al
  let dx := ataPrimaryBus + 2
  let d := portOutb d dx 1
  let dx := dx + 1
  let eax := lba
  let d := portOutb d dx eax
  let dx := dx + 1
  let eax := eax >>> 8
  let d := portOutb d dx eax
  let dx := dx + 1
  let eax := eax >>> 8
  portOutb d dx eax

/-- `while( port_inb( .. ) & 0x80 );`. -/
def waitReady : Nat → Drive → Option Drive
  | 0, _ => none
  | polls + 1, d =>
    let (status, d) := portInb d (ataPrimaryBus ||| ataPioStatus)
    if status &&& 0x80 ≠ 0 then waitReady polls d else some d

/-- The drive, the sector buffer of the driver, and the memory of the caller. -/
structure Machine where
  drive : Drive
  tmpBuffer : Nat → UInt8
  mem : Nat → UInt8

/-- The loop that fills `tmp_buffer`, with the words that are left. -/
def readWords : Nat → Nat → Drive → (Nat → UInt8) → Drive × (Nat → UInt8)
  | 0, _, d, tmp => (d, tmp)
  | n + 1, p, d, tmp =>
    let (w, d) := portInw d (ataPrimaryBus ||| ataPioData)
    readWords n (p + 2) d (storeBytes tmp p (bytesOf w 2))

/-- The loop that copies from index `i` of `tmp_buffer`; it ends the function when `size` is 0. -/
def copyBytes (tmp : Nat → UInt8) : Nat → Nat → (Nat → UInt8) → Nat → Nat → (Nat → UInt8) × Nat × Nat
  | 0, _, mem, buf, size => (mem, buf, size)
  | n + 1, i, mem, buf, size =>
    let mem := storeBytes mem buf [tmp i]
    let buf := buf + 1
    let size := size - 1
    if size = 0 then (mem, buf, size) else copyBytes tmp n (i + 1) mem buf size

/-- `ata_read_disk`; the rounds bound the sectors, and the polls each wait for the drive. -/
def ataReadDisk (polls : Nat) : Nat → Machine → Nat → Nat → Nat → Nat → Option Machine
  | 0, m, _, _, _, size => if size = 0 then some m else none
  | rounds + 1, m, lba, offset, buf, size =>
    if size = 0 then some m
    else
      let d := ataInitPio m.drive lba
      let d := portOutb d (ataPrimaryBus ||| ataPioCommand) 0x20
      (waitReady polls d).bind fun d =>
        let (d, tmp) := readWords 256 0 d m.tmpBuffer
        let (mem, buf, size) := copyBytes tmp (512 - offset) offset m.mem buf size
        ataReadDisk polls rounds ⟨d, tmp, mem⟩ (dword (lba + 1)) 0 buf size

/-- A round of the loop that sends words: it takes one off `size`. -/
def writeWord (mem : Nat → UInt8) : Drive × Nat × Nat → Drive × Nat × Nat
  | (d, buf, size) => (portOutw d (ataPrimaryBus ||| ataPioData) (littleEndian mem buf 2), buf + 2, qsub size 1)

/-- `ata_write_disk`, which does not use its `offset`. -/
def ataWriteDisk (polls : Nat) : Nat → Machine → Nat → Nat → Nat → Nat → Option Machine
  | 0, m, _, _, _, size => if size = 0 then some m else none
  | rounds + 1, m, lba, offset, buf, size =>
    if size = 0 then some m
    else
      let d := ataInitPio m.drive lba
      let d := portOutb d (ataPrimaryBus ||| ataPioCommand) 0x30
      (waitReady polls d).bind fun d =>
        let sent := (writeWord m.mem)^[256] (d, buf, size)
        let m := { m with drive := sent.1 }
        if sent.2.2 = 0 then some m else ataWriteDisk polls rounds m (dword (lba + 1)) offset sent.2.1 sent.2.2

/-! ## A command -/

variable {d : Drive} {m : Machine} {tmp mem : Nat → UInt8} {polls lba offset buf size : Nat}

theorem waitReady_eq : ∀ {polls : Nat} {d : Drive}, d.busy < polls → waitReady polls d = some { d with busy := 0 }
  | polls + 1, d, h => by
      by_cases hb : d.busy = 0
      · have hin : portInb d (ataPrimaryBus ||| ataPioStatus) = (0x58, d) := if_pos hb
        rw [waitReady, hin]
        dsimp only
        rw [if_neg (by decide), ← hb]
      · have hin : portInb d (ataPrimaryBus ||| ataPioStatus) = (0x80, { d with busy := d.busy - 1 }) := if_neg hb
        rw [waitReady, hin]
        dsimp only
        rw [if_pos (by decide)]
        exact waitReady_eq (by show d.busy - 1 < polls; omega)

/-- The registers hold the low 28 bits of the address. -/
theorem lba_ataInitPio (d : Drive) (lba : Nat) : (ataInitPio d lba).lba = lba % 2 ^ 28 := by
  have hand : lba >>> 24 &&& 0x0F = lba / 2 ^ 24 % 2 ^ 4 := by
    rw [Nat.shiftRight_eq_div_pow]
    exact Nat.and_two_pow_sub_one_eq_mod _ 4
  show lba % 256 + 2 ^ 8 * (lba >>> 8 % 256) + 2 ^ 16 * (lba >>> 8 >>> 8 % 256) +
    2 ^ 24 * ((0xE0 + (lba >>> 24 &&& 0x0F)) % 256 % 16) = _
  rw [hand, Nat.shiftRight_eq_div_pow, Nat.shiftRight_eq_div_pow]
  omega

/-- What a command leaves when the drive is ready: the drive is about to transfer the first word of a sector. -/
structure Ready (d : Drive) (sectors : Nat → Nat → UInt8) (delay : Nat → Nat) (lba : Nat) : Prop where
  sectors : d.sectors = sectors
  delay : d.delay = delay
  lba : d.lba = lba % 2 ^ 28
  pos : d.pos = 0

theorem ready_command (d : Drive) (lba data : Nat) : ∃ w d', Ready d' d.sectors d.delay lba ∧ d'.commands = d.commands + 1 ∧
    ∀ polls, w ≤ polls →
      waitReady polls (portOutb (ataInitPio d lba) (ataPrimaryBus ||| ataPioCommand) data) = some d' := by
  refine ⟨d.delay d.commands + 1,
    { ataInitPio d lba with pos := 0, busy := 0, commands := d.commands + 1 }, ⟨rfl, rfl, ?_, rfl⟩, rfl, fun polls hw => ?_⟩
  · exact lba_ataInitPio d lba
  · rw [waitReady_eq (by exact hw)]
    rfl

/-! ## Reading -/

theorem readWords_eq : ∀ (n p : Nat) (d : Drive) (tmp : Nat → UInt8),
    readWords n p d tmp = ({ d with pos := d.pos + n }, storeBytes tmp p (slice (d.sectors d.lba) (2 * d.pos) (2 * n)))
  | 0, p, d, tmp => by rw [readWords, Nat.mul_zero, Lib.slice_zero, Lib.storeBytes_nil, Nat.add_zero]
  | n + 1, p, d, tmp => by
      have hin : portInw d (ataPrimaryBus ||| ataPioData) =
          (littleEndian (d.sectors d.lba) (2 * d.pos) 2, { d with pos := d.pos + 1 }) := rfl
      have hstore := Lib.storeBytes_append tmp p (slice (d.sectors d.lba) (2 * d.pos) 2)
        (slice (d.sectors d.lba) (2 * d.pos + 2) (2 * n))
      rw [Lib.length_slice, ← Lib.slice_add, show 2 + 2 * n = 2 * (n + 1) by omega] at hstore
      rw [readWords, hin]
      dsimp only
      rw [Lib.bytesOf_littleEndian, readWords_eq n (p + 2) { d with pos := d.pos + 1 }]
      refine Prod.ext ?_ hstore
      show ({ d with pos := d.pos + 1 + n } : Drive) = { d with pos := d.pos + (n + 1) }
      rw [Nat.add_assoc, Nat.add_comm 1]

/-- The copy ends with the sector or when `size` is 0. -/
theorem copyBytes_eq : ∀ (n i : Nat) (mem : Nat → UInt8) (buf : Nat) {size : Nat}, 0 < size →
    copyBytes tmp n i mem buf size =
      (storeBytes mem buf (slice tmp i (min size n)), buf + min size n, size - min size n)
  | 0, i, mem, buf, size, _ => by
      rw [copyBytes, Nat.min_zero, Lib.slice_zero, Lib.storeBytes_nil]
      rfl
  | n + 1, i, mem, buf, size, hs => by
      have hfirst : slice tmp i 1 = [tmp i] := rfl
      rw [copyBytes]
      by_cases h1 : size - 1 = 0
      · obtain rfl : size = 1 := by omega
        rw [if_pos h1, Nat.min_eq_left (by omega), hfirst]
      · have hmin : min size (n + 1) = 1 + min (size - 1) n := by omega
        rw [if_neg h1, copyBytes_eq n (i + 1) _ _ (by omega), hmin, Lib.slice_add, hfirst, ← Lib.storeBytes_append,
          List.length_singleton, Nat.add_assoc, Nat.sub_sub]

/-- The call returns `m'`, when its bounds are large enough. -/
def Returns (call : Nat → Nat → Option Machine) (m' : Machine) : Prop :=
  ∃ w, ∀ polls rounds, w ≤ polls → w ≤ rounds → call polls rounds = some m'

/-- A pass reads a sector and copies what is wanted of it; the call goes on from there. -/
theorem ataReadDisk_pass (m : Machine) (lba offset buf : Nat) (hs : 0 < size) : ∃ w m',
    m'.drive.sectors = m.drive.sectors ∧
    m'.mem = storeBytes m.mem buf (slice (Fat.ataSector m.drive.sectors lba) offset (min size (512 - offset))) ∧
    ∀ polls rounds, w ≤ polls → ataReadDisk polls (rounds + 1) m lba offset buf size =
      ataReadDisk polls rounds m' (dword (lba + 1)) 0 (buf + min size (512 - offset)) (size - min size (512 - offset)) := by
  obtain ⟨w, d, hd, -, hready⟩ := ready_command m.drive lba 0x20
  let tmp := storeBytes m.tmpBuffer 0 (slice (m.drive.sectors (lba % 2 ^ 28)) (2 * 0) (2 * 256))
  have hwords : readWords 256 0 d m.tmpBuffer = ({ d with pos := 0 + 256 }, tmp) := by
    rw [readWords_eq]
    refine Prod.ext ?_ ?_
    · rw [hd.pos]
    · rw [hd.pos, hd.lba, hd.sectors]
  have htmp : slice tmp offset (min size (512 - offset)) =
      slice (Fat.ataSector m.drive.sectors lba) offset (min size (512 - offset)) := by
    refine Lib.slice_congr fun i hi => ?_
    have hstored := Lib.storeBytes_in (m := m.tmpBuffer) (a := 0)
      (Lib.getElem?_slice (f := m.drive.sectors (lba % 2 ^ 28)) (p := 2 * 0) (show offset + i < 2 * 256 by omega))
    rw [Nat.mul_zero, Nat.zero_add] at hstored
    exact hstored
  refine ⟨w, ⟨{ d with pos := 0 + 256 }, tmp, storeBytes m.mem buf (slice tmp offset (min size (512 - offset)))⟩,
    hd.sectors, by rw [htmp], fun polls rounds hw => ?_⟩
  rw [ataReadDisk, if_neg hs.ne']
  dsimp only
  rw [hready polls hw, Option.bind_some, hwords]
  dsimp only
  rw [copyBytes_eq _ _ _ _ hs]

/-- A read ends, and stores the bytes that are listed for it. -/
theorem ataReadDisk_loop : ∀ (n : Nat) (m : Machine) (lba offset buf size : Nat), offset < 512 → size ≤ n → ∃ m',
    Returns (fun polls rounds => ataReadDisk polls rounds m lba offset buf size) m' ∧
      m'.mem = storeBytes m.mem buf (Fat.ataReadLoop m.drive.sectors n lba offset size) ∧
      m'.drive.sectors = m.drive.sectors
  | 0, m, lba, offset, buf, size, _, hn => by
      obtain rfl : size = 0 := by omega
      refine ⟨m, ⟨0, fun polls rounds _ _ => ?_⟩, (Lib.storeBytes_nil m.mem buf).symm, rfl⟩
      cases rounds <;> exact if_pos rfl
  | n + 1, m, lba, offset, buf, size, ho, hn => by
      by_cases hs : size = 0
      · subst hs
        refine ⟨m, ⟨0, fun polls rounds _ _ => ?_⟩, ?_, rfl⟩
        · cases rounds <;> exact if_pos rfl
        · rw [Fat.ataReadLoop, if_pos rfl, Lib.storeBytes_nil]
      · obtain ⟨w, m₁, hsectors, hmem, hpass⟩ := ataReadDisk_pass m lba offset buf (Nat.pos_of_ne_zero hs)
        obtain ⟨m₂, ⟨w', hrest⟩, hmem', hsectors'⟩ := ataReadDisk_loop n m₁ (dword (lba + 1)) 0
          (buf + min size (512 - offset)) (size - min size (512 - offset)) (by omega) (by omega)
        refine ⟨m₂, ⟨max w w' + 1, fun polls rounds hp hr => ?_⟩, ?_, hsectors'.trans hsectors⟩
        · obtain ⟨rounds, rfl⟩ : ∃ r, rounds = r + 1 := ⟨rounds - 1, by omega⟩
          exact (hpass polls rounds (by omega)).trans (hrest polls rounds (by omega) (by omega))
        · have happ := Lib.storeBytes_append m.mem buf
            (slice (Fat.ataSector m.drive.sectors lba) offset (min size (512 - offset)))
            (Fat.ataReadLoop m.drive.sectors n (dword (lba + 1)) 0 (size - min size (512 - offset)))
          rw [Lib.length_slice] at happ
          rw [hmem', hmem, hsectors, happ, Fat.ataReadLoop, if_neg hs]

/-! ## The bytes of the disk -/

def diskByte (sectors : Nat → Nat → UInt8) (p : Nat) : UInt8 := sectors (p / 512) (p % 512)

theorem slice_sector (sectors : Nat → Nat → UInt8) (lba offset n : Nat) (hlba : lba < 2 ^ 28) (hn : offset + n ≤ 512) :
    slice (Fat.ataSector sectors lba) offset n = slice (diskByte sectors) (lba * 512 + offset) n := by
  refine Lib.slice_congr fun i hi => ?_
  have hdiv : (lba * 512 + offset + i) / 512 = lba := by omega
  have hmod : (lba * 512 + offset + i) % 512 = offset + i := by omega
  rw [Fat.ataSector, Nat.mod_eq_of_lt hlba, diskByte, hdiv, hmod]

/-- In the addressed sectors, the bytes that are listed are those of the disk. -/
theorem ataReadLoop_eq (sectors : Nat → Nat → UInt8) : ∀ (n lba offset size : Nat), offset < 512 → size ≤ n →
    (0 < size → lba * 512 + offset + size ≤ 2 ^ 28 * 512) →
    Fat.ataReadLoop sectors n lba offset size = slice (diskByte sectors) (lba * 512 + offset) size
  | 0, _, _, size, _, hn, _ => by
      obtain rfl : size = 0 := by omega
      rfl
  | n + 1, lba, offset, size, ho, hn, hlba => by
      by_cases hs : size = 0
      · subst hs
        rfl
      · have hend := hlba (Nat.pos_of_ne_zero hs)
        have hsplit := Lib.slice_add (diskByte sectors) (lba * 512 + offset) (min size (512 - offset))
          (size - min size (512 - offset))
        rw [Nat.add_sub_cancel' (Nat.min_le_left ..)] at hsplit
        have hlow := slice_sector sectors lba offset (min size (512 - offset)) (by omega) (by omega)
        rw [Fat.ataReadLoop, if_neg hs]
        dsimp only
        rw [hsplit, hlow,
          ataReadLoop_eq sectors n (dword (lba + 1)) 0 (size - min size (512 - offset)) (by omega) (by omega)
            (by unfold dword; omega)]
        rcases Nat.eq_zero_or_pos (size - min size (512 - offset)) with h0 | hpos
        · rw [h0, Lib.slice_zero, Lib.slice_zero]
        · rw [dword_of_lt (by omega), show (lba + 1) * 512 + 0 = lba * 512 + offset + min size (512 - offset) by omega]

/-- A read ends, and stores the `size` bytes of the disk from byte `lba * 512 + offset` on, and nothing else. -/
theorem reads_exactly (m : Machine) (buf : Nat) (hoffset : offset < 512)
    (hlba : ∀ p, lba * 512 + offset ≤ p → p < lba * 512 + offset + size → p / 512 < 2 ^ 28) :
    ∃ m', Returns (fun polls rounds => ataReadDisk polls rounds m lba offset buf size) m' ∧
      m'.mem = storeBytes m.mem buf (slice (diskByte m.drive.sectors) (lba * 512 + offset) size) ∧
      m'.drive.sectors = m.drive.sectors := by
  obtain ⟨m', hret, hmem, hsectors⟩ := ataReadDisk_loop size m lba offset buf size hoffset (Nat.le_refl size)
  refine ⟨m', hret, ?_, hsectors⟩
  rw [hmem, ataReadLoop_eq _ _ _ _ _ hoffset (Nat.le_refl size)]
  intro hs
  have hlast := hlba (lba * 512 + offset + size - 1) (by omega) (by omega)
  omega

def numbered : Machine where
  drive := ⟨fun lba _ => UInt8.ofNat lba, 0, 0, 0, 0, 0, 0, 0, 0, fun _ => 3⟩
  tmpBuffer _ := 0
  mem _ := 0

/-- Four bytes around the end of sector 1. -/
theorem reads_exactly_numbered :
    ∃ m', Returns (fun polls rounds => ataReadDisk polls rounds numbered 1 510 100 4) m' ∧
      m'.mem = storeBytes numbered.mem 100 (slice (diskByte numbered.drive.sectors) (1 * 512 + 510) 4) ∧
      m'.drive.sectors = numbered.drive.sectors :=
  reads_exactly numbered 100 (by decide) (fun p _ hp => by omega)

end HaOS.Disk
