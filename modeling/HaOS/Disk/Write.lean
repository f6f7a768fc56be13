import HaOS.Disk.Drive

/-!
# `ata_write_disk`

The loop takes a word off `size` for each two bytes of the buffer, so it sends twice the sectors that it was asked for.

* `written sectors mem lba buf n` : the disk after `n` sectors from `lba` on were sent from `buf` on; `written_cases` :
  each sector is as it was, or holds the last block sent to it;
* `Written` : what a write should do; `Harmless` : what is sent behind the buffer does not show;
* `sentTwice_iff` : the first holds exactly in the case of the second.
-/

namespace HaOS.Disk
open Lib (slice storeBytes bytesOf)

variable {m m' : Machine} {d : Drive} {sectors : Nat → Nat → UInt8} {mem : Nat → UInt8} {lba offset buf size k n : Nat}

def written (sectors : Nat → Nat → UInt8) (mem : Nat → UInt8) (lba buf : Nat) : Nat → Nat → Nat → UInt8
  | 0 => sectors
  | n + 1 =>
    let before := written sectors mem lba buf n
    let s := (lba + n) % 2 ^ 28
    Function.update before s (storeBytes (before s) 0 (slice mem (buf + 512 * n) 512))

/-- The write ends, the buffer can be read back from the disk, and no other sector is changed. -/
def Written (m : Machine) (lba buf size : Nat) : Prop :=
  ∃ m', Returns (fun polls rounds => ataWriteDisk polls rounds m lba 0 buf size) m' ∧
    (∀ b, ∃ m'', Returns (fun polls rounds => ataReadDisk polls rounds m' lba 0 b size) m'' ∧
      slice m''.mem b size = slice m.mem buf size) ∧
    ∀ s, s < lba ∨ lba + size / 512 ≤ s → ∀ x < 512, m'.drive.sectors s x = m.drive.sectors s x

/-- What the disk should hold after a write of `k` sectors. -/
def wanted (m : Machine) (lba buf k s x : Nat) : UInt8 :=
  if lba ≤ s ∧ s < lba + k then m.mem (buf + 512 * (s - lba) + x) else m.drive.sectors s x

/-- Block `i` behind the `k` blocks of the buffer, when none after it goes to its sector, is what that sector should
hold. -/
def Harmless (m : Machine) (lba buf k : Nat) : Prop :=
  ∀ i, k ≤ i → i < 2 * k → (∀ j, i < j → j < 2 * k → (lba + j) % 2 ^ 28 ≠ (lba + i) % 2 ^ 28) →
    ∀ x < 512, m.mem (buf + 512 * i + x) = wanted m lba buf k ((lba + i) % 2 ^ 28) x

/-! ## What is sent -/

def Drive.sent (d : Drive) (bs : List UInt8) (n : Nat) : Drive :=
  { d with
    sectors := Function.update d.sectors d.lba (storeBytes (d.sectors d.lba) (2 * d.pos) bs)
    pos := d.pos + n }

theorem portOutw_data (d : Drive) (w : Nat) : portOutw d (ataPrimaryBus ||| ataPioData) w = d.sent (bytesOf w 2) 1 := by
  have hport : ataPrimaryBus ||| ataPioData = 0x1F0 := by decide
  rw [hport]
  exact if_pos rfl

theorem sectors_sent (d : Drive) (bs : List UInt8) (n : Nat) :
    (d.sent bs n).sectors = Function.update d.sectors d.lba (storeBytes (d.sectors d.lba) (2 * d.pos) bs) := rfl

theorem sent_nil (d : Drive) : d.sent [] 0 = d := by
  rw [Drive.sent, Lib.storeBytes_nil, Function.update_eq_self, Nat.add_zero]

theorem sent_sent (d : Drive) {bs cs : List UInt8} (hbs : bs.length = 2) (n : Nat) :
    (d.sent bs 1).sent cs n = d.sent (bs ++ cs) (n + 1) := by
  have hlba : (d.sent bs 1).lba = d.lba := rfl
  have hsectors := sectors_sent d bs 1
  have hpos : (d.sent bs 1).pos = d.pos + 1 := rfl
  have hstore := Lib.storeBytes_append (d.sectors d.lba) (2 * d.pos) bs cs
  rw [hbs, ← Nat.mul_succ, Nat.succ_eq_add_one] at hstore
  have hupdate : Function.update (d.sent bs 1).sectors (d.sent bs 1).lba
      (storeBytes ((d.sent bs 1).sectors (d.sent bs 1).lba) (2 * (d.sent bs 1).pos) cs) =
      Function.update d.sectors d.lba (storeBytes (d.sectors d.lba) (2 * d.pos) (bs ++ cs)) := by
    rw [hlba, hsectors, hpos, Function.update_self, hstore, Function.update_idem]
  rw [Drive.sent, hupdate, hpos, Nat.add_assoc, Nat.add_comm 1]
  rfl

theorem writeWord_iterate : ∀ (n : Nat) (d : Drive) (buf : Nat) {size : Nat}, n ≤ size → size < 2 ^ 64 →
    (writeWord mem)^[n] (d, buf, size) = (d.sent (slice mem buf (2 * n)) n, buf + 2 * n, size - n)
  | 0, d, buf, size, _, _ => by
      rw [Function.iterate_zero_apply, Nat.mul_zero, Lib.slice_zero, sent_nil, Nat.add_zero, Nat.sub_zero]
  | n + 1, d, buf, size, hn, hs => by
      have hsize : qsub size 1 = size - 1 := qsub_of_le hs (by omega)
      have htwo : 2 * (n + 1) = 2 + 2 * n := by omega
      rw [Function.iterate_succ_apply, writeWord, portOutw_data, Lib.bytesOf_littleEndian, hsize,
        writeWord_iterate n _ (buf + 2) (by omega) (by omega), sent_sent d (Lib.length_slice ..), ← Lib.slice_add, ← htwo,
        Nat.sub_sub, Nat.add_comm 1, Nat.add_assoc, ← htwo]

theorem writeWord_sector (d : Drive) (buf : Nat) (hsize : 256 ≤ size) (hs : size < 2 ^ 64) :
    (writeWord mem)^[256] (d, buf, size) = (d.sent (slice mem buf 512) 256, buf + 512, size - 256) :=
  writeWord_iterate 256 d buf hsize hs

theorem ataWriteDisk_pass (m : Machine) (offset : Nat) (hlba : k % 2 ^ 28 = (lba + n) % 2 ^ 28) (hsize : 256 ≤ size)
    (hs : size < 2 ^ 64) (hsectors : m.drive.sectors = written sectors m.mem lba buf n) : ∃ w m',
    m'.drive.sectors = written sectors m.mem lba buf (n + 1) ∧ m'.mem = m.mem ∧
    ∀ polls rounds, w ≤ polls → ataWriteDisk polls (rounds + 1) m k offset (buf + 512 * n) size =
      if size - 256 = 0 then some m'
      else ataWriteDisk polls rounds m' (dword (k + 1)) offset (buf + 512 * (n + 1)) (size - 256) := by
  obtain ⟨w, d, hd, -, hready⟩ := ready_command m.drive k 0x30
  refine ⟨w, { m with drive := d.sent (slice m.mem (buf + 512 * n) 512) 256 }, ?_, rfl, fun polls rounds hw => ?_⟩
  · rw [sectors_sent, hd.sectors, hd.lba, hd.pos, hsectors, hlba, Nat.mul_zero]
    simp only [written]
  · rw [ataWriteDisk, if_neg (by omega)]
    dsimp only
    rw [hready polls hw, Option.bind_some, writeWord_sector d _ hsize hs, Nat.add_assoc, ← Nat.mul_succ]

theorem ataWriteDisk_loop (lba buf offset : Nat) (sectors : Nat → Nat → UInt8) : ∀ (r n k : Nat) (m : Machine),
    k % 2 ^ 28 = (lba + n) % 2 ^ 28 → 256 * r < 2 ^ 64 → m.drive.sectors = written sectors m.mem lba buf n →
    ∃ m', Returns (fun polls rounds => ataWriteDisk polls rounds m k offset (buf + 512 * n) (256 * r)) m' ∧
      m'.drive.sectors = written sectors m.mem lba buf (n + r) ∧ m'.mem = m.mem
  | 0, n, k, m, _, _, hsectors => by
      refine ⟨m, ⟨0, fun polls rounds _ _ => ?_⟩, hsectors, rfl⟩
      cases rounds <;> exact if_pos rfl
  | r + 1, n, k, m, hlba, hs, hsectors => by
      obtain ⟨w, m₁, hsectors₁, hmem₁, hpass⟩ :=
        ataWriteDisk_pass m offset hlba (show 256 ≤ 256 * (r + 1) by omega) hs hsectors
      rw [← hmem₁] at hsectors₁
      obtain ⟨m₂, ⟨w', hrest⟩, hsectors₂, hmem₂⟩ := ataWriteDisk_loop lba buf offset sectors r (n + 1) (dword (k + 1)) m₁
        (by unfold dword; omega) (by omega) hsectors₁
      rw [hmem₁] at hsectors₂ hmem₂
      rw [show n + 1 + r = n + (r + 1) by omega] at hsectors₂
      refine ⟨m₂, ⟨max w w' + 1, fun polls rounds hp hr => ?_⟩, hsectors₂, hmem₂⟩
      obtain ⟨rounds, rfl⟩ : ∃ q, rounds = q + 1 := ⟨rounds - 1, by omega⟩
      have hsize : 256 * (r + 1) - 256 = 256 * r := by omega
      have hnext : ataWriteDisk polls rounds m₁ (dword (k + 1)) offset (buf + 512 * (n + 1)) (256 * r) = some m₂ :=
        hrest polls rounds (by omega) (by omega)
      dsimp only
      rw [hpass polls rounds (by omega), hsize]
      split_ifs with h0
      · rw [h0] at hnext
        cases rounds with
        | zero => exact hnext
        | succ rounds => exact hnext
      · exact hnext

/-! ## What the disk holds -/

/-- A sector holds the last block that was sent to it, or is as it was. -/
theorem written_cases (sectors : Nat → Nat → UInt8) (mem : Nat → UInt8) (lba buf s : Nat) : ∀ n,
    (∃ i < n, (lba + i) % 2 ^ 28 = s ∧ (∀ j, i < j → j < n → (lba + j) % 2 ^ 28 ≠ s) ∧
      ∀ x < 512, written sectors mem lba buf n s x = mem (buf + 512 * i + x)) ∨
    ((∀ i < n, (lba + i) % 2 ^ 28 ≠ s) ∧ written sectors mem lba buf n s = sectors s)
  | 0 => .inr ⟨fun i hi => absurd hi (Nat.not_lt_zero i), rfl⟩
  | n + 1 => by
      rw [written]
      by_cases hn : (lba + n) % 2 ^ 28 = s
      · refine .inl ⟨n, Nat.lt_succ_self n, hn, fun j hj hj' => by omega, fun x hx => ?_⟩
        have hstored := Lib.storeBytes_in (m := written sectors mem lba buf n s) (a := 0)
          (Lib.getElem?_slice (f := mem) (p := buf + 512 * n) hx)
        rw [Nat.zero_add] at hstored
        rw [hn, Function.update_self, hstored]
      · rw [Function.update_of_ne (Ne.symm hn)]
        rcases written_cases sectors mem lba buf s n with ⟨i, hi, his, hlast, hx⟩ | ⟨hne, hold⟩
        · refine .inl ⟨i, by omega, his, fun j hj hj' => ?_, hx⟩
          rcases Nat.lt_succ_iff_lt_or_eq.mp hj' with hlt | rfl
          · exact hlast j hj hlt
          · exact hn
        · refine .inr ⟨fun i hi => ?_, hold⟩
          rcases Nat.lt_succ_iff_lt_or_eq.mp hi with hlt | rfl
          · exact hne i hlt
          · exact hn

/-- The blocks behind the buffer do not show exactly when the disk holds what it should. -/
theorem harmless_iff (hlba : lba + k ≤ 2 ^ 28) :
    Harmless m lba buf k ↔
      ∀ s, ∀ x < 512, written m.drive.sectors m.mem lba buf (2 * k) s x = wanted m lba buf k s x := by
  constructor
  · intro h s x hx
    rcases written_cases m.drive.sectors m.mem lba buf s (2 * k) with ⟨i, hi, rfl, hlast, hval⟩ | ⟨hne, hold⟩
    · rw [hval x hx]
      rcases Nat.lt_or_ge i k with hik | hik
      · have hmod : (lba + i) % 2 ^ 28 = lba + i := Nat.mod_eq_of_lt (by omega)
        rw [hmod, wanted, if_pos (by omega), Nat.add_sub_cancel_left]
      · exact h i hik hi hlast x hx
    · rw [hold, wanted, if_neg]
      rintro ⟨h1, h2⟩
      refine hne (s - lba) (by omega) ?_
      rw [Nat.add_sub_cancel' h1, Nat.mod_eq_of_lt (by omega)]
  · intro h i hk hi hlast x hx
    rw [← h _ x hx]
    rcases written_cases m.drive.sectors m.mem lba buf ((lba + i) % 2 ^ 28) (2 * k) with
      ⟨i', hi', his, hlast', hval⟩ | ⟨hne, -⟩
    · -- both are the last block of the sector
      have heq : i' = i := by
        rcases Nat.lt_trichotomy i' i with hlt | heq | hlt
        · exact absurd rfl (hlast' i hlt hi)
        · exact heq
        · exact absurd his (hlast i' hlt hi')
      rw [hval x hx, heq]
    · exact absurd rfl (hne i hi)

theorem Returns.unique {call : Nat → Nat → Option Machine} {m₁ m₂ : Machine} (h₁ : Returns call m₁)
    (h₂ : Returns call m₂) : m₁ = m₂ := by
  obtain ⟨w₁, h₁⟩ := h₁
  obtain ⟨w₂, h₂⟩ := h₂
  have h := (h₁ (max w₁ w₂) (max w₁ w₂) (Nat.le_max_left ..) (Nat.le_max_left ..)).symm.trans
    (h₂ (max w₁ w₂) (max w₁ w₂) (Nat.le_max_right ..) (Nat.le_max_right ..))
  exact Option.some.inj h

theorem slice_eq_sectors {k b : Nat} :
    slice (diskByte sectors) (lba * 512) (512 * k) = slice mem b (512 * k) ↔
      ∀ i < k, ∀ x < 512, sectors (lba + i) x = mem (b + 512 * i + x) := by
  rw [Lib.slice_eq_iff]
  have hbyte : ∀ i x, x < 512 → diskByte sectors (lba * 512 + (512 * i + x)) = sectors (lba + i) x := by
    intro i x hx
    have hdiv : (lba * 512 + (512 * i + x)) / 512 = lba + i := by omega
    have hmod : (lba * 512 + (512 * i + x)) % 512 = x := by omega
    rw [diskByte, hdiv, hmod]
  constructor
  · intro h i hi x hx
    rw [← hbyte i x hx, h _ (by omega), Nat.add_assoc]
  · intro h p hp
    have hp' : p = 512 * (p / 512) + p % 512 := by omega
    rw [hp', hbyte _ _ (Nat.mod_lt _ (by decide)), h _ (by omega) _ (Nat.mod_lt _ (by decide)), Nat.add_assoc]

/-- What a write of `k` sectors leaves on the disk. -/
theorem ataWriteDisk_eq (m : Machine) (buf : Nat) (hlba : lba + k ≤ 2 ^ 28) : ∃ m',
    Returns (fun polls rounds => ataWriteDisk polls rounds m lba 0 buf (512 * k)) m' ∧
      m'.drive.sectors = written m.drive.sectors m.mem lba buf (2 * k) := by
  obtain ⟨m', hret, hsectors, -⟩ := ataWriteDisk_loop lba buf 0 m.drive.sectors (2 * k) 0 lba m rfl (by omega) rfl
  rw [Nat.mul_zero, Nat.add_zero, ← Nat.mul_assoc] at hret
  rw [Nat.zero_add] at hsectors
  exact ⟨m', hret, hsectors⟩

theorem written_iff_harmless (m : Machine) (buf : Nat) (hlba : lba + k ≤ 2 ^ 28) :
    Written m lba buf (512 * k) ↔ Harmless m lba buf k := by
  obtain ⟨m₁, hret, hsectors⟩ := ataWriteDisk_eq m buf hlba
  have hread : ∀ b, ∃ m₂, Returns (fun polls rounds => ataReadDisk polls rounds m₁ lba 0 b (512 * k)) m₂ ∧
      slice m₂.mem b (512 * k) = slice (diskByte m₁.drive.sectors) (lba * 512) (512 * k) := by
    intro b
    obtain ⟨m₂, hret₂, hmem, -⟩ := ataReadDisk_loop (512 * k) m₁ lba 0 b (512 * k) (by decide) (Nat.le_refl _)
    rw [ataReadLoop_eq _ _ _ _ _ (by decide) (Nat.le_refl _) (by omega), Nat.add_zero] at hmem
    have hback := Lib.slice_storeBytes m₁.mem b (slice (diskByte m₁.drive.sectors) (lba * 512) (512 * k))
    rw [Lib.length_slice, ← hmem] at hback
    exact ⟨m₂, hret₂, hback⟩
  have hdiv : 512 * k / 512 = k := Nat.mul_div_cancel_left k (by decide)
  rw [harmless_iff hlba, ← hsectors]
  constructor
  · rintro ⟨m', hret', hback, hother⟩ s x hx
    obtain rfl := hret'.unique hret
    obtain ⟨m₂, hret₂, hbytes⟩ := hread 0
    obtain ⟨m₃, hret₃, hbytes'⟩ := hback 0
    obtain rfl := hret₃.unique hret₂
    rw [hbytes, slice_eq_sectors] at hbytes'
    rw [wanted]
    split_ifs with hs
    · rw [← hbytes' (s - lba) (by omega) x hx, Nat.add_sub_cancel' hs.1]
    · exact hother s (by rw [hdiv]; omega) x hx
  · intro h
    refine ⟨m₁, hret, fun b => ?_, fun s hs x hx => ?_⟩
    · obtain ⟨m₂, hret₂, hbytes⟩ := hread b
      refine ⟨m₂, hret₂, hbytes.trans (slice_eq_sectors.mpr fun i hi x hx => ?_)⟩
      rw [h _ x hx, wanted, if_pos (by omega), Nat.add_sub_cancel_left]
    · rw [hdiv] at hs
      rw [h s x hx, wanted, if_neg (by omega)]

/-- A write is what it should be exactly when what is sent behind the buffer does not show. When the disk has room for
twice the sectors, these bytes are the ones that the disk has behind the sectors to write. -/
theorem sentTwice_iff (m : Machine) (buf : Nat) (hpos : 0 < size) (hsize : 512 ∣ size) (hlba : lba + size / 512 ≤ 2 ^ 28) :
    (Written m lba buf size ↔ Harmless m lba buf (size / 512)) ∧
      (lba + 2 * (size / 512) ≤ 2 ^ 28 → (Harmless m lba buf (size / 512) ↔
        slice (diskByte m.drive.sectors) (lba * 512 + size) size = slice m.mem (buf + size) size)) := by
  obtain ⟨k, rfl⟩ := hsize
  rw [Nat.mul_div_cancel_left k (by decide)] at hlba ⊢
  refine ⟨written_iff_harmless m buf hlba, fun hroom => ?_⟩
  have hstart : lba * 512 + 512 * k = (lba + k) * 512 := by omega
  rw [hstart, slice_eq_sectors]
  have hsector : ∀ i < 2 * k, (lba + i) % 2 ^ 28 = lba + i := fun i hi => Nat.mod_eq_of_lt (by omega)
  constructor
  · intro h i hi x hx
    have hblock := h (k + i) (by omega) (by omega) (fun j hj hj' => by rw [hsector _ hj', hsector _ (by omega)]; omega) x hx
    rw [hsector _ (by omega), wanted, if_neg (by omega)] at hblock
    rw [Nat.add_assoc lba, ← hblock, Nat.mul_add, ← Nat.add_assoc buf]
  · intro h i hk hi _ x hx
    have hblock := h (i - k) (by omega) x hx
    rw [hsector i hi, wanted, if_neg (by omega), show lba + i = lba + k + (i - k) by omega, hblock]
    congr 1
    omega

theorem sentTwice_iff_numbered :
    (Written numbered 0 100 512 ↔ Harmless numbered 0 100 (512 / 512)) ∧
      (0 + 2 * (512 / 512) ≤ 2 ^ 28 → (Harmless numbered 0 100 (512 / 512) ↔
        slice (diskByte numbered.drive.sectors) (0 * 512 + 512) 512 = slice numbered.mem (100 + 512) 512)) :=
  sentTwice_iff numbered 100 (by decide) (by decide) (by decide)

/-- Writing sector 0 also overwrites sector 1. -/
theorem not_written_numbered : ¬ Written numbered 0 100 512 := by
  intro h
  have hblock := (written_iff_harmless (k := 1) numbered 100 (by decide)).mp h 1 (by decide) (by decide)
    (fun j hj hj' => by omega) 0 (by decide)
  exact absurd hblock (by decide)

end HaOS.Disk
