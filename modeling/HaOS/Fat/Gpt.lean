import HaOS.Alloc.Account
import HaOS.Fat.Driver

/-!
# The partition table (`kernel/fs/gpt.c`)

* `gptInitialize`, `gptGetLbaStartVolume` : the two functions with the account of the heap; the sectors that they read
  fill the blocks of 512 bytes that they asked for;
* `gpt_leaves` : the second one keeps the buffer of its sector.
-/

namespace HaOS.Fat
open Alloc (Account Leaves)

structure Gpt where
  partitionTable : List UInt8
  isGptInitialize : Nat

def partitionTableSize : Nat := 92

def partitionEntrySize : Nat := 128

/-- The walks of the heap are bounded by `walk` and `depth`. -/
def gptInitialize (walk depth : Nat) (disk : Nat → Nat → UInt8) (k : Account) : Option (Gpt × Account) :=
  (k.alloc walk depth 512).bind fun r =>
    let ptBuffer := ataReadDisk disk 1 0 512
    (r.1.free walk r.2).map fun k => (⟨ptBuffer.take partitionTableSize, 1⟩, k)

/-- `gpt_get_lba_start_volume`; `index` is an `int`, and `tmp` the memory that `new_alloc` gave for `__tmp`. -/
def gptGetLbaStartVolume (walk depth : Nat) (disk : Nat → Nat → UInt8) (tmp : Nat → UInt8) (g : Gpt) (k : Account)
    (index : Int) : Option (Gpt × Account × Nat) :=
  (if g.isGptInitialize = 0 then gptInitialize walk depth disk k else some (g, k)).bind fun (g, k) =>
    let lbaPartitionEntry := 2
    let lbaPart := (index.tdiv 4 % 2 ^ 64).toNat
    let offset := (index.tmod 4 % 2 ^ 32).toNat
    (k.alloc walk depth 512).map fun r =>
      let tmp := Lib.storeBytes tmp 0 (ataReadDisk disk (dword (lbaPartitionEntry + lbaPart)) 0 512)
      (g, r.1, Lib.littleEndian tmp (partitionEntrySize * offset + 32) 8)

variable {walk depth : Nat} {disk : Nat → Nat → UInt8} {tmp : Nat → UInt8} {g g' : Gpt} {k k' : Account} {index : Int}
  {lba : Nat}

theorem gptInitialize_leaves (hr : gptInitialize walk depth disk k = some (g, k')) : Leaves k k' 0 True := by
  obtain ⟨⟨k₁, p⟩, h1, hr⟩ := Option.bind_eq_some_iff.mp hr
  obtain ⟨k₂, h2, heq⟩ := Option.map_eq_some_iff.mp hr
  obtain ⟨-, rfl⟩ := Prod.mk.inj heq
  exact ((Leaves.refl k).alloc (by decide) h1).1.free h2

/-- What `__tmp` points to is in use for ever. -/
theorem gpt_leaves (hr : gptGetLbaStartVolume walk depth disk tmp g k index = some (g', k', lba)) :
    Leaves k k' 0 False := by
  obtain ⟨⟨g₁, k₁⟩, h1, hr⟩ := Option.bind_eq_some_iff.mp hr
  obtain ⟨⟨k₂, p⟩, h2, heq⟩ := Option.map_eq_some_iff.mp hr
  obtain ⟨-, hk, -⟩ := Prod.mk.inj heq |>.imp_right Prod.mk.inj
  have hfirst : Leaves k k₁ 0 True := by
    split_ifs at h1
    · exact gptInitialize_leaves h1
    · cases h1
      exact .refl k
  obtain ⟨hleaves, hroom⟩ := hfirst.alloc (by decide) h2
  rw [show k₂ = k' from hk] at hleaves hroom
  exact hleaves.forget fun m hm hplain => (hroom m hm hplain (by decide)).1

end HaOS.Fat
