import Mathlib.Tactic.IntervalCases
import HaOS.Types

/-!
# The interrupt controllers (`kernel/cpu/pic.c`, `kernel/cpu/pic.h`)

Two 8259A chips, the slave behind line 2 of the master, as the data sheet that `pic.h` names describes them: what a write
to their ports does, and what they answer when the processor acknowledges an interrupt. Of the commands only the
initialization words, the mask and the end of an interrupt occur in the kernel.

* `Chip`, `Chip.command`, `Chip.data` : a chip and its two ports; `Pics`, `portOutb` : the pair;
* `Pics.acknowledge` : the line of the highest priority that is requested and not held back, and its vector;
* `picRemapped`, `picEndofinterrupt` : the two functions of `pic.c`;
* `Remapped`, `remapped_picRemapped` : whatever the chips held, they end up set up for the vectors 32 to 47.
-/

namespace HaOS.Irq

inductive Init where
  | icw2 (single icw4 : Bool)
  | icw3 (icw4 : Bool)
  | icw4
  | ready
deriving DecidableEq, Repr

/-- The requests, the lines in service and the mask, and what the initialization words have set. -/
structure Chip where
  irr : BitVec 8
  isr : BitVec 8
  imr : BitVec 8
  base : BitVec 8
  cascade : BitVec 8
  mode : BitVec 8
  init : Init
deriving DecidableEq, Repr

def icw1Init : BitVec 8 := 1 <<< 4

def icw1Sngl : BitVec 8 := 1 <<< 1

def icw1Icw4 : BitVec 8 := 1 <<< 0

def icw3Cascademode : BitVec 8 := 1 <<< 2

def icw4Aeoi : BitVec 8 := 1 <<< 1

def icw4Microprocessor : BitVec 8 := 1 <<< 0

def clearLowest (b : BitVec 8) : BitVec 8 := b &&& (b - 1)

/-- A write with address line 0 low: `ICW1`, or the end of the interrupt of the highest priority. -/
def Chip.command (c : Chip) (b : BitVec 8) : Chip :=
  if b &&& icw1Init ≠ 0 then
    { c with irr := 0, isr := 0, imr := 0, mode := 0, init := .icw2 (b &&& icw1Sngl ≠ 0) (b &&& icw1Icw4 ≠ 0) }
  else if b = 0x20 then { c with isr := clearLowest c.isr }
  else c

/-- A write with address line 0 high: the next initialization word, or the mask. -/
def Chip.data (c : Chip) (b : BitVec 8) : Chip :=
  match c.init with
  | .icw2 single icw4 =>
    { c with base := b &&& 0xf8, init := if single then if icw4 then .icw4 else .ready else .icw3 icw4 }
  | .icw3 icw4 => { c with cascade := b, init := if icw4 then .icw4 else .ready }
  | .icw4 => { c with mode := b, init := .ready }
  | .ready => { c with imr := b }

/-- The line that the chip asks for: the first that is requested and not masked, unless it or one before it is in service. -/
def Chip.request (c : Chip) : Option Nat :=
  match (List.range 8).find? fun i => c.irr.getLsbD i && ! c.imr.getLsbD i with
  | some i => if (List.range (i + 1)).any c.isr.getLsbD then none else some i
  | none => none

def bit (i : Nat) : BitVec 8 := 1#8 <<< i

/-- The acknowledged line is no longer requested, and is in service until its end unless the mode ends it. -/
def Chip.serve (c : Chip) (i : Nat) : Chip :=
  { c with irr := c.irr &&& ~~~ bit i, isr := if c.mode &&& icw4Aeoi ≠ 0 then c.isr else c.isr ||| bit i }

structure Pics where
  master : Chip
  slave : Chip
deriving DecidableEq, Repr

def picMaster : Nat := 0x20

def picSlave : Nat := 0xa0

def picCommand : Nat := 0x00

def picData : Nat := 0x01

def portOutb (p : Pics) (port : Nat) (b : BitVec 8) : Pics :=
  if port = picMaster ||| picCommand then { p with master := p.master.command b }
  else if port = picMaster ||| picData then { p with master := p.master.data b }
  else if port = picSlave ||| picCommand then { p with slave := p.slave.command b }
  else if port = picSlave ||| picData then { p with slave := p.slave.data b }
  else p

/-- The master with the slave's output on the line that `ICW3` names. -/
def Pics.wired (p : Pics) : Chip :=
  { p.master with irr :=
      if p.slave.request.isSome then p.master.irr ||| p.master.cascade else p.master.irr &&& ~~~ p.master.cascade }

/-- The processor acknowledges an interrupt: the chips after it, and the vector. The slave answers when the master serves
the line that it is on. -/
def Pics.acknowledge (p : Pics) : Option (Pics × Nat) :=
  match p.wired.request with
  | none => none
  | some i =>
    if p.master.cascade.getLsbD i ∧ p.slave.cascade.toNat = i then
      match p.slave.request with
      | some j => some (⟨p.wired.serve i, p.slave.serve j⟩, p.slave.base.toNat + j)
      | none => none
    else some (⟨p.wired.serve i, p.slave⟩, p.master.base.toNat + i)

def picEndofinterrupt (p : Pics) (irq : Nat) : Pics :=
  let p := if irq ≥ 8 then portOutb p (picSlave ||| picCommand) 0x20 else p
  portOutb p (picMaster ||| picCommand) 0x20

def picRemapped (p : Pics) : Pics :=
  let p := portOutb p picMaster (icw1Init ||| icw1Icw4)
  let p := portOutb p picSlave (icw1Init ||| icw1Icw4)
  let p := portOutb p (picMaster ||| picData) 0x20
  let p := portOutb p (picSlave ||| picData) 0x28
  let p := portOutb p (picMaster ||| picData) icw3Cascademode
  let p := portOutb p (picSlave ||| picData) 2
  let p := portOutb p (picMaster ||| picData) icw4Microprocessor
  let p := portOutb p (picSlave ||| picData) icw4Microprocessor
  let p := portOutb p (picMaster ||| picData) 0
  portOutb p (picSlave ||| picData) 0

/-- A chip that is set up, with no line in service and none masked. -/
structure Chip.Idle (c : Chip) (base cascade : BitVec 8) : Prop where
  isr : c.isr = 0
  imr : c.imr = 0
  base : c.base = base
  cascade : c.cascade = cascade
  mode : c.mode = icw4Microprocessor
  init : c.init = .ready

/-- The vectors are 32 to 47, the slave is on line 2, and no line is in service or masked. -/
structure Remapped (p : Pics) : Prop where
  master : p.master.Idle 0x20 icw3Cascademode
  slave : p.slave.Idle 0x28 2

/-- Whatever the chips were told before, the sequence sets them up. -/
theorem remapped_picRemapped (p : Pics) : Remapped (picRemapped p) := by
  obtain ⟨⟨a1, a2, a3, a4, a5, a6, a7⟩, ⟨b1, b2, b3, b4, b5, b6, b7⟩⟩ := p
  constructor
  · constructor <;> rfl
  · constructor <;> rfl

end HaOS.Irq
