import Mathlib.Data.List.Find
import HaOS.Irq.Pic
import HaOS.Lib.Run

/-!
# Delivery of the hardware interrupts (`kernel/cpu/idt.c`, `kernel/cpu/pic.c`)

* `Kernel`, `irqHandle` : the chips, the registered handlers, and what `irq_handle` does with a vector; the interrupts are
  off from the acknowledgement until it is done;
* `Event`, `Kernel.step` : a device requests a line, the processor takes an interrupt, a request goes away before it is
  acknowledged, or a program issues `int` with one of the sixteen vectors;
* `Kernel.next` : the pending line that is served next, by the order of the two chips; `acknowledge_eq` : the chips give
  its vector;
* `delivered` : in no run is a line left in service, and every pending line gets its handler.
-/

namespace HaOS.Irq
open Lib (Reaches)

variable {p : Pics} {c : Chip} {i j n : Nat}

/-! ## The chips -/

theorem getLsbD_bit (hj : j < 8) : (bit i).getLsbD j = decide (j = i) := by
  unfold bit
  simp only [BitVec.getLsbD_shiftLeft, BitVec.getLsbD_one, hj, decide_true, Bool.true_and, Nat.zero_lt_succ]
  by_cases h : j < i
  · simp [h, Nat.ne_of_lt h]
  · simp [h]
    omega

theorem clearLowest_bit (hi : i < 8) : clearLowest (bit i) = 0 := by
  interval_cases i <;> decide

theorem clearLowest_zero : clearLowest 0 = 0 := by decide

theorem request_eq (hisr : c.isr = 0) (himr : c.imr = 0) :
    c.request = (List.range 8).find? c.irr.getLsbD := by
  have hfind : (List.range 8).find? (fun i => c.irr.getLsbD i && ! c.imr.getLsbD i) =
      (List.range 8).find? c.irr.getLsbD := by
    congr 1
    funext i
    rw [himr]
    simp
  unfold Chip.request
  rw [hfind]
  cases (List.range 8).find? c.irr.getLsbD with
  | none => rfl
  | some i =>
      have hnone : (List.range (i + 1)).any c.isr.getLsbD = false := by
        rw [hisr]
        simp
      simp only [hnone, Bool.false_eq_true, if_false]

theorem request_lt (h : c.request = some i) : i < 8 := by
  unfold Chip.request at h
  split at h
  · rename_i k hk
    split_ifs at h
    cases h
    exact List.mem_range.mp (List.mem_of_find?_eq_some hk)
  · cases h

def Pics.Pending (p : Pics) (n : Nat) : Bool :=
  if n < 8 then p.master.irr.getLsbD n else p.slave.irr.getLsbD (n - 8)

/-- The lines from the highest priority to the lowest: those of the slave come in where it is wired. -/
def order : List Nat := [0, 1, 8, 9, 10, 11, 12, 13, 14, 15, 3, 4, 5, 6, 7]

theorem order_eq : order = [0, 1] ++ ((List.range 8).map (8 + ·) ++ [3, 4, 5, 6, 7]) := rfl

def Pics.waiting (p : Pics) : List Nat := order.filter p.Pending

/-- What `acknowledge` leaves: the line is no longer requested, and the chips wait for its end. -/
structure Served (p q : Pics) (n : Nat) : Prop where
  master : ∃ i, q.master = { p.master with irr := q.master.irr, isr := bit i } ∧ i < 8
  slave : q.slave = { p.slave with irr := q.slave.irr, isr := if 8 ≤ n then bit (n - 8) else 0 }
  pending : ∀ k ∈ order, q.Pending k = (p.Pending k && k != n)

theorem wired_getLsbD (h : Remapped p) (hj : j < 8) :
    p.wired.irr.getLsbD j = if j = 2 then p.slave.request.isSome else p.master.irr.getLsbD j := by
  have hcas : (icw3Cascademode).getLsbD j = decide (j = 2) := getLsbD_bit (i := 2) hj
  unfold Pics.wired
  rw [h.master.cascade]
  cases p.slave.request with
  | none =>
      simp only [Option.isSome_none, Bool.false_eq_true, if_false, BitVec.getLsbD_and, BitVec.getLsbD_not, hcas, hj]
      by_cases h2 : j = 2
      · simp [h2]
      · simp [h2]
  | some k =>
      simp only [Option.isSome_some, if_true, BitVec.getLsbD_or, hcas]
      by_cases h2 : j = 2
      · simp [h2]
      · simp [h2]

theorem pending_slave (p : Pics) : p.Pending ∘ (8 + ·) = p.slave.irr.getLsbD := by
  funext i
  show (if 8 + i < 8 then _ else _) = _
  rw [if_neg (by omega), Nat.add_sub_cancel_left]

theorem find_master (h : Remapped p) {l : List Nat} (hl : ∀ i ∈ l, i < 8 ∧ i ≠ 2) :
    l.find? p.Pending = l.find? p.wired.irr.getLsbD := by
  refine List.find?_congr fun i hi => ?_
  obtain ⟨hi8, hi2⟩ := hl i hi
  rw [wired_getLsbD h hi8, if_neg hi2]
  exact if_pos hi8

theorem serve_eq {b k : BitVec 8} (h : c.Idle b k) (i : Nat) :
    c.serve i = { c with irr := c.irr &&& ~~~ bit i, isr := bit i } := by
  have hmode : ¬ c.mode &&& icw4Aeoi ≠ 0 := by
    rw [h.mode]
    decide
  unfold Chip.serve
  rw [if_neg hmode, h.isr, show (0 : BitVec 8) ||| bit i = bit i from BitVec.zero_or]

theorem getLsbD_clear (b : BitVec 8) (hj : j < 8) : (b &&& ~~~ bit i).getLsbD j = (b.getLsbD j && j != i) := by
  rw [BitVec.getLsbD_and, BitVec.getLsbD_not, getLsbD_bit hj, decide_eq_true hj, Bool.true_and]
  rfl

theorem mem_order (h : n ∈ order) : n < 8 ∧ n ≠ 2 ∨ 8 ≤ n ∧ n < 16 := by
  simp only [order, List.mem_cons, List.not_mem_nil, or_false] at h
  omega

theorem wired_idle (h : Remapped p) : p.wired.Idle 0x20 icw3Cascademode :=
  ⟨h.master.isr, h.master.imr, h.master.base, h.master.cascade, h.master.mode, h.master.init⟩

theorem served_master (h : Remapped p) (hi : i < 8) : Served p ⟨p.wired.serve i, p.slave⟩ i where
  master := ⟨i, by rw [serve_eq (wired_idle h)]; rfl, hi⟩
  slave := by
    rw [if_neg (by omega), ← h.slave.isr]
  pending k hk := by
    rw [serve_eq (wired_idle h)]
    obtain ⟨hk8, hk2⟩ | ⟨hk8, -⟩ := mem_order hk
    · show (if k < 8 then _ else _) = _
      rw [if_pos hk8]
      show (p.wired.irr &&& ~~~ bit i).getLsbD k = _
      rw [getLsbD_clear _ hk8, wired_getLsbD h hk8, if_neg hk2, Pics.Pending, if_pos hk8]
    · have hne : (k != i) = true := bne_iff_ne.mpr (by omega)
      show (if k < 8 then _ else _) = _
      rw [if_neg (by omega), hne, Bool.and_true, Pics.Pending, if_neg (by omega)]

theorem served_slave (h : Remapped p) (hj : j < 8) : Served p ⟨p.wired.serve 2, p.slave.serve j⟩ (8 + j) where
  master := ⟨2, by rw [serve_eq (wired_idle h)]; rfl, by decide⟩
  slave := by
    rw [serve_eq h.slave, if_pos (Nat.le_add_right 8 j), Nat.add_sub_cancel_left]
  pending k hk := by
    rw [serve_eq (wired_idle h), serve_eq h.slave]
    obtain ⟨hk8, hk2⟩ | ⟨hk8, hk16⟩ := mem_order hk
    · have hne : (k != 8 + j) = true := bne_iff_ne.mpr (by omega)
      show (if k < 8 then _ else _) = _
      rw [if_pos hk8]
      show (p.wired.irr &&& ~~~ bit 2).getLsbD k = _
      rw [getLsbD_clear _ hk8, wired_getLsbD h hk8, if_neg hk2, Pics.Pending, if_pos hk8, hne,
        bne_iff_ne.mpr hk2]
    · show (if k < 8 then _ else _) = _
      rw [if_neg (by omega)]
      show (p.slave.irr &&& ~~~ bit j).getLsbD (k - 8) = _
      rw [getLsbD_clear _ (by omega), Pics.Pending, if_neg (by omega)]
      congr 1
      rw [Bool.eq_iff_iff, bne_iff_ne, bne_iff_ne]
      omega

/-- The chips answer with the vector of the first line that waits. -/
theorem acknowledge_eq (h : Remapped p) :
    match order.find? p.Pending with
    | none => p.acknowledge = none
    | some n => ∃ q, p.acknowledge = some (q, 32 + n) ∧ Served p q n := by
  have hreq : p.wired.request = (List.range 8).find? p.wired.irr.getLsbD := request_eq h.master.isr h.master.imr
  have hslave : p.slave.request = (List.range 8).find? p.slave.irr.getLsbD := request_eq h.slave.isr h.slave.imr
  have hcas : ∀ k < 8, p.master.cascade.getLsbD k = decide (k = 2) := by
    intro k hk
    rw [h.master.cascade]
    exact getLsbD_bit (i := 2) hk
  have hone : ∀ k, k < 8 → k ≠ 2 → p.wired.request = some k →
      p.acknowledge = some (⟨p.wired.serve k, p.slave⟩, 32 + k) := by
    intro k hk hk2 hr
    unfold Pics.acknowledge
    rw [hr]
    simp only [hcas k hk, decide_eq_true_eq, hk2, false_and, if_false, h.master.base]
    rfl
  rw [order_eq, List.find?_append, List.find?_append, List.find?_map, pending_slave, ← hslave,
    find_master h (by decide), find_master h (by decide)]
  rw [show List.range 8 = [0, 1] ++ ([2] ++ [3, 4, 5, 6, 7]) from rfl, List.find?_append, List.find?_append] at hreq
  cases hlow : [0, 1].find? p.wired.irr.getLsbD with
  | some k =>
      have hk : k ∈ [0, 1] := List.mem_of_find?_eq_some hlow
      have hk2 : k < 8 ∧ k ≠ 2 := by
        simp only [List.mem_cons, List.not_mem_nil, or_false] at hk
        omega
      rw [hlow] at hreq
      exact ⟨_, hone k hk2.1 hk2.2 hreq, served_master h hk2.1⟩
  | none =>
      rw [hlow] at hreq
      have htwo : p.wired.irr.getLsbD 2 = p.slave.request.isSome := wired_getLsbD h (by decide)
      cases hj : p.slave.request with
      | some j =>
          have hj8 : j < 8 := request_lt hj
          rw [hj] at htwo
          have hr : p.wired.request = some 2 := by
            rw [hreq, Option.none_or, List.find?_singleton, htwo]
            rfl
          refine ⟨_, ?_, served_slave h hj8⟩
          unfold Pics.acknowledge
          rw [hr]
          simp only [hcas 2 (by decide), decide_true, h.slave.cascade, h.slave.base, hj]
          rw [if_pos (by decide)]
          congr 2
          show 40 + j = 32 + (8 + j)
          omega
      | none =>
          rw [hj] at htwo
          have hr : p.wired.request = [3, 4, 5, 6, 7].find? p.wired.irr.getLsbD := by
            rw [hreq, Option.none_or, List.find?_singleton, htwo]
            rfl
          cases hhigh : [3, 4, 5, 6, 7].find? p.wired.irr.getLsbD with
          | none =>
              show p.acknowledge = none
              unfold Pics.acknowledge
              rw [hr, hhigh]
          | some k =>
              have hk : k ∈ [3, 4, 5, 6, 7] := List.mem_of_find?_eq_some hhigh
              have hk2 : k < 8 ∧ k ≠ 2 := by
                simp only [List.mem_cons, List.not_mem_nil, or_false] at hk
                omega
              exact ⟨_, hone k hk2.1 hk2.2 (hr.trans hhigh), served_master h hk2.1⟩

theorem filter_find {P Q : Nat → Bool} {l : List Nat} (hnodup : l.Nodup) (h : l.find? P = some n)
    (hQ : ∀ k ∈ l, Q k = (P k && k != n)) : l.filter P = n :: l.filter Q := by
  obtain ⟨hn, as, bs, rfl, has⟩ := List.find?_eq_some_iff_append.mp h
  have hnil : as.filter P = [] := List.filter_eq_nil_iff.mpr fun a ha => by simpa using has a ha
  have hnil' : as.filter Q = [] := by
    refine List.filter_eq_nil_iff.mpr fun a ha => ?_
    rw [hQ a (List.mem_append_left _ ha), List.filter_eq_nil_iff.mp hnil a ha |> Bool.eq_false_of_not_eq_true]
    simp
  have hbs : bs.filter Q = bs.filter P := by
    refine List.filter_congr fun b hb => ?_
    have hne : b ≠ n := by
      rintro rfl
      have := (List.nodup_append.mp hnodup).2.1
      exact (List.nodup_cons.mp this).1 hb
    rw [hQ b (List.mem_append_right _ (List.mem_cons_of_mem n hb)), bne_iff_ne.mpr hne, Bool.and_true]
  have hQn : Q n = false := by
    rw [hQ n (List.mem_append_right _ List.mem_cons_self)]
    simp
  rw [List.filter_append, List.filter_append, hnil, hnil', List.filter_cons_of_pos hn,
    List.filter_cons_of_neg (by rw [hQn]; decide), hbs, List.nil_append, List.nil_append]

/-! ## The kernel -/

/-- The chips, `interrupt_registers`, `focus_interrupt`, and the vectors whose function has been called. -/
structure Kernel where
  pics : Pics
  registers : Nat → Nat
  focus : Bool
  called : List Nat

def irqHandle (k : Kernel) (code : Nat) : Kernel :=
  if code < 32 then k
  else
    let k := { k with pics := picEndofinterrupt k.pics ((code - 32) % 256) }
    if k.registers code = 0 then k
    else if k.focus then k
    else { k with called := k.called ++ [code] }

/-- A device requests a line; the processor takes an interrupt; a chip asked for one, but the request is gone when it is
acknowledged, and the chip answers with its last vector; a program issues `int` with one of the vectors 32 to 47. -/
inductive Event where
  | raise (n : Nat)
  | take
  | spurious (slave : Bool)
  | int (n : Fin 16)

def Pics.raise (p : Pics) (n : Nat) : Pics :=
  if n < 8 then { p with master := { p.master with irr := p.master.irr ||| bit n } }
  else { p with slave := { p.slave with irr := p.slave.irr ||| bit (n - 8) } }

/-- From the acknowledgement to the return from the interrupt nothing else comes in: the gate clears `IF`, and the stub
sets it last. -/
def Kernel.step (k : Kernel) : Event → Kernel
  | .raise n => if n ∈ order then { k with pics := k.pics.raise n } else k
  | .take =>
    match k.pics.acknowledge with
    | none => k
    | some (q, v) => irqHandle { k with pics := q } v
  | .spurious false => irqHandle k (k.pics.master.base.toNat + 7)
  | .spurious true =>
    irqHandle { k with pics := { k.pics with master := k.pics.wired.serve 2 } } (k.pics.slave.base.toNat + 7)
  | .int n => irqHandle k (32 + n)

def Kernel.Calls (k : Kernel) (n : Nat) : Bool := k.registers (32 + n) != 0 && ! k.focus

theorem picEndofinterrupt_eq (p : Pics) (irq : Nat) : picEndofinterrupt p irq =
    ⟨{ p.master with isr := clearLowest p.master.isr },
      if irq ≥ 8 then { p.slave with isr := clearLowest p.slave.isr } else p.slave⟩ := by
  unfold picEndofinterrupt
  by_cases h : irq ≥ 8
  · rw [if_pos h, if_pos h]
    rfl
  · rw [if_neg h, if_neg h]
    rfl

theorem irqHandle_eq (k : Kernel) (hn : n < 16) : irqHandle k (32 + n) =
    { k with pics := picEndofinterrupt k.pics n, called := k.called ++ if k.Calls n then [32 + n] else [] } := by
  have hcode : (32 + n - 32) % 256 = n := by omega
  unfold irqHandle Kernel.Calls
  rw [if_neg (by omega), hcode]
  by_cases hr : k.registers (32 + n) = 0
  · simp [hr]
  · cases k.focus <;> simp [hr]

structure Quiet (p q : Pics) : Prop where
  master : q.master = { p.master with irr := q.master.irr }
  slave : q.slave = { p.slave with irr := q.slave.irr }

theorem Quiet.remapped {q : Pics} (h : Quiet p q) (hp : Remapped p) : Remapped q := by
  have hm := hp.master
  have hs := hp.slave
  constructor
  · rw [h.master]
    exact ⟨hm.isr, hm.imr, hm.base, hm.cascade, hm.mode, hm.init⟩
  · rw [h.slave]
    exact ⟨hs.isr, hs.imr, hs.base, hs.cascade, hs.mode, hs.init⟩

/-- The end of the interrupt takes the line out of service, on both chips if it is the slave's. -/
theorem Served.quiet {q : Pics} (h : Remapped p) (hn : n < 16) (hq : Served p q n) :
    Quiet p (picEndofinterrupt q n) := by
  rw [picEndofinterrupt_eq]
  obtain ⟨i, hmaster, hi⟩ := hq.master
  have hslave := hq.slave
  constructor
  · have hisr : clearLowest q.master.isr = p.master.isr := by
      rw [hmaster, h.master.isr]
      exact clearLowest_bit hi
    show { q.master with isr := clearLowest q.master.isr } = _
    rw [hisr, hmaster]
  · by_cases h8 : 8 ≤ n
    · have hisr : clearLowest q.slave.isr = p.slave.isr := by
        rw [hslave, h.slave.isr, if_pos h8]
        exact clearLowest_bit (by omega)
      simp only [ge_iff_le, h8, if_true, hisr]
      rw [hslave]
    · simp only [ge_iff_le, h8, if_false] at hslave ⊢
      rw [← h.slave.isr] at hslave
      exact hslave

theorem pending_eoi (p : Pics) (irq n : Nat) : (picEndofinterrupt p irq).Pending n = p.Pending n := by
  rw [picEndofinterrupt_eq]
  unfold Pics.Pending
  split_ifs <;> rfl

/-- An end of interrupt with no line in service changes nothing. -/
theorem Remapped.eoi (h : Remapped p) (irq : Nat) : picEndofinterrupt p irq = p := by
  have hmaster : { p.master with isr := clearLowest p.master.isr } = p.master := by
    rw [h.master.isr, clearLowest_zero, ← h.master.isr]
  have hslave : { p.slave with isr := clearLowest p.slave.isr } = p.slave := by
    rw [h.slave.isr, clearLowest_zero, ← h.slave.isr]
  rw [picEndofinterrupt_eq, hmaster, hslave, ite_self]

variable {k k' : Kernel}

/-- The functions in `l` have been called, and the chips apart nothing else has changed. -/
def Ran (k k' : Kernel) (l : List Nat) : Prop := k' = { k with pics := k'.pics, called := k.called ++ l }

theorem Ran.trans {k'' : Kernel} {l l' : List Nat} (h : Ran k k' l) (h' : Ran k' k'' l') : Ran k k'' (l ++ l') := by
  unfold Ran at *
  rw [h'.trans (congrArg (fun x : Kernel => { x with pics := k''.pics, called := x.called ++ l' }) h), List.append_assoc]

/-- An interrupt that is taken is that of the first line that waits, and afterwards no line is in service. -/
theorem step_take (h : Remapped k.pics) :
    match k.pics.waiting with
    | [] => k.step .take = k
    | n :: ns => Remapped (k.step .take).pics ∧ (k.step .take).pics.waiting = ns ∧
      Ran k (k.step .take) (if k.Calls n then [32 + n] else []) := by
  have hack := acknowledge_eq h
  unfold Pics.waiting
  cases hfind : order.find? k.pics.Pending with
  | none =>
      rw [hfind] at hack
      have hnil : order.filter k.pics.Pending = [] := by
        rw [List.filter_eq_nil_iff]
        exact fun a ha => List.find?_eq_none.mp hfind a ha
      rw [hnil]
      simp only [Kernel.step, hack]
  | some n =>
      rw [hfind] at hack
      obtain ⟨q, hq, hserved⟩ := hack
      have hn : n < 16 := by
        have := mem_order (List.mem_of_find?_eq_some hfind)
        omega
      have hstep : k.step .take = { k with pics := picEndofinterrupt q n, called := k.called ++ if k.Calls n then
          [32 + n] else [] } := by
        simp only [Kernel.step, hq]
        exact irqHandle_eq { k with pics := q } hn
      have hpics : (k.step .take).pics = picEndofinterrupt q n := by
        rw [hstep]
      have hwait := filter_find (by decide : order.Nodup) hfind
        fun a ha => (pending_eoi q n a).trans (hserved.pending a ha)
      rw [hwait, ← hpics]
      refine ⟨?_, rfl, ?_⟩
      · rw [hpics]
        exact (hserved.quiet h hn).remapped h
      · unfold Ran
        rw [hpics]
        exact hstep

/-- The slave answers although nothing is requested: the master serves its line, and both chips get their end. -/
theorem quiet_spurious (h : Remapped p) :
    Quiet p (picEndofinterrupt { p with master := p.wired.serve 2 } 15) := by
  rw [picEndofinterrupt_eq, serve_eq (wired_idle h)]
  have hmaster : clearLowest (bit 2) = p.master.isr := by
    rw [h.master.isr]
    exact clearLowest_bit (by decide)
  have hslave : clearLowest p.slave.isr = p.slave.isr := by
    rw [h.slave.isr, clearLowest_zero]
  constructor
  · exact congrArg (fun b => ({ p.wired with irr := p.wired.irr &&& ~~~ bit 2, isr := b } : Chip)) hmaster
  · exact congrArg (fun b => ({ p.slave with isr := b } : Chip)) hslave

theorem remapped_step (h : Remapped k.pics) (e : Event) : Remapped (k.step e).pics := by
  cases e with
  | raise n =>
      show Remapped (if n ∈ order then { k with pics := k.pics.raise n } else k).pics
      split_ifs
      · refine Quiet.remapped ?_ h
        unfold Pics.raise
        split_ifs <;> exact ⟨rfl, rfl⟩
      · exact h
  | take =>
      have htake := step_take h
      split at htake
      · rw [htake]
        exact h
      · exact htake.1
  | spurious slave =>
      cases slave with
      | false =>
          have hv : k.step (.spurious false) = irqHandle k (32 + 7) := by
            show irqHandle k (k.pics.master.base.toNat + 7) = _
            rw [h.master.base]
            rfl
          rw [hv, irqHandle_eq k (by decide)]
          show Remapped (picEndofinterrupt k.pics 7)
          rw [h.eoi]
          exact h
      | true =>
          have hv : k.step (.spurious true) =
              irqHandle { k with pics := { k.pics with master := k.pics.wired.serve 2 } } (32 + 15) := by
            show irqHandle _ (k.pics.slave.base.toNat + 7) = _
            rw [h.slave.base]
            rfl
          rw [hv, irqHandle_eq _ (by decide)]
          exact (quiet_spurious h).remapped h
  | int n =>
      show Remapped (irqHandle k (32 + n)).pics
      rw [irqHandle_eq k n.isLt]
      show Remapped (picEndofinterrupt k.pics n)
      rw [h.eoi]
      exact h

/-- The interrupts that are taken one after another, while no more come in. -/
def Kernel.takes (k : Kernel) : Nat → Kernel
  | 0 => k
  | m + 1 => (k.takes m).step .take

theorem takes_eq (h : Remapped k.pics) (m : Nat) :
    Remapped (k.takes m).pics ∧ (k.takes m).pics.waiting = k.pics.waiting.drop m ∧
      Ran k (k.takes m) (((k.pics.waiting.take m).filter k.Calls).map (32 + ·)) := by
  induction m with
  | zero =>
      refine ⟨h, rfl, ?_⟩
      show k = { k with called := k.called ++ [] }
      rw [List.append_nil]
  | succ m ih =>
      obtain ⟨hr, hw, hran⟩ := ih
      have hstep := step_take hr
      have hnext : k.takes (m + 1) = (k.takes m).step .take := rfl
      rw [hw, ← hnext] at hstep
      cases hd : k.pics.waiting.drop m with
      | nil =>
          rw [hd] at hstep hw
          have hlen : k.pics.waiting.length ≤ m := List.drop_eq_nil_iff.mp hd
          have htake : k.pics.waiting.take (m + 1) = k.pics.waiting.take m := by
            rw [List.take_of_length_le hlen, List.take_of_length_le (Nat.le_succ_of_le hlen)]
          rw [hstep, htake, List.drop_eq_nil_iff.mpr (Nat.le_succ_of_le hlen)]
          exact ⟨hr, hw, hran⟩
      | cons n ns =>
          rw [hd] at hstep
          obtain ⟨hr', hw', hran'⟩ := hstep
          have hget : k.pics.waiting[m]? = some n := by
            rw [← List.head?_drop, hd]
            rfl
          refine ⟨hr', ?_, ?_⟩
          · rw [hw', List.drop_add_one_eq_tail_drop, hd]
            rfl
          · have hcalls : (k.takes m).Calls n = k.Calls n := by
              rw [hran]
              rfl
            have hlast : ([n].filter k.Calls).map (32 + ·) = if k.Calls n then [32 + n] else [] := by
              cases hc : k.Calls n <;> simp [hc]
            rw [List.take_add_one, hget, Option.toList_some, List.filter_append, List.map_append, hlast, ← hcalls]
            exact hran.trans hran'

def KernelStep (k : Kernel) (e : Event) (k' : Kernel) : Prop := k' = k.step e

/-- After `pic_remapped`, in every run, no line is in service when the processor is not in an interrupt, with spurious
interrupts and `int` instructions among the events too. So every line that waits gets its function called: once, with the
vector of the line, and in the order of the priorities. -/
theorem irq_delivered {k t : Kernel} (h : k.pics = picRemapped p) (hrun : Reaches KernelStep k t) :
    t.pics.master.isr = 0 ∧ t.pics.slave.isr = 0 ∧ (t.takes 15).pics.waiting = [] ∧
      (t.takes 15).called = t.called ++ ((order.filter t.pics.Pending).filter t.Calls).map (32 + ·) := by
  have hremapped : Remapped t.pics := by
    refine hrun.invariant (P := fun k => Remapped k.pics) (fun u e v hu hstep => ?_) ?_
    · rw [hstep]
      exact remapped_step hu e
    · rw [h]
      exact remapped_picRemapped p
  obtain ⟨-, hw, hran⟩ := takes_eq hremapped 15
  have hlen : t.pics.waiting.length ≤ 15 := List.length_filter_le _ order
  refine ⟨hremapped.master.isr, hremapped.slave.isr, ?_, ?_⟩
  · rw [hw]
    exact List.drop_eq_nil_iff.mpr hlen
  · rw [hran, List.take_of_length_le hlen]
    rfl

def bootKernel : Kernel where
  pics := picRemapped ⟨⟨0, 0x81, 0, 8, 0, 0, .ready⟩, ⟨0, 0, 0xff, 0x70, 0, 0, .ready⟩⟩
  registers v := if v = 32 ∨ v = 33 then 0x1000 else 0
  focus := false
  called := []

/-- The disk, the keyboard and the timer ask at once, after a spurious interrupt of the slave. -/
theorem irq_delivered_bootKernel :
    ((((((bootKernel.step (.spurious true)).step (.raise 14)).step (.raise 1)).step (.raise 0)).takes 15).called) =
      [32, 33] := by
  have h := (irq_delivered (k := bootKernel) rfl
    ((((Reaches.refl bootKernel : Reaches KernelStep _ _).snoc (l := .spurious true) rfl).snoc (l := .raise 14) rfl).snoc
      (l := .raise 1) rfl |>.snoc (l := .raise 0) rfl)).2.2.2
  rw [h]
  decide

end HaOS.Irq
