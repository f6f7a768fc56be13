import Mathlib.Algebra.Order.Monoid.Canonical.Defs
import Mathlib.Algebra.Order.Group.Multiset
import Mathlib.Data.Multiset.OrderedMonoid
import HaOS.Alloc.Merge
import HaOS.Lib.Bytes

/-!
# The account of the heap

The callers of `new_alloc` and `free_alloc` are followed by the blocks that they leave in use.

* `Account` : the heap, and the requests that were made; `Account.alloc`, `Account.free`, `Account.storeAll` : what a
  caller does;
* `Heap.Live h a` : the block at `a` is in use; `InUse h m` : the blocks in use are those of the pointers `m`;
* `InUse.alloc`, `InUse.free`, `InUse.store` : what a request, a block given back and a store into a block change;
* `Leaves k k' held P` : between the two states the pointers `held` came into the caller's hands, and what else was taken
  was given back, exactly when `P` holds;
* `Leaves.alloc`, `Leaves.free`, `Leaves.storeAll`, `Leaves.forget`, `Leaves.trans` : how a caller is followed;
* `Leaves.live_iff` : a caller that holds nothing in the end.
-/

namespace HaOS.Alloc
open Lib (byteOf littleEndian)

/-! ## Stores into a block -/

/-- The bytes of a header. -/
def AllocBlock.byte (b : AllocBlock) (i : Nat) : UInt8 :=
  if i < 8 then byteOf b.size i else if i = 8 then UInt8.ofNat b.available else byteOf b.next (i - 9)

/-- The bytes `bs` stored from `p` on, and what they make of the headers that they meet. -/
def Heap.storeBytes (h : Heap) (p : Nat) (bs : List UInt8) : Heap :=
  { h with mem := fun x =>
      if x + sizeofAllocBlock ≤ p ∨ p + bs.length ≤ x then h.mem x
      else
        let f := Lib.storeBytes (fun y => (h.mem x).byte (y - x)) p bs
        ⟨littleEndian f x 8, (f (x + 8)).toNat, littleEndian f (x + 9) 8⟩ }

/-! ## The account -/

/-- A request: the heap that it met, its size, and the heap that it left. -/
structure Asked where
  before : Heap
  size : Nat
  after : Heap

/-- The heap and the requests so far, the last one first. Nothing reads the latter. -/
structure Account where
  heap : Heap
  asked : List Asked

def Account.alloc (walk depth : Nat) (k : Account) (size : Nat) : Option (Account × Nat) :=
  (newAlloc walk depth k.heap size).map fun r => (⟨r.1, ⟨k.heap, size, r.1⟩ :: k.asked⟩, r.2)

def Account.free (walk : Nat) (k : Account) (p : Nat) : Option Account :=
  (freeAlloc walk k.heap p).map fun h => { k with heap := h }

def Account.storeAll (k : Account) (p : Nat) : List (List UInt8) → Account
  | [] => k
  | bs :: more => Account.storeAll { k with heap := k.heap.storeBytes p bs } p more

/-- The request does not spoil the list, and the heap still ends below the top of the address space. -/
def Asked.Plain (x : Asked) : Prop := ¬ Overruns x.before x.size ∧ x.after.heapStart + x.after.heapSize < 2 ^ 64

def Account.Plain (k : Account) : Prop := ∀ x ∈ k.asked, x.Plain

/-! ## The blocks in use -/

/-- The block at `a` is on the list, and in use. -/
def Heap.Live (h : Heap) (a : Nat) : Prop := (h.mem a).available = 0 ∧ ∃ l, Lib.Chain h.next h.heapStart l ∧ a ∈ l

/-- The heap is a list of blocks that ends below the top of the address space. -/
structure Ready (h : Heap) (bs : List Block) : Prop where
  tiled : Tiled h bs
  base : 2 ^ 64 - 2 ^ 31 ≤ h.heapStart
  top : h.heapStart + h.heapSize < 2 ^ 64

def payloads (a : Nat) (bs : List Block) : Multiset Nat := (inUse a bs).map fun x => x.1 + sizeofAllocBlock

def InUse (h : Heap) (m : Multiset Nat) : Prop := ∃ bs, Ready h bs ∧ m = payloads h.heapStart bs

/-- What a pointer stands for among those that a caller holds. -/
def held (p : Nat) : Multiset Nat := if p = 0 then 0 else {p}

variable {h h' : Heap} {bs bs' pre post : List Block} {b : Block} {a o p n size walk depth : Nat} {m : Multiset Nat}
  {k k' k'' : Account} {H : Multiset Nat} {P Q : Prop} {bytes : List UInt8} {sectors : List (List UInt8)}

theorem Account.plain (hroomy : k.asked.all (fun x => roomy walk x.before x.after) = true) : k.Plain := by
  rw [List.all_eq_true] at hroomy
  exact fun x hx => of_roomy (hroomy x hx)

theorem ready_of_reaches {mem : Nat → AllocBlock} {start : Nat} {s : State} (hstart : Linked start)
    (hr : Lib.Reaches (Lib.Guarded (fun s c => ¬ Call.Overruns s c) Step) (.boot mem start) s) : ∃ bs, Ready s.heap bs := by
  obtain ⟨bs, hi⟩ := hr.invariant (P := fun s => ∃ bs, Inv s bs)
    (fun s c t hi hs => hi.choose_spec.step hs.2 hs.1) ⟨_, inv_boot hstart⟩
  exact ⟨bs, hi.tiled, hi.base, hi.top⟩

theorem mem_payloads : p ∈ payloads a bs ↔ ∃ o b, At o b bs ∧ b.free = false ∧ p = a + o + sizeofAllocBlock := by
  rw [payloads, Multiset.mem_coe, List.mem_map]
  constructor
  · rintro ⟨x, hx, rfl⟩
    obtain ⟨o, b, hb, hf, rfl⟩ := mem_inUse.mp hx
    exact ⟨o, b, hb, hf, rfl⟩
  · rintro ⟨o, b, hb, hf, rfl⟩
    exact ⟨_, mem_inUse.mpr ⟨o, b, hb, hf, rfl⟩, rfl⟩

theorem nodup_payloads (hpos : ∀ b ∈ bs, 0 < b.size) : (payloads a bs).Nodup := by
  rw [payloads, Multiset.coe_nodup]
  induction bs generalizing a with
  | nil => exact List.nodup_nil
  | cons b bs ih =>
      have hrest := @ih (a + b.size) fun c hc => hpos c (List.mem_cons_of_mem b hc)
      have hb := hpos b List.mem_cons_self
      rw [inUse]
      split_ifs
      · exact hrest
      · rw [List.map_cons, List.nodup_cons]
        refine ⟨fun hmem => ?_, hrest⟩
        obtain ⟨x, hx, heq⟩ := List.mem_map.mp hmem
        have hle := (le_of_mem_inUse hx).1
        omega

theorem Tiled.live_iff (ht : Tiled h bs) : h.Live a ↔ a + sizeofAllocBlock ∈ payloads h.heapStart bs := by
  have hchain := ht.laid.chain ht.start
  rw [mem_payloads]
  constructor
  · rintro ⟨hav, l, hl, ha⟩
    rw [hl.unique hchain] at ha
    obtain ⟨pre, b, post, rfl, rfl⟩ := mem_starts_iff.mp ha
    rw [ht.header] at hav
    refine ⟨extent pre, b, at_append.mpr (.inr ⟨0, rfl, .head⟩), ?_, rfl⟩
    simpa [Block.header] using hav
  · rintro ⟨o, b, hb, hf, ha⟩
    obtain ⟨pre, post, rfl, rfl⟩ := hb.exists_append
    obtain rfl : a = h.heapStart + extent pre := Nat.add_right_cancel ha
    refine ⟨?_, _, hchain, mem_starts⟩
    rw [ht.header, Block.header, hf]
    rfl

theorem InUse.nodup (hh : InUse h m) : m.Nodup := by
  obtain ⟨bs, hr, rfl⟩ := hh
  exact nodup_payloads hr.tiled.pos

theorem InUse.live_iff (hh : InUse h m) : h.Live a ↔ a + sizeofAllocBlock ∈ m := by
  obtain ⟨bs, hr, rfl⟩ := hh
  exact hr.tiled.live_iff

theorem InUse.live_start (hh : InUse h m) (hav : (h.mem h.heapStart).available = 0) : h.Live h.heapStart := by
  obtain ⟨bs, hr, rfl⟩ := hh
  have hchain := hr.tiled.laid.chain hr.tiled.start
  exact ⟨hav, _, hchain, hchain.head_mem⟩

theorem InUse.exists_live (hh : InUse h m) (hp : p ∈ m) : ∃ a, p = a + sizeofAllocBlock := by
  obtain ⟨bs, hr, rfl⟩ := hh
  obtain ⟨o, b, -, -, rfl⟩ := mem_payloads.mp hp
  exact ⟨_, rfl⟩

/-- The same blocks are in use exactly when nothing was lost. -/
theorem InUse.lost_iff {lost : Multiset Nat} (hh : InUse h m) (hh' : InUse h' (lost + m)) :
    (∀ a, h'.Live a ↔ h.Live a) ↔ lost = 0 := by
  simp only [hh.live_iff, hh'.live_iff, Multiset.mem_add, or_iff_right_iff_imp]
  constructor
  · intro hall
    refine Multiset.eq_zero_of_forall_notMem fun p hp => ?_
    obtain ⟨a, rfl⟩ := hh'.exists_live (Multiset.mem_add.mpr (.inl hp))
    exact Multiset.disjoint_left.mp (Multiset.nodup_add.mp hh'.nodup).2.2 hp (hall a hp)
  · rintro rfl a ha
    exact absurd ha (Multiset.notMem_zero _)

/-! ## A request -/

theorem inUse_cons_used (hf : b.free = false) : inUse a (b :: bs) = (a, b.size) :: inUse (a + b.size) bs := by
  rw [inUse, hf]
  rfl

theorem inUse_cons_free (hf : b.free = true) : inUse a (b :: bs) = inUse (a + b.size) bs := by
  rw [inUse, if_pos hf]

theorem payloads_append {cs : List Block} : payloads a (bs ++ cs) = payloads a bs + payloads (a + extent bs) cs := by
  rw [payloads, inUse_append, List.map_append, ← Multiset.coe_add]
  rfl

theorem payloads_used (hf : b.free = false) :
    payloads a (b :: bs) = {a + sizeofAllocBlock} + payloads (a + b.size) bs := by
  rw [payloads, inUse_cons_used hf, List.map_cons, ← Multiset.cons_coe]
  exact (Multiset.singleton_add _ _).symm

theorem payloads_free (hf : b.free = true) : payloads a (b :: bs) = payloads (a + b.size) bs := by
  rw [payloads, inUse_cons_free hf]
  rfl

theorem payloads_nil : payloads a [] = 0 := rfl

theorem Allocates.payloads (ha : Allocates n bs o bs') :
    payloads a bs' = {a + o + sizeofAllocBlock} + Alloc.payloads a bs := by
  induction ha with
  | @take pre post b _ hb _ =>
      rw [payloads_append, payloads_append, payloads_used rfl, payloads_free hb.1, add_left_comm]
  | @split pre post b _ hb hn =>
      have hsize : a + extent pre + n + (b.size - n) = a + extent pre + b.size := by omega
      rw [payloads_append, payloads_append, payloads_used rfl, payloads_free rfl, payloads_free hb.1, hsize, add_left_comm]
  | @extend pre b _ hb _ _ =>
      rw [payloads_append, payloads_append, payloads_used rfl, payloads_free rfl, payloads_free hb.1, payloads_nil,
        payloads_nil, add_left_comm]
  | @grow pre b o bs _ _ ih =>
      have hlast : ∀ a size, Alloc.payloads a [⟨size, b.free⟩] = Alloc.payloads a [b] := by
        intro a size
        cases hf : b.free with
        | true => rw [payloads_free rfl, payloads_free hf, payloads_nil, payloads_nil]
        | false => rw [payloads_used rfl, payloads_used hf, payloads_nil, payloads_nil]
      rw [ih, payloads_append, payloads_append, hlast]

/-- A request gets a block with room for its bytes. -/
theorem InUse.alloc (hh : InUse h m) (hn : size + sizeofAllocBlock < 2 ^ 31) (hover : ¬ Overruns h size)
    (htop : h'.heapStart + h'.heapSize < 2 ^ 64) (hr : newAlloc walk depth h size = some (h', p)) :
    InUse h' (held p + m) ∧
      (size ≠ 0 → p ≠ 0 ∧ size + sizeofAllocBlock ≤ (h'.mem (p - sizeofAllocBlock)).size) := by
  obtain ⟨bs, hready, rfl⟩ := hh
  by_cases hsize : size = 0
  · subst hsize
    obtain ⟨rfl, rfl⟩ := newAlloc_zero hr
    refine ⟨⟨bs, hready, ?_⟩, fun h0 => absurd rfl h0⟩
    rw [held, if_pos rfl, zero_add]
  · have hi : Inv ⟨h, fun _ => none⟩ bs := ⟨hready.tiled, hready.base, hready.top, fun _ _ hl => by cases hl⟩
    obtain ⟨hstart, -, o, bs', ha, ht, rfl⟩ := hi.served hsize hn hover hr htop
    obtain ⟨b, hb, -, hle⟩ := ha.taken
    have hp : h.heapStart + o + sizeofAllocBlock ≠ 0 := by
      have hpos := hready.tiled.start
      omega
    refine ⟨⟨bs', ⟨ht, hstart ▸ hready.base, htop⟩, ?_⟩, fun _ => ⟨hp, ?_⟩⟩
    · rw [held, if_neg hp, hstart]
      exact ha.payloads.symm
    · rw [Nat.add_sub_cancel, ← hstart, ht.at hb]
      exact hle

/-! ## A block given back, and a store -/

theorem InUse.free (hh : InUse h (held p + m)) (hr : freeAlloc walk h p = some h') : InUse h' m := by
  by_cases hp : p = 0
  · subst hp
    rw [freeAlloc_eq, if_pos rfl, Option.some.injEq] at hr
    rwa [← hr, ← zero_add m]
  · have hnodup := hh.nodup
    obtain ⟨bs, hready, hm⟩ := hh
    rw [held, if_neg hp] at hm hnodup
    have hmem : p ∈ payloads h.heapStart bs := by
      rw [← hm, Multiset.mem_add]
      exact .inl (Multiset.mem_singleton_self p)
    obtain ⟨o, b, hb, -, rfl⟩ := mem_payloads.mp hmem
    obtain ⟨pre, post, rfl, rfl⟩ := hb.exists_append
    obtain ⟨hstart, hsize, bs', hrel, ht⟩ := freeAlloc_refines hready.tiled hready.top hr
    refine ⟨bs', ⟨ht, hstart ▸ hready.base, by rw [hstart, hsize]; exact hready.top⟩, ?_⟩
    -- what is left of the pointers when `p` is taken out
    have hfilter : payloads h.heapStart bs' =
        (payloads h.heapStart (pre ++ b :: post)).filter (· ≠ h.heapStart + extent pre + sizeofAllocBlock) := by
      rw [payloads, hrel.inUse hready.tiled.pos, payloads, Multiset.filter_coe, List.filter_map]
      congr 2
      refine List.filter_congr fun x _ => ?_
      simp only [Function.comp, ne_eq, Nat.add_right_cancel_iff]
    rw [hstart, hfilter, ← hm, Multiset.filter_add, Multiset.filter_singleton, if_neg (by simp), Multiset.empty_eq_zero,
      zero_add]
    refine (Multiset.filter_eq_self.mpr fun x hx heq => ?_).symm
    exact Multiset.disjoint_left.mp (Multiset.nodup_add.mp hnodup).2.2 (Multiset.mem_singleton_self _) (heq ▸ hx)

/-- Bytes that have room in a block of the list change no header. -/
theorem Tiled.storeBytes (ht : Tiled h (pre ++ b :: post)) (hroom : bytes.length + sizeofAllocBlock ≤ b.size) :
    Tiled (h.storeBytes (h.heapStart + extent pre + sizeofAllocBlock) bytes) (pre ++ b :: post) := by
  have h17 : sizeofAllocBlock = 17 := rfl
  refine ht.replace [b] [] rfl ?_ trivial ?_ (by simp) ?_ ?_ (by simp)
  · intro x hx
    simp only [extent_cons, extent_nil] at hx
    exact if_pos (by omega)
  · rw [extent_nil, Nat.add_zero]
    exact (if_pos (.inl (Nat.le_refl _))).trans ht.header
  · rw [extent_cons, extent_nil, Nat.add_zero, Nat.zero_add]
    rfl
  · simpa using ht.min b (by simp)

theorem InUse.store (hh : InUse h m) (hp : p ∈ m)
    (hroom : bytes.length + sizeofAllocBlock ≤ (h.mem (p - sizeofAllocBlock)).size) : InUse (h.storeBytes p bytes) m := by
  obtain ⟨bs, hready, rfl⟩ := hh
  obtain ⟨o, b, hb, -, rfl⟩ := mem_payloads.mp hp
  rw [Nat.add_sub_cancel, hready.tiled.at hb] at hroom
  obtain ⟨pre, post, rfl, rfl⟩ := hb.exists_append
  exact ⟨_, ⟨hready.tiled.storeBytes hroom, hready.base, hready.top⟩, rfl⟩

theorem InUse.storeAll (hroom : ∀ bs ∈ sectors, bs.length ≤ n) (hh : InUse k.heap m) (hp : p ∈ m)
    (hn : n + sizeofAllocBlock ≤ (k.heap.mem (p - sizeofAllocBlock)).size) : InUse (k.storeAll p sectors).heap m := by
  induction sectors generalizing k with
  | nil => exact hh
  | cons bs sectors ih =>
      obtain ⟨hbs, hrest⟩ := List.forall_mem_cons.mp hroom
      have hstore := hh.store hp (Nat.le_trans (Nat.add_le_add_right hbs _) hn)
      refine ih hrest hstore ?_
      obtain ⟨a, rfl⟩ := hh.exists_live hp
      have hkeep : (k.heap.storeBytes (a + sizeofAllocBlock) bs).mem a = k.heap.mem a := if_pos (.inl (Nat.le_refl _))
      rw [Nat.add_sub_cancel] at hn ⊢
      rwa [hkeep]

theorem storeAll_asked (k : Account) (p : Nat) : ∀ sectors : List (List UInt8), (k.storeAll p sectors).asked = k.asked
  | [] => rfl
  | _ :: sectors => storeAll_asked _ p sectors

/-! ## A caller -/

/-- From a heap that holds `m`, and while the requests are plain, the caller comes to hold `H` more, and no block is left
without an owner exactly when `P`. -/
def Leaves (k k' : Account) (H : Multiset Nat) (P : Prop) : Prop :=
  k.asked <:+ k'.asked ∧
    ∀ m, InUse k.heap m → k'.Plain → ∃ lost, InUse k'.heap (lost + H + m) ∧ (P ↔ lost = 0)

/-- The pointer that a request of `size` bytes got has room for them. -/
def Room (k k' : Account) (p size : Nat) : Prop :=
  ∀ m, InUse k.heap m → k'.Plain →
    size ≠ 0 → p ≠ 0 ∧ size + sizeofAllocBlock ≤ (k'.heap.mem (p - sizeofAllocBlock)).size

theorem Leaves.refl (k : Account) : Leaves k k 0 True :=
  ⟨List.suffix_refl _, fun m hm _ => ⟨0, by rwa [zero_add, zero_add], iff_of_true trivial rfl⟩⟩

theorem Leaves.plain (h : Leaves k k' H P) (hk : k'.Plain) : k.Plain := fun x hx => hk x (h.1.subset hx)

theorem Leaves.congr (h : Leaves k k' H P) (hPQ : P ↔ Q) : Leaves k k' H Q := by
  rwa [← propext hPQ]

theorem Leaves.alloc (h : Leaves k k' H P) (hn : size + sizeofAllocBlock < 2 ^ 31)
    (hr : k'.alloc walk depth size = some (k'', p)) : Leaves k k'' (held p + H) P ∧ Room k k'' p size := by
  obtain ⟨hasked, hleaves⟩ := h
  obtain ⟨r, hnew, heq⟩ := Option.map_eq_some_iff.mp hr
  obtain ⟨rfl, rfl⟩ := Prod.mk.inj heq
  have hstep : ∀ m, InUse k.heap m → Account.Plain ⟨r.1, ⟨k'.heap, size, r.1⟩ :: k'.asked⟩ → ∃ lost,
      (P ↔ lost = 0) ∧ InUse r.1 (held r.2 + (lost + H + m)) ∧
        (size ≠ 0 → r.2 ≠ 0 ∧ size + sizeofAllocBlock ≤ (r.1.mem (r.2 - sizeofAllocBlock)).size) := by
    intro m hm hplain
    obtain ⟨⟨hover, htop⟩, hbefore⟩ := List.forall_mem_cons.mp hplain
    obtain ⟨lost, hholds, hP⟩ := hleaves m hm hbefore
    exact ⟨lost, hP, hholds.alloc hn hover htop hnew⟩
  refine ⟨⟨hasked.trans (List.suffix_cons _ _), fun m hm hplain => ?_⟩, fun m hm hplain => ?_⟩
  · obtain ⟨lost, hP, hholds, -⟩ := hstep m hm hplain
    refine ⟨lost, ?_, hP⟩
    rwa [add_left_comm lost, add_assoc (held r.2)]
  · obtain ⟨lost, -, -, hroom⟩ := hstep m hm hplain
    exact hroom

theorem Leaves.free (h : Leaves k k' (held p + H) P) (hr : k'.free walk p = some k'') : Leaves k k'' H P := by
  obtain ⟨hasked, hleaves⟩ := h
  obtain ⟨g, hfree, rfl⟩ := Option.map_eq_some_iff.mp hr
  refine ⟨hasked, fun m hm hplain => ?_⟩
  obtain ⟨lost, hholds, hP⟩ := hleaves m hm hplain
  rw [add_left_comm lost, add_assoc] at hholds
  exact ⟨lost, hholds.free hfree, hP⟩

theorem Leaves.storeAll (h : Leaves k k' (held p + H) P) (hroom : Room k k' p n) (hn : n ≠ 0)
    (hsectors : ∀ bs ∈ sectors, bs.length ≤ n) : Leaves k (k'.storeAll p sectors) (held p + H) P := by
  have hasked := storeAll_asked k' p sectors
  refine ⟨hasked ▸ h.1, fun m hm hplain => ?_⟩
  have hplain' : k'.Plain := by rwa [Account.Plain, hasked] at hplain
  obtain ⟨lost, hholds, hP⟩ := h.2 m hm hplain'
  obtain ⟨hp, hsize⟩ := hroom m hm hplain' hn
  refine ⟨lost, hholds.storeAll hsectors ?_ hsize, hP⟩
  rw [held, if_neg hp]
  simp

theorem Leaves.forget (h : Leaves k k' (held p + H) P) (hp : ∀ m, InUse k.heap m → k'.Plain → p ≠ 0) :
    Leaves k k' H False := by
  refine ⟨h.1, fun m hm hplain => ?_⟩
  obtain ⟨lost, hholds, -⟩ := h.2 m hm hplain
  refine ⟨lost + held p, by rwa [add_assoc lost], iff_of_false id fun hzero => ?_⟩
  have hheld : held p = 0 := (add_eq_zero.mp hzero).2
  rw [held, if_neg (hp m hm hplain)] at hheld
  exact absurd hheld (Multiset.singleton_ne_zero p)

theorem Leaves.trans (h : Leaves k k' H P) (h' : Leaves k' k'' 0 Q) : Leaves k k'' H (P ∧ Q) := by
  refine ⟨h.1.trans h'.1, fun m hm hplain => ?_⟩
  obtain ⟨lost, hholds, hP⟩ := h.2 m hm (h'.plain hplain)
  obtain ⟨lost', hholds', hQ⟩ := h'.2 _ hholds hplain
  refine ⟨lost' + lost, ?_, by rw [hP, hQ, add_eq_zero, and_comm]⟩
  rwa [add_zero, ← add_assoc, ← add_assoc] at hholds'

/-- Nothing is held: the blocks in use are as before exactly when nothing was lost. -/
theorem Leaves.live_iff (h : Leaves k k' 0 P) (hready : Ready k.heap bs) (hplain : k'.Plain) :
    (∀ a, k'.heap.Live a ↔ k.heap.Live a) ↔ P := by
  have hm : InUse k.heap _ := ⟨bs, hready, rfl⟩
  obtain ⟨lost, hholds, hP⟩ := h.2 _ hm hplain
  rw [add_zero] at hholds
  rw [hm.lost_iff hholds, hP]

end HaOS.Alloc
