import HaOS.Types
import Mathlib.Logic.Function.Basic

/-!
# The kernel heap (`kernel/alloc.c`)

The heap is a list of blocks threaded through their headers. The memory is read header by header: `mem a` is the
`alloc_block_t` stored at address `a`. Mapping pages is left to `page_mapv`, which the heap takes to succeed.

* `initAlloc`, `newAlloc`, `freeAlloc` : the three operations;
* `scan` : the loop of `newAlloc` over the list; `carve` : what it does with a block that is larger than needed;
* `grow` : the step before `newAlloc` calls itself again.

Both loops run on a bound: `walk` limits a walk along the list and `depth` the recursion of `newAlloc`.
-/

namespace HaOS.Alloc

/-- `alloc_block_t`, the header in front of each payload. -/
structure AllocBlock where
  size : Nat
  available : Nat
  next : Nat
deriving DecidableEq, Repr

/-- `sizeof( alloc_block_t )`: packed, 8 + 1 + 8 bytes. -/
def sizeofAllocBlock : Nat := 17

/-- The headers in memory and the three static variables. -/
structure Heap where
  mem : Nat → AllocBlock
  heapStart : Nat
  heapEnd : Nat
  heapSize : Nat

def Heap.store (h : Heap) (a : Nat) (b : AllocBlock) : Heap := { h with mem := Function.update h.mem a b }

@[simp] theorem Heap.heapStart_store (h : Heap) (a : Nat) (b : AllocBlock) : (h.store a b).heapStart = h.heapStart := rfl

@[simp] theorem Heap.heapSize_store (h : Heap) (a : Nat) (b : AllocBlock) : (h.store a b).heapSize = h.heapSize := rfl

@[simp] theorem Heap.mem_store (h : Heap) (a : Nat) (b : AllocBlock) : (h.store a b).mem a = b := by simp [store]

@[simp] theorem Heap.mem_store_ne (h : Heap) (b : AllocBlock) {a x : Nat} (hx : x ≠ a) : (h.store a b).mem x = h.mem x := by
  simp [store, hx]

def initAlloc (mem : Nat → AllocBlock) (heapStart : Nat) : Heap :=
  { mem := Function.update mem heapStart ⟨0x1000, 1, 0⟩, heapStart := heapStart, heapEnd := heapStart,
    heapSize := 0x1000 }

@[simp] theorem Heap.store_store (h : Heap) (a : Nat) (b c : AllocBlock) : (h.store a b).store a c = h.store a c := by
  simp [store]

/-- `size + sizeof( alloc_block_t )`, a qword sum. -/
def required (size : Nat) : Nat := qword (size + sizeofAllocBlock)

/-- The branch for a free block larger than required. `none` is the assertion's halt. -/
def carve (h : Heap) (current size : Nat) : Option (Heap × Nat) :=
  let b := h.mem current
  let ptr := qword (current + sizeofAllocBlock)
  let sizeBlock := dword (required size)
  let remainSize := dword (qsub b.size sizeBlock)
  let h := h.store current { b with available := 0 }
  if remainSize < sizeofAllocBlock then some (h, ptr)
  else
    let newBlock := qword (current + sizeBlock)
    let endHeap := qword (h.heapStart + h.heapSize)
    let extend := endHeap < qword (newBlock + sizeBlock)
    let heapSize := if extend then qword (h.heapSize + 0x1000) else h.heapSize
    let remainSize := if extend then dword (qsub (qword (h.heapStart + heapSize)) newBlock) else remainSize
    let h := { h with heapSize := heapSize }
    let h := h.store newBlock ⟨remainSize, 1, b.next⟩
    let h := h.store current { h.mem current with next := newBlock, size := sizeBlock }
    if newBlock ≠ 0 ∧ current = newBlock then none
    else
      some ({ h with heapEnd := if (h.mem newBlock).next = 0 then newBlock else h.heapEnd }, ptr)

inductive Scan where
  /-- a block was taken -/
  | found (h : Heap) (ptr : Nat)
  /-- the list ended at `endHeap` and no block was taken -/
  | exhausted (h : Heap) (endHeap : Nat)
  /-- an assertion halted the kernel, or the walk went past its bound -/
  | stuck

/-- The `while( current != NULL )` loop of `new_alloc`. -/
def scan (size : Nat) : Nat → Heap → Nat → Nat → Scan
  | 0, _, _, _ => .stuck
  | walk + 1, h, current, endHeap =>
    if current = 0 then .exhausted h endHeap
    else
      let b := h.mem current
      if b.available = 1 ∧ b.size = required size then
        .found (h.store current { b with available := 0 }) (qword (current + sizeofAllocBlock))
      else if b.available = 1 ∧ required size < b.size then
        match carve h current size with
        | some (h, ptr) => .found h ptr
        | none => .stuck
      else if b.next = 0 then scan size walk { h with heapEnd := current } b.next current
      else scan size walk h b.next endHeap

/-- One more page at the end of the heap, given to the block that ends the list. -/
def grow (h : Heap) (endHeap : Nat) : Heap :=
  let h := { h with heapSize := qword (h.heapSize + 0x1000) }
  if endHeap = 0 then h else h.store endHeap { h.mem endHeap with size := qword ((h.mem endHeap).size + 0x1000) }

/-- `new_alloc`. `none` is a call that has not returned within the bounds. -/
def newAlloc (walk : Nat) : Nat → Heap → Nat → Option (Heap × Nat)
  | 0, _, _ => none
  | depth + 1, h, size =>
    if size = 0 then some (h, 0)
    else
      match scan size walk h h.heapStart 0 with
      | .found h ptr => some (h, ptr)
      | .exhausted h endHeap => newAlloc walk depth (grow h endHeap) size
      | .stuck => none

/-- Adds a free successor to the block. -/
def mergeNext (h : Heap) (block nextBlock : Nat) : Heap :=
  if nextBlock ≠ 0 ∧ (h.mem nextBlock).available = 1 then
    let b := h.mem block
    let h := h.store block
      { b with size := qword (b.size + (h.mem nextBlock).size), next := (h.mem nextBlock).next }
    h.store nextBlock { h.mem nextBlock with next := 0 }
  else h

/-- The predecessor loop in the second branch of `free_alloc`; `none` is the assertion's halt or the bound. -/
def findPrev (h : Heap) (block : Nat) : Nat → Nat → Option Nat
  | 0, _ => none
  | walk + 1, prev =>
    let next := (h.mem prev).next
    if next = 0 ∨ next = block then some prev else if prev = next then none else findPrev h block walk next

/-- `free_alloc`. Its `prev_block` is set to `heap_start` and compared with `heap_start` right away, so the branch
that looks for the predecessor is never entered. -/
def freeAlloc (walk : Nat) (h : Heap) (ptr : Nat) : Option Heap :=
  if ptr = 0 then some h
  else
    let block := qsub ptr sizeofAllocBlock
    let prevBlock := h.heapStart
    let nextBlock := (h.mem block).next
    let h := h.store block { h.mem block with available := 1 }
    if prevBlock = h.heapStart then some (mergeNext h block nextBlock)
    else
      (findPrev h block walk prevBlock).map fun prevBlock =>
        let h := mergeNext h block nextBlock
        if (h.mem prevBlock).available = 1 then
          let p := h.mem prevBlock
          let h := h.store prevBlock
            { p with size := qword (p.size + (h.mem block).size), next := (h.mem block).next }
          h.store block { h.mem block with next := 0 }
        else h

@[simp] theorem freeAlloc_eq (walk : Nat) (h : Heap) (ptr : Nat) :
    freeAlloc walk h ptr = if ptr = 0 then some h else
      some (mergeNext (h.store (qsub ptr sizeofAllocBlock)
        { h.mem (qsub ptr sizeofAllocBlock) with available := 1 }) (qsub ptr sizeofAllocBlock)
        (h.mem (qsub ptr sizeofAllocBlock)).next) := by
  unfold freeAlloc
  simp only [Heap.store, ↓reduceIte]

end HaOS.Alloc
