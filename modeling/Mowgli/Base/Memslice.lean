import Mathlib.Data.Finset.Union
import Mathlib.Data.Nat.Bitwise
import Mowgli.Core.Heap.Model
/-!
# The slice allocator, as `base/memslice.c` has it

A slice is an element of one of the heaps of the allocators, less the tag
at its front, and is told by its block and its index there. Of what is in
the slices only the tags are kept. The blocks of all heaps are mapped into
one memory, where `mmap` fails just for blocks that are longer than the
memory, and no other allocation fails. A function answers `none` where it
would dereference a null or dangling pointer, or write outside a slice. A
`size_t` has 64 bits, and a page 4096 bytes.
-/

namespace Mowgli

/-- `size_t`: the conversion of another integer to one. -/
def toSize (z : ℤ) : ℕ := (z % 18446744073709551616).toNat

/-- `nexthigher`. The loop shifts by 1, 2, 4 and so on, below the number of
bits. -/
def nexthigher (k : ℕ) : ℕ :=
  toSize ([1, 2, 4, 8, 16, 32].foldl (fun k i => k ||| k >>> i) (sizeDec k) + 1)

/-- `sizeof(mowgli_block_t)`. -/
def BLOCK_SIZE : ℕ := 56

/-- `sizeof(mowgli_heap_elem_header_t)`. -/
def ELEM_HEADER_SIZE : ℕ := 8

/-- `sizeof(slice_tag_t)`. -/
def SLICE_TAG_SIZE : ℕ := 8

/-- `sizeof(slice_alloc_t)`. -/
def SLICE_ALLOC_SIZE : ℕ := 40

/-- `getpagesize()`. -/
def PAGE_SIZE : ℕ := 4096

/-- How many bytes of memory a process has. -/
def MEMORY_SIZE : ℕ := 140737488355328

/-- The `mowgli_heap_elems` of a heap made by `mowgli_heap_create`: at least
two, and what there is room for in the pages that takes. -/
def heapElems (elemSize elems : ℕ) : ℕ :=
  let elems := if elems < 2 then 2 else elems
  let allocSize := elemSize + ELEM_HEADER_SIZE
  let numpages := toInt (toSize (BLOCK_SIZE + allocSize * elems + PAGE_SIZE - 1) / PAGE_SIZE : ℕ)
  sizeSub (toSize (toInt (numpages * PAGE_SIZE))) BLOCK_SIZE / allocSize

/-- What is mapped: where it starts and how long it is. -/
abbrev Region : Type := ℕ × ℕ

/-- The memory the heaps are made from. -/
structure Backing where
  /-- `mmap`, where some regions are mapped already. -/
  mmap : Finset Region → ℕ → Addr
  /-- A region that is mapped lies apart from those that were there. -/
  apart : ∀ mapped len, ∀ r ∈ mapped, mmap mapped len + len ≤ r.1 ∨ r.1 + r.2 ≤ mmap mapped len
  /-- Where the `mowgli_heap_t` of an allocator is. -/
  heapAddr : Addr → Addr

/-- `mowgli_heap_t`, with the fields that size it. -/
structure SliceHeap where
  elemSize : ℕ
  elems : ℕ
  heap : Heap elems

namespace SliceHeap

/-- `alloc_size`. -/
def allocSize (H : SliceHeap) : ℕ := H.elemSize + ELEM_HEADER_SIZE

/-- How long a block is. -/
def blockSize (H : SliceHeap) : ℕ := BLOCK_SIZE + H.allocSize * H.elems

/-- The regions of the blocks in a store. -/
def regionsOf (H : SliceHeap) (m : Store (Block H.elems)) : Finset Region := m.live.image fun b => (b, H.blockSize)

/-- The regions of the blocks of a heap. -/
def regions (H : SliceHeap) : Finset Region := H.regionsOf H.heap.mem

/-- Where an element is, behind its header. -/
def elemAddr (H : SliceHeap) (block index : ℕ) : ℕ :=
  block + BLOCK_SIZE + index * H.allocSize + ELEM_HEADER_SIZE

/-- Where the heap gets its blocks, with `mapped` mapped already. `mmap` fails for
a block that is longer than the memory. -/
def allocator (H : SliceHeap) (W : Backing) (mapped : Finset Region) : Allocator (Block H.elems) where
  pick m := if H.blockSize ≤ MEMORY_SIZE then some (W.mmap (mapped ∪ H.regionsOf m) H.blockSize) else none
  fresh := by
    intro m a h
    split at h
    swap
    · cases h
    rw [Store.get_eq_none]
    intro hm
    have hmem : (a, H.blockSize) ∈ mapped ∪ H.regionsOf m :=
      Finset.mem_union_right _ (Finset.mem_image_of_mem (fun b => (b, H.blockSize)) hm)
    have hpos : 0 < H.blockSize := Nat.lt_of_lt_of_le (by decide) (Nat.le_add_right BLOCK_SIZE _)
    have hapart := W.apart (mapped ∪ H.regionsOf m) H.blockSize _ hmem
    rw [show W.mmap (mapped ∪ H.regionsOf m) H.blockSize = a from Option.some.inj h, or_self] at hapart
    exact absurd hapart (Nat.not_le.2 (Nat.lt_add_of_pos_right hpos))

/-- The heap before it has blocks. -/
def empty (elemSize elems : ℕ) (addr : Addr) : SliceHeap :=
  ⟨elemSize, heapElems elemSize elems, ⟨addr, 0, .zero, false, none, Store.empty, []⟩⟩

/-- `mowgli_heap_create`; `now` is the flag `BH_NOW`. -/
def create (W : Backing) (mapped : Finset Region) (elemSize elems : ℕ) (addr : Addr) (now : Bool) :
    Option (Option SliceHeap) :=
  if elemSize = 0 then some none
  else
    let H := empty elemSize elems addr
    (Heap.create (H.allocator W mapped) addr now).map fun heap => some { H with heap := heap }

end SliceHeap

/-- `slice_alloc_t`. -/
structure SliceAlloc where
  size : ℕ
  heap : Option SliceHeap
  node : MowgliNode

/-- The node of an allocator. -/
def SliceAlloc.nodeField : NodeField SliceAlloc := ⟨SliceAlloc.node, fun x n => { x with node := n }, fun _ _ => rfl⟩

/-- An allocator on zero-filled memory. -/
def SliceAlloc.zero : SliceAlloc := ⟨0, none, none, none, none⟩

/-- A slice. -/
structure Slice where
  block : Addr
  index : ℕ
  deriving DecidableEq

/-- What `base/memslice.c` keeps, with the memory of the slices. -/
structure Memslice where
  allocatorHeap : SliceHeap
  /-- The elements of `allocator_heap` that are in use. -/
  allocators : Store SliceAlloc
  allocatorList : MowgliList
  /-- `tag->owner` of each slice. -/
  tags : Slice → Option Addr

namespace Memslice

/-- The regions of all blocks. -/
def regions (s : Memslice) : Finset Region :=
  s.allocatorHeap.regions ∪ s.allocators.live.biUnion fun a =>
    ((s.allocators.get a).bind SliceAlloc.heap).elim ∅ SliceHeap.regions

variable (W : Backing)

/-- `mowgli_memslice_bootstrap`. -/
def bootstrap (addr : Addr) : Option Memslice := do
  let heap ← SliceHeap.create W ∅ SLICE_ALLOC_SIZE 16 addr true
  let heap ← heap
  some ⟨heap, Store.empty, .zero, fun _ => none⟩

/-- `create_allocator`. -/
def createAllocator (s : Memslice) (k : ℕ) : Option (Addr × Memslice) := do
  let (slot, heap) ← s.allocatorHeap.heap.alloc (s.allocatorHeap.allocator W s.regions)
  let slot ← slot
  let a := s.allocatorHeap.elemAddr slot.block slot.index
  let s := { s with allocatorHeap := { s.allocatorHeap with heap := heap } }
  let (allocators, list) ← SliceAlloc.nodeField.nodeAdd (s.allocators.set a .zero) (some a) a s.allocatorList
  let heap ← SliceHeap.create W s.regions k 16 (W.heapAddr a) false
  let allocators ← allocators.modify a fun x => { x with size := k, heap := heap }
  some (a, { s with allocators := allocators, allocatorList := list })

/-- The loop of `find_or_create_allocator`, from the node `n`. The list has
`fuel` nodes. -/
def findAllocator (s : Memslice) (k : ℕ) : ℕ → Option Addr → Option (Option Addr)
  | _, none => some none
  | 0, some _ => none
  | fuel + 1, some n => do
    let x ← s.allocators.get n
    let a ← x.node.data
    let alloc ← s.allocators.get a
    if alloc.size = k then some (some a) else findAllocator s k fuel x.node.next

/-- `find_or_create_allocator`. -/
def findOrCreateAllocator (s : Memslice) (i : ℕ) : Option (Addr × Memslice) := do
  let k := nexthigher i
  let found ← s.findAllocator k s.allocatorList.count s.allocatorList.head
  match found with
  | some a => some (a, s)
  | none => s.createAllocator W k

/-- `memslice_alloc`: the slice, and the allocator whose heap it is from. -/
def alloc (s : Memslice) (i : ℕ) : Option (Slice × Addr × Memslice) := do
  let adjSize := toSize (i + SLICE_TAG_SIZE)
  let (a, s) ← s.findOrCreateAllocator W adjSize
  let alloc ← s.allocators.get a
  -- with no heap, `ptr` would be NULL, and the tag is written through it
  let H ← alloc.heap
  let (slot, heap) ← H.heap.alloc (H.allocator W s.regions)
  let slot ← slot
  let ptr : Slice := ⟨slot.block, slot.index⟩
  -- a tag that the element has no room for goes over the next one's header
  if H.elemSize < SLICE_TAG_SIZE then none
  else some (ptr, a, { s with
    allocators := s.allocators.set a { alloc with heap := some { H with heap := heap } }
    tags := Function.update s.tags ptr (some a) })

/-- `memslice_free`. The element is cleared if no check of `mowgli_heap_free`
fails, which would leave the mutex held. -/
def free (s : Memslice) (ptr : Slice) : Option Memslice := do
  let a ← s.tags ptr
  let alloc ← s.allocators.get a
  match alloc.heap with
  | none => some s
  | some H =>
    if h : ptr.index < H.elems then do
      let heap ← H.heap.free ⟨ptr.block, ptr.index, h⟩
      some { s with
        allocators := s.allocators.set a { alloc with heap := some { H with heap := heap } }
        tags := if heap.mutex then s.tags else Function.update s.tags ptr none }
    else none

end Memslice

end Mowgli
