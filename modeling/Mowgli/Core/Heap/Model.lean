import Mathlib.Data.List.FinRange
import Mowgli.Container.List
/-!
# The block heap, as `core/heap.enabled.c` has it

A heap hands out elements of one size from blocks of `E` elements each,
`E` being `mowgli_heap_elems`. A block is its header and `E` slots, and a
slot is told by its block and its index. What a slot has in memory is its
element header: the block it belongs to while it is handed out, and the
next free slot while it is free.

The blocks are cells of one store. The functions answer `none` where they
would dereference a null or dangling pointer, read the wrong member of the
header's union, or wait for a mutex they hold. `free_elems` and
`num_allocated` are `size_t`s that count things in memory, so they do not
wrap at the top. The bytes of the elements are left out.
-/

namespace Mowgli

variable {E : ℕ}

/-- An element of a block. -/
structure Slot (E : ℕ) where
  block : Addr
  index : Fin E
  deriving DecidableEq

/-- `mowgli_heap_elem_header_t`, by the member of the union in use. -/
inductive HeapElemHeader (E : ℕ)
  | block (b : Option Addr)
  | next (s : Option (Slot E))

namespace HeapElemHeader

/-- `un.block`. -/
def block? : HeapElemHeader E → Option (Option Addr)
  | block b => some b
  | next _ => none

/-- `un.next`. -/
def next? : HeapElemHeader E → Option (Option (Slot E))
  | block _ => none
  | next s => some s

end HeapElemHeader

/-- `mowgli_block_t`, with its elements. -/
structure Block (E : ℕ) where
  node : MowgliNode
  /-- Link back to our heap. -/
  heap : Option Addr
  /-- Singly linked list of free items. -/
  firstFree : Option (Slot E)
  numAllocated : ℕ
  elems : Fin E → HeapElemHeader E

/-- A block on zero-filled memory. -/
def Block.zero : Block E := ⟨⟨none, none, none⟩, none, none, 0, fun _ => .next none⟩

/-- The node of a block. -/
def Block.nodeField : NodeField (Block E) := ⟨Block.node, fun b n => { b with node := n }, fun _ _ => rfl⟩

/-- `mowgli_heap_t`, with the blocks it has. -/
structure Heap (E : ℕ) where
  /-- The address of the heap itself. -/
  addr : Addr
  freeElems : ℕ
  /-- List of non-empty blocks. -/
  blocks : MowgliList
  /-- Whether the mutex is held. -/
  mutex : Bool
  /-- A single entirely free block, or null. -/
  emptyBlock : Option Addr
  mem : Store (Block E)
  log : List LogLine

namespace Heap

/-- `mowgli_mutex_lock`. -/
def lock (h : Heap E) : Option (Heap E) := if h.mutex then none else some { h with mutex := true }

/-- `mowgli_mutex_unlock`. -/
def unlock (h : Heap E) : Heap E := { h with mutex := false }

/-- The loop of `expand`, which chains the elements. -/
def chainElems (block : Addr) (elems : Fin E → HeapElemHeader E) :
    (Fin E → HeapElemHeader E) × Option (Slot E) :=
  (List.finRange E).foldl (fun s a => (Function.update s.1 a (.next s.2), some ⟨block, a⟩)) (elems, none)

/-- `mowgli_heap_expand`. A new block comes zero-filled. -/
def expand (A : Allocator (Block E)) (h : Heap E) : Option (Heap E) :=
  if h.emptyBlock ≠ none then some h
  else do
    let block ← A.pick h.mem
    let zero : Block E := Block.zero
    let (elems, prev) := chainElems block zero.elems
    let b := { zero with heap := some h.addr, elems := elems, firstFree := prev }
    some { h with mem := h.mem.set block b, emptyBlock := some block, freeElems := h.freeElems + E }

/-- `mowgli_heap_shrink`. -/
def shrink (h : Heap E) (b : Addr) : Option (Heap E) := do
  let h ← if h.emptyBlock = some b then some { h with emptyBlock := none }
    else do
      let (mem, blocks) ← Block.nodeField.nodeDelete h.mem b h.blocks
      some { h with mem := mem, blocks := blocks }
  some { h with mem := h.mem.free b, freeElems := sizeSub h.freeElems E }

/-- `mowgli_heap_create_full`, for a heap of `E` elements a block; `now` is
the flag `BH_NOW`. -/
def create (A : Allocator (Block E)) (addr : Addr) (now : Bool) : Option (Heap E) :=
  let h : Heap E := ⟨addr, 0, .zero, false, none, Store.empty, []⟩
  if now then do
    let h ← h.lock
    let h ← h.expand A
    some h.unlock
  else some h

/-- The block `alloc` takes an element from: try a partially used block
before a fully free block. -/
def pickBlock (h : Heap E) : Option (Option Addr) := do
  let b ← match h.blocks.head with
    | none => some none
    | some n => Block.nodeField.data h.mem n
  match b with
  | none => some h.emptyBlock
  | some a => do
    let blk ← h.mem.get a
    some (if blk.firstFree = none then h.emptyBlock else some a)

/-- The end of `alloc`: move the block between the lists if needed. -/
def settleAlloc (h : Heap E) (b : Addr) : Option (Heap E) := do
  let blk ← h.mem.get b
  if blk.numAllocated = 1 then do
    let (mem, blocks) ← Block.nodeField.nodeAddHead h.mem (some b) b h.blocks
    some { h with mem := mem, blocks := blocks, emptyBlock := none }
  else if blk.firstFree = none then do
    let (mem, blocks) ← Block.nodeField.nodeDelete h.mem b h.blocks
    let (mem, blocks) ← Block.nodeField.nodeAdd mem (some b) b blocks
    some { h with mem := mem, blocks := blocks }
  else some h

/-- `mowgli_heap_alloc`. A check that fails returns with the mutex held. -/
def alloc (A : Allocator (Block E)) (h : Heap E) : Option (Option (Slot E) × Heap E) := do
  let h ← h.lock
  let h ← if h.freeElems = 0 then h.expand A else some h
  if h.freeElems = 0 then some (none, h.unlock)
  else do
    match ← h.pickBlock with
    | none => some (none, { h with log := h.log ++ [.returnIfFail "b != NULL"] })
    | some b => do
      let blk ← h.mem.get b
      match blk.firstFree with
      | none => some (none, { h with log := h.log ++ [.returnIfFail "h != NULL"] })
      | some s => do
        let hblk ← h.mem.get s.block
        let next ← (hblk.elems s.index).next?
        let mem ← h.mem.modify b fun blk => { blk with firstFree := next }
        let mem ← mem.modify s.block fun blk =>
          { blk with elems := Function.update blk.elems s.index (.block (some b)) }
        let mem ← mem.modify b fun blk => { blk with numAllocated := blk.numAllocated + 1 }
        let h ← { h with mem := mem, freeElems := sizeDec h.freeElems }.settleAlloc b
        some (some s, h.unlock)

/-- The end of `free`: move the block between the lists if needed. -/
def settleFree (h : Heap E) (b : Addr) : Option (Heap E) := do
  let blk ← h.mem.get b
  if blk.numAllocated = 0 then do
    let h ← match h.emptyBlock with
      | none => some h
      | some e => h.shrink e
    let (mem, blocks) ← Block.nodeField.nodeDelete h.mem b h.blocks
    some { h with mem := mem, blocks := blocks, emptyBlock := some b }
  else if blk.numAllocated = sizeDec E then do
    let (mem, blocks) ← Block.nodeField.nodeDelete h.mem b h.blocks
    let (mem, blocks) ← Block.nodeField.nodeAddHead mem (some b) b blocks
    some { h with mem := mem, blocks := blocks }
  else some h

/-- `mowgli_heap_free`. A check that fails returns with the mutex held. -/
def free (h : Heap E) (s : Slot E) : Option (Heap E) := do
  let h ← h.lock
  let hblk ← h.mem.get s.block
  let b ← (hblk.elems s.index).block?
  let b ← b
  let blk ← h.mem.get b
  if blk.heap ≠ some h.addr then some { h with log := h.log ++ [.returnIfFail "b->heap == heap"] }
  else if blk.numAllocated = 0 then
    some { h with log := h.log ++ [.returnIfFail "b->num_allocated > 0"] }
  else do
    let mem ← h.mem.modify s.block fun hblk =>
      { hblk with elems := Function.update hblk.elems s.index (.next blk.firstFree) }
    let mem ← mem.modify b fun blk =>
      { blk with firstFree := some s, numAllocated := sizeDec blk.numAllocated }
    let h ← { h with mem := mem, freeElems := h.freeElems + 1 }.settleFree b
    some h.unlock

end Heap

end Mowgli
