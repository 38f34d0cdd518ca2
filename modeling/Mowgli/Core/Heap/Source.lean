import Mowgli.Core.Heap.Ops
/-!
# Where a heap gets its blocks

The heap of the model before this takes its blocks zero-filled, and its
allocator is not told from `mmap`. Here `expand` is given what the one it asks
answers, which may be a pointer to no memory, and memory comes with what was in
it.
-/

namespace Mowgli

variable {E : ℕ}

/-- What `mmap` or `allocate` answers. -/
inductive Given (E : ℕ)
  | null
  /-- `MAP_FAILED`. -/
  | mapFailed
  | memory (block : Addr) (contents : Block E)

/-- What a heap asks for memory, and what that answers to the next request. -/
structure HeapSource (E : ℕ) where
  /-- `use_mmap`. -/
  useMmap : Bool
  mmap : Given E
  allocate : Given E

/-- What `expand` has as `blp`. -/
def HeapSource.blp (S : HeapSource E) : Given E := if S.useMmap then S.mmap else S.allocate

/-- There is no memory. -/
def HeapSource.Fails (S : HeapSource E) : Prop := S.blp = .null ∨ S.blp = .mapFailed

/-- A policy that has the blocks of an allocator, zero-filled. -/
def HeapSource.zeroFilled (A : Allocator (Block E)) (m : Store (Block E)) : HeapSource E where
  useMmap := false
  mmap := .mapFailed
  allocate := (A.pick m).elim .null fun block => .memory block .zero

namespace Heap

/-- `mowgli_heap_expand`. It writes to `blp` as it is. -/
def expandOn (S : HeapSource E) (h : Heap E) : Option (Heap E) :=
  if h.emptyBlock ≠ none then some h
  else
    match S.blp with
    | .null => none
    | .mapFailed => none
    | .memory block contents =>
      let (elems, prev) := chainElems block contents.elems
      let b := { contents with heap := some h.addr, elems := elems, firstFree := prev }
      some { h with mem := h.mem.set block b, emptyBlock := some block, freeElems := h.freeElems + E }

/-- `mowgli_heap_create_full`, for a heap of `E` elements a block; `bh` is what
`allocate` answers first, with what is in it. -/
def createOn (S : HeapSource E) (bh : Option (Heap E)) (now : Bool) : Option (Option (Heap E)) :=
  match bh with
  | none => some none
  | some bh =>
    let h : Heap E := ⟨bh.addr, 0, .zero, false, none, Store.empty, []⟩
    if now then do
      let h ← h.lock
      let h ← h.expandOn S
      some (some h.unlock)
    else some (some h)

/-- `mowgli_heap_alloc`, from where something is free. -/
def takeElem (h : Heap E) : Option (Option (Slot E) × Heap E) := do
  match ← h.pickBlock with
  | none => some (none, { h with log := h.log ++ [.returnIfFail "b != NULL"] })
  | some b => do
    let blk ← h.mem.get b
    match blk.firstFree with
    | none => some (none, { h with log := h.log ++ [.returnIfFail "h != NULL"] })
    | some s => do
      let hblk ← h.mem.get s.block
      let next ← (hblk.elems s.index).next?
      let mem ← h.mem.modify b fun blk => { blk with firstFree := next }
      let mem ← mem.modify s.block fun blk =>
        { blk with elems := Function.update blk.elems s.index (.block (some b)) }
      let mem ← mem.modify b fun blk => { blk with numAllocated := blk.numAllocated + 1 }
      let h ← { h with mem := mem, freeElems := sizeDec h.freeElems }.settleAlloc b
      some (some s, h.unlock)

/-- `mowgli_heap_alloc`. -/
def allocOn (S : HeapSource E) (h : Heap E) : Option (Option (Slot E) × Heap E) := do
  let h ← h.lock
  let h ← if h.freeElems = 0 then h.expandOn S else some h
  if h.freeElems = 0 then some (none, h.unlock) else h.takeElem

variable {A : Allocator (Block E)} {S : HeapSource E} {h : Heap E} {xs : List Addr}

/-! ## The model before this -/

theorem expandOn_zeroFilled (A : Allocator (Block E)) (h : Heap E) :
    h.expandOn (.zeroFilled A h.mem) = h.expand A := by
  unfold expandOn expand HeapSource.blp HeapSource.zeroFilled
  cases A.pick h.mem <;> rfl

/-- Where memory comes zero-filled it is the same. -/
theorem allocOn_zeroFilled (A : Allocator (Block E)) (h : Heap E) :
    h.allocOn (.zeroFilled A h.mem) = h.alloc A := by
  unfold allocOn alloc lock
  split_ifs with hmutex
  · rfl
  · have hexpand := expandOn_zeroFilled A { h with mutex := true }
    simp only [Option.bind_eq_bind, Option.bind_some]
    rw [show HeapSource.zeroFilled A h.mem = .zeroFilled A { h with mutex := true }.mem from rfl, hexpand]
    rfl

/-! ## No memory -/

/-- `alloc` does without a block: it returns `NULL`, the heap is as it was, and the
next call is answered if there is memory for it. -/
def Recovers (S : HeapSource E) (h : Heap E) : Prop :=
  ∃ h', h.allocOn S = some (none, h') ∧ h'.blocks = h.blocks ∧ h'.emptyBlock = h.emptyBlock ∧
    h'.freeElems = h.freeElems ∧ h'.mem = h.mem ∧ h'.mutex = false ∧
    ∀ S' block contents, HeapSource.blp S' = .memory block contents → h.mem.get block = none →
      ∃ s h'', h'.allocOn S' = some (some s, h'')

theorem expandOn_of_fails (hempty : h.emptyBlock = none) (hS : S.Fails) : h.expandOn S = none := by
  unfold expandOn
  rw [if_neg (by simpa using hempty)]
  rcases hS with hS | hS <;> rw [hS]

/-- **`alloc` never recovers** where `expand` asks for a block and there is no memory:
it writes to the pointer it is given, whichever of the two says so. -/
theorem not_recovers (hfree : h.freeElems = 0) (hempty : h.emptyBlock = none) (hS : S.Fails) : ¬ Recovers S h := by
  rintro ⟨h', hrun, -⟩
  obtain ⟨h₁, hlock, hrun⟩ := Option.bind_eq_some_iff.1 hrun
  obtain ⟨-, rfl⟩ := lock_eq_some hlock
  have hnone : expandOn S { h with mutex := true } = none := expandOn_of_fails hempty hS
  rw [if_pos hfree, hnone] at hrun
  cases hrun

/-- A heap of two elements a block that has no block yet. -/
def lazyHeap : Heap 2 := ⟨0, 0, .zero, false, none, Store.empty, []⟩

theorem not_recovers_lazy : ¬ Recovers ⟨false, .mapFailed, .null⟩ lazyHeap :=
  not_recovers rfl rfl (Or.inl rfl)

/-- `mmap` fails for a new heap. -/
theorem alloc_without_memory : ¬ ∀ (h : Heap 2) (xs : List Addr) (S : HeapSource 2),
    Inv h xs → h.mutex = false → h.freeElems = 0 → S.Fails → Recovers S h := by
  intro h
  obtain ⟨h', hrun, -⟩ := h lazyHeap [] ⟨true, .mapFailed, .null⟩ (inv_zero 0) rfl rfl (Or.inr rfl)
  cases hrun

end Heap

end Mowgli
