import Mowgli.Base.Memslice.Runs
import Mowgli.Core.Alloc
/-!
# How many bytes there are for a request

A slice is shorter than was asked for where the request and its tag are no
`size_t`, and so is an array with its tag. A slice of more than 2 ^ 26 bytes is
not had at all: the heap for it has no elements, or blocks that cannot be
mapped, and the tag is written through a null pointer, or the block's header
through what `mmap` returns when it fails.
-/

namespace Mowgli

open Store

namespace Memslice

variable {W : Backing} {s s' s₀ : Memslice} {m m' : Store SliceAlloc} {live : List LiveSlice} {a : Addr} {k : ℕ}
variable {H : SliceHeap}

/-- How many bytes a slice of an allocator has behind its tag. -/
def usable (s : Memslice) (a : Addr) : ℕ := (ownerOf s.allocators a).elim 0 fun x => x.2.elemSize - SLICE_TAG_SIZE

/-- A request is answered by a slice that has room for it. `memslice_alloc` has no
answer for a request that fails. -/
def Gives (W : Backing) (s : Memslice) (i : ℕ) : Prop := ∃ p a s', s.alloc W i = some (p, a, s') ∧ i ≤ s'.usable a

/-- The heaps of the allocators are of their sizes. -/
def Sized (m : Store SliceAlloc) : Prop := ∀ a k H, ownerOf m a = some (k, H) → 0 < k ∧ H.elemSize = k

theorem Sized.of_owner (h : Sized m) {o : Option (ℕ × SliceHeap)} (howner : ownerOf m' = Function.update (ownerOf m) a o)
    (ho : ∀ k H, o = some (k, H) → 0 < k ∧ H.elemSize = k) : Sized m' := by
  intro b k H hb
  rw [howner] at hb
  by_cases hba : b = a
  · rw [hba, Function.update_self] at hb
    exact ho k H hb
  · rw [Function.update_of_ne hba] at hb
    exact h b k H hb

/-- `mowgli_heap_create` makes no heap of empty elements. -/
theorem create_sized {mapped : Finset Region} {elems : ℕ} {addr : Addr} {now : Bool} {heap : Option SliceHeap}
    (h : SliceHeap.create W mapped k elems addr now = some heap) : ∀ H, heap = some H → 0 < k ∧ H.elemSize = k := by
  intro H hH
  unfold SliceHeap.create at h
  split_ifs at h with hk
  · rw [hH] at h
    simp at h
  · obtain ⟨heap', -, h⟩ := Option.map_eq_some_iff.1 h
    rw [hH, Option.some_inj] at h
    exact ⟨Nat.pos_of_ne_zero hk, by rw [← h]; rfl⟩

/-- A heap that is made with `BH_LAZY` is one without blocks. -/
theorem create_lazy_eq {mapped : Finset Region} {addr : Addr} {heap : Option SliceHeap}
    (h : SliceHeap.create W mapped k 16 addr false = some heap) (hH : heap = some H) :
    H = SliceHeap.empty k 16 addr := by
  by_cases hk : k = 0
  · rw [SliceHeap.create, if_pos hk] at h
    rw [← Option.some.inj h] at hH
    cases hH
  · rw [create_lazy W mapped hk] at h
    rw [hH] at h
    exact (Option.some.inj (Option.some.inj h)).symm

/-- `create_allocator` puts an allocator of the size `k` where it says, if one with
a heap; the heap has no blocks yet. -/
theorem Sized.createAllocator (h : Sized s.allocators) (hrun : s.createAllocator W k = some (a, s')) :
    Sized s'.allocators ∧
      ∀ k' H, ownerOf s'.allocators a = some (k', H) → k' = k ∧ H = SliceHeap.empty k 16 (W.heapAddr a) := by
  obtain ⟨⟨slot, heap⟩, -, hrun⟩ := Option.bind_eq_some_iff.1 hrun
  obtain ⟨slot, -, hrun⟩ := Option.bind_eq_some_iff.1 hrun
  obtain ⟨⟨m₁, l⟩, hadd, hrun⟩ := Option.bind_eq_some_iff.1 hrun
  obtain ⟨heap', hcreate, hrun⟩ := Option.bind_eq_some_iff.1 hrun
  obtain ⟨m₂, hmod, hrun⟩ := Option.bind_eq_some_iff.1 hrun
  obtain ⟨x, hx, rfl⟩ := Option.map_eq_some_iff.1 hmod
  obtain ⟨rfl, rfl⟩ := Prod.mk.inj (Option.some.inj hrun)
  have hlisted : ownerOf m₁ = Function.update (ownerOf s.allocators) (s.allocatorHeap.elemAddr slot.block slot.index) none :=
    (owner_of_keeps (NodeField.nodeAdd_keeps hadd)).trans (owner_set ..)
  have howner := owner_set m₁ (s.allocatorHeap.elemAddr slot.block slot.index) { x with size := k, heap := heap' }
  rw [hlisted, Function.update_idem] at howner
  refine ⟨h.of_owner howner fun k' H hH => ?_, fun k' H hH => ?_⟩
  · obtain ⟨H', hH', heq⟩ := Option.map_eq_some_iff.1 hH
    obtain ⟨rfl, rfl⟩ := Prod.mk.inj heq
    exact create_sized hcreate _ hH'
  · rw [howner, Function.update_self] at hH
    obtain ⟨H', hH', heq⟩ := Option.map_eq_some_iff.1 hH
    obtain ⟨rfl, rfl⟩ := Prod.mk.inj heq
    exact ⟨rfl, create_lazy_eq hcreate hH'⟩

/-- What the search finds is of the size it looks for. -/
theorem findAllocator_size {fuel : ℕ} {n : Option Addr} (hrun : s.findAllocator k fuel n = some (some a)) :
    ∃ x, s.allocators.get a = some x ∧ x.size = k := by
  induction fuel generalizing n with
  | zero => cases n <;> simp [Memslice.findAllocator] at hrun
  | succ fuel ih =>
    cases n with
    | none => simp [Memslice.findAllocator] at hrun
    | some n =>
      obtain ⟨x, -, hrun⟩ := Option.bind_eq_some_iff.1 hrun
      obtain ⟨b, -, hrun⟩ := Option.bind_eq_some_iff.1 hrun
      obtain ⟨y, hy, hrun⟩ := Option.bind_eq_some_iff.1 hrun
      split_ifs at hrun with hsize
      · obtain rfl := Option.some.inj (Option.some.inj hrun)
        exact ⟨y, hy, hsize⟩
      · exact ih hrun

theorem Sized.findOrCreateAllocator (h : Sized s.allocators) {n : ℕ}
    (hrun : s.findOrCreateAllocator W n = some (a, s')) :
    Sized s'.allocators ∧ ∀ k H, ownerOf s'.allocators a = some (k, H) → k = nexthigher n := by
  obtain ⟨found, hfind, hrun⟩ := Option.bind_eq_some_iff.1 hrun
  cases found with
  | none => exact ⟨(h.createAllocator hrun).1, fun k H ho => ((h.createAllocator hrun).2 k H ho).1⟩
  | some b =>
    obtain ⟨rfl, rfl⟩ := Prod.mk.inj (Option.some.inj hrun)
    obtain ⟨x, hx, hsize⟩ := findAllocator_size hfind
    refine ⟨h, fun k H ho => ?_⟩
    obtain ⟨x', hx', rfl, -⟩ := exists_of_owner ho
    rwa [Option.some.inj (hx'.symm.trans hx)]

/-- The heap of an allocator is changed, not its size. -/
theorem Sized.setHeap (h : Sized m) {y : SliceAlloc} (hy : m.get a = some y) (hH : y.heap = some H)
    (heap : Heap H.elems) : Sized (m.set a { y with heap := some { H with heap := heap } }) := by
  refine h.of_owner (owner_set m a _) fun k H' heq => ?_
  obtain ⟨rfl, rfl⟩ := Prod.mk.inj (Option.some.inj heq)
  exact h a _ H (owner_of_get (y := y) hy hH)

/-- **`memslice_alloc`** takes a slice of the size that `nexthigher` gives, which
is not 0. -/
theorem Sized.alloc (h : Sized s.allocators) {i : ℕ} {p : Slice} (hrun : s.alloc W i = some (p, a, s')) :
    Sized s'.allocators ∧ 0 < nexthigher (toSize (i + SLICE_TAG_SIZE)) ∧
      s'.usable a = nexthigher (toSize (i + SLICE_TAG_SIZE)) - SLICE_TAG_SIZE := by
  obtain ⟨⟨b, s₁⟩, hfind, hrun⟩ := Option.bind_eq_some_iff.1 hrun
  obtain ⟨y, hy, hrun⟩ := Option.bind_eq_some_iff.1 hrun
  obtain ⟨H, hH, hrun⟩ := Option.bind_eq_some_iff.1 hrun
  obtain ⟨⟨slot, heap⟩, -, hrun⟩ := Option.bind_eq_some_iff.1 hrun
  obtain ⟨slot, -, hrun⟩ := Option.bind_eq_some_iff.1 hrun
  split_ifs at hrun with htag
  simp only [Option.some_inj, Prod.mk.injEq] at hrun
  obtain ⟨-, rfl, rfl⟩ := hrun
  obtain ⟨hsized, hk⟩ := h.findOrCreateAllocator hfind
  have ho := owner_of_get hy hH
  obtain ⟨hpos, helem⟩ := hsized _ _ _ ho
  rw [← hk _ _ ho]
  refine ⟨hsized.setHeap hy hH heap, hpos, ?_⟩
  rw [Memslice.usable, owner_set, Function.update_self]
  exact congrArg (· - SLICE_TAG_SIZE) helem

theorem Sized.free (h : Sized s.allocators) {p : Slice} (hrun : s.free p = some s') : Sized s'.allocators := by
  obtain ⟨b, -, hrun⟩ := Option.bind_eq_some_iff.1 hrun
  obtain ⟨y, hy, hrun⟩ := Option.bind_eq_some_iff.1 hrun
  cases hH : y.heap with
  | none =>
    simp only [hH, Option.some_inj] at hrun
    rwa [← hrun]
  | some H =>
    simp only [hH] at hrun
    split_ifs at hrun with hlt
    obtain ⟨heap, -, hrun⟩ := Option.bind_eq_some_iff.1 hrun
    rw [← Option.some.inj hrun]
    exact h.setHeap hy hH heap

theorem Good.sized (h : s.Good live) : Sized s.allocators := by
  intro a k H ho
  obtain ⟨helem, ⟨m, rfl⟩, -⟩ := h.registry.sized a k H ho
  exact ⟨Nat.two_pow_pos m, helem⟩

/-- In any run the heaps are of the sizes of their allocators. -/
theorem Run.sized {addr : Addr} {tr : List (Call × Option Slice)} (hboot : bootstrap W addr = some s₀)
    (hrun : Run (Call.run W) (fun _ _ => True) (s₀, []) tr (s, live)) : Sized s.allocators := by
  refine Run.invariant (I := fun s : Memslice × List LiveSlice => Sized s.1.allocators)
    (Runs.good hboot Run.nil).sized ?_ hrun
  intro s c r s' hs _ hstep
  cases c with
  | alloc i =>
    obtain ⟨⟨p, a, s₁⟩, halloc, heq⟩ := Option.map_eq_some_iff.1 hstep
    obtain ⟨-, rfl⟩ := Prod.mk.inj heq
    exact (hs.alloc halloc).1
  | free p =>
    obtain ⟨s₁, hfree, heq⟩ := Option.map_eq_some_iff.1 hstep
    obtain ⟨-, rfl⟩ := Prod.mk.inj heq
    exact hs.free hfree

/-- **A slice that is handed out is as long as was asked for** just if the request
and its tag are a `size_t`. -/
theorem Sized.usable_iff (h : Sized s.allocators) {i : ℕ} (hi : i < 18446744073709551616) {p : Slice}
    (hrun : s.alloc W i = some (p, a, s')) : i ≤ s'.usable a ↔ i + SLICE_TAG_SIZE < 18446744073709551616 := by
  obtain ⟨-, hpos, husable⟩ := h.alloc hrun
  have hcast : ((i : ℤ) + SLICE_TAG_SIZE) = (i + SLICE_TAG_SIZE : ℕ) := by
    push_cast
    rfl
  rw [husable]
  rw [hcast] at hpos ⊢
  rcases Nat.lt_or_ge (i + SLICE_TAG_SIZE) 18446744073709551616 with hlt | hge
  · rw [toSize_of_lt hlt] at hpos ⊢
    have hroom := nexthigher_ge hlt hpos
    exact iff_of_true (by omega) hlt
  · -- what is left of the tag takes 8 bytes at most
    obtain ⟨n, hn, hle⟩ : ∃ n, toSize (i + SLICE_TAG_SIZE : ℕ) = n ∧ n ≤ 2 ^ 3 := by
      refine ⟨_, rfl, ?_⟩
      unfold toSize
      unfold SLICE_TAG_SIZE at *
      omega
    rw [hn] at hpos ⊢
    have hn₀ : 0 < n := by
      rcases Nat.eq_zero_or_pos n with rfl | hn₀
      · exact absurd hpos (by decide)
      · exact hn₀
    have hnext := nexthigher_le hn₀ hle (by decide)
    refine iff_of_false ?_ (not_lt.2 hge)
    unfold SLICE_TAG_SIZE at *
    omega

/-! ## Slices that are not had -/

/-- Of a heap without blocks nothing is had, if a block of it has no elements or
cannot be mapped. -/
theorem heapAlloc_eq_none {E : ℕ} {A : Allocator (Block E)} {h heap : Heap E} {slot : Option (Slot E)}
    (hfree : h.freeElems = 0) (hempty : h.emptyBlock = none) (hbad : E = 0 ∨ ∀ m, A.pick m = none)
    (hrun : h.alloc A = some (slot, heap)) : slot = none := by
  obtain ⟨h₁, hlock, hrun⟩ := Option.bind_eq_some_iff.1 hrun
  obtain ⟨-, hlock⟩ := Option.ite_none_left_eq_some.1 hlock
  have hfree₁ : h₁.freeElems = 0 := by
    rw [← Option.some.inj hlock]
    exact hfree
  have hempty₁ : h₁.emptyBlock = none := by
    rw [← Option.some.inj hlock]
    exact hempty
  dsimp only at hrun
  rw [if_pos hfree₁] at hrun
  obtain ⟨h₂, hexpand, hrun⟩ := Option.bind_eq_some_iff.1 hrun
  rw [Heap.expand, if_neg (fun hne => hne hempty₁)] at hexpand
  obtain ⟨block, hpick, hexpand⟩ := Option.bind_eq_some_iff.1 hexpand
  rcases hbad with hzero | hnone
  · -- the block has no elements
    have hfree₂ : h₂.freeElems = 0 := by
      rw [← Option.some.inj hexpand]
      dsimp only
      rw [hfree₁, hzero]
    rw [if_pos hfree₂] at hrun
    exact (Prod.mk.inj (Option.some.inj hrun)).1.symm
  · rw [hnone] at hpick
    cases hpick

/-- The heap of an allocator that is new, if it is for elements of more than 2 ^ 26
bytes. -/
theorem alloc_empty (hk : heapElems k 16 = 0 ∨ MEMORY_SIZE < BLOCK_SIZE + (k + ELEM_HEADER_SIZE) * heapElems k 16)
    {addr : Addr} {mapped : Finset Region} {slot : Option (Slot _)} {heap : Heap _}
    (hrun : (SliceHeap.empty k 16 addr).heap.alloc ((SliceHeap.empty k 16 addr).allocator W mapped) =
      some (slot, heap)) : slot = none :=
  heapAlloc_eq_none rfl rfl (hk.imp_right fun hlong _ => if_neg (not_le.2 hlong)) hrun

/-- **The slices that are handed out** are of 2 ^ 26 bytes at most, where the
others were. -/
theorem Good.alloc_le (h : s.Good live) {i : ℕ} {p : Slice} (hrun : s.alloc W i = some (p, a, s'))
    (hpos : 0 < nexthigher (toSize (i + SLICE_TAG_SIZE))) : nexthigher (toSize (i + SLICE_TAG_SIZE)) ≤ 2 ^ 26 := by
  obtain ⟨⟨b, s₁⟩, hfind, hrun⟩ := Option.bind_eq_some_iff.1 hrun
  obtain ⟨y, hy, hrun⟩ := Option.bind_eq_some_iff.1 hrun
  obtain ⟨H, hH, hrun⟩ := Option.bind_eq_some_iff.1 hrun
  obtain ⟨⟨slot, heap⟩, halloc, hrun⟩ := Option.bind_eq_some_iff.1 hrun
  obtain ⟨slot', hslot, -⟩ := Option.bind_eq_some_iff.1 hrun
  obtain ⟨n, hn⟩ : ∃ n : ℕ, n = toSize (i + SLICE_TAG_SIZE) := ⟨_, rfl⟩
  rw [← hn] at hfind hpos ⊢
  obtain ⟨found, hsearch, hfind⟩ := Option.bind_eq_some_iff.1 hfind
  obtain ⟨found', hsearch', hsome, -⟩ := h.findAllocator (nexthigher n)
  obtain rfl := Option.some.inj (hsearch.symm.trans hsearch')
  cases found with
  | some c =>
    -- it is one of those there are
    obtain ⟨H', ho⟩ := hsome c rfl
    exact (h.registry.sized _ _ _ ho).2.2
  | none =>
    obtain ⟨-, rfl⟩ := (h.sized.createAllocator hfind).2 _ _ (owner_of_get hy hH)
    -- it is new, and its blocks are not to be had where they are too large
    have hlt : n < 2 ^ 64 := by
      rw [hn]
      unfold toSize
      omega
    have hle : n ≤ 2 ^ 63 := by
      by_contra hgt
      rw [nexthigher_of_gt (not_le.1 hgt) hlt] at hpos
      exact lt_irrefl 0 hpos
    have hn₀ : 0 < n := by
      rcases Nat.eq_zero_or_pos n with rfl | hn₀
      · exact absurd hpos (by decide)
      · exact hn₀
    obtain ⟨⟨m, hm⟩, -⟩ := (nexthigher_isLeast hn₀ hle).1
    have hm₆₃ : m ≤ 63 := (Nat.pow_le_pow_iff_right (by decide)).1 (hm ▸ nexthigher_le hn₀ hle le_rfl)
    by_contra hgt
    have hm₂₆ : 26 < m := by
      by_contra hm'
      exact hgt (hm ▸ Nat.pow_le_pow_right (by decide) (not_lt.1 hm'))
    have hbad := heapElems_of_gt hm₂₆ (by omega)
    rw [← hm] at hbad
    rw [show slot = none from alloc_empty hbad halloc] at hslot
    cases hslot

/-- The requests that are answered by a slice that is long enough, where the
others were of 2 ^ 26 bytes at most. -/
theorem Good.gives_iff (h : s.Good live) {i : ℕ} (hi : i < 18446744073709551616) :
    s.Gives W i ↔ i + SLICE_TAG_SIZE ≤ 2 ^ 26 := by
  constructor
  · rintro ⟨p, a, s', hrun, hroom⟩
    have hlt := (h.sized.usable_iff hi hrun).1 hroom
    obtain ⟨-, hpos, -⟩ := h.sized.alloc hrun
    have hle := h.alloc_le hrun hpos
    have hcast : ((i : ℤ) + SLICE_TAG_SIZE) = (i + SLICE_TAG_SIZE : ℕ) := by
      push_cast
      rfl
    rw [hcast, toSize_of_lt hlt] at hpos hle
    exact (nexthigher_ge hlt hpos).trans hle
  · intro hle
    obtain ⟨p, a, s', hrun, -⟩ := h.alloc (W := W) hle
    exact ⟨p, a, s', hrun, (h.sized.usable_iff hi hrun).2 (by omega)⟩

/-- **When a request gets as many bytes as it asks for.** An array does if it and
its tag are a `size_t` and the policy gives a block, or fails for want of a
policy. A slice that is handed out does if it and its tag are a `size_t`,
whatever was asked for and freed before; and it is handed out just if they are
of 2 ^ 26 bytes at most. -/
theorem enough_iff {addr : Addr} (hboot : bootstrap W addr = some s₀) :
    (∀ policy size count, Enough (size * count) (allocArrayUsingPolicy policy size count) ↔
      policy = none ∨ size * count + ALLOC_TAG_SIZE < 18446744073709551616 ∧
        ∃ p r, policy = some p ∧ p.allocate (adjSize size count) = some r) ∧
    (∀ allocator size count, Enough (size * count) (allocArray allocator size count) ↔
      size * count + ALLOC_TAG_SIZE < 18446744073709551616 ∧
        ∃ r, allocator.allocate (adjSize size count) = some r) ∧
    (∀ tr s live, Run (Call.run W) (fun _ _ => True) (s₀, []) tr (s, live) → ∀ i < 18446744073709551616,
      ∀ p a s', s.alloc W i = some (p, a, s') → (i ≤ s'.usable a ↔ i + SLICE_TAG_SIZE < 18446744073709551616)) ∧
    ∀ tr s live, Runs W s₀ tr (s, live) →
      ∀ i < 18446744073709551616, s.Gives W i ↔ i + SLICE_TAG_SIZE ≤ 2 ^ 26 := by
  refine ⟨allocArray_enough_iff, fun allocator size count => ?_,
    fun tr s live hrun i hi p a s' halloc => (Run.sized hboot hrun).usable_iff hi halloc,
    fun tr s live hrun i hi => ?_⟩
  · have hiff := allocArray_enough_iff (some allocator) size count
    simpa [allocArray] using hiff
  · exact (Runs.good hboot hrun).gives_iff hi

/-- After slices of 20 and of 100 bytes: a slice of 100 bytes is had, one of 100
million is not, nor is one of as many bytes as a `size_t` has less 3. -/
theorem enough_iff_two : ∃ s₀ tr s live, bootstrap exampleBacking 0 = some s₀ ∧
    Runs exampleBacking s₀ tr (s, live) ∧ tr.length = 2 ∧
    (s.Gives exampleBacking 100 ∧ ¬ s.Gives exampleBacking 100000000 ∧
      ¬ s.Gives exampleBacking 18446744073709551613) := by
  obtain ⟨s₀, hboot, -⟩ := good_bootstrap exampleBacking 0
  obtain ⟨p, a, s₁, hp, hg⟩ := (Runs.good hboot Run.nil).alloc (W := exampleBacking) (i := 20) (by decide)
  have h₁ : Runs exampleBacking s₀ ([] ++ [(.alloc 20, some p)]) (s₁, [⟨p, 20, a⟩]) :=
    Run.nil.snoc (by decide : 20 + SLICE_TAG_SIZE ≤ 2 ^ 26) (by rw [Call.run, hp]; rfl)
  obtain ⟨q, b, s₂, hq, -⟩ := hg.alloc (W := exampleBacking) (i := 100) (by decide)
  have h₂ : Runs exampleBacking s₀ ([] ++ [(.alloc 20, some p)] ++ [(.alloc 100, some q)])
      (s₂, [⟨q, 100, b⟩, ⟨p, 20, a⟩]) :=
    h₁.snoc (by decide : 100 + SLICE_TAG_SIZE ≤ 2 ^ 26) (by rw [Call.run, hq]; rfl)
  have hiff := (enough_iff hboot).2.2.2 _ _ _ h₂
  refine ⟨s₀, _, s₂, _, hboot, h₂, rfl, (hiff 100 (by decide)).2 (by decide), ?_, ?_⟩
  · rw [hiff _ (by decide)]
    decide
  · rw [hiff _ (by decide)]
    decide

/-- An array of 2 ^ 32 objects of 2 ^ 32 bytes has no byte. -/
theorem array_too_short : ¬ ∀ allocator size count, size < 18446744073709551616 → count < 18446744073709551616 →
    Enough (size * count) (allocArray allocator size count) := by
  intro h
  rcases h ⟨fun _ => some 4096⟩ 4294967296 4294967296 (by decide) (by decide) with hnone | ⟨x, hx, hle⟩
  · cases hnone
  · obtain rfl : (⟨(4096, 8), 4104⟩ : Allocated) = x := Option.some.inj (Option.some.inj hx)
    exact absurd hle (by decide)

end Memslice

end Mowgli
