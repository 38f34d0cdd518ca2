import Mathlib.Data.Finset.Lattice.Fold
import Mowgli.Base.Memslice.Slices
import Mowgli.Core.Heap.Runs
/-!
# Runs of the slice allocator

What `memslice_alloc` and `memslice_free` do, in the terms of the registry,
and what holds after any calls of them, where no request with its tag is
over 2 ^ 26 bytes and nothing is freed that is not in use.
-/

namespace Mowgli

open Store

namespace Memslice

variable {W : Backing} {s s' s₀ : Memslice} {m m' : Store SliceAlloc} {live : List LiveSlice} {a : Addr} {k : ℕ}
variable {H : SliceHeap} {r : Region} {x : LiveSlice}

/-- The size of an allocator, and its heap. -/
def ownerOf (m : Store SliceAlloc) (a : Addr) : Option (ℕ × SliceHeap) :=
  (m.get a).bind fun x => x.heap.map fun H => (x.size, H)

/-- The allocators, but for how they are listed. -/
def registry (s : Memslice) : Registry := ⟨s.allocatorHeap, ownerOf s.allocators, s.tags⟩

/-- The invariant between calls, where the slices `live` are in use. -/
structure Good (s : Memslice) (live : List LiveSlice) : Prop where
  registry : s.registry.Good live
  list : SliceAlloc.nodeField.Lists s.allocators s.allocatorList (· ∈ s.allocators.live)
  owned : ∀ a ∈ s.allocators.live, ∃ k H, ownerOf s.allocators a = some (k, H)
  pos : 0 < s.allocatorHeap.elemSize

theorem exists_of_owner (h : ownerOf m a = some (k, H)) : ∃ x, m.get a = some x ∧ x.size = k ∧ x.heap = some H := by
  obtain ⟨x, hx, h⟩ := Option.bind_eq_some_iff.1 h
  obtain ⟨H', hH', h⟩ := Option.map_eq_some_iff.1 h
  obtain ⟨rfl, rfl⟩ := Prod.mk.inj h
  exact ⟨x, hx, rfl, hH'⟩

theorem owner_of_get {y : SliceAlloc} (hy : m.get a = some y) (hH : y.heap = some H) :
    ownerOf m a = some (y.size, H) := by
  rw [ownerOf, hy, Option.bind_some, hH]
  rfl

theorem owner_of_keeps (h : SliceAlloc.nodeField.Keeps m m') : ownerOf m' = ownerOf m := by
  funext a
  have hg := congrArg (fun o => o.bind id) (h (fun x => x.heap.map fun H => (x.size, H)) (fun _ _ => rfl) a)
  rw [Option.bind_map, Option.bind_map] at hg
  exact hg

theorem owner_set (m : Store SliceAlloc) (a : Addr) (x : SliceAlloc) :
    ownerOf (m.set a x) = Function.update (ownerOf m) a (x.heap.map fun H => (x.size, H)) := by
  funext b
  by_cases hb : b = a
  · rw [hb, Function.update_self, ownerOf, get_set_self, Option.bind_some]
  · rw [Function.update_of_ne hb, ownerOf, ownerOf, get_set_of_ne m x hb]

theorem mem_regionsOf (H : SliceHeap) (m : Store (Block H.elems)) :
    r ∈ H.regionsOf m ↔ ∃ b ∈ m.live, r = (b, H.blockSize) := by
  rw [SliceHeap.regionsOf, Finset.mem_image]
  exact exists_congr fun b => and_congr_right fun _ => eq_comm

/-- What is mapped is the blocks of the heaps. -/
theorem mem_regions : r ∈ s.regions ↔ ∃ w, s.registry.Mapped w r := by
  rw [regions, Finset.mem_union, SliceHeap.regions, mem_regionsOf, Finset.mem_biUnion]
  constructor
  · rintro (h | ⟨a, -, h⟩)
    · exact ⟨none, _, rfl, h⟩
    · cases hH : (s.allocators.get a).bind SliceAlloc.heap with
      | none =>
        rw [hH] at h
        exact absurd h (Finset.notMem_empty r)
      | some H =>
        rw [hH] at h
        obtain ⟨y, hy, hyH⟩ := Option.bind_eq_some_iff.1 hH
        exact ⟨some a, H, Registry.heapAt_some (owner_of_get hy hyH), (mem_regionsOf H _).1 h⟩
  · rintro ⟨w, H, hw, h⟩
    cases w with
    | none =>
      obtain rfl := Option.some.inj hw
      exact Or.inl h
    | some a =>
      obtain ⟨⟨k, H'⟩, ha, rfl⟩ := Option.map_eq_some_iff.1 hw
      obtain ⟨y, hy, -, hyH⟩ := exists_of_owner ha
      refine Or.inr ⟨a, mem_live.2 ⟨y, hy⟩, ?_⟩
      rw [hy, Option.bind_some, hyH]
      exact (mem_regionsOf _ _).2 h

/-- A block that is mapped lies apart from all there are. -/
theorem mmap_apart (W : Backing) (s : Memslice) (H : SliceHeap) :
    ∀ w r, s.registry.Mapped w r → Apart (W.mmap (s.regions ∪ H.regionsOf H.heap.mem) H.blockSize, H.blockSize) r :=
  fun w r hr => W.apart _ _ r (Finset.mem_union_left _ (mem_regions.2 ⟨w, hr⟩))

/-- **`mowgli_heap_alloc`** of a heap of the registry. -/
theorem Good.heapAlloc (h : s.Good live) {w : Option Addr} (hw : s.registry.heapAt w = some H) :
    ∃ slot heap, H.heap.alloc (H.allocator W s.regions) = some (some slot, heap) ∧
      (s.registry.withHeap w { H with heap := heap }).Good live ∧ ¬ H.HandedOut ⟨slot.block, slot.index⟩ ∧
      ∀ p, SliceHeap.HandedOut { H with heap := heap } p ↔ p = ⟨slot.block, slot.index⟩ ∨ H.HandedOut p := by
  have hH := h.registry.heaps w H hw
  obtain ⟨slot, heap, hrun, hok, hno, hout, hmem⟩ := hH.alloc (hH.neverFails W s.regions)
  refine ⟨slot, heap, hrun, ?_, hno, hout⟩
  refine h.registry.withHeap hw hok (fun c hc => ?_) (mmap_apart W s H) fun p hp => (hout p).2 (Or.inr hp)
  rw [SliceHeap.pick_of_fits hH.fits] at hmem
  exact (hmem c hc).imp_right fun hpick => (Option.some.inj hpick).symm

/-! ## The allocators -/

/-- The search of `find_or_create_allocator`. -/
theorem findAllocator_spec (s : Memslice) (k : ℕ) {l : MowgliList} (ys : List Addr) {zs : List Addr}
    (hl : SliceAlloc.nodeField.Holds s.allocators l (ys ++ zs))
    (hd : ∀ a ∈ zs, SliceAlloc.nodeField.data s.allocators a = some (some a)) :
    ∃ found, s.findAllocator k zs.length zs.head? = some found ∧
      (∀ a, found = some a → ∃ y, s.allocators.get a = some y ∧ y.size = k) ∧
      (found = none → ∀ a ∈ zs, ∀ y, s.allocators.get a = some y → y.size ≠ k) := by
  induction zs generalizing ys with
  | nil => exact ⟨none, rfl, by simp, by simp⟩
  | cons b zs ih =>
    obtain ⟨y, hy, hnext⟩ := hl.next_eq
    have hyd : y.node.data = some b := by
      have hdb := hd b (List.mem_cons_self ..)
      rw [NodeField.data, hy] at hdb
      exact Option.some.inj hdb
    have hstep : s.findAllocator k (b :: zs).length (b :: zs).head? =
        if y.size = k then some (some b) else s.findAllocator k zs.length y.node.next := by
      simp only [List.length_cons, List.head?_cons, findAllocator, hy, hyd, Option.bind_eq_bind, Option.bind_some]
    rw [hstep]
    by_cases hk : y.size = k
    · rw [if_pos hk]
      refine ⟨some b, rfl, fun a ha => ?_, fun hn => by cases hn⟩
      obtain rfl := Option.some.inj ha
      exact ⟨y, hy, hk⟩
    · rw [if_neg hk, show y.node.next = zs.head? from hnext]
      obtain ⟨found, hrun, hsome, hnone⟩ :=
        ih (ys ++ [b]) (by simpa using hl) fun a ha => hd a (List.mem_cons_of_mem b ha)
      refine ⟨found, hrun, hsome, fun hn a ha y' hy' => ?_⟩
      rcases List.mem_cons.1 ha with rfl | ha
      · rwa [Option.some.inj (hy'.symm.trans hy)]
      · exact hnone hn a ha y' hy'

theorem Good.findAllocator (h : s.Good live) (k : ℕ) :
    ∃ found, s.findAllocator k s.allocatorList.count s.allocatorList.head = some found ∧
      (∀ a, found = some a → ∃ H, s.registry.owner a = some (k, H)) ∧
      (found = none → ∀ a H, s.registry.owner a ≠ some (k, H)) := by
  obtain ⟨xs, hl, hmem, hd⟩ := h.list
  obtain ⟨found, hrun, hsome, hnone⟩ := findAllocator_spec s k [] hl hd
  rw [hl.count, hl.head_eq]
  refine ⟨found, hrun, fun a ha => ?_, fun hn a H ho => ?_⟩
  · obtain ⟨y, hy, rfl⟩ := hsome a ha
    obtain ⟨k', H, ho⟩ := h.owned a (mem_live.2 ⟨y, hy⟩)
    obtain ⟨y', hy', rfl, -⟩ := exists_of_owner ho
    obtain rfl := Option.some.inj (hy.symm.trans hy')
    exact ⟨H, ho⟩
  · obtain ⟨y, hy, hk, -⟩ := exists_of_owner ho
    exact hnone hn a ((hmem a).2 (mem_live.2 ⟨y, hy⟩)) y hy hk

/-- A heap that is made with `BH_LAZY` has no block. -/
theorem create_lazy (W : Backing) (mapped : Finset Region) {k : ℕ} (hk : k ≠ 0) (addr : Addr) :
    SliceHeap.create W mapped k 16 addr false = some (some (SliceHeap.empty k 16 addr)) := by
  rw [SliceHeap.create, if_neg hk]
  rfl

/-- **`create_allocator`.** -/
theorem Good.createAllocator (h : s.Good live) (hpow : ∃ m, k = 2 ^ m) (hk : k ≤ 2 ^ 26)
    (hnone : ∀ a H, s.registry.owner a ≠ some (k, H)) :
    ∃ a H s', s.createAllocator W k = some (a, s') ∧ s'.Good live ∧ s'.registry.owner a = some (k, H) := by
  obtain ⟨slot, heap, halloc, hg, hno, hout⟩ := h.heapAlloc (W := W) (w := none) (H := s.allocatorHeap) rfl
  obtain ⟨a, ha⟩ : ∃ a, a = s.allocatorHeap.elemAddr slot.block slot.index := ⟨_, rfl⟩
  obtain ⟨s₁, hs₁⟩ : ∃ s₁ : Memslice, s₁ = { s with allocatorHeap := { s.allocatorHeap with heap := heap } } := ⟨_, rfl⟩
  have hg₁ : s₁.registry.Good live := hs₁ ▸ hg
  -- no allocator is at the new element
  obtain ⟨hfree, hadd⟩ := hg₁.addOwner (p := ⟨slot.block, slot.index⟩) (hs₁ ▸ (hout _).2 (Or.inl rfl))
    (fun b k' H' hb => by
      obtain ⟨p, hp, hbp⟩ := h.registry.placed b k' H' (by rw [hs₁] at hb; exact hb)
      refine ⟨p, fun hps => hno (hps ▸ hp), hs₁ ▸ (hout p).2 (Or.inr hp), ?_⟩
      rw [hbp, hs₁]
      rfl)
    (hs₁ ▸ h.pos) hpow hk (hs₁ ▸ hnone) (W.heapAddr a)
  rw [show s₁.registry.allocatorHeap.elemAddr slot.block slot.index = a by rw [ha, hs₁]; rfl] at hfree hadd
  have hdead : a ∉ s.allocators.live := by
    intro hlive
    obtain ⟨k', H, ho⟩ := h.owned a hlive
    rw [hs₁] at hfree
    exact absurd (ho.symm.trans hfree) (by simp)
  -- it is listed
  have hlist₀ : SliceAlloc.nodeField.Lists (s.allocators.set a .zero) s.allocatorList (· ∈ s.allocators.live) :=
    h.list.congr (fun _ => Iff.rfl) fun b hb => by
      have hba : b ≠ a := fun hba => hdead (hba ▸ hb)
      rw [get_set_of_ne _ _ hba]
  obtain ⟨m, l, hnode, hlist, hkeeps⟩ := hlist₀.nodeAdd (mem_live.2 ⟨_, get_set_self ..⟩) hdead
  obtain ⟨y, hy⟩ := mem_live.1 ((hlist.live (a := a) (Or.inr rfl)))
  obtain ⟨m₂, hm₂⟩ : ∃ m₂, m₂ = m.set a { y with size := k, heap := some (SliceHeap.empty k 16 (W.heapAddr a)) } := ⟨_, rfl⟩
  have howner : ownerOf m₂ = Function.update (ownerOf s.allocators) a (some (k, SliceHeap.empty k 16 (W.heapAddr a))) := by
    rw [hm₂, owner_set, owner_of_keeps hkeeps, owner_set, Function.update_idem]
    rfl
  have hlive : ∀ b, b ∈ m₂.live ↔ b ∈ s.allocators.live ∨ b = a := by
    intro b
    rw [hm₂, mem_live_set, hkeeps.live, mem_live_set]
    tauto
  have hne : k ≠ 0 := by
    obtain ⟨n, rfl⟩ := hpow
    exact (Nat.two_pow_pos n).ne'
  refine ⟨a, SliceHeap.empty k 16 (W.heapAddr a), { s₁ with allocators := m₂, allocatorList := l }, ?_, ⟨?_, ?_, ?_, ?_⟩, ?_⟩
  · simp only [Memslice.createAllocator, halloc, Option.bind_eq_bind, Option.bind_some, ← ha, hnode,
      create_lazy W _ hne, modify_of_get _ hy, ← hm₂]
    rw [hs₁]
  · rw [Memslice.registry, howner, hs₁]
    rw [hs₁] at hadd
    exact hadd
  · refine hlist.congr (fun b => (hlive b).symm) fun b _ => ?_
    rw [hm₂, get_set]
    split_ifs with hb
    · rw [hb, hy]
      rfl
    · rfl
  · intro b hb
    rw [howner]
    by_cases hba : b = a
    · rw [hba, Function.update_self]
      exact ⟨_, _, rfl⟩
    · rw [Function.update_of_ne hba]
      exact h.owned b (((hlive b).1 hb).resolve_right hba)
  · rw [hs₁]
    exact h.pos
  · rw [Memslice.registry, howner]
    exact Function.update_self ..

/-- **`find_or_create_allocator`** finds the allocator of a size, or there is one
after it. -/
theorem Good.findOrCreateAllocator (h : s.Good live) {n : ℕ} (hpos : 0 < n) (hn : n ≤ 2 ^ 26) :
    ∃ a H s', s.findOrCreateAllocator W n = some (a, s') ∧ s'.Good live ∧
      s'.registry.owner a = some (nexthigher n, H) := by
  obtain ⟨found, hrun, hsome, hnone⟩ := h.findAllocator (nexthigher n)
  cases found with
  | some a =>
    obtain ⟨H, hH⟩ := hsome a rfl
    refine ⟨a, H, s, ?_, h, hH⟩
    simp only [Memslice.findOrCreateAllocator, hrun, Option.bind_eq_bind, Option.bind_some]
  | none =>
    have hleast := nexthigher_isLeast hpos (hn.trans (by norm_num))
    obtain ⟨a, H, s', hcreate, hg, ho⟩ := h.createAllocator (W := W) hleast.1.1
      (nexthigher_le hpos hn (by norm_num)) (hnone rfl)
    refine ⟨a, H, s', ?_, hg, ho⟩
    simp only [Memslice.findOrCreateAllocator, hrun, Option.bind_eq_bind, Option.bind_some, hcreate]

/-! ## The slices -/

/-- An allocator has another heap of the same size. -/
theorem owner_setHeap {y : SliceAlloc} (hy : m.get a = some y) (H' : SliceHeap) (ho : ownerOf m a = some (k, H)) :
    ownerOf (m.set a { y with heap := some H' }) =
      Function.update (ownerOf m) a ((ownerOf m a).map fun x => (x.1, H')) := by
  obtain ⟨y', hy', rfl, -⟩ := exists_of_owner ho
  obtain rfl := Option.some.inj (hy.symm.trans hy')
  rw [owner_set, ho]
  rfl

/-- The heap of an allocator changes, and the tags. -/
theorem Good.setHeap (h : s.Good live) {y : SliceAlloc} (hy : s.allocators.get a = some y) {H' : SliceHeap}
    {tags : Slice → Option Addr} {live' : List LiveSlice} (ho : s.registry.owner a = some (k, H))
    (hg : Registry.Good { s.registry.withHeap (some a) H' with tags := tags } live') :
    Good { s with allocators := s.allocators.set a { y with heap := some H' }, tags := tags } live' := by
  have howner := owner_setHeap hy H' ho
  refine ⟨?_, ?_, fun b hb => ?_, h.pos⟩
  · rw [Memslice.registry, howner]
    exact hg
  · refine h.list.congr (fun b => ?_) fun b _ => ?_
    · rw [mem_live_set]
      refine ⟨Or.inr, fun hb => hb.elim (fun hba => ?_) id⟩
      exact mem_live.2 ⟨y, hba ▸ hy⟩
    · rw [get_set]
      split_ifs with hba
      · rw [hba, hy]
        rfl
      · rfl
  · rw [howner]
    by_cases hba : b = a
    · rw [hba, Function.update_self, show ownerOf s.allocators a = some (k, H) from ho]
      exact ⟨_, _, rfl⟩
    · rw [Function.update_of_ne hba]
      exact h.owned b ((mem_live_set.1 hb).resolve_left hba)

/-- **`memslice_alloc`** hands out a slice that is not in use. -/
theorem Good.alloc (h : s.Good live) {i : ℕ} (hi : i + SLICE_TAG_SIZE ≤ 2 ^ 26) :
    ∃ p a s', s.alloc W i = some (p, a, s') ∧ s'.Good (⟨p, i, a⟩ :: live) := by
  have hpos : 0 < i + SLICE_TAG_SIZE := Nat.add_pos_right i (by decide)
  have hadj : toSize (i + SLICE_TAG_SIZE) = i + SLICE_TAG_SIZE := by
    rw [← Nat.cast_add]
    exact toSize_of_lt (by omega)
  obtain ⟨a, H, s', hfind, hg, ho⟩ := h.findOrCreateAllocator (W := W) hpos hi
  obtain ⟨y, hy, -, hyH⟩ := exists_of_owner ho
  obtain ⟨slot, heap, halloc, hg', hno, hout⟩ := hg.heapAlloc (W := W) (Registry.heapAt_some ho)
  have ho' := Registry.owner_withHeap_of ho { H with heap := heap } (some a)
  rw [if_pos rfl] at ho'
  have hleast := nexthigher_isLeast hpos (hi.trans (by norm_num))
  -- there is room for the tag
  have htag : ¬ H.elemSize < SLICE_TAG_SIZE := by
    have hge : i + SLICE_TAG_SIZE ≤ H.elemSize := by
      rw [(hg.registry.sized _ _ _ ho).1]
      exact hleast.1.2
    omega
  refine ⟨⟨slot.block, slot.index⟩, a, _, ?_, hg.setHeap hy ho (hg'.handOut ho' ((hout _).2 (Or.inl rfl))
    hleast fun x hx hxa hxp => hno ?_)⟩
  · simp only [Memslice.alloc, hadj, hfind, Option.bind_eq_bind, Option.bind_some, hy, hyH, halloc, if_neg htag]
    rfl
  · obtain ⟨-, k', H', hx', -, hp⟩ := hg.registry.slices x hx
    rw [hxa] at hx'
    obtain ⟨-, rfl⟩ := Prod.mk.inj (Option.some.inj (hx'.symm.trans ho))
    rwa [hxp] at hp

/-- **`memslice_free`** gives a slice back to the heap of the allocator that it
was taken from. -/
theorem Good.free (h : s.Good live) (hx : x ∈ live) :
    s.tags x.slice = some x.owner ∧ ∃ s' A H heap, ∃ hlt : x.slice.index < H.elems,
      s.free x.slice = some s' ∧ s'.Good (live.filter fun y => y.slice ≠ x.slice) ∧
      s.allocators.get x.owner = some A ∧ A.heap = some H ∧
      H.heap.free ⟨x.slice.block, x.slice.index, hlt⟩ = some heap ∧
      s'.allocators = s.allocators.set x.owner { A with heap := some { H with heap := heap } } := by
  obtain ⟨htag, k, H, ho, -, hp⟩ := h.registry.slices x hx
  obtain ⟨A, hA, -, hH⟩ := exists_of_owner ho
  obtain ⟨heap, hfree, hok, hout, hmem, hmutex⟩ := (h.registry.heaps _ _ (Registry.heapAt_some ho)).free hp
  refine ⟨htag, _, A, H, heap, hp.lt, ?_, h.setHeap hA ho (h.registry.takeBack ho hok hmem hout), hA, hH, hfree, rfl⟩
  simp only [Memslice.free, show s.tags x.slice = some x.owner from htag, Option.bind_eq_bind, Option.bind_some, hA, hH,
    dif_pos hp.lt, hfree, hmutex]
  rfl

/-- **`mowgli_memslice_bootstrap`.** -/
theorem good_bootstrap (W : Backing) (addr : Addr) : ∃ s₀, bootstrap W addr = some s₀ ∧ s₀.Good [] := by
  obtain ⟨H, hH⟩ : ∃ H, H = SliceHeap.empty SLICE_ALLOC_SIZE 16 addr := ⟨_, rfl⟩
  have hok : H.Ok := hH ▸ SliceHeap.ok_empty addr (by decide)
  obtain ⟨heap, hcreate, hg, hmem⟩ := Heap.create_now (A := H.allocator W ∅) addr (SliceHeap.pick_of_fits hok.fits W ∅ _)
  obtain ⟨s₀, hs₀⟩ : ∃ s₀ : Memslice, s₀ = ⟨{ H with heap := heap }, Store.empty, .zero, fun _ => none⟩ := ⟨_, rfl⟩
  have hboot : bootstrap W addr = some s₀ := by
    have hheap : SliceHeap.create W ∅ SLICE_ALLOC_SIZE 16 addr true = some (some { H with heap := heap }) := by
      rw [SliceHeap.create, if_neg (by decide)]
      dsimp only
      rw [← hH, hcreate]
      rfl
    rw [bootstrap, hheap, hs₀]
    rfl
  have hnone : ∀ a, s₀.registry.owner a = none := by
    intro a
    rw [hs₀]
    exact congrArg (fun o : Option SliceAlloc => o.bind fun x => x.heap.map fun H => (x.size, H)) (get_empty a)
  have hheapAt : ∀ w H', s₀.registry.heapAt w = some H' → w = none ∧ H' = { H with heap := heap } := by
    intro w H' hw
    cases w with
    | none =>
      rw [hs₀] at hw
      exact ⟨rfl, (Option.some.inj hw).symm⟩
    | some a =>
      rw [Registry.heapAt, hnone a] at hw
      cases hw
  refine ⟨s₀, hboot, ⟨⟨?_, ?_, ?_, ?_, ?_, by simp, List.Pairwise.nil⟩, ?_, ?_, ?_⟩⟩
  · rintro w H' hw
    obtain ⟨rfl, rfl⟩ := hheapAt w H' hw
    exact ⟨hg.inv, hg.mutex, hok.elems, hok.fits⟩
  · -- there is one block
    rintro w w' r r' ⟨H₁, hw, b, hb, rfl⟩ ⟨H₂, hw', b', hb', rfl⟩ hne
    obtain ⟨rfl, rfl⟩ := hheapAt w H₁ hw
    obtain ⟨rfl, rfl⟩ := hheapAt w' H₂ hw'
    rw [hmem b hb, hmem b' hb'] at hne
    simp at hne
  · intro a k H' ho
    rw [hnone a] at ho
    cases ho
  · intro a a' k H₁ H₂ ho
    rw [hnone a] at ho
    cases ho
  · intro a k H' ho
    rw [hnone a] at ho
    cases ho
  · rw [hs₀]
    exact (NodeField.lists_zero _).congr (fun a => by simp) fun _ _ => rfl
  · rw [hs₀]
    intro a ha
    simp at ha
  · have hsize : H.elemSize = SLICE_ALLOC_SIZE := by rw [hH]; rfl
    rw [hs₀]
    exact hsize.symm ▸ (by decide : 0 < SLICE_ALLOC_SIZE)

/-! ## Runs -/

/-- A call of the policy. -/
inductive Call
  | alloc (i : ℕ)
  | free (ptr : Slice)

/-- A request and its tag take 2 ^ 26 bytes at most, and what is freed is in
use. -/
def Call.Ok (s : Memslice × List LiveSlice) : Call → Prop
  | alloc i => i + SLICE_TAG_SIZE ≤ 2 ^ 26
  | free ptr => ∃ x ∈ s.2, x.slice = ptr

/-- A call, with the slices in use; it answers the slice of an `alloc`. -/
def Call.run (W : Backing) (s : Memslice × List LiveSlice) :
    Call → Option (Option Slice × Memslice × List LiveSlice)
  | alloc i => (s.1.alloc W i).map fun r => (some r.1, r.2.2, ⟨r.1, i, r.2.1⟩ :: s.2)
  | free ptr => (s.1.free ptr).map fun s' => (none, s', s.2.filter fun x => x.slice ≠ ptr)

/-- The runs from the state `s₀`. -/
abbrev Runs (W : Backing) (s₀ : Memslice) : List (Call × Option Slice) → Memslice × List LiveSlice → Prop :=
  Run (Call.run W) Call.Ok (s₀, [])

/-- The bytes of a slice, with the tag before them. -/
def bytes (H : SliceHeap) (x : LiveSlice) : Region :=
  (H.elemAddr x.slice.block x.slice.index, SLICE_TAG_SIZE + x.size)

/-- **What the allocators and the slices are.** -/
structure Consistent (s : Memslice) (live : List LiveSlice) : Prop where
  /-- The allocators are listed, each once, and each is of another power of two. -/
  listed : ∃ xs, SliceAlloc.nodeField.Holds s.allocators s.allocatorList xs ∧
    (∀ a ∈ xs, ∃ A m, s.allocators.get a = some A ∧ A.node.data = some a ∧ A.size = 2 ^ m) ∧
    ∀ a ∈ xs, ∀ a' ∈ xs, ∀ A A', s.allocators.get a = some A → s.allocators.get a' = some A' →
      A.size = A'.size → a = a'
  /-- A slice is handed out by the heap of the allocator that its tag names,
  which is of the least power of two there is room in, and by no other. -/
  owners : ∀ x ∈ live, s.tags x.slice = some x.owner ∧
    ∃ A H, s.allocators.get x.owner = some A ∧ A.heap = some H ∧ H.elemSize = A.size ∧
      IsLeast (powersFrom (x.size + SLICE_TAG_SIZE)) A.size ∧ H.HandedOut x.slice ∧
      ∀ a A' H', s.allocators.get a = some A' → A'.heap = some H' → H'.HandedOut x.slice → a = x.owner
  /-- No slices overlap. -/
  apart : live.Pairwise fun x y => ∀ A A' H H', s.allocators.get x.owner = some A → A.heap = some H →
    s.allocators.get y.owner = some A' → A'.heap = some H' → Apart (bytes H x) (bytes H' y)

/-- The invariant is what was to be had. -/
theorem Good.consistent (h : s.Good live) : s.Consistent live where
  listed := by
    obtain ⟨xs, hl, hmem, hd⟩ := h.list
    have howner : ∀ a ∈ xs, ∀ A, s.allocators.get a = some A → ∃ H, s.registry.owner a = some (A.size, H) := by
      intro a ha A hA
      obtain ⟨k, H, ho⟩ := h.owned a ((hmem a).1 ha)
      obtain ⟨A', hA', rfl, -⟩ := exists_of_owner ho
      obtain rfl := Option.some.inj (hA.symm.trans hA')
      exact ⟨H, ho⟩
    refine ⟨xs, hl, fun a ha => ?_, fun a ha a' ha' A A' hA hA' hsize => ?_⟩
    · obtain ⟨A, hA⟩ := mem_live.1 ((hmem a).1 ha)
      obtain ⟨H, ho⟩ := howner a ha A hA
      obtain ⟨-, ⟨m, hm⟩, -⟩ := h.registry.sized a _ H ho
      have hda := hd a ha
      rw [NodeField.data, hA] at hda
      exact ⟨A, m, hA, Option.some.inj hda, hm⟩
    · obtain ⟨H, ho⟩ := howner a ha A hA
      obtain ⟨H', ho'⟩ := howner a' ha' A' hA'
      rw [← hsize] at ho'
      exact h.registry.single a a' _ H H' ho ho'
  owners := by
    intro x hx
    obtain ⟨htag, k, H, ho, hleast, hp⟩ := h.registry.slices x hx
    obtain ⟨A, hA, rfl, hH⟩ := exists_of_owner ho
    refine ⟨htag, A, H, hA, hH, (h.registry.sized _ _ _ ho).1, hleast, hp, fun a A' H' hA' hH' hp' => ?_⟩
    exact Option.some.inj (h.registry.block_owner (Registry.heapAt_some (owner_of_get hA' hH'))
      (Registry.heapAt_some ho) hp'.mem hp.mem)
  apart := by
    refine List.Pairwise.imp_of_mem ?_ h.registry.distinct
    intro x y hx hy hne A A' H H' hA hH hA' hH'
    have ho := owner_of_get hA hH
    have ho' := owner_of_get hA' hH'
    have hapart := h.registry.slices_apart hx hy hne ho ho'
    have hfit : ∀ z ∈ live, ∀ k K, s.registry.owner z.owner = some (k, K) → SLICE_TAG_SIZE + z.size ≤ K.elemSize := by
      intro z hz k K hK
      obtain ⟨-, k', K', hK', hleast, -⟩ := h.registry.slices z hz
      obtain ⟨rfl, rfl⟩ := Prod.mk.inj (Option.some.inj (hK'.symm.trans hK))
      rw [(h.registry.sized _ _ _ hK).1, Nat.add_comm]
      exact hleast.1.2
    have hx' := hfit x hx _ H ho
    have hy' := hfit y hy _ H' ho'
    rcases hapart with hle | hle
    · refine Or.inl (le_trans ?_ hle)
      exact Nat.add_le_add_left hx' _
    · refine Or.inr (le_trans ?_ hle)
      exact Nat.add_le_add_left hy' _

/-- One call. -/
theorem Good.step (h : s.Good live) {c : Call} (hok : c.Ok (s, live)) :
    ∃ r s' live', c.run W (s, live) = some (r, s', live') ∧ s'.Good live' := by
  cases c with
  | alloc i =>
    obtain ⟨p, a, s', hrun, hg⟩ := h.alloc (W := W) hok
    exact ⟨some p, s', ⟨p, i, a⟩ :: live, by rw [Call.run, hrun]; rfl, hg⟩
  | free ptr =>
    obtain ⟨x, hx, rfl⟩ := hok
    obtain ⟨-, s', A, H, heap, hlt, hrun, hg, -⟩ := h.free hx
    exact ⟨none, s', _, by rw [Call.run, hrun]; rfl, hg⟩

theorem Runs.good {addr : Addr} {tr : List (Call × Option Slice)} (hboot : bootstrap W addr = some s₀)
    (hrun : Runs W s₀ tr (s, live)) : s.Good live := by
  obtain ⟨s₁, hboot₁, hg₁⟩ := good_bootstrap W addr
  obtain rfl := Option.some.inj (hboot.symm.trans hboot₁)
  exact Run.invariant (I := fun s => Good s.1 s.2) hg₁
    (fun {s c r s'} hg hok hstep => by
      obtain ⟨r', s₁, live₁, hstep', hg'⟩ := hg.step hok
      obtain ⟨-, rfl⟩ := Prod.mk.inj (Option.some.inj (hstep.symm.trans hstep'))
      exact hg') hrun

/-- **Every slice in use is its owner's.** In every state a run reaches, there
is at most one allocator of each power of two, the tag of a slice in use
names the allocator whose heap it is from, of the least power of two there is
room in, and no slices overlap. A request is answered with a slice, and a
slice that is freed goes back to the heap of the allocator that it was taken
from. -/
theorem runs_slices {W : Backing} {addr : Addr} {s₀ s : Memslice} {live : List LiveSlice}
    {tr : List (Call × Option Slice)} (hboot : bootstrap W addr = some s₀) (hrun : Runs W s₀ tr (s, live)) :
    s.Consistent live ∧
      (∀ i, i + SLICE_TAG_SIZE ≤ 2 ^ 26 → ∃ p a s', s.alloc W i = some (p, a, s') ∧ s'.Consistent (⟨p, i, a⟩ :: live)) ∧
      ∀ x ∈ live, s.tags x.slice = some x.owner ∧ ∃ s' A H heap, ∃ hlt : x.slice.index < H.elems,
        s.free x.slice = some s' ∧ s'.Consistent (live.filter fun y => y.slice ≠ x.slice) ∧
        s.allocators.get x.owner = some A ∧ A.heap = some H ∧
        H.heap.free ⟨x.slice.block, x.slice.index, hlt⟩ = some heap ∧
        s'.allocators = s.allocators.set x.owner { A with heap := some { H with heap := heap } } := by
  have hg := Runs.good hboot hrun
  refine ⟨hg.consistent, fun i hi => ?_, fun x hx => ?_⟩
  · obtain ⟨p, a, s', halloc, hg'⟩ := hg.alloc (W := W) hi
    exact ⟨p, a, s', halloc, hg'.consistent⟩
  · obtain ⟨htag, s', A, H, heap, hlt, hfree, hg', hrest⟩ := hg.free hx
    exact ⟨htag, s', A, H, heap, hlt, hfree, hg'.consistent, hrest⟩

/-- Memory that is mapped behind all that was mapped before. -/
def exampleBacking : Backing where
  mmap mapped _ := mapped.sup fun r => r.1 + r.2
  apart _ _ _ hr := Or.inr (Finset.le_sup (f := fun r : Region => r.1 + r.2) hr)
  heapAddr a := a

theorem runs_slices_two : ∃ (s : Memslice) (p q : Slice) (a b : Addr),
    s.Consistent [⟨q, 100, b⟩, ⟨p, 20, a⟩] := by
  obtain ⟨s₀, hboot, -⟩ := good_bootstrap exampleBacking 0
  obtain ⟨p, a, s₁, hp, -⟩ := (runs_slices hboot Run.nil).2.1 20 (by decide)
  have h₁ : Runs exampleBacking s₀ ([] ++ [(.alloc 20, some p)]) (s₁, [⟨p, 20, a⟩]) :=
    Run.nil.snoc (by decide : 20 + SLICE_TAG_SIZE ≤ 2 ^ 26) (by rw [Call.run, hp]; rfl)
  obtain ⟨q, b, s₂, hq, hc⟩ := (runs_slices hboot h₁).2.1 100 (by decide)
  exact ⟨s₂, p, q, a, b, hc⟩

end Memslice

end Mowgli
