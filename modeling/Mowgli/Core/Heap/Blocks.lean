import Mathlib.Algebra.BigOperators.Group.List.Basic
import Mowgli.Core.Heap.Model
/-!
# The blocks of a heap

What a heap is apart from how its list of blocks is linked: which blocks
there are, in which order they are listed, which one is the empty block,
and what is free in each. `Blocks` is the invariant of that, and each
operation moves a block in one of a few ways that keep it.
-/

namespace Mowgli

namespace Heap

variable {E : ℕ}

/-- A block but for its node. -/
structure Body (E : ℕ) where
  heap : Option Addr
  firstFree : Option (Slot E)
  numAllocated : ℕ
  elems : Fin E → HeapElemHeader E

/-- What there is of a block but for its node. -/
def body (b : Block E) : Body E := ⟨b.heap, b.firstFree, b.numAllocated, b.elems⟩

/-- The chain of free elements of the block `b`, from `p` on. -/
def FreeChain (b : Addr) (elems : Fin E → HeapElemHeader E) : Option (Slot E) → List (Fin E) → Prop
  | p, [] => p = none
  | p, i :: is => p = some ⟨b, i⟩ ∧ ∃ q, elems i = .next q ∧ FreeChain b elems q is

/-- The block `b` of a heap, with the free elements `is`. -/
structure BlockOk (addr b : Addr) (B : Body E) (is : List (Fin E)) : Prop where
  heap : B.heap = some addr
  chain : FreeChain b B.elems B.firstFree is
  nodup : is.Nodup
  count : is.length + B.numAllocated = E
  /-- What is not free is handed out. -/
  used : ∀ i ∉ is, B.elems i = .block (some b)

variable {addr b : Addr} {B : Body E} {is : List (Fin E)} {i : Fin E} {p : Option (Slot E)}
variable {elems : Fin E → HeapElemHeader E}

theorem FreeChain.congr {elems' : Fin E → HeapElemHeader E} (h : FreeChain b elems p is)
    (he : ∀ i ∈ is, elems' i = elems i) : FreeChain b elems' p is := by
  induction is generalizing p with
  | nil => exact h
  | cons i is ih =>
    obtain ⟨hp, q, hi, h⟩ := h
    exact ⟨hp, q, (he i (List.mem_cons_self ..)).trans hi, ih h fun j hj => he j (List.mem_cons_of_mem _ hj)⟩

/-- An element is taken off the chain. -/
theorem BlockOk.take (h : BlockOk addr b B (i :: is)) :
    B.firstFree = some ⟨b, i⟩ ∧ ∃ q, B.elems i = .next q ∧
      BlockOk addr b ⟨B.heap, q, B.numAllocated + 1, Function.update B.elems i (.block (some b))⟩ is := by
  obtain ⟨hheap, ⟨hp, q, hi, hchain⟩, hnd, hcount, hused⟩ := h
  obtain ⟨hni, hnd⟩ := List.nodup_cons.1 hnd
  refine ⟨hp, q, hi, hheap, hchain.congr fun j hj => ?_, hnd, ?_, fun j hj => ?_⟩
  · refine Function.update_of_ne ?_ ..
    rintro rfl
    exact hni hj
  · rw [List.length_cons] at hcount
    dsimp only
    omega
  · dsimp only
    by_cases hji : j = i
    · rw [hji, Function.update_self]
    · rw [Function.update_of_ne hji]
      exact hused j (by simp [hji, hj])

/-- An element is put on the chain. -/
theorem BlockOk.give (h : BlockOk addr b B is) (hi : i ∉ is) (hn : 0 < B.numAllocated) :
    BlockOk addr b ⟨B.heap, some ⟨b, i⟩, sizeDec B.numAllocated,
      Function.update B.elems i (.next B.firstFree)⟩ (i :: is) := by
  obtain ⟨hheap, hchain, hnd, hcount, hused⟩ := h
  refine ⟨hheap, ⟨rfl, B.firstFree, Function.update_self .., hchain.congr fun j hj => ?_⟩,
    List.nodup_cons.2 ⟨hi, hnd⟩, ?_, fun j hj => ?_⟩
  · refine Function.update_of_ne ?_ ..
    rintro rfl
    exact hi hj
  · obtain ⟨n, hn⟩ : ∃ n, B.numAllocated = n + 1 := ⟨B.numAllocated - 1, by omega⟩
    dsimp only
    rw [hn, sizeDec_succ, List.length_cons]
    omega
  · rw [List.mem_cons, not_or] at hj
    dsimp only
    rw [Function.update_of_ne hj.1]
    exact hused j hj.2

/-- The elements of a new block are all on the chain. -/
theorem chainElems_spec (b : Addr) (elems : Fin E → HeapElemHeader E) :
    FreeChain b (chainElems b elems).1 (chainElems b elems).2 (List.finRange E).reverse := by
  rw [chainElems]
  have hnd := List.nodup_finRange E
  generalize List.finRange E = l at hnd
  induction l using List.reverseRecOn with
  | nil => rfl
  | append_singleton l a ih =>
    obtain ⟨hnd, -, hne⟩ := List.nodup_append.1 hnd
    rw [List.foldl_append, List.foldl_cons, List.foldl_nil, List.reverse_append, List.reverse_singleton]
    refine ⟨rfl, _, Function.update_self .., (ih hnd).congr fun i hi => ?_⟩
    exact Function.update_of_ne (hne i (List.mem_reverse.1 hi) a (List.mem_singleton_self a)) ..

/-- A new block. -/
theorem BlockOk.new (addr b : Addr) (elems : Fin E → HeapElemHeader E) :
    BlockOk addr b ⟨some addr, (chainElems b elems).2, 0, (chainElems b elems).1⟩
      (List.finRange E).reverse where
  heap := rfl
  chain := chainElems_spec b elems
  nodup := List.nodup_reverse.2 (List.nodup_finRange E)
  count := by simp
  used i hi := absurd (List.mem_reverse.2 (List.mem_finRange i)) hi

/-- A block is full when its chain is empty. -/
theorem BlockOk.full_iff (h : BlockOk addr b B is) : B.firstFree = none ↔ B.numAllocated = E := by
  have hcount := h.count
  cases is with
  | nil =>
    have hp : B.firstFree = none := h.chain
    simp only [List.length_nil, Nat.zero_add] at hcount
    simp [hp, hcount]
  | cons i is =>
    rw [h.chain.1]
    rw [List.length_cons] at hcount
    simp
    omega

theorem FreeChain.exists_next (h : FreeChain b elems p is) (hi : i ∈ is) : ∃ q, elems i = .next q := by
  induction is generalizing p with
  | nil => simp at hi
  | cons j is ih =>
    obtain ⟨-, q, hj, h⟩ := h
    rcases List.mem_cons.1 hi with rfl | hi
    · exact ⟨q, hj⟩
    · exact ih h hi

/-- The header of an element tells whether it is handed out. -/
theorem BlockOk.block_iff (h : BlockOk addr b B is) : B.elems i = .block (some b) ↔ i ∉ is := by
  refine ⟨fun hb hi => ?_, h.used i⟩
  obtain ⟨q, hq⟩ := h.chain.exists_next hi
  rw [hb] at hq
  cases hq

/-- A block that has an element handed out counts it. -/
theorem BlockOk.num_pos (h : BlockOk addr b B is) (hi : i ∉ is) : 0 < B.numAllocated := by
  have hlen : is.length < E := by
    have hsub : (i :: is).length ≤ (List.finRange E).length :=
      (List.nodup_cons.2 ⟨hi, h.nodup⟩).subperm (fun j _ => List.mem_finRange j) |>.length_le
    rw [List.length_cons, List.length_finRange] at hsub
    omega
  have := h.count
  omega

/-! ## The blocks -/

/-- A slot that is handed out. -/
def Live (bodies : Addr → Option (Body E)) (s : Slot E) : Prop :=
  ∃ B, bodies s.block = some B ∧ B.elems s.index = .block (some s.block)

/-- How many elements of a block are free. -/
def freeOf (bodies : Addr → Option (Body E)) (b : Addr) : ℕ :=
  (bodies b).elim 0 fun B => E - B.numAllocated

/-- **The blocks of a heap**: those listed, in order, the empty one, and how
many elements are free. -/
structure Blocks (addr : Addr) (bodies : Addr → Option (Body E)) (xs : List Addr)
    (empty : Option Addr) (free : ℕ) : Prop where
  block : ∀ b B, bodies b = some B → ∃ is, BlockOk addr b B is
  /-- A block that is listed is in use. -/
  used : ∀ b ∈ xs, ∃ B, bodies b = some B ∧ 0 < B.numAllocated
  listed : ∀ b B, bodies b = some B → b ∈ xs ∨ empty = some b
  nodup : xs.Nodup
  unlisted : ∀ b, empty = some b → b ∉ xs ∧ ∃ B, bodies b = some B ∧ B.numAllocated = 0
  /-- After a full block there are only full blocks. -/
  order : xs.Pairwise fun b c => freeOf bodies b = 0 → freeOf bodies c = 0
  free : free = (xs.map (freeOf bodies)).sum + if empty = none then 0 else E

variable {bodies : Addr → Option (Body E)} {xs ys zs : List Addr} {empty : Option Addr} {free : ℕ}

theorem freeOf_of_some (h : bodies b = some B) : freeOf bodies b = E - B.numAllocated := by
  rw [freeOf, h]
  rfl

theorem freeOf_update_of_ne {c : Addr} (h : c ≠ b) (o : Option (Body E)) :
    freeOf (Function.update bodies b o) c = freeOf bodies c := by
  rw [freeOf, Function.update_of_ne h, freeOf]

theorem live_update {s : Slot E} : Live (Function.update bodies b (some B)) s ↔
    if s.block = b then B.elems s.index = .block (some b) else Live bodies s := by
  split_ifs with h
  · rw [Live, h, Function.update_self]
    simp
  · rw [Live, Function.update_of_ne h, Live]

theorem live_update_none {s : Slot E} :
    Live (Function.update bodies b none) s ↔ s.block ≠ b ∧ Live bodies s := by
  by_cases h : s.block = b
  · rw [Live, h, Function.update_self]
    simp
  · rw [Live, Function.update_of_ne h, ← Live]
    simp [h]

/-- A block that is not among them changes nothing for blocks in order. -/
theorem sum_update (h : b ∉ xs) (o : Option (Body E)) :
    (xs.map (freeOf (Function.update bodies b o))).sum = (xs.map (freeOf bodies)).sum := by
  refine congrArg List.sum (List.map_congr_left fun c hc => freeOf_update_of_ne ?_ o)
  rintro rfl
  exact h hc

theorem order_update (h : b ∉ xs) (o : Option (Body E))
    (ho : xs.Pairwise fun b c => freeOf bodies b = 0 → freeOf bodies c = 0) :
    xs.Pairwise fun c d => freeOf (Function.update bodies b o) c = 0 →
      freeOf (Function.update bodies b o) d = 0 := by
  refine ho.imp_of_mem fun {c d} hc hd hcd => ?_
  rwa [freeOf_update_of_ne (ne_of_mem_of_not_mem hc h), freeOf_update_of_ne (ne_of_mem_of_not_mem hd h)]

/-- A heap without blocks. -/
theorem blocks_zero (addr : Addr) : Blocks addr (fun _ => none : Addr → Option (Body E)) [] none 0 :=
  ⟨by simp, by simp, by simp, by simp, by simp, by simp, rfl⟩

/-- Nothing of a block that has nothing handed out is handed out. -/
theorem Blocks.not_live (h : Blocks addr bodies xs empty free) (hB : bodies b = some B)
    (hn : B.numAllocated = 0) {s : Slot E} (hs : s.block = b) : ¬Live bodies s := by
  rintro ⟨B', hB', hused⟩
  rw [hs] at hB' hused
  obtain rfl := Option.some.inj (hB'.symm.trans hB)
  obtain ⟨is, hok⟩ := h.block b B' hB
  have := hok.num_pos (hok.block_iff.1 hused)
  omega

/-- The empty block has all its elements free. -/
theorem Blocks.firstFree_of_empty (h : Blocks addr bodies xs (some b) free) (hE : 0 < E) :
    ∃ B, bodies b = some B ∧ B.firstFree ≠ none := by
  obtain ⟨-, B, hB, hn⟩ := h.unlisted b rfl
  obtain ⟨is, hok⟩ := h.block b B hB
  refine ⟨B, hB, fun hnone => ?_⟩
  have := hok.full_iff.1 hnone
  omega

/-- Where all listed blocks are full, what is free is in the empty block. -/
theorem Blocks.empty_of_full (h : Blocks addr bodies xs empty free) (hfree : 0 < free)
    (hfull : ∀ c ∈ xs, freeOf bodies c = 0) :
    ∃ b B, empty = some b ∧ bodies b = some B ∧ B.firstFree ≠ none := by
  have hsum : (xs.map (freeOf bodies)).sum = 0 := by
    refine List.sum_eq_zero fun n hn => ?_
    obtain ⟨c, hc, rfl⟩ := List.mem_map.1 hn
    exact hfull c hc
  have hf := h.free
  rw [hsum, Nat.zero_add] at hf
  cases empty with
  | none =>
    rw [if_pos rfl] at hf
    omega
  | some b =>
    rw [if_neg (by simp)] at hf
    obtain ⟨B, hB, hne⟩ := h.firstFree_of_empty (by omega)
    exact ⟨b, B, rfl, hB, hne⟩

/-- **A listed block is taken out.** -/
theorem Blocks.removeListed (h : Blocks addr bodies (ys ++ b :: zs) empty free) :
    ∃ free', free = free' + freeOf bodies b ∧
      Blocks addr (Function.update bodies b none) (ys ++ zs) empty free' := by
  obtain ⟨hnb, hnd⟩ := List.nodup_cons.1 (List.nodup_middle.1 h.nodup)
  refine ⟨((ys ++ zs).map (freeOf bodies)).sum + if empty = none then 0 else E, ?_, ?_⟩
  · rw [h.free]
    simp only [List.map_append, List.map_cons, List.sum_append, List.sum_cons]
    omega
  have hsub : (ys ++ zs).Sublist (ys ++ b :: zs) := by simp
  refine ⟨fun c C hc => ?_, fun c hc => ?_, fun c C hc => ?_, hnd, fun c hc => ?_,
    order_update hnb none (h.order.sublist hsub), by rw [sum_update hnb]⟩
  · by_cases hcb : c = b
    · rw [hcb, Function.update_self] at hc
      cases hc
    · rw [Function.update_of_ne hcb] at hc
      exact h.block c C hc
  · rw [Function.update_of_ne (ne_of_mem_of_not_mem hc hnb)]
    exact h.used c (hsub.subset hc)
  · by_cases hcb : c = b
    · rw [hcb, Function.update_self] at hc
      cases hc
    · rw [Function.update_of_ne hcb] at hc
      have := h.listed c C hc
      simp only [List.mem_append, List.mem_cons, hcb, false_or] at this ⊢
      exact this
  · obtain ⟨hcx, C, hC, hn⟩ := h.unlisted c hc
    have hcb : c ≠ b := fun hcb => hcx (by simp [hcb])
    exact ⟨fun hmem => hcx (hsub.subset hmem), C, by rw [Function.update_of_ne hcb, hC], hn⟩

/-- **The empty block is taken out.** -/
theorem Blocks.removeEmpty (h : Blocks addr bodies xs (some b) free) :
    ∃ free', free = free' + E ∧ Blocks addr (Function.update bodies b none) xs none free' := by
  obtain ⟨hbx, B, hB, hn⟩ := h.unlisted b rfl
  refine ⟨(xs.map (freeOf bodies)).sum, by simpa using h.free, fun c C hc => ?_, fun c hc => ?_,
    fun c C hc => ?_, h.nodup, by simp, order_update hbx none h.order, by rw [sum_update hbx]; rfl⟩
  · by_cases hcb : c = b
    · rw [hcb, Function.update_self] at hc
      cases hc
    · rw [Function.update_of_ne hcb] at hc
      exact h.block c C hc
  · rw [Function.update_of_ne (ne_of_mem_of_not_mem hc hbx)]
    exact h.used c hc
  · by_cases hcb : c = b
    · rw [hcb, Function.update_self] at hc
      cases hc
    · rw [Function.update_of_ne hcb] at hc
      refine Or.inl ((h.listed c C hc).resolve_right fun hcb' => hcb ?_)
      exact (Option.some.inj hcb').symm

/-- **A block in use is listed.** -/
theorem Blocks.insertListed (h : Blocks addr bodies (ys ++ zs) empty free) (hb : bodies b = none)
    (hB : BlockOk addr b B is) (hn : 0 < B.numAllocated)
    (hys : ∀ c ∈ ys, freeOf bodies c = 0 → is = []) (hzs : is = [] → ∀ c ∈ zs, freeOf bodies c = 0) :
    Blocks addr (Function.update bodies b (some B)) (ys ++ b :: zs) empty (free + is.length) := by
  have hbx : b ∉ ys ++ zs := fun hmem => by
    obtain ⟨C, hC, -⟩ := h.used b hmem
    rw [hb] at hC
    cases hC
  have hfree : freeOf (Function.update bodies b (some B)) b = is.length := by
    rw [freeOf_of_some (Function.update_self ..)]
    have := hB.count
    omega
  have hof : ∀ c ∈ ys ++ zs, freeOf (Function.update bodies b (some B)) c = freeOf bodies c :=
    fun c hc => freeOf_update_of_ne (ne_of_mem_of_not_mem hc hbx) _
  refine ⟨fun c C hc => ?_, fun c hc => ?_, fun c C hc => ?_,
    List.nodup_middle.2 (List.nodup_cons.2 ⟨hbx, h.nodup⟩), fun c hc => ?_, ?_, ?_⟩
  · by_cases hcb : c = b
    · rw [hcb, Function.update_self] at hc
      obtain rfl := Option.some.inj hc
      exact ⟨is, hcb ▸ hB⟩
    · rw [Function.update_of_ne hcb] at hc
      exact h.block c C hc
  · by_cases hcb : c = b
    · exact ⟨B, by rw [hcb, Function.update_self], hn⟩
    · rw [Function.update_of_ne hcb]
      simp only [List.mem_append, List.mem_cons, hcb, false_or] at hc
      exact h.used c (List.mem_append.2 hc)
  · by_cases hcb : c = b
    · exact Or.inl (by simp [hcb])
    · rw [Function.update_of_ne hcb] at hc
      have := h.listed c C hc
      simp only [List.mem_append, List.mem_cons] at this ⊢
      tauto
  · obtain ⟨hcx, C, hC, hn⟩ := h.unlisted c hc
    have hcb : c ≠ b := by
      rintro rfl
      rw [hb] at hC
      cases hC
    refine ⟨?_, C, by rw [Function.update_of_ne hcb, hC], hn⟩
    simp only [List.mem_append, List.mem_cons, hcb, false_or] at hcx ⊢
    exact hcx
  · have ho := order_update hbx (some B) h.order
    obtain ⟨hoy, hoz, hoyz⟩ := List.pairwise_append.1 ho
    refine List.pairwise_append.2 ⟨hoy, List.pairwise_cons.2 ⟨fun c hc h0 => ?_, hoz⟩, fun c hc d hd => ?_⟩
    · rw [hfree] at h0
      rw [hof c (List.mem_append_right _ hc)]
      exact hzs (List.length_eq_zero_iff.1 h0) c hc
    · rcases List.mem_cons.1 hd with rfl | hd
      · rw [hof c (List.mem_append_left _ hc), hfree]
        exact fun h0 => List.length_eq_zero_iff.2 (hys c hc h0)
      · exact hoyz c hc d hd
  · have hsum : ((ys ++ zs).map (freeOf (Function.update bodies b (some B)))).sum =
        ((ys ++ zs).map (freeOf bodies)).sum := sum_update hbx (some B)
    rw [h.free, ← hsum]
    simp only [List.map_append, List.map_cons, List.sum_append, List.sum_cons, hfree]
    omega

/-- **A free block becomes the empty block.** -/
theorem Blocks.insertEmpty (h : Blocks addr bodies xs none free) (hb : bodies b = none)
    (hB : BlockOk addr b B is) (hn : B.numAllocated = 0) :
    Blocks addr (Function.update bodies b (some B)) xs (some b) (free + E) := by
  have hbx : b ∉ xs := fun hmem => by
    obtain ⟨C, hC, -⟩ := h.used b hmem
    rw [hb] at hC
    cases hC
  refine ⟨fun c C hc => ?_, fun c hc => ?_, fun c C hc => ?_, h.nodup, fun c hc => ?_,
    order_update hbx _ h.order, ?_⟩
  · by_cases hcb : c = b
    · rw [hcb, Function.update_self] at hc
      obtain rfl := Option.some.inj hc
      exact ⟨is, hcb ▸ hB⟩
    · rw [Function.update_of_ne hcb] at hc
      exact h.block c C hc
  · rw [Function.update_of_ne (ne_of_mem_of_not_mem hc hbx)]
    exact h.used c hc
  · by_cases hcb : c = b
    · exact Or.inr (congrArg some hcb.symm)
    · rw [Function.update_of_ne hcb] at hc
      exact Or.inl ((h.listed c C hc).resolve_right (by simp))
  · obtain rfl := Option.some.inj hc
    exact ⟨hbx, B, Function.update_self .., hn⟩
  · rw [sum_update hbx, h.free]
    simp

end Heap

end Mowgli
