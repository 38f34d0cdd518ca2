import Mowgli.Base.Memslice.Sizes
import Mowgli.Core.Heap.Ops
/-!
# Who owns a slice

The allocators and the slices that are in use, without how the allocators
are listed: which heap each allocator has, that the blocks of all heaps lie
apart, and that the tag of a slice names the allocator whose heap it is an
element of.
-/

namespace Mowgli

open Heap

/-- Two regions that lie apart. -/
def Apart (r r' : Region) : Prop := r.1 + r.2 ≤ r'.1 ∨ r'.1 + r'.2 ≤ r.1

theorem Apart.symm {r r' : Region} (h : Apart r r') : Apart r' r := Or.symm h

namespace SliceHeap

variable {H H' : SliceHeap} {p q : Slice}

/-- The invariant of a heap, between calls. -/
structure Ok (H : SliceHeap) : Prop where
  inv : ∃ xs, Inv H.heap xs
  mutex : H.heap.mutex = false
  elems : 2 ≤ H.elems
  /-- A block of it can be mapped. -/
  fits : H.blockSize ≤ MEMORY_SIZE

/-- The element of a slice is handed out. -/
def HandedOut (H : SliceHeap) (p : Slice) : Prop :=
  ∃ h : p.index < H.elems, Live (bodies H.heap.mem) ⟨p.block, p.index, h⟩

theorem HandedOut.lt (h : H.HandedOut p) : p.index < H.elems := h.1

theorem HandedOut.mem (h : H.HandedOut p) : p.block ∈ H.heap.mem.live := by
  obtain ⟨_, B, hB, _⟩ := h
  obtain ⟨blk, hblk, _⟩ := exists_of_bodies hB
  exact Store.mem_live.2 ⟨blk, hblk⟩

theorem ok_empty {elemSize : ℕ} (addr : Addr) (h : elemSize ≤ 2 ^ 26) : (empty elemSize 16 addr).Ok :=
  ⟨⟨[], inv_zero addr⟩, rfl, Nat.le_trans (by decide) (heapElems_spec h).1, (heapElems_spec h).2⟩

/-- A block that is short enough is mapped. -/
theorem pick_of_fits (h : H.blockSize ≤ MEMORY_SIZE) (W : Backing) (mapped : Finset Region)
    (m : Store (Block H.elems)) : (H.allocator W mapped).pick m = some (W.mmap (mapped ∪ H.regionsOf m) H.blockSize) :=
  if_pos h

theorem Ok.neverFails (h : H.Ok) (W : Backing) (mapped : Finset Region) : (H.allocator W mapped).NeverFails := fun m => by
  rw [pick_of_fits h.fits]
  rfl

/-- **`mowgli_heap_alloc`** of one of the heaps. -/
theorem Ok.alloc (h : H.Ok) {A : Allocator (Block H.elems)} (hA : A.NeverFails) :
    ∃ slot heap, H.heap.alloc A = some (some slot, heap) ∧ Ok { H with heap := heap } ∧
      ¬ H.HandedOut ⟨slot.block, slot.index⟩ ∧
      (∀ p, HandedOut { H with heap := heap } p ↔ p = ⟨slot.block, slot.index⟩ ∨ H.HandedOut p) ∧
      ∀ c ∈ heap.mem.live, c ∈ H.heap.mem.live ∨ A.pick H.heap.mem = some c := by
  obtain ⟨xs, hi⟩ := h.inv
  obtain ⟨slot, heap, xs', hrun, hi', hno, hlive, hmutex, -, -, hmem⟩ := hi.alloc h.elems (fun _ => hA _) h.mutex
  refine ⟨slot, heap, hrun, ⟨⟨xs', hi'⟩, hmutex, h.elems, h.fits⟩, fun hh => hno hh.2, fun p => ?_, hmem⟩
  constructor
  · rintro ⟨hp, hl⟩
    rcases (hlive _).1 hl with heq | hl
    · left
      rw [← heq]
    · exact Or.inr ⟨hp, hl⟩
  · rintro (rfl | ⟨hp, hl⟩)
    · exact ⟨slot.index.2, (hlive _).2 (Or.inl rfl)⟩
    · exact ⟨hp, (hlive _).2 (Or.inr hl)⟩

/-- **`mowgli_heap_free`** of one of the heaps. -/
theorem Ok.free (h : H.Ok) (hp : H.HandedOut p) :
    ∃ heap, H.heap.free ⟨p.block, p.index, hp.lt⟩ = some heap ∧ Ok { H with heap := heap } ∧
      (∀ q, HandedOut { H with heap := heap } q ↔ q ≠ p ∧ H.HandedOut q) ∧
      heap.mem.live ⊆ H.heap.mem.live ∧ heap.mutex = false := by
  obtain ⟨xs, hi⟩ := h.inv
  obtain ⟨heap, xs', hrun, hi', hlive, hmutex, -, -, hmem, -⟩ := hi.free h.elems h.mutex hp.2
  refine ⟨heap, hrun, ⟨⟨xs', hi'⟩, hmutex, h.elems, h.fits⟩, fun q => ?_, hmem, hmutex⟩
  constructor
  · rintro ⟨hq, hl⟩
    obtain ⟨hne, hl⟩ := (hlive _).1 hl
    refine ⟨?_, hq, hl⟩
    rintro rfl
    exact hne rfl
  · rintro ⟨hne, hq, hl⟩
    refine ⟨hq, (hlive _).2 ⟨fun heq => hne ?_, hl⟩⟩
    have hblock : q.block = p.block := congrArg Slot.block heq
    have hindex : q.index = p.index := congrArg (fun t => t.index.val) heq
    cases q
    cases p
    cases hblock
    cases hindex
    rfl

/-! ## Where the elements are -/

/-- An element is in its block. -/
theorem elem_in {b i : ℕ} (hi : i < H.elems) : b < H.elemAddr b i ∧ H.elemAddr b i + H.elemSize ≤ b + H.blockSize := by
  have hmul : (i + 1) * H.allocSize ≤ H.elems * H.allocSize := Nat.mul_le_mul_right _ hi
  rw [Nat.add_mul, Nat.one_mul, Nat.mul_comm H.elems] at hmul
  have hsize : H.allocSize = H.elemSize + ELEM_HEADER_SIZE := rfl
  unfold elemAddr blockSize BLOCK_SIZE
  unfold ELEM_HEADER_SIZE at *
  constructor <;> omega

/-- Elements of one block lie apart. -/
theorem elem_apart {b i j : ℕ} (hij : i < j) : H.elemAddr b i + H.elemSize ≤ H.elemAddr b j := by
  have hmul : (i + 1) * H.allocSize ≤ j * H.allocSize := Nat.mul_le_mul_right _ hij
  rw [Nat.add_mul, Nat.one_mul] at hmul
  have hsize : H.allocSize = H.elemSize + ELEM_HEADER_SIZE := rfl
  unfold elemAddr
  unfold ELEM_HEADER_SIZE at *
  omega

/-- The bytes of an element. -/
def elemRegion (H : SliceHeap) (p : Slice) : Region := (H.elemAddr p.block p.index, H.elemSize)

/-- Elements of blocks that lie apart. -/
theorem elemRegion_apart (hp : p.index < H.elems) (hq : q.index < H'.elems)
    (h : Apart (p.block, H.blockSize) (q.block, H'.blockSize)) : Apart (H.elemRegion p) (H'.elemRegion q) := by
  obtain ⟨hp₁, hp₂⟩ := elem_in (b := p.block) hp
  obtain ⟨hq₁, hq₂⟩ := elem_in (b := q.block) hq
  rcases h with h | h
  · exact Or.inl (by dsimp only [elemRegion] at h ⊢; omega)
  · exact Or.inr (by dsimp only [elemRegion] at h ⊢; omega)

end SliceHeap

/-- A slice in use, with the size that was asked for and the allocator that it
was taken from. -/
structure LiveSlice where
  slice : Slice
  size : ℕ
  owner : Addr

/-- The allocators, with their sizes and heaps, and the tags of the slices. -/
structure Registry where
  allocatorHeap : SliceHeap
  owner : Addr → Option (ℕ × SliceHeap)
  tags : Slice → Option Addr

namespace Registry

variable {R R' : Registry} {live : List LiveSlice} {a : Addr} {k : ℕ} {H H' H₁ : SliceHeap} {x y : LiveSlice}

/-- The heap of an allocator, and that of the allocators themselves. -/
def heapAt (R : Registry) : Option Addr → Option SliceHeap
  | none => some R.allocatorHeap
  | some a => (R.owner a).map Prod.snd

/-- A block is mapped. -/
def Mapped (R : Registry) (w : Option Addr) (r : Region) : Prop :=
  ∃ H, R.heapAt w = some H ∧ ∃ b ∈ H.heap.mem.live, r = (b, H.blockSize)

/-- **The slices in use and their owners.** -/
structure Good (R : Registry) (live : List LiveSlice) : Prop where
  heaps : ∀ w H, R.heapAt w = some H → H.Ok
  apart : ∀ w w' r r', R.Mapped w r → R.Mapped w' r' → w ≠ w' ∨ r ≠ r' → Apart r r'
  sized : ∀ a k H, R.owner a = some (k, H) → H.elemSize = k ∧ (∃ m, k = 2 ^ m) ∧ k ≤ 2 ^ 26
  single : ∀ a a' k H H', R.owner a = some (k, H) → R.owner a' = some (k, H') → a = a'
  placed : ∀ a k H, R.owner a = some (k, H) →
    ∃ p, R.allocatorHeap.HandedOut p ∧ a = R.allocatorHeap.elemAddr p.block p.index
  slices : ∀ x ∈ live, R.tags x.slice = some x.owner ∧ ∃ k H, R.owner x.owner = some (k, H) ∧
    IsLeast (powersFrom (x.size + SLICE_TAG_SIZE)) k ∧ H.HandedOut x.slice
  distinct : live.Pairwise fun x y => x.slice ≠ y.slice

theorem heapAt_some (h : R.owner a = some (k, H)) : R.heapAt (some a) = some H := by
  rw [heapAt, h]
  rfl

/-- Blocks stay apart where at most one is new, apart from all there were. -/
theorem Good.apart_of (h : R.Good live) {n : Region} (w₀ : Option Addr)
    (hold : ∀ w r, R'.Mapped w r → R.Mapped w r ∨ (w = w₀ ∧ r = n ∧ ∀ w' r', R.Mapped w' r' → Apart n r')) :
    ∀ w w' r r', R'.Mapped w r → R'.Mapped w' r' → w ≠ w' ∨ r ≠ r' → Apart r r' := by
  intro w w' r r' hr hr' hne
  rcases hold w r hr with hr | ⟨rfl, rfl, hn⟩
  · rcases hold w' r' hr' with hr' | ⟨rfl, rfl, hn⟩
    · exact h.apart w w' r r' hr hr' hne
    · exact (hn w r hr).symm
  · rcases hold w' r' hr' with hr' | ⟨rfl, rfl, -⟩
    · exact hn w' r' hr'
    · exact absurd rfl (hne.resolve_left fun hww => hww rfl)

/-- Elements of one heap at one place are one. -/
theorem Good.elemAddr_inj (h : R.Good live) {w : Option Addr} (hw : R.heapAt w = some H) {p q : Slice}
    (hp : p.block ∈ H.heap.mem.live) (hq : q.block ∈ H.heap.mem.live) (hpi : p.index < H.elems)
    (hqi : q.index < H.elems) (hpos : 0 < H.elemSize)
    (heq : H.elemAddr p.block p.index = H.elemAddr q.block q.index) : p = q := by
  by_cases hb : p.block = q.block
  · rw [hb] at heq
    have hidx : p.index = q.index := by
      rcases Nat.lt_trichotomy p.index q.index with hlt | hi | hlt
      · have := SliceHeap.elem_apart (H := H) (b := q.block) hlt
        omega
      · exact hi
      · have := SliceHeap.elem_apart (H := H) (b := q.block) hlt
        omega
    cases p
    cases q
    cases hb
    cases hidx
    rfl
  · have hapart := h.apart w w _ _ ⟨H, hw, _, hp, rfl⟩ ⟨H, hw, _, hq, rfl⟩
      (Or.inr fun hr => hb (congrArg Prod.fst hr))
    have hel : Apart (H.elemRegion p) (H.elemRegion q) := SliceHeap.elemRegion_apart hpi hqi hapart
    rcases hel with hel | hel
    · dsimp only [SliceHeap.elemRegion] at hel
      omega
    · dsimp only [SliceHeap.elemRegion] at hel
      omega

/-- **Slices in use lie apart.** -/
theorem Good.slices_apart (h : R.Good live) (hx : x ∈ live) (hy : y ∈ live) (hne : x.slice ≠ y.slice)
    {H' : SliceHeap} {k' : ℕ} (hH : R.owner x.owner = some (k, H)) (hH' : R.owner y.owner = some (k', H')) :
    Apart (H.elemRegion x.slice) (H'.elemRegion y.slice) := by
  obtain ⟨-, k₁, H₁, hox, -, hout⟩ := h.slices x hx
  obtain ⟨-, k₂, H₂, hoy, -, hout'⟩ := h.slices y hy
  obtain ⟨rfl, rfl⟩ := Prod.mk.inj (Option.some.inj (hox.symm.trans hH))
  obtain ⟨rfl, rfl⟩ := Prod.mk.inj (Option.some.inj (hoy.symm.trans hH'))
  by_cases hw : x.owner = y.owner ∧ x.slice.block = y.slice.block
  · obtain ⟨how, hb⟩ := hw
    rw [how, hoy] at hox
    obtain ⟨-, rfl⟩ := Prod.mk.inj (Option.some.inj hox)
    have hidx : x.slice.index ≠ y.slice.index := fun hi => hne (by
      cases hxs : x.slice
      cases hys : y.slice
      rw [hxs, hys] at hb hi
      cases hb
      cases hi
      rfl)
    unfold SliceHeap.elemRegion
    rw [hb]
    rcases Nat.lt_or_gt_of_ne hidx with hlt | hlt
    · exact Or.inl (SliceHeap.elem_apart hlt)
    · exact Or.inr (SliceHeap.elem_apart hlt)
  · refine SliceHeap.elemRegion_apart hout.lt hout'.lt ?_
    refine h.apart (some x.owner) (some y.owner) _ _ ⟨_, heapAt_some hox, _, hout.mem, rfl⟩
      ⟨_, heapAt_some hoy, _, hout'.mem, rfl⟩ ?_
    by_cases how : x.owner = y.owner
    · exact Or.inr fun hr => hw ⟨how, congrArg Prod.fst hr⟩
    · exact Or.inl fun hs => how (Option.some.inj hs)

/-! ## Steps -/

/-- A heap is replaced. -/
def withHeap (R : Registry) (w : Option Addr) (H : SliceHeap) : Registry :=
  match w with
  | none => { R with allocatorHeap := H }
  | some a => { R with owner := Function.update R.owner a ((R.owner a).map fun x => (x.1, H)) }

theorem heapAt_withHeap {w : Option Addr} (hw : R.heapAt w = some H) (w' : Option Addr) :
    (R.withHeap w H').heapAt w' = if w' = w then some H' else R.heapAt w' := by
  cases w with
  | none =>
    cases w' with
    | none => rfl
    | some b => rfl
  | some a =>
    cases w' with
    | none => rfl
    | some b =>
      by_cases hb : b = a
      · subst hb
        obtain ⟨x, hx, -⟩ := Option.map_eq_some_iff.1 hw
        rw [if_pos rfl, withHeap, heapAt]
        dsimp only
        rw [Function.update_self, hx]
        rfl
      · rw [if_neg (fun h => hb (Option.some.inj h)), withHeap, heapAt, heapAt]
        dsimp only
        rw [Function.update_of_ne hb]

/-- The owners after a heap is replaced. -/
theorem owner_withHeap {w : Option Addr} (hw : R.heapAt w = some H) (hk : (R.withHeap w H').owner a = some (k, H₁)) :
    ∃ H₀, R.owner a = some (k, H₀) ∧ (w = some a ∧ H₀ = H ∧ H₁ = H' ∨ w ≠ some a ∧ H₁ = H₀) := by
  cases w with
  | none => exact ⟨H₁, hk, Or.inr ⟨fun h => (by cases h), rfl⟩⟩
  | some b =>
    by_cases hb : a = b
    · subst hb
      obtain ⟨⟨k', H₀⟩, hx, hH₀⟩ := Option.map_eq_some_iff.1 hw
      rw [withHeap] at hk
      dsimp only at hk hH₀
      rw [Function.update_self, hx] at hk
      obtain ⟨rfl, rfl⟩ := Prod.mk.inj (Option.some.inj hk)
      exact ⟨H₀, hx, Or.inl ⟨rfl, hH₀, rfl⟩⟩
    · rw [withHeap] at hk
      dsimp only at hk
      rw [Function.update_of_ne hb] at hk
      exact ⟨H₁, hk, Or.inr ⟨fun h => hb (Option.some.inj h).symm, rfl⟩⟩

theorem owner_withHeap_of (hw : R.owner a = some (k, H)) (H' : SliceHeap) (w : Option Addr) :
    (R.withHeap w H').owner a = some (k, if w = some a then H' else H) := by
  cases w with
  | none => exact hw
  | some b =>
    rw [withHeap]
    dsimp only
    by_cases hb : a = b
    · subst hb
      rw [Function.update_self, hw, if_pos rfl]
      rfl
    · rw [Function.update_of_ne hb, hw, if_neg fun h => hb (Option.some.inj h).symm]

/-- **A heap changes**, and keeps what is handed out of it. -/
theorem Good.withHeap (h : R.Good live) {w : Option Addr} (hw : R.heapAt w = some H) {heap : Heap H.elems} {n : Addr}
    (hok : SliceHeap.Ok { H with heap := heap }) (hmem : ∀ c ∈ heap.mem.live, c ∈ H.heap.mem.live ∨ c = n)
    (hn : ∀ w r, R.Mapped w r → Apart (n, H.blockSize) r) 
    (hout : ∀ p, H.HandedOut p → SliceHeap.HandedOut { H with heap := heap } p) :
    (R.withHeap w { H with heap := heap }).Good live where
  heaps := by
    intro w' H' hH'
    rw [heapAt_withHeap hw] at hH'
    split at hH'
    · rw [← Option.some.inj hH']
      exact hok
    · exact h.heaps w' H' hH'
  apart := by
    refine h.apart_of (n := (n, H.blockSize)) w ?_
    rintro w' r ⟨H', hH', b, hb, rfl⟩
    rw [heapAt_withHeap hw] at hH'
    split at hH'
    · rename_i hww
      obtain rfl := Option.some.inj hH'
      rcases hmem b hb with hb | rfl
      · exact Or.inl ⟨H, hww ▸ hw, b, hb, rfl⟩
      · exact Or.inr ⟨hww, rfl, hn⟩
    · exact Or.inl ⟨H', hH', b, hb, rfl⟩
  sized := by
    intro a k H₁ hk
    obtain ⟨H₀, hk₀, ⟨-, rfl, rfl⟩ | ⟨-, rfl⟩⟩ := owner_withHeap hw hk
    · exact h.sized a k H₀ hk₀
    · exact h.sized a k _ hk₀
  single := by
    intro a a' k H₁ H₂ hk hk'
    obtain ⟨H₀, hk₀, -⟩ := owner_withHeap hw hk
    obtain ⟨H₀', hk₀', -⟩ := owner_withHeap hw hk'
    exact h.single a a' k _ _ hk₀ hk₀'
  placed := by
    intro a k H₁ hk
    obtain ⟨H₀, hk₀, -⟩ := owner_withHeap hw hk
    obtain ⟨p, hp, ha⟩ := h.placed a k _ hk₀
    cases w with
    | none =>
      obtain rfl := Option.some.inj hw
      exact ⟨p, hout p hp, ha⟩
    | some b => exact ⟨p, hp, ha⟩
  slices := by
    intro x hx
    obtain ⟨htag, k, H₀, hk, hleast, hp⟩ := h.slices x hx
    refine ⟨?_, k, _, owner_withHeap_of hk _ w, hleast, ?_⟩
    · rw [← htag]
      cases w <;> rfl
    · split
      · rename_i hww
        rw [hww, heapAt_some hk] at hw
        obtain rfl := Option.some.inj hw
        exact hout _ hp
      · exact hp
  distinct := h.distinct

/-- A block is in one heap only. -/
theorem Good.block_owner (h : R.Good live) {w w' : Option Addr} (hw : R.heapAt w = some H) (hw' : R.heapAt w' = some H')
    {b : Addr} (hb : b ∈ H.heap.mem.live) (hb' : b ∈ H'.heap.mem.live) : w = w' := by
  by_contra hne
  rcases h.apart w w' _ _ ⟨H, hw, b, hb, rfl⟩ ⟨H', hw', b, hb', rfl⟩ (Or.inl hne) with hle | hle
  · exact absurd hle (by dsimp only [SliceHeap.blockSize, BLOCK_SIZE]; omega)
  · exact absurd hle (by dsimp only [SliceHeap.blockSize, BLOCK_SIZE]; omega)

/-- **A slice is handed out.** -/
theorem Good.handOut (h : R.Good live) (ha : R.owner a = some (k, H)) {p : Slice} {size : ℕ} (hp : H.HandedOut p)
    (hleast : IsLeast (powersFrom (size + SLICE_TAG_SIZE)) k)
    (hnew : ∀ x ∈ live, x.owner = a → x.slice ≠ p) :
    Good { R with tags := Function.update R.tags p (some a) } (⟨p, size, a⟩ :: live) := by
  have hne : ∀ x ∈ live, x.slice ≠ p := by
    intro x hx hxp
    obtain ⟨-, k', H', hk', -, hp'⟩ := h.slices x hx
    refine hnew x hx (Option.some.inj ?_) hxp
    exact h.block_owner (heapAt_some hk') (heapAt_some ha) hp'.mem (hxp ▸ hp.mem)
  refine ⟨h.heaps, h.apart, h.sized, h.single, h.placed, ?_, List.pairwise_cons.2 ⟨fun x hx => (hne x hx).symm, h.distinct⟩⟩
  intro x hx
  rcases List.mem_cons.1 hx with rfl | hx
  · exact ⟨Function.update_self .., k, H, ha, hleast, hp⟩
  · obtain ⟨htag, hrest⟩ := h.slices x hx
    exact ⟨(Function.update_of_ne (hne x hx) _ _).trans htag, hrest⟩

/-- **A slice is taken back**, and put in the heap of its owner. -/
theorem Good.takeBack (h : R.Good live) (ha : R.owner x.owner = some (k, H)) {heap : Heap H.elems}
    (hok : SliceHeap.Ok { H with heap := heap }) (hmem : heap.mem.live ⊆ H.heap.mem.live)
    (hout : ∀ q, SliceHeap.HandedOut { H with heap := heap } q ↔ q ≠ x.slice ∧ H.HandedOut q) :
    Good { R.withHeap (some x.owner) { H with heap := heap } with tags := Function.update R.tags x.slice none }
      (live.filter fun y => y.slice ≠ x.slice) where
  heaps := by
    intro w' H' hH'
    have hH'' : (R.withHeap (some x.owner) { H with heap := heap }).heapAt w' = some H' := hH'
    rw [heapAt_withHeap (heapAt_some ha)] at hH''
    split at hH''
    · rw [← Option.some.inj hH'']
      exact hok
    · exact h.heaps w' H' hH''
  apart := by
    refine h.apart_of (n := (0, 0)) none ?_
    rintro w' r ⟨H', hH', b, hb, rfl⟩
    have hH'' : (R.withHeap (some x.owner) { H with heap := heap }).heapAt w' = some H' := hH'
    rw [heapAt_withHeap (heapAt_some ha)] at hH''
    split at hH''
    · rename_i hww
      obtain rfl := Option.some.inj hH''
      exact Or.inl ⟨H, hww ▸ heapAt_some ha, b, hmem hb, rfl⟩
    · exact Or.inl ⟨H', hH'', b, hb, rfl⟩
  sized := by
    intro a k H₁ hk
    obtain ⟨H₀, hk₀, ⟨-, rfl, rfl⟩ | ⟨-, rfl⟩⟩ := owner_withHeap (heapAt_some ha) hk
    · exact h.sized a k H₀ hk₀
    · exact h.sized a k _ hk₀
  single := by
    intro a a' k H₁ H₂ hk hk'
    obtain ⟨H₀, hk₀, -⟩ := owner_withHeap (heapAt_some ha) hk
    obtain ⟨H₀', hk₀', -⟩ := owner_withHeap (heapAt_some ha) hk'
    exact h.single a a' k _ _ hk₀ hk₀'
  placed := by
    intro a k H₁ hk
    obtain ⟨H₀, hk₀, -⟩ := owner_withHeap (heapAt_some ha) hk
    exact h.placed a k _ hk₀
  slices := by
    intro y hy
    rw [List.mem_filter, decide_eq_true_iff] at hy
    obtain ⟨htag, k', H₀, hk, hleast, hp⟩ := h.slices y hy.1
    refine ⟨(Function.update_of_ne hy.2 _ _).trans htag, k', _, owner_withHeap_of hk _ (some x.owner), hleast, ?_⟩
    split
    · rename_i how
      rw [Option.some.inj how, hk] at ha
      obtain ⟨rfl, rfl⟩ := Prod.mk.inj (Option.some.inj ha)
      exact (hout _).2 ⟨hy.2, hp⟩
    · exact hp
  distinct := h.distinct.filter _

/-- **An allocator is added**, at an element of the heap of allocators that was
not handed out before. -/
theorem Good.addOwner (h : R.Good live) {p : Slice} (hp : R.allocatorHeap.HandedOut p) 
    (hfree : ∀ a k H, R.owner a = some (k, H) → ∃ q, q ≠ p ∧ R.allocatorHeap.HandedOut q ∧
      a = R.allocatorHeap.elemAddr q.block q.index)
    (hpos : 0 < R.allocatorHeap.elemSize) (hpow : ∃ m, k = 2 ^ m) (hk : k ≤ 2 ^ 26)
    (hnone : ∀ a H, R.owner a ≠ some (k, H)) (addr : Addr) :
    let a := R.allocatorHeap.elemAddr p.block p.index
    R.owner a = none ∧
      Good { R with owner := Function.update R.owner a (some (k, SliceHeap.empty k 16 addr)) } live := by
  intro a
  have ha : R.owner a = none := by
    cases ho : R.owner a with
    | none => rfl
    | some x =>
      obtain ⟨q, hne, hq, heq⟩ := hfree a x.1 x.2 ho
      exact absurd (h.elemAddr_inj (w := none) rfl hq.mem hp.mem hq.lt hp.lt hpos heq.symm) hne
  -- the owners that were there are others
  have hother : ∀ b k' H', R.owner b = some (k', H') → b ≠ a := by
    rintro b k' H' hb rfl
    rw [ha] at hb
    cases hb
  refine ⟨ha, ?_⟩
  have hcases : ∀ b k' H', Function.update R.owner a (some (k, SliceHeap.empty k 16 addr)) b = some (k', H') →
      (b = a ∧ k' = k ∧ H' = SliceHeap.empty k 16 addr) ∨ R.owner b = some (k', H') := by
    intro b k' H' hb
    by_cases hba : b = a
    · rw [hba, Function.update_self] at hb
      obtain ⟨rfl, rfl⟩ := Prod.mk.inj (Option.some.inj hb)
      exact Or.inl ⟨hba, rfl, rfl⟩
    · rw [Function.update_of_ne hba] at hb
      exact Or.inr hb
  have hkeep : ∀ b k' H', R.owner b = some (k', H') →
      Function.update R.owner a (some (k, SliceHeap.empty k 16 addr)) b = some (k', H') := fun b k' H' hb =>
    (Function.update_of_ne (hother b k' H' hb) _ _).trans hb
  have hheap : ∀ w H', Registry.heapAt { R with owner := Function.update R.owner a (some (k, SliceHeap.empty k 16 addr)) } w
      = some H' → H' = SliceHeap.empty k 16 addr ∨ R.heapAt w = some H' := by
    intro w H' hw
    cases w with
    | none => exact Or.inr hw
    | some b =>
      obtain ⟨⟨k', H₁⟩, hb, rfl⟩ := Option.map_eq_some_iff.1 hw
      rcases hcases b k' H₁ hb with ⟨-, -, rfl⟩ | hb
      · exact Or.inl rfl
      · exact Or.inr (heapAt_some hb)
  refine ⟨?_, ?_, ?_, ?_, ?_, ?_, h.distinct⟩
  · intro w H' hw
    rcases hheap w H' hw with rfl | hw
    · exact SliceHeap.ok_empty addr hk
    · exact h.heaps w H' hw
  · refine h.apart_of (n := (0, 0)) none ?_
    rintro w r ⟨H', hw, b, hb, rfl⟩
    rcases hheap w H' hw with rfl | hw
    · exact absurd hb (Finset.notMem_empty b)
    · exact Or.inl ⟨H', hw, b, hb, rfl⟩
  · intro b k' H' hb
    rcases hcases b k' H' hb with ⟨-, rfl, rfl⟩ | hb
    · exact ⟨rfl, hpow, hk⟩
    · exact h.sized b k' H' hb
  · intro b b' k' H₁ H₂ hb hb'
    rcases hcases b k' H₁ hb with ⟨rfl, rfl, -⟩ | ho
    · rcases hcases b' _ H₂ hb' with ⟨rfl, -, -⟩ | ho'
      · rfl
      · exact absurd ho' (hnone b' H₂)
    · rcases hcases b' k' H₂ hb' with ⟨-, rfl, -⟩ | ho'
      · exact absurd ho (hnone b H₁)
      · exact h.single b b' k' H₁ H₂ ho ho'
  · intro b k' H' hb
    rcases hcases b k' H' hb with ⟨rfl, -, -⟩ | hb
    · exact ⟨p, hp, rfl⟩
    · exact h.placed b k' H' hb
  · intro x hx
    obtain ⟨htag, k', H', hk', hrest⟩ := h.slices x hx
    exact ⟨htag, k', H', hkeep _ _ _ hk', hrest⟩

end Registry

end Mowgli
