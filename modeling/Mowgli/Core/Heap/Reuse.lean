import Mathlib.Algebra.Order.BigOperators.Group.List
import Mowgli.Core.Heap.Locks
/-!
# The element handed out after one was freed

The free elements of a block are a stack. So an element that is freed is the next
to be handed out if its block is the next to be taken from, and that hangs on where
the block is in the list: `GivenBack` is the exact condition, on the heap before the
call.
-/

namespace Mowgli

namespace Heap

open Store

variable {E : ℕ} {A : Allocator (Block E)} {h h₁ h₂ : Heap E} {xs ys : List Addr} {s t : Slot E} {b : Addr}
variable {B : Body E}

/-- How many elements of a block are handed out. -/
def numAllocated (h : Heap E) (b : Addr) : ℕ := (h.mem.get b).elim 0 Block.numAllocated

/-- **The element goes back to the one who frees it**, if that one asks for another:
its block is full, or has other elements in use and is the first of the list, or no
other block that is in use has room. -/
def GivenBack (h : Heap E) (s : Slot E) : Prop :=
  h.numAllocated s.block = E ∨ (1 < h.numAllocated s.block ∧ h.blocks.head = some s.block) ∨
    ∀ b ∈ h.mem.live, b = s.block ∨ h.numAllocated b = 0 ∨ h.numAllocated b = E

instance : Decidable (h.GivenBack s) :=
  inferInstanceAs (Decidable (_ ∨ _ ∧ _ ∨ ∀ b ∈ h.mem.live, b = s.block ∨ h.numAllocated b = 0 ∨ h.numAllocated b = E))

theorem numAllocated_of_body (hB : bodies h.mem b = some B) : h.numAllocated b = B.numAllocated := by
  obtain ⟨blk, hblk, rfl⟩ := exists_of_bodies hB
  rw [numAllocated, hblk]
  rfl

theorem mem_live_of_body (hB : bodies h.mem b = some B) : b ∈ h.mem.live := by
  obtain ⟨blk, hblk, -⟩ := exists_of_bodies hB
  exact mem_live.2 ⟨blk, hblk⟩

/-- A block has at most all of its elements handed out, and then nothing is free. -/
theorem Inv.firstFree_iff (hi : Inv h xs) (hB : bodies h.mem b = some B) :
    B.numAllocated ≤ E ∧ (B.firstFree = none ↔ B.numAllocated = E) := by
  obtain ⟨is, hok⟩ := hi.blocks.block b B hB
  have := hok.count
  exact ⟨by omega, hok.full_iff⟩

/-- **What is handed out is the first that is free** in the block that is picked. -/
theorem Inv.alloc_pickBlock (hi : Inv h xs) (hfree : 0 < h.freeElems) (halloc : h.alloc A = some (some t, h₂)) :
    ∃ B, h.pickBlock = some (some t.block) ∧ bodies h.mem t.block = some B ∧ B.firstFree = some t := by
  obtain ⟨b, B, hpick, hB, hfirst, -⟩ := hi.pickBlock hfree
  obtain ⟨blk, hblk, rfl⟩ := exists_of_bodies hB
  obtain ⟨h₀, hlock, hrun⟩ := Option.bind_eq_some_iff.1 halloc
  obtain ⟨-, rfl⟩ := lock_eq_some hlock
  have hpick' : Heap.pickBlock { h with mutex := true } = some (some b) := hpick
  obtain ⟨q, hq⟩ : ∃ q, blk.firstFree = some q := Option.ne_none_iff_exists'.1 hfirst
  simp only [hfree.ne', if_false, hpick', hblk, hq, Option.bind_eq_bind, Option.bind_some,
    Option.bind_eq_some_iff, Option.some.injEq, Prod.mk.injEq] at hrun
  obtain ⟨-, -, -, -, -, -, -, -, -, -, -, -, rfl, -⟩ := hrun
  obtain ⟨is, hok⟩ := hi.blocks.block b _ hB
  have hblock : q.block = b := by
    have hchain := hok.chain
    rw [show (body blk).firstFree = some q from hq] at hchain
    cases is with
    | nil => cases hchain
    | cons i is => exact congrArg Slot.block (Option.some.inj hchain.1)
  subst hblock
  exact ⟨body blk, hpick, hB, hq⟩

/-- Where a block has room, something is free. -/
theorem Inv.freeElems_pos (hi : Inv h xs) (hE : 0 < E) (hB : bodies h.mem b = some B)
    (hroom : freeOf (bodies h.mem) b ≠ 0) : 0 < h.freeElems := by
  have hsum := hi.blocks.free
  rcases hi.blocks.listed _ _ hB with hmem | hmem
  · have := List.le_sum_of_mem (List.mem_map_of_mem (f := freeOf (bodies h.mem)) hmem)
    omega
  · rw [if_neg (by rw [hmem]; simp)] at hsum
    omega

/-- Of the blocks that are in use, the first has room if any has, and it is picked. -/
theorem Inv.pickBlock_room (hi : Inv h (b :: ys)) {c : Addr} (hc : c ∈ b :: ys)
    (hroom : freeOf (bodies h.mem) c ≠ 0) :
    freeOf (bodies h.mem) b ≠ 0 ∧ h.pickBlock = some (some b) := by
  have hfirst : freeOf (bodies h.mem) b ≠ 0 := by
    rcases List.mem_cons.1 hc with rfl | hc
    · exact hroom
    · exact fun h0 => hroom ((List.pairwise_cons.1 hi.blocks.order).1 c hc h0)
  obtain ⟨B, hB, -⟩ := hi.blocks.used b (List.mem_cons_self ..)
  refine ⟨hfirst, ?_⟩
  rw [hi.pickBlock_head hB, if_neg]
  rwa [(hi.firstFree_iff hB).2, ← hi.freeOf_eq_zero_iff hB]

/-- The block of an element that was freed has room. -/
theorem Gives.room (hg : Gives h s h₁ xs ys) (hi : Inv h₁ ys) :
    ∃ B, bodies h₁.mem s.block = some B ∧ B.firstFree = some s ∧ h.numAllocated s.block = B.numAllocated + 1 ∧
      freeOf (bodies h₁.mem) s.block ≠ 0 := by
  obtain ⟨B, B', hB, hB', hfirst, hn, -⟩ := hg.block
  refine ⟨B', hB', hfirst, (numAllocated_of_body hB).trans hn, fun h0 => ?_⟩
  rw [hi.freeOf_eq_zero_iff hB', ← (hi.firstFree_iff hB').2, hfirst] at h0
  cases h0

/-- Another block with room stands in the way, unless the one of the element was full
or is before it. -/
theorem Gives.not_givenBack (hg : Gives h s h₁ xs ys) (hi : Inv h₁ ys) (hb : b ∈ ys) (hne : b ≠ s.block)
    (hroom : freeOf (bodies h₁.mem) b ≠ 0) (hfull : h.numAllocated s.block ≠ E)
    (hhead : 1 < h.numAllocated s.block → h.blocks.head ≠ some s.block) : ¬h.GivenBack s := by
  rintro (hback | ⟨hback, hfirst⟩ | hback)
  · exact hfull hback
  · exact hhead hback hfirst
  · obtain ⟨C, hC, hCn⟩ := hi.blocks.used b hb
    rw [Ne, hi.freeOf_eq_zero_iff hC] at hroom
    have hC' := (hg.others b hne C hCn).1 hC
    have hthird := (hback b (mem_live_of_body hC')).resolve_left hne
    rw [numAllocated_of_body hC'] at hthird
    omega

/-- A block that became empty is picked where the others that are in use are full. -/
theorem Gives.pickBlock_empty (hg : Gives h s h₁ xs ys) (hi : Inv h₁ ys) (hE : 2 ≤ E)
    (hone : h.numAllocated s.block = 1) (hempty : h₁.emptyBlock = some s.block) :
    h₁.pickBlock = some (some s.block) ↔ h.GivenBack s := by
  have hself : s.block ∉ ys := (hi.blocks.unlisted _ hempty).1
  by_cases hfull : ∀ c ∈ ys, freeOf (bodies h₁.mem) c = 0
  · refine iff_of_true ((hi.pickBlock_of_full hfull).trans (congrArg some hempty)) (Or.inr (Or.inr fun c hc => ?_))
    by_contra hno
    rw [not_or, not_or] at hno
    obtain ⟨hne, hc0, hcE⟩ := hno
    obtain ⟨blk, hblk⟩ := mem_live.1 hc
    have hC : bodies h.mem c = some (body blk) := by rw [bodies, hblk]; rfl
    rw [numAllocated_of_body hC] at hc0 hcE
    have hC' := (hg.others c hne _ (Nat.pos_of_ne_zero hc0)).2 hC
    rcases hi.blocks.listed c _ hC' with hmem | hmem
    · exact hcE ((hi.freeOf_eq_zero_iff hC').1 (hfull c hmem))
    · exact hne (Option.some.inj (hmem.symm.trans hempty))
  · push Not at hfull
    obtain ⟨d, hd, hdroom⟩ := hfull
    cases ys with
    | nil => cases hd
    | cons c zs =>
      obtain ⟨hroom, hpick⟩ := hi.pickBlock_room hd hdroom
      have hne : c ≠ s.block := fun heq => hself (heq ▸ List.mem_cons_self ..)
      refine iff_of_false (fun heq => hne ?_)
        (hg.not_givenBack hi (List.mem_cons_self ..) hne hroom (by omega) fun h1 => by omega)
      exact Option.some.inj (Option.some.inj (hpick.symm.trans heq))

/-- A block that stays in use is picked where it was full or is the first of them. -/
theorem Gives.pickBlock_used (hg : Gives h s h₁ xs ys) (hi : Inv h₁ ys) (hl : h.blocks.head = xs.head?)
    (hmem : s.block ∈ ys) (hmany : 1 < h.numAllocated s.block)
    (hhead : ys.head? = if h.numAllocated s.block = E then some s.block else xs.head?) :
    h₁.pickBlock = some (some s.block) ↔ h.GivenBack s := by
  obtain ⟨-, -, -, -, hroom⟩ := hg.room hi
  cases ys with
  | nil => cases hmem
  | cons c zs =>
    obtain ⟨hcroom, hpick⟩ := hi.pickBlock_room hmem hroom
    rw [hpick, Option.some.injEq, Option.some.injEq]
    by_cases hfull : h.numAllocated s.block = E
    · rw [if_pos hfull, List.head?_cons, Option.some.injEq] at hhead
      exact iff_of_true hhead (Or.inl hfull)
    · rw [if_neg hfull, ← hl, List.head?_cons] at hhead
      by_cases hc : c = s.block
      · exact iff_of_true hc (Or.inr (Or.inl ⟨hmany, hhead.symm.trans (congrArg some hc)⟩))
      · refine iff_of_false hc (hg.not_givenBack hi (List.mem_cons_self ..) hc hcroom hfull fun _ heq => hc ?_)
        exact Option.some.inj (hhead.trans heq)

/-- **Which elements are given back**: after `free`, `alloc` hands out the same element
if and only if its block is the next to be taken from. -/
theorem Inv.givenBack_iff (hi : Inv h xs) (hE : 2 ≤ E) (hfree : h.free s = some h₁)
    (halloc : h₁.alloc A = some (some t, h₂)) : t = s ↔ h.GivenBack s := by
  obtain ⟨hmutex, hlive⟩ := hi.live_of_free hfree
  obtain ⟨h', ys, hfree', hi', -, -, -, -, -, hg⟩ := hi.free hE hmutex hlive
  obtain rfl := Option.some.inj (hfree.symm.trans hfree')
  obtain ⟨B', hB', hfirst, hnum, hroom⟩ := hg.room hi'
  obtain ⟨C, hpick, hC, hCt⟩ := hi'.alloc_pickBlock (hi'.freeElems_pos (by omega) hB' hroom) halloc
  have hsame : t = s ↔ h₁.pickBlock = some (some s.block) := by
    refine ⟨fun heq => heq ▸ hpick, fun heq => ?_⟩
    have hblock : t.block = s.block := Option.some.inj (Option.some.inj (hpick.symm.trans heq))
    rw [hblock, hB', Option.some.injEq] at hC
    rw [← hC, hfirst] at hCt
    exact (Option.some.inj hCt).symm
  rw [hsame]
  obtain ⟨B, B'', hB, hB'', -, -, hempty, hhead⟩ := hg.block
  obtain rfl := Option.some.inj (hB'.symm.trans hB'')
  rw [← numAllocated_of_body hB] at hhead
  rcases Nat.eq_zero_or_pos B'.numAllocated with hzero | hpos
  · exact hg.pickBlock_empty hi' hE (by omega) (hempty hzero)
  · refine hg.pickBlock_used hi' hi.list.head_eq ?_ (by omega) (hhead hpos)
    refine (hi'.blocks.listed _ _ hB').resolve_right fun hemp => ?_
    obtain ⟨-, D, hD, h0⟩ := hi'.blocks.unlisted _ hemp
    rw [hB', Option.some.injEq] at hD
    rw [← hD] at h0
    omega

end Heap

end Mowgli
