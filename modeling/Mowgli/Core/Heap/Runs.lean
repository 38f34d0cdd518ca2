import Mathlib.Algebra.BigOperators.Group.Finset.Basic
import Mowgli.Core.Heap.Ops
import Mowgli.Library.Run
/-!
# Runs of a heap

A run of `alloc` and `free` keeps, next to the heap, the set of the
elements that are handed out. The callers free only what is in it. What
holds in every state reached is `Consistent`: it says of the heap, in terms
of the memory and that set, what the invariant of the blocks comes to.
-/

namespace Mowgli

namespace Heap

open Store

variable {E : ℕ} {A : Allocator (Block E)} {h h' h₀ : Heap E} {xs : List Addr} {b : Addr}

/-- A call of `alloc` or `free`. -/
inductive Call (E : ℕ)
  | alloc
  | free (s : Slot E)

/-- A call made on a heap whose elements `live` are handed out. -/
def Call.run (A : Allocator (Block E)) :
    Heap E × Finset (Slot E) → Call E → Option (Option (Slot E) × Heap E × Finset (Slot E))
  | (h, live), .alloc => (h.alloc A).map fun r => (r.1, r.2, r.1.elim live fun s => insert s live)
  | (h, live), .free s => (h.free s).map fun h => (none, h, live.erase s)

/-- Only what is handed out is freed. -/
def Call.Ok : Heap E × Finset (Slot E) → Call E → Prop
  | _, .alloc => True
  | (_, live), .free s => s ∈ live

instance : ∀ (s : Heap E × Finset (Slot E)) (c : Call E), Decidable (c.Ok s)
  | _, .alloc => inferInstanceAs (Decidable True)
  | (_, live), .free s => inferInstanceAs (Decidable (s ∈ live))

/-- The runs of a heap from the state `h₀` it was created in. -/
abbrev Runs (A : Allocator (Block E)) (h₀ : Heap E) :
    List (Call E × Option (Slot E)) → Heap E × Finset (Slot E) → Prop :=
  Run (Call.run A) Call.Ok (h₀, ∅)

/-- The free elements of a block, in the order of its chain. -/
def ChainOk (live : Finset (Slot E)) (b : Addr) (blk : Block E) : Prop :=
  ∃ is, FreeChain b blk.elems blk.firstFree is ∧ is.Nodup ∧ is.length = E - blk.numAllocated ∧
    ∀ i, i ∈ is ↔ ⟨b, i⟩ ∉ live

/-- **What a heap is** whose elements `live` are handed out. -/
structure Consistent (h : Heap E) (live : Finset (Slot E)) : Prop where
  /-- `free_elems` counts what is free in all blocks. -/
  freeElems : h.freeElems = ∑ b ∈ h.mem.live, (h.mem.get b).elim 0 fun blk => E - blk.numAllocated
  /-- `blocks` lists the blocks in use, each once, those that are not full
  before those that are. -/
  blocks : ∃ xs, Block.nodeField.Holds h.mem h.blocks xs ∧
    (∀ b ∈ xs, Block.nodeField.data h.mem b = some (some b)) ∧
    (∀ b, b ∈ xs ↔ ∃ blk, h.mem.get b = some blk ∧ 1 ≤ blk.numAllocated ∧ blk.numAllocated ≤ E) ∧
    xs.Pairwise fun b c => ∀ blk blk', h.mem.get b = some blk → h.mem.get c = some blk' →
      blk.numAllocated = E → blk'.numAllocated = E
  chain : ∀ b blk, h.mem.get b = some blk → blk.numAllocated ≤ E ∧ ChainOk live b blk
  /-- The empty block is none of those listed. -/
  empty : ∀ b, h.emptyBlock = some b → ∃ blk, h.mem.get b = some blk ∧ blk.numAllocated = 0
  /-- What is handed out is in memory. -/
  live : ∀ s ∈ live, s.block ∈ h.mem.live
  log : h.log = []

/-- The invariant, with the elements that are handed out. -/
structure Good (h : Heap E) (live : Finset (Slot E)) : Prop where
  inv : ∃ xs, Inv h xs
  live : ∀ s, s ∈ live ↔ Live (bodies h.mem) s
  mutex : h.mutex = false
  log : h.log = []

theorem not_live_empty (s : Slot E) : ¬Live (bodies (Store.empty : Store (Block E))) s := by
  rintro ⟨B, hB, -⟩
  rw [bodies, get_empty] at hB
  cases hB

/-- With `BH_NOW` a heap starts with a block, if there is memory for one. -/
theorem create_now (addr : Addr) {b : Addr} (hpick : A.pick (Store.empty : Store (Block E)) = some b) :
    ∃ h₀, create A addr true = some h₀ ∧ Good h₀ ∅ ∧ ∀ c ∈ h₀.mem.live, c = b := by
  have hi := inv_zero (E := E) addr
  have hi₁ : Inv (⟨addr, 0, .zero, true, none, Store.empty, []⟩ : Heap E) [] := ⟨hi.list, hi.data, hi.blocks⟩
  have hcreate : create A addr true =
      (Heap.expand A ⟨addr, 0, .zero, true, none, Store.empty, []⟩).bind fun h => some h.unlock := rfl
  obtain ⟨m, hexp, hi', hlive, hmem⟩ := hi₁.expand rfl hpick
  rw [hexp] at hcreate
  refine ⟨_, hcreate, ⟨⟨[], hi'.unlock⟩, fun s => ?_, rfl, rfl⟩, fun c hc => ?_⟩
  · exact iff_of_false (by simp) fun hs => not_live_empty s ((hlive s).1 hs)
  · rcases hmem c hc with hc | hc
    · exact absurd hc (by simp)
    · exact hc

theorem good_create {addr : Addr} {now : Bool} (h : create A addr now = some h₀) :
    Good h₀ ∅ := by
  cases now with
  | false =>
    obtain rfl := Option.some.inj h
    exact ⟨⟨[], inv_zero addr⟩, fun s => iff_of_false (by simp) (not_live_empty s), rfl, rfl⟩
  | true =>
    cases hpick : A.pick (Store.empty : Store (Block E)) with
    | none =>
      have hnone : Heap.expand A ⟨addr, 0, .zero, true, none, Store.empty, []⟩ = none := by
        simp [Heap.expand, hpick]
      have hcreate : create A addr true =
          (Heap.expand A ⟨addr, 0, .zero, true, none, Store.empty, []⟩).bind fun h => some h.unlock := rfl
      rw [hcreate, hnone] at h
      cases h
    | some b =>
      obtain ⟨h₁, hcreate, hg, -⟩ := create_now addr hpick
      rwa [Option.some.inj (h.symm.trans hcreate)]

/-- **One call.** -/
theorem Good.step {live : Finset (Slot E)} (hg : Good h live) (hE : 2 ≤ E) (hA : A.NeverFails)
    {c : Call E} (hok : c.Ok (h, live)) :
    ∃ r h' live', c.run A (h, live) = some (r, h', live') ∧ Good h' live' ∧
      (c = .alloc → ∃ s, r = some s ∧ s ∉ live) := by
  obtain ⟨⟨xs, hi⟩, hlive, hmutex, hlog⟩ := hg
  cases c with
  | alloc =>
    obtain ⟨s, h', xs', hrun, hi', hno, hlive', hmutex', hlog', -⟩ := hi.alloc hE (fun _ => hA _) hmutex
    refine ⟨some s, h', insert s live, by rw [Call.run, hrun]; rfl,
      ⟨⟨xs', hi'⟩, fun t => ?_, hmutex', hlog'.trans hlog⟩, fun _ => ⟨s, rfl, fun hs => hno ((hlive s).1 hs)⟩⟩
    rw [Finset.mem_insert, hlive', hlive]
  | free s =>
    obtain ⟨h', xs', hrun, hi', hlive', hmutex', hlog', -⟩ := hi.free hE hmutex ((hlive s).1 hok)
    refine ⟨none, h', live.erase s, by rw [Call.run, hrun]; rfl,
      ⟨⟨xs', hi'⟩, fun t => ?_, hmutex', hlog'.trans hlog⟩, fun hc => by cases hc⟩
    rw [Finset.mem_erase, hlive', hlive]

/-- The blocks in memory are those listed and the empty one. -/
theorem Inv.sum_free (hi : Inv h xs) :
    h.freeElems = ∑ b ∈ h.mem.live, freeOf (bodies h.mem) b := by
  have hlive : ∀ b, b ∈ h.mem.live ↔ b ∈ xs ∨ h.emptyBlock = some b := by
    intro b
    refine ⟨fun hb => ?_, fun hb => ?_⟩
    · obtain ⟨blk, hblk⟩ := mem_live.1 hb
      exact hi.blocks.listed b (body blk) (by rw [bodies, hblk]; rfl)
    · have hB : ∃ B, bodies h.mem b = some B := by
        rcases hb with hb | hb
        · obtain ⟨B, hB, -⟩ := hi.blocks.used b hb
          exact ⟨B, hB⟩
        · obtain ⟨-, B, hB, -⟩ := hi.blocks.unlisted b hb
          exact ⟨B, hB⟩
      obtain ⟨B, hB⟩ := hB
      obtain ⟨blk, hblk, -⟩ := exists_of_bodies hB
      exact mem_live.2 ⟨blk, hblk⟩
  rw [hi.blocks.free, ← List.sum_toFinset _ hi.blocks.nodup]
  cases hempty : h.emptyBlock with
  | none =>
    rw [if_pos rfl, Nat.add_zero]
    refine Finset.sum_congr ?_ fun _ _ => rfl
    ext b
    rw [List.mem_toFinset, hlive, hempty]
    simp
  | some e =>
    obtain ⟨hex, B, hB, hn⟩ := hi.blocks.unlisted e hempty
    have hset : h.mem.live = insert e xs.toFinset := by
      ext b
      rw [hlive, hempty, Finset.mem_insert, List.mem_toFinset, Option.some.injEq, or_comm,
        eq_comm (a := e)]
    rw [hset, Finset.sum_insert (by simpa using hex), freeOf_of_some hB, hn, if_neg (by simp),
      Nat.sub_zero, Nat.add_comm]

/-- The invariant is what was to be had. -/
theorem Good.consistent {live : Finset (Slot E)} (hg : Good h live) : Consistent h live := by
  obtain ⟨⟨xs, hi⟩, hlive, hmutex, hlog⟩ := hg
  have hbody : ∀ b blk, h.mem.get b = some blk → bodies h.mem b = some (body blk) := by
    intro b blk hblk
    rw [bodies, hblk]
    rfl
  have hblock : ∀ b blk, h.mem.get b = some blk → ∃ is, BlockOk h.addr b (body blk) is :=
    fun b blk hblk => hi.blocks.block b _ (hbody b blk hblk)
  have hle : ∀ b blk, h.mem.get b = some blk → blk.numAllocated ≤ E := by
    intro b blk hblk
    obtain ⟨is, hok⟩ := hblock b blk hblk
    have hcount : is.length + blk.numAllocated = E := hok.count
    omega
  refine ⟨?_, ⟨xs, hi.list, hi.data, fun b => ⟨fun hb => ?_, ?_⟩, ?_⟩, fun b blk hblk =>
    ⟨hle b blk hblk, ?_⟩, fun b hb => ?_, fun s hs => ?_, hlog⟩
  · rw [hi.sum_free]
    refine Finset.sum_congr rfl fun b _ => ?_
    rw [freeOf, bodies]
    cases h.mem.get b <;> rfl
  · obtain ⟨B, hB, hn⟩ := hi.blocks.used b hb
    obtain ⟨blk, hblk, rfl⟩ := exists_of_bodies hB
    exact ⟨blk, hblk, hn, hle b blk hblk⟩
  · rintro ⟨blk, hblk, hn, -⟩
    refine (hi.blocks.listed b _ (hbody b blk hblk)).resolve_right fun hempty => ?_
    obtain ⟨-, B, hB, h0⟩ := hi.blocks.unlisted b hempty
    obtain rfl := Option.some.inj (hB.symm.trans (hbody b blk hblk))
    have : blk.numAllocated = 0 := h0
    omega
  · refine hi.blocks.order.imp fun {b c} hbc blk blk' hblk hblk' hfull => ?_
    rw [freeOf_of_some (hbody b blk hblk), freeOf_of_some (hbody c blk' hblk')] at hbc
    have h0 : E - blk'.numAllocated = 0 := hbc (by rw [show (body blk).numAllocated = E from hfull]; omega)
    have := hle c blk' hblk'
    omega
  · obtain ⟨is, hok⟩ := hblock b blk hblk
    have hcount : is.length + blk.numAllocated = E := hok.count
    refine ⟨is, hok.chain, hok.nodup, by omega, fun i => ?_⟩
    rw [hlive, Live, ← not_iff_not, not_not, ← hok.block_iff]
    simp [hbody b blk hblk]
  · obtain ⟨-, B, hB, hn⟩ := hi.blocks.unlisted b hb
    obtain ⟨blk, hblk, rfl⟩ := exists_of_bodies hB
    exact ⟨blk, hblk, hn⟩
  · obtain ⟨B, hB, -⟩ := (hlive s).1 hs
    obtain ⟨blk, hblk, -⟩ := exists_of_bodies hB
    exact mem_live.2 ⟨blk, hblk⟩

/-- **A heap never hands out an element twice, and finds one whenever there
is memory**: in every state a run reaches, the blocks, their chains and the
counts are what is handed out says, no check has failed, and the next call
is answered, an `alloc` with an element that is not handed out. -/
theorem runs_consistent (hE : 2 ≤ E) (hA : A.NeverFails) {addr : Addr} {now : Bool}
    (hcreate : create A addr now = some h₀) {tr : List (Call E × Option (Slot E))}
    {live : Finset (Slot E)} (hrun : Runs A h₀ tr (h, live)) :
    Consistent h live ∧ ∀ c : Call E, c.Ok (h, live) →
      ∃ r h' live', c.run A (h, live) = some (r, h', live') ∧ Consistent h' live' ∧
        (c = .alloc → ∃ s, r = some s ∧ s ∉ live) := by
  have hg : Good h live := Run.invariant (I := fun s => Good s.1 s.2) (good_create hcreate)
    (fun {s c r s'} hg hok hstep => by
      obtain ⟨r', h', live', hstep', hg', -⟩ := hg.step hE hA hok
      obtain ⟨-, rfl⟩ := Prod.mk.inj (Option.some.inj (hstep.symm.trans hstep'))
      exact hg') hrun
  refine ⟨hg.consistent, fun c hok => ?_⟩
  obtain ⟨r, h', live', hstep, hg', hfresh⟩ := hg.step hE hA hok
  exact ⟨r, h', live', hstep, hg'.consistent, hfresh⟩

/-- A heap of two elements a block. -/
def exampleHeap : Heap 2 := (create Allocator.bump 0 true).get rfl

/-- Three elements from two blocks, of which one is freed and handed out again. -/
theorem runs_consistent_again : ∃ (h : Heap 2) (live : Finset (Slot 2)),
    Consistent h live ∧ live = {⟨1, 1⟩, ⟨1, 0⟩, ⟨2, 1⟩} ∧ h.freeElems = 1 ∧
      ∃ s h' live', Call.run Allocator.bump (h, live) .alloc = some (some s, h', live') ∧ s ∉ live := by
  have h : Runs Allocator.bump exampleHeap _ _ := Run.of_exec [.alloc, .alloc, .alloc, .free ⟨1, 1⟩, .alloc] rfl
  obtain ⟨hc, hnext⟩ := runs_consistent (by decide) Allocator.bump_neverFails (rfl : create _ 0 true = some exampleHeap) h
  obtain ⟨r, h', live', hrun, -, hfresh⟩ := hnext .alloc trivial
  obtain ⟨s, rfl, hs⟩ := hfresh rfl
  exact ⟨_, _, hc, by decide +kernel, rfl, s, h', live', hrun, hs⟩

end Heap

end Mowgli
