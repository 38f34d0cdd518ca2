import Mowgli.Core.Heap.Locks
import Mowgli.Core.Heap.Source
/-!
# What is in the memory of a new block

`expand` sets neither the node of a new block nor `num_allocated`. The node is
written before it is read; `num_allocated` is counted up from what is there. So
two runs whose blocks are in the same places are alike where every block comes
with a `num_allocated` of 0: of all that the heap keeps, only the node of the
empty block may be another.
-/

namespace Mowgli

/-- The same pointer, whatever there is behind it. -/
inductive Given.SameAddr {E : ℕ} : Given E → Given E → Prop
  | null : SameAddr .null .null
  | mapFailed : SameAddr .mapFailed .mapFailed
  | memory (block : Addr) (contents contents' : Block E) : SameAddr (.memory block contents) (.memory block contents')

/-- If there is memory, the bytes of `num_allocated` in it are zero. -/
def Given.Clean {E : ℕ} (g : Given E) : Prop := ∀ block contents, g = .memory block contents → contents.numAllocated = 0

namespace Heap

open Store

variable {E : ℕ} {h h' h₁ h₀ : Heap E} {m m' m₁ : Store (Block E)} {e e' : Option Addr} {a b : Addr} {xs : List Addr}
variable {l l₁ : MowgliList} {S S' : HeapSource E}

/-- Two stores are the same, but for the node of the block `e`. -/
structure Off (e : Option Addr) (m m' : Store (Block E)) : Prop where
  bodies : bodies m' = bodies m
  same : ∀ b, e ≠ some b → m'.get b = m.get b

theorem Off.weaken (h : Off none m m') : Off e m m' := ⟨h.bodies, fun b _ => h.same b (by simp)⟩

theorem Off.exists_get (h : Off e m m') {x : Block E} (hx : m.get b = some x) :
    ∃ x', m'.get b = some x' ∧ body x' = body x := by
  have hb : Heap.bodies m' b = some (body x) := by
    rw [h.bodies, Heap.bodies, hx]
    rfl
  exact exists_of_bodies hb

/-- An assignment that does not look at the node. -/
theorem Off.modify (h : Off e m m') {f : Block E → Block E} (hm : m.modify a f = some m₁) (g : Body E → Body E)
    (hg : ∀ x, body (f x) = g (body x)) : ∃ m₁', m'.modify a f = some m₁' ∧ Off e m₁ m₁' := by
  obtain ⟨x, hx, rfl⟩ := Option.map_eq_some_iff.1 hm
  obtain ⟨x', hx', hbody⟩ := h.exists_get hx
  refine ⟨_, modify_of_get f hx', ?_, fun b hb => ?_⟩
  · rw [bodies_set, bodies_set, h.bodies, hg, hg, hbody]
  · rw [get_set, get_set]
    split_ifs with hba
    · have hsame := h.same b hb
      rw [hba, hx', hx, Option.some_inj] at hsame
      rw [hsame]
    · exact h.same b hb

/-- An assignment that overwrites the node. -/
theorem Off.overwrite (h : Off (some a) m m') {f : Block E → Block E} (hf : ∀ x y, body x = body y → f x = f y)
    (hm : m.modify a f = some m₁) : ∃ m₁', m'.modify a f = some m₁' ∧ Off none m₁ m₁' := by
  obtain ⟨x, hx, rfl⟩ := Option.map_eq_some_iff.1 hm
  obtain ⟨x', hx', hbody⟩ := h.exists_get hx
  refine ⟨_, modify_of_get f hx', ?_, fun b _ => ?_⟩
  · rw [bodies_set, bodies_set, h.bodies, hf x' x hbody]
  · rw [get_set, get_set]
    split_ifs with hba
    · rw [hf x' x hbody]
    · exact h.same b fun heq => hba (Option.some.inj heq).symm

theorem Off.free (h : Off e m m') (b : Addr) : Off e (m.free b) (m'.free b) := by
  refine ⟨by rw [bodies_free, bodies_free, h.bodies], fun c hc => ?_⟩
  rw [get_free, get_free, h.same c hc]

/-- Without the block there is no difference. -/
theorem Off.free_self (h : Off (some b) m m') : Off none (m.free b) (m'.free b) := by
  refine ⟨(h.free b).bodies, fun c _ => ?_⟩
  rw [get_free, get_free]
  split_ifs with hcb
  · rfl
  · exact h.same c fun heq => hcb (Option.some.inj heq).symm

/-! ## The list -/

theorem Off.setNext? (h : Off e m m') {p q : Option Addr} (hm : Block.nodeField.setNext? m p q = some m₁) :
    ∃ m₁', Block.nodeField.setNext? m' p q = some m₁' ∧ Off e m₁ m₁' := by
  cases p with
  | none => exact ⟨m', rfl, Option.some.inj hm ▸ h⟩
  | some a => exact h.modify hm id fun _ => rfl

theorem Off.setPrev? (h : Off e m m') {p q : Option Addr} (hm : Block.nodeField.setPrev? m p q = some m₁) :
    ∃ m₁', Block.nodeField.setPrev? m' p q = some m₁' ∧ Off e m₁ m₁' := by
  cases p with
  | none => exact ⟨m', rfl, Option.some.inj hm ▸ h⟩
  | some a => exact h.modify hm id fun _ => rfl

theorem Off.nodeDelete (h : Off e m m') (hb : e ≠ some b) (hm : Block.nodeField.nodeDelete m b l = some (m₁, l₁)) :
    ∃ m₁', Block.nodeField.nodeDelete m' b l = some (m₁', l₁) ∧ Off e m₁ m₁' := by
  obtain ⟨x, hx, hm⟩ := Option.bind_eq_some_iff.1 hm
  obtain ⟨m₂, hm₂, hm⟩ := Option.bind_eq_some_iff.1 hm
  obtain ⟨y, hy, hm⟩ := Option.bind_eq_some_iff.1 hm
  obtain ⟨m₃, hm₃, hm⟩ := Option.bind_eq_some_iff.1 hm
  rw [Option.some_inj, Prod.mk.injEq] at hm
  obtain ⟨m₂', hm₂', h₂⟩ := h.setNext? hm₂
  obtain ⟨m₃', hm₃', h₃⟩ := h₂.setPrev? hm₃
  refine ⟨m₃', ?_, hm.1 ▸ h₃⟩
  simp only [NodeField.nodeDelete, h.same b hb, hx, hm₂', h₂.same b hb, hy, hm₃', Option.bind_eq_bind, Option.bind_some,
    hm.2]

theorem Off.reset (h : Off e m m') {n : MowgliNode} (hm : (m.modify b fun x => Block.nodeField.put x n) = some m₁) :
    ∃ m₁', (m'.modify b fun x => Block.nodeField.put x n) = some m₁' ∧ Off e m₁ m₁' :=
  h.modify hm id fun _ => rfl

theorem Off.reset_self (h : Off (some b) m m') {n : MowgliNode}
    (hm : (m.modify b fun x => Block.nodeField.put x n) = some m₁) :
    ∃ m₁', (m'.modify b fun x => Block.nodeField.put x n) = some m₁' ∧ Off none m₁ m₁' := by
  refine h.overwrite (f := fun x => Block.nodeField.put x n) (fun x y hxy => ?_) hm
  obtain ⟨n₁, heap, firstFree, numAllocated, elems⟩ := x
  obtain ⟨n₂, heap', firstFree', numAllocated', elems'⟩ := y
  simp only [body, Body.mk.injEq] at hxy
  obtain ⟨rfl, rfl, rfl, rfl⟩ := hxy
  rfl

/-- The rest of `nodeAddHead` does not look at the node that is reset. -/
theorem Off.nodeAddHead (hreset : ∀ m₂, (m.modify b fun x => Block.nodeField.put x ⟨none, none, some b⟩) = some m₂ →
      ∃ m₂', (m'.modify b fun x => Block.nodeField.put x ⟨none, none, some b⟩) = some m₂' ∧ Off e m₂ m₂')
    (hm : Block.nodeField.nodeAddHead m (some b) b l = some (m₁, l₁)) :
    ∃ m₁', Block.nodeField.nodeAddHead m' (some b) b l = some (m₁', l₁) ∧ Off e m₁ m₁' := by
  obtain ⟨m₂, hm₂, hm⟩ := Option.bind_eq_some_iff.1 hm
  obtain ⟨m₂', hm₂', h₂⟩ := hreset m₂ hm₂
  cases hhead : l.head with
  | none =>
    simp only [hhead, Option.some_inj, Prod.mk.injEq] at hm
    refine ⟨m₂', ?_, hm.1 ▸ h₂⟩
    simp only [NodeField.nodeAddHead, hm₂', hhead, Option.bind_eq_bind, Option.bind_some, hm.2]
  | some t =>
    simp only [hhead] at hm
    obtain ⟨m₃, hm₃, hm⟩ := Option.bind_eq_some_iff.1 hm
    obtain ⟨m₄, hm₄, hm⟩ := Option.bind_eq_some_iff.1 hm
    rw [Option.some_inj, Prod.mk.injEq] at hm
    obtain ⟨m₃', hm₃', h₃⟩ := h₂.setNext? (p := some b) hm₃
    obtain ⟨m₄', hm₄', h₄⟩ := h₃.setPrev? (p := some t) hm₄
    refine ⟨m₄', ?_, hm.1 ▸ h₄⟩
    simp only [NodeField.nodeAddHead, hm₂', hhead, show Block.nodeField.setNext m₂' b (some t) = some m₃' from hm₃',
      show Block.nodeField.setPrev m₃' t (some b) = some m₄' from hm₄', Option.bind_eq_bind, Option.bind_some, hm.2]

theorem Off.nodeAdd (h : Off e m m') (hm : Block.nodeField.nodeAdd m (some b) b l = some (m₁, l₁)) :
    ∃ m₁', Block.nodeField.nodeAdd m' (some b) b l = some (m₁', l₁) ∧ Off e m₁ m₁' := by
  obtain ⟨m₂, hm₂, hm⟩ := Option.bind_eq_some_iff.1 hm
  obtain ⟨m₂', hm₂', h₂⟩ := h.reset hm₂
  cases hhead : l.head with
  | none =>
    simp only [hhead, Option.some_inj, Prod.mk.injEq] at hm
    refine ⟨m₂', ?_, hm.1 ▸ h₂⟩
    simp only [NodeField.nodeAdd, hm₂', hhead, Option.bind_eq_bind, Option.bind_some, hm.2]
  | some c =>
    simp only [hhead] at hm
    obtain ⟨t, ht, hm⟩ := Option.bind_eq_some_iff.1 hm
    obtain ⟨m₃, hm₃, hm⟩ := Option.bind_eq_some_iff.1 hm
    obtain ⟨m₄, hm₄, hm⟩ := Option.bind_eq_some_iff.1 hm
    rw [Option.some_inj, Prod.mk.injEq] at hm
    obtain ⟨m₃', hm₃', h₃⟩ := h₂.setPrev? (p := some b) hm₃
    obtain ⟨m₄', hm₄', h₄⟩ := h₃.setNext? (p := some t) hm₄
    refine ⟨m₄', ?_, hm.1 ▸ h₄⟩
    simp only [NodeField.nodeAdd, hm₂', hhead, ht, show Block.nodeField.setPrev m₂' b (some t) = some m₃' from hm₃',
      show Block.nodeField.setNext m₃' t (some b) = some m₄' from hm₄', Option.bind_eq_bind, Option.bind_some, hm.2]

/-! ## The heap -/

theorem pickBlock_off (hi : Inv h xs) (hm : Off h.emptyBlock h.mem m') :
    Heap.pickBlock { h with mem := m' } = h.pickBlock := by
  have hhead := hi.list.head_eq
  cases xs with
  | nil => simp [Heap.pickBlock, hhead]
  | cons a zs =>
    have hget := hm.same a fun he => (hi.blocks.unlisted a he).1 (List.mem_cons_self ..)
    have hdata := hi.data a (List.mem_cons_self ..)
    have hdata' : Block.nodeField.data m' a = some (some a) := by
      rw [← hdata, NodeField.data, NodeField.data, hget]
    simp only [Heap.pickBlock, hhead, List.head?_cons, hdata, hdata', hget, Option.bind_eq_bind, Option.bind_some]

theorem settleAlloc_off (hm : Off h.emptyBlock h.mem m') {x : Block E} (hx : h.mem.get b = some x)
    (hone : x.numAllocated = 1 ↔ h.emptyBlock = some b) (hrun : h.settleAlloc b = some h₁) :
    ∃ m₁, Heap.settleAlloc { h with mem := m' } b = some { h₁ with mem := m₁ } ∧ Off h₁.emptyBlock h₁.mem m₁ := by
  obtain ⟨x', hx', hbody⟩ := hm.exists_get hx
  have hnum : x'.numAllocated = x.numAllocated := congrArg Body.numAllocated hbody
  have hfirst : x'.firstFree = x.firstFree := congrArg Body.firstFree hbody
  simp only [Heap.settleAlloc, hx, Option.bind_eq_bind, Option.bind_some] at hrun
  by_cases hn : x.numAllocated = 1
  · -- the node of the empty block is overwritten
    rw [if_pos hn] at hrun
    obtain ⟨⟨m₂, l⟩, hadd, hrun⟩ := Option.bind_eq_some_iff.1 hrun
    have hself : Off (some b) h.mem m' := hone.1 hn ▸ hm
    obtain ⟨m₂', hadd', h₂⟩ := Off.nodeAddHead (fun m₂ hm₂ => hself.reset_self hm₂) hadd
    rw [← Option.some.inj hrun]
    refine ⟨m₂', ?_, h₂⟩
    simp only [Heap.settleAlloc, hx', hnum, hn, if_true, hadd', Option.bind_eq_bind, Option.bind_some]
  · have hne : h.emptyBlock ≠ some b := fun he => hn (hone.2 he)
    rw [if_neg hn] at hrun
    split_ifs at hrun with hfull
    · obtain ⟨⟨m₂, l⟩, hdel, hrun⟩ := Option.bind_eq_some_iff.1 hrun
      obtain ⟨⟨m₃, l'⟩, hadd, hrun⟩ := Option.bind_eq_some_iff.1 hrun
      obtain ⟨m₂', hdel', h₂⟩ := hm.nodeDelete hne hdel
      obtain ⟨m₃', hadd', h₃⟩ := h₂.nodeAdd hadd
      rw [← Option.some.inj hrun]
      refine ⟨m₃', ?_, h₃⟩
      simp only [Heap.settleAlloc, hx', hnum, hn, hfirst, hfull, if_true, if_false, hdel', hadd', Option.bind_eq_bind,
        Option.bind_some]
    · rw [← Option.some.inj hrun]
      refine ⟨m', ?_, hm⟩
      simp only [Heap.settleAlloc, hx', hnum, hn, hfirst, hfull, if_false, Option.bind_eq_bind, Option.bind_some]

theorem takeElem_off {r : Option (Slot E)} (hi : Inv h xs) (hfree : 0 < h.freeElems) (hm : Off h.emptyBlock h.mem m')
    (hrun : h.takeElem = some (r, h₁)) :
    ∃ m₁, Heap.takeElem { h with mem := m' } = some (r, { h₁ with mem := m₁ }) ∧ Off h₁.emptyBlock h₁.mem m₁ := by
  obtain ⟨b, B, hpick, hB, hfirst, hwhere⟩ := hi.pickBlock hfree
  have hpick' := (pickBlock_off hi hm).trans hpick
  obtain ⟨x, hx, rfl⟩ := exists_of_bodies hB
  obtain ⟨x', hx', hbody⟩ := hm.exists_get hx
  have hff' : x'.firstFree = x.firstFree := congrArg Body.firstFree hbody
  obtain ⟨s, hff⟩ := Option.ne_none_iff_exists'.1 (show x.firstFree ≠ none from hfirst)
  simp only [Heap.takeElem, hpick, hx, hff, Option.bind_eq_bind, Option.bind_some] at hrun
  obtain ⟨y, hy, hrun⟩ := Option.bind_eq_some_iff.1 hrun
  obtain ⟨y', hy', hybody⟩ := hm.exists_get hy
  have helems : y'.elems = y.elems := congrArg Body.elems hybody
  obtain ⟨next, hnext, hrun⟩ := Option.bind_eq_some_iff.1 hrun
  obtain ⟨m₁, hm₁, hrun⟩ := Option.bind_eq_some_iff.1 hrun
  obtain ⟨m₂, hm₂, hrun⟩ := Option.bind_eq_some_iff.1 hrun
  obtain ⟨m₃, hm₃, hrun⟩ := Option.bind_eq_some_iff.1 hrun
  obtain ⟨h₂, hsettle, hrun⟩ := Option.bind_eq_some_iff.1 hrun
  obtain ⟨m₁', hm₁', hoff₁⟩ := hm.modify hm₁ (fun B => { B with firstFree := next }) fun _ => rfl
  obtain ⟨m₂', hm₂', hoff₂⟩ := hoff₁.modify hm₂
    (fun B => { B with elems := Function.update B.elems s.index (.block (some b)) }) fun _ => rfl
  obtain ⟨m₃', hm₃', hoff₃⟩ := hoff₂.modify hm₃ (fun B => { B with numAllocated := B.numAllocated + 1 }) fun _ => rfl
  -- the block that is counted up from 0 is the empty block
  obtain ⟨z, hz, hz₃⟩ : ∃ z, m₃.get b = some z ∧ z.numAllocated = x.numAllocated + 1 := by
    have hsame₁ : Same Block.numAllocated h.mem m₁ := Same.modify hm₁ fun _ => rfl
    have hsame₂ : Same Block.numAllocated m₁ m₂ := Same.modify hm₂ fun _ => rfl
    obtain ⟨w, hw, rfl⟩ := Option.map_eq_some_iff.1 hm₃
    have hwx := (hsame₁.trans hsame₂) b
    rw [hw, hx, Option.map_some, Option.map_some, Option.some_inj] at hwx
    exact ⟨_, get_set_self .., congrArg (· + 1) hwx⟩
  have hzero : x.numAllocated = 0 ↔ h.emptyBlock = some b := by
    constructor
    · intro h0
      refine hwhere.resolve_right ?_
      rintro ⟨zs, rfl⟩
      obtain ⟨B, hB', hpos⟩ := hi.blocks.used b (List.mem_cons_self ..)
      rw [← Option.some.inj (hB.symm.trans hB'), show (body x).numAllocated = 0 from h0] at hpos
      exact absurd hpos (Nat.lt_irrefl 0)
    · intro he
      obtain ⟨-, B, hB', h0⟩ := hi.blocks.unlisted b he
      rwa [← Option.some.inj (hB.symm.trans hB')] at h0
  have hone : z.numAllocated = 1 ↔ h.emptyBlock = some b := by
    rw [← hzero, hz₃]
    omega
  obtain ⟨m₄', hsettle', hoff₄⟩ := settleAlloc_off
    (h := { h with mem := m₃, freeElems := sizeDec h.freeElems }) hoff₃ hz hone hsettle
  obtain ⟨rfl, rfl⟩ := Prod.mk.inj (Option.some.inj hrun)
  refine ⟨m₄', ?_, hoff₄⟩
  simp only [Heap.takeElem, hpick', hx', hff', hff, hy', helems, hnext, hm₁', hm₂', hm₃', hsettle', Option.bind_eq_bind,
    Option.bind_some]
  rfl

theorem settleFree_off (hm : Off h.emptyBlock h.mem m') (hne : h.emptyBlock ≠ some b) (hrun : h.settleFree b = some h₁) :
    ∃ m₁, Heap.settleFree { h with mem := m' } b = some { h₁ with mem := m₁ } ∧ Off h₁.emptyBlock h₁.mem m₁ := by
  obtain ⟨x, hx, hrun⟩ := Option.bind_eq_some_iff.1 hrun
  have hx' : m'.get b = some x := (hm.same b hne).trans hx
  by_cases hn : x.numAllocated = 0
  · rw [if_pos hn] at hrun
    cases hempty : h.emptyBlock with
    | none =>
      simp only [hempty, Option.bind_eq_bind, Option.bind_some] at hrun
      obtain ⟨⟨m₃, l⟩, hdel, hrun⟩ := Option.bind_eq_some_iff.1 hrun
      rw [← Option.some.inj hrun]
      rw [hempty] at hm
      obtain ⟨m₃', hdel', hoff⟩ := hm.nodeDelete (by simp) hdel
      refine ⟨m₃', ?_, hoff.weaken⟩
      simp only [Heap.settleFree, hx', hn, if_true, hdel', Option.bind_eq_bind, Option.bind_some]
    | some e =>
      simp only [hempty, Heap.shrink, if_true, Option.bind_eq_bind, Option.bind_some] at hrun
      obtain ⟨⟨m₃, l⟩, hdel, hrun⟩ := Option.bind_eq_some_iff.1 hrun
      rw [← Option.some.inj hrun]
      rw [hempty] at hm
      obtain ⟨m₃', hdel', hoff⟩ := hm.free_self.nodeDelete (by simp) hdel
      refine ⟨m₃', ?_, hoff.weaken⟩
      simp only [Heap.settleFree, Heap.shrink, hx', hn, if_true, hdel', Option.bind_eq_bind, Option.bind_some]
  · rw [if_neg hn] at hrun
    split_ifs at hrun with hlast
    · obtain ⟨⟨m₂, l⟩, hdel, hrun⟩ := Option.bind_eq_some_iff.1 hrun
      obtain ⟨⟨m₃, l'⟩, hadd, hrun⟩ := Option.bind_eq_some_iff.1 hrun
      obtain ⟨m₂', hdel', h₂⟩ := hm.nodeDelete hne hdel
      obtain ⟨m₃', hadd', h₃⟩ := Off.nodeAddHead (fun m hm => h₂.reset hm) hadd
      rw [← Option.some.inj hrun]
      rw [hlast] at hn
      refine ⟨m₃', ?_, h₃⟩
      simp only [Heap.settleFree, hx', hlast, hn, if_true, if_false, hdel', hadd', Option.bind_eq_bind,
        Option.bind_some]
    · rw [← Option.some.inj hrun]
      refine ⟨m', ?_, hm⟩
      simp only [Heap.settleFree, hx', hn, hlast, if_false, Option.bind_eq_bind, Option.bind_some]

theorem free_off {s : Slot E} (hi : Inv h xs) (hm : Off h.emptyBlock h.mem m') (hrun : h.free s = some h₁) :
    ∃ m₁, Heap.free { h with mem := m' } s = some { h₁ with mem := m₁ } ∧ Off h₁.emptyBlock h₁.mem m₁ := by
  obtain ⟨h₂, hlock, hrun⟩ := Option.bind_eq_some_iff.1 hrun
  obtain ⟨hmutex, rfl⟩ := lock_eq_some hlock
  have hlock' : lock { h with mem := m' } = some { h with mem := m', mutex := true } := lock_of_free hmutex
  obtain ⟨y, hy, hrun⟩ := Option.bind_eq_some_iff.1 hrun
  obtain ⟨b₀, hb₀, hrun⟩ := Option.bind_eq_some_iff.1 hrun
  obtain ⟨b, hb, hrun⟩ := Option.bind_eq_some_iff.1 hrun
  obtain ⟨x, hx, hrun⟩ := Option.bind_eq_some_iff.1 hrun
  obtain ⟨y', hy', hybody⟩ := hm.exists_get hy
  obtain ⟨x', hx', hxbody⟩ := hm.exists_get hx
  have helems : y'.elems = y.elems := congrArg Body.elems hybody
  have hheap : x'.heap = x.heap := congrArg Body.heap hxbody
  have hnum : x'.numAllocated = x.numAllocated := congrArg Body.numAllocated hxbody
  have hfirst : x'.firstFree = x.firstFree := congrArg Body.firstFree hxbody
  by_cases hother : x.heap = some h.addr
  · rw [if_neg (not_not.2 hother)] at hrun
    by_cases hzero : x.numAllocated = 0
    · rw [if_pos hzero] at hrun
      rw [← Option.some.inj hrun]
      refine ⟨m', ?_, hm⟩
      simp only [Heap.free, hlock', hy', helems, hb₀, hb, hx', hheap, hother, hnum, hzero, ne_eq, not_true_eq_false,
        if_true, if_false, Option.bind_eq_bind, Option.bind_some]
    · rw [if_neg hzero] at hrun
      obtain ⟨m₁, hm₁, hrun⟩ := Option.bind_eq_some_iff.1 hrun
      obtain ⟨m₂, hm₂, hrun⟩ := Option.bind_eq_some_iff.1 hrun
      obtain ⟨h₃, hsettle, hrun⟩ := Option.bind_eq_some_iff.1 hrun
      have hne : h.emptyBlock ≠ some b := by
        intro he
        obtain ⟨-, B, hB, h0⟩ := hi.blocks.unlisted b he
        rw [bodies, hx] at hB
        exact hzero ((congrArg Body.numAllocated (Option.some.inj hB)).trans h0)
      obtain ⟨m₁', hm₁', hoff₁⟩ := hm.modify hm₁
        (fun B => { B with elems := Function.update B.elems s.index (.next x.firstFree) }) fun _ => rfl
      obtain ⟨m₂', hm₂', hoff₂⟩ := hoff₁.modify hm₂
        (fun B => { B with firstFree := some s, numAllocated := sizeDec B.numAllocated }) fun _ => rfl
      obtain ⟨m₃', hsettle', hoff₃⟩ := settleFree_off
        (h := { h with mem := m₂, mutex := true, freeElems := h.freeElems + 1 }) hoff₂ hne hsettle
      rw [← Option.some.inj hrun]
      refine ⟨m₃', ?_, hoff₃⟩
      simp only [Heap.free, hlock', hy', helems, hb₀, hb, hx', hheap, hother, hnum, hzero, hfirst, hm₁', hm₂', hsettle',
        ne_eq, not_true_eq_false, if_false, Option.bind_eq_bind, Option.bind_some]
      rfl
  · rw [if_pos hother] at hrun
    rw [← Option.some.inj hrun]
    refine ⟨m', ?_, hm⟩
    simp only [Heap.free, hlock', hy', helems, hb₀, hb, hx', hheap, hother, ne_eq, not_false_eq_true, if_true,
      Option.bind_eq_bind, Option.bind_some]

/-- All elements are chained anew. -/
theorem chainElems_congr (b : Addr) (elems elems' : Fin E → HeapElemHeader E) :
    chainElems b elems = chainElems b elems' := by
  have hfold : ∀ (is : List (Fin E)) (f g : Fin E → HeapElemHeader E) (p : Option (Slot E)),
      (∀ i, i ∉ is → f i = g i) →
      is.foldl (fun s a => (Function.update s.1 a (.next s.2), some ⟨b, a⟩)) (f, p) =
        is.foldl (fun s a => (Function.update s.1 a (.next s.2), some ⟨b, a⟩)) (g, p) := by
    intro is
    induction is with
    | nil =>
      intro f g p hfg
      rw [funext fun i => hfg i (List.not_mem_nil)]
    | cons a is ih =>
      intro f g p hfg
      rw [List.foldl_cons, List.foldl_cons]
      refine ih _ _ _ fun i hi => ?_
      dsimp only
      by_cases hia : i = a
      · rw [hia, Function.update_self, Function.update_self]
      · rw [Function.update_of_ne hia, Function.update_of_ne hia]
        exact hfg i (by simp [hia, hi])
  exact hfold _ _ _ _ fun i hi => absurd (List.mem_finRange i) hi

theorem expandOn_off (hi : Inv h xs) (hempty : h.emptyBlock = none) (hm : Off h.emptyBlock h.mem m')
    (hS : S.blp.SameAddr S'.blp) (hclean : S.blp.Clean) (hclean' : S'.blp.Clean)
    (hfresh : ∀ block contents, S.blp = .memory block contents → h.mem.get block = none)
    (hrun : h.expandOn S = some h₁) :
    Inv h₁ xs ∧ h₁.freeElems = h.freeElems + E ∧ h₁.mutex = h.mutex ∧
      ∃ m₁, Heap.expandOn S' { h with mem := m' } = some { h₁ with mem := m₁ } ∧ Off h₁.emptyBlock h₁.mem m₁ := by
  simp only [Heap.expandOn, hempty, ne_eq, not_true_eq_false, if_false] at hrun
  generalize hblp : S.blp = g at *
  generalize hblp' : S'.blp = g' at *
  cases hS with
  | null => cases hrun
  | mapFailed => cases hrun
  | memory block contents contents' =>
    have hn := hclean block contents rfl
    have hn' := hclean' block contents' rfl
    obtain rfl := Option.some.inj hrun
    have hok := BlockOk.new h.addr block contents.elems
    rw [← hn] at hok
    have hadd := hi.addBlock { contents with
      heap := some h.addr
      elems := (chainElems block contents.elems).1
      firstFree := (chainElems block contents.elems).2 } hempty (hfresh block contents rfl) hok (by simp) hn
    refine ⟨hadd.1, rfl, rfl,
      m'.set block { contents' with
        heap := some h.addr
        elems := (chainElems block contents'.elems).1
        firstFree := (chainElems block contents'.elems).2 }, ?_, ?_, fun b hb => ?_⟩
    · simp only [Heap.expandOn, hempty, hblp', ne_eq, not_true_eq_false, if_false]
    · rw [bodies_set, bodies_set, hm.bodies, body, body]
      dsimp only
      rw [hn, hn', chainElems_congr block contents'.elems contents.elems]
    · have hne : b ≠ block := fun heq => hb (congrArg some heq.symm)
      rw [get_set_of_ne _ _ hne, get_set_of_ne _ _ hne]
      exact hm.same b (by simp [hempty])

/-- From where something is free, it is the `alloc` of the model before. -/
theorem takeElem_eq (A : Allocator (Block E)) (hmutex : h.mutex = true) (hfree : h.freeElems ≠ 0) :
    h.takeElem = Heap.alloc A { h with mutex := false } := by
  have hlock : lock { h with mutex := false } = some h := by
    rw [lock_of_free rfl, ← hmutex]
  simp only [Heap.alloc, hlock, hfree, if_false, Option.bind_eq_bind, Option.bind_some]
  rfl

theorem Inv.takeElem (hi : Inv h xs) (hE : 2 ≤ E) (hmutex : h.mutex = true) (hfree : 0 < h.freeElems)
    {r : Option (Slot E)} (hrun : h.takeElem = some (r, h₁)) : ∃ xs', Inv h₁ xs' := by
  have hi₀ : Inv { h with mutex := false } xs := ⟨hi.list, hi.data, hi.blocks⟩
  obtain ⟨s, h₂, xs', halloc, hi', -⟩ := hi₀.alloc (A := Allocator.bump) hE
    (fun h0 => absurd h0 hfree.ne') rfl
  rw [takeElem_eq Allocator.bump hmutex hfree.ne', halloc] at hrun
  obtain ⟨-, rfl⟩ := Prod.mk.inj (Option.some.inj hrun)
  exact ⟨xs', hi'⟩

theorem allocOn_of_free (hmutex : h.mutex = false) (hfree : h.freeElems ≠ 0) :
    h.allocOn S = takeElem { h with mutex := true } := by
  rw [allocOn, lock_of_free hmutex, Option.bind_eq_bind, Option.bind_some]
  exact (if_neg hfree).trans (if_neg hfree)

theorem allocOn_of_expand (hmutex : h.mutex = false) (hfree : h.freeElems = 0)
    (hexpand : expandOn S { h with mutex := true } = some h₁) (hfree₁ : h₁.freeElems ≠ 0) :
    h.allocOn S = h₁.takeElem := by
  rw [allocOn, lock_of_free hmutex, Option.bind_eq_bind, Option.bind_some]
  refine (if_pos hfree).trans ?_
  rw [hexpand, Option.bind_some]
  exact if_neg hfree₁

theorem allocOn_off {r : Option (Slot E)} (hi : Inv h xs) (hE : 2 ≤ E) (hm : Off h.emptyBlock h.mem m')
    (hS : S.blp.SameAddr S'.blp) (hclean : S.blp.Clean) (hclean' : S'.blp.Clean)
    (hfresh : ∀ block contents, S.blp = .memory block contents → h.mem.get block = none)
    (hrun : h.allocOn S = some (r, h₁)) :
    (∃ xs', Inv h₁ xs') ∧
      ∃ m₁, Heap.allocOn S' { h with mem := m' } = some (r, { h₁ with mem := m₁ }) ∧ Off h₁.emptyBlock h₁.mem m₁ := by
  obtain ⟨h₂, hlock, hrun⟩ := Option.bind_eq_some_iff.1 hrun
  obtain ⟨hmutex, rfl⟩ := lock_eq_some hlock
  have hi₀ : Inv { h with mutex := true } xs := ⟨hi.list, hi.data, hi.blocks⟩
  by_cases hfree : h.freeElems = 0
  · rw [if_pos hfree] at hrun
    obtain ⟨h₃, hexpand, hrun⟩ := Option.bind_eq_some_iff.1 hrun
    obtain ⟨hi₃, hfree₃, hmutex₃, m₃, hexpand', hoff⟩ := expandOn_off hi₀ (hi.emptyBlock_of_full (by omega) hfree) hm hS
      hclean hclean' hfresh hexpand
    have hpos : 0 < h₃.freeElems := by omega
    have htaken : h₃.takeElem = some (r, h₁) := by
      rw [← hrun]
      exact (if_neg hpos.ne').symm
    obtain ⟨m₄, htake, hoff₄⟩ := takeElem_off hi₃ hpos hoff htaken
    exact ⟨hi₃.takeElem hE hmutex₃ hpos htaken, m₄,
      (allocOn_of_expand (h := { h with mem := m' }) hmutex hfree hexpand' hpos.ne').trans htake, hoff₄⟩
  · have hpos : 0 < h.freeElems := Nat.pos_of_ne_zero hfree
    rw [if_neg hfree] at hrun
    have htaken : takeElem { h with mutex := true } = some (r, h₁) := by
      rw [← hrun]
      exact (if_neg hfree).symm
    obtain ⟨m₄, htake, hoff₄⟩ := takeElem_off hi₀ hpos hm htaken
    exact ⟨hi₀.takeElem hE rfl hpos htaken, m₄, (allocOn_of_free (h := { h with mem := m' }) hmutex hfree).trans htake, hoff₄⟩

/-! ## Runs -/

theorem forall₂_concat_left {α β : Type} {R : α → β → Prop} {l : List α} {x : α} {u : List β}
    (h : List.Forall₂ R (l ++ [x]) u) : ∃ v y, u = v ++ [y] ∧ List.Forall₂ R l v ∧ R x y := by
  induction l generalizing u with
  | nil =>
    obtain ⟨y, v, hxy, hv, rfl⟩ := List.forall₂_cons_left_iff.1 h
    rw [List.forall₂_nil_left_iff] at hv
    exact ⟨[], y, by rw [hv]; rfl, .nil, hxy⟩
  | cons z l ih =>
    obtain ⟨w, v, hzw, hv, rfl⟩ := List.forall₂_cons_left_iff.1 h
    obtain ⟨v, y, rfl, hl, hxy⟩ := ih hv
    exact ⟨w :: v, y, rfl, .cons hzw hl, hxy⟩

/-- A call. With an `alloc` comes what its heap would be given. -/
inductive SourceCall (E : ℕ)
  | alloc (S : HeapSource E)
  | free (s : Slot E)

namespace SourceCall

def run (h : Heap E) : SourceCall E → Option (Option (Slot E) × Heap E)
  | alloc S => h.allocOn S
  | free s => (h.free s).map fun h => (none, h)

/-- Memory that is given is not in use. -/
def Ok (h : Heap E) : SourceCall E → Prop
  | alloc S => ∀ block contents, S.blp = .memory block contents → h.mem.get block = none
  | free _ => True

/-- The same call, on other memory. -/
inductive SameAddr : SourceCall E → SourceCall E → Prop
  | alloc {S S' : HeapSource E} : S.blp.SameAddr S'.blp → SameAddr (alloc S) (alloc S')
  | free (s : Slot E) : SameAddr (free s) (free s)

def Clean : SourceCall E → Prop
  | alloc S => S.blp.Clean
  | free _ => True

end SourceCall

/-- The heaps keep the same: they are the same but for the memory, and there all
blocks are, but for the node of the empty block. -/
structure SameBookkeeping (h h' : Heap E) : Prop where
  rest : h' = { h with mem := h'.mem }
  mem : Off h.emptyBlock h.mem h'.mem

/-- One call. -/
theorem SameBookkeeping.step (hs : SameBookkeeping h h') (hi : Inv h xs) (hE : 2 ≤ E) {c c' : SourceCall E}
    (hc : c.SameAddr c') (hclean : c.Clean) (hclean' : c'.Clean) (hok : c.Ok h) {r : Option (Slot E)}
    (hrun : c.run h = some (r, h₁)) :
    (∃ xs', Inv h₁ xs') ∧ c'.Ok h' ∧ ∃ h₁', c'.run h' = some (r, h₁') ∧ SameBookkeeping h₁ h₁' := by
  obtain ⟨m', rfl⟩ : ∃ m', h' = { h with mem := m' } := ⟨h'.mem, hs.rest⟩
  have hm : Off h.emptyBlock h.mem m' := hs.mem
  cases hc with
  | @alloc S S' hS =>
    obtain ⟨hi', m₁, hrun', hoff⟩ := allocOn_off hi hE hm hS hclean hclean' hok hrun
    refine ⟨hi', fun block contents hblp => ?_, { h₁ with mem := m₁ }, hrun', rfl, hoff⟩
    obtain ⟨contents', hblp'⟩ : ∃ contents', S.blp = .memory block contents' := by
      rw [hblp] at hS
      generalize S.blp = g at hS
      cases hS
      exact ⟨_, rfl⟩
    have hnone : bodies h.mem block = none := by
      rw [bodies, hok block contents' hblp']
      rfl
    rw [← hm.bodies] at hnone
    exact Option.map_eq_none_iff.1 hnone
  | free s =>
    obtain ⟨h₂, hfree, heq⟩ := Option.map_eq_some_iff.1 hrun
    obtain ⟨rfl, rfl⟩ := Prod.mk.inj heq
    obtain ⟨hmutex, hlive⟩ := hi.live_of_free hfree
    obtain ⟨h₃, xs', hfree', hi', -⟩ := hi.free hE hmutex hlive
    obtain rfl := Option.some.inj (hfree.symm.trans hfree')
    obtain ⟨m₁, hrun', hoff⟩ := free_off hi hm hfree
    refine ⟨⟨xs', hi'⟩, trivial, { h₂ with mem := m₁ }, ?_, rfl, hoff⟩
    rw [SourceCall.run, hrun']
    rfl

/-- A new heap has nothing of the memory that it is made in. -/
theorem createOn_off {bh bh' : Option (Heap E)} (hbh : bh.map Heap.addr = bh'.map Heap.addr)
    (hS : S.blp.SameAddr S'.blp) (hclean : S.blp.Clean) (hclean' : S'.blp.Clean) {now : Bool}
    (hcreate : createOn S bh now = some (some h₀)) :
    Inv h₀ [] ∧ ∃ h₀', createOn S' bh' now = some (some h₀') ∧ SameBookkeeping h₀ h₀' := by
  cases bh with
  | none => cases hcreate
  | some bh =>
    obtain ⟨bh', rfl, haddr⟩ := Option.map_eq_some_iff.1 hbh.symm
    have hi := inv_zero (E := E) bh.addr
    cases now with
    | false =>
      obtain rfl := Option.some.inj (Option.some.inj hcreate)
      refine ⟨hi, _, ?_, rfl, rfl, fun _ _ => rfl⟩
      rw [createOn, haddr]
      rfl
    | true =>
      have hi₁ : Inv (⟨bh.addr, 0, .zero, true, none, Store.empty, []⟩ : Heap E) [] := ⟨hi.list, hi.data, hi.blocks⟩
      have hcreate' : (Heap.expandOn S ⟨bh.addr, 0, .zero, true, none, Store.empty, []⟩).bind
          (fun h => some (some h.unlock)) = some (some h₀) := hcreate
      obtain ⟨h₁, hexpand, heq⟩ := Option.bind_eq_some_iff.1 hcreate'
      obtain rfl := Option.some.inj (Option.some.inj heq)
      obtain ⟨hi', -, -, m₁, hexpand', hoff⟩ := expandOn_off hi₁ rfl ⟨rfl, fun _ _ => rfl⟩ hS hclean hclean'
        (fun _ _ _ => get_empty _) hexpand
      refine ⟨hi'.unlock, { h₁ with mem := m₁, mutex := false }, ?_, rfl, hoff⟩
      have hrun : createOn S' (some bh') true = (Heap.expandOn S' ⟨bh.addr, 0, .zero, true, none, Store.empty, []⟩).bind
          fun h => some (some h.unlock) := by
        rw [← haddr]
        rfl
      rw [hrun, hexpand']
      rfl

/-- **What was in the memory does not matter** where `num_allocated` is zero in all
of it: of a run there is one on any other such memory in the same places, from
the creation of the heap, with the same answers, and what the heap keeps is the
same after it. -/
theorem runs_alike (hE : 2 ≤ E) {bh bh' : Option (Heap E)} (hbh : bh.map Heap.addr = bh'.map Heap.addr)
    (hS : S.blp.SameAddr S'.blp) (hclean : S.blp.Clean) (hclean' : S'.blp.Clean) {now : Bool}
    (hcreate : createOn S bh now = some (some h₀)) {tr : List (SourceCall E × Option (Slot E))}
    (hrun : Run SourceCall.run SourceCall.Ok h₀ tr h) {cs : List (SourceCall E)}
    (hcs : List.Forall₂ SourceCall.SameAddr (tr.map Prod.fst) cs) (hcalls : ∀ x ∈ tr, x.1.Clean)
    (hcalls' : ∀ c ∈ cs, c.Clean) :
    ∃ h₀' h', createOn S' bh' now = some (some h₀') ∧
      Run SourceCall.run SourceCall.Ok h₀' (cs.zip (tr.map Prod.snd)) h' ∧ SameBookkeeping h h' := by
  obtain ⟨hi₀, h₀', hcreate', hs₀⟩ := createOn_off hbh hS hclean hclean' hcreate
  suffices hsim : (∃ xs, Inv h xs) ∧ ∃ h', Run SourceCall.run SourceCall.Ok h₀' (cs.zip (tr.map Prod.snd)) h' ∧
      SameBookkeeping h h' by
    obtain ⟨-, h', hrun', hs⟩ := hsim
    exact ⟨h₀', h', hcreate', hrun', hs⟩
  clear hcreate hcreate'
  induction hrun generalizing cs with
  | nil =>
    rw [List.map_nil, List.forall₂_nil_left_iff] at hcs
    subst hcs
    exact ⟨⟨[], hi₀⟩, h₀', Run.nil, hs₀⟩
  | @snoc tr h h₁ c r hrun hok hstep ih =>
    rw [List.map_append] at hcs
    obtain ⟨cs, c', rfl, hcs, hc⟩ := forall₂_concat_left hcs
    obtain ⟨⟨xs, hi⟩, h', hrun', hs⟩ := ih hcs (fun x hx => hcalls x (List.mem_append_left _ hx))
      fun c hc => hcalls' c (List.mem_append_left _ hc)
    have hlast : (c, r) ∈ tr ++ [(c, r)] := List.mem_append_right _ (List.mem_singleton_self _)
    have hlast' : c' ∈ cs ++ [c'] := List.mem_append_right _ (List.mem_singleton_self _)
    obtain ⟨hi₁, hok', h₁', hstep', hs₁⟩ := hs.step hi hE hc (hcalls _ hlast) (hcalls' _ hlast') hok hstep
    refine ⟨hi₁, h₁', ?_, hs₁⟩
    have hlen : cs.length = (tr.map Prod.snd).length := by
      rw [← hcs.length_eq, List.length_map, List.length_map]
    rw [List.map_append, List.zip_append hlen]
    exact hrun'.snoc hok' hstep'

/-- A block with what is left of an older one, but with no count. -/
def usedBlock : Block 2 := ⟨⟨some 7, some 8, some 9⟩, some 5, some ⟨3, 1⟩, 0, fun _ => .block (some 3)⟩

/-- Two elements of it are taken, and one is given back. -/
theorem runs_alike_freed : ∃ (h₀ h h' : Heap 2),
    Run SourceCall.run SourceCall.Ok h₀
      [(.alloc ⟨false, .mapFailed, .memory 1 usedBlock⟩, some ⟨1, 1⟩), (.alloc ⟨false, .mapFailed, .null⟩, some ⟨1, 0⟩),
        (.free ⟨1, 1⟩, none)] h' ∧
      SameBookkeeping h h' := by
  have h₁ : Run SourceCall.run SourceCall.Ok lazyHeap
      ([] ++ [(SourceCall.alloc ⟨false, .mapFailed, .memory 1 .zero⟩, some ⟨1, 1⟩)]) _ :=
    Run.nil.snoc (fun _ _ _ => get_empty _) rfl
  have h₂ := h₁.snoc (a := .alloc ⟨false, .mapFailed, .null⟩) (b := some ⟨1, 0⟩) (by exact nofun) rfl
  have h₃ := h₂.snoc (a := .free ⟨1, 1⟩) (b := none) (by exact trivial) rfl
  have hnull : (Given.null : Given 2).Clean := fun _ _ heq => by cases heq
  have hclean : ∀ b : Block 2, b.numAllocated = 0 → (Given.memory 1 b).Clean := by
    rintro b hb _ _ ⟨⟩
    exact hb
  have hbh : (some lazyHeap).map Heap.addr = (some lazyHeap).map Heap.addr := rfl
  have hS : (HeapSource.blp (E := 2) ⟨false, .mapFailed, .null⟩).SameAddr (HeapSource.blp ⟨false, .mapFailed, .null⟩) :=
    .null
  have hcreate : createOn ⟨false, .mapFailed, .null⟩ (some lazyHeap) false = some (some lazyHeap) := rfl
  have hcalls : ∀ b : Block 2, b.numAllocated = 0 → ∀ c ∈ [SourceCall.alloc ⟨false, .mapFailed, .memory 1 b⟩,
      .alloc ⟨false, .mapFailed, .null⟩, .free ⟨1, 1⟩], c.Clean := by
    intro b hb
    rw [List.forall_mem_cons, List.forall_mem_cons, List.forall_mem_singleton]
    exact ⟨hclean b hb, hnull, trivial⟩
  have hcs : List.Forall₂ (SourceCall.SameAddr (E := 2))
      [.alloc ⟨false, .mapFailed, .memory 1 .zero⟩, .alloc ⟨false, .mapFailed, .null⟩, .free ⟨1, 1⟩]
      [.alloc ⟨false, .mapFailed, .memory 1 usedBlock⟩, .alloc ⟨false, .mapFailed, .null⟩, .free ⟨1, 1⟩] :=
    .cons (.alloc (.memory 1 .zero usedBlock)) (.cons (.alloc .null) (.cons (.free _) .nil))
  obtain ⟨h₀', h', -, hrun', hs⟩ := runs_alike (by decide) hbh hS hnull hnull hcreate h₃ hcs
    (fun x hx => hcalls .zero rfl _ (List.mem_map_of_mem (f := Prod.fst) hx)) (hcalls usedBlock rfl)
  exact ⟨h₀', _, h', hrun', hs⟩

/-- The same with the count of the older one. -/
def staleBlock : Block 2 := { usedBlock with numAllocated := 5 }

/-- One block comes with a count of 5, and stays the empty block. -/
theorem runs_not_alike : ¬ ∀ (h : Heap 2) (tr : List (SourceCall 2 × Option (Slot 2))) (cs : List (SourceCall 2)),
    Run SourceCall.run SourceCall.Ok lazyHeap tr h → List.Forall₂ SourceCall.SameAddr (tr.map Prod.fst) cs →
    ∃ h', Run SourceCall.run SourceCall.Ok lazyHeap (cs.zip (tr.map Prod.snd)) h' ∧ SameBookkeeping h h' := by
  intro hall
  have hrun : Run SourceCall.run SourceCall.Ok lazyHeap
      ([] ++ [(SourceCall.alloc ⟨false, .mapFailed, .memory 1 .zero⟩, some ⟨1, 1⟩)]) _ :=
    Run.nil.snoc (fun _ _ _ => get_empty _) rfl
  obtain ⟨h', hrun', hs⟩ := hall _ _ [.alloc ⟨false, .mapFailed, .memory 1 staleBlock⟩] hrun
    (.cons (.alloc (.memory ..)) .nil)
  have hstale : Run SourceCall.run SourceCall.Ok lazyHeap
      ([] ++ [(SourceCall.alloc ⟨false, .mapFailed, .memory 1 staleBlock⟩, some ⟨1, 1⟩)]) h' := hrun'
  obtain ⟨h₀, hnil, -, hstep⟩ := hstale.last
  obtain rfl := Run.of_nil hnil
  have hempty : (SourceCall.run lazyHeap (.alloc ⟨false, .mapFailed, .memory 1 staleBlock⟩)).map
      (fun r => r.2.emptyBlock) = some (some 1) := rfl
  have hnone : h'.emptyBlock = none := by
    rw [hs.rest]
    rfl
  rw [hstep, Option.map_some, hnone] at hempty
  cases hempty

end Heap

end Mowgli
