import Mowgli.Core.Heap.Blocks
/-!
# What `alloc` and `free` do to a heap

`alloc` finds a free element at the head of the list or in the empty
block, and that is enough: after a full block all blocks are full. `free`
gives an element back to the block its header names. Each moves the block
where the order of the list wants it.
-/

namespace Mowgli

namespace Heap

open Store

variable {E : ℕ} {A : Allocator (Block E)} {h h' : Heap E} {m m' : Store (Block E)}
variable {xs ys zs : List Addr} {b : Addr} {blk : Block E} {B : Body E} {is : List (Fin E)}

/-- The blocks in a store, but for their nodes. -/
def bodies (m : Store (Block E)) (b : Addr) : Option (Body E) := (m.get b).map body

/-- **The invariant of a heap** whose list has the blocks `xs`. -/
structure Inv (h : Heap E) (xs : List Addr) : Prop where
  list : Block.nodeField.Holds h.mem h.blocks xs
  data : ∀ b ∈ xs, Block.nodeField.data h.mem b = some (some b)
  blocks : Blocks h.addr (bodies h.mem) xs h.emptyBlock h.freeElems

theorem bodies_of_keeps (h : Block.nodeField.Keeps m m') : bodies m' = bodies m :=
  funext (h body fun _ _ => rfl)

theorem bodies_set (m : Store (Block E)) (b : Addr) (blk : Block E) :
    bodies (m.set b blk) = Function.update (bodies m) b (some (body blk)) := by
  funext c
  rw [bodies, get_set, Function.update_apply]
  split_ifs <;> rfl

theorem bodies_free (m : Store (Block E)) (b : Addr) :
    bodies (m.free b) = Function.update (bodies m) b none := by
  funext c
  rw [bodies, get_free, Function.update_apply]
  split_ifs <;> rfl

theorem exists_of_bodies (h : bodies m b = some B) : ∃ blk, m.get b = some blk ∧ body blk = B := by
  rwa [bodies, Option.map_eq_some_iff] at h

theorem bodies_eq_none : bodies m b = none ↔ b ∉ m.live := by
  rw [bodies, Option.map_eq_none_iff, get_eq_none]

theorem links_of_same (h : Same Block.node m m') :
    Block.nodeField.links m' = Block.nodeField.links m :=
  funext (h.comp fun n => (n.prev, n.next))

theorem data_of_same (h : Same Block.node m m') :
    Block.nodeField.data m' = Block.nodeField.data m :=
  funext (h.comp fun n => n.data)

/-- What is assigned to a block, but not to its node. -/
theorem modify_body (f : Block E → Block E) (g : Body E → Body E) (hn : ∀ x, (f x).node = x.node)
    (hg : ∀ x, body (f x) = g (body x)) (hB : bodies m b = some B) :
    ∃ m', m.modify b f = some m' ∧ Same Block.node m m' ∧
      bodies m' = Function.update (bodies m) b (some (g B)) := by
  obtain ⟨blk, hblk, rfl⟩ := exists_of_bodies hB
  refine ⟨_, modify_of_get f hblk, Same.set hblk (hn blk), ?_⟩
  rw [bodies_set, hg]

theorem inv_zero (addr : Addr) : Inv (⟨addr, 0, .zero, false, none, Store.empty, []⟩ : Heap E) [] where
  list := NodeField.holds_zero _
  data := by simp
  blocks := by
    have hb : bodies (Store.empty : Store (Block E)) = fun _ => none := by
      funext b
      rw [bodies, get_empty]
      rfl
    dsimp only
    rw [hb]
    exact blocks_zero addr

theorem lock_eq_some (hlock : h.lock = some h') : h.mutex = false ∧ h' = { h with mutex := true } := by
  unfold lock at hlock
  split_ifs at hlock with hm
  exact ⟨Bool.eq_false_iff.2 hm, (Option.some.inj hlock).symm⟩

theorem lock_of_free (hmutex : h.mutex = false) : h.lock = some { h with mutex := true } := by
  rw [lock, hmutex]
  rfl

theorem Inv.unlock (hi : Inv h xs) : Inv h.unlock xs := ⟨hi.list, hi.data, hi.blocks⟩

/-- The list of a heap does not see a cell that is not listed. -/
theorem Inv.list_of_eq (hi : Inv h xs) (hm : ∀ c ∈ xs, m'.get c = h.mem.get c) :
    Block.nodeField.Holds m' h.blocks xs ∧ ∀ b ∈ xs, Block.nodeField.data m' b = some (some b) := by
  refine ⟨hi.list.congr fun c hc => ?_, fun c hc => ?_⟩
  · rw [NodeField.links, NodeField.links, hm c hc]
  · rw [← hi.data c hc, NodeField.data, NodeField.data, hm c hc]

/-- A block with nothing handed out becomes the empty block. -/
theorem Inv.addBlock (hi : Inv h xs) (blk : Block E) (hempty : h.emptyBlock = none) (hb : h.mem.get b = none)
    (hok : BlockOk h.addr b (body blk) is) (hall : ∀ i, i ∈ is) (hn : blk.numAllocated = 0) :
    Inv { h with mem := h.mem.set b blk, emptyBlock := some b, freeElems := h.freeElems + E } xs ∧
      ∀ s, Live (bodies (h.mem.set b blk)) s ↔ Live (bodies h.mem) s := by
  have hno : bodies h.mem b = none := by
    rw [bodies, hb]
    rfl
  have hne : ∀ c ∈ xs, c ≠ b := by
    rintro c hc rfl
    obtain ⟨B, hB, -⟩ := hi.blocks.used c hc
    rw [hno] at hB
    cases hB
  refine ⟨?_, fun s => ?_⟩
  · obtain ⟨hlist, hdata⟩ := hi.list_of_eq fun c hc => get_set_of_ne h.mem blk (hne c hc)
    refine ⟨hlist, hdata, ?_⟩
    dsimp only
    rw [bodies_set]
    have hblocks := hi.blocks
    rw [hempty] at hblocks
    exact hblocks.insertEmpty hno hok hn
  · rw [bodies_set, live_update]
    split_ifs with hs
    · refine iff_of_false (fun hl => hok.block_iff.1 hl (hall _)) ?_
      rintro ⟨B, hB, -⟩
      rw [hs, hno] at hB
      cases hB
    · rfl

/-- **`expand` adds an empty block.** -/
theorem Inv.expand (hi : Inv h xs) (hempty : h.emptyBlock = none) (hpick : A.pick h.mem = some b) :
    ∃ m, h.expand A =
        some { h with mem := m, emptyBlock := some b, freeElems := h.freeElems + E } ∧
      Inv { h with mem := m, emptyBlock := some b, freeElems := h.freeElems + E } xs ∧
      (∀ s, Live (bodies m) s ↔ Live (bodies h.mem) s) ∧ ∀ c ∈ m.live, c ∈ h.mem.live ∨ c = b := by
  have hok := BlockOk.new h.addr b (fun _ : Fin E => .next none)
  obtain ⟨hi', hlive⟩ := hi.addBlock ⟨⟨none, none, none⟩, some h.addr, (chainElems b fun _ => .next none).2, 0,
    (chainElems b fun _ => .next none).1⟩ hempty (A.fresh hpick) hok (by simp) rfl
  refine ⟨_, ?_, hi', hlive, fun c hc => (mem_live_set.1 hc).symm⟩
  simp only [Heap.expand, hempty, hpick, ne_eq, not_true_eq_false, if_false, Option.bind_eq_bind,
    Option.bind_some]
  rfl

/-- The head of the list is looked at first. -/
theorem Inv.pickBlock_head (hi : Inv h (b :: zs)) (hB : bodies h.mem b = some B) :
    h.pickBlock = some (if B.firstFree = none then h.emptyBlock else some b) := by
  obtain ⟨blk, hblk, rfl⟩ := exists_of_bodies hB
  have hhead := hi.list.head_eq
  simp only [Heap.pickBlock, hhead, List.head?_cons, hi.data b (List.mem_cons_self ..), Option.bind_eq_bind,
    Option.bind_some, hblk, body]
  rfl

/-- A block of which nothing is free is full. -/
theorem Inv.freeOf_eq_zero_iff (hi : Inv h xs) (hB : bodies h.mem b = some B) :
    freeOf (bodies h.mem) b = 0 ↔ B.numAllocated = E := by
  obtain ⟨is, hok⟩ := hi.blocks.block b B hB
  have := hok.count
  rw [freeOf_of_some hB]
  omega

/-- Where every block in use is full it is the empty block's turn. -/
theorem Inv.pickBlock_of_full (hi : Inv h xs) (hfull : ∀ c ∈ xs, freeOf (bodies h.mem) c = 0) :
    h.pickBlock = some h.emptyBlock := by
  cases xs with
  | nil =>
    have hhead := hi.list.head_eq
    rw [Heap.pickBlock, hhead]
    rfl
  | cons a zs =>
    obtain ⟨A, hA, -⟩ := hi.blocks.used a (List.mem_cons_self ..)
    obtain ⟨is, hok⟩ := hi.blocks.block a A hA
    rw [hi.pickBlock_head hA, if_pos]
    exact hok.full_iff.2 ((hi.freeOf_eq_zero_iff hA).1 (hfull a (List.mem_cons_self ..)))

/-- Where there is something free, `alloc` finds it: in the empty block, or
at the head of the list. -/
theorem Inv.pickBlock (hi : Inv h xs) (hfree : 0 < h.freeElems) :
    ∃ b B, h.pickBlock = some (some b) ∧ bodies h.mem b = some B ∧ B.firstFree ≠ none ∧
      (h.emptyBlock = some b ∨ ∃ zs, xs = b :: zs) := by
  by_cases hfull : ∀ c ∈ xs, freeOf (bodies h.mem) c = 0
  · obtain ⟨b, B, hb, hB, hne⟩ := hi.blocks.empty_of_full hfree hfull
    exact ⟨b, B, by rw [hi.pickBlock_of_full hfull, hb], hB, hne, Or.inl hb⟩
  · cases xs with
    | nil => exact absurd (by simp) hfull
    | cons a zs =>
      obtain ⟨A, hA, -⟩ := hi.blocks.used a (List.mem_cons_self ..)
      obtain ⟨is, hok⟩ := hi.blocks.block a A hA
      have hroom : A.firstFree ≠ none := fun hnone => hfull fun c hc => by
        -- the full blocks come last
        have h0 := (hi.freeOf_eq_zero_iff hA).2 (hok.full_iff.1 hnone)
        rcases List.mem_cons.1 hc with rfl | hc
        · exact h0
        · exact (List.pairwise_cons.1 hi.blocks.order).1 c hc h0
      exact ⟨a, A, by rw [hi.pickBlock_head hA, if_neg hroom], hA, hroom, Or.inr ⟨zs, rfl⟩⟩

/-- **What `alloc` does at the end**, after an element of the block `b` was
taken: the block goes to the head of the list when it was empty, and to the
end when it is full. -/
theorem Inv.settleAlloc (hi : Inv h xs) (hE : 2 ≤ E) (hB : bodies h.mem b = some B)
    (hwhere : h.emptyBlock = some b ∨ ∃ zs, xs = b :: zs) {B' : Body E}
    (hok : BlockOk h.addr b B' is) (hn : B'.numAllocated = B.numAllocated + 1)
    (hsame : Same Block.node h.mem m) (hbodies : bodies m = Function.update (bodies h.mem) b (some B')) :
    ∃ m' l e xs', { h with mem := m, freeElems := sizeDec h.freeElems }.settleAlloc b = some
        { h with mem := m', blocks := l, emptyBlock := e, freeElems := sizeDec h.freeElems } ∧
      Inv { h with mem := m', blocks := l, emptyBlock := e, freeElems := sizeDec h.freeElems } xs' ∧
      bodies m' = bodies m := by
  have hlist : Block.nodeField.Holds m h.blocks xs :=
    hi.list.congr fun c _ => by rw [links_of_same hsame]
  have hdata : ∀ c ∈ xs, Block.nodeField.data m c = some (some c) :=
    fun c hc => by rw [data_of_same hsame, hi.data c hc]
  have hBm : bodies m b = some B' := by rw [hbodies, Function.update_self]
  obtain ⟨blk, hblk, rfl⟩ := exists_of_bodies hBm
  have hlive : b ∈ m.live := mem_live.2 ⟨blk, hblk⟩
  have hcount := hok.count
  have hnum : blk.numAllocated = B.numAllocated + 1 := hn
  have hnum' : is.length + blk.numAllocated = E := hok.count
  rcases hwhere with hempty | ⟨zs, rfl⟩
  · obtain ⟨hbx, B₀, hB₀, hn₀⟩ := hi.blocks.unlisted b hempty
    obtain rfl : B₀ = B := Option.some.inj (hB₀.symm.trans hB)
    have hone : blk.numAllocated = 1 := by omega
    obtain ⟨m', l', hadd, hlist', hkeeps, hdn, hdo⟩ := hlist.nodeAddHead (some b) hlive hbx
    have hblocks := hi.blocks
    rw [hempty] at hblocks
    obtain ⟨free, hfree, hblocks⟩ := hblocks.removeEmpty
    have hins := @Blocks.insertListed E h.addr b _ is _ [] xs none free hblocks
      (Function.update_self ..) hok (by omega) (by simp) (fun hnil => by
        rw [hnil, List.length_nil] at hnum'
        omega)
    rw [Function.update_idem, ← hbodies] at hins
    refine ⟨m', l', none, b :: xs, ?_, ⟨hlist', fun c hc => ?_, ?_⟩, bodies_of_keeps hkeeps⟩
    · simp only [Heap.settleAlloc, hblk, hone, if_true, hadd, Option.bind_eq_bind, Option.bind_some]
    · rcases List.mem_cons.1 hc with rfl | hc
      · exact hdn
      · rw [hdo c (ne_of_mem_of_not_mem hc hbx)]
        exact hdata c hc
    · dsimp only
      rw [bodies_of_keeps hkeeps, hfree]
      have : sizeDec (free + E) = free + is.length := by
        rw [show free + E = free + is.length + 1 by omega, sizeDec_succ]
      rw [this]
      exact hins
  · obtain ⟨B₀, hB₀, hpos⟩ := hi.blocks.used b (List.mem_cons_self ..)
    obtain rfl : B₀ = B := Option.some.inj (hB₀.symm.trans hB)
    have hone : blk.numAllocated ≠ 1 := by omega
    obtain ⟨free, hfree, hblocks⟩ := @Blocks.removeListed E h.addr b _ [] zs _ _ hi.blocks
    have hof : freeOf (bodies h.mem) b = is.length + 1 := by
      rw [freeOf_of_some hB]
      omega
    have hdec : sizeDec h.freeElems = free + is.length := by
      rw [hfree, hof, ← Nat.add_assoc, sizeDec_succ]
    obtain ⟨hbz, -⟩ := List.nodup_cons.1 hi.blocks.nodup
    by_cases hfull : blk.firstFree = none
    · have hnil : is = [] := by
        refine List.length_eq_zero_iff.1 ?_
        have := hok.full_iff.1 hfull
        omega
      have hins := @Blocks.insertListed E h.addr b _ is _ zs [] _ free (by simpa using hblocks)
        (Function.update_self ..) hok (by omega) (fun _ _ _ => hnil) (by simp)
      rw [Function.update_idem, ← hbodies, ← hdec] at hins
      obtain ⟨m₁, l₁, hdel, hlist₁, hkeeps₁, hd₁⟩ := @NodeField.Holds.nodeDelete _ _ _ _ [] zs b hlist
      obtain ⟨m₂, l₂, hadd, hlist₂, hkeeps₂, hdn, hdo⟩ :=
        hlist₁.nodeAdd (some b) (hkeeps₁.live ▸ hlive) hbz
      have hb₂ : bodies m₂ = bodies m := (bodies_of_keeps hkeeps₂).trans (bodies_of_keeps hkeeps₁)
      refine ⟨m₂, l₂, h.emptyBlock, zs ++ [b], ?_, ⟨hlist₂, fun c hc => ?_, ?_⟩, hb₂⟩
      · simp only [Heap.settleAlloc, hblk, hone, hfull, if_true, if_false, hdel, hadd,
          Option.bind_eq_bind, Option.bind_some]
      · by_cases hcb : c = b
        · rw [hcb, hdn]
        · rw [hdo c hcb, hd₁]
          refine hdata c ?_
          simpa [hcb] using hc
      · dsimp only
        rw [hb₂]
        exact hins
    · have hnil : is ≠ [] := by
        rintro rfl
        rw [List.length_nil, Nat.zero_add] at hnum'
        exact hfull (hok.full_iff.2 hnum')
      have hins := @Blocks.insertListed E h.addr b _ is _ [] zs _ free hblocks
        (Function.update_self ..) hok (by omega) (by simp) (fun h => absurd h hnil)
      rw [Function.update_idem, ← hbodies, ← hdec] at hins
      refine ⟨m, h.blocks, h.emptyBlock, b :: zs, ?_, ⟨hlist, hdata, hins⟩, rfl⟩
      simp only [Heap.settleAlloc, hblk, hone, hfull, if_false, Option.bind_eq_bind, Option.bind_some]

/-- Where nothing is free there is no empty block, and `expand` asks for one. -/
theorem Inv.emptyBlock_of_full (hi : Inv h xs) (hE : 0 < E) (hfree : h.freeElems = 0) : h.emptyBlock = none := by
  have hsum := hi.blocks.free
  by_contra hne
  rw [if_neg hne] at hsum
  omega

/-- What `alloc` has after it made sure that something is free. -/
theorem Inv.ensure (hi : Inv h xs) (hE : 2 ≤ E) (hA : h.freeElems = 0 → (A.pick h.mem).isSome) :
    ∃ h₁, (∀ {γ : Type} (k : Heap E → Option γ),
        (if h.freeElems = 0 then (h.expand A).bind k else k h) = k h₁) ∧ Inv h₁ xs ∧ 0 < h₁.freeElems ∧
      (∀ s, Live (bodies h₁.mem) s ↔ Live (bodies h.mem) s) ∧ h₁.mutex = h.mutex ∧ h₁.log = h.log ∧
      h₁.addr = h.addr ∧ ∀ c ∈ h₁.mem.live, c ∈ h.mem.live ∨ A.pick h.mem = some c := by
  by_cases hfree : h.freeElems = 0
  · obtain ⟨b, hpick⟩ := Option.isSome_iff_exists.1 (hA hfree)
    have hempty := hi.emptyBlock_of_full (by omega) hfree
    obtain ⟨m, hexp, hi₁, hlive, hmem⟩ := hi.expand hempty hpick
    refine ⟨_, fun k => ?_, hi₁, by dsimp only; omega, hlive, rfl, rfl, rfl, fun c hc => ?_⟩
    swap
    · exact (hmem c hc).imp_right fun heq => by rw [heq, hpick]
    rw [if_pos hfree, hexp, Option.bind_some]
  · exact ⟨h, fun k => if_neg hfree, hi, by omega, fun _ => Iff.rfl, rfl, rfl, rfl, fun _ => Or.inl⟩

/-- **`alloc`** hands out an element that was free, and no check fails, if there is
memory for a block where one is needed. -/
theorem Inv.alloc (hi : Inv h xs) (hE : 2 ≤ E) (hA : h.freeElems = 0 → (A.pick h.mem).isSome)
    (hmutex : h.mutex = false) :
    ∃ s h' xs', h.alloc A = some (some s, h') ∧ Inv h' xs' ∧ ¬Live (bodies h.mem) s ∧
      (∀ t, Live (bodies h'.mem) t ↔ t = s ∨ Live (bodies h.mem) t) ∧ h'.mutex = false ∧
      h'.log = h.log ∧ h'.addr = h.addr ∧ ∀ c ∈ h'.mem.live, c ∈ h.mem.live ∨ A.pick h.mem = some c := by
  have hi₀ : Inv { h with mutex := true } xs := ⟨hi.list, hi.data, hi.blocks⟩
  obtain ⟨h₁, hens, hi₁, hfree, hlive, -, hlog, haddr, hmem⟩ := hi₀.ensure hE hA
  obtain ⟨b, B, hpick, hB, hfirst, hwhere⟩ := hi₁.pickBlock hfree
  obtain ⟨is, hok⟩ := hi₁.blocks.block b B hB
  obtain ⟨i, is, rfl⟩ : ∃ i js, is = i :: js := by
    cases is with
    | nil => exact absurd hok.chain hfirst
    | cons i is => exact ⟨i, is, rfl⟩
  obtain ⟨hff, q, hq, hok'⟩ := hok.take
  obtain ⟨blk, hblk, rfl⟩ := exists_of_bodies hB
  have hff' : blk.firstFree = some ⟨b, i⟩ := hff
  have hq' : blk.elems i = .next q := hq
  obtain ⟨m₁, hm₁, hs₁, hb₁⟩ := modify_body (fun blk : Block E => { blk with firstFree := q })
    (fun B => { B with firstFree := q }) (fun _ => rfl) (fun _ => rfl) hB
  obtain ⟨m₂, hm₂, hs₂, hb₂⟩ := modify_body
    (fun blk : Block E => { blk with elems := Function.update blk.elems i (.block (some b)) })
    (fun B => { B with elems := Function.update B.elems i (.block (some b)) })
    (fun _ => rfl) (fun _ => rfl) (hb₁ ▸ Function.update_self ..)
  obtain ⟨m₃, hm₃, hs₃, hb₃⟩ := modify_body
    (fun blk : Block E => { blk with numAllocated := blk.numAllocated + 1 })
    (fun B => { B with numAllocated := B.numAllocated + 1 })
    (fun _ => rfl) (fun _ => rfl) (hb₂ ▸ Function.update_self ..)
  rw [hb₂, Function.update_idem, hb₁, Function.update_idem] at hb₃
  obtain ⟨m', l, e, xs', hsettle, hi', hbodies⟩ :=
    hi₁.settleAlloc hE hB hwhere hok' rfl (hs₁.trans (hs₂.trans hs₃)) hb₃
  refine ⟨⟨b, i⟩, _, xs', ?_, hi'.unlock, ?_, fun t => ?_, rfl, hlog, haddr, fun c hc => hmem c ?_⟩
  · have hlock := lock_of_free hmutex
    simp only [Heap.alloc, hlock, Option.bind_eq_bind, Option.bind_some]
    refine (hens _).trans ?_
    simp only [hfree.ne', if_false, hpick, hblk, hff', hq', hm₁, hm₂, hm₃, HeapElemHeader.next?,
      hsettle, Option.bind_some]
  · rw [← hlive]
    rintro ⟨B₀, hB₀, hl⟩
    obtain rfl := Option.some.inj (hB₀.symm.trans hB)
    exact hok.block_iff.1 hl (List.mem_cons_self ..)
  · change Live (bodies m') t ↔ _
    rw [hbodies, hb₃, live_update, ← hlive]
    split_ifs with ht
    · dsimp only
      obtain ⟨c, j⟩ := t
      obtain rfl : c = b := ht
      by_cases hji : j = i
      · simp [hji]
      · rw [Function.update_of_ne hji]
        simp only [Slot.mk.injEq, true_and, hji, false_or, Live, hB, Option.some.injEq,
          exists_eq_left']
    · refine ⟨Or.inr, fun hor => hor.resolve_left ?_⟩
      rintro rfl
      exact ht rfl
  · have hc' : c ∈ m'.live := hc
    by_contra hno
    have hnone := bodies_eq_none.2 hno
    refine bodies_eq_none.1 ?_ hc'
    rw [hbodies, hb₃, Function.update_of_ne, hnone]
    rintro rfl
    rw [hB] at hnone
    cases hnone

/-- **What `free` does at the end**, after an element of the block `b` was
given back: an empty block becomes the heap's empty block, in the place of
the one there was, and a block that was full goes to the head of the list. -/
theorem Inv.settleFree (hi : Inv h xs) (hE : 2 ≤ E) (hB : bodies h.mem b = some B)
    (hn : 0 < B.numAllocated) {B' : Body E} (hok : BlockOk h.addr b B' is) (hne : is ≠ [])
    (hn' : B.numAllocated = B'.numAllocated + 1)
    (hsame : Same Block.node h.mem m) (hbodies : bodies m = Function.update (bodies h.mem) b (some B')) :
    ∃ m' l e free xs', { h with mem := m, freeElems := h.freeElems + 1 }.settleFree b = some
        { h with mem := m', blocks := l, emptyBlock := e, freeElems := free } ∧
      Inv { h with mem := m', blocks := l, emptyBlock := e, freeElems := free } xs' ∧
      (bodies m' = bodies m ∨ ∃ c ≠ b, (∃ C, bodies h.mem c = some C ∧ C.numAllocated = 0) ∧
        bodies m' = Function.update (bodies m) c none) ∧
      (B'.numAllocated = 0 → e = some b) ∧
      (0 < B'.numAllocated → xs'.head? = if B.numAllocated = E then some b else xs.head?) := by
  have hlist : Block.nodeField.Holds m h.blocks xs :=
    hi.list.congr fun c _ => by rw [links_of_same hsame]
  have hdata : ∀ c ∈ xs, Block.nodeField.data m c = some (some c) :=
    fun c hc => by rw [data_of_same hsame, hi.data c hc]
  have hBm : bodies m b = some B' := by rw [hbodies, Function.update_self]
  obtain ⟨blk, hblk, rfl⟩ := exists_of_bodies hBm
  have hlive : b ∈ m.live := mem_live.2 ⟨blk, hblk⟩
  have hnum : B.numAllocated = blk.numAllocated + 1 := hn'
  have hnum' : is.length + blk.numAllocated = E := hok.count
  have hpos : 0 < is.length := List.length_pos_iff.2 hne
  have hbx : b ∈ xs := by
    refine (hi.blocks.listed b B hB).resolve_right fun hempty => ?_
    obtain ⟨-, B₀, hB₀, hn₀⟩ := hi.blocks.unlisted b hempty
    obtain rfl := Option.some.inj (hB₀.symm.trans hB)
    omega
  obtain ⟨ys, zs, rfl⟩ := List.append_of_mem hbx
  obtain ⟨free, hfree, hblocks⟩ := hi.blocks.removeListed
  rw [freeOf_of_some hB] at hfree
  have hfree' : h.freeElems + 1 = free + is.length := by omega
  rcases Nat.eq_zero_or_pos blk.numAllocated with hzero | hpos'
  · have hub : Function.update (bodies m) b none = Function.update (bodies h.mem) b none := by
      rw [hbodies, Function.update_idem]
    obtain ⟨m₀, free₀, hstep, hmem₀, hbodies₀, hblocks₀⟩ : ∃ m₀ free₀,
        { h with mem := m, freeElems := h.freeElems + 1 }.settleFree b =
          (Block.nodeField.nodeDelete m₀ b h.blocks).bind (fun p => some
            { h with mem := p.1, blocks := p.2, emptyBlock := some b, freeElems := free₀ + E }) ∧
        (∀ c ∈ ys ++ b :: zs, m₀.get c = m.get c) ∧
        (bodies m₀ = bodies m ∨ ∃ c ≠ b, (∃ C, bodies h.mem c = some C ∧ C.numAllocated = 0) ∧
          bodies m₀ = Function.update (bodies m) c none) ∧
        Blocks h.addr (Function.update (bodies m₀) b none) (ys ++ zs) none free₀ := by
      cases hempty : h.emptyBlock with
      | none =>
        rw [hempty, ← hub] at hblocks
        refine ⟨m, free, ?_, fun _ _ => rfl, Or.inl rfl, hblocks⟩
        rw [hfree', show is.length = E by omega]
        simp only [Heap.settleFree, hblk, hzero, if_true, Option.bind_eq_bind, Option.bind_some]
      | some e =>
        obtain ⟨hex, hE₀⟩ := hi.blocks.unlisted e hempty
        have heb : e ≠ b := fun heb => hex (heb ▸ hbx)
        rw [hempty, ← hub] at hblocks
        obtain ⟨free₀, hfree₀, hblocks₀⟩ := hblocks.removeEmpty
        refine ⟨m.free e, free₀, ?_, fun c hc => get_free_of_ne m (ne_of_mem_of_not_mem hc hex),
          Or.inr ⟨e, heb, hE₀, bodies_free m e⟩, ?_⟩
        · have hsub : sizeSub (h.freeElems + 1) E = free₀ + E := by
            rw [hfree', hfree₀, show is.length = E by omega, sizeSub_add]
          simp only [Heap.settleFree, Heap.shrink, hblk, hzero, if_true, hsub,
            Option.bind_eq_bind, Option.bind_some]
        · rw [bodies_free, Function.update_comm heb]
          exact hblocks₀
    have hlist₀ : Block.nodeField.Holds m₀ h.blocks (ys ++ b :: zs) := hlist.congr fun c hc => by
      rw [NodeField.links, NodeField.links, hmem₀ c hc]
    obtain ⟨m₁, l₁, hdel, hlist₁, hkeeps₁, hd₁⟩ := hlist₀.nodeDelete
    have hb₀ : bodies m₀ b = some (body blk) := by
      rw [bodies, hmem₀ b hbx, hblk]
      rfl
    have hins := hblocks₀.insertEmpty (Function.update_self ..) hok hzero
    rw [Function.update_idem, Function.update_eq_self_iff.2 hb₀.symm] at hins
    refine ⟨m₁, l₁, some b, free₀ + E, ys ++ zs, ?_, ⟨hlist₁, fun c hc => ?_, ?_⟩, ?_, fun _ => rfl,
      fun hpos => absurd hzero hpos.ne'⟩
    · rw [hstep, hdel, Option.bind_some]
    · have hc' : c ∈ ys ++ b :: zs := by
        simp only [List.mem_append, List.mem_cons] at hc ⊢
        tauto
      rw [hd₁, NodeField.data, hmem₀ c hc']
      exact hdata c hc'
    · dsimp only
      rw [bodies_of_keeps hkeeps₁]
      exact hins
    · rw [bodies_of_keeps hkeeps₁]
      exact hbodies₀
  · have hdec : sizeDec E = E - 1 := by
      obtain ⟨k, rfl⟩ : ∃ k, E = k + 1 := ⟨E - 1, by omega⟩
      rw [sizeDec_succ, Nat.add_sub_cancel]
    by_cases hlast : blk.numAllocated = sizeDec E
    · obtain ⟨m₁, l₁, hdel, hlist₁, hkeeps₁, hd₁⟩ := hlist.nodeDelete
      obtain ⟨hbyz, -⟩ := List.nodup_cons.1 (List.nodup_middle.1 hi.blocks.nodup)
      obtain ⟨m₂, l₂, hadd, hlist₂, hkeeps₂, hdn, hdo⟩ :=
        hlist₁.nodeAddHead (some b) (hkeeps₁.live ▸ hlive) hbyz
      have hb₂ : bodies m₂ = bodies m := (bodies_of_keeps hkeeps₂).trans (bodies_of_keeps hkeeps₁)
      have hins := @Blocks.insertListed E h.addr b _ is _ [] (ys ++ zs) _ free hblocks
        (Function.update_self ..) hok hpos' (by simp) (fun h => absurd h hne)
      rw [Function.update_idem, ← hbodies, ← hfree'] at hins
      refine ⟨m₂, l₂, h.emptyBlock, h.freeElems + 1, b :: (ys ++ zs), ?_, ⟨hlist₂, fun c hc => ?_, ?_⟩,
        Or.inl hb₂, fun h0 => absurd h0 hpos'.ne', fun _ => ?_⟩
      · simp only [Heap.settleFree, hblk, hpos'.ne', hlast.symm, if_true, if_false, hdel, hadd,
          Option.bind_eq_bind, Option.bind_some]
      · rcases List.mem_cons.1 hc with rfl | hc
        · exact hdn
        · rw [hdo c (ne_of_mem_of_not_mem hc hbyz), hd₁]
          refine hdata c ?_
          simp only [List.mem_append, List.mem_cons] at hc ⊢
          tauto
      · dsimp only
        rw [hb₂]
        exact hins
      · rw [if_pos (by omega)]
        rfl
    · have hnotfull : ∀ c ∈ ys, freeOf (bodies h.mem) c ≠ 0 := fun c hc h0 => by
        have := (List.pairwise_append.1 hi.blocks.order).2.2 c hc b (List.mem_cons_self ..) h0
        rw [freeOf_of_some hB] at this
        omega
      obtain ⟨hbyz, -⟩ := List.nodup_cons.1 (List.nodup_middle.1 hi.blocks.nodup)
      have hins := @Blocks.insertListed E h.addr b _ is _ ys zs _ free hblocks
        (Function.update_self ..) hok hpos' (fun c hc h0 => by
          rw [freeOf_update_of_ne (ne_of_mem_of_not_mem (List.mem_append_left _ hc) hbyz)] at h0
          exact absurd h0 (hnotfull c hc)) (fun h => absurd h hne)
      rw [Function.update_idem, ← hbodies, ← hfree'] at hins
      refine ⟨m, h.blocks, h.emptyBlock, h.freeElems + 1, ys ++ b :: zs, ?_, ⟨hlist, hdata, hins⟩,
        Or.inl rfl, fun h0 => absurd h0 hpos'.ne', fun _ => ?_⟩
      · simp only [Heap.settleFree, hblk, hpos'.ne', hlast, if_false, Option.bind_eq_bind,
          Option.bind_some]
      · rw [if_neg (by omega)]

/-- **What `free` makes of the blocks**: the element is the first that is free in its
block, and a block that was full goes to the head of the list. The other blocks in use
stay as they are. -/
structure Gives (h : Heap E) (s : Slot E) (h' : Heap E) (xs xs' : List Addr) : Prop where
  block : ∃ B B', bodies h.mem s.block = some B ∧ bodies h'.mem s.block = some B' ∧ B'.firstFree = some s ∧
    B.numAllocated = B'.numAllocated + 1 ∧ (B'.numAllocated = 0 → h'.emptyBlock = some s.block) ∧
    (0 < B'.numAllocated → xs'.head? = if B.numAllocated = E then some s.block else xs.head?)
  others : ∀ c ≠ s.block, ∀ C : Body E, 0 < C.numAllocated → (bodies h'.mem c = some C ↔ bodies h.mem c = some C)

/-- **`free`** takes back an element that is handed out, and no check fails. -/
theorem Inv.free {s : Slot E} (hi : Inv h xs) (hE : 2 ≤ E) (hmutex : h.mutex = false)
    (hs : Live (bodies h.mem) s) :
    ∃ h' xs', h.free s = some h' ∧ Inv h' xs' ∧
      (∀ t, Live (bodies h'.mem) t ↔ t ≠ s ∧ Live (bodies h.mem) t) ∧ h'.mutex = false ∧
      h'.log = h.log ∧ h'.addr = h.addr ∧ h'.mem.live ⊆ h.mem.live ∧ Gives h s h' xs xs' := by
  have hi₀ : Inv { h with mutex := true } xs := ⟨hi.list, hi.data, hi.blocks⟩
  obtain ⟨b, i⟩ := s
  obtain ⟨B, hB, hused⟩ := hs
  obtain ⟨is, hok⟩ := hi.blocks.block b B hB
  have hni : i ∉ is := hok.block_iff.1 hused
  have hpos := hok.num_pos hni
  have hok' := hok.give hni hpos
  obtain ⟨blk, hblk, rfl⟩ := exists_of_bodies hB
  have hused' : blk.elems i = .block (some b) := hused
  have hheap : blk.heap = some h.addr := hok.heap
  have hnum : blk.numAllocated ≠ 0 := hpos.ne'
  obtain ⟨m₁, hm₁, hs₁, hb₁⟩ := modify_body
    (fun hblk : Block E => { hblk with elems := Function.update hblk.elems i (.next blk.firstFree) })
    (fun B => { B with elems := Function.update B.elems i (.next blk.firstFree) })
    (fun _ => rfl) (fun _ => rfl) hB
  obtain ⟨m₂, hm₂, hs₂, hb₂⟩ := modify_body
    (fun blk : Block E => { blk with
      firstFree := some ⟨b, i⟩
      numAllocated := sizeDec blk.numAllocated })
    (fun B => { B with firstFree := some ⟨b, i⟩, numAllocated := sizeDec B.numAllocated })
    (fun _ => rfl) (fun _ => rfl) (hb₁ ▸ Function.update_self ..)
  rw [hb₁, Function.update_idem] at hb₂
  have hdec : (body blk).numAllocated = sizeDec (body blk).numAllocated + 1 := by
    obtain ⟨k, hk⟩ : ∃ k, (body blk).numAllocated = k + 1 := ⟨_, (Nat.succ_pred hpos.ne').symm⟩
    rw [hk, sizeDec_succ]
  obtain ⟨m', l, e, free, xs', hsettle, hi', hbodies, hempty, hhead⟩ :=
    hi₀.settleFree hE hB hpos hok' (by simp) hdec (hs₁.trans hs₂) hb₂
  have hself : bodies m' b = bodies m₂ b := by
    rcases hbodies with hbodies | ⟨c, hcb, -, hbodies⟩
    · rw [hbodies]
    · rw [hbodies, Function.update_of_ne hcb.symm]
  refine ⟨_, xs', ?_, hi'.unlock, fun t => ?_, rfl, rfl, rfl, fun c hc => ?_,
    ⟨_, _, hB, hself.trans ((congrFun hb₂ b).trans (Function.update_self ..)), rfl, hdec, hempty, hhead⟩,
    fun c hc C hC => ?_⟩
  · have hlock := lock_of_free hmutex
    simp only [Heap.free, hlock, hblk, hused', hheap, hnum, HeapElemHeader.block?, hm₁, hm₂, hsettle,
      ne_eq, not_true_eq_false, if_false, Option.bind_eq_bind, Option.bind_some]
  · change Live (bodies m') t ↔ _
    have hlive₂ : Live (bodies m₂) t ↔ t ≠ ⟨b, i⟩ ∧ Live (bodies h.mem) t := by
      rw [hb₂, live_update]
      split_ifs with ht
      · obtain ⟨c, j⟩ := t
        obtain rfl : c = b := ht
        by_cases hji : j = i
        · simp [hji]
        · dsimp only
          rw [Function.update_of_ne hji]
          simp only [ne_eq, Slot.mk.injEq, true_and, hji, not_false_eq_true, Live, hB,
            Option.some.injEq, exists_eq_left']
      · refine ⟨fun hl => ⟨?_, hl⟩, And.right⟩
        rintro rfl
        exact ht rfl
    rcases hbodies with hbodies | ⟨c, -, ⟨C, hC, hn⟩, hbodies⟩
    · rw [hbodies, hlive₂]
    · rw [hbodies, live_update_none, hlive₂]
      refine ⟨And.right, fun hl => ⟨fun hc => hi.blocks.not_live hC hn hc hl.2, hl⟩⟩
  · have hc' : c ∈ m'.live := hc
    by_contra hno
    have hnone := bodies_eq_none.2 hno
    have hnone₂ : bodies m₂ c = none := by
      rw [hb₂, Function.update_of_ne, hnone]
      rintro rfl
      rw [hB] at hnone
      cases hnone
    refine bodies_eq_none.1 ?_ hc'
    rcases hbodies with hbodies | ⟨d, -, -, hbodies⟩
    · rw [hbodies, hnone₂]
    · rw [hbodies, Function.update_apply, hnone₂, ite_self]
  · change bodies m' c = _ ↔ _
    have hsame : bodies m₂ c = bodies h.mem c := by rw [hb₂, Function.update_of_ne hc]
    rcases hbodies with hbodies | ⟨d, -, ⟨D, hD, hn⟩, hbodies⟩
    · rw [hbodies, hsame]
    · -- only an empty block goes
      rw [hbodies, Function.update_apply, hsame]
      split_ifs with hcd
      · subst hcd
        refine iff_of_false (by simp) fun hCD => ?_
        rw [hD] at hCD
        have hD' : D.numAllocated = 0 := hn
        rw [Option.some.inj hCD] at hD'
        omega
      · rfl

end Heap

end Mowgli
