import Mowgli.Container.Patricia.Map
/-!
# Adding to a patricia tree when there is no memory

An addition allocates a node if it needs a new one, links it, and then
allocates the leaf. When the first allocation fails nothing has happened
yet. When that of the leaf fails after that of a node, the node stays in
the tree with one child, which no tree of the invariant has.
-/

namespace Mowgli

namespace Patricia

variable {D : Type} {A : Allocator (PatriciaElem D)} {m : Store (PatriciaElem D)}
variable {d d' : Patricia D} {t : PTrie D} {key : CString} {data : D}

/-- **Every node of a well-formed tree has two children.** -/
theorem Repr.two_children {a : Addr} {n : PatriciaNode} {parent : Option Addr} {val : ℕ}
    (h : Repr m t parent val) (hwf : t.WF nibbleVal) (ha : a ∈ t.cells)
    (hn : m.get a = some (.node n)) : ∃ i j, i ≠ j ∧ n.down i ≠ none ∧ n.down j ≠ none := by
  induction t generalizing parent val with
  | nil => simp [Trie.cells] at ha
  | leaf x =>
    rw [Trie.cells, Multiset.mem_singleton] at ha
    have hx : m.get x.cell = some (.leaf ⟨x.data, x.key, parent, val⟩) := h
    rw [← ha, hn] at hx
    cases hx
  | node b k down ih =>
    rcases mem_cells_node.1 ha with rfl | ⟨i, hi⟩
    · obtain ⟨i, j, hij, hdi, hdj⟩ := hwf.1.two
      rw [h.1, Option.some.injEq, PatriciaElem.node.injEq] at hn
      subst hn
      exact ⟨i, j, hij, fun h0 => hdi (root?_eq_none.1 h0), fun h0 => hdj (root?_eq_none.1 h0)⟩
    · exact ih i (h.2 i) (hwf.2 i) hi

/-- A tree with a node over one child does not meet the invariant. -/
theorem not_inv_of_one_child {a : Addr} {n : PatriciaNode} {s : Fin 16}
    (hn : d.mem.get a = some (.node n)) (hone : ∀ j, j ≠ s → n.down j = none) : ¬ Inv d t := by
  intro h
  have ha : a ∈ t.cells := (h.live a).1 (Store.mem_live.2 ⟨_, hn⟩)
  obtain ⟨i, j, hij, hi, hj⟩ := h.repr.two_children h.wf ha hn
  have his : i = s := by_contra fun hne => hi (hone i hne)
  have hjs : j = s := by_contra fun hne => hj (hone j hne)
  exact hij (his.trans hjs.symm)

/-- An allocation of `elem_add` fails, which it logs. -/
def AllocFails (A : Allocator (PatriciaElem D)) (d : Patricia D) (key : CString) (data : D) : Prop :=
  ∃ out d' line, d.elemAdd A key data = some (out, d') ∧ line ∈ noMemory ∧ d'.log = d.log ++ [line]

/-- **What is left when an allocation fails**: the tree as it was, if it was
the first, and a node over one child if it was not. -/
theorem Inv.elemAdd_of_allocFails (h : Inv d t) (hcb : KeepsLength d.canonizeCb)
    (hlen : key.length ≤ INT_MAX)
    (hpart : ∀ x ∈ t.leaves, x.key ≠ d.addKey key → PartWithin (d.addKey key) x.key)
    (hfail : AllocFails A d key data) :
    ∃ d', d.elemAdd A key data = some (none, d') ∧
      ((A.pick d.mem = none ∧ ∃ line, d' = { d with log := d.log ++ [line] }) ∨
        (A.pick d.mem ≠ none ∧ ∃ a n s, d'.mem.get a = some (.node n) ∧ ∀ j, j ≠ s → n.down j = none)) := by
  obtain ⟨out, d', line, hrun, hline, hlog⟩ := hfail
  by_cases hmem : ∃ x ∈ t.leaves, x.key = d.addKey key
  · -- a key that is there is refused before anything is allocated
    obtain ⟨x, hx, hkey⟩ := hmem
    rw [h.elemAdd_of_mem data hcb hlen hx hkey, Option.some.injEq, Prod.mk.injEq] at hrun
    obtain ⟨-, rfl⟩ := hrun
    obtain rfl := List.singleton_inj.1 (List.append_cancel_left hlog)
    simp [noMemory] at hline
  · have hno : ∀ x ∈ t.leaves, x.key ≠ d.addKey key := fun x hx hkey => hmem ⟨x, hx, hkey⟩
    obtain ⟨r, hrun', hr⟩ := h.elemAdd_adds (A := A) data hcb hlen hno fun x hx => hpart x hx (hno x hx)
    obtain rfl : (out, d') = r := Option.some.inj (hrun.symm.trans hrun')
    cases hr with
    | added _ _ hd' =>
      rw [hd'] at hlog
      exact absurd hlog (by simp)
    | refused hpick _ => exact ⟨_, hrun, Or.inl ⟨hpick, _, rfl⟩⟩
    | halfway hpick _ hn hone _ _ =>
      exact ⟨d', hrun, Or.inr ⟨by rw [hpick]; simp, _, _, _, hn, hone⟩⟩

/-- **When a failed addition is atomic**: just when the allocation that fails
is the first. Then all that is left of the call is a line in the log. -/
theorem Inv.elemAdd_atomic_iff (h : Inv d t) (hcb : KeepsLength d.canonizeCb)
    (hlen : key.length ≤ INT_MAX)
    (hpart : ∀ x ∈ t.leaves, x.key ≠ d.addKey key → PartWithin (d.addKey key) x.key)
    (hfail : AllocFails A d key data) :
    ((∃ d', d.elemAdd A key data = some (none, d') ∧ ∃ t', Inv d' t' ∧ t'.leaves = t.leaves) ↔
      A.pick d.mem = none) ∧
    (A.pick d.mem = none →
      ∃ line, d.elemAdd A key data = some (none, { d with log := d.log ++ [line] })) := by
  obtain ⟨d', hrun, ⟨hpick, line, rfl⟩ | ⟨hpick, a, n, s, hn, hone⟩⟩ :=
    h.elemAdd_of_allocFails hcb hlen hpart hfail
  · refine ⟨iff_of_true ⟨_, hrun, t, ?_, rfl⟩ hpick, fun _ => ⟨line, hrun⟩⟩
    exact ⟨⟨h.root, h.repr, h.live, h.nodup⟩, h.wf, h.count⟩
  · refine ⟨iff_of_false ?_ hpick, fun h0 => absurd h0 hpick⟩
    rintro ⟨d'', hrun', t', h', -⟩
    obtain ⟨-, rfl⟩ := Prod.mk.inj (Option.some.inj (hrun.symm.trans hrun'))
    exact not_inv_of_one_child hn hone h'

/-! ## A tree with the key "a" -/

/-- The allocator with memory for `n` cells. -/
def atMost {α : Type} (n : ℕ) : Allocator α where
  pick s := if s.live.card < n then Allocator.bump.pick s else none
  fresh := by
    intro s a h
    split_ifs at h
    exact Allocator.bump.fresh h

/-- The tree with the key "a". -/
def treeA : Patricia Unit where
  canonizeCb := none
  root := some 1
  count := 1
  mem := Store.empty.set 1 (.leaf ⟨(), keyA, none, POINTERS_PER_NODE + 2⟩)
  log := []

theorem inv_treeA : Inv treeA (.leaf ⟨1, keyA, ()⟩) where
  root := rfl
  repr := Store.get_set_self ..
  live a := by
    rw [treeA, Store.mem_live_set, Store.live_empty, Trie.cells, Multiset.mem_singleton]
    simp
  nodup := Multiset.nodup_singleton 1
  wf := trivial
  count := rfl

theorem partWithin_treeA : ∀ x ∈ (.leaf ⟨1, keyA, ()⟩ : PTrie Unit).leaves,
    x.key ≠ treeA.addKey keyB → PartWithin (treeA.addKey keyB) x.key := by
  intro x hx _
  rw [Trie.leaves_leaf, List.mem_singleton] at hx
  subst hx
  exact ⟨1, by decide, by decide⟩

/-- With memory for one cell there is none for the node that tells "b" from
"a", and with memory for two there is none for the leaf. -/
theorem allocFails_treeA : AllocFails (atMost 1) treeA keyB () ∧ AllocFails (atMost 2) treeA keyB () :=
  ⟨⟨none, _, _, rfl, List.mem_cons_self .., rfl⟩,
    ⟨none, _, _, rfl, List.mem_cons_of_mem _ (List.mem_cons_self ..), rfl⟩⟩

theorem elemAdd_atomic_iff_treeA :
    ((∃ d', treeA.elemAdd (atMost 1) keyB () = some (none, d') ∧
      ∃ t', Inv d' t' ∧ t'.leaves = (.leaf ⟨1, keyA, ()⟩ : PTrie Unit).leaves) ↔
        (atMost 1).pick treeA.mem = none) ∧
    ((atMost 1).pick treeA.mem = none →
      ∃ line, treeA.elemAdd (atMost 1) keyB () = some (none, { treeA with log := treeA.log ++ [line] })) :=
  inv_treeA.elemAdd_atomic_iff (by simp [KeepsLength, treeA]) (by decide) partWithin_treeA allocFails_treeA.1

/-- **A node over one child stays** when "b" is added to "a" and there is
memory for the node and none for the leaf. -/
theorem elemAdd_leaves_node : Inv treeA (.leaf ⟨1, keyA, ()⟩) ∧ AllocFails (atMost 2) treeA keyB () ∧
    ∃ d', treeA.elemAdd (atMost 2) keyB () = some (none, d') ∧ ∀ t', ¬ Inv d' t' := by
  obtain ⟨d', hrun, ⟨hpick, -⟩ | ⟨-, a, n, s, hn, hone⟩⟩ :=
    inv_treeA.elemAdd_of_allocFails (by simp [KeepsLength, treeA]) (by decide) partWithin_treeA
      allocFails_treeA.2
  · have hsome : (atMost 2).pick treeA.mem = some 2 := rfl
    rw [hsome] at hpick
    cases hpick
  · exact ⟨inv_treeA, allocFails_treeA.2, d', hrun, fun t' => not_inv_of_one_child hn hone⟩

end Patricia

end Mowgli
