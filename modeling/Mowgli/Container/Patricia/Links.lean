import Mowgli.Container.Patricia.Map
/-!
# The links of a patricia tree

The representation invariant in terms of the cells alone: parents and
slots, the order of the nibbles, two children for each node, the keys
below a node, and the count. `Inv` gives all of it, so it holds after any
calls, and with it the assertions of `elem_add`, `elem_delete` and
`stats_recurse`.
-/

namespace Mowgli

namespace Patricia

variable {D σ : Type} {m : Store (PatriciaElem D)} {d : Patricia D} {t : PTrie D}

/-- The cell `x` hangs below the cell `a`, or is that cell. -/
inductive Below (m : Store (PatriciaElem D)) : Addr → Addr → Prop
  | refl (a : Addr) : Below m a a
  | child {a c x : Addr} {n : PatriciaNode} {i : Fin 16} :
    nodeAt m a = some n → n.down i = some c → Below m c x → Below m a x

/-- **The cells are linked as a patricia tree.** -/
structure Linked (d : Patricia D) : Prop where
  /-- The root has no parent. -/
  root_parent : ∀ r, d.root = some r → ∃ e, d.mem.get r = some e ∧ e.parent = none
  /-- A child has the address of its parent and the slot it is in. -/
  child_parent : ∀ a n i c, nodeAt d.mem a = some n → n.down i = some c →
    ∃ e, d.mem.get c = some e ∧ e.parent = some a ∧ e.parentVal = i
  /-- The slot an element names holds it. -/
  parent_child : ∀ c e a, d.mem.get c = some e → e.parent = some a →
    ∃ n, nodeAt d.mem a = some n ∧ ∃ i : Fin 16, e.parentVal = i ∧ n.down i = some c
  /-- Nibble numbers grow downwards. -/
  nibnum_lt : ∀ a n i c n', nodeAt d.mem a = some n → n.down i = some c →
    nodeAt d.mem c = some n' → n.nibnum < n'.nibnum
  /-- A node has at least two children. -/
  two_children : ∀ a n, nodeAt d.mem a = some n →
    ∃ i j, i ≠ j ∧ (n.down i).isSome ∧ (n.down j).isSome
  /-- The keys below a node agree on the nibbles before its own. -/
  agree : ∀ a n x y l l', nodeAt d.mem a = some n → Below d.mem a x → Below d.mem a y →
    leafAt d.mem x = some l → leafAt d.mem y = some l' →
    ∀ i < n.nibnum, nibbleVal l.key i = nibbleVal l'.key i
  /-- They are filed under the value of that nibble. -/
  filed : ∀ a n i c x l, nodeAt d.mem a = some n → n.down i = some c → Below d.mem c x →
    leafAt d.mem x = some l → nibbleVal l.key n.nibnum = i
  /-- Every cell hangs below the root. -/
  reach : ∀ a ∈ d.mem.live, ∃ r, d.root = some r ∧ Below d.mem r a
  /-- The count is that of the leaves. -/
  count : d.count.toNat = (d.mem.live.filter fun a => (leafAt d.mem a).isSome).card

theorem nodeAt_eq {a : Addr} {n : PatriciaNode} (h : nodeAt m a = some n) :
    m.get a = some (.node n) := by
  unfold nodeAt at h
  split at h
  · rename_i hget; rw [hget, Option.some.inj h]
  · cases h

theorem leafAt_eq {a : Addr} {l : PatriciaLeaf D} (h : leafAt m a = some l) :
    m.get a = some (.leaf l) := by
  unfold leafAt at h
  split at h
  · rename_i hget; rw [hget, Option.some.inj h]
  · cases h

/-- Every cell of a trie is the root of what is at some place of it. -/
theorem exists_plug_of_mem_cells {a : Addr} (h : a ∈ t.cells) :
    ∃ (c : PCtx D) (s : PTrie D), t = Trie.plug c s ∧ s.root? = some a := by
  induction t with
  | nil => simp [Trie.cells] at h
  | leaf x =>
    rw [Trie.cells, Multiset.mem_singleton] at h
    exact ⟨[], .leaf x, rfl, by rw [Trie.root?, h]⟩
  | node b n down ih =>
    rcases mem_cells_node.1 h with rfl | ⟨i, hi⟩
    · exact ⟨[], .node a n down, rfl, rfl⟩
    · obtain ⟨c, s, hs, hr⟩ := ih i hi
      refine ⟨c ++ [⟨b, n, down, i⟩], s, ?_, hr⟩
      rw [Trie.plug_append, ← hs, Trie.plug_cons, Trie.plug_nil, Trie.fill_mk]

/-- The root of a represented trie knows its parent and slot. -/
theorem Repr.root_parent {parent : Option Addr} {val : ℕ} {r : Addr} (h : Repr m t parent val)
    (hr : t.root? = some r) : ∃ e, m.get r = some e ∧ e.parent = parent ∧ e.parentVal = val := by
  cases t with
  | nil => cases hr
  | leaf x => obtain rfl : x.cell = r := Option.some.inj hr; exact ⟨_, h, rfl, rfl⟩
  | node a n down => obtain rfl : a = r := Option.some.inj hr; exact ⟨_, h.1, rfl, rfl⟩

/-- **A cell below the root of a trie is one of its cells**, and a leaf
there one of its leaves. -/
theorem Repr.below {parent : Option Addr} {val : ℕ} {r x : Addr} (h : Repr m t parent val)
    (hr : t.root? = some r) (hx : Below m r x) :
    x ∈ t.cells ∧ ∀ l, Patricia.leafAt m x = some l → ⟨x, l.key, l.data⟩ ∈ t.leaves := by
  induction hx generalizing t parent val with
  | refl a =>
    refine ⟨root?_mem_cells hr, fun l hl => ?_⟩
    have hget := leafAt_eq hl
    cases t with
    | nil => cases hr
    | leaf y =>
      obtain rfl : y.cell = a := Option.some.inj hr
      have hy : m.get y.cell = some (.leaf ⟨y.data, y.key, parent, val⟩) := h
      rw [hy, Option.some.injEq, PatriciaElem.leaf.injEq] at hget
      rw [← hget]
      exact List.mem_singleton_self y
    | node b n down =>
      obtain rfl : b = a := Option.some.inj hr
      rw [h.1] at hget
      cases hget
  | @child a c x n i hn hc _ ih =>
    have hget := nodeAt_eq hn
    cases t with
    | nil => cases hr
    | leaf y =>
      obtain rfl : y.cell = a := Option.some.inj hr
      have hy : m.get y.cell = some (.leaf ⟨y.data, y.key, parent, val⟩) := h
      rw [hy] at hget
      cases hget
    | node b n' down =>
      obtain rfl : b = a := Option.some.inj hr
      rw [h.1, Option.some.injEq, PatriciaElem.node.injEq] at hget
      subst hget
      obtain ⟨hcells, hleaves⟩ := ih (h.2 i) hc
      exact ⟨mem_cells_node.2 (Or.inr ⟨i, hcells⟩),
        fun l hl => Trie.mem_leaves_node.2 ⟨i, hleaves l hl⟩⟩

/-- And the cells of a trie hang below its root. -/
theorem Repr.below_of_mem {parent : Option Addr} {val : ℕ} {r x : Addr} (h : Repr m t parent val)
    (hr : t.root? = some r) (hx : x ∈ t.cells) : Below m r x := by
  induction t generalizing parent val r with
  | nil => cases hr
  | leaf y =>
    rw [Trie.cells, Multiset.mem_singleton] at hx
    obtain rfl : y.cell = r := Option.some.inj hr
    rw [hx]
    exact .refl _
  | node a n down ih =>
    obtain rfl : a = r := Option.some.inj hr
    rcases mem_cells_node.1 hx with rfl | ⟨i, hi⟩
    · exact .refl _
    · obtain ⟨c, hc⟩ : ∃ c, (down i).root? = some c := by
        refine Option.ne_none_iff_exists'.1 fun h0 => ?_
        rw [root?_eq_none.1 h0] at hi
        simp [Trie.cells] at hi
      exact .child (by rw [nodeAt, h.1]) hc (ih i (h.2 i) hc hi)

/-- **A node of the tree, as a node of the trie**: at a place of it, well
formed, with its own cells. -/
theorem Inv.node {a : Addr} {n : PatriciaNode} (h : Inv d t) (hn : nodeAt d.mem a = some n) :
    ∃ down : Fin 16 → PTrie D, (Trie.node a n.nibnum down).WF nibbleVal ∧
      (n.down = fun i => (down i).root?) ∧
      Repr d.mem (.node a n.nibnum down) n.parent n.parentVal := by
  have hget := nodeAt_eq hn
  obtain ⟨c, s, rfl, hs⟩ := exists_plug_of_mem_cells ((h.live a).1 (Store.mem_live.2 ⟨_, hget⟩))
  have hrepr := h.repr_at
  have hwf := Trie.WF.of_plug h.wf
  cases s with
  | nil => cases hs
  | leaf y =>
    obtain rfl : y.cell = a := Option.some.inj hs
    have hy : d.mem.get y.cell = some (.leaf ⟨y.data, y.key, above c, slotOf c⟩) := hrepr
    rw [hy] at hget
    cases hget
  | node b n' down =>
    obtain rfl : b = a := Option.some.inj hs
    have hnode := hrepr.1
    rw [hget, Option.some.injEq, PatriciaElem.node.injEq] at hnode
    subst hnode
    exact ⟨down, hwf, rfl, hrepr⟩

/-- The leaf cells are those of the leaves of the trie. -/
theorem Inv.card_leaves (h : Inv d t) :
    (d.mem.live.filter fun a => (leafAt d.mem a).isSome).card = t.leaves.length := by
  have hcells : (t.leaves.map Item.cell).Nodup :=
    List.pairwise_map.2 (h.pairwise.imp fun hlt => hlt.2.2)
  have heq : (d.mem.live.filter fun a => (leafAt d.mem a).isSome) =
      (t.leaves.map Item.cell).toFinset := by
    ext a
    simp only [Finset.mem_filter, List.mem_toFinset, List.mem_map]
    constructor
    · rintro ⟨-, hl⟩
      obtain ⟨l, hl⟩ := Option.isSome_iff_exists.1 hl
      exact h.exists_leaf hl
    · rintro ⟨x, hx, rfl⟩
      obtain ⟨p, v, hleaf⟩ := h.repr.leafAt hx
      exact ⟨(h.live _).2 (mem_cells_leaf hx), by rw [hleaf]; rfl⟩
  rw [heq, List.toFinset_card_of_nodup hcells, List.length_map]

/-- **The cells of a tree that meets the invariant are linked as they
should be.** -/
theorem Inv.linked (h : Inv d t) (hlen : t.leaves.length < 2 ^ 32) : Linked d where
  root_parent r hr := by
    obtain ⟨e, he, hp, -⟩ := h.repr.root_parent (h.root.symm.trans hr)
    exact ⟨e, he, hp⟩
  child_parent a n i c hn hc := by
    obtain ⟨down, -, hdown, hrepr⟩ := h.node hn
    rw [hdown] at hc
    exact (hrepr.2 i).root_parent hc
  parent_child c e a he hp := by
    obtain ⟨ctx, s, rfl, hs⟩ := exists_plug_of_mem_cells ((h.live c).1 (Store.mem_live.2 ⟨e, he⟩))
    obtain ⟨e', he', hparent, hval⟩ := h.repr_at.root_parent hs
    obtain rfl : e = e' := Option.some.inj (he.symm.trans he')
    rcases ctx with - | ⟨f, ctx⟩
    · rw [hp] at hparent; cases hparent
    · obtain rfl : f.cell = a := Option.some.inj (hparent.symm.trans hp)
      exact ⟨_, h.ctxRepr.nodeAt, f.slot, hval, by simp [hs]⟩
  nibnum_lt a n i c n' hn hc hn' := by
    obtain ⟨down, hwf, hdown, hrepr⟩ := h.node hn
    rw [hdown] at hc
    exact (hrepr.2 i).lt_nibnum hc (hwf.1.above i) (nodeAt_eq hn')
  two_children a n hn := by
    obtain ⟨down, hwf, hdown, -⟩ := h.node hn
    obtain ⟨i, j, hij, hi, hj⟩ := hwf.1.two
    refine ⟨i, j, hij, ?_, ?_⟩
    · rw [hdown, Option.isSome_iff_ne_none]; exact fun h0 => hi (root?_eq_none.1 h0)
    · rw [hdown, Option.isSome_iff_ne_none]; exact fun h0 => hj (root?_eq_none.1 h0)
  agree a n x y l l' hn hx hy hl hl' := by
    obtain ⟨down, hwf, -, hrepr⟩ := h.node hn
    obtain ⟨i, hi⟩ := Trie.mem_leaves_node.1 ((hrepr.below rfl hx).2 l hl)
    obtain ⟨j, hj⟩ := Trie.mem_leaves_node.1 ((hrepr.below rfl hy).2 l' hl')
    exact hwf.1.agree i j _ hi _ hj
  filed a n i c x l hn hc hx hl := by
    obtain ⟨down, hwf, hdown, hrepr⟩ := h.node hn
    rw [hdown] at hc
    exact hwf.1.filed i _ (((hrepr.2 i).below hc hx).2 l hl)
  reach a ha := by
    have hcell := (h.live a).1 ha
    obtain ⟨r, hr⟩ : ∃ r, t.root? = some r := by
      refine Option.ne_none_iff_exists'.1 fun h0 => ?_
      rw [root?_eq_none.1 h0] at hcell
      simp [Trie.cells] at hcell
    exact ⟨r, h.root.trans hr, h.repr.below_of_mem hr hcell⟩
  count := by rw [h.card_leaves, h.count, UInt32.toNat_ofNat_of_lt' hlen]

variable {A : Allocator (PatriciaElem D)} {cb : Option (CString → CString)}

/-- **After any calls the tree is linked as it should be**: no assertion
has failed, those of `stats_recurse` would not, `clear` would leave the
tree empty, and the next call would be answered. -/
theorem runs_linked (hA : A.NeverFails) (hcb : Canonizes cb) {tr : List (Op D σ × Out D)}
    (h : Runs A cb (fun d op => op.Valid d ∧ op.Fits d) tr d) :
    Linked d ∧ (∀ exp, .softAssert exp ∉ d.log) ∧
      (∀ r log, d.root = some r →
        ∃ sum max, Patricia.statsRecurse d.mem d.fuel r 0 0 log = some (sum, max, log)) ∧
      (∀ (destroyCb : Option (CString → D → σ → σ)) (s : σ), ∃ d' s',
        d.clear destroyCb s = some (d', s') ∧ Linked d' ∧ d'.root = none ∧ d'.mem.live = ∅ ∧
          d'.count = 0 ∧ ∀ exp, .softAssert exp ∉ d'.log) ∧
      ∀ op : Op D σ, op.Valid d → op.Fits d → (op.run A d).isSome := by
  obtain ⟨M, -, hd⟩ := h.is hA hcb
  obtain ⟨t, hinv, -, hlen, -⟩ := hd.lists
  refine ⟨hinv.linked hlen, hd.quiet, fun r log hr => ?_, fun destroyCb s => ?_,
    fun op hv hf => ?_⟩
  · have hfuel := hinv.lt_fuel
    exact hinv.repr.statsRecurse hinv.wf (hinv.root.symm.trans hr) (fun _ => rfl) (by omega)
  · obtain ⟨d', s', hrun, hd'⟩ := hd.clear hcb destroyCb s
    obtain ⟨t', hinv', -, hlen', hlists⟩ := hd'.lists
    have hnil : t' = .nil := by
      refine (Trie.leaves_eq_nil hinv'.wf).1 (List.eq_nil_iff_forall_not_mem.2 fun x hx => ?_)
      have hx' := hlists.lookup hx
      rw [Finmap.lookup_empty] at hx'
      cases hx'
    subst hnil
    refine ⟨d', s', hrun, hinv'.linked hlen', hinv'.root, ?_, hinv'.count, hd'.quiet⟩
    exact Finset.eq_empty_of_forall_notMem fun a ha => by simpa [Trie.cells] using (hinv'.live a).1 ha
  · obtain ⟨out, d', M', hrun, -, -⟩ := hd.step hA hcb hv hf
    rw [hrun]
    rfl

theorem runs_linked_two : ∃ d : Patricia Unit,
    Runs (σ := Unit) Allocator.bump none (fun d op => op.Valid d ∧ op.Fits d)
      [(.add keyA (), .bool true), (.add keyB (), .bool true)] d ∧ Linked d := by
  obtain ⟨d, -, hd⟩ := exists_runs_twoKeys
  exact ⟨d, hd, (runs_linked Allocator.bump_neverFails canonizes_none hd).1⟩

/-- **A key of 2^31 bytes breaks the links**: an assertion fails, the count
is off, and the leaf of "b" names a slot that holds another. -/
theorem longKey_breaks_links : ∃ (tr : List (Op Unit Unit × Out Unit)) (d : Patricia Unit),
    Runs Allocator.bump none (fun d op => op.Valid d) tr d ∧ ¬ Linked d ∧
      .softAssert "*place1 == NULL" ∈ d.log := by
  obtain ⟨hlen, h0, -⟩ := keyBs_wraps
  obtain ⟨d₁, d₂, hrun₁, hrun₂, h⟩ := exists_twoKeys
  obtain ⟨-, hnode, hleaf, -⟩ := h.get_overwritten (keyBs 2147483648)
  refine ⟨_, _, h.runs_overwritten hrun₁ hrun₂ hlen h0, fun hl => ?_, List.mem_singleton_self _⟩
  obtain ⟨n, hn, i, hi, hdown⟩ := hl.parent_child 3 _ 2 hleaf rfl
  rw [nodeAt, hnode, Option.some.injEq] at hn
  subst hn
  revert hi hdown
  revert i
  decide

end Patricia

end Mowgli
