import Mowgli.Container.Patricia.Add
/-!
# Deleting from a patricia tree

`elem_delete` empties the slot of the leaf, and when one subtree is left
in the node above it puts that subtree in the node's place. Whatever leaf
it is given, the other leaves stay, in the same cells and in the same
order, and no assertion fails.
-/

namespace Mowgli

namespace Patricia

variable {D : Type} {m : Store (PatriciaElem D)} {d : Patricia D} {t : PTrie D} {c : PCtx D}

/-- **What the loop over the slots finds out**: how many are in use, and
which one if it is one. -/
theorem usedSlot_cases (down : Fin 16 → Option Addr) :
    (usedSlot down = -1 ∧ ∀ i, down i = none) ∨
      (∃ j : Fin 16, usedSlot down = (j : ℕ) ∧ (down j).isSome ∧ ∀ i, i ≠ j → down i = none) ∨
      (usedSlot down = -2 ∧ ∃ i j, i ≠ j ∧ (down i).isSome ∧ (down j).isSome) := by
  set step : ℤ → Fin 16 → ℤ :=
    fun used i => if (down i).isSome then (if used = -1 then (i : ℤ) else -2) else used with hstep
  -- the same about the slots passed so far
  have key : ∀ l : List (Fin 16), l.Nodup →
      (l.foldl step (-1) = -1 ∧ ∀ i ∈ l, down i = none) ∨
        (∃ j ∈ l, l.foldl step (-1) = (j : ℕ) ∧ (down j).isSome ∧
          ∀ i ∈ l, i ≠ j → down i = none) ∨
        (l.foldl step (-1) = -2 ∧ ∃ i j, i ≠ j ∧ (down i).isSome ∧ (down j).isSome) := by
    intro l
    induction l using List.reverseRecOn with
    | nil => exact fun _ => Or.inl ⟨rfl, by simp⟩
    | append_singleton l k ih =>
      intro hnd
      obtain ⟨hl, -, hdisj⟩ := List.nodup_append.1 hnd
      have hk : k ∉ l := fun hmem => hdisj k hmem k (List.mem_singleton_self k) rfl
      rw [List.foldl_append, List.foldl_cons, List.foldl_nil]
      by_cases hsome : (down k).isSome
      · rcases ih hl with ⟨hv, hnone⟩ | ⟨j, hj, hv, hjsome, -⟩ | ⟨hv, htwo⟩
        · refine Or.inr (Or.inl ⟨k, by simp, ?_, hsome, fun i hi hik => ?_⟩)
          · rw [hv]; simp only [hstep, hsome, if_true]
          · rcases List.mem_append.1 hi with hi | hi
            · exact hnone i hi
            · exact absurd (List.mem_singleton.1 hi) hik
        · have hne : ((j : ℕ) : ℤ) ≠ -1 := by omega
          refine Or.inr (Or.inr ⟨?_, j, k, fun h => hk (h ▸ hj), hjsome, hsome⟩)
          rw [hv]; simp only [hstep, hsome, if_true, if_neg hne]
        · refine Or.inr (Or.inr ⟨?_, htwo⟩)
          rw [hv]; simp [hstep, hsome]
      · have hkeep : step (l.foldl step (-1)) k = l.foldl step (-1) := by simp [hstep, hsome]
        have hnone : down k = none := by simpa using hsome
        rw [hkeep]
        rcases ih hl with ⟨hv, hall⟩ | ⟨j, hj, hv, hjsome, hall⟩ | htwo
        · refine Or.inl ⟨hv, fun i hi => ?_⟩
          rcases List.mem_append.1 hi with hi | hi
          · exact hall i hi
          · rwa [List.mem_singleton.1 hi]
        · refine Or.inr (Or.inl ⟨j, by simp [hj], hv, hjsome, fun i hi hij => ?_⟩)
          rcases List.mem_append.1 hi with hi | hi
          · exact hall i hi hij
          · rwa [List.mem_singleton.1 hi]
        · exact Or.inr (Or.inr htwo)
  rcases key _ (List.nodup_finRange 16) with ⟨hv, hall⟩ | ⟨j, -, hv, hsome, hall⟩ | htwo
  · exact Or.inl ⟨hv, fun i => hall i (List.mem_finRange i)⟩
  · exact Or.inr (Or.inl ⟨j, hv, hsome, fun i => hall i (List.mem_finRange i)⟩)
  · exact Or.inr (Or.inr htwo)

/-- The place of a leaf does not miss the leaf's cell. -/
theorem Holds.ctxRepr_free {x : Item Addr CString D} (h : Holds d (.plug c (.leaf x))) :
    CtxRepr (d.mem.free x.cell) c (some x.cell) := by
  have hx : x.cell ∉ Trie.beside c := fun hm =>
    Multiset.disjoint_left.1 (Multiset.nodup_add.1 h.nodup_plug).2.2 hm (by simp [Trie.cells])
  exact h.ctxRepr.congr fun a ha => Store.get_free_of_ne _ (ne_of_mem_of_not_mem ha hx)

/-- **Emptying a slot** that holds a leaf. -/
theorem Holds.emptySlot {f : Frame Addr CString D 16} {x : Item Addr CString D}
    (h : Holds d (.plug (f :: c) (.leaf x))) :
    Holds { d with mem := relink (d.mem.free x.cell) (f :: c) none } (.plug (f :: c) .nil) := by
  have hnd := h.nodup_plug
  have hx : x.cell ∉ Trie.beside (f :: c) := fun hm =>
    Multiset.disjoint_left.1 (Multiset.nodup_add.1 hnd).2.2 hm (by simp [Trie.cells])
  have hctx := h.ctxRepr_free
  refine ⟨?_, repr_plug.2 ⟨hctx.relink (Multiset.nodup_add.1 hnd).1 none, trivial⟩, fun a => ?_, ?_⟩
  · exact h.root.trans (root?_plug_cons f _ _)
  · simp only [hctx.mem_live_relink, Store.mem_live_free, h.mem_live, Trie.cells_plug]
    simp only [Trie.cells, Multiset.mem_singleton, add_zero]
    refine ⟨fun hm => hm.2.resolve_right hm.1, fun hm => ⟨fun h0 => hx (h0 ▸ hm), Or.inl hm⟩⟩
  · rw [Trie.cells_plug, Trie.cells, add_zero]
    exact (Multiset.nodup_add.1 hnd).1

/-- **A node with one subtree left gives its place to it**, as `elem_delete`
does: the slot above takes the subtree, the subtree takes the node's
parent and slot, and the node is freed. -/
theorem Holds.collapse {f : Frame Addr CString D 16} (h : Holds d (.plug (f :: c) .nil))
    {j : Fin 16} (hj : j ≠ f.slot) (honly : ∀ i, i ≠ f.slot → i ≠ j → f.down i = .nil) {b : Addr}
    (hb : (f.down j).root? = some b) {e : PatriciaElem D} (he : d.mem.get b = some e) :
    Holds { d with
      mem := ((relink d.mem c (some b)).set b (e.setParent (above c) (slotOf c))).free f.cell
      root := if c = [] then some b else d.root } (.plug c (f.down j)) := by
  have hcells := (Trie.leaves_of_only hj honly).2
  have hnd := h.nodup_plug
  have hctx := h.ctxRepr.2.2
  have hbeside : Trie.beside (f :: c) = f.cells + Trie.beside c := by
    rw [Trie.beside, List.map_cons, List.sum_cons, Trie.beside]
  rw [Trie.cells, add_zero, hbeside, hcells, Multiset.cons_add, Multiset.nodup_cons] at hnd
  obtain ⟨hf, hnd⟩ := hnd
  rw [Multiset.mem_add] at hf
  have hbj : b ∈ (f.down j).cells := root?_mem_cells hb
  have hbc : b ∉ Trie.beside c := Multiset.disjoint_left.1 (Multiset.nodup_add.1 hnd).2.2 hbj
  have hbf : b ≠ f.cell := fun h0 => hf (Or.inl (h0 ▸ hbj))
  have hrepr : Repr d.mem (f.down j) (some f.cell) j := h.ctxRepr.2.1 j hj
  refine ⟨?_, repr_plug.2 ⟨?_, ?_⟩, fun a => ?_, ?_⟩
  · rw [root?_replug c (f.fill .nil)]
    simp only [h.root, hb]
    rfl
  · rw [hb]
    refine (hctx.relink (Multiset.nodup_add.1 hnd).2.1 (some b)).congr fun a ha => ?_
    rw [Store.get_free_of_ne _ (ne_of_mem_of_not_mem ha fun h0 => hf (Or.inr h0)),
      Store.get_set_of_ne _ _ (ne_of_mem_of_not_mem ha hbc)]
  · refine Repr.reparent hrepr (Multiset.nodup_add.1 hnd).1 hb he ?_ fun a ha hab => ?_
    · rw [Store.get_free_of_ne _ hbf, Store.get_set_self]
    · have hac : a ∉ Trie.beside c := Multiset.disjoint_left.1 (Multiset.nodup_add.1 hnd).2.2 ha
      rw [Store.get_free_of_ne _ (ne_of_mem_of_not_mem ha fun h0 => hf (Or.inl h0)),
        Store.get_set_of_ne _ _ hab, get_relink _ hac]
  · rw [Store.mem_live_free, Store.mem_live_set, hctx.mem_live_relink, h.live, Trie.cells_plug,
      Trie.cells_plug, hbeside, hcells]
    simp only [Trie.cells, add_zero, Multiset.mem_add, Multiset.mem_cons]
    constructor
    · rintro ⟨hne, rfl | (rfl | ha) | ha⟩
      · exact Or.inr hbj
      · exact absurd rfl hne
      · exact Or.inr ha
      · exact Or.inl ha
    · rintro (ha | ha)
      · exact ⟨fun h0 => hf (Or.inr (h0 ▸ ha)), Or.inr (Or.inr ha)⟩
      · exact ⟨fun h0 => hf (Or.inl (h0 ▸ ha)), Or.inr (Or.inl (Or.inr ha))⟩
  · rw [Trie.cells_plug, add_comm]
    exact hnd

/-! ## `elem_delete` -/

/-- What is left to do once the leaf is out: one element less, and an empty
tree if it was the last. -/
theorem Inv.countDown {d' : Patricia D} (h : Holds d' t) (hwf : t.WF nibbleVal)
    (hlen : t.leaves.length + 1 < 2 ^ 32) (hcount : d'.count = UInt32.ofNat (t.leaves.length + 1)) :
    Inv { d' with count := d'.count - 1 } t ∧
      (if d'.count - 1 = 0 then
        { d' with
          count := d'.count - 1
          root := none
          log := softAssert "dict->root == NULL" d'.root.isNone d'.log }
        else { d' with count := d'.count - 1 }) = { d' with count := d'.count - 1 } := by
  have hc : d'.count - 1 = UInt32.ofNat t.leaves.length := by
    rw [hcount, UInt32.ofNat_add]
    exact UInt32.add_sub_cancel ..
  refine ⟨⟨⟨h.root, h.repr, h.live, h.nodup⟩, hwf, hc⟩, ?_⟩
  split_ifs with h0
  · rw [hc] at h0
    have hnil : t.leaves.length = 0 := by
      have := congrArg UInt32.toNat h0
      rwa [UInt32.toNat_ofNat_of_lt' (by rw [UInt32.size]; omega)] at this
    have ht : t = .nil := (Trie.leaves_eq_nil hwf).1 (List.length_eq_zero_iff.1 hnil)
    have hroot : d'.root = none := by rw [h.root, ht]; rfl
    cases d'
    simp only at hroot
    subst hroot
    rfl
  · rfl

/-- **What `elem_delete` does to a leaf of the tree**: that leaf goes, and
nothing else changes but for the cells and the count. -/
theorem Inv.elemDelete (h : Inv d t) {l r : List (Item Addr CString D)} {x : Item Addr CString D}
    (hx : t.leaves = l ++ x :: r) (hlen : t.leaves.length < 2 ^ 32) :
    ∃ d' t', d.elemDelete x.cell = some d' ∧ Inv d' t' ∧ t'.leaves = l ++ r ∧
      d' = { d with mem := d'.mem, root := d'.root, count := d.count - 1 } := by
  obtain ⟨c, rfl, rfl, rfl⟩ := Trie.exists_plug_eq hx
  have hcount := h.count
  have hlen' : (Trie.before c ++ Trie.after c).length + 1 < 2 ^ 32 := by
    rw [hx] at hlen
    simpa [Nat.add_assoc] using hlen
  rw [hx, List.length_append, List.length_cons, ← Nat.add_assoc, ← List.length_append] at hcount
  have hleaf : leafAt d.mem x.cell = some ⟨x.data, x.key, above c, slotOf c⟩ := by
    have hr : d.mem.get x.cell = some (.leaf ⟨x.data, x.key, above c, slotOf c⟩) := h.repr_at
    rw [leafAt, hr]
  rw [Patricia.elemDelete, hleaf]
  -- whatever the cells become, the count goes down by one
  have hfinish : ∀ (d₁ : Patricia D) (t₁ : PTrie D), Holds d₁ t₁ → t₁.WF nibbleVal →
      t₁.leaves = Trie.before c ++ Trie.after c → d₁ = { d with mem := d₁.mem, root := d₁.root } →
      ∃ d' t', (if d₁.count - 1 = 0 then some
          { d₁ with
            count := d₁.count - 1
            root := none
            log := softAssert "dict->root == NULL" d₁.root.isNone d₁.log }
          else some { d₁ with count := d₁.count - 1 }) = some d' ∧ Inv d' t' ∧
        t'.leaves = Trie.before c ++ Trie.after c ∧
        d' = { d with mem := d'.mem, root := d'.root, count := d.count - 1 } := by
    intro d₁ t₁ h₁ hwf hleaves hd₁
    have hdown := Inv.countDown h₁ hwf (by rw [hleaves]; exact hlen')
      (by rw [hleaves, hd₁]; exact hcount)
    refine ⟨_, t₁, ?_, hdown.1, hleaves, by rw [hd₁]⟩
    rw [← hdown.2]
    split_ifs <;> rfl
  rcases c with - | ⟨f, c⟩
  · -- the leaf is the root
    refine hfinish { d with mem := d.mem.free x.cell, root := none } .nil ⟨rfl, trivial, fun a => ?_,
      Multiset.nodup_zero⟩ trivial rfl rfl
    have hlive := h.live a
    simp only [Trie.plug_nil, Trie.cells, Multiset.mem_singleton] at hlive
    simp [Store.mem_live_free, hlive, Trie.cells]
  · have h₁ := h.toHolds.emptySlot
    have hnode := h.toHolds.ctxRepr_free.nodeAt
    have hdown := root?_downWith f (.nil : PTrie D)
    rw [Trie.root?] at hdown
    simp only [above_cons, slotOf_cons, hnode, Option.bind_eq_bind, Option.bind_some,
      setChild_frame, ← relink_cons]
    set m₁ := relink (d.mem.free x.cell) (f :: c) none with hm₁
    set used := usedSlot (Function.update (fun i => (f.down i).root?) f.slot none) with hused
    have hsome : ∀ {i : Fin 16}, (Function.update (fun i => (f.down i).root?) f.slot none i).isSome →
        f.downWith .nil i ≠ .nil := by
      intro i hi h0
      rw [← hdown] at hi
      simp only [h0] at hi
      cases hi
    have hcases := usedSlot_cases (Function.update (fun i => (f.down i).root?) f.slot none)
    rw [← hused] at hcases
    rcases hcases with ⟨-, hall⟩ | ⟨j, hv, hj, honly⟩ | ⟨hv, i, j, hij, hi, hj⟩
    · -- the node had another subtree
      exfalso
      obtain ⟨i, j, hij, hi, hj⟩ := (Trie.WF.of_plug (c := c) h.wf).1.two
      have hnil : ∀ i, i ≠ f.slot → f.downWith (.leaf x) i = .nil := by
        intro i his
        rw [f.downWith_of_ne _ his, ← root?_eq_none, ← Function.update_of_ne his none
          fun i => (f.down i).root?]
        exact hall i
      have his : i = f.slot := not_not.1 fun h0 => hi (hnil i h0)
      have hjs : j = f.slot := not_not.1 fun h0 => hj (hnil j h0)
      exact hij (his.trans hjs.symm)
    · -- one subtree is left and takes the place of the node
      have hjs : j ≠ f.slot := by
        rintro rfl
        rw [Function.update_self] at hj
        cases hj
      rw [Function.update_of_ne hjs] at hj
      obtain ⟨b, hb⟩ := Option.isSome_iff_exists.1 hj
      have honly' : ∀ i, i ≠ f.slot → i ≠ j → f.down i = .nil := by
        intro i his hij
        have := honly i hij
        rwa [Function.update_of_ne his, root?_eq_none] at this
      obtain ⟨e, he⟩ := (h₁.ctxRepr.2.1 j hjs).get_root hb
      have h₂ := h₁.collapse hjs honly' hb he
      have hctx₂ : CtxRepr m₁ c (some f.cell) := h₁.ctxRepr.2.2
      have hbc : b ∉ Trie.beside c := by
        have hnd := (Multiset.nodup_add.1 h₁.nodup_plug).1
        rw [Trie.beside, List.map_cons, List.sum_cons, ← Trie.beside] at hnd
        exact Multiset.disjoint_left.1 (Multiset.nodup_add.1 hnd).2.2
          (mem_frame_cells.2 (Or.inr ⟨j, hjs, root?_mem_cells hb⟩))
      have hne : f.down j ≠ .nil := fun h0 => by rw [h0] at hb; cases hb
      have hleaves : (Trie.plug c (f.down j)).leaves = Trie.before (f :: c) ++ Trie.after (f :: c) := by
        have hfill := Trie.leaves_plug (f :: c) .nil
        rw [Trie.plug_cons, Trie.leaves_plug, Frame.leaves_fill, Trie.leaves_nil, List.append_nil,
          (Trie.leaves_of_only hjs honly').1, List.append_nil, ← Trie.leaves_plug] at hfill
        exact hfill
      have hassert : decide (used = -2 ∨ 0 ≤ used) = true := by simp [hv]
      have hpos : 0 ≤ used := by omega
      have hchild : child ⟨f.pos, Function.update (fun i => (f.down i).root?) f.slot none, above c,
          slotOf c⟩ used.toNat = some (some b) := by
        rw [hv, Int.toNat_natCast, child_slot]
        simp only [Function.update_of_ne hjs, hb]
      have hset : setParent (relink m₁ c (some b)) b (above c) (slotOf c) =
          some ((relink m₁ c (some b)).set b (e.setParent (above c) (slotOf c))) := by
        rw [setParent, get_relink _ hbc, he]
        rfl
      have hfin := hfinish _ _ h₂ (h.wf.plug_only hjs hne) hleaves rfl
      simp only [hassert, softAssert_true, if_pos hpos, hchild, Option.bind_some]
      rcases c with - | ⟨g, c⟩
      · simp only [above_nil]
        rw [show setParent m₁ b none (slotOf []) = _ from hset, Option.bind_some]
        exact hfin
      · simp only [above_cons, slotOf_cons, hctx₂.nodeAt, Option.bind_some, setChild_frame,
          ← relink_cons]
        rw [show setParent _ b (some g.cell) g.slot = _ from hset, Option.bind_some]
        exact hfin
    · -- two subtrees are left, and the node stays
      have hassert : decide (used = -2 ∨ 0 ≤ used) = true := by simp [hv]
      have hneg : ¬ (0 ≤ used) := by omega
      simp only [hassert, softAssert_true, if_neg hneg]
      refine hfinish { d with mem := m₁ } _ h₁ (h.wf.plug_fill_nil hij (hsome hi) (hsome hj)) ?_ rfl
      rw [Trie.leaves_plug, Trie.leaves_nil, List.append_nil]

/-! ## `delete` -/

variable {key : CString}

/-- **Deleting a key that is there** deletes its leaf and returns its data. -/
theorem Inv.delete_of_mem (h : Inv d t) (hcb : KeepsLength d.canonizeCb)
    (hlen : key.length ≤ INT_MAX) {x : Item Addr CString D} (hx : x ∈ t.leaves)
    (hkey : x.key = d.addKey key) :
    d.delete key = (d.elemDelete x.cell).map fun d' => (some x.data, d') := by
  obtain ⟨p, v, hleaf⟩ := h.repr.leafAt hx
  rw [Patricia.delete, h.elemFind_of_mem hcb hlen hx hkey]
  simp only [Option.bind_eq_bind, Option.bind_some, hleaf]
  cases d.elemDelete x.cell <;> rfl

/-- **Deleting a key that is not there** changes nothing. -/
theorem Inv.delete_of_not_mem (h : Inv d t) (hcb : KeepsLength d.canonizeCb)
    (hlen : key.length ≤ INT_MAX) (hno : ∀ x ∈ t.leaves, x.key ≠ d.addKey key) :
    d.delete key = some (none, d) := by
  rw [Patricia.delete, h.elemFind_of_not_mem hcb hlen hno]
  rfl

end Patricia

end Mowgli
