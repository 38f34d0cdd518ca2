import Mowgli.Container.Patricia.Delete
/-!
# Traversing a patricia tree

The loop `foreach` and `foreach_next` share goes through the leaves from a
slot of a node on. `Spot` is where it is, `todo` the leaves it has still
to come to and `turns` a bound on the turns it takes: two for each cell
ahead and one for each node it has still to leave. On the cells of a trie
the loop visits exactly `todo`, in order, and ends.
-/

namespace Mowgli

namespace Patricia

variable {D σ ρ : Type} {m : Store (PatriciaElem D)} {d : Patricia D} {t : PTrie D}

/-- The subtrees of a node from slot `v` on. -/
def rest (down : Fin 16 → PTrie D) (v : ℕ) : List (PTrie D) := ((List.finRange 16).drop v).map down

theorem rest_eq_cons (down : Fin 16 → PTrie D) {v : ℕ} (h : v < 16) :
    rest down v = down ⟨v, h⟩ :: rest down (v + 1) := by
  rw [rest, List.drop_eq_getElem_cons (by simpa using h), List.map_cons, rest]
  simp

theorem rest_of_le (down : Fin 16 → PTrie D) {v : ℕ} (h : 16 ≤ v) : rest down v = [] := by
  rw [rest, List.drop_eq_nil_of_le (by simpa using h), List.map_nil]

/-- What is past the place does not depend on what is there. -/
theorem rest_downWith (f : Frame Addr CString D 16) (t : PTrie D) :
    rest (f.downWith t) (f.slot + 1) = rest f.down (f.slot + 1) := by
  refine List.map_congr_left fun i hi => f.downWith_of_ne t ?_
  rintro rfl
  obtain ⟨j, hj, heq⟩ := List.mem_iff_getElem.1 hi
  have := congrArg Fin.val heq
  rw [List.getElem_drop, List.getElem_finRange] at this
  simp at this
  omega

/-- Two turns for each cell in the subtrees from slot `v` on. -/
def work (down : Fin 16 → PTrie D) (v : ℕ) : ℕ :=
  ((rest down v).map fun t => 2 * t.cells.card).sum

/-- The first loop of a turn: the next subtree that is present. -/
theorem nextChild_cases (down : Fin 16 → PTrie D) {v : ℕ} (h : v < 16) :
    (nextChild (fun i => (down i).root?) v = some (none, 16) ∧ ∀ t ∈ rest down v, t = .nil) ∨
      ∃ (i : Fin 16) (p : Addr) (l : List (PTrie D)), (down i).root? = some p ∧
        nextChild (fun i => (down i).root?) v = some (some p, (i : ℕ) + 1) ∧
        rest down v = l ++ down i :: rest down ((i : ℕ) + 1) ∧ ∀ t ∈ l, t = .nil := by
  induction hk : 15 - v generalizing v with
  | zero =>
    obtain rfl : v = 15 := by omega
    rw [nextChild, dif_pos (by decide), rest_eq_cons down h, rest_of_le down le_rfl]
    cases hp : (down ⟨15, h⟩).root? with
    | none => exact Or.inl ⟨rfl, by simpa using root?_eq_none.1 hp⟩
    | some p => exact Or.inr ⟨⟨15, h⟩, p, [], hp, rfl, by rw [rest_of_le down le_rfl]; rfl, by simp⟩
  | succ k ih =>
    rw [nextChild, dif_pos (show v < POINTERS_PER_NODE from h), rest_eq_cons down h]
    cases hp : (down ⟨v, h⟩).root? with
    | some p => exact Or.inr ⟨⟨v, h⟩, p, [], hp, rfl, rfl, by simp⟩
    | none =>
      have hlt : v + 1 < POINTERS_PER_NODE := by rw [POINTERS_PER_NODE]; omega
      have hnil := root?_eq_none.1 hp
      simp only [if_pos hlt]
      rcases ih (v := v + 1) hlt (by omega) with ⟨hrun, hall⟩ | ⟨i, p, l, hi, hrun, hl, hall⟩
      · exact Or.inl ⟨hrun, by simpa [hnil] using hall⟩
      · exact Or.inr ⟨i, p, down ⟨v, h⟩ :: l, hi, hrun, by rw [hl]; rfl, by simpa [hnil] using hall⟩

/-- Where the traversal is: at a node, with the slot to look at next. -/
structure Spot (D : Type) where
  /-- The nodes above. -/
  ctx : PCtx D
  /-- The cell of the node. -/
  cell : Addr
  /-- The position it tests. -/
  pos : ℕ
  /-- Its subtrees. -/
  down : Fin 16 → PTrie D
  /-- The next slot. -/
  val : ℕ

namespace Spot

/-- The node itself. -/
def node (p : Spot D) : PTrie D := .node p.cell p.pos p.down

/-- The spot is one of the tree in these cells. -/
structure At (m : Store (PatriciaElem D)) (p : Spot D) : Prop where
  ctx : CtxRepr m p.ctx (some p.cell)
  node : Repr m p.node (above p.ctx) (slotOf p.ctx)

/-- The leaves still to come to. -/
def todo (p : Spot D) : List (Item Addr CString D) :=
  (rest p.down p.val).flatMap Trie.leaves ++ Trie.after p.ctx

/-- More turns than are left. -/
def turns (p : Spot D) : ℕ :=
  1 + work p.down p.val + (p.ctx.map fun f => 1 + work f.down (f.slot + 1)).sum

/-- The spot up from the last slot of a node. -/
def up (f : Frame Addr CString D 16) (c : PCtx D) (t : PTrie D) : Spot D :=
  ⟨c, f.cell, f.pos, f.downWith t, f.slot + 1⟩

theorem nodeAt {p : Spot D} (h : p.At m) : Patricia.nodeAt m p.cell =
    some ⟨p.pos, fun i => (p.down i).root?, above p.ctx, slotOf p.ctx⟩ := by
  rw [Patricia.nodeAt, h.node.1]

theorem todo_up (f : Frame Addr CString D 16) (c : PCtx D) (t : PTrie D) :
    (up f c t).todo = Trie.after (f :: c) := by
  rw [todo, up, rest_downWith, rest, List.flatMap_map]
  rfl

theorem turns_up (p : Spot D) {f : Frame Addr CString D 16} {c : PCtx D} (hctx : p.ctx = f :: c)
    (hval : 16 ≤ p.val) : (up f c p.node).turns + 1 = p.turns := by
  simp only [turns, up, work, rest_downWith, rest_of_le p.down hval, hctx, List.map_cons,
    List.sum_cons, List.map_nil, List.sum_nil]
  omega

theorem At.up {p : Spot D} (h : p.At m) {f : Frame Addr CString D 16} {c : PCtx D}
    (hctx : p.ctx = f :: c) : (Spot.up f c p.node).At m := by
  have hrepr : CtxRepr m (f :: c) p.node.root? ∧ Repr m p.node (above (f :: c)) (slotOf (f :: c)) :=
    ⟨hctx ▸ h.ctx, hctx ▸ h.node⟩
  rw [← repr_plug, Trie.plug_cons, repr_plug] at hrepr
  exact ⟨hrepr.1, hrepr.2⟩

theorem length_lt_turns (p : Spot D) : p.ctx.length < p.turns := by
  have key : ∀ c : PCtx D, c.length ≤ (c.map fun f => 1 + work f.down (f.slot + 1)).sum := by
    intro c
    induction c with
    | nil => exact le_rfl
    | cons f c ih => simp only [List.length_cons, List.map_cons, List.sum_cons]; omega
  have := key p.ctx
  rw [turns]
  omega

end Spot

/-- **The last loop of a turn** leaves the nodes whose slots are all done,
and comes to a spot with the same leaves ahead or out of the tree. -/
theorem ascend_cases {p : Spot D} {fuel : ℕ} (h : p.At m) (hval : p.val ≤ 16)
    (hfuel : p.ctx.length < fuel) :
    (∃ w, ascend m fuel p.cell p.val = some (none, w) ∧ p.todo = []) ∨
      ∃ q : Spot D, ascend m fuel p.cell p.val = some (some q.cell, q.val) ∧ q.val < 16 ∧ q.At m ∧
        q.todo = p.todo ∧ q.turns ≤ p.turns ∧ (p.val = 16 → q.turns < p.turns) := by
  induction fuel generalizing p with
  | zero => omega
  | succ fuel ih =>
    rw [ascend, POINTERS_PER_NODE]
    rcases Nat.lt_or_ge p.val 16 with hlt | hge
    · rw [if_neg (by omega)]
      exact Or.inr ⟨p, rfl, hlt, h, rfl, le_rfl, by omega⟩
    · rw [if_pos hge, p.nodeAt h]
      rcases hctx : p.ctx with - | ⟨f, c⟩
      · refine Or.inl ⟨_, rfl, ?_⟩
        rw [Spot.todo, rest_of_le _ hge, hctx]
        rfl
      · have hturns := p.turns_up hctx hge
        have htodo : (Spot.up f c p.node).todo = p.todo := by
          rw [Spot.todo_up, Spot.todo, rest_of_le _ hge, hctx]
          rfl
        have hlen : c.length < fuel := by rw [hctx, List.length_cons] at hfuel; omega
        rcases ih (p := Spot.up f c p.node) (h.up hctx) f.slot.isLt hlen with
          ⟨w, hw, hnil⟩ | ⟨q, hq, hqv, hqa, hqt, hqle, -⟩
        · exact Or.inl ⟨w, hw, htodo ▸ hnil⟩
        · exact Or.inr ⟨q, hq, hqv, hqa, hqt.trans htodo, by omega, fun _ => by omega⟩

/-- What a traversal makes of a list of leaves. -/
def visitAll (visit : Addr → PatriciaLeaf D → σ → σ ⊕ ρ) : List (Item Addr CString D) → σ → σ ⊕ ρ
  | [], s => .inl s
  | x :: l, s =>
    match visit x.cell ⟨x.data, x.key, none, 0⟩ s with
    | .inl s => visitAll visit l s
    | .inr r => .inr r

/-- **The traversal visits exactly the leaves ahead, in order, and ends.** -/
theorem walk_eq (visit : Addr → PatriciaLeaf D → σ → σ ⊕ ρ)
    (hvisit : ∀ a l s, visit a l s = visit a ⟨l.data, l.key, none, 0⟩ s) {p : Spot D} {fuel : ℕ}
    {s : σ} (h : p.At m) (hval : p.val < 16) (hfuel : p.turns < fuel) :
    walk m visit fuel (some p.cell) p.val s = some (visitAll visit p.todo s) := by
  induction fuel generalizing p s with
  | zero => omega
  | succ fuel ih =>
    have hlen := p.length_lt_turns
    -- after the slots up to `v` are done, the rest is one more turn or none
    have hnext : ∀ (v : ℕ) (s : σ), v ≤ 16 → p.turns ≤ fuel →
        ({ p with val := v } : Spot D).turns ≤ p.turns →
        (v = 16 ∨ ({ p with val := v } : Spot D).turns < p.turns) →
        ((ascend m fuel p.cell v).bind fun up => walk m visit fuel up.1 up.2 s) =
          some (visitAll visit ({ p with val := v } : Spot D).todo s) := by
      intro v s hv hpf hle hlt
      have hat : ({ p with val := v } : Spot D).At m := ⟨h.ctx, h.node⟩
      rcases ascend_cases hat hv (show p.ctx.length < fuel by omega) with
        ⟨w, hw, hnil⟩ | ⟨q, hq, hqv, hqa, hqt, hqle, hqlt⟩
      · simp only at hw
        rw [hw, hnil]
        obtain ⟨fuel, rfl⟩ : ∃ n, fuel = n + 1 := ⟨fuel - 1, by omega⟩
        rfl
      · simp only at hq
        rw [hq, ← hqt]
        refine ih hqa hqv ?_
        rcases hlt with rfl | hlt
        · have := hqlt rfl
          omega
        · omega
    have hturns : ∀ v, ({ p with val := v } : Spot D).turns + work p.down p.val =
        p.turns + work p.down v := by
      intro v
      simp only [Spot.turns]
      omega
    rw [walk]
    simp only [p.nodeAt h, Option.bind_eq_bind, Option.bind_some]
    rcases nextChild_cases p.down hval with ⟨hrun, hall⟩ | ⟨i, b, l, hb, hrun, hl, hall⟩
    · -- no subtree is left
      simp only [hrun, Option.bind_some]
      have hnil : (rest p.down p.val).flatMap Trie.leaves = [] :=
        List.flatMap_eq_nil_iff.2 fun t ht => by rw [hall t ht]; rfl
      have hzero : work p.down 16 = 0 := by rw [work, rest_of_le _ le_rfl]; rfl
      have ht := hturns 16
      have hgo := hnext 16 s le_rfl (by omega) (by omega) (Or.inl rfl)
      simp only [Spot.todo, rest_of_le _ le_rfl] at hgo
      rw [Spot.todo, hnil]
      exact hgo
    · simp only [hrun, Option.bind_some]
      have hnil : l.flatMap Trie.leaves = [] :=
        List.flatMap_eq_nil_iff.2 fun t ht => by rw [hall t ht]; rfl
      have htodo : p.todo = (p.down i).leaves ++ ((rest p.down (i + 1)).flatMap Trie.leaves ++
          Trie.after p.ctx) := by
        rw [Spot.todo, hl, List.flatMap_append, hnil, List.flatMap_cons, List.nil_append,
          List.append_assoc]
      have hwork : 2 * (p.down i).cells.card + work p.down (i + 1) ≤ work p.down p.val := by
        rw [work, work, hl, List.map_append, List.sum_append, List.map_cons, List.sum_cons]
        omega
      have ht := hturns (i + 1)
      have hrepr := h.node.2 i
      rcases hsub : p.down i with - | x | ⟨a, n, down⟩
      · rw [hsub] at hb; cases hb
      · rw [hsub] at hb hrepr htodo hwork
        obtain rfl : x.cell = b := Option.some.inj hb
        have hx : m.get x.cell = some (.leaf ⟨x.data, x.key, some p.cell, i⟩) := hrepr
        simp only [Trie.cells, Multiset.card_singleton] at hwork
        rw [htodo, Trie.leaves_leaf, List.singleton_append, visitAll]
        simp only [hx]
        rw [hvisit]
        cases visit x.cell ⟨x.data, x.key, none, 0⟩ s with
        | inr r => rfl
        | inl s => exact hnext (i + 1) s i.isLt (by omega) (by omega) (Or.inr (by omega))
      · rw [hsub] at hb hrepr htodo hwork
        obtain rfl : a = b := Option.some.inj hb
        simp only [hrepr.1]
        set q : Spot D := ⟨⟨p.cell, p.pos, p.down, i⟩ :: p.ctx, a, n, down, 0⟩ with hq
        have hqa : q.At m := by
          have hplug : CtxRepr m p.ctx p.node.root? ∧ Repr m p.node (above p.ctx) (slotOf p.ctx) :=
            ⟨h.ctx, h.node⟩
          have hmk := Trie.fill_mk p.cell p.pos p.down i
          rw [← repr_plug, Spot.node, ← hmk, ← Trie.plug_cons, repr_plug] at hplug
          rw [hsub] at hplug
          exact ⟨hplug.1, hplug.2⟩
        have hqt : q.todo = p.todo := by
          rw [htodo, Trie.leaves, hq, Spot.todo, Trie.after, List.flatMap_cons, Frame.after, rest,
            List.flatMap_map, List.drop_zero, rest, List.flatMap_map]
          rfl
        rw [← hqt]
        refine ih hqa (Nat.zero_lt_succ _) ?_
        have hcard : (Trie.node a n down).cells.card = 1 + ∑ j, (down j).cells.card := by
          rw [Trie.cells, Multiset.card_cons, Multiset.card_sum]; omega
        have hwork0 : work down 0 = 2 * ∑ j, (down j).cells.card := by
          rw [work, rest, List.drop_zero, List.map_map, ← List.ofFn_eq_map, List.sum_ofFn,
            Finset.mul_sum]
          rfl
        have hpt : p.turns = 1 + work p.down p.val +
            (p.ctx.map fun f => 1 + work f.down (f.slot + 1)).sum := rfl
        have hqturns : q.turns = 1 + work down 0 + (1 + work p.down (i + 1) +
            (p.ctx.map fun f => 1 + work f.down (f.slot + 1)).sum) := rfl
        omega

end Patricia

end Mowgli
