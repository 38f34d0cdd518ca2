import Mowgli.Container.Patricia.Walk
/-!
# Iterating over a patricia tree

`foreach` folds over the leaves, the cursor goes from each leaf to the
next, and the loop of `MOWGLI_PATRICIA_FOREACH` visits each leaf once even
when its body deletes the leaf it is at: the cursor already has the
address of the next one, which stays where it is. `clear` is such a loop.
-/

namespace Mowgli

namespace Patricia

variable {D σ : Type} {m : Store (PatriciaElem D)} {d : Patricia D} {t : PTrie D}

/-! ## The leaves of a tree -/

/-- One cell holds one leaf. -/
theorem Repr.eq_of_cell {parent : Option Addr} {val : ℕ} {x y : Item Addr CString D}
    (h : Repr m t parent val) (hx : x ∈ t.leaves) (hy : y ∈ t.leaves) (hxy : x.cell = y.cell) :
    x = y := by
  obtain ⟨p, v, hlx⟩ := h.leafAt hx
  obtain ⟨p', v', hly⟩ := h.leafAt hy
  rw [hxy, hly, Option.some.injEq, PatriciaLeaf.mk.injEq] at hlx
  exact Item.ext hxy hlx.2.1.symm hlx.1.symm

/-- Every cell of a tree is that of one of its nodes or leaves. -/
theorem Repr.get_cases {parent : Option Addr} {val : ℕ} {a : Addr} (h : Repr m t parent val)
    (ha : a ∈ t.cells) :
    (∃ n, m.get a = some (.node n)) ∨ ∃ x ∈ t.leaves, x.cell = a := by
  induction t generalizing parent val with
  | nil => simp [Trie.cells] at ha
  | leaf x =>
    rw [Trie.cells, Multiset.mem_singleton] at ha
    exact Or.inr ⟨x, by simp, ha.symm⟩
  | node b n down ih =>
    rcases mem_cells_node.1 ha with rfl | ⟨i, hi⟩
    · exact Or.inl ⟨_, h.1⟩
    · rcases ih i (h.2 i) hi with hn | ⟨x, hx, hcell⟩
      · exact Or.inl hn
      · exact Or.inr ⟨x, Trie.mem_leaves_node.2 ⟨i, hx⟩, hcell⟩

/-- A leaf cell is that of a leaf of the trie. -/
theorem Holds.exists_leaf (h : Holds d t) {a : Addr} {l : PatriciaLeaf D}
    (hl : leafAt d.mem a = some l) : ∃ x ∈ t.leaves, x.cell = a := by
  have hlive : a ∈ d.mem.live := by
    rw [Store.mem_live]
    unfold leafAt at hl
    cases hg : d.mem.get a with
    | none => simp [hg] at hl
    | some e => exact ⟨e, rfl⟩
  rcases h.repr.get_cases ((h.live a).1 hlive) with ⟨n, hn⟩ | hx
  · rw [leafAt, hn] at hl; cases hl
  · exact hx

/-- **The leaves come in the order of their keys**, and no two in one cell. -/
theorem Inv.pairwise (h : Inv d t) : t.leaves.Pairwise fun x y =>
    CString.strcmp x.key y.key < 0 ∧ x.key.bytes < y.key.bytes ∧ x.cell ≠ y.cell := by
  refine h.wf.sorted.imp_of_mem fun hx hy hlt => ?_
  have hkeys := lt_of_digLt hlt
  refine ⟨hkeys.1, hkeys.2, fun hcell => ?_⟩
  rw [h.repr.eq_of_cell hx hy hcell] at hkeys
  exact List.lt_irrefl _ hkeys.2

/-- No two leaves have the same key. -/
theorem Inv.nodup_keys (h : Inv d t) : (t.leaves.map Item.key).Nodup :=
  List.pairwise_map.2 <| h.pairwise.imp fun {x y} hlt (hkey : x.key = y.key) =>
    List.lt_irrefl _ (hkey ▸ hlt.2.1)

/-- A tree has no more leaves than cells. -/
theorem length_leaves_le (t : PTrie D) : t.leaves.length ≤ t.cells.card := by
  induction t with
  | nil => exact le_rfl
  | leaf x => simp [Trie.cells]
  | node a n down ih =>
    have hsum : (Trie.node a n down).leaves.length = ∑ i, (down i).leaves.length := by
      rw [Trie.leaves, List.length_flatMap, ← List.ofFn_eq_map, List.sum_ofFn]
    rw [hsum, Trie.cells, Multiset.card_cons, Multiset.card_sum]
    exact Nat.le_succ_of_le (Finset.sum_le_sum fun i _ => ih i)

/-! ## The traversal from a place -/

theorem work_add_two_le (a : Addr) (n : ℕ) (down : Fin 16 → PTrie D) (v : ℕ) :
    work down v + 2 ≤ 2 * (Trie.node a n down).cells.card := by
  have hsub : ((rest down v).map fun t => 2 * t.cells.card).Sublist
      (List.ofFn fun i => 2 * (down i).cells.card) := by
    rw [List.ofFn_eq_map, rest, List.map_map]
    exact (List.drop_sublist v _).map _
  have hle := hsub.sum_le_sum fun _ _ => Nat.zero_le _
  rw [List.sum_ofFn, ← Finset.mul_sum] at hle
  rw [Trie.cells, Multiset.card_cons, Multiset.card_sum, work]
  omega

/-- The turns of a traversal are no more than two for each cell. -/
theorem Spot.turns_lt (p : Spot D) : p.turns < 2 * (Trie.plug p.ctx p.node).cells.card := by
  have hframe : ∀ f : Frame Addr CString D 16, 1 + work f.down (f.slot + 1) ≤ 2 * f.cells.card := by
    intro f
    have hle := work_add_two_le f.cell f.pos (f.downWith .nil) (f.slot + 1)
    have hcells := f.cells_fill .nil
    rw [Frame.fill, Trie.cells, add_zero] at hcells
    rw [work, rest_downWith, hcells, ← work] at hle
    omega
  have hctx : ∀ c : PCtx D,
      (c.map fun f => 1 + work f.down (f.slot + 1)).sum ≤ 2 * (Trie.beside c).card := by
    intro c
    induction c with
    | nil => exact Nat.zero_le _
    | cons f c ih =>
      rw [List.map_cons, List.sum_cons, Trie.beside, List.map_cons, List.sum_cons,
        Multiset.card_add, ← Trie.beside]
      have := hframe f
      omega
  have hnode := work_add_two_le p.cell p.pos p.down p.val
  have hc := hctx p.ctx
  rw [Trie.cells_plug, Multiset.card_add, Spot.turns, Spot.node]
  omega

/-- **`foreach` folds the callback over the leaves**, in their order. It
asks of the cells only that they represent a trie. -/
theorem foreach_eq (hroot : d.root = t.root?) (hrepr : Repr d.mem t none (POINTERS_PER_NODE + 2))
    (hfuel : 2 * t.cells.card ≤ d.fuel) (cb : CString → D → σ → ℤ × σ) (s : σ) :
    d.foreach (some cb) s = some (t.leaves.foldl (fun s x => (cb x.key x.data s).2) s) := by
  have hall : ∀ (l : List (Item Addr CString D)) (s : σ),
      visitAll (ρ := Empty) (fun _ l s => .inl (cb l.key l.data s).2) l s =
        .inl (l.foldl (fun s x => (cb x.key x.data s).2) s) := by
    intro l
    induction l with
    | nil => intro s; rfl
    | cons x l ih => intro s; exact ih _
  rw [Patricia.foreach, hroot]
  cases t with
  | nil => rfl
  | leaf x =>
    have hx : d.mem.get x.cell = some (.leaf ⟨x.data, x.key, none, POINTERS_PER_NODE + 2⟩) := hrepr
    simp only [Trie.root?, Option.bind_eq_bind, Option.bind_some, hx]
    rfl
  | node a n down =>
    have hturns := Spot.turns_lt ⟨[], a, n, down, 0⟩
    simp only [Spot.node, Trie.plug_nil] at hturns
    have hwalk := walk_eq (m := d.mem) (p := ⟨[], a, n, down, 0⟩) (s := s)
      (fun _ l s => (.inl (cb l.key l.data s).2 : σ ⊕ Empty)) (fun _ _ _ => rfl)
      ⟨trivial, hrepr⟩ (Nat.zero_lt_succ _)
      (show (⟨[], a, n, down, 0⟩ : Spot D).turns < d.fuel by omega)
    have htodo : (⟨[], a, n, down, 0⟩ : Spot D).todo = (Trie.node a n down).leaves := by
      rw [Spot.todo, rest, List.drop_zero, List.flatMap_map]
      exact List.append_nil _
    rw [htodo, hall] at hwalk
    simp only [Trie.root?, Option.bind_eq_bind, Option.bind_some, hrepr.1, hwalk]

/-! ## The cursor -/

/-- **The cursor goes to the next leaf.** It has reached `x`, and finds the
leaf after it; what the cursor was at before need not exist any more. -/
theorem Inv.foreachNext (h : Inv d t) {l r : List (Item Addr CString D)} {x : Item Addr CString D}
    (hx : t.leaves = l ++ x :: r) (b : Addr) :
    d.foreachNext ⟨some b, some x.cell⟩ = some (d, ⟨some x.cell, r.head?.map Item.cell⟩) := by
  have hpair := h.pairwise
  rw [hx, List.pairwise_append, List.pairwise_cons] at hpair
  have hafter := hpair.2.1.1
  obtain ⟨c, rfl, -, rfl⟩ := Trie.exists_plug_eq hx
  have hleaf : leafAt d.mem x.cell = some ⟨x.data, x.key, above c, slotOf c⟩ := by
    have hr : d.mem.get x.cell = some (.leaf ⟨x.data, x.key, above c, slotOf c⟩) := h.repr_at
    rw [leafAt, hr]
  set visit : Addr → PatriciaLeaf D → Unit → Unit ⊕ (Addr × CString) :=
    fun c l _ => if c = x.cell then .inl () else .inr (c, l.key) with hvisit
  -- past the leaf itself, the first leaf is the one looked for
  have hfound : walk d.mem visit d.fuel (above c) (slotOf c) () =
      some ((Trie.after c).head?.elim (.inl ()) fun y => .inr (y.cell, y.key)) := by
    rcases c with - | ⟨f, c⟩
    · rfl
    · set p : Spot D := ⟨c, f.cell, f.pos, f.downWith (.leaf x), f.slot⟩ with hp
      have hat : p.At d.mem := by
        have := h.repr
        rw [Trie.plug_cons, repr_plug] at this
        exact ⟨this.1, this.2⟩
      have hturns := p.turns_lt
      have hfuel := h.lt_fuel
      have htodo : p.todo = x :: Trie.after (f :: c) := by
        rw [Spot.todo, hp]
        simp only
        rw [rest_eq_cons _ f.slot.isLt, rest_downWith, List.flatMap_cons, rest, List.flatMap_map]
        simp [Trie.after, Frame.after]
      have hplug : Trie.plug p.ctx p.node = Trie.plug (f :: c) (.leaf x) := rfl
      rw [hplug] at hturns
      have hwalk := walk_eq visit (s := ()) (fun _ _ _ => rfl) hat f.slot.isLt
        (show p.turns < d.fuel by omega)
      rw [htodo, visitAll] at hwalk
      simp only [hvisit, if_true] at hwalk
      rw [above_cons, slotOf_cons, hwalk, Option.some.injEq]
      cases hr : Trie.after (f :: c) with
      | nil => rfl
      | cons y r =>
        have hy := hafter y (by rw [hr]; exact List.mem_cons_self ..)
        simp [visitAll, Ne.symm hy.2.2]
  simp only [Patricia.foreachNext, Option.bind_eq_bind, hleaf, Option.bind_some]
  rw [hfound, Option.bind_some]
  cases hr : Trie.after c with
  | nil => rfl
  | cons y r =>
    have hy := (hafter y (by rw [hr]; exact List.mem_cons_self ..)).1
    have hswap := CString.strcmp_swap x.key y.key
    simp only [List.head?_cons, Option.map_some, Option.elim_some]
    rw [if_neg (by omega)]

/-- The cursor of an iteration that has just begun. -/
theorem Inv.foreachStart (h : Inv d t) :
    d.foreachStart = some (d, match t.leaves with
      | [] => ⟨none, none⟩
      | x :: r => ⟨some x.cell, r.head?.map Item.cell⟩) := by
  rw [Patricia.foreachStart, h.root]
  cases hr : t.root? with
  | none => rw [root?_eq_none.1 hr]; rfl
  | some r =>
    have hfuel := h.lt_fuel
    obtain ⟨x, l, hl, hfirst⟩ := firstLeaf_eq h.repr h.wf hr (show t.cells.card < d.fuel by omega)
    simp only [hfirst, Option.map_some, Option.bind_eq_bind, Option.bind_some, hl]
    exact h.foreachNext (l := []) hl x.cell

/-! ## The loop -/

/-- The leaves that are left of `l` when the loop deletes those `del` says,
its own state going through `step`. -/
def survivors (del : Item Addr CString D → σ → Bool) (step : Item Addr CString D → σ → σ) :
    List (Item Addr CString D) → σ → List (Item Addr CString D)
  | [], _ => []
  | x :: l, s => if del x s then survivors del step l (step x s)
    else x :: survivors del step l (step x s)

theorem survivors_all (step : Item Addr CString D → σ → σ) (l : List (Item Addr CString D)) (s : σ) :
    survivors (fun _ _ => true) step l s = [] := by
  induction l generalizing s with
  | nil => rfl
  | cons x l ih => exact ih _

/-- A loop body that works on its own state by `step` and deletes the leaf
it is at when `del` says so. -/
def Visits (t : PTrie D) (cb : Option (CString → CString)) (del : Item Addr CString D → σ → Bool)
    (step : Item Addr CString D → σ → σ)
    (body : Addr → D → Patricia D → σ → Option (Patricia D × σ)) : Prop :=
  ∀ (d' : Patricia D) (t' : PTrie D) (x : Item Addr CString D) (s : σ), Inv d' t' →
    d'.canonizeCb = cb → t'.leaves ⊆ t.leaves → x ∈ t'.leaves →
    body x.cell x.data d' s =
      (if del x s then d'.elemDelete x.cell else some d').map fun d'' => (d'', step x s)

variable {del : Item Addr CString D → σ → Bool} {step : Item Addr CString D → σ → σ}
variable {body : Addr → D → Patricia D → σ → Option (Patricia D × σ)}

/-- One run of the loop body at the leaf `x`. -/
theorem Inv.visit {t₀ : PTrie D} {cb : Option (CString → CString)}
    (hbody : Visits t₀ cb del step body) (h : Inv d t) (hcb : d.canonizeCb = cb)
    (hsub : t.leaves ⊆ t₀.leaves) {l r : List (Item Addr CString D)} {x : Item Addr CString D}
    (hx : t.leaves = l ++ x :: r) (hlen : t.leaves.length < 2 ^ 32) (s : σ) :
    ∃ d' t', body x.cell x.data d s = some (d', step x s) ∧ Inv d' t' ∧
      t'.leaves = (l ++ if del x s then [] else [x]) ++ r ∧ t'.leaves ⊆ t₀.leaves ∧
      t'.leaves.length < 2 ^ 32 ∧ d'.canonizeCb = cb ∧ d'.log = d.log := by
  rw [hbody d t x s h hcb hsub (by rw [hx]; simp)]
  by_cases hdel : del x s
  · obtain ⟨d', t', hrun, h', hleaves, hd'⟩ := h.elemDelete hx hlen
    refine ⟨d', t', by simp [hdel, hrun], h', by simp [hdel, hleaves], ?_, ?_, ?_, ?_⟩
    · intro y hy
      rw [hleaves] at hy
      refine hsub ?_
      rw [hx]
      rcases List.mem_append.1 hy with hy | hy
      · exact List.mem_append_left _ hy
      · exact List.mem_append_right _ (List.mem_cons_of_mem _ hy)
    · rw [hx, List.length_append, List.length_cons] at hlen
      rw [hleaves, List.length_append]
      omega
    · rw [hd']; exact hcb
    · rw [hd']
  · exact ⟨d, t, by simp [hdel], h, by simp [hdel, hx], hsub, hlen, hcb, rfl⟩

/-- **The loop from a leaf on.** The leaves before `x` are what is left of
those visited; `x` is current and the cursor knows the one after it. -/
theorem Inv.foreachLoop {t₀ : PTrie D} {cb : Option (CString → CString)}
    (hbody : Visits t₀ cb del step body) {r : List (Item Addr CString D)} :
    ∀ {d : Patricia D} {t : PTrie D} {l : List (Item Addr CString D)} {x : Item Addr CString D}
      {s : σ} {fuel : ℕ}, Inv d t → d.canonizeCb = cb → t.leaves ⊆ t₀.leaves →
      t.leaves = l ++ x :: r → t.leaves.length < 2 ^ 32 → r.length + 1 < fuel →
      ∃ d' t', Patricia.foreachLoop body fuel d ⟨some x.cell, r.head?.map Item.cell⟩ s =
          some (d', (x :: r).foldl (fun s x => step x s) s) ∧ Inv d' t' ∧
        t'.leaves = l ++ survivors del step (x :: r) s ∧ d'.canonizeCb = cb ∧ d'.log = d.log := by
  have hsurv : ∀ (x : Item Addr CString D) (r : List (Item Addr CString D)) (s : σ),
      survivors del step (x :: r) s =
        (if del x s then [] else [x]) ++ survivors del step r (step x s) := by
    intro x r s
    rw [survivors]
    split_ifs <;> rfl
  induction r with
  | nil =>
    intro d t l x s fuel h hcb hsub hx hlen hfuel
    obtain ⟨fuel, rfl⟩ : ∃ n, fuel = n + 1 + 1 := ⟨fuel - 2, by simp at hfuel; omega⟩
    obtain ⟨p, v, hleaf⟩ := h.repr.leafAt (x := x) (by rw [hx]; simp)
    obtain ⟨d₁, t₁, hrun, h₁, hleaves, -, -, hcb₁, hlog₁⟩ := h.visit hbody hcb hsub hx hlen s
    refine ⟨d₁, t₁, ?_, h₁, ?_, hcb₁, hlog₁⟩
    · rw [Patricia.foreachLoop]
      simp only [foreachCur, Option.bind_eq_bind, hleaf, Option.bind_some, hrun]
      rfl
    · rw [hleaves, hsurv]
      simp [survivors]
  | cons y r ih =>
    intro d t l x s fuel h hcb hsub hx hlen hfuel
    obtain ⟨fuel, rfl⟩ : ∃ n, fuel = n + 1 := ⟨fuel - 1, by omega⟩
    obtain ⟨p, v, hleaf⟩ := h.repr.leafAt (x := x) (by rw [hx]; simp)
    obtain ⟨d₁, t₁, hrun, h₁, hleaves, hsub₁, hlen₁, hcb₁, hlog₁⟩ :=
      h.visit hbody hcb hsub hx hlen s
    obtain ⟨d₂, t₂, hloop, h₂, hleaves₂, hcb₂, hlog₂⟩ := ih (s := step x s) h₁ hcb₁
      hsub₁ hleaves hlen₁ (show r.length + 1 < fuel by rw [List.length_cons] at hfuel; omega)
    refine ⟨d₂, t₂, ?_, h₂, ?_, hcb₂, hlog₂.trans hlog₁⟩
    · rw [Patricia.foreachLoop]
      simp only [foreachCur, Option.bind_eq_bind, hleaf, Option.bind_some, hrun, List.head?_cons,
        Option.map_some, h₁.foreachNext hleaves x.cell]
      exact hloop
    · rw [hleaves₂, hsurv x, List.append_assoc]

/-- **The iteration visits every leaf once, in order**, whichever leaves its
body deletes when it is at them. It ends, and logs nothing. -/
theorem Inv.FOREACH (h : Inv d t) (hlen : t.leaves.length < 2 ^ 32)
    (hbody : Visits t d.canonizeCb del step body) (s : σ) :
    ∃ d' t', d.FOREACH body s = some (d', t.leaves.foldl (fun s x => step x s) s) ∧ Inv d' t' ∧
      t'.leaves = survivors del step t.leaves s ∧ d'.canonizeCb = d.canonizeCb ∧ d'.log = d.log := by
  have hfuel := h.lt_fuel
  have hcard := length_leaves_le t
  rw [Patricia.FOREACH, h.foreachStart]
  simp only [Option.bind_eq_bind, Option.bind_some]
  rcases hl : t.leaves with - | ⟨x, r⟩
  · obtain ⟨fuel, hf⟩ : ∃ n, d.fuel = n + 1 := ⟨d.fuel - 1, by omega⟩
    exact ⟨d, t, by rw [hf]; rfl, h, hl, rfl, rfl⟩
  · rw [hl, List.length_cons] at hcard
    exact h.foreachLoop hbody rfl (List.Subset.refl _) (l := []) hl hlen (by omega)

/-! ## `clear` and the statistics -/

theorem addKey_congr {d' : Patricia D} (h : d'.canonizeCb = d.canonizeCb) (key : CString) :
    d'.addKey key = d.addKey key := by
  rw [addKey, addKey, h]

/-- What `elem_add` stores: canonical keys whose lengths are `int`s. -/
def Stored (d : Patricia D) (t : PTrie D) : Prop :=
  ∀ x ∈ t.leaves, d.addKey x.key = x.key ∧ x.key.length ≤ INT_MAX

/-- What `clear` does at a leaf before deleting it. -/
def destroy (destroyCb : Option (CString → D → σ → σ)) (x : Item Addr CString D) (s : σ) : σ :=
  match destroyCb with
  | none => s
  | some cb => cb x.key x.data s

/-- The body of the loop of `clear`. -/
theorem Stored.visits_destroy (hst : Stored d t) (hcb : KeepsLength d.canonizeCb)
    (destroyCb : Option (CString → D → σ → σ)) :
    Visits t d.canonizeCb (fun _ _ => true) (destroy destroyCb) (fun delem _ d s => do
      let l ← leafAt d.mem delem
      let s := match destroyCb with
        | none => s
        | some cb => cb l.key l.data s
      let (_, d) ← d.delete l.key
      some (d, s)) := by
  intro d' t' x s h' hcb' hsub hx
  obtain ⟨p, v, hleaf⟩ := h'.repr.leafAt hx
  obtain ⟨hkey, hkl⟩ := hst x (hsub hx)
  have hdel := h'.delete_of_mem (hcb' ▸ hcb) hkl hx (by rw [addKey_congr hcb', hkey])
  simp only [hleaf, Option.bind_eq_bind, Option.bind_some, hdel, if_true]
  cases d'.elemDelete x.cell <;> cases destroyCb <;> rfl

/-- **`clear` empties the tree**, the destroy callback having seen each
element once. -/
theorem Inv.clear (h : Inv d t) (hlen : t.leaves.length < 2 ^ 32) (hst : Stored d t)
    (hcb : KeepsLength d.canonizeCb) (destroyCb : Option (CString → D → σ → σ)) (s : σ) :
    ∃ d', d.clear destroyCb s = some (d', t.leaves.foldl (fun s x => destroy destroyCb x s) s) ∧
      Inv d' .nil ∧ d'.canonizeCb = d.canonizeCb ∧ d'.log = d.log := by
  obtain ⟨d', t', hrun, h', hleaves, hcb', hlog⟩ := h.FOREACH hlen (hst.visits_destroy hcb destroyCb) s
  rw [survivors_all, Trie.leaves_eq_nil h'.wf] at hleaves
  subst hleaves
  exact ⟨d', hrun, h', hcb', hlog⟩

/-- **The assertions of `stats_recurse` hold**: it logs nothing. -/
theorem Repr.statsRecurse {parent : Option Addr} {val fuel depth pmax : ℕ} {r : Addr}
    {log : List LogLine} (h : Repr m t parent val) (hwf : t.WF nibbleVal) (hr : t.root? = some r)
    (hparent : depth = 0 → parent = none) (hfuel : t.cells.card < fuel) :
    ∃ sum max, Patricia.statsRecurse m fuel r depth pmax log = some (sum, max, log) := by
  induction t generalizing parent val fuel depth pmax r log with
  | nil => cases hr
  | leaf x =>
    obtain ⟨fuel, rfl⟩ := Nat.exists_eq_add_of_lt hfuel
    obtain rfl : x.cell = r := Option.some.inj hr
    have hx : m.get x.cell = some (.leaf ⟨x.data, x.key, parent, val⟩) := h
    refine ⟨depth, max depth pmax, ?_⟩
    simp only [Patricia.statsRecurse, hx, Option.bind_eq_bind, Option.bind_some]
    split_ifs with h0
    · rw [hparent h0]; rfl
    · rfl
  | node a n down ih =>
    obtain ⟨fuel, rfl⟩ : ∃ k, fuel = k + 1 := ⟨fuel - 1, by omega⟩
    obtain rfl : a = r := Option.some.inj hr
    have hlog : (if depth = 0 then softAssert "delem->node.parent == NULL" parent.isNone log
        else log) = log := by
      split_ifs with h0
      · rw [hparent h0]; rfl
      · rfl
    simp only [Patricia.statsRecurse, h.1, Option.bind_eq_bind, Option.bind_some, hlog]
    -- the loop over the slots, for any of them and any sums so far
    generalize List.finRange 16 = slots
    generalize max depth pmax = pm, (0 : ℕ) = result
    induction slots generalizing pm result with
    | nil => exact ⟨result, pm, rfl⟩
    | cons i slots ihs =>
      rw [List.foldlM_cons]
      cases hi : (down i).root? with
      | none => simpa only [Option.bind_eq_bind, Option.bind_some] using ihs pm result
      | some next =>
        have hlt := card_down_lt a n down i
        have hrec : ∃ sum mx, Patricia.statsRecurse m fuel next (depth + 1) pm log =
            some (sum, mx, log) := ih i (h.2 i) (hwf.2 i) hi (by omega) (by omega)
        obtain ⟨sum, mx, hrec⟩ := hrec
        have hsub := h.2 i
        have habove := hwf.1.above i
        simp only [Option.bind_eq_bind, Option.bind_some, hrec]
        rcases hd : down i with - | x | ⟨b, n', down'⟩
        · rw [hd] at hi; cases hi
        · rw [hd] at hi hsub
          obtain rfl : x.cell = next := Option.some.inj hi
          have hx : m.get x.cell = some (.leaf ⟨x.data, x.key, some a, i⟩) := hsub
          simp only [hx, Option.bind_some, decide_true, softAssert_true]
          exact ihs mx (result + sum)
        · rw [hd] at hi hsub habove
          obtain rfl : b = next := Option.some.inj hi
          have hlt' : decide (n < n') = true := decide_eq_true habove
          simp only [hsub.1, Option.bind_some, decide_true, softAssert_true, hlt']
          exact ihs mx (result + sum)

end Patricia

end Mowgli
