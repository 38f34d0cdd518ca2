import Mowgli.Container.Patricia.Map
import Mowgli.Library.Calls
/-!
# Searching a patricia tree

`search` has the loop of `foreach` without its end: `foreach` goes on while
`delem` is not null, `search` goes on for ever. A search that the callback
ends is as it should be. One that comes past the last leaf of a tree with
a node steps up from the root, and reads a child of the null `delem`.
-/

namespace Mowgli

namespace Patricia

open Calls

variable {D σ ρ : Type}

/-- What the loop of `search` does at a leaf: it breaks when `ret` is not null. -/
def searchVisit (foreachCb : Option (CString × D → σ → Option ρ × σ)) (_ : Addr) (l : PatriciaLeaf D)
    (s : σ) : σ ⊕ (ρ × σ) :=
  match foreachCb with
  | none => .inl s
  | some cb =>
    match cb (l.key, l.data) s with
    | (some ret, s) => .inr (ret, s)
    | (none, s) => .inl s

/-- `mowgli_patricia_search`. The callback is given the key and the data, and
works on the state `privdata` points to; the answer has that state too. -/
def search (d : Patricia D) (foreachCb : Option (CString × D → σ → Option ρ × σ)) (privdata : σ) :
    Option (Option ρ × σ) :=
  match d.root with
  | none => some (none, privdata)
  | some delem => do
    match ← d.mem.get delem with
    | .leaf l =>
      match foreachCb with
      | none => some (none, privdata)
      | some cb => some (cb (l.key, l.data) privdata)
    | .node _ => do
      match ← walk d.mem (searchVisit foreachCb) d.fuel (some delem) 0 privdata with
      | .inr (ret, s) => some (some ret, s)
      -- `delem` is null, and the loop goes on to `delem->node.down[val++]`
      | .inl _ => none

/-- What `search` returns, and what it calls the callback on. -/
def searchCalls (d : Patricia D) (cb : CString × D → σ → Option ρ × σ) (s : σ) :
    Option (Option ρ × List (CString × D)) :=
  (d.search (some (noted cb)) (s, [])).map fun (ret, s) => (ret, s.2)

/-- What a callback is given of an element. -/
def keyData (x : Item Addr CString D) : CString × D := (x.key, x.data)

variable {d : Patricia D} {t : PTrie D}

/-- The loop visits leaves until the callback returns something. -/
theorem visitAll_searchVisit (cb : CString × D → σ → Option ρ × σ) (l : List (Item Addr CString D))
    (s : σ) :
    visitAll (searchVisit (some cb)) l s =
      match callUntil cb (l.map keyData) s with
      | (some ret, s) => .inr (ret, s)
      | (none, s) => .inl s := by
  induction l generalizing s with
  | nil => rfl
  | cons x l ih =>
    have hvisit : searchVisit (some cb) x.cell ⟨x.data, x.key, none, 0⟩ s =
        match cb (keyData x) s with
        | (some ret, s) => .inr (ret, s)
        | (none, s) => .inl s := rfl
    rw [visitAll, hvisit, List.map_cons, callUntil]
    rcases cb (keyData x) s with ⟨_ | ret, s'⟩
    · exact ih s'
    · rfl

/-- **What `search` does.** It stops at the first result that is not null;
without one it comes out above the root of any tree that has a node. -/
theorem Inv.search (h : Inv d t) (cb : CString × D → σ → Option ρ × σ) (s : σ) :
    d.search (some cb) s =
      if t.leaves.length ≤ 1 ∨ (callUntil cb (t.leaves.map keyData) s).1.isSome then
        some (callUntil cb (t.leaves.map keyData) s)
      else none := by
  rw [Patricia.search, h.root]
  rcases t with - | x | ⟨a, n, down⟩
  · rfl
  · have hx : d.mem.get x.cell = some (.leaf ⟨x.data, x.key, none, POINTERS_PER_NODE + 2⟩) := h.repr
    have hone : (Trie.leaf x : PTrie D).leaves.length ≤ 1 := le_rfl
    have hcall : callUntil cb ((Trie.leaf x : PTrie D).leaves.map keyData) s = cb (x.key, x.data) s := by
      rw [Trie.leaves_leaf, List.map_singleton, callUntil, keyData]
      rcases cb (x.key, x.data) s with ⟨_ | ret, s'⟩ <;> rfl
    rw [if_pos (Or.inl hone), hcall]
    simp only [Trie.root?, Option.bind_eq_bind, Option.bind_some, hx]
  · have hfuel := h.lt_fuel
    have hturns := Spot.turns_lt ⟨[], a, n, down, 0⟩
    simp only [Spot.node, Trie.plug_nil] at hturns
    have hrepr := h.repr
    have hwalk := walk_eq (m := d.mem) (p := ⟨[], a, n, down, 0⟩) (s := s) (searchVisit (some cb))
      (fun _ _ _ => rfl) ⟨trivial, hrepr⟩ (Nat.zero_lt_succ _)
      (show (⟨[], a, n, down, 0⟩ : Spot D).turns < d.fuel by omega)
    have htodo : (⟨[], a, n, down, 0⟩ : Spot D).todo = (Trie.node a n down).leaves := by
      rw [Spot.todo, rest, List.drop_zero, List.flatMap_map]
      exact List.append_nil _
    have htwo := Trie.two_le_leaves h.wf
    rw [htodo, visitAll_searchVisit] at hwalk
    simp only [Trie.root?, Option.bind_eq_bind, Option.bind_some, hrepr.1, hwalk]
    have hiff : (Trie.node a n down).leaves.length ≤ 1 ∨
        (callUntil cb ((Trie.node a n down).leaves.map keyData) s).1.isSome ↔
          (callUntil cb ((Trie.node a n down).leaves.map keyData) s).1.isSome :=
      or_iff_right (by omega)
    simp only [hiff]
    rcases callUntil cb ((Trie.node a n down).leaves.map keyData) s with ⟨_ | ret, s'⟩ <;> rfl

/-- The calls `search` makes, and what it returns. -/
theorem Inv.searchCalls (h : Inv d t) (cb : CString × D → σ → Option ρ × σ) (s : σ) :
    d.searchCalls cb s =
      if t.leaves.length ≤ 1 ∨ ∃ ret ∈ returns cb (t.leaves.map keyData) s, ret.isSome then
        some ((returns cb (t.leaves.map keyData) s).findSome? id,
          upTo Option.isSome cb (t.leaves.map keyData) s)
      else none := by
  have hsome : (callUntil cb (t.leaves.map keyData) s).1.isSome ↔
      ∃ ret ∈ returns cb (t.leaves.map keyData) s, ret.isSome := by
    rw [callUntil_fst, List.findSome?_isSome_iff]
    rfl
  rw [Patricia.searchCalls, h.search, callUntil_noted]
  simp only [hsome]
  split_ifs
  · rw [Option.map_some, callUntil_fst]
    rfl
  · rfl

/-! ## Runs -/

variable {τ : Type} {A : Allocator (PatriciaElem D)} {canonize : Option (CString → CString)}

/-- **When `search` is right.** It visits the elements in the order of their
keys up to the first non-null result, which it returns, or all of them when
there is none, just when there is at most one element or there is such a
result. -/
theorem runs_search_iff (hA : A.NeverFails) (hcan : Canonizes canonize)
    {tr : List (Op D τ × Out D)} (h : Runs A canonize (fun d op => op.Valid d ∧ op.Fits d) tr d) :
    ∃ M xs, MapRuns canonize tr M ∧ Lists xs M ∧
      xs.Pairwise (fun x y => x.key.bytes < y.key.bytes) ∧
      ∀ (σ ρ : Type) (cb : CString × D → σ → Option ρ × σ) (s : σ),
        d.searchCalls cb s = some ((returns cb (xs.map keyData) s).findSome? id,
          upTo Option.isSome cb (xs.map keyData) s) ↔
        xs.length ≤ 1 ∨ ∃ ret ∈ returns cb (xs.map keyData) s, ret.isSome := by
  obtain ⟨M, hM, hd⟩ := h.is hA hcan
  obtain ⟨t, hinv, -, -, hl⟩ := hd.lists
  refine ⟨M, t.leaves, hM, hl, hinv.pairwise.imp fun hlt => hlt.2.1, fun σ ρ cb s => ?_⟩
  rw [hinv.searchCalls]
  split_ifs with hends
  · exact iff_of_true rfl hends
  · exact iff_of_false (by simp) hends

theorem runs_search_iff_two : ∃ (d : Patricia Unit) (M : Elems Unit) (xs : List (Item Addr CString Unit)),
    MapRuns (σ := Unit) none [(.add keyA (), .bool true), (.add keyB (), .bool true)] M ∧
      Lists xs M ∧ (d.searchCalls (fun x s => (some x.1, s)) () =
        some ((returns (fun x s => (some x.1, s)) (xs.map keyData) ()).findSome? id,
          upTo Option.isSome (fun x s => (some x.1, s)) (xs.map keyData) ()) ↔
        xs.length ≤ 1 ∨ ∃ ret ∈ returns (fun x s => (some x.1, s)) (xs.map keyData) (), ret.isSome) := by
  obtain ⟨d, -, hd⟩ := exists_runs_twoKeys
  obtain ⟨M, xs, hM, hl, -, hxs⟩ := runs_search_iff Allocator.bump_neverFails canonizes_none hd
  exact ⟨d, M, xs, hM, hl, hxs Unit CString (fun x s => (some x.1, s)) ()⟩

/-- **A search without a result** reads through a null pointer: the callback
returns null for "a" and for "b". -/
theorem search_past_last : ∃ d : Patricia Unit,
    Runs (σ := Unit) Allocator.bump none (fun d op => op.Valid d ∧ op.Fits d)
      [(.add keyA (), .bool true), (.add keyB (), .bool true)] d ∧
    d.search (some fun _ s => ((none : Option Unit), s)) () = none := by
  obtain ⟨d, htwo, hruns⟩ := exists_runs_twoKeys
  obtain ⟨M, -, his⟩ := hruns.is Allocator.bump_neverFails canonizes_none
  obtain ⟨t, hinv, -, hlen32, -⟩ := his.lists
  have hcount := congrArg UInt32.toNat hinv.count
  rw [htwo.count, UInt32.toNat_ofNat_of_lt' hlen32] at hcount
  have hlen : t.leaves.length = 2 := hcount.symm
  obtain ⟨x, y, hxy⟩ := List.length_eq_two.1 hlen
  refine ⟨d, hruns, ?_⟩
  rw [hinv.search, if_neg]
  rw [hlen, hxy]
  rintro (hle | hsome)
  · omega
  · cases hsome

end Patricia

end Mowgli
