import Mowgli.Container.Patricia.Links
/-!
# What an iteration sees

On any tree the calls build, the cursor and `foreach` go through all the
elements, once each and in the order of the bytes of their keys, and a
loop may delete the element it is at by its leaf or by its key.
-/

namespace Mowgli

namespace Patricia

variable {D σ τ : Type} {d : Patricia D}

/-- What a loop body does with the element it is at. -/
inductive Choice
  | keep
  | elemDelete
  | delete

/-- The choices that delete the element. -/
def Choice.deletes : Choice → Bool
  | keep => false
  | elemDelete => true
  | delete => true

/-- A loop body that works on its own state and, by what it finds there,
deletes the element it is at or leaves the tree alone. -/
def loopBody (choose : Addr → D → τ → Choice) (act : Addr → D → τ → τ) (leaf : Addr) (element : D)
    (d : Patricia D) (s : τ) : Option (Patricia D × τ) := do
  let d ← match choose leaf element s with
    | .keep => some d
    | .elemDelete => d.elemDelete leaf
    | .delete => do
      let l ← leafAt d.mem leaf
      let (_, d) ← d.delete l.key
      some d
  some (d, act leaf element s)

/-- **Every element is visited once, in the order of the keys.** `items` are
the elements that are there when the iteration starts. -/
def Iterates (d : Patricia D) : Prop :=
  ∃ items : List (Item Addr CString D),
    (∀ x, x ∈ items ↔ ∃ l, leafAt d.mem x.cell = some l ∧ l.key = x.key ∧ l.data = x.data) ∧
    items.Pairwise (fun x y => x.key.bytes < y.key.bytes) ∧
    (∀ (τ : Type) (choose : Addr → D → τ → Choice) (act : Addr → D → τ → τ) (s : τ),
      ∃ d', d.FOREACH (loopBody choose act) s =
        some (d', items.foldl (fun s x => act x.cell x.data s) s) ∧ d'.log = d.log) ∧
    ∀ (τ : Type) (cb : CString → D → τ → ℤ × τ) (s : τ),
      d.foreach (some cb) s = some (items.foldl (fun s x => (cb x.key x.data s).2) s)

variable {A : Allocator (PatriciaElem D)} {cb : Option (CString → CString)} {t : PTrie D}

/-- The bodies above are ones the loop theorem speaks of. -/
theorem visits_loopBody (hst : Stored d t) (hcb : KeepsLength d.canonizeCb)
    (choose : Addr → D → τ → Choice) (act : Addr → D → τ → τ) :
    Visits t d.canonizeCb
      (fun x s => (choose x.cell x.data s).deletes) (fun x s => act x.cell x.data s) (loopBody choose act) := by
  intro d' t' x s h' hcb' hsub hx
  obtain ⟨p, v, hleaf⟩ := h'.repr.leafAt hx
  obtain ⟨hkey, hkl⟩ := hst x (hsub hx)
  have hdel := h'.delete_of_mem (hcb' ▸ hcb) hkl hx (by rw [addKey_congr hcb', hkey])
  cases hchoice : choose x.cell x.data s with
  | keep => simp [loopBody, hchoice, Choice.deletes]
  | elemDelete =>
    cases hrun : d'.elemDelete x.cell <;> simp [loopBody, hchoice, Choice.deletes, hrun]
  | delete =>
    cases hrun : d'.elemDelete x.cell <;>
      simp [loopBody, hchoice, Choice.deletes, hleaf, hdel, hrun]

/-- **Iteration over any tree the calls build** visits every element once,
in the order of the keys. -/
theorem runs_iterate (hA : A.NeverFails) (hcb : Canonizes cb) {tr : List (Op D σ × Out D)}
    (h : Runs A cb (fun d op => op.Valid d ∧ op.Fits d) tr d) : Iterates d := by
  obtain ⟨M, -, hd⟩ := h.is hA hcb
  obtain ⟨t, hinv, hst, hlen, -⟩ := hd.lists
  have hkeep : KeepsLength d.canonizeCb := hd.canonizeCb ▸ hcb.keepsLength
  refine ⟨t.leaves, fun x => ⟨fun hx => ?_, fun ⟨l, hl, hk, hdata⟩ => ?_⟩,
    hinv.pairwise.imp fun hlt => hlt.2.1, fun τ choose act s => ?_, fun τ cb s => ?_⟩
  · obtain ⟨p, v, hleaf⟩ := hinv.repr.leafAt hx
    exact ⟨_, hleaf, rfl, rfl⟩
  · obtain ⟨y, hy, hcell⟩ := hinv.exists_leaf hl
    obtain ⟨p, v, hleaf⟩ := hinv.repr.leafAt hy
    rw [hcell, hl, Option.some.injEq] at hleaf
    have hxy : x = y := Item.ext hcell.symm (by rw [← hk, hleaf]) (by rw [← hdata, hleaf])
    rwa [hxy]
  · obtain ⟨d', t', hrun, -, -, -, hlog⟩ :=
      hinv.FOREACH hlen (visits_loopBody hst hkeep choose act) s
    exact ⟨d', hrun, hlog⟩
  · have hfuel := hinv.lt_fuel
    exact foreach_eq hinv.root hinv.repr (by omega) cb s

theorem runs_iterate_two : ∃ d : Patricia Unit,
    Runs (σ := Unit) Allocator.bump none (fun d op => op.Valid d ∧ op.Fits d)
      [(.add keyA (), .bool true), (.add keyB (), .bool true)] d ∧ Iterates d := by
  obtain ⟨d, -, hd⟩ := exists_runs_twoKeys
  exact ⟨d, hd, runs_iterate Allocator.bump_neverFails canonizes_none hd⟩

/-- After the key that took the slot of "b", `foreach` sees "a" and that key. -/
theorem TwoKeys.foreach {d : Patricia Unit} (h : TwoKeys d) (K : CString) :
    (TwoKeys.overwritten d K).foreach (some fun k _ s => (0, s ++ [k])) [] =
      some [keyA, K] := by
  obtain ⟨hleafA, hnode, -, hleaf⟩ := h.get_overwritten K
  -- the cells below the root are those of a trie of two leaves
  set t : PTrie Unit := .node 2 1 fun i =>
    if i.val = 1 then .leaf ⟨1, keyA, ()⟩ else if i.val = 2 then .leaf ⟨4, K, ()⟩ else .nil with ht
  have hdown : slots12 1 4 = fun i : Fin 16 => (if i.val = 1 then Trie.leaf ⟨1, keyA, ()⟩ else
      if i.val = 2 then .leaf ⟨4, K, ()⟩ else .nil : PTrie Unit).root? := by
    funext i
    rw [slots12]
    split_ifs <;> rfl
  have hrepr : Repr (TwoKeys.overwritten d K).mem t none (POINTERS_PER_NODE + 2) := by
    refine ⟨by rw [hnode, hdown]; rfl, fun i => ?_⟩
    dsimp only
    split_ifs with h1 h2
    · rw [Fin.ext (b := 1) h1]; exact hleafA
    · rw [Fin.ext (b := 2) h2]; exact hleaf
    · trivial
  have hcells : t.cells.card = 3 := rfl
  exact foreach_eq (d := TwoKeys.overwritten d K) (t := t) h.root hrepr (by rw [hcells, h.fuel_overwritten]; decide) _ []

/-- **"b" is not visited** after a key of 2^31 bytes was added. -/
theorem longKey_hides_keyB : ∃ (tr : List (Op Unit Unit × Out Unit)) (d : Patricia Unit),
    Runs Allocator.bump none (fun d op => op.Valid d) tr d ∧ ¬ Iterates d := by
  obtain ⟨hlen, h0, hlong⟩ := keyBs_wraps
  obtain ⟨d₁, d₂, hrun₁, hrun₂, h⟩ := exists_twoKeys
  obtain ⟨-, -, hleafB, -⟩ := h.get_overwritten (keyBs 2147483648)
  refine ⟨_, _, h.runs_overwritten hrun₁ hrun₂ hlen h0, ?_⟩
  rintro ⟨items, hitems, -, -, hforeach⟩
  have hmem : ⟨3, keyB, ()⟩ ∈ items := (hitems _).2 ⟨_, by rw [leafAt, hleafB], rfl, rfl⟩
  have hfold : ∀ (l : List (Item Addr CString Unit)) (s : List CString),
      l.foldl (fun s x => s ++ [x.key]) s = s ++ l.map Item.key := by
    intro l
    induction l with
    | nil => simp
    | cons x l ih => intro s; simp [ih]
  have hrun := hforeach _ (fun k _ s => (0, s ++ [k])) []
  rw [h.foreach, Option.some.injEq] at hrun
  simp only [hfold, List.nil_append] at hrun
  have hkey : keyB ∈ [keyA, keyBs 2147483648] := by
    rw [hrun]
    exact List.mem_map_of_mem (f := Item.key) hmem
  rcases List.mem_cons.1 hkey with hkey | hkey
  · exact absurd hkey (by decide)
  · rw [← List.mem_singleton.1 hkey] at hlong
    exact absurd hlong (by decide)

end Patricia

end Mowgli
