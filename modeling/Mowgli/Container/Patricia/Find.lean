import Mowgli.Container.Patricia.Repr
/-!
# The loops that walk up and down a patricia tree

On the cells of a trie the loops compute what their counterparts compute
on the trie: `descend` and `climb` find the same places, `first_leaf` the
first of the leaves. So `elem_find` finds the leaf with the key it is
given, and null when there is none.
-/

namespace Mowgli

namespace Patricia

variable {D : Type} {m : Store (PatriciaElem D)} {d : Patricia D} {t : PTrie D} {c : PCtx D}

/-- **The descent on the cells is the descent in the trie.** -/
theorem descend_eq {k : CString} {fuel : ℕ} (h : Repr m t (above c) (slotOf c))
    (hfuel : t.cells.card < fuel) :
    descend m k.length k fuel (above c) (slotOf c) t.root? =
      some (above (t.descend nibbleVal k c).1, slotOf (t.descend nibbleVal k c).1,
        (t.descend nibbleVal k c).2.root?) := by
  induction t generalizing c fuel with
  | nil =>
    obtain ⟨fuel, rfl⟩ := Nat.exists_eq_add_of_lt hfuel
    rfl
  | leaf x =>
    obtain ⟨fuel, rfl⟩ := Nat.exists_eq_add_of_lt hfuel
    have hx : m.get x.cell = some (.leaf ⟨x.data, x.key, above c, slotOf c⟩) := h
    simp only [Trie.root?, descend, hx, Trie.descend]
  | node a n down ih =>
    rcases fuel with - | fuel
    · omega
    · have hval : (if ((n / 2 : ℕ) : ℤ) < k.length then nibbleVal k n else 0) = nibbleVal k n := by
        split_ifs with hlt
        · rfl
        · exact (nibbleVal_of_length_le (by omega)).symm
      have hrec := ih (nibbleVal k n) (c := ⟨a, n, down, nibbleVal k n⟩ :: c) (h.2 _)
        (show (down (nibbleVal k n)).cells.card < fuel by
          have := card_down_lt a n down (nibbleVal k n)
          omega)
      simp only [above_cons, slotOf_cons] at hrec
      change descend m k.length k (fuel + 1) (above c) (slotOf c) (some a) = _
      simp only [descend, h.1, hval]
      exact hrec

/-- **`first_leaf` is the first leaf.** -/
theorem firstLeaf_eq {parent : Option Addr} {val : ℕ} {fuel : ℕ} {r : Addr}
    (h : Repr m t parent val) (hwf : t.WF nibbleVal) (hr : t.root? = some r)
    (hfuel : t.cells.card < fuel) :
    ∃ x l, t.leaves = x :: l ∧ firstLeaf m fuel r = some x.cell := by
  induction t generalizing parent val fuel r with
  | nil => cases hr
  | leaf x =>
    obtain ⟨fuel, rfl⟩ := Nat.exists_eq_add_of_lt hfuel
    obtain rfl : x.cell = r := Option.some.inj hr
    have hx : m.get x.cell = some (.leaf ⟨x.data, x.key, parent, val⟩) := h
    exact ⟨x, [], rfl, by simp only [firstLeaf, hx]⟩
  | node a n down ih =>
    rcases fuel with - | fuel
    · omega
    obtain rfl : a = r := Option.some.inj hr
    obtain ⟨i₀, -, -, hi₀, -⟩ := hwf.1.two
    -- the slot the loop stops at, all slots before it being empty
    have hsome : ((List.finRange 16).find? fun i => ((down i).root?).isSome).isSome := by
      rw [List.find?_isSome]
      refine ⟨i₀, List.mem_finRange i₀, ?_⟩
      rw [Option.isSome_iff_ne_none]
      exact fun h0 => hi₀ (root?_eq_none.1 h0)
    obtain ⟨i, hi⟩ := Option.isSome_iff_exists.1 hsome
    obtain ⟨hisome, l₁, l₂, hl, hempty⟩ := List.find?_eq_some_iff_append.1 hi
    obtain ⟨p, hp⟩ := Option.isSome_iff_exists.1 hisome
    obtain ⟨x, l, hx, hrec⟩ := ih i (h.2 i) (hwf.2 i) hp
      (show (down i).cells.card < fuel by have := card_down_lt a n down i; omega)
    have hbefore : (l₁.flatMap fun j => (down j).leaves) = [] := by
      refine List.flatMap_eq_nil_iff.2 fun j hj => ?_
      have hnone : (down j).root? = none := by simpa using hempty j hj
      rw [root?_eq_none.1 hnone, Trie.leaves_nil]
    refine ⟨x, l ++ l₂.flatMap fun j => (down j).leaves, ?_, ?_⟩
    · rw [Trie.leaves, hl, List.flatMap_append, hbefore, List.flatMap_cons, hx]
      simp
    · simp only [firstLeaf, h.1, hi, hp, Option.bind_some, hrec]

/-- **The climb on the cells is the climb in the trie.** -/
theorem climb_eq {i fuel : ℕ} (h : CtxRepr m c t.root?) (hfuel : c.length < fuel) :
    climb m i fuel (above c) (slotOf c) =
      some (above (Trie.climb i c t).1, slotOf (Trie.climb i c t).1) := by
  induction c generalizing t fuel with
  | nil =>
    obtain ⟨fuel, rfl⟩ := Nat.exists_eq_add_of_lt hfuel
    rfl
  | cons f c ih =>
    rcases fuel with - | fuel
    · omega
    simp only [above_cons, slotOf_cons, climb, h.nodeAt, Trie.climb]
    split_ifs with hi
    · exact ih (t := f.fill t) h.2.2 (by simpa using hfuel)
    · rfl

/-! ## Lookups -/

/-- The keys a canonizing function leaves the length of. -/
def KeepsLength (cb : Option (CString → CString)) : Prop :=
  ∀ f ∈ cb, ∀ k : CString, (f k).length = k.length

/-- A key whose length is an `int` is looked up as it is stored. -/
theorem findKey_eq {key : CString} (hlen : key.length ≤ INT_MAX) : d.findKey key = d.addKey key := by
  rw [findKey, addKey]
  cases d.canonizeCb with
  | none => rfl
  | some cb =>
    simp only [toInt_of_le hlen]
    split_ifs with hlong
    · rfl
    · rw [CString.take_of_length_le (by omega)]

theorem length_addKey {key : CString} (hcb : KeepsLength d.canonizeCb) :
    (d.addKey key).length = key.length := by
  rw [addKey]
  cases h : d.canonizeCb with
  | none => rfl
  | some f => exact hcb f (by rw [h]; rfl) key

variable {key : CString}

/-- The descent of the operations, from the root. -/
theorem Inv.descend (h : Inv d t) (hcb : KeepsLength d.canonizeCb) (hlen : key.length ≤ INT_MAX) :
    Patricia.descend d.mem (toInt key.length) (d.addKey key) d.fuel none (POINTERS_PER_NODE + 2)
        d.root =
      some (above (t.descend nibbleVal (d.addKey key) []).1,
        slotOf (t.descend nibbleVal (d.addKey key) []).1,
        (t.descend nibbleVal (d.addKey key) []).2.root?) := by
  have hfuel := h.lt_fuel
  rw [toInt_of_le hlen, ← length_addKey hcb, h.root]
  exact descend_eq (c := []) h.repr (by omega)

/-- **A key that is there is found.** -/
theorem Inv.elemFind_of_mem (h : Inv d t) (hcb : KeepsLength d.canonizeCb)
    (hlen : key.length ≤ INT_MAX) {x : Item Addr CString D} (hx : x ∈ t.leaves)
    (hkey : x.key = d.addKey key) : d.elemFind key = some (some x.cell) := by
  have hdesc := h.descend hcb hlen
  rw [← hkey, Trie.descend_of_mem h.wf hx] at hdesc
  obtain ⟨p, v, hleaf⟩ := h.repr.leafAt hx
  rw [elemFind, findKey_eq hlen, ← hkey, hdesc]
  simp [Trie.root?, hleaf, CString.strcmp_eq_zero]

/-- **A key that is not there is not found.** -/
theorem Inv.elemFind_of_not_mem (h : Inv d t) (hcb : KeepsLength d.canonizeCb)
    (hlen : key.length ≤ INT_MAX) (hno : ∀ x ∈ t.leaves, x.key ≠ d.addKey key) :
    d.elemFind key = some none := by
  have hdesc := h.descend hcb hlen
  rw [elemFind, findKey_eq hlen, hdesc]
  rcases Trie.descend_end nibbleVal (d.addKey key) [] t with hend | ⟨x, hend⟩
  · rw [hend]; rfl
  · have hx : x ∈ t.leaves := by
      rw [← Trie.plug_nil t, ← Trie.plug_descend nibbleVal (d.addKey key) [] t, hend]
      exact Trie.mem_leaves_plug (by simp)
    obtain ⟨p, v, hleaf⟩ := h.repr.leafAt hx
    rw [hend]
    simp [Trie.root?, hleaf, CString.strcmp_eq_zero, hno x hx]

theorem Inv.retrieve_of_mem (h : Inv d t) (hcb : KeepsLength d.canonizeCb)
    (hlen : key.length ≤ INT_MAX) {x : Item Addr CString D} (hx : x ∈ t.leaves)
    (hkey : x.key = d.addKey key) : d.retrieve key = some (some x.data) := by
  obtain ⟨p, v, hleaf⟩ := h.repr.leafAt hx
  rw [retrieve, h.elemFind_of_mem hcb hlen hx hkey]
  simp [hleaf]

theorem Inv.retrieve_of_not_mem (h : Inv d t) (hcb : KeepsLength d.canonizeCb)
    (hlen : key.length ≤ INT_MAX) (hno : ∀ x ∈ t.leaves, x.key ≠ d.addKey key) :
    d.retrieve key = some none := by
  rw [retrieve, h.elemFind_of_not_mem hcb hlen hno]; rfl

end Patricia

end Mowgli
