import Mowgli.Container.Patricia.Find
/-!
# Adding to a patricia tree

`insertNode` puts a node over the subtree at a place and `placeLeaf` a
leaf in an empty one; on the trie each is a `plug` at that place. From
these, what `elem_add` does: it refuses a key that is there, and else
adds one leaf and keeps the invariant, without a failed assertion.
-/

namespace Mowgli

namespace Patricia

variable {D : Type} {A : Allocator (PatriciaElem D)} {m : Store (PatriciaElem D)}
variable {d : Patricia D} {t : PTrie D} {c : PCtx D}

/-- A root that is present is a live cell. -/
theorem Repr.get_root {parent : Option Addr} {val : ℕ} {r : Addr} (h : Repr m t parent val)
    (hr : t.root? = some r) : ∃ e, m.get r = some e := by
  cases t with
  | nil => cases hr
  | leaf x => obtain rfl : x.cell = r := Option.some.inj hr; exact ⟨_, h⟩
  | node a n down => obtain rfl : a = r := Option.some.inj hr; exact ⟨_, h.1⟩

/-- What `Above` says of the cell at the root. -/
theorem Repr.lt_nibnum {parent : Option Addr} {val i : ℕ} {r : Addr} {n : PatriciaNode}
    (h : Repr m t parent val) (hr : t.root? = some r) (ha : t.Above i)
    (hn : m.get r = some (.node n)) : i < n.nibnum := by
  cases t with
  | nil => cases hr
  | leaf x =>
    obtain rfl : x.cell = r := Option.some.inj hr
    have hx : m.get x.cell = some (.leaf ⟨x.data, x.key, parent, val⟩) := h
    rw [hx] at hn
    cases hn
  | node a n' down =>
    obtain rfl : a = r := Option.some.inj hr
    rw [h.1] at hn
    cases hn
    exact ha

theorem root?_plug_cons (f : Frame Addr CString D 16) (t t' : PTrie D) :
    (Trie.plug (f :: c) t).root? = (Trie.plug (f :: c) t').root? := by
  induction c generalizing f t t' with
  | nil => rfl
  | cons g c ih => exact ih g (f.fill t) (f.fill t')

/-- The root of a tree after what is at a place becomes `t'`. -/
theorem root?_replug (c : PCtx D) (t t' : PTrie D) :
    (Trie.plug c t').root? = if c = [] then t'.root? else (Trie.plug c t).root? := by
  rcases c with - | ⟨f, c⟩
  · rfl
  · exact root?_plug_cons f t' t

/-- **Putting a node over a subtree.** The node has the subtree in the slot
of `key`'s nibble and nothing else yet. -/
theorem Holds.insertNode (h : Holds d (.plug c t)) (hne : t ≠ .nil) {i : ℕ} (ha : t.Above i)
    {na : Addr} (hpick : A.pick d.mem = some na) (key : CString) :
    ∃ d', insertNode A d (above c) (slotOf c) i key = some (some na, d') ∧
      Holds d' (.plug c ((Frame.mk na i (fun _ => .nil) (nibbleVal key i)).fill t)) ∧
      d' = { d with mem := d'.mem, root := d'.root } := by
  set slot := nibbleVal key i with hslot
  obtain ⟨r, hr⟩ : ∃ r, t.root? = some r :=
    Option.ne_none_iff_exists'.1 fun h0 => hne (root?_eq_none.1 h0)
  obtain ⟨e, he⟩ := h.repr_at.get_root hr
  have hna : na ∉ d.mem.live := Store.get_eq_none.1 (A.fresh hpick)
  have hnac : na ∉ Trie.beside c := fun hm => hna (h.mem_live.2 (Or.inl hm))
  have hnat : na ∉ t.cells := fun hm => hna (h.mem_live.2 (Or.inr hm))
  have hrt : r ∈ t.cells := root?_mem_cells hr
  have hrna : r ≠ na := fun h0 => hnat (h0 ▸ hrt)
  have hnd := h.nodup_plug
  have hrc : r ∉ Trie.beside c := fun hm =>
    (Multiset.disjoint_left.1 (Multiset.nodup_add.1 hnd).2.2) hm hrt
  -- the cells once the new node is written and the old root hangs below it
  set N : PatriciaElem D :=
    .node ⟨i, Function.update (fun _ => none) slot t.root?, above c, slotOf c⟩
  set m₁ := (d.mem.set na N).set r (e.setParent (some na) slot) with hm₁
  have hget₁ : ∀ a, a ≠ na → a ≠ r → m₁.get a = d.mem.get a := fun a h₁ h₂ => by
    rw [hm₁, Store.get_set_of_ne _ _ h₂, Store.get_set_of_ne _ _ h₁]
  have hctx₁ : CtxRepr m₁ c t.root? := h.ctxRepr.congr fun a hmem =>
    hget₁ a (fun h0 => hnac (h0 ▸ hmem)) fun h0 => hrc (h0 ▸ hmem)
  refine ⟨{ d with mem := relink m₁ c (some na), root := if c = [] then some na else d.root },
    ?_, ?_, ?_⟩
  · have hset : setParent (d.mem.set na N) r (some na) slot = some m₁ := by
      rw [setParent, Store.get_set_of_ne _ _ hrna, he]
      rfl
    rcases c with - | ⟨f, c⟩
    · have hroot : d.root = some r := h.root.trans hr
      simp only [N, above_nil, hr] at hset
      simp only [Patricia.insertNode, above_nil, hpick, hroot, Option.bind_eq_bind,
        Option.bind_some, ← hslot, hset, Store.get_set_of_ne _ _ hrna, he]
      refine congrArg (fun log => some (some na, { d with mem := m₁, root := some na, log := log })) ?_
      cases e with
      | leaf l => rfl
      | node n => simp [h.repr_at.lt_nibnum hr ha he]
    · simp only [N, above_cons, slotOf_cons, hr] at hset
      have hold : child ⟨f.pos, Function.update (fun i => (f.down i).root?) f.slot t.root?,
          above c, slotOf c⟩ f.slot = some (some r) := by
        rw [child_slot]; simp [hr]
      rw [hr] at hold
      simp only [Patricia.insertNode, above_cons, slotOf_cons, hpick, h.ctxRepr.nodeAt, hr,
        Option.bind_eq_bind, Option.bind_some, hold, ← hslot, hset]
      rw [hctx₁.nodeAt, Option.bind_some, setChild_frame]
      rfl
  · have hcells : (Trie.plug c ((Frame.mk na i (fun _ => .nil) slot).fill t)).cells =
        na ::ₘ (Trie.beside c + t.cells) := by
      rw [Trie.cells_plug, Frame.cells_fill]
      simp [Frame.cells, Trie.cells, Multiset.singleton_add]
    refine ⟨?_, repr_plug.2 ⟨?_, ?_, fun j => ?_⟩, fun a => ?_, ?_⟩
    · rw [root?_replug c t]
      simp only [h.root]
      rfl
    · exact hctx₁.relink (Multiset.nodup_add.1 hnd).1 _
    · rw [get_relink _ hnac, hm₁, Store.get_set_of_ne _ _ hrna.symm, Store.get_set_self,
        root?_downWith]
      rfl
    · by_cases hj : j = slot
      · subst hj
        rw [Frame.downWith_slot]
        refine Repr.reparent h.repr_at (Multiset.nodup_add.1 hnd).2.1 hr he ?_ fun a hmem har => ?_
        · rw [get_relink _ hrc, hm₁, Store.get_set_self]
        · have hac : a ∉ Trie.beside c := fun hm =>
            (Multiset.disjoint_left.1 (Multiset.nodup_add.1 hnd).2.2) hm hmem
          rw [get_relink _ hac, hget₁ a (fun h0 => hnat (h0 ▸ hmem)) har]
      · rw [Frame.downWith_of_ne _ _ hj]
        trivial
    · rw [hcells, Multiset.mem_cons, hctx₁.mem_live_relink, hm₁, Store.mem_live_set,
        Store.mem_live_set, h.live, Trie.cells_plug]
      refine ⟨?_, fun h0 => Or.inr h0⟩
      rintro (rfl | h0)
      · exact Or.inr (Multiset.mem_add.2 (Or.inr hrt))
      · exact h0
    · rw [hcells, Multiset.nodup_cons]
      exact ⟨fun hm => (Multiset.mem_add.1 hm).elim hnac hnat, hnd⟩
  · rfl

/-- **Putting a leaf in an empty slot**, or at the root of an empty tree. -/
theorem Holds.placeLeaf (h : Holds d (.plug c .nil)) {la : Addr} (hpick : A.pick d.mem = some la)
    (ckey : CString) (data : D) :
    ∃ d', placeLeaf A d (above c) (slotOf c) ckey data = some (some la, d') ∧
      Holds d' (.plug c (.leaf ⟨la, ckey, data⟩)) ∧
      d' = { d with mem := d'.mem, root := d'.root, count := d.count + 1 } := by
  have hla : la ∉ d.mem.live := Store.get_eq_none.1 (A.fresh hpick)
  have hlac : la ∉ Trie.beside c := fun hm => hla (h.mem_live.2 (Or.inl hm))
  have hnd := (Multiset.nodup_add.1 h.nodup_plug).1
  set l : PatriciaElem D := .leaf ⟨data, ckey, above c, slotOf c⟩ with hl
  have hget : ∀ a ∈ Trie.beside c,
      ((relink d.mem c (some la)).set la l).get a = (relink d.mem c (some la)).get a :=
    fun a ha => Store.get_set_of_ne _ _ fun h0 => hlac (h0 ▸ ha)
  refine ⟨{ d with
    mem := (relink d.mem c (some la)).set la l
    root := if c = [] then some la else d.root
    count := d.count + 1 }, ?_, ?_, rfl⟩
  · rcases c with - | ⟨f, c⟩
    · simp only [Patricia.placeLeaf, above_nil, hpick, Option.bind_eq_bind, Option.bind_some]
      rfl
    · simp only [Patricia.placeLeaf, above_cons, slotOf_cons, hpick, h.ctxRepr.nodeAt,
        Option.bind_eq_bind, Option.bind_some, setChild_frame]
      rfl
  · have hcells : (Trie.plug c (.leaf ⟨la, ckey, data⟩) : PTrie D).cells = la ::ₘ Trie.beside c := by
      rw [Trie.cells_plug, Trie.cells, add_comm, Multiset.singleton_add]
    refine ⟨?_, repr_plug.2 ⟨?_, ?_⟩, fun a => ?_, ?_⟩
    · rw [root?_replug c .nil]
      simp only [h.root]
      rfl
    · exact (h.ctxRepr.relink hnd (some la)).congr hget
    · exact Store.get_set_self ..
    · rw [hcells, Multiset.mem_cons, Store.mem_live_set, h.ctxRepr.mem_live_relink, h.mem_live]
      simp [Trie.cells]
    · rw [hcells, Multiset.nodup_cons]
      exact ⟨hlac, hnd⟩

/-- A leaf there is no memory for leaves the empty slot as it was. -/
theorem Holds.placeLeaf_of_pick_eq_none (h : Holds d (.plug c .nil)) (hpick : A.pick d.mem = none)
    (ckey : CString) (data : D) :
    Patricia.placeLeaf A d (above c) (slotOf c) ckey data =
      some (none, { d with log := d.log ++ [.returnIfFail "*place1 != NULL"] }) := by
  rcases c with - | ⟨f, c⟩
  · have hroot : d.root = none := h.root
    simp only [Patricia.placeLeaf, above_nil, hpick, Option.bind_eq_bind, Option.bind_some, hroot]
  · have hnil : (Trie.nil : PTrie D).root? = none := rfl
    have hset := Store.set_eq_self h.ctxRepr.1
    rw [hnil] at hset
    simp only [Patricia.placeLeaf, above_cons, slotOf_cons, hpick, h.ctxRepr.nodeAt,
      Option.bind_eq_bind, Option.bind_some, setChild_frame, hnil, hset]

/-! ## How an addition ends -/

/-- What `elem_add` logs when there is no memory for a node or a leaf. -/
def noMemory : List LogLine := [.returnIfFail "newnode != NULL", .returnIfFail "*place1 != NULL"]

/-- **How `elem_add` ends** for a key that is not there. -/
inductive Adds (A : Allocator (PatriciaElem D)) (d : Patricia D) (t : PTrie D) (k : CString)
    (data : D) : Option Addr × Patricia D → Prop
  /-- One more leaf. -/
  | added {la : Addr} {d' : Patricia D} {t' : PTrie D} : Inv d' t' →
    t'.leaves.Perm (⟨la, k, data⟩ :: t.leaves) →
    d' = { d with mem := d'.mem, root := d'.root, count := d.count + 1 } →
    Adds A d t k data (some la, d')
  /-- The first allocation failed. -/
  | refused {line : LogLine} : A.pick d.mem = none → line ∈ noMemory →
    Adds A d t k data (none, { d with log := d.log ++ [line] })
  /-- There was memory for a new node and none for the leaf: the node is in
  the tree, over the one child it came with. -/
  | halfway {na : Addr} {n : PatriciaNode} {s : Fin 16} {d' : Patricia D} {line : LogLine} :
    A.pick d.mem = some na → (∃ m, A.pick m = none) → d'.mem.get na = some (.node n) →
    (∀ j, j ≠ s → n.down j = none) → line ∈ noMemory →
    d' = { d with mem := d'.mem, root := d'.root, log := d.log ++ [line] } →
    Adds A d t k data (none, d')

/-- The end of `elem_add`: the leaf goes into the empty slot of the node `F`
that is its own, if there is memory for it. -/
theorem Inv.placeIn (h : Inv d t) {F : Frame Addr CString D 16}
    {d₁ : Patricia D} (h₁ : Holds d₁ (.plug (F :: c) .nil))
    (hd₁ : d₁ = { d with mem := d₁.mem, root := d₁.root }) {k : CString} {i : ℕ} (data : D)
    (hslot : nibbleVal k i = F.slot)
    (hperm : (Trie.plug (F :: c) .nil).leaves.Perm t.leaves)
    (hwf : ∀ la, (Trie.plug (F :: c) (.leaf ⟨la, k, data⟩)).WF nibbleVal) :
    ∃ r, (do
        let n ← nodeAt d₁.mem F.cell
        let val := nibbleVal k i
        let log := softAssert "*place1 == NULL" (n.down val).isNone d₁.log
        Patricia.placeLeaf A { d₁ with log := log } (some F.cell) val k data) = some r ∧
      ((∃ la d' t', r = (some la, d') ∧ Inv d' t' ∧ t'.leaves.Perm (⟨la, k, data⟩ :: t.leaves) ∧
        d' = { d with mem := d'.mem, root := d'.root, count := d.count + 1 }) ∨
      (A.pick d₁.mem = none ∧
        r = (none, { d₁ with log := d.log ++ [.returnIfFail "*place1 != NULL"] }))) := by
  rw [h₁.ctxRepr.nodeAt, hslot]
  simp only [Option.bind_eq_bind, Option.bind_some, Function.update_self, Trie.root?,
    Option.isNone_none, softAssert_true]
  cases hla : A.pick d₁.mem with
  | none =>
    have hlog : d₁.log = d.log := by rw [hd₁]
    rw [← hlog]
    exact ⟨_, h₁.placeLeaf_of_pick_eq_none hla k data, Or.inr ⟨rfl, rfl⟩⟩
  | some la =>
    obtain ⟨d', hrun, h', hd'⟩ := h₁.placeLeaf hla k data
    have hleaves : (Trie.plug (F :: c) (.leaf ⟨la, k, data⟩)).leaves.Perm
        (⟨la, k, data⟩ :: t.leaves) :=
      (Trie.leaves_plug_perm (t := .nil) (List.Perm.refl _)).trans (hperm.cons _)
    refine ⟨_, hrun, Or.inl ⟨la, d', _, rfl, ⟨h', hwf la, ?_⟩, hleaves, ?_⟩⟩
    · rw [hd', hd₁, hleaves.length_eq, List.length_cons, UInt32.ofNat_add]
      exact congrArg (· + 1) h.count
    · rw [hd', hd₁]

/-- **Adding beside a leaf.** `y` is the leaf the descent for `k` ended at,
or one below the node it ended at. -/
theorem Inv.addBeside (h : Inv d (.plug c t)) {k : CString} (data : D)
    {y : Item Addr CString D} (hend : t = .nil ∨ t = .leaf y)
    (halong : ∀ f ∈ c, nibbleVal k f.pos = f.slot) (hy : ∀ f ∈ c.head?, y ∈ (f.fill t).leaves)
    (hroot : c = [] → y ∈ t.leaves) (hpart : PartWithin k y.key) :
    ∃ r, Patricia.addBeside A d (above c) (slotOf c) y.cell k data = some r ∧
      Adds A d (.plug c t) k data r := by
  obtain ⟨i, hdiff, hlt, hne⟩ := differ_eq hpart
  have hymem : y ∈ (Trie.plug c t).leaves := by
    rcases c with - | ⟨f, c'⟩
    · exact hroot rfl
    · exact Trie.mem_leaves_plug (c := c') (hy f rfl)
  obtain ⟨p, v, hleaf⟩ := h.repr.leafAt hymem
  have hclimb := climb_eq (i := i) h.ctxRepr (show c.length < d.fuel by
    have h1 := length_le_card_beside c
    have h2 := h.lt_fuel
    rw [Trie.cells_plug, Multiset.card_add] at h2
    omega)
  have habove : (Trie.climb i c t).2.Above i := by
    refine Trie.climb_above ?_
    rcases hend with rfl | rfl <;> trivial
  have hplug := Trie.plug_climb i c t
  have hcases := Trie.climb_cases h.wf hend halong hy hroot hlt hne
  have hsuffix := Trie.climb_suffix i c t
  rw [Patricia.addBeside, hleaf]
  simp only [Option.bind_eq_bind, Option.bind_some, hdiff, hclimb]
  generalize hct : Trie.climb i c t = ct at *
  obtain ⟨c', t'⟩ := ct
  have hholds : Holds d (.plug c' t') := by rw [hplug]; exact h.toHolds
  have hwf' : (Trie.plug c' t').WF nibbleVal := by rw [hplug]; exact h.wf
  rcases hcases with ⟨f, c'', heq, hpos, hyf⟩ | ⟨hmem, hhead⟩
  · -- the node that tests position `i` is there
    obtain ⟨rfl, rfl⟩ := Prod.mk.inj heq
    have hf : nibbleVal k f.pos = f.slot := halong f (hsuffix.subset (List.mem_cons_self ..))
    obtain ⟨r, hrun, hr⟩ := h.placeIn (A := A) (k := k) (i := i) hholds rfl data (hpos ▸ hf)
      (by rw [hplug]) fun la => hwf'.plug_leaf (x := ⟨la, k, data⟩) hyf (hpos ▸ hlt) hf
    refine ⟨r, by simpa [hholds.ctxRepr.nodeAt, hpos] using hrun, ?_⟩
    rcases hr with ⟨la, d', t', rfl, h', hperm, hd'⟩ | ⟨hfail, rfl⟩
    · exact .added h' hperm hd'
    · exact .refused hfail (by simp [noMemory])
  · -- a new node goes over the subtree the climb passed
    have hne' : t' ≠ .nil := fun h0 => by rw [h0] at hmem; cases hmem
    cases hna : A.pick d.mem with
    | none =>
      refine ⟨_, ?_, .refused hna (show .returnIfFail "newnode != NULL" ∈ noMemory by simp [noMemory])⟩
      rcases c' with - | ⟨f, c''⟩
      · simp only [above_nil, insertNode, hna, Option.bind_some]
      · have hf : f.pos < i := hhead f rfl
        simp only [above_cons, hholds.ctxRepr.nodeAt, Option.bind_some, hf, if_true, insertNode, hna]
    | some na =>
      obtain ⟨d₁, hins, h₁, hd₁⟩ := hholds.insertNode hne' habove hna y.key
      -- the new node has the one child
      have hnode : d₁.mem.get na = some (.node ⟨i, Function.update (fun _ => none)
          (nibbleVal y.key i) t'.root?, above c', slotOf c'⟩) := by
        have hat := h₁.repr_at.1
        rwa [root?_downWith] at hat
      rw [← Trie.fill_single_eq na i hne.symm t', ← Trie.plug_cons] at h₁
      obtain ⟨r, hrun, hr⟩ := h.placeIn (A := A) (k := k) (i := i) h₁ hd₁ data rfl
        (by rw [Trie.plug_cons, Trie.leaves_plug, (Trie.fill_single na i hne.symm t').1,
              ← Trie.leaves_plug, hplug])
        fun la => hwf'.plug_fork (x := ⟨la, k, data⟩) habove hmem hlt hne hhead
      refine ⟨r, ?_, ?_⟩
      · rcases c' with - | ⟨f, c''⟩
        · simp only [above_nil] at hins ⊢
          rw [hins]
          exact hrun
        · have hf : f.pos < i := hhead f rfl
          simp only [above_cons] at hins ⊢
          simp only [hholds.ctxRepr.nodeAt, Option.bind_some, hf, if_true, hins]
          exact hrun
      · rcases hr with ⟨la, d', t'', rfl, h', hperm, hd'⟩ | ⟨hfail, rfl⟩
        · exact .added h' hperm hd'
        · have hone : ∀ j, j ≠ nibbleVal y.key i →
              Function.update (fun _ : Fin 16 => (none : Option Addr)) (nibbleVal y.key i) t'.root? j = none :=
            fun j hj => Function.update_of_ne hj ..
          have hline : LogLine.returnIfFail "*place1 != NULL" ∈ noMemory := by simp [noMemory]
          exact .halfway hna ⟨_, hfail⟩ hnode hone hline (by rw [hd₁])

/-! ## `elem_add` -/

variable {key : CString}

/-- **A key that is there is refused**: null comes back, a message is
logged, and nothing else changes. -/
theorem Inv.elemAdd_of_mem (data : D) (h : Inv d t) (hcb : KeepsLength d.canonizeCb)
    (hlen : key.length ≤ INT_MAX) {x : Item Addr CString D} (hx : x ∈ t.leaves)
    (hkey : x.key = d.addKey key) :
    d.elemAdd A key data = some (none, { d with
      log := d.log ++ [.message "Key is already in dict, ignoring duplicate"] }) := by
  have hdesc := h.descend hcb hlen
  rw [← hkey, Trie.descend_of_mem h.wf hx] at hdesc
  obtain ⟨p, v, hleaf⟩ := h.repr.leafAt hx
  rw [elemAdd, ← hkey]
  simp [hdesc, Trie.root?, hleaf, CString.strcmp_eq_zero]

/-- **A key that is not there**, whatever the tree looks like. -/
theorem Inv.elemAdd_adds (data : D) (h : Inv d t) (hcb : KeepsLength d.canonizeCb)
    (hlen : key.length ≤ INT_MAX) (hno : ∀ x ∈ t.leaves, x.key ≠ d.addKey key)
    (hpart : ∀ x ∈ t.leaves, PartWithin (d.addKey key) x.key) :
    ∃ r, d.elemAdd A key data = some r ∧ Adds A d t (d.addKey key) data r := by
  have hdesc := h.descend hcb hlen
  have hplug := Trie.plug_descend nibbleVal (d.addKey key) [] t
  have hend := Trie.descend_end nibbleVal (d.addKey key) [] t
  have halong := Trie.descend_along nibbleVal (k := d.addKey key) (c := []) (t := t)
    (by simp)
  rw [elemAdd, hdesc]
  generalize Trie.descend nibbleVal (d.addKey key) [] t = ct at *
  obtain ⟨c, t₀⟩ := ct
  rw [Trie.plug_nil] at hplug
  subst hplug
  simp only at h hno hpart hend halong ⊢
  rcases hend with rfl | ⟨y, rfl⟩
  · rcases c with - | ⟨f, c⟩
    · -- the tree is empty
      have hcount : d.count = 0 := h.count
      have hassert : decide (d.count = 0) = true := decide_eq_true hcount
      simp only [Trie.root?, above_nil, Option.bind_eq_bind, Option.bind_some,
        Option.isNone_none, softAssert_true, hassert]
      cases hla : A.pick d.mem with
      | none =>
        exact ⟨_, h.toHolds.placeLeaf_of_pick_eq_none hla (d.addKey key) data,
          .refused hla (by simp [noMemory])⟩
      | some la =>
        obtain ⟨d', hrun, h', hd'⟩ := h.toHolds.placeLeaf hla (d.addKey key) data
        refine ⟨_, hrun, .added ⟨h', trivial, ?_⟩ (List.Perm.refl _) hd'⟩
        rw [hd', hcount]
        rfl
    · obtain ⟨y, l, hl, hfirst⟩ := firstLeaf_eq (t := f.fill .nil) (r := f.cell)
        (repr_plug (c := c).1 h.repr).2 (Trie.WF.of_plug (c := c) h.wf) rfl
        (show (f.fill .nil).cells.card < d.fuel by
          have h1 := h.lt_fuel
          rw [Trie.plug_cons, Trie.cells_plug, Multiset.card_add] at h1
          omega)
      have hy : y ∈ (f.fill .nil).leaves := by rw [hl]; exact List.mem_cons_self ..
      have hadd := h.addBeside (A := A) (k := d.addKey key) data (y := y) (Or.inl rfl) halong
        (fun g hg => by obtain rfl : f = g := Option.some.inj hg; exact hy) (by simp)
        (hpart y (Trie.mem_leaves_plug (c := c) hy))
      simpa [Trie.root?, hfirst] using hadd
  · have hy : y ∈ (Trie.plug c (.leaf y)).leaves := Trie.mem_leaves_plug (by simp)
    obtain ⟨p, v, hleaf⟩ := h.repr.leafAt hy
    have hadd := h.addBeside (A := A) (k := d.addKey key) data (y := y) (Or.inr rfl) halong
      (fun g _ => Frame.mem_leaves_fill.2 (Or.inl (by simp))) (fun _ => by simp) (hpart y hy)
    simpa [Trie.root?, hleaf, CString.strcmp_eq_zero, hno y hy] using hadd

/-- **While there is memory a key that is not there is added**: one more
leaf, the invariant again, and no failed assertion. -/
theorem Inv.elemAdd_of_not_mem (hA : A.NeverFails) (data : D) (h : Inv d t)
    (hcb : KeepsLength d.canonizeCb) (hlen : key.length ≤ INT_MAX) (hno : ∀ x ∈ t.leaves, x.key ≠ d.addKey key)
    (hpart : ∀ x ∈ t.leaves, PartWithin (d.addKey key) x.key) :
    ∃ la d' t', d.elemAdd A key data = some (some la, d') ∧ Inv d' t' ∧
      t'.leaves.Perm (⟨la, d.addKey key, data⟩ :: t.leaves) ∧
      d' = { d with mem := d'.mem, root := d'.root, count := d.count + 1 } := by
  obtain ⟨r, hrun, hr⟩ := h.elemAdd_adds (A := A) data hcb hlen hno hpart
  have hpick : ∀ m, A.pick m ≠ none := fun m => Option.isSome_iff_ne_none.1 (hA m)
  cases hr with
  | added h' hperm hd' => exact ⟨_, _, _, hrun, h', hperm, hd'⟩
  | refused hfail _ => exact absurd hfail (hpick _)
  | halfway _ hfail _ _ _ _ =>
    obtain ⟨m, hfail⟩ := hfail
    exact absurd hfail (hpick m)

end Patricia

end Mowgli
