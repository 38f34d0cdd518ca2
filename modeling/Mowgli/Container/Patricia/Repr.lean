import Mathlib.Algebra.Order.BigOperators.Group.Finset
import Mathlib.Algebra.Order.Group.Multiset
import Mowgli.Container.Patricia.Nibble
/-!
# What a patricia tree's cells represent

`Repr` says that the cells of a store are those of a trie, each with its
children's addresses, its parent and its slot. `Holds` adds that the tree
owns exactly those cells, and `Inv`, the representation invariant, that
the trie is well formed for the nibbles of its keys and `count` counts
its leaves. A place in the trie is represented by `CtxRepr`.
-/

namespace Mowgli

/-- The tries a patricia tree holds: labels are the addresses of cells. -/
abbrev PTrie (D : Type) := Trie Addr CString D 16

/-- The nodes above a place in such a trie. -/
abbrev PCtx (D : Type) := List (Frame Addr CString D 16)

namespace Patricia

variable {D : Type} {m m' : Store (PatriciaElem D)}

/-- The cells of a trie whose root has the given parent and slot. -/
def Repr (m : Store (PatriciaElem D)) : PTrie D → Option Addr → ℕ → Prop
  | .nil, _, _ => True
  | .leaf x, parent, val => m.get x.cell = some (.leaf ⟨x.data, x.key, parent, val⟩)
  | .node a n down, parent, val =>
    m.get a = some (.node ⟨n, fun i => (down i).root?, parent, val⟩) ∧
      ∀ i, Repr m (down i) (some a) i

/-- The node above a place. -/
def above (c : PCtx D) : Option Addr := c.head?.map Frame.cell

/-- The slot of a place. At the root it is `elem_add`'s trap value. -/
def slotOf (c : PCtx D) : ℕ := (c.head?.map fun f => (f.slot : ℕ)).getD (POINTERS_PER_NODE + 2)

/-- The cells beside a place whose slot holds the address `p`. -/
def CtxRepr (m : Store (PatriciaElem D)) : PCtx D → Option Addr → Prop
  | [], _ => True
  | f :: c, p =>
    m.get f.cell = some (.node ⟨f.pos, Function.update (fun i => (f.down i).root?) f.slot p,
        above c, slotOf c⟩) ∧
      (∀ i, i ≠ f.slot → Repr m (f.down i) (some f.cell) i) ∧ CtxRepr m c (some f.cell)

@[simp] theorem above_nil : above ([] : PCtx D) = none := rfl

@[simp] theorem above_cons (f : Frame Addr CString D 16) (c : PCtx D) :
    above (f :: c) = some f.cell := rfl

@[simp] theorem slotOf_nil : slotOf ([] : PCtx D) = POINTERS_PER_NODE + 2 := rfl

@[simp] theorem slotOf_cons (f : Frame Addr CString D 16) (c : PCtx D) :
    slotOf (f :: c) = f.slot := rfl

theorem root?_downWith (f : Frame Addr CString D 16) (t : PTrie D) :
    (fun i => (f.downWith t i).root?) = Function.update (fun i => (f.down i).root?) f.slot t.root? := by
  funext i
  by_cases hi : i = f.slot
  · subst hi; simp
  · rw [f.downWith_of_ne t hi, Function.update_of_ne hi]

/-- **A trie is represented as a place and what is there.** -/
theorem repr_plug {c : PCtx D} {t : PTrie D} :
    Repr m (.plug c t) none (POINTERS_PER_NODE + 2) ↔
      CtxRepr m c t.root? ∧ Repr m t (above c) (slotOf c) := by
  induction c generalizing t with
  | nil => simp [CtxRepr]
  | cons f c ih =>
    rw [Trie.plug_cons, ih, CtxRepr]
    constructor
    · rintro ⟨hc, hf, hdown⟩
      rw [root?_downWith] at hf
      refine ⟨⟨hf, fun i hi => ?_, hc⟩, ?_⟩
      · have := hdown i
        rwa [f.downWith_of_ne t hi] at this
      · have := hdown f.slot
        rwa [f.downWith_slot] at this
    · rintro ⟨⟨hf, hdown, hc⟩, ht⟩
      refine ⟨hc, by rw [root?_downWith]; exact hf, fun i => ?_⟩
      by_cases hi : i = f.slot
      · rw [hi, f.downWith_slot]; exact ht
      · rw [f.downWith_of_ne t hi]; exact hdown i hi

/-! ## Cells and frames -/

theorem root?_mem_cells {t : PTrie D} {a : Addr} (h : t.root? = some a) : a ∈ t.cells := by
  cases t with
  | nil => cases h
  | leaf x => rw [Trie.root?, Option.some.injEq] at h; simp [Trie.cells, h]
  | node b n down => rw [Trie.root?, Option.some.injEq] at h; simp [Trie.cells, h]

theorem root?_eq_none {t : PTrie D} : t.root? = none ↔ t = .nil := by
  cases t <;> simp [Trie.root?]

theorem mem_cells_node {a b : Addr} {n : ℕ} {down : Fin 16 → PTrie D} :
    b ∈ (Trie.node a n down).cells ↔ b = a ∨ ∃ i, b ∈ (down i).cells := by
  simp [Trie.cells, Multiset.mem_sum]

theorem mem_frame_cells {f : Frame Addr CString D 16} {b : Addr} :
    b ∈ f.cells ↔ b = f.cell ∨ ∃ i, i ≠ f.slot ∧ b ∈ (f.down i).cells := by
  simp [Frame.cells, Multiset.mem_sum]

theorem mem_beside_cons {f : Frame Addr CString D 16} {c : PCtx D} {b : Addr} :
    b ∈ Trie.beside (f :: c) ↔ b ∈ f.cells ∨ b ∈ Trie.beside c := by
  simp [Trie.beside]

theorem mem_cells_leaf {t : PTrie D} {x : Item Addr CString D} (h : x ∈ t.leaves) :
    x.cell ∈ t.cells := by
  induction t with
  | nil => cases h
  | leaf y => simp only [Trie.leaves_leaf, List.mem_singleton] at h; simp [Trie.cells, h]
  | node a n down ih =>
    obtain ⟨i, hi⟩ := Trie.mem_leaves_node.1 h
    exact mem_cells_node.2 (Or.inr ⟨i, ih i hi⟩)

/-- A node has more cells than each of its subtrees. -/
theorem card_down_lt (a : Addr) (n : ℕ) (down : Fin 16 → PTrie D) (i : Fin 16) :
    (down i).cells.card < (Trie.node a n down).cells.card := by
  rw [Trie.cells, Multiset.card_cons]
  refine Nat.lt_succ_of_le (Multiset.card_le_card ?_)
  exact Finset.single_le_sum (f := fun i => (down i).cells) (fun _ _ => Multiset.zero_le _)
    (Finset.mem_univ i)

/-- There are no more nodes above a place than cells beside it. -/
theorem length_le_card_beside (c : PCtx D) : c.length ≤ (Trie.beside c).card := by
  induction c with
  | nil => exact Nat.zero_le _
  | cons f c ih =>
    rw [Trie.beside, List.map_cons, List.sum_cons, Multiset.card_add, List.length_cons,
      Frame.cells, Multiset.card_cons]
    rw [Trie.beside] at ih
    omega

/-- **Frame rule**: only the trie's own cells matter. -/
theorem Repr.congr : ∀ {t : PTrie D} {parent : Option Addr} {val : ℕ}, Repr m t parent val →
    (∀ a ∈ t.cells, m'.get a = m.get a) → Repr m' t parent val
  | .nil, _, _, _, _ => trivial
  | .leaf x, _, _, h, hsame => (hsame _ (by simp [Trie.cells])).trans h
  | .node a n down, _, _, h, hsame =>
    ⟨(hsame a (mem_cells_node.2 (Or.inl rfl))).trans h.1, fun i =>
      Repr.congr (h.2 i) fun b hb => hsame b (mem_cells_node.2 (Or.inr ⟨i, hb⟩))⟩

/-- And only the cells beside a place. -/
theorem CtxRepr.congr {c : PCtx D} {p : Option Addr} (h : CtxRepr m c p)
    (hsame : ∀ a ∈ Trie.beside c, m'.get a = m.get a) : CtxRepr m' c p := by
  induction c generalizing p with
  | nil => trivial
  | cons f c ih =>
    obtain ⟨hf, hdown, hc⟩ := h
    refine ⟨(hsame _ ?_).trans hf, fun i hi => (hdown i hi).congr fun b hb => hsame b ?_,
      ih hc fun b hb => hsame b (mem_beside_cons.2 (Or.inr hb))⟩
    · exact mem_beside_cons.2 (Or.inl (mem_frame_cells.2 (Or.inl rfl)))
    · exact mem_beside_cons.2 (Or.inl (mem_frame_cells.2 (Or.inr ⟨i, hi, hb⟩)))

/-- Writing the slot of a place. -/
theorem CtxRepr.write {f : Frame Addr CString D 16} {c : PCtx D} {p p' : Option Addr}
    (h : CtxRepr m (f :: c) p) (hnd : (Trie.beside (f :: c)).Nodup)
    (hf : m'.get f.cell = some (.node ⟨f.pos, Function.update (fun i => (f.down i).root?) f.slot p',
      above c, slotOf c⟩))
    (hsame : ∀ a ∈ Trie.beside (f :: c), a ≠ f.cell → m'.get a = m.get a) :
    CtxRepr m' (f :: c) p' := by
  obtain ⟨-, hdown, hc⟩ := h
  have hnd' : (f.cell ::ₘ (∑ i ∈ Finset.univ.erase f.slot, (f.down i).cells) +
      Trie.beside c).Nodup := hnd
  rw [Multiset.cons_add, Multiset.nodup_cons] at hnd'
  refine ⟨hf, fun i hi => (hdown i hi).congr fun b hb => ?_, hc.congr fun b hb => ?_⟩
  · refine hsame b (mem_beside_cons.2 (Or.inl (mem_frame_cells.2 (Or.inr ⟨i, hi, hb⟩)))) ?_
    rintro rfl
    refine hnd'.1 (Multiset.mem_add.2 (Or.inl (Multiset.mem_sum.2 ⟨i, ?_, hb⟩)))
    exact Finset.mem_erase.2 ⟨hi, Finset.mem_univ i⟩
  · refine hsame b (mem_beside_cons.2 (Or.inr hb)) ?_
    rintro rfl
    exact hnd'.1 (Multiset.mem_add.2 (Or.inr hb))

/-- **Giving a trie another parent and slot** changes its root cell and no
other. -/
theorem Repr.reparent {t : PTrie D} {parent parent' : Option Addr} {val val' : ℕ} {r : Addr}
    {e : PatriciaElem D} (h : Repr m t parent val) (hnd : t.cells.Nodup) (hr : t.root? = some r)
    (he : m.get r = some e) (hset : m'.get r = some (e.setParent parent' val'))
    (hsame : ∀ a ∈ t.cells, a ≠ r → m'.get a = m.get a) : Repr m' t parent' val' := by
  cases t with
  | nil => cases hr
  | leaf x =>
    obtain rfl : x.cell = r := Option.some.inj hr
    have hx : m.get x.cell = some (.leaf ⟨x.data, x.key, parent, val⟩) := h
    rw [hx, Option.some.injEq] at he
    rw [← he] at hset
    exact hset
  | node a n down =>
    obtain rfl : a = r := Option.some.inj hr
    rw [h.1, Option.some.injEq] at he
    rw [← he] at hset
    rw [Trie.cells, Multiset.nodup_cons] at hnd
    refine ⟨hset, fun i => (h.2 i).congr fun b hb => ?_⟩
    refine hsame b (mem_cells_node.2 (Or.inr ⟨i, hb⟩)) ?_
    rintro rfl
    exact hnd.1 (Multiset.mem_sum.2 ⟨i, Finset.mem_univ i, hb⟩)

/-- The cell of a leaf. -/
theorem Repr.leafAt {t : PTrie D} {parent : Option Addr} {val : ℕ} {x : Item Addr CString D}
    (h : Repr m t parent val) (hx : x ∈ t.leaves) :
    ∃ parent' val', Patricia.leafAt m x.cell = some ⟨x.data, x.key, parent', val'⟩ := by
  induction t generalizing parent val with
  | nil => cases hx
  | leaf y =>
    simp only [Trie.leaves_leaf, List.mem_singleton] at hx
    subst hx
    have hy : m.get x.cell = some (.leaf ⟨x.data, x.key, parent, val⟩) := h
    exact ⟨parent, val, by rw [Patricia.leafAt, hy]⟩
  | node a n down ih =>
    obtain ⟨i, hi⟩ := Trie.mem_leaves_node.1 hx
    exact ih i (h.2 i) hi

theorem CtxRepr.nodeAt {f : Frame Addr CString D 16} {c : PCtx D} {p : Option Addr}
    (h : CtxRepr m (f :: c) p) : Patricia.nodeAt m f.cell =
      some ⟨f.pos, Function.update (fun i => (f.down i).root?) f.slot p, above c, slotOf c⟩ := by
  rw [Patricia.nodeAt, h.1]

theorem child_slot (n : PatriciaNode) (i : Fin 16) : child n i = some (n.down i) := by
  rw [child, dif_pos (show (i : ℕ) < POINTERS_PER_NODE from i.isLt)]

theorem setChild_slot (n : PatriciaNode) (i : Fin 16) (p : Option Addr) :
    setChild n i p = some { n with down := Function.update n.down i p } := by
  rw [setChild, dif_pos (show (i : ℕ) < POINTERS_PER_NODE from i.isLt)]

/-! ## Writing the slot of a place -/

/-- The cells after writing `p` to the slot of a place. -/
def relink (m : Store (PatriciaElem D)) (c : PCtx D) (p : Option Addr) : Store (PatriciaElem D) :=
  match c with
  | [] => m
  | f :: c => m.set f.cell (.node ⟨f.pos, Function.update (fun i => (f.down i).root?) f.slot p,
      above c, slotOf c⟩)

theorem get_relink {c : PCtx D} (p : Option Addr) {a : Addr} (h : a ∉ Trie.beside c) :
    (relink m c p).get a = m.get a := by
  cases c with
  | nil => rfl
  | cons f c =>
    refine m.get_set_of_ne _ ?_
    rintro rfl
    exact h (mem_beside_cons.2 (Or.inl (mem_frame_cells.2 (Or.inl rfl))))

theorem CtxRepr.mem_live_relink {c : PCtx D} {q : Option Addr} (h : CtxRepr m c q)
    (p : Option Addr) {a : Addr} : a ∈ (relink m c p).live ↔ a ∈ m.live := by
  cases c with
  | nil => rfl
  | cons f c =>
    rw [relink, Store.mem_live_set, or_iff_right_of_imp]
    rintro rfl
    exact Store.mem_live.2 ⟨_, h.1⟩

/-- **The place holds what was written.** -/
theorem CtxRepr.relink {c : PCtx D} {q : Option Addr} (h : CtxRepr m c q)
    (hnd : (Trie.beside c).Nodup) (p : Option Addr) : CtxRepr (relink m c p) c p := by
  cases c with
  | nil => trivial
  | cons f c => exact h.write hnd (m.get_set_self ..) fun a _ ha => m.get_set_of_ne _ ha

@[simp] theorem setChild_frame (f : Frame Addr CString D 16) (c : PCtx D) (q p : Option Addr) :
    setChild ⟨f.pos, Function.update (fun i => (f.down i).root?) f.slot q, above c, slotOf c⟩
        f.slot p =
      some ⟨f.pos, Function.update (fun i => (f.down i).root?) f.slot p, above c, slotOf c⟩ := by
  rw [setChild_slot]
  simp

theorem relink_cons (f : Frame Addr CString D 16) (c : PCtx D) (p : Option Addr) :
    relink m (f :: c) p = m.set f.cell (.node ⟨f.pos,
      Function.update (fun i => (f.down i).root?) f.slot p, above c, slotOf c⟩) := rfl

/-! ## The tree as a whole -/

/-- The cells of the tree are those of `t`, and it owns no other. -/
structure Holds (d : Patricia D) (t : PTrie D) : Prop where
  root : d.root = t.root?
  repr : Repr d.mem t none (POINTERS_PER_NODE + 2)
  live : ∀ a, a ∈ d.mem.live ↔ a ∈ t.cells
  nodup : t.cells.Nodup

/-- **The representation invariant** of a patricia tree. -/
structure Inv (d : Patricia D) (t : PTrie D) : Prop extends Holds d t where
  wf : t.WF nibbleVal
  count : d.count = UInt32.ofNat t.leaves.length

variable {d : Patricia D} {c : PCtx D} {t : PTrie D}

theorem Holds.card_cells_le (h : Holds d t) : t.cells.card ≤ d.mem.live.card := by
  rw [← Multiset.toFinset_card_of_nodup h.nodup]
  exact Finset.card_le_card fun a ha => (h.live a).2 (Multiset.mem_toFinset.1 ha)

/-- The number of turns `fuel` allows for covers every cell. -/
theorem Holds.lt_fuel (h : Holds d t) : 2 * t.cells.card + 1 < d.fuel := by
  have := h.card_cells_le
  rw [fuel]
  omega

theorem Holds.ctxRepr (h : Holds d (.plug c t)) : CtxRepr d.mem c t.root? := (repr_plug.1 h.repr).1

theorem Holds.repr_at (h : Holds d (.plug c t)) : Repr d.mem t (above c) (slotOf c) :=
  (repr_plug.1 h.repr).2

theorem Holds.nodup_plug (h : Holds d (.plug c t)) : (Trie.beside c + t.cells).Nodup := by
  rw [← Trie.cells_plug]; exact h.nodup

theorem Holds.mem_live (h : Holds d (.plug c t)) {a : Addr} :
    a ∈ d.mem.live ↔ a ∈ Trie.beside c ∨ a ∈ t.cells := by
  rw [h.live, Trie.cells_plug, Multiset.mem_add]

/-- The empty tree. -/
theorem inv_create (cb : Option (CString → CString)) : Inv (create cb : Patricia D) .nil where
  root := rfl
  repr := trivial
  live a := by simp [create, Trie.cells]
  nodup := Multiset.nodup_zero
  wf := trivial
  count := rfl

end Patricia

end Mowgli
