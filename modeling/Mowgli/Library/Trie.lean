import Mathlib.Algebra.BigOperators.Fin
import Mathlib.Algebra.Order.BigOperators.Group.Multiset
import Mathlib.Data.List.FinRange
import Mathlib.Data.Multiset.Fold
import Mowgli.Library.Elements
/-!
# Radix tries

A radix trie over keys whose digits are read by `dig : κ → ℕ → Fin b`. An
inner node tests one digit position and has one subtree for each value of
that digit; positions grow downwards, and a position no two keys of the
subtree differ at is skipped. Nodes and leaves carry a label (`ι`, in use
the address of the cell that stores them).

`WF` is the invariant of such a trie. The zipper (`Frame`, `plug`) is how
an algorithm that walks down and up the trie is described: a place in a
trie is the list of the nodes above it, innermost first.
-/

namespace Mowgli

/-- Radix tries with `b` branches at each node. `nil` is an absent subtree. -/
inductive Trie (ι κ δ : Type) (b : ℕ)
  | nil
  | leaf (x : Item ι κ δ)
  | node (a : ι) (n : ℕ) (down : Fin b → Trie ι κ δ b)

namespace Trie

variable {ι κ δ : Type} {b : ℕ}

/-- The leaves, in the order of their digits. -/
def leaves : Trie ι κ δ b → List (Item ι κ δ)
  | nil => []
  | leaf x => [x]
  | node _ _ down => (List.finRange b).flatMap fun i => (down i).leaves

/-- The labels of all nodes and leaves. -/
def cells : Trie ι κ δ b → Multiset ι
  | nil => 0
  | leaf x => {x.cell}
  | node a _ down => a ::ₘ ∑ i, (down i).cells

/-- The label of the root, if there is one. -/
def root? : Trie ι κ δ b → Option ι
  | nil => none
  | leaf x => some x.cell
  | node a _ _ => some a

/-- Every node at the root tests a position past `n`. -/
def Above (n : ℕ) : Trie ι κ δ b → Prop
  | node _ m _ => n < m
  | _ => True

/-- What a node at position `n` with subtrees `down` owes its leaves. -/
structure Branching (dig : κ → ℕ → Fin b) (n : ℕ) (down : Fin b → Trie ι κ δ b) : Prop where
  /-- A leaf is filed under the digit the node tests. -/
  filed : ∀ i, ∀ x ∈ (down i).leaves, dig x.key n = i
  /-- The leaves agree on every digit before it. -/
  agree : ∀ i j, ∀ x ∈ (down i).leaves, ∀ y ∈ (down j).leaves, ∀ m < n, dig x.key m = dig y.key m
  /-- The nodes below test later positions. -/
  above : ∀ i, (down i).Above n
  /-- There is a choice to make. -/
  two : ∃ i j, i ≠ j ∧ down i ≠ nil ∧ down j ≠ nil

/-- **The invariant of a radix trie**: every node in it branches. -/
def WF (dig : κ → ℕ → Fin b) : Trie ι κ δ b → Prop
  | nil => True
  | leaf _ => True
  | node _ n down => Branching dig n down ∧ ∀ i, (down i).WF dig

variable {dig : κ → ℕ → Fin b}

@[simp] theorem leaves_nil : (nil : Trie ι κ δ b).leaves = [] := rfl

@[simp] theorem leaves_leaf (x : Item ι κ δ) : (leaf x : Trie ι κ δ b).leaves = [x] := rfl

theorem mem_leaves_node {a : ι} {n : ℕ} {down : Fin b → Trie ι κ δ b} {x : Item ι κ δ} :
    x ∈ (node a n down).leaves ↔ ∃ i, x ∈ (down i).leaves := by
  simp [leaves]

@[simp] theorem wf_nil : (nil : Trie ι κ δ b).WF dig := trivial

@[simp] theorem wf_leaf (x : Item ι κ δ) : (leaf x : Trie ι κ δ b).WF dig := trivial

/-- **A trie that is present has a leaf.** Every node has two subtrees, so
the descent into present subtrees ends at one. -/
theorem exists_mem_leaves : ∀ {t : Trie ι κ δ b}, t.WF dig → t ≠ nil → ∃ x, x ∈ t.leaves
  | nil, _, h => absurd rfl h
  | leaf x, _, _ => ⟨x, by simp⟩
  | node a n down, ⟨hb, hwf⟩, _ => by
    obtain ⟨i, -, -, hi, -⟩ := hb.two
    obtain ⟨x, hx⟩ := exists_mem_leaves (hwf i) hi
    exact ⟨x, mem_leaves_node.2 ⟨i, hx⟩⟩

theorem leaves_eq_nil {t : Trie ι κ δ b} (h : t.WF dig) : t.leaves = [] ↔ t = nil := by
  refine ⟨fun he => ?_, fun he => by rw [he]; rfl⟩
  by_contra hne
  obtain ⟨x, hx⟩ := exists_mem_leaves h hne
  rw [he] at hx
  cases hx

/-- A node of a well-formed trie has two leaves. -/
theorem two_le_leaves {a : ι} {n : ℕ} {down : Fin b → Trie ι κ δ b} (h : (node a n down).WF dig) :
    2 ≤ (node a n down).leaves.length := by
  obtain ⟨i, j, hij, hi, hj⟩ := h.1.two
  obtain ⟨x, hx⟩ := exists_mem_leaves (h.2 i) hi
  obtain ⟨y, hy⟩ := exists_mem_leaves (h.2 j) hj
  have hne : x ≠ y := by
    rintro rfl
    exact hij ((h.1.filed i x hx).symm.trans (h.1.filed j x hy))
  have hx' : x ∈ (node a n down).leaves := mem_leaves_node.2 ⟨i, hx⟩
  have hy' : y ∈ (node a n down).leaves := mem_leaves_node.2 ⟨j, hy⟩
  by_contra hlt
  rcases hl : (node a n down).leaves with - | ⟨z, - | ⟨w, l⟩⟩
  · simp [hl] at hx'
  · rw [hl, List.mem_singleton] at hx' hy'
    exact hne (hx'.trans hy'.symm)
  · rw [hl] at hlt
    simp at hlt

/-- Whatever leaf of a well-formed node is looked at, its digit leads to
the subtree that holds it. -/
theorem mem_down_dig {a : ι} {n : ℕ} {down : Fin b → Trie ι κ δ b}
    (h : (node a n down).WF dig) {x : Item ι κ δ} (hx : x ∈ (node a n down).leaves) :
    x ∈ (down (dig x.key n)).leaves := by
  obtain ⟨i, hi⟩ := mem_leaves_node.1 hx
  rwa [h.1.filed i x hi]

/-! ## Places in a trie -/

end Trie

/-- A node on the way to a place, with the slot the way goes through. -/
structure Frame (ι κ δ : Type) (b : ℕ) where
  /-- The label of the node. -/
  cell : ι
  /-- The position it tests. -/
  pos : ℕ
  /-- Its subtrees. What is in slot `slot` is of no account. -/
  down : Fin b → Trie ι κ δ b
  /-- The slot the way goes through. -/
  slot : Fin b

namespace Frame

variable {ι κ δ : Type} {b : ℕ}

/-- The subtrees of the node with `t` at the place. -/
def downWith (f : Frame ι κ δ b) (t : Trie ι κ δ b) : Fin b → Trie ι κ δ b :=
  Function.update f.down f.slot t

/-- The node with `t` at the place. -/
def fill (f : Frame ι κ δ b) (t : Trie ι κ δ b) : Trie ι κ δ b :=
  .node f.cell f.pos (f.downWith t)

/-- The leaves of the node in the slots before the place. -/
def before (f : Frame ι κ δ b) : List (Item ι κ δ) :=
  ((List.finRange b).take f.slot).flatMap fun i => (f.down i).leaves

/-- The leaves of the node in the slots after the place. -/
def after (f : Frame ι κ δ b) : List (Item ι κ δ) :=
  ((List.finRange b).drop (f.slot + 1)).flatMap fun i => (f.down i).leaves

/-- The labels of the node and of the subtrees beside the place. -/
def cells (f : Frame ι κ δ b) : Multiset ι :=
  f.cell ::ₘ ∑ i ∈ Finset.univ.erase f.slot, (f.down i).cells

@[simp] theorem downWith_slot (f : Frame ι κ δ b) (t : Trie ι κ δ b) : f.downWith t f.slot = t :=
  Function.update_self ..

theorem downWith_of_ne (f : Frame ι κ δ b) (t : Trie ι κ δ b) {i : Fin b} (h : i ≠ f.slot) :
    f.downWith t i = f.down i :=
  Function.update_of_ne h ..

@[simp] theorem fill_ne_nil (f : Frame ι κ δ b) (t : Trie ι κ δ b) : f.fill t ≠ .nil := by
  simp [fill]

theorem mem_leaves_fill {f : Frame ι κ δ b} {t : Trie ι κ δ b} {x : Item ι κ δ} :
    x ∈ (f.fill t).leaves ↔ x ∈ t.leaves ∨ ∃ i, i ≠ f.slot ∧ x ∈ (f.down i).leaves := by
  rw [fill, Trie.mem_leaves_node]
  constructor
  · rintro ⟨i, hi⟩
    by_cases h : i = f.slot
    · rw [h, downWith_slot] at hi; exact Or.inl hi
    · rw [downWith_of_ne f t h] at hi; exact Or.inr ⟨i, h, hi⟩
  · rintro (h | ⟨i, h, hi⟩)
    · exact ⟨f.slot, by rwa [downWith_slot]⟩
    · exact ⟨i, by rwa [downWith_of_ne f t h]⟩

theorem leaves_fill (f : Frame ι κ δ b) (t : Trie ι κ δ b) :
    (f.fill t).leaves = f.before ++ t.leaves ++ f.after := by
  have hsplit : List.finRange b =
      (List.finRange b).take f.slot ++ f.slot :: (List.finRange b).drop (f.slot + 1) := by
    conv_lhs => rw [← List.take_append_drop f.slot (List.finRange b)]
    rw [List.drop_eq_getElem_cons (by simp)]
    simp
  have hcongr : ∀ l : List (Fin b), f.slot ∉ l →
      (l.flatMap fun i => (f.downWith t i).leaves) = l.flatMap fun i => (f.down i).leaves := by
    intro l hl
    refine List.flatMap_congr fun i hi => ?_
    rw [downWith_of_ne f t fun h => hl (h ▸ hi)]
  have hnd : (List.finRange b).Nodup := List.nodup_finRange b
  rw [hsplit, List.nodup_append] at hnd
  rw [fill, Trie.leaves, hsplit, List.flatMap_append, List.flatMap_cons, downWith_slot,
    hcongr _ fun h => hnd.2.2 _ h _ (List.mem_cons_self ..) rfl,
    hcongr _ (List.nodup_cons.1 hnd.2.1).1, before, after, List.append_assoc]

theorem cells_fill (f : Frame ι κ δ b) (t : Trie ι κ δ b) :
    (f.fill t).cells = f.cells + t.cells := by
  have hsum : ∑ i, (f.downWith t i).cells
      = (∑ i ∈ Finset.univ.erase f.slot, (f.down i).cells) + t.cells := by
    rw [← Finset.sum_erase_add _ _ (Finset.mem_univ f.slot), downWith_slot]
    congr 1
    exact Finset.sum_congr rfl fun i hi => by rw [downWith_of_ne f t (Finset.ne_of_mem_erase hi)]
  rw [fill, Trie.cells, hsum, cells, Multiset.cons_add]

end Frame

namespace Trie

variable {ι κ δ : Type} {b : ℕ} {dig : κ → ℕ → Fin b}

/-- The trie with `t` at the place below the nodes `c`. -/
def plug : List (Frame ι κ δ b) → Trie ι κ δ b → Trie ι κ δ b
  | [], t => t
  | f :: c, t => plug c (f.fill t)

@[simp] theorem plug_nil (t : Trie ι κ δ b) : plug [] t = t := rfl

@[simp] theorem plug_cons (f : Frame ι κ δ b) (c : List (Frame ι κ δ b)) (t : Trie ι κ δ b) :
    plug (f :: c) t = plug c (f.fill t) := rfl

/-- The leaves before a place. -/
def before (c : List (Frame ι κ δ b)) : List (Item ι κ δ) :=
  c.reverse.flatMap Frame.before

/-- The leaves after a place. -/
def after (c : List (Frame ι κ δ b)) : List (Item ι κ δ) := c.flatMap Frame.after

/-- The labels beside a place. -/
def beside (c : List (Frame ι κ δ b)) : Multiset ι := (c.map Frame.cells).sum

theorem leaves_plug (c : List (Frame ι κ δ b)) (t : Trie ι κ δ b) :
    (plug c t).leaves = before c ++ t.leaves ++ after c := by
  induction c generalizing t with
  | nil => simp [before, after]
  | cons f c ih => simp [ih, Frame.leaves_fill, before, after, List.append_assoc]

theorem cells_plug (c : List (Frame ι κ δ b)) (t : Trie ι κ δ b) :
    (plug c t).cells = beside c + t.cells := by
  induction c generalizing t with
  | nil => simp [beside]
  | cons f c ih => rw [plug_cons, ih, Frame.cells_fill, beside, beside, List.map_cons,
      List.sum_cons, ← add_assoc, add_comm f.cells]

theorem mem_leaves_plug {c : List (Frame ι κ δ b)} {t : Trie ι κ δ b} {x : Item ι κ δ}
    (h : x ∈ t.leaves) : x ∈ (plug c t).leaves := by
  simp [leaves_plug, h]

theorem plug_append (c c' : List (Frame ι κ δ b)) (t : Trie ι κ δ b) :
    plug (c ++ c') t = plug c' (plug c t) := by
  induction c generalizing t with
  | nil => rfl
  | cons f c ih => exact ih _

/-- Where an element sits in a concatenation of lists. -/
theorem exists_of_flatMap_eq {α β : Type} {f : α → List β} {x : β} :
    ∀ {l : List α} {p q : List β}, l.flatMap f = p ++ x :: q →
      ∃ l₁ a l₂ p' q', l = l₁ ++ a :: l₂ ∧ f a = p' ++ x :: q' ∧
        p = l₁.flatMap f ++ p' ∧ q = q' ++ l₂.flatMap f
  | [], p, q, h => by simp at h
  | a :: l, p, q, h => by
    rw [List.flatMap_cons, List.append_eq_append_iff] at h
    rcases h with ⟨p', rfl, h⟩ | ⟨q', h, hq⟩
    · obtain ⟨l₁, a', l₂, p₁, q₁, rfl, ha, rfl, rfl⟩ := exists_of_flatMap_eq h
      exact ⟨a :: l₁, a', l₂, p₁, q₁, rfl, ha, by simp, rfl⟩
    · rcases q' with - | ⟨y, q'⟩
      · obtain ⟨l₁, a', l₂, p₁, q₁, rfl, ha, hp, rfl⟩ :=
          exists_of_flatMap_eq (p := []) (q := q) (by simpa using hq.symm)
        refine ⟨a :: l₁, a', l₂, p₁, q₁, rfl, ha, ?_, rfl⟩
        rw [List.flatMap_cons, List.append_assoc, ← hp, h, List.append_nil, List.append_nil]
      · obtain ⟨rfl, rfl⟩ := List.cons.inj hq
        exact ⟨[], a, l, p, q', rfl, h, by simp, rfl⟩

/-- **Every leaf is at a place**, the one with the leaves before and after
it on either side. -/
theorem exists_plug_eq : ∀ {t : Trie ι κ δ b} {l r : List (Item ι κ δ)} {x : Item ι κ δ},
    t.leaves = l ++ x :: r → ∃ c, t = plug c (leaf x) ∧ before c = l ∧ after c = r
  | nil, l, r, x, h => by simp at h
  | leaf y, l, r, x, h => by
    rw [leaves_leaf, List.singleton_eq_append_iff] at h
    rcases h with ⟨rfl, h⟩ | ⟨-, h⟩
    · obtain ⟨rfl, rfl⟩ := List.cons.inj h
      exact ⟨[], rfl, rfl, rfl⟩
    · simp at h
  | node a n down, l, r, x, h => by
    obtain ⟨l₁, s, r₁, l₂, r₂, hs, hx, rfl, rfl⟩ := exists_of_flatMap_eq h
    obtain ⟨c, hc, rfl, rfl⟩ := exists_plug_eq hx
    have hlen : l₁.length = s := by
      have hget : (List.finRange b)[l₁.length]? = some s := by rw [hs]; simp
      rw [List.getElem?_eq_some_iff] at hget
      obtain ⟨hlt, hget⟩ := hget
      rw [← hget]
      simp
    refine ⟨c ++ [⟨a, n, down, s⟩], ?_, ?_, ?_⟩
    · rw [plug_append, ← hc]
      simp [Frame.fill, Frame.downWith]
    · simp [before, Frame.before, hs, ← hlen]
    · have hdrop : l₁.drop (l₁.length + 1) = [] := List.drop_eq_nil_of_le (by omega)
      simp [after, Frame.after, hs, ← hlen, List.drop_append, hdrop]

/-! ## The invariant at a place -/

theorem WF.of_fill {f : Frame ι κ δ b} {t : Trie ι κ δ b} (h : (f.fill t).WF dig) : t.WF dig := by
  have := h.2 f.slot
  rwa [Frame.downWith_slot] at this

theorem WF.of_plug {c : List (Frame ι κ δ b)} {t : Trie ι κ δ b} (h : (plug c t).WF dig) :
    t.WF dig := by
  induction c generalizing t with
  | nil => exact h
  | cons f c ih => exact (ih h).of_fill

/-- The place of a node is one for each of its subtrees. -/
theorem fill_mk (a : ι) (n : ℕ) (down : Fin b → Trie ι κ δ b) (s : Fin b) :
    (Frame.mk a n down s).fill (down s) = node a n down := by
  simp [Frame.fill, Frame.downWith]

/-- **Putting another subtree at a place keeps the invariant** when the
new subtree is itself well formed, its root tests a position past the
node above, and each of its leaves is one the old subtree had or agrees
with one of those past that node's position. Every node further up tests
an earlier position, so it cannot tell the new leaf from the old one. -/
theorem WF.replug {c : List (Frame ι κ δ b)} {t t' : Trie ι κ δ b} (h : (plug c t).WF dig)
    (ht' : t'.WF dig) (hne : t' ≠ nil) (habove : ∀ f ∈ c.head?, t'.Above f.pos)
    (hleaves : ∀ x ∈ t'.leaves, x ∈ t.leaves ∨
      ∃ y ∈ t.leaves, ∀ f ∈ c.head?, ∀ m ≤ f.pos, dig x.key m = dig y.key m) :
    (plug c t').WF dig := by
  induction c generalizing t t' with
  | nil => exact ht'
  | cons f c ih =>
    have hwf : (f.fill t).WF dig := WF.of_plug (c := c) h
    -- each new leaf has a twin in the old subtree that no position up to this one can tell apart
    have htwin : ∀ x ∈ (f.fill t').leaves,
        ∃ y ∈ (f.fill t).leaves, (x ∈ t'.leaves → y ∈ t.leaves) ∧
          ∀ m ≤ f.pos, dig x.key m = dig y.key m := by
      intro x hx
      by_cases hmem : x ∈ t'.leaves
      · rcases hleaves x hmem with hold | ⟨y, hy, hxy⟩
        · exact ⟨x, Frame.mem_leaves_fill.2 (Or.inl hold), fun _ => hold, fun _ _ => rfl⟩
        · exact ⟨y, Frame.mem_leaves_fill.2 (Or.inl hy), fun _ => hy, hxy f rfl⟩
      · have hbeside : x ∈ (f.fill t).leaves :=
          Frame.mem_leaves_fill.2 (Or.inr ((Frame.mem_leaves_fill.1 hx).resolve_left hmem))
        exact ⟨x, hbeside, fun h => absurd h hmem, fun _ _ => rfl⟩
    have hbr : Branching dig f.pos (f.downWith t') := by
      have hold := hwf.1
      refine ⟨fun i x hx => ?_, fun i j x hx y hy m hm => ?_, fun i => ?_, ?_⟩
      · by_cases hi : i = f.slot
        · subst hi
          rw [Frame.downWith_slot] at hx
          obtain ⟨y, -, hy, hxy⟩ := htwin x (Frame.mem_leaves_fill.2 (Or.inl hx))
          rw [hxy _ le_rfl]
          exact hold.filed f.slot y (by rw [Frame.downWith_slot]; exact hy hx)
        · rw [Frame.downWith_of_ne f _ hi] at hx
          exact hold.filed i x (by rwa [Frame.downWith_of_ne f _ hi])
      · obtain ⟨x', hx', -, hxx⟩ := htwin x (mem_leaves_node.2 ⟨i, hx⟩)
        obtain ⟨y', hy', -, hyy⟩ := htwin y (mem_leaves_node.2 ⟨j, hy⟩)
        obtain ⟨i', hi'⟩ := mem_leaves_node.1 hx'
        obtain ⟨j', hj'⟩ := mem_leaves_node.1 hy'
        rw [hxx m hm.le, hyy m hm.le]
        exact hold.agree i' j' x' hi' y' hj' m hm
      · by_cases hi : i = f.slot
        · rw [hi, Frame.downWith_slot]; exact habove f rfl
        · rw [Frame.downWith_of_ne f _ hi, ← Frame.downWith_of_ne f t hi]; exact hold.above i
      · obtain ⟨i, j, hij, hi, hj⟩ := hold.two
        have hkeep : ∀ k, f.downWith t k ≠ nil → f.downWith t' k ≠ nil := by
          intro k hk
          by_cases hks : k = f.slot
          · rw [hks, Frame.downWith_slot]; exact hne
          · rwa [Frame.downWith_of_ne f _ hks, ← Frame.downWith_of_ne f t hks]
        exact ⟨i, j, hij, hkeep i hi, hkeep j hj⟩
    have hfill : (f.fill t').WF dig := by
      refine ⟨hbr, fun i => ?_⟩
      by_cases hi : i = f.slot
      · rw [hi, Frame.downWith_slot]; exact ht'
      · rw [Frame.downWith_of_ne f _ hi, ← Frame.downWith_of_ne f t hi]; exact hwf.2 i
    refine @ih (f.fill t) (f.fill t') h hfill (by simp) ?_ ?_
    · intro g hg
      rcases c with - | ⟨g', c⟩
      · cases hg
      · obtain rfl : g' = g := by simpa using hg
        have hg' := (WF.of_plug (c := c) h).1.above g'.slot
        rw [Frame.downWith_slot] at hg'
        exact hg'
    · intro x hx
      obtain ⟨y, hy, -, hxy⟩ := htwin x hx
      refine Or.inr ⟨y, hy, fun g hg m hm => hxy m ?_⟩
      rcases c with - | ⟨g', c⟩
      · cases hg
      · obtain rfl : g' = g := by simpa using hg
        have hg' := (WF.of_plug (c := c) h).1.above g'.slot
        rw [Frame.downWith_slot] at hg'
        exact hm.trans (le_of_lt hg')

end Trie

end Mowgli
