import Mowgli.Library.BinTree
import Mowgli.Library.Links
/-!
# Binary trees of linked cells

A binary tree whose elements have cells, each with a pointer to its left
and to its right subtree. The spines of a splay are linked trees with a
hole: the right pointer of the last cell put on the left spine, and the
left pointer of the last one put on the right. What fills the hole is
what closes the spine. `Tuned` is a splay in progress over the cells, and
every assignment of the splay is a lemma about it.
-/

namespace Mowgli

namespace BinTree

open Links

variable {α : Type} {cell : α → Addr} {v v' : Links} {p q : Option Addr}

/-- The cells from `p` on are the tree. -/
def Linked (cell : α → Addr) (v : Links) : BinTree α → Option Addr → Prop
  | nil, p => p = none
  | node l x r, p =>
    p = some (cell x) ∧ ∃ a b, v (cell x) = some (a, b) ∧ Linked cell v l a ∧ Linked cell v r b

/-- The cells from `p` on are the left spine, with `q` in its hole. -/
def SpineL (cell : α → Addr) (v : Links) : List (BinTree α × α) → Option Addr → Option Addr → Prop
  | [], q, p => p = q
  | f :: L, q, p =>
    ∃ a, v (cell f.2) = some (a, q) ∧ Linked cell v f.1 a ∧ SpineL cell v L (some (cell f.2)) p

/-- The cells from `p` on are the right spine, with `q` in its hole. -/
def SpineR (cell : α → Addr) (v : Links) : List (α × BinTree α) → Option Addr → Option Addr → Prop
  | [], q, p => p = q
  | f :: R, q, p =>
    ∃ b, v (cell f.1) = some (q, b) ∧ Linked cell v f.2 b ∧ SpineR cell v R (some (cell f.1)) p

/-- The cell with the hole of a left spine. -/
def topL (cell : α → Addr) (L : List (BinTree α × α)) : Option Addr := L.head?.map fun f => cell f.2

/-- The cell with the hole of a right spine. -/
def topR (cell : α → Addr) (R : List (α × BinTree α)) : Option Addr := R.head?.map fun f => cell f.1

variable {t l r : BinTree α} {x : α} {L : List (BinTree α × α)} {R : List (α × BinTree α)}

/-- The pointer to a tree. -/
def root? (cell : α → Addr) : BinTree α → Option Addr
  | nil => none
  | node _ x _ => some (cell x)

theorem Linked.eq_root? (h : Linked cell v t p) : p = t.root? cell := by
  cases t with
  | nil => exact h
  | node l x r => exact h.1

theorem Linked.congr (h : Linked cell v t p)
    (hv : ∀ x ∈ t.inorder, v' (cell x) = v (cell x)) : Linked cell v' t p := by
  induction t generalizing p with
  | nil => exact h
  | node l x r ihl ihr =>
    obtain ⟨hp, a, b, hx, hl, hr⟩ := h
    refine ⟨hp, a, b, ?_, ihl hl fun y hy => hv y (by simp [hy]), ihr hr fun y hy => hv y (by simp [hy])⟩
    rw [hv x (by simp), hx]

theorem SpineL.congr (h : SpineL cell v L q p)
    (hv : ∀ x ∈ before L, v' (cell x) = v (cell x)) : SpineL cell v' L q p := by
  induction L generalizing q with
  | nil => exact h
  | cons f L ih =>
    obtain ⟨a, hf, hl, hL⟩ := h
    refine ⟨a, ?_, hl.congr fun y hy => hv y (by simp [hy]), ih hL fun y hy => hv y (by simp [hy])⟩
    rw [hv f.2 (by simp), hf]

theorem SpineR.congr (h : SpineR cell v R q p)
    (hv : ∀ x ∈ after R, v' (cell x) = v (cell x)) : SpineR cell v' R q p := by
  induction R generalizing q with
  | nil => exact h
  | cons f R ih =>
    obtain ⟨a, hf, hl, hR⟩ := h
    refine ⟨a, ?_, hl.congr fun y hy => hv y (by simp [hy]), ih hR fun y hy => hv y (by simp [hy])⟩
    rw [hv f.1 (by simp), hf]

/-- A tree in the hole closes a left spine. -/
theorem SpineL.close (h : SpineL cell v L q p) (ht : Linked cell v t q) :
    Linked cell v (closeLeft L t) p := by
  induction L generalizing q t with
  | nil => exact (show p = q from h) ▸ ht
  | cons f L ih =>
    obtain ⟨a, hf, hl, hL⟩ := h
    exact ih hL ⟨rfl, a, q, hf, hl, ht⟩

/-- A tree in the hole closes a right spine. -/
theorem SpineR.close (h : SpineR cell v R q p) (ht : Linked cell v t q) :
    Linked cell v (closeRight R t) p := by
  induction R generalizing q t with
  | nil => exact (show p = q from h) ▸ ht
  | cons f R ih =>
    obtain ⟨b, hf, hr, hR⟩ := h
    exact ih hR ⟨rfl, q, b, hf, ht, hr⟩

/-- A tree closed at a right spine is the spine with a tree in its hole. -/
theorem Linked.openRight (h : Linked cell v (closeRight R t) p) :
    ∃ q, SpineR cell v R q p ∧ Linked cell v t q := by
  induction R generalizing t with
  | nil => exact ⟨p, rfl, h⟩
  | cons f R ih =>
    obtain ⟨q, hR, rfl, a, b, hf, ht, hr⟩ := ih h
    exact ⟨a, ⟨b, hf, hr, hR⟩, ht⟩

theorem topL_mem {a : Addr} (h : topL cell L = some a) : ∃ y ∈ before L, cell y = a := by
  cases L with
  | nil => cases h
  | cons f L => exact ⟨f.2, by simp, Option.some.inj h⟩

theorem topR_mem {a : Addr} (h : topR cell R = some a) : ∃ y ∈ after R, cell y = a := by
  cases R with
  | nil => cases h
  | cons f R => exact ⟨f.1, by simp, Option.some.inj h⟩

theorem cell_ne {l₁ l₂ : List α} (h : ((l₁ ++ l₂).map cell).Nodup) {y z : α} (hy : y ∈ l₁)
    (hz : z ∈ l₂) : cell y ≠ cell z := by
  rw [List.map_append] at h
  exact (List.nodup_append.1 h).2.2 _ (List.mem_map_of_mem hy) _ (List.mem_map_of_mem hz)

theorem cell_ne_of_mem {l r : List α} {x z : α} (h : ((l ++ x :: r).map cell).Nodup)
    (hz : z ∈ l ++ r) : cell z ≠ cell x := by
  rw [List.map_append, List.map_cons, List.nodup_middle, List.nodup_cons, ← List.map_append] at h
  intro heq
  exact h.1 (heq ▸ List.mem_map_of_mem hz)

/-- The hole of a left spine is filled with something else. -/
theorem SpineL.setHole (h : SpineL cell v L q p) (hnd : ((before L).map cell).Nodup)
    (q' : Option Addr) : SpineL cell (v.setSnd? (topL cell L) q') L q'
      (if topL cell L = none then q' else p) := by
  cases L with
  | nil => rfl
  | cons f L =>
    obtain ⟨a, hf, hl, hL⟩ := h
    rw [before_cons] at hnd
    have hnd' := hnd
    rw [← List.append_assoc] at hnd'
    refine ⟨a, by simp [topL, setSnd_self, hf], hl.congr fun y hy => ?_, hL.congr fun y hy => ?_⟩
    · exact setSnd_of_ne (cell_ne hnd' (List.mem_append_right _ hy) (List.mem_singleton_self _))
    · exact setSnd_of_ne (cell_ne hnd hy (List.mem_append_right _ (List.mem_singleton_self _)))

/-- The hole of a right spine is filled with something else. -/
theorem SpineR.setHole (h : SpineR cell v R q p) (hnd : ((after R).map cell).Nodup)
    (q' : Option Addr) : SpineR cell (v.setFst? (topR cell R) q') R q'
      (if topR cell R = none then q' else p) := by
  cases R with
  | nil => rfl
  | cons f R =>
    obtain ⟨b, hf, hr, hR⟩ := h
    rw [after_cons, ← List.singleton_append] at hnd
    refine ⟨b, by simp [topR, setFst_self, hf], hr.congr fun y hy => ?_, hR.congr fun y hy => ?_⟩
    · exact setFst_of_ne
        (cell_ne hnd (List.mem_singleton_self _) (List.mem_append_left _ hy)).symm
    · exact setFst_of_ne
        (cell_ne hnd (List.mem_singleton_self _) (List.mem_append_right _ hy)).symm

/-! ## A new root -/

/-- A new root before the old one, which keeps its right subtree. -/
theorem Linked.plantBefore {y : α} (h : Linked cell v (node l x r) p)
    (hnd : ((node l x r).inorder.map cell).Nodup) (hy : (v (cell y)).isSome)
    (hfresh : ∀ z ∈ (node l x r).inorder, cell z ≠ cell y) :
    ∃ a b, v (cell x) = some (a, b) ∧
      Linked cell (((v.setFst (cell y) a).setSnd (cell y) (some (cell x))).setFst (cell x) none)
        (node l y (node nil x r)) (some (cell y)) := by
  obtain ⟨-, a, b, hx, hl, hr⟩ := h
  obtain ⟨w, hw⟩ := Option.isSome_iff_exists.1 hy
  have hxy := hfresh x (by simp)
  have hne : ∀ z ∈ l.inorder ++ r.inorder, cell z ≠ cell x := fun z hz => cell_ne_of_mem hnd hz
  have hv : ∀ z ∈ l.inorder ++ r.inorder, (((v.setFst (cell y) a).setSnd (cell y)
      (some (cell x))).setFst (cell x) none) (cell z) = v (cell z) := by
    intro z hz
    have hzy := hfresh z (by simp only [List.mem_append] at hz; simp; tauto)
    rw [setFst_of_ne (hne z hz), setSnd_of_ne hzy, setFst_of_ne hzy]
  refine ⟨a, b, hx, rfl, a, some (cell x), ?_, hl.congr fun z hz => hv z (by simp [hz]), rfl, none, b,
    ?_, rfl, hr.congr fun z hz => hv z (by simp [hz])⟩
  · rw [setFst_of_ne hxy.symm, setSnd_self, setFst_self, hw]
    rfl
  · rw [setFst_self, setSnd_of_ne hxy, setFst_of_ne hxy, hx]
    rfl

/-- A new root after the old one, which keeps its left subtree. -/
theorem Linked.plantAfter {y : α} (h : Linked cell v (node l x r) p)
    (hnd : ((node l x r).inorder.map cell).Nodup) (hy : (v (cell y)).isSome)
    (hfresh : ∀ z ∈ (node l x r).inorder, cell z ≠ cell y) :
    ∃ a b, v (cell x) = some (a, b) ∧
      Linked cell (((v.setSnd (cell y) b).setFst (cell y) (some (cell x))).setSnd (cell x) none)
        (node (node l x nil) y r) (some (cell y)) := by
  obtain ⟨-, a, b, hx, hl, hr⟩ := h
  obtain ⟨w, hw⟩ := Option.isSome_iff_exists.1 hy
  have hxy := hfresh x (by simp)
  have hne : ∀ z ∈ l.inorder ++ r.inorder, cell z ≠ cell x := fun z hz => cell_ne_of_mem hnd hz
  have hv : ∀ z ∈ l.inorder ++ r.inorder, (((v.setSnd (cell y) b).setFst (cell y)
      (some (cell x))).setSnd (cell x) none) (cell z) = v (cell z) := by
    intro z hz
    have hzy := hfresh z (by simp only [List.mem_append] at hz; simp; tauto)
    rw [setSnd_of_ne (hne z hz), setFst_of_ne hzy, setSnd_of_ne hzy]
  refine ⟨a, b, hx, rfl, some (cell x), b, ?_, ⟨rfl, a, none, ?_,
    hl.congr fun z hz => hv z (by simp [hz]), rfl⟩, hr.congr fun z hz => hv z (by simp [hz])⟩
  · rw [setSnd_of_ne hxy.symm, setFst_self, setSnd_self, hw]
    rfl
  · rw [setSnd_self, setFst_of_ne hxy, setSnd_of_ne hxy, hx]
    rfl

/-! ## The root taken out -/

/-- The first element of the right subtree, its right child, becomes the
root. -/
theorem Linked.promoteChild {y : α} {s : BinTree α} (h : Linked cell v (node l x (node nil y s)) p)
    (hnd : ((node l x (node nil y s)).inorder.map cell).Nodup) :
    ∃ a, v (cell x) = some (a, some (cell y)) ∧
      Linked cell (v.setFst (cell y) a) (node l y s) (some (cell y)) := by
  obtain ⟨-, a, b, hx, hl, rfl, a', c, hy, -, hs⟩ := h
  have hne : ∀ z ∈ (l.inorder ++ [x]) ++ s.inorder, cell z ≠ cell y :=
    fun z hz => cell_ne_of_mem (by simpa using hnd) hz
  refine ⟨a, hx, rfl, a, c, by rw [setFst_self, hy]; rfl, hl.congr fun z hz => ?_,
    hs.congr fun z hz => ?_⟩
  · exact setFst_of_ne (hne z (by simp [hz]))
  · exact setFst_of_ne (hne z (by simp [hz]))

/-- The first element of the right subtree, the child of `f`, becomes the
root, and its right subtree takes its place. -/
theorem Linked.promoteFirst {y : α} {s : BinTree α} {f : α × BinTree α}
    (h : Linked cell v (node l x (closeRight (f :: R) (node nil y s))) p)
    (hnd : ((node l x (closeRight (f :: R) (node nil y s))).inorder.map cell).Nodup) :
    ∃ a b c b', v (cell x) = some (a, b) ∧ v (cell y) = some (none, c) ∧
      v (cell f.1) = some (some (cell y), b') ∧ (v.setFst (cell f.1) c) (cell x) = some (a, b) ∧
      ((v.setFst (cell f.1) c).setFst (cell y) a) (cell x) = some (a, b) ∧
      Linked cell (((v.setFst (cell f.1) c).setFst (cell y) a).setSnd (cell y) b)
        (node l y (closeRight (f :: R) s)) (some (cell y)) := by
  obtain ⟨-, a, b, hx, hl, hr⟩ := h
  obtain ⟨q, hR, rfl, a', c, hy, rfl, hs⟩ := hr.openRight
  rw [inorder_node, inorder_closeRight, inorder_node, inorder_nil, List.nil_append] at hnd
  have hnex : ∀ z ∈ l.inorder ++ ((y :: s.inorder) ++ after (f :: R)), cell z ≠ cell x :=
    fun z hz => cell_ne_of_mem (by simpa using hnd) hz
  have hney : ∀ z ∈ (l.inorder ++ [x]) ++ (s.inorder ++ after (f :: R)), cell z ≠ cell y :=
    fun z hz => cell_ne_of_mem (by simpa using hnd) hz
  have hnef : ∀ z ∈ (l.inorder ++ x :: y :: s.inorder) ++ (f.2.inorder ++ after R),
      cell z ≠ cell f.1 := fun z hz => cell_ne_of_mem (by simpa using hnd) hz
  have hndR : ((after (f :: R)).map cell).Nodup := by
    rw [List.map_append, List.map_cons, List.map_append] at hnd
    exact (List.nodup_append.1 (List.nodup_cons.1 (List.nodup_append.1 hnd).2.1).2).2.1
  have hR' := hR.setHole hndR c
  obtain ⟨b', hf, -⟩ := hR
  rw [topR, List.head?_cons, Option.map_some, if_neg (by simp), setFst?_some] at hR'
  refine ⟨a, b, c, b', hx, hy, hf, ?_, ?_, rfl, a, b, ?_, hl.congr fun z hz => ?_,
    (hR'.close (hs.congr fun z hz => ?_)).congr fun z hz => ?_⟩
  · rw [setFst_of_ne (hnef x (by simp)), hx]
  · rw [setFst_of_ne (hney x (by simp)), setFst_of_ne (hnef x (by simp)), hx]
  · rw [setSnd_self, setFst_self, setFst_of_ne (hnef y (by simp)), hy]
    rfl
  · have hzy := hney z (by simp [hz])
    rw [setSnd_of_ne hzy, setFst_of_ne hzy, setFst_of_ne (hnef z (by simp [hz]))]
  · exact setFst_of_ne (hnef z (by simp [hz]))
  · rw [inorder_closeRight] at hz
    have hzy := hney z (List.mem_append_right _ hz)
    rw [setSnd_of_ne hzy, setFst_of_ne hzy]

/-! ## A splay in progress -/

/-- **A splay in progress.** The cells hold the tree at `at'` and the two
spines, which hang off `nRight` and `nLeft` and have their holes at `left`
and `right`. -/
structure Tuned (cell : α → Addr) (v : Links) (nLeft nRight left right : Option Addr) (at' : Addr)
    (s : Parts α) : Prop where
  tree : Linked cell v s.2.1 (some at')
  spineL : ∃ q, SpineL cell v s.1 q nRight
  spineR : ∃ q, SpineR cell v s.2.2 q nLeft
  left : left = topL cell s.1
  right : right = topR cell s.2.2
  nodup : ((spread s).map cell).Nodup

variable {nLeft nRight left right : Option Addr} {at' : Addr} {ll lr rl rr : BinTree α} {y : α}

/-- A right rotation: `node->left = tn->right; tn->right = node; node = tn`. -/
theorem Tuned.rotateRight
    (h : Tuned cell v nLeft nRight left right at' (L, node (node ll y lr) x r, R)) :
    ∃ c, v (cell y) = some (ll.root? cell, c) ∧
      Tuned cell ((v.setFst (cell x) c).setSnd (cell y) (some (cell x))) nLeft nRight left right
        (cell y) (L, node ll y (node lr x r), R) := by
  obtain ⟨⟨hat, a, b, hx, ⟨rfl, b', c, hy, hll, hlr⟩, hr⟩, ⟨qL, hL⟩, ⟨qR, hR⟩, hleft, hright, hnd⟩ := h
  have hnex : ∀ z ∈ (before L ++ (ll.inorder ++ y :: lr.inorder)) ++ (r.inorder ++ after R),
      cell z ≠ cell x := fun z hz => cell_ne_of_mem (by simpa [spread] using hnd) hz
  have hney : ∀ z ∈ (before L ++ ll.inorder) ++ (lr.inorder ++ x :: r.inorder ++ after R),
      cell z ≠ cell y := fun z hz => cell_ne_of_mem (by simpa [spread] using hnd) hz
  have hxy : cell x ≠ cell y := hney x (by simp)
  have hv : ∀ z ∈ before L ++ ll.inorder ++ lr.inorder ++ r.inorder ++ after R,
      ((v.setFst (cell x) c).setSnd (cell y) (some (cell x))) (cell z) = v (cell z) := by
    intro z hz
    simp only [List.mem_append] at hz
    rw [setSnd_of_ne (hney z (by simp; tauto)), setFst_of_ne (hnex z (by simp; tauto))]
  refine ⟨c, by rw [hy, hll.eq_root?], ⟨rfl, b', some (cell x), ?_,
    hll.congr fun z hz => hv z (by simp [hz]), rfl, c, b, ?_, hlr.congr fun z hz => hv z (by simp [hz]),
    hr.congr fun z hz => hv z (by simp [hz])⟩, ⟨qL, hL.congr fun z hz => hv z (by simp [hz])⟩,
    ⟨qR, hR.congr fun z hz => hv z (by simp [hz])⟩, hleft, hright, by simpa [spread] using hnd⟩
  · rw [setSnd_self, setFst_of_ne hxy.symm, hy]
    rfl
  · rw [setSnd_of_ne hxy, setFst_self, hx]
    rfl

/-- A left rotation: `node->right = tn->left; tn->left = node; node = tn`. -/
theorem Tuned.rotateLeft
    (h : Tuned cell v nLeft nRight left right at' (L, node l x (node rl y rr), R)) :
    ∃ b, v (cell y) = some (b, rr.root? cell) ∧
      Tuned cell ((v.setSnd (cell x) b).setFst (cell y) (some (cell x))) nLeft nRight left right
        (cell y) (L, node (node l x rl) y rr, R) := by
  obtain ⟨⟨hat, a, b, hx, hl, ⟨rfl, b', c, hy, hrl, hrr⟩⟩, ⟨qL, hL⟩, ⟨qR, hR⟩, hleft, hright, hnd⟩ := h
  have hnex : ∀ z ∈ (before L ++ l.inorder) ++ (rl.inorder ++ y :: rr.inorder ++ after R),
      cell z ≠ cell x := fun z hz => cell_ne_of_mem (by simpa [spread] using hnd) hz
  have hney : ∀ z ∈ (before L ++ (l.inorder ++ x :: rl.inorder)) ++ (rr.inorder ++ after R),
      cell z ≠ cell y := fun z hz => cell_ne_of_mem (by simpa [spread] using hnd) hz
  have hxy : cell x ≠ cell y := hney x (by simp)
  have hv : ∀ z ∈ before L ++ l.inorder ++ rl.inorder ++ rr.inorder ++ after R,
      ((v.setSnd (cell x) b').setFst (cell y) (some (cell x))) (cell z) = v (cell z) := by
    intro z hz
    simp only [List.mem_append] at hz
    rw [setFst_of_ne (hney z (by simp; tauto)), setSnd_of_ne (hnex z (by simp; tauto))]
  refine ⟨b', by rw [hy, hrr.eq_root?], ⟨rfl, some (cell x), c, ?_, ⟨rfl, a, b', ?_,
    hl.congr fun z hz => hv z (by simp [hz]), hrl.congr fun z hz => hv z (by simp [hz])⟩,
    hrr.congr fun z hz => hv z (by simp [hz])⟩, ⟨qL, hL.congr fun z hz => hv z (by simp [hz])⟩,
    ⟨qR, hR.congr fun z hz => hv z (by simp [hz])⟩, hleft, hright, by simpa [spread] using hnd⟩
  · rw [setFst_self, setSnd_of_ne hxy.symm, hy]
    rfl
  · rw [setFst_of_ne hxy, setSnd_self, hx]
    rfl

/-- Only the left spine has the hole of the left spine. -/
theorem setSnd?_topL (hnd : ((spread (L, t, R)).map cell).Nodup) {z : α}
    (hz : z ∈ t.inorder ++ after R) : v.setSnd? (topL cell L) q (cell z) = v (cell z) := by
  refine setSnd?_of_ne fun heq => ?_
  obtain ⟨y, hy, hyz⟩ := topL_mem heq
  exact cell_ne (by simpa [spread] using hnd) hy hz hyz

/-- Only the right spine has the hole of the right spine. -/
theorem setFst?_topR (hnd : ((spread (L, t, R)).map cell).Nodup) {z : α}
    (hz : z ∈ before L ++ t.inorder) : v.setFst? (topR cell R) q (cell z) = v (cell z) := by
  refine setFst?_of_ne fun heq => ?_
  obtain ⟨y, hy, hyz⟩ := topR_mem heq
  exact cell_ne hnd hz hy hyz.symm

theorem nodup_after (hnd : ((spread (L, t, R)).map cell).Nodup) : ((after R).map cell).Nodup := by
  rw [spread, List.map_append] at hnd
  exact (List.nodup_append.1 hnd).2.1

theorem nodup_before (hnd : ((spread (L, t, R)).map cell).Nodup) : ((before L).map cell).Nodup := by
  rw [spread, List.append_assoc, List.map_append] at hnd
  exact (List.nodup_append.1 hnd).1

/-- The step down to the left: `right->left = node; right = node; node = node->left`. -/
theorem Tuned.descendLeft {a : Addr} (hl : l.root? cell = some a)
    (h : Tuned cell v nLeft nRight left right at' (L, node l x r, R)) :
    ∃ b, v.setFst? right (some at') at' = some (some a, b) ∧
      Tuned cell (v.setFst? right (some at')) (if right = none then some at' else nLeft) nRight left
        (some at') a (L, l, (x, r) :: R) := by
  obtain ⟨⟨hat, p, b, hx, hll, hr⟩, ⟨qL, hL⟩, ⟨qR, hR⟩, hleft, rfl, hnd⟩ := h
  obtain rfl := Option.some.inj hat
  have hv : ∀ z ∈ before L ++ (node l x r).inorder,
      v.setFst? (topR cell R) (some (cell x)) (cell z) = v (cell z) :=
    fun z hz => setFst?_topR hnd hz
  obtain rfl := hll.eq_root?.trans hl
  have hx' := (hv x (by simp)).trans hx
  refine ⟨b, hx', hll.congr fun z hz => hv z (by simp [hz]), ⟨qL, hL.congr fun z hz => hv z (by simp [hz])⟩,
    ⟨_, b, hx', hr.congr fun z hz => hv z (by simp [hz]), hR.setHole (nodup_after hnd) _⟩, hleft,
    rfl, by simpa [spread] using hnd⟩

/-- The step down to the right: `left->right = node; left = node; node = node->right`. -/
theorem Tuned.descendRight {b : Addr} (hr : r.root? cell = some b)
    (h : Tuned cell v nLeft nRight left right at' (L, node l x r, R)) :
    ∃ a, v.setSnd? left (some at') at' = some (a, some b) ∧
      Tuned cell (v.setSnd? left (some at')) nLeft (if left = none then some at' else nRight)
        (some at') right b ((l, x) :: L, r, R) := by
  obtain ⟨⟨hat, a, p, hx, hl, hrr⟩, ⟨qL, hL⟩, ⟨qR, hR⟩, rfl, hright, hnd⟩ := h
  obtain rfl := Option.some.inj hat
  have hv : ∀ z ∈ (node l x r).inorder ++ after R,
      v.setSnd? (topL cell L) (some (cell x)) (cell z) = v (cell z) :=
    fun z hz => setSnd?_topL hnd hz
  obtain rfl := hrr.eq_root?.trans hr
  have hx' := (hv x (by simp)).trans hx
  refine ⟨a, hx', hrr.congr fun z hz => hv z (by simp [hz]),
    ⟨_, a, hx', hl.congr fun z hz => hv z (by simp [hz]), hL.setHole (nodup_before hnd) _⟩,
    ⟨qR, hR.congr fun z hz => hv z (by simp [hz])⟩, rfl, hright, by simpa [spread] using hnd⟩

/-- **The end of a splay**: the subtrees fill the holes, and the spines
become the subtrees. -/
theorem Tuned.assemble (h : Tuned cell v nLeft nRight left right at' (L, node l x r, R)) :
    ∃ a b, v at' = some (a, b) ∧ v.setSnd? left a at' = some (a, b) ∧
      Linked cell ((((v.setSnd? left a).setFst? right b).setFst at'
        (if left = none then a else nRight)).setSnd at' (if right = none then b else nLeft))
        (assemble (L, node l x r, R)) (some at') := by
  obtain ⟨⟨hat, a, b, hx, hl, hr⟩, ⟨qL, hL⟩, ⟨qR, hR⟩, rfl, rfl, hnd⟩ := h
  obtain rfl := Option.some.inj hat
  have hx₁ : v.setSnd? (topL cell L) a (cell x) = some (a, b) := by
    rw [setSnd?_topL hnd (by simp), hx]
  refine ⟨a, b, hx, hx₁, ?_⟩
  have hv₁ : ∀ z ∈ (node l x r).inorder ++ after R, v.setSnd? (topL cell L) a (cell z) = v (cell z) :=
    fun z hz => setSnd?_topL hnd hz
  have hL₁ := hL.setHole (nodup_before hnd) a
  have hR₁ := hR.congr fun z hz => hv₁ z (by simp [hz])
  have hl₁ := hl.congr fun z hz => hv₁ z (by simp [hz])
  have hr₁ := hr.congr fun z hz => hv₁ z (by simp [hz])
  generalize v.setSnd? (topL cell L) a = v₁ at *
  have hv₂ : ∀ z ∈ before L ++ (node l x r).inorder, v₁.setFst? (topR cell R) b (cell z) = v₁ (cell z) :=
    fun z hz => setFst?_topR hnd hz
  have hL₂ := hL₁.congr fun z hz => hv₂ z (by simp [hz])
  have hR₂ := hR₁.setHole (nodup_after hnd) b
  have hl₂ := hl₁.congr fun z hz => hv₂ z (by simp [hz])
  have hr₂ := hr₁.congr fun z hz => hv₂ z (by simp [hz])
  have hx₂ := hv₂ x (by simp)
  rw [hx₁] at hx₂
  generalize v₁.setFst? (topR cell R) b = v₂ at *
  -- with the holes filled the spines are closed, and the root is no cell of theirs
  have hne : ∀ z ∈ (before L ++ l.inorder) ++ (r.inorder ++ after R), cell z ≠ cell x :=
    fun z hz => cell_ne_of_mem (by simpa [spread] using hnd) hz
  refine ⟨rfl, _, _, ?_, (hL₂.close hl₂).congr fun z hz => ?_, (hR₂.close hr₂).congr fun z hz => ?_⟩
  · rw [setSnd_self, setFst_self, hx₂]
    rfl
  · rw [inorder_closeLeft] at hz
    have hz := hne z (List.mem_append_left _ hz)
    rw [setSnd_of_ne hz, setFst_of_ne hz]
  · rw [inorder_closeRight] at hz
    have hz := hne z (List.mem_append_right _ hz)
    rw [setSnd_of_ne hz, setFst_of_ne hz]

end BinTree

end Mowgli
