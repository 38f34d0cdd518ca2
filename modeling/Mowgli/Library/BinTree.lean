import Mathlib.Data.List.Induction
import Mathlib.Data.List.Flatten
import Mathlib.Data.List.Pairwise
import Mathlib.Tactic.Linarith
/-!
# Binary trees and the top-down splay

A binary tree, its elements in order, and the two spines a top-down splay
takes a tree apart into: `closeLeft` and `closeRight` put them together
again. What is looked for is given by `c`, positive at the elements before
it and negative at those after it, and zero where it is. A splay keeps the
elements in order and ends at a root next to which it would stand.
-/

namespace Mowgli

/-- Binary trees. -/
inductive BinTree (α : Type)
  | nil
  | node (l : BinTree α) (x : α) (r : BinTree α)

namespace BinTree

variable {α : Type}

/-- The elements, in order. -/
def inorder : BinTree α → List α
  | nil => []
  | node l x r => l.inorder ++ x :: r.inorder

@[simp] theorem inorder_nil : (nil : BinTree α).inorder = [] := rfl

@[simp] theorem inorder_node (l : BinTree α) (x : α) (r : BinTree α) :
    (node l x r).inorder = l.inorder ++ x :: r.inorder := rfl

theorem inorder_eq_nil {t : BinTree α} : t.inorder = [] ↔ t = nil := by
  cases t <;> simp

/-- Binary search trees for an order. -/
def BST (lt : α → α → Prop) : BinTree α → Prop
  | nil => True
  | node l x r => (∀ y ∈ l.inorder, lt y x) ∧ (∀ y ∈ r.inorder, lt x y) ∧ BST lt l ∧ BST lt r

/-- A tree whose elements are in order is a binary search tree. -/
theorem bst_of_sorted {lt : α → α → Prop} {t : BinTree α} (h : t.inorder.Pairwise lt) : t.BST lt := by
  induction t with
  | nil => trivial
  | node l x r ihl ihr =>
    obtain ⟨hl, hxr, hlx⟩ := List.pairwise_append.1 h
    obtain ⟨hx, hr⟩ := List.pairwise_cons.1 hxr
    exact ⟨fun y hy => hlx y hy x (List.mem_cons_self ..), hx, ihl hl, ihr hr⟩

/-- The elements of a binary search tree are in order. -/
theorem BST.sorted {lt : α → α → Prop} {t : BinTree α} (h : t.BST lt)
    (htrans : ∀ x y z, lt x y → lt y z → lt x z) : t.inorder.Pairwise lt := by
  induction t with
  | nil => exact List.Pairwise.nil
  | node l x r ihl ihr =>
    obtain ⟨hl, hr, hbl, hbr⟩ := h
    refine List.pairwise_append.2 ⟨ihl hbl, List.pairwise_cons.2 ⟨hr, ihr hbr⟩, fun y hy z hz => ?_⟩
    rcases List.mem_cons.1 hz with rfl | hz
    · exact hl y hy
    · exact htrans y x z (hl y hy) (hr z hz)

/-! ## Spines -/

/-- A left spine: elements with their left subtrees, each the right child of
the one after it in the list. `t` goes where the spine is open. -/
def closeLeft : List (BinTree α × α) → BinTree α → BinTree α
  | [], t => t
  | f :: L, t => closeLeft L (node f.1 f.2 t)

/-- A right spine: elements with their right subtrees, each the left child
of the one after it in the list. -/
def closeRight : List (α × BinTree α) → BinTree α → BinTree α
  | [], t => t
  | f :: R, t => closeRight R (node t f.1 f.2)

/-- The elements of a left spine. -/
def before (L : List (BinTree α × α)) : List α := L.reverse.flatMap fun f => f.1.inorder ++ [f.2]

/-- The elements of a right spine. -/
def after (R : List (α × BinTree α)) : List α := R.flatMap fun f => f.1 :: f.2.inorder

@[simp] theorem before_nil : before ([] : List (BinTree α × α)) = [] := rfl

@[simp] theorem after_nil : after ([] : List (α × BinTree α)) = [] := rfl

@[simp] theorem before_cons (f : BinTree α × α) (L : List (BinTree α × α)) :
    before (f :: L) = before L ++ (f.1.inorder ++ [f.2]) := by
  simp [before]

@[simp] theorem after_cons (f : α × BinTree α) (R : List (α × BinTree α)) :
    after (f :: R) = f.1 :: (f.2.inorder ++ after R) := by
  simp [after]

theorem length_le_after (R : List (α × BinTree α)) : R.length ≤ (after R).length := by
  induction R with
  | nil => exact Nat.le_refl 0
  | cons f R ih =>
    simp only [after_cons, List.length_cons, List.length_append]
    omega

theorem inorder_closeLeft (L : List (BinTree α × α)) (t : BinTree α) :
    (closeLeft L t).inorder = before L ++ t.inorder := by
  induction L generalizing t with
  | nil => simp [closeLeft]
  | cons f L ih => simp [closeLeft, ih]

theorem inorder_closeRight (R : List (α × BinTree α)) (t : BinTree α) :
    (closeRight R t).inorder = t.inorder ++ after R := by
  induction R generalizing t with
  | nil => simp [closeRight]
  | cons f R ih => simp [closeRight, ih]

theorem closeRight_append (R R' : List (α × BinTree α)) (t : BinTree α) :
    closeRight (R ++ R') t = closeRight R' (closeRight R t) := by
  induction R generalizing t with
  | nil => rfl
  | cons f R ih => exact ih _

/-- The root of a tree closed at a right spine is an element of the spine. -/
theorem closeRight_cons (f : α × BinTree α) (R : List (α × BinTree α)) (t : BinTree α) :
    ∃ l x r, closeRight (f :: R) t = node l x r ∧ x ∈ after (f :: R) := by
  induction R using List.reverseRecOn with
  | nil => exact ⟨_, _, _, rfl, by simp⟩
  | append_singleton R g _ =>
    refine ⟨closeRight (f :: R) t, g.1, g.2, ?_, by simp [after]⟩
    rw [← List.cons_append, closeRight_append]
    rfl

/-- **The first element of a tree** is at the end of a right spine, and has
no left child. -/
theorem exists_closeRight (l : BinTree α) (x : α) (r : BinTree α) :
    ∃ R y s, node l x r = closeRight R (node nil y s) := by
  suffices h : ∀ (t : BinTree α) (x : α) (r : BinTree α) (R : List (α × BinTree α)),
      ∃ R' y s, closeRight R (node t x r) = closeRight R' (node nil y s) from h l x r []
  intro t
  induction t with
  | nil => exact fun x r R => ⟨R, x, r, rfl⟩
  | node l y s ihl _ => exact fun x r R => ihl y s ((x, r) :: R)

/-! ## The splay -/

/-- The loop of the splay: what it has taken apart to the left and to the
right, and the tree it is at. -/
def tune (c : α → ℤ) (L : List (BinTree α × α)) (R : List (α × BinTree α)) :
    BinTree α → List (BinTree α × α) × BinTree α × List (α × BinTree α)
  | nil => (L, nil, R)
  | node l x r =>
    if c x = 0 then (L, node l x r, R)
    else if c x < 0 then
      match l with
      | nil => (L, node nil x r, R)
      | node ll y lr =>
        if c y < 0 then
          match ll with
          | nil => (L, node nil y (node lr x r), R)
          | node lll z llr => tune c L ((y, node lr x r) :: R) (node lll z llr)
        else tune c L ((x, r) :: R) (node ll y lr)
    else
      match r with
      | nil => (L, node l x nil, R)
      | node rl y rr =>
        if 0 < c y then
          match rr with
          | nil => (L, node (node l x rl) y nil, R)
          | node rrl z rrr => tune c ((node l x rl, y) :: L) R (node rrl z rrr)
        else tune c ((l, x) :: L) R (node rl y rr)

/-- The tree with the spines closed below its root. -/
def assemble : List (BinTree α × α) × BinTree α × List (α × BinTree α) → BinTree α
  | (_, nil, _) => nil
  | (L, node l x r, R) => node (closeLeft L l) x (closeRight R r)

/-- **The top-down splay.** -/
def splay (c : α → ℤ) (t : BinTree α) : BinTree α := assemble (tune c [] [] t)

/-- What is looked for has one place in the list: past the first element
that is not before it, all elements are after it. -/
def Cut (c : α → ℤ) (l : List α) : Prop := l.Pairwise fun x y => c x ≤ 0 → c y < 0

variable {c : α → ℤ} {l r : List α} {x : α}

theorem Cut.left (h : Cut c (l ++ x :: r)) : Cut c l := (List.pairwise_append.1 h).1

theorem Cut.right (h : Cut c (l ++ x :: r)) : Cut c r :=
  (List.pairwise_cons.1 (List.pairwise_append.1 h).2.1).2

theorem Cut.neg (h : Cut c (l ++ x :: r)) (hx : c x ≤ 0) : ∀ y ∈ r, c y < 0 :=
  fun y hy => (List.pairwise_cons.1 (List.pairwise_append.1 h).2.1).1 y hy hx

theorem Cut.pos (h : Cut c (l ++ x :: r)) (hx : 0 ≤ c x) : ∀ y ∈ l, 0 < c y := by
  intro y hy
  by_contra hle
  have := (List.pairwise_append.1 h).2.2 y hy x (List.mem_cons_self ..) (not_lt.1 hle)
  omega

/-- A state of the loop: the left spine, the tree it is at, the right spine. -/
abbrev Parts (α : Type) : Type := List (BinTree α × α) × BinTree α × List (α × BinTree α)

/-- The elements in order, spines included. -/
def spread (s : Parts α) : List α := before s.1 ++ s.2.1.inorder ++ after s.2.2

/-- The spines are on their sides of what is looked for. -/
structure Sides (c : α → ℤ) (s : Parts α) : Prop where
  left : ∀ y ∈ before s.1, 0 < c y
  right : ∀ y ∈ after s.2.2, c y < 0

/-- The loop is at what is looked for, or next to where it would be. -/
def AtEnd (c : α → ℤ) : BinTree α → Prop
  | nil => False
  | node l x r => c x = 0 ∨ (c x < 0 ∧ l = nil) ∨ (0 < c x ∧ r = nil)

variable {L : List (BinTree α × α)} {R : List (α × BinTree α)}

theorem Sides.pushLeft {l : BinTree α} {t : BinTree α} (h : Sides c (L, t, R))
    (hl : ∀ y ∈ l.inorder, 0 < c y) (hx : 0 < c x) {t' : BinTree α} :
    Sides c ((l, x) :: L, t', R) := by
  refine ⟨fun y hy => ?_, h.right⟩
  simp only [before_cons, List.mem_append, List.mem_singleton] at hy
  rcases hy with hy | hy | rfl
  · exact h.left y hy
  · exact hl y hy
  · exact hx

theorem Sides.pushRight {r : BinTree α} {t : BinTree α} (h : Sides c (L, t, R))
    (hr : ∀ y ∈ r.inorder, c y < 0) (hx : c x < 0) {t' : BinTree α} :
    Sides c (L, t', (x, r) :: R) := by
  refine ⟨h.left, fun y hy => ?_⟩
  simp only [after_cons, List.mem_cons, List.mem_append] at hy
  rcases hy with rfl | hy | hy
  · exact hx
  · exact hr y hy
  · exact h.right y hy

/-- The loop keeps the elements in order. -/
theorem spread_tune (c : α → ℤ) (L : List (BinTree α × α)) (R : List (α × BinTree α))
    (t : BinTree α) : spread (tune c L R t) = spread (L, t, R) := by
  fun_induction tune c L R t with
  | case1 => rfl
  | case2 => rfl
  | case3 => rfl
  | case4 => simp [spread]
  | case5 L R x r h0 hneg y lr hy lll z llr ih => exact ih.trans (by simp [spread])
  | case6 L R x r h0 hneg ll y lr hy ih => exact ih.trans (by simp [spread])
  | case7 => rfl
  | case8 => simp [spread]
  | case9 L R l x h0 hneg rl y hy rrl z rrr ih => exact ih.trans (by simp [spread])
  | case10 L R l x h0 hneg rl y rr hy ih => exact ih.trans (by simp [spread])

/-- **What the loop of a splay ends with**: spines on their sides, and at
what is looked for or next to where it would be. -/
theorem tune_spec (c : α → ℤ) (L : List (BinTree α × α)) (R : List (α × BinTree α))
    (t : BinTree α) (hne : t ≠ nil) (hcut : Cut c t.inorder) (h : Sides c (L, t, R)) :
    Sides c (tune c L R t) ∧ AtEnd c (tune c L R t).2.1 := by
  fun_induction tune c L R t with
  | case1 => exact absurd rfl hne
  | case2 L R l x r h0 => exact ⟨h, Or.inl h0⟩
  | case3 L R x r h0 hneg => exact ⟨h, Or.inr (Or.inl ⟨hneg, rfl⟩)⟩
  | case4 L R x r h0 hneg y lr hy => exact ⟨⟨h.left, h.right⟩, Or.inr (Or.inl ⟨hy, rfl⟩)⟩
  | case5 L R x r h0 hneg y lr hy lll z llr ih =>
    have hcut' : Cut c ((node lll z llr).inorder ++ y :: (node lr x r).inorder) := by
      simpa using hcut
    exact ih (by simp) hcut'.left (h.pushRight (hcut'.neg hy.le) hy)
  | case6 L R x r h0 hneg ll y lr hy ih =>
    exact ih (by simp) hcut.left (h.pushRight (hcut.neg hneg.le) hneg)
  | case7 L R l x h0 hneg => exact ⟨h, Or.inr (Or.inr ⟨by omega, rfl⟩)⟩
  | case8 L R l x h0 hneg rl y hy => exact ⟨⟨h.left, h.right⟩, Or.inr (Or.inr ⟨hy, rfl⟩)⟩
  | case9 L R l x h0 hneg rl y hy rrl z rrr ih =>
    have hcut' : Cut c ((node l x rl).inorder ++ y :: (node rrl z rrr).inorder) := by
      simpa using hcut
    exact ih (by simp) hcut'.right (h.pushLeft (hcut'.pos hy.le) hy)
  | case10 L R l x h0 hneg rl y rr hy ih =>
    have hx : 0 < c x := by omega
    exact ih (by simp) hcut.right (h.pushLeft (hcut.pos hx.le) hx)

/-- The loop stays at a tree. -/
theorem tune_ne_nil (c : α → ℤ) (L : List (BinTree α × α)) (R : List (α × BinTree α))
    {t : BinTree α} (hne : t ≠ nil) : (tune c L R t).2.1 ≠ nil := by
  fun_induction tune c L R t with
  | case1 => exact absurd rfl hne
  | case5 L R x r h0 hneg y lr hy lll z llr ih => exact ih (by simp)
  | case6 L R x r h0 hneg ll y lr hy ih => exact ih (by simp)
  | case9 L R l x h0 hneg rl y hy rrl z rrr ih => exact ih (by simp)
  | case10 L R l x h0 hneg rl y rr hy ih => exact ih (by simp)
  | _ => simp

theorem inorder_assemble {s : Parts α} (h : s.2.1 ≠ nil) : (assemble s).inorder = spread s := by
  obtain ⟨L, t, R⟩ := s
  cases t with
  | nil => exact absurd rfl h
  | node l x r => simp [assemble, spread, inorder_closeLeft, inorder_closeRight]

/-- **A splay keeps the elements in order.** -/
theorem inorder_splay (c : α → ℤ) (t : BinTree α) : (splay c t).inorder = t.inorder := by
  by_cases ht : t = nil
  · subst ht
    rfl
  · rw [splay, inorder_assemble (tune_ne_nil c [] [] ht), spread_tune]
    simp [spread]

/-- **The root of a splay** is what is looked for, or next to where it would
be. -/
theorem splay_spec {t : BinTree α} (hne : t ≠ nil) (hcut : Cut c t.inorder) :
    ∃ l x r, splay c t = node l x r ∧
      (c x = 0 ∨ (c x < 0 ∧ ∀ y ∈ l.inorder, 0 < c y) ∨ (0 < c x ∧ ∀ y ∈ r.inorder, c y < 0)) := by
  obtain ⟨hsides, hend⟩ := tune_spec c [] [] t hne hcut ⟨by simp, by simp⟩
  rw [splay]
  generalize tune c [] [] t = s at hsides hend
  obtain ⟨L, t', R⟩ := s
  cases t' with
  | nil => exact hend.elim
  | node l x r =>
    refine ⟨_, _, _, rfl, ?_⟩
    rcases hend with h0 | ⟨hneg, rfl⟩ | ⟨hpos, rfl⟩
    · exact Or.inl h0
    · refine Or.inr (Or.inl ⟨hneg, ?_⟩)
      simpa [inorder_closeLeft] using hsides.left
    · refine Or.inr (Or.inr ⟨hpos, ?_⟩)
      simpa [inorder_closeRight] using hsides.right

/-- And where it is not what is looked for, that is nowhere in the tree. -/
theorem splay_root {t : BinTree α} (hne : t ≠ nil) (hcut : Cut c t.inorder) :
    ∃ l x r, splay c t = node l x r ∧ t.inorder = l.inorder ++ x :: r.inorder ∧
      (c x = 0 ∨ (∀ y ∈ t.inorder, c y ≠ 0) ∧
        ((c x < 0 ∧ ∀ y ∈ l.inorder, 0 < c y) ∨ (0 < c x ∧ ∀ y ∈ r.inorder, c y < 0))) := by
  obtain ⟨l, x, r, hs, hx⟩ := splay_spec hne hcut
  have hin := inorder_splay c t
  rw [hs, inorder_node] at hin
  rw [← hin] at hcut ⊢
  refine ⟨l, x, r, hs, rfl, ?_⟩
  rcases hx with h0 | ⟨hneg, hl⟩ | ⟨hpos, hr⟩
  · exact Or.inl h0
  · refine Or.inr ⟨fun y hy => ?_, Or.inl ⟨hneg, hl⟩⟩
    rcases List.mem_append.1 hy with hy | hy
    · exact (hl y hy).ne'
    · rcases List.mem_cons.1 hy with rfl | hy
      · exact hneg.ne
      · exact (hcut.neg hneg.le y hy).ne
  · refine Or.inr ⟨fun y hy => ?_, Or.inr ⟨hpos, hr⟩⟩
    rcases List.mem_append.1 hy with hy | hy
    · exact (hcut.pos hpos.le y hy).ne'
    · rcases List.mem_cons.1 hy with rfl | hy
      · exact hpos.ne'
      · exact (hr y hy).ne

/-! ## The search path

What a search comes by, in any tree. In one that is not a search tree the
element looked for may stand elsewhere; but a splay that misses it ends
with a tree in which the search misses it again. -/

/-- The elements a search comes by. -/
def path (c : α → ℤ) : BinTree α → List α
  | nil => []
  | node l x r => x :: (if c x = 0 then [] else if c x < 0 then path c l else path c r)

/-- The search comes by nothing that is looked for. -/
def Misses (c : α → ℤ) (t : BinTree α) : Prop := ∀ x ∈ path c t, c x ≠ 0

theorem Misses.ne_zero {l r : BinTree α} (h : Misses c (node l x r)) : c x ≠ 0 :=
  h x (by simp [path])

theorem Misses.left {l r : BinTree α} (h : Misses c (node l x r)) (hx : c x < 0) : Misses c l :=
  fun y hy => h y (by simp [path, hx, hx.ne, hy])

theorem Misses.right {l r : BinTree α} (h : Misses c (node l x r)) (hx : 0 < c x) : Misses c r :=
  fun y hy => h y (by simp [path, hx.ne', not_lt.2 hx.le, hy])

theorem misses_nil : Misses c nil := by simp [Misses, path]

theorem misses_node_of_neg {l r : BinTree α} (hx : c x < 0) (h : Misses c l) : Misses c (node l x r) := by
  intro y hy
  rw [path, if_neg hx.ne, if_pos hx] at hy
  rcases List.mem_cons.1 hy with rfl | hy
  · exact hx.ne
  · exact h y hy

theorem misses_node_of_pos {l r : BinTree α} (hx : 0 < c x) (h : Misses c r) : Misses c (node l x r) := by
  intro y hy
  rw [path, if_neg hx.ne', if_neg (not_lt.2 hx.le)] at hy
  rcases List.mem_cons.1 hy with rfl | hy
  · exact hx.ne'
  · exact h y hy

/-- A left spine before what is looked for only leads to what closes it. -/
theorem misses_closeLeft {t : BinTree α} (hL : ∀ f ∈ L, 0 < c f.2) (h : Misses c t) :
    Misses c (closeLeft L t) := by
  induction L generalizing t with
  | nil => exact h
  | cons f L ih =>
    exact ih (fun g hg => hL g (by simp [hg])) (misses_node_of_pos (hL f (by simp)) h)

/-- A right spine after what is looked for only leads to what closes it. -/
theorem misses_closeRight {t : BinTree α} (hR : ∀ f ∈ R, c f.1 < 0) (h : Misses c t) :
    Misses c (closeRight R t) := by
  induction R generalizing t with
  | nil => exact h
  | cons f R ih =>
    exact ih (fun g hg => hR g (by simp [hg])) (misses_node_of_neg (hR f (by simp)) h)

/-- The loop of a splay of any tree: the spines it makes are of elements on
their sides, it ends where there is no way on, and it misses what the search
misses. -/
theorem tune_any (c : α → ℤ) (L : List (BinTree α × α)) (R : List (α × BinTree α)) (t : BinTree α)
    (hne : t ≠ nil) (hL : ∀ f ∈ L, 0 < c f.2) (hR : ∀ f ∈ R, c f.1 < 0) :
    (∀ f ∈ (tune c L R t).1, 0 < c f.2) ∧ (∀ f ∈ (tune c L R t).2.2, c f.1 < 0) ∧
      AtEnd c (tune c L R t).2.1 ∧ (Misses c t → Misses c (tune c L R t).2.1) := by
  fun_induction tune c L R t with
  | case1 => exact absurd rfl hne
  | case2 L R l x r h0 => exact ⟨hL, hR, Or.inl h0, id⟩
  | case3 L R x r h0 hneg => exact ⟨hL, hR, Or.inr (Or.inl ⟨hneg, rfl⟩), id⟩
  | case4 L R x r h0 hneg y lr hy =>
    exact ⟨hL, hR, Or.inr (Or.inl ⟨hy, rfl⟩), fun _ => misses_node_of_neg hy misses_nil⟩
  | case5 L R x r h0 hneg y lr hy lll z llr ih =>
    obtain ⟨hL', hR', hend, hmiss⟩ := ih (by simp) hL (List.forall_mem_cons.2 ⟨hy, hR⟩)
    exact ⟨hL', hR', hend, fun h => hmiss ((h.left hneg).left hy)⟩
  | case6 L R x r h0 hneg ll y lr hy ih =>
    obtain ⟨hL', hR', hend, hmiss⟩ := ih (by simp) hL (List.forall_mem_cons.2 ⟨hneg, hR⟩)
    exact ⟨hL', hR', hend, fun h => hmiss (h.left hneg)⟩
  | case7 L R l x h0 hneg => exact ⟨hL, hR, Or.inr (Or.inr ⟨by omega, rfl⟩), id⟩
  | case8 L R l x h0 hneg rl y hy =>
    exact ⟨hL, hR, Or.inr (Or.inr ⟨hy, rfl⟩), fun _ => misses_node_of_pos hy misses_nil⟩
  | case9 L R l x h0 hneg rl y hy rrl z rrr ih =>
    have hx : 0 < c x := by omega
    obtain ⟨hL', hR', hend, hmiss⟩ := ih (by simp) (List.forall_mem_cons.2 ⟨hy, hL⟩) hR
    exact ⟨hL', hR', hend, fun h => hmiss ((h.right hx).right hy)⟩
  | case10 L R l x h0 hneg rl y rr hy ih =>
    have hx : 0 < c x := by omega
    obtain ⟨hL', hR', hend, hmiss⟩ := ih (by simp) (List.forall_mem_cons.2 ⟨hx, hL⟩) hR
    exact ⟨hL', hR', hend, fun h => hmiss (h.right hx)⟩

/-- **A splay of any tree.** When its root is not what is looked for, the
search in the new tree misses it; and it is not when the search in the old
tree misses it. -/
theorem splay_any {t : BinTree α} (hne : t ≠ nil) :
    ∃ l x r, splay c t = node l x r ∧ (c x ≠ 0 → Misses c (splay c t)) ∧ (Misses c t → c x ≠ 0) := by
  obtain ⟨hL, hR, hend, hmiss⟩ := tune_any c [] [] t hne (by simp) (by simp)
  rw [splay]
  generalize tune c [] [] t = s at hL hR hend hmiss
  obtain ⟨L, t', R⟩ := s
  cases t' with
  | nil => exact hend.elim
  | node l x r =>
    refine ⟨_, _, _, rfl, fun hx => ?_, fun h => (hmiss h).ne_zero⟩
    rcases hend with h0 | ⟨hneg, rfl⟩ | ⟨hpos, rfl⟩
    · exact absurd h0 hx
    · exact misses_node_of_neg hneg (misses_closeLeft hL misses_nil)
    · exact misses_node_of_pos hpos (misses_closeRight hR misses_nil)

/-! ## Splaying again

A splay that misses ends between two elements, one of them the root. The next
one ends at the other, and the one after it at the first again. -/

/-- The search in the tree goes to the left all the way. -/
def GoesLeft (c : α → ℤ) : BinTree α → Prop
  | nil => True
  | node l x _ => c x < 0 ∧ GoesLeft c l

/-- The search in the tree goes to the right all the way. -/
def GoesRight (c : α → ℤ) : BinTree α → Prop
  | nil => True
  | node _ x r => 0 < c x ∧ GoesRight c r

theorem goesLeft_closeRight {t : BinTree α} (hR : ∀ f ∈ R, c f.1 < 0) (h : GoesLeft c t) : GoesLeft c (closeRight R t) := by
  induction R generalizing t with
  | nil => exact h
  | cons f R ih => exact ih (fun g hg => hR g (by simp [hg])) ⟨hR f (by simp), h⟩

theorem goesRight_closeLeft {t : BinTree α} (hL : ∀ f ∈ L, 0 < c f.2) (h : GoesRight c t) : GoesRight c (closeLeft L t) := by
  induction L generalizing t with
  | nil => exact h
  | cons f L ih => exact ih (fun g hg => hL g (by simp [hg])) ⟨hL f (by simp), h⟩

/-- The loop of a splay that goes to the left ends at the first element. -/
theorem tune_of_goesLeft (L : List (BinTree α × α)) (R : List (α × BinTree α)) {t : BinTree α} (hne : t ≠ nil)
    (h : GoesLeft c t) : ∃ y s R', tune c L R t = (L, node nil y s, R') ∧ c y < 0 := by
  fun_induction tune c L R t with
  | case1 => exact absurd rfl hne
  | case2 L R l x r h0 => exact absurd h0 h.1.ne
  | case3 L R x r h0 hneg => exact ⟨x, r, R, rfl, hneg⟩
  | case4 L R x r h0 hneg y lr hy => exact ⟨y, _, R, rfl, hy⟩
  | case5 L R x r h0 hneg y lr hy lll z llr ih => exact ih (by simp) h.2.2
  | case6 L R x r h0 hneg ll y lr hy ih => exact absurd h.2.1 hy
  | case7 L R l x h0 hneg => exact absurd h.1 hneg
  | case8 L R l x h0 hneg => exact absurd h.1 hneg
  | case9 L R l x h0 hneg => exact absurd h.1 hneg
  | case10 L R l x h0 hneg => exact absurd h.1 hneg

/-- And one that goes to the right ends at the last. -/
theorem tune_of_goesRight (L : List (BinTree α × α)) (R : List (α × BinTree α)) {t : BinTree α} (hne : t ≠ nil)
    (h : GoesRight c t) : ∃ y s L', tune c L R t = (L', node s y nil, R) ∧ 0 < c y := by
  fun_induction tune c L R t with
  | case1 => exact absurd rfl hne
  | case2 L R l x r h0 => exact absurd h0 h.1.ne'
  | case3 L R x r h0 hneg => exact absurd h.1 hneg.not_gt
  | case4 L R x r h0 hneg => exact absurd h.1 hneg.not_gt
  | case5 L R x r h0 hneg => exact absurd h.1 hneg.not_gt
  | case6 L R x r h0 hneg => exact absurd h.1 hneg.not_gt
  | case7 L R l x h0 hneg => exact ⟨x, l, L, rfl, h.1⟩
  | case8 L R l x h0 hneg rl y hy => exact ⟨y, _, L, rfl, hy⟩
  | case9 L R l x h0 hneg rl y hy rrl z rrr ih => exact ih (by simp) h.2.2
  | case10 L R l x h0 hneg rl y rr hy ih => exact absurd h.2.1 hy

/-- Two splays more of a tree with a root before what is looked for. -/
theorem splay_twice_of_pos {l r : BinTree α} (hx : 0 < c x) (hr : GoesLeft c r) :
    ∃ l' r', splay c (splay c (node l x r)) = node l' x r' := by
  have hne : ¬ c x = 0 := hx.ne'
  have hle : ¬ c x < 0 := hx.not_gt
  have hend : ∀ (l : BinTree α) L R, tune c L R (node l x nil) = (L, node l x nil, R) := by
    intro l L R
    rw [tune.eq_def]
    simp only [if_neg hne, if_neg hle]
  cases r with
  | nil =>
    have hsplay : splay c (node l x nil) = node l x nil := by
      rw [splay, hend, assemble, closeLeft, closeRight]
    exact ⟨l, nil, by rw [hsplay, hsplay]⟩
  | node rl y rr =>
    have hy : c y < 0 := hr.1
    obtain ⟨z, s, R, htune, hz⟩ := tune_of_goesLeft [(l, x)] [] (t := node rl y rr) (by simp) hr
    have hfirst : splay c (node l x (node rl y rr)) = node (node l x nil) z (closeRight R s) := by
      rw [splay, tune.eq_def]
      simp only [if_neg hne, if_neg hle, if_neg hy.not_gt, htune]
      rfl
    refine ⟨l, closeRight [(z, closeRight R s)] nil, ?_⟩
    rw [hfirst, splay, tune.eq_def]
    simp only [if_neg hz.ne, if_pos hz, if_neg hle, hend]
    rfl

/-- And of one with a root after it. -/
theorem splay_twice_of_neg {l r : BinTree α} (hx : c x < 0) (hl : GoesRight c l) :
    ∃ l' r', splay c (splay c (node l x r)) = node l' x r' := by
  have hne : ¬ c x = 0 := hx.ne
  have hle : ¬ 0 < c x := hx.not_gt
  have hend : ∀ (r : BinTree α) L R, tune c L R (node nil x r) = (L, node nil x r, R) := by
    intro r L R
    rw [tune.eq_def]
    simp only [if_neg hne, if_pos hx]
  cases l with
  | nil =>
    have hsplay : splay c (node nil x r) = node nil x r := by
      rw [splay, hend, assemble, closeLeft, closeRight]
    exact ⟨nil, r, by rw [hsplay, hsplay]⟩
  | node ll y lr =>
    have hy : 0 < c y := hl.1
    obtain ⟨z, s, L, htune, hz⟩ := tune_of_goesRight [] [(x, r)] (t := node ll y lr) (by simp) hl
    have hfirst : splay c (node (node ll y lr) x r) = node (closeLeft L s) z (node nil x r) := by
      rw [splay, tune.eq_def]
      simp only [if_neg hne, if_pos hx, if_neg hy.not_gt, htune]
      rfl
    refine ⟨closeLeft [(closeLeft L s, z)] nil, r, ?_⟩
    rw [hfirst, splay, tune.eq_def]
    simp only [if_neg hz.ne', if_neg hz.not_gt, if_neg hle, hend]
    rfl

/-- **Two splays more end where the first one did**, if it missed. -/
theorem splay_thrice {t l r : BinTree α} (hs : splay c t = node l x r) (hx : c x ≠ 0) :
    ∃ l' r', splay c (splay c (splay c t)) = node l' x r' := by
  have ht : t ≠ nil := by
    rintro rfl
    cases hs
  obtain ⟨hL, hR, hend, -⟩ := tune_any c [] [] t ht (by simp) (by simp)
  rw [hs]
  rw [splay] at hs
  generalize tune c [] [] t = s at hs hL hR hend
  obtain ⟨L, t', R⟩ := s
  cases t' with
  | nil => exact hend.elim
  | node l₀ x₀ r₀ =>
    obtain ⟨rfl, rfl, rfl⟩ := BinTree.node.inj hs
    rcases hend with h0 | ⟨hneg, rfl⟩ | ⟨hpos, rfl⟩
    · exact absurd h0 hx
    · exact splay_twice_of_neg hneg (goesRight_closeLeft hL trivial)
    · exact splay_twice_of_pos hpos (goesLeft_closeRight hR trivial)

end BinTree

end Mowgli
