import Mowgli.Library.LinkedTree
/-!
# Forests that grow at their end

A forest as a binary tree: the left subtree of an element has its children,
the right subtree its next siblings. A forest that is read from a text has
an open place, the next sibling of the last element of the innermost section
that is open, or its first child. The frames are the elements on the way
from there to the root. Over linked cells the open place is a null pointer,
and setting it is what adds an element.
-/

namespace Mowgli

namespace BinTree

open Links

variable {α : Type}

/-- An element on the way to the open place: a section that is open, whose
next siblings are to come, or one that the place comes after. -/
inductive Frame (α : Type)
  | child (x : α)
  | sibling (l : BinTree α) (x : α)

/-- The forest with `t` at the open place. -/
def plug : List (Frame α) → BinTree α → BinTree α
  | [], t => t
  | .child x :: c, t => plug c (node t x nil)
  | .sibling l x :: c, t => plug c (node l x t)

/-- The elements before the open place. -/
def elements : List (Frame α) → List α
  | [] => []
  | .child x :: c => x :: elements c
  | .sibling l x :: c => x :: (l.inorder ++ elements c)

/-- The sections that are open, the innermost first. -/
def sections : List (Frame α) → List α
  | [] => []
  | .child x :: c => x :: sections c
  | .sibling _ _ :: c => sections c

/-- The innermost section is closed, with `t` at its end. -/
def shut : List (Frame α) → BinTree α → Option (List (Frame α))
  | [], _ => none
  | .child x :: c, t => some (.sibling t x :: c)
  | .sibling l x :: c, t => shut c (node l x t)

/-- The last element becomes a section that is open. -/
def opened : List (Frame α) → List (Frame α)
  | .sibling _ x :: c => .child x :: c
  | c => c

/-- The last element, if there is one in the innermost section, is changed. -/
def onTop (f : α → α) : List (Frame α) → List (Frame α)
  | .sibling l x :: c => .sibling l (f x) :: c
  | c => c

/-- The elements of a forest are added at the open place. -/
def extend : List (Frame α) → BinTree α → List (Frame α)
  | c, nil => c
  | c, node l x r => extend (.sibling l x :: c) r

variable {c c' : List (Frame α)} {t : BinTree α} {x y : α}

theorem inorder_plug (c : List (Frame α)) (t : BinTree α) : (plug c t).inorder.Perm (t.inorder ++ elements c) := by
  induction c generalizing t with
  | nil => simp [plug, elements]
  | cons f c ih =>
    cases f with
    | child x =>
      refine (ih (node t x nil)).trans ?_
      simp [elements]
    | sibling l x =>
      refine (ih (node l x t)).trans ?_
      rw [inorder_node, elements, List.append_assoc, List.cons_append]
      refine List.perm_middle.trans ((List.Perm.cons x ?_).trans List.perm_middle.symm)
      rw [← List.append_assoc, ← List.append_assoc]
      exact List.perm_append_comm.append_right _

theorem shut_elements (h : shut c t = some c') : (elements c').Perm (t.inorder ++ elements c) := by
  induction c generalizing t with
  | nil => cases h
  | cons f c ih =>
    cases f with
    | child x =>
      rw [← Option.some.inj h, elements, elements]
      exact List.perm_middle.symm
    | sibling l x =>
      refine (ih h).trans ?_
      rw [inorder_node, elements, List.append_assoc, List.cons_append]
      have hperm : (l.inorder ++ x :: (t.inorder ++ elements c)).Perm (x :: (l.inorder ++ (t.inorder ++ elements c))) :=
        List.perm_middle
      refine hperm.trans ((List.Perm.cons x ?_).trans List.perm_middle.symm)
      rw [← List.append_assoc, ← List.append_assoc]
      exact List.perm_append_comm.append_right _

theorem shut_sections (h : shut c t = some c') : ∃ x, sections c = x :: sections c' := by
  induction c generalizing t with
  | nil => cases h
  | cons f c ih =>
    cases f with
    | child x =>
      refine ⟨x, ?_⟩
      rw [← Option.some.inj h, sections, sections]
    | sibling l x => exact ih h

theorem sections_sublist (c : List (Frame α)) : (sections c).Sublist (elements c) := by
  induction c with
  | nil => exact .slnil
  | cons f c ih =>
    cases f with
    | child x => exact ih.cons_cons x
    | sibling l x => exact (ih.trans (List.sublist_append_right _ _)).cons x

theorem shut_eq_none (h : sections c = []) (t : BinTree α) : shut c t = none := by
  rcases hs : shut c t with _ | c'
  · rfl
  · obtain ⟨x, hx⟩ := shut_sections hs
    rw [h] at hx
    cases hx

theorem exists_shut (h : sections c ≠ []) (t : BinTree α) : ∃ c', shut c t = some c' := by
  induction c generalizing t with
  | nil => exact absurd rfl h
  | cons f c ih =>
    cases f with
    | child x => exact ⟨_, rfl⟩
    | sibling l x => exact ih h _

theorem shut_head (h : shut c t = some c') : ∃ l x c₀, c' = .sibling l x :: c₀ ∧ ∃ xs, sections c = x :: xs := by
  induction c generalizing t with
  | nil => cases h
  | cons f c ih =>
    cases f with
    | child x => exact ⟨t, x, c, (Option.some.inj h).symm, _, rfl⟩
    | sibling l x => exact ih h

@[simp] theorem plug_extend (c : List (Frame α)) (t : BinTree α) : plug (extend c t) nil = plug c t := by
  induction t generalizing c with
  | nil => rfl
  | node l x r _ ihr => exact ihr _

@[simp] theorem shut_extend (c : List (Frame α)) (t : BinTree α) : shut (extend c t) nil = shut c t := by
  induction t generalizing c with
  | nil => rfl
  | node l x r _ ihr => exact ihr _

@[simp] theorem sections_extend (c : List (Frame α)) (t : BinTree α) : sections (extend c t) = sections c := by
  induction t generalizing c with
  | nil => rfl
  | node l x r _ ihr => exact ihr _

/-! ## Two forests of one shape -/

variable {β : Type} {R R' : α → β → Prop}

/-- Trees of one shape, with elements that are related. -/
def Rel (R : α → β → Prop) : BinTree α → BinTree β → Prop
  | nil, nil => True
  | node l x r, node l' x' r' => Rel R l l' ∧ R x x' ∧ Rel R r r'
  | _, _ => False

/-- Frames of one shape, with elements that are related. -/
def FramesRel (R : α → β → Prop) : List (Frame α) → List (Frame β) → Prop
  | [], [] => True
  | .child x :: c, .child x' :: d => R x x' ∧ FramesRel R c d
  | .sibling l x :: c, .sibling l' x' :: d => Rel R l l' ∧ R x x' ∧ FramesRel R c d
  | _, _ => False

theorem Rel.mono {t : BinTree α} {t' : BinTree β} (h : Rel R t t') (hR : ∀ x ∈ t.inorder, ∀ y, R x y → R' x y) :
    Rel R' t t' := by
  induction t generalizing t' with
  | nil =>
    cases t' with
    | nil => trivial
    | node l' x' r' => exact h.elim
  | node l x r ihl ihr =>
    cases t' with
    | nil => exact h.elim
    | node l' x' r' =>
      exact ⟨ihl h.1 fun y hy => hR y (by simp [hy]), hR x (by simp) _ h.2.1, ihr h.2.2 fun y hy => hR y (by simp [hy])⟩

theorem FramesRel.mono {d : List (Frame β)} (h : FramesRel R c d) (hR : ∀ x ∈ elements c, ∀ y, R x y → R' x y) :
    FramesRel R' c d := by
  induction c generalizing d with
  | nil =>
    cases d with
    | nil => trivial
    | cons g d => exact h.elim
  | cons f c ih =>
    rcases f with x | ⟨l, x⟩
    · rcases d with _ | ⟨x' | ⟨l', x'⟩, d⟩
      · exact h.elim
      · exact ⟨hR x (by simp [elements]) _ h.1, ih h.2 fun y hy => hR y (by simp [elements, hy])⟩
      · exact h.elim
    · rcases d with _ | ⟨x' | ⟨l', x'⟩, d⟩
      · exact h.elim
      · exact h.elim
      · exact ⟨h.1.mono fun y hy => hR y (by simp [elements, hy]), hR x (by simp [elements]) _ h.2.1,
          ih h.2.2 fun y hy => hR y (by simp [elements, hy])⟩

theorem FramesRel.opened {d : List (Frame β)} (h : FramesRel R c d) : FramesRel R (opened c) (opened d) := by
  rcases c with _ | ⟨x | ⟨l, x⟩, c⟩
  · rcases d with _ | ⟨g, d⟩
    · trivial
    · exact h.elim
  · rcases d with _ | ⟨x' | ⟨l', x'⟩, d⟩
    · exact h.elim
    · exact h
    · exact h.elim
  · rcases d with _ | ⟨x' | ⟨l', x'⟩, d⟩
    · exact h.elim
    · exact h.elim
    · exact h.2

/-- The last element is changed in one of two forests. -/
theorem FramesRel.onTop {d : List (Frame β)} {f : β → β} {l : BinTree α}
    (h : FramesRel R (.sibling l x :: c) d) (hx : ∀ y, R x y → R' x (f y))
    (hR : ∀ z ∈ l.inorder ++ elements c, ∀ y, R z y → R' z y) : FramesRel R' (.sibling l x :: c) (onTop f d) := by
  rcases d with _ | ⟨x' | ⟨l', x'⟩, d⟩
  · exact h.elim
  · exact h.elim
  · exact ⟨h.1.mono fun z hz => hR z (List.mem_append_left _ hz), hx _ h.2.1,
      h.2.2.mono fun z hz => hR z (List.mem_append_right _ hz)⟩

/-- The last element is changed in both. -/
theorem FramesRel.onTop_both {d : List (Frame β)} {f : α → α} {g : β → β} (h : FramesRel R c d)
    (hR : ∀ x y, R x y → R (f x) (g y)) : FramesRel R (BinTree.onTop f c) (BinTree.onTop g d) := by
  rcases c with _ | ⟨x | ⟨l, x⟩, c⟩
  · rcases d with _ | ⟨y, d⟩
    · trivial
    · exact h.elim
  · rcases d with _ | ⟨x' | ⟨l', x'⟩, d⟩
    · exact h.elim
    · exact h
    · exact h.elim
  · rcases d with _ | ⟨x' | ⟨l', x'⟩, d⟩
    · exact h.elim
    · exact h.elim
    · exact ⟨h.1, hR _ _ h.2.1, h.2.2⟩

theorem FramesRel.plug {d : List (Frame β)} {t' : BinTree β} (h : FramesRel R c d) (ht : Rel R t t') :
    Rel R (plug c t) (plug d t') := by
  induction c generalizing d t t' with
  | nil =>
    cases d with
    | nil => exact ht
    | cons g d => exact h.elim
  | cons f c ih =>
    rcases f with x | ⟨l, x⟩
    · rcases d with _ | ⟨x' | ⟨l', x'⟩, d⟩
      · exact h.elim
      · have hnode : Rel R (node t x nil) (node t' x' nil) := ⟨ht, h.1, trivial⟩
        simp only [BinTree.plug]
        exact ih h.2 hnode
      · exact h.elim
    · rcases d with _ | ⟨x' | ⟨l', x'⟩, d⟩
      · exact h.elim
      · exact h.elim
      · have hnode : Rel R (node l x t) (node l' x' t') := ⟨h.1, h.2.1, ht⟩
        simp only [BinTree.plug]
        exact ih h.2.2 hnode

/-- Frames of one shape have sections of one shape. -/
theorem FramesRel.sections_eq_nil {d : List (Frame β)} (h : FramesRel R c d) : sections c = [] ↔ sections d = [] := by
  induction c generalizing d with
  | nil =>
    cases d with
    | nil => simp [sections]
    | cons g d => exact h.elim
  | cons f c ih =>
    rcases f with x | ⟨l, x⟩
    · rcases d with _ | ⟨x' | ⟨l', x'⟩, d⟩
      · exact h.elim
      · simp [sections]
      · exact h.elim
    · rcases d with _ | ⟨x' | ⟨l', x'⟩, d⟩
      · exact h.elim
      · exact h.elim
      · simp only [sections]
        exact ih h.2.2

theorem FramesRel.shut {d : List (Frame β)} {t' : BinTree β} (h : FramesRel R c d) (ht : Rel R t t') :
    Option.Rel (FramesRel R) (shut c t) (shut d t') := by
  induction c generalizing d t t' with
  | nil =>
    cases d with
    | nil => exact Option.Rel.none
    | cons g d => exact h.elim
  | cons f c ih =>
    rcases f with x | ⟨l, x⟩
    · rcases d with _ | ⟨x' | ⟨l', x'⟩, d⟩
      · exact h.elim
      · exact Option.Rel.some ⟨ht, h.1, h.2⟩
      · exact h.elim
    · rcases d with _ | ⟨x' | ⟨l', x'⟩, d⟩
      · exact h.elim
      · exact h.elim
      · have hnode : Rel R (node l x t) (node l' x' t') := ⟨h.1, h.2.1, ht⟩
        simp only [BinTree.shut]
        exact ih h.2.2 hnode

/-! ## Elements and their children -/

/-- What holds of each element, with its children. -/
def Each (P : BinTree α → α → Prop) : BinTree α → Prop
  | nil => True
  | node l x r => P l x ∧ Each P l ∧ Each P r

/-- What holds of each element that has its children. -/
def EachFrame (P : BinTree α → α → Prop) : List (Frame α) → Prop
  | [] => True
  | .child _ :: c => EachFrame P c
  | .sibling l x :: c => P l x ∧ Each P l ∧ EachFrame P c

variable {P : BinTree α → α → Prop}

/-- What is to hold of a section that is closed is up to what becomes of it. -/
theorem EachFrame.shut {f : α → α} (h : EachFrame P c) (ht : Each P t) (hs : shut c t = some c') (hf : ∀ l x, P l (f x)) :
    EachFrame P (BinTree.onTop f c') := by
  induction c generalizing t with
  | nil => cases hs
  | cons g c ih =>
    rcases g with x | ⟨l, x⟩
    · rw [← Option.some.inj hs]
      exact ⟨hf _ _, ht, h⟩
    · exact ih h.2.2 (show Each P (node l x t) from ⟨h.1, h.2.1, ht⟩) hs

theorem EachFrame.plug (h : EachFrame P c) (hc : sections c = []) (ht : Each P t) : Each P (plug c t) := by
  induction c generalizing t with
  | nil => exact ht
  | cons g c ih =>
    rcases g with x | ⟨l, x⟩
    · cases hc
    · exact ih h.2.2 hc (show Each P (node l x t) from ⟨h.1, h.2.1, ht⟩)

/-! ## Over linked cells -/

variable {cell : α → Addr} {v v' : Links} {p q : Option Addr}

/-- The cells from `p` on are the frames, with `q` at the open place. -/
def OpenAt (cell : α → Addr) (v : Links) : List (Frame α) → Option Addr → Option Addr → Prop
  | [], q, p => p = q
  | .child x :: c, q, p => v (cell x) = some (q, none) ∧ OpenAt cell v c (some (cell x)) p
  | .sibling l x :: c, q, p =>
    ∃ a, v (cell x) = some (a, q) ∧ Linked cell v l a ∧ OpenAt cell v c (some (cell x)) p

theorem OpenAt.congr (h : OpenAt cell v c q p) (hv : ∀ x ∈ elements c, v' (cell x) = v (cell x)) :
    OpenAt cell v' c q p := by
  induction c generalizing q with
  | nil => exact h
  | cons f c ih =>
    cases f with
    | child x =>
      refine ⟨(hv x ?_).trans h.1, ih h.2 fun y hy => hv y ?_⟩
      · simp [elements]
      · simp [elements, hy]
    | sibling l x =>
      obtain ⟨a, hx, hl, hc⟩ := h
      refine ⟨a, (hv x ?_).trans hx, hl.congr fun y hy => hv y ?_, ih hc fun y hy => hv y ?_⟩
      · simp [elements]
      · simp [elements, hy]
      · simp [elements, hy]

theorem Linked.mono (h : Linked cell v t p) (hv : ∀ a w, v a = some w → v' a = some w) : Linked cell v' t p := by
  induction t generalizing p with
  | nil => exact h
  | node l x r ihl ihr =>
    obtain ⟨hp, a, b, hx, hl, hr⟩ := h
    exact ⟨hp, a, b, hv _ _ hx, ihl hl, ihr hr⟩

theorem OpenAt.mono (h : OpenAt cell v c q p) (hv : ∀ a w, v a = some w → v' a = some w) :
    OpenAt cell v' c q p := by
  induction c generalizing q with
  | nil => exact h
  | cons f c ih =>
    cases f with
    | child x => exact ⟨hv _ _ h.1, ih h.2⟩
    | sibling l x =>
      obtain ⟨a, hx, hl, hc⟩ := h
      exact ⟨a, hv _ _ hx, hl.mono hv, ih hc⟩

/-- A forest at the open place closes the frames. -/
theorem OpenAt.plug (h : OpenAt cell v c q p) (ht : Linked cell v t q) : Linked cell v (plug c t) p := by
  induction c generalizing q t with
  | nil => exact (show p = q from h) ▸ ht
  | cons f c ih =>
    cases f with
    | child x => exact ih h.2 ⟨rfl, q, none, h.1, ht, rfl⟩
    | sibling l x =>
      obtain ⟨a, hx, hl, hc⟩ := h
      exact ih hc ⟨rfl, a, q, hx, hl, ht⟩

/-- Closing a section moves the open place, and no pointer. -/
theorem OpenAt.shut (h : OpenAt cell v c q p) (ht : Linked cell v t q) (hs : shut c t = some c') :
    OpenAt cell v c' none p := by
  induction c generalizing q t with
  | nil => cases hs
  | cons f c ih =>
    cases f with
    | child x =>
      rw [← Option.some.inj hs]
      exact ⟨q, h.1, ht, h.2⟩
    | sibling l x =>
      obtain ⟨a, hx, hl, hc⟩ := h
      exact ih hc (show Linked cell v (node l x t) (some (cell x)) from ⟨rfl, a, q, hx, hl, ht⟩) hs

/-- The links with the open place set. -/
def setOpen (cell : α → Addr) (v : Links) : List (Frame α) → Option Addr → Links
  | [], _ => v
  | .child x :: _, q => v.setFst (cell x) q
  | .sibling _ x :: _, q => v.setSnd (cell x) q

/-- The open place is filled with something else. -/
theorem OpenAt.setOpen (h : OpenAt cell v c q p) (hnd : ((elements c).map cell).Nodup) (q' : Option Addr) :
    OpenAt cell (setOpen cell v c q') c q' (if c = [] then q' else p) := by
  cases c with
  | nil => rfl
  | cons f c =>
    have hne : ∀ x ys, ((x :: ys).map cell).Nodup → ∀ y ∈ ys, cell y ≠ cell x := by
      intro x ys hnd y hy heq
      rw [List.map_cons, List.nodup_cons] at hnd
      exact hnd.1 (heq ▸ List.mem_map_of_mem hy)
    cases f with
    | child x =>
      refine ⟨?_, h.2.congr fun y hy => setFst_of_ne (hne x _ hnd y hy)⟩
      rw [BinTree.setOpen, setFst_self, h.1]
      rfl
    | sibling l x =>
      obtain ⟨a, hx, hl, hc⟩ := h
      refine ⟨a, ?_, hl.congr fun y hy => setSnd_of_ne (hne x _ hnd y (by simp [hy])),
        hc.congr fun y hy => setSnd_of_ne (hne x _ hnd y (by simp [hy]))⟩
      rw [BinTree.setOpen, setSnd_self, hx]
      rfl

theorem setOpen_of_ne {a : Addr} (h : ∀ x ∈ elements c, cell x ≠ a) (q : Option Addr) :
    setOpen cell v c q a = v a := by
  cases c with
  | nil => rfl
  | cons f c =>
    cases f with
    | child x => exact setFst_of_ne (h x (by simp [elements])).symm
    | sibling l x => exact setSnd_of_ne (h x (by simp [elements])).symm

/-- **A new element** is added at the open place, which is after it then. -/
theorem OpenAt.grow (h : OpenAt cell v c none p) (hnd : ((elements c).map cell).Nodup)
    (hfresh : ∀ x ∈ elements c, cell x ≠ cell y) (hy : v (cell y) = some (none, none)) :
    OpenAt cell (BinTree.setOpen cell v c (some (cell y))) (.sibling nil y :: c) none
      (if c = [] then some (cell y) else p) :=
  ⟨none, (setOpen_of_ne hfresh _).trans hy, rfl, h.setOpen hnd _⟩

end BinTree

end Mowgli
