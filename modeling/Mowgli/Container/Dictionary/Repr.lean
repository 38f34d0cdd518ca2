import Mowgli.Container.Dictionary.Model
import Mowgli.Library.Elements
import Mowgli.Library.LinkedTree
/-!
# What a dictionary holds

The elements are looked at in four ways: `links` is what the tree sees of
them, `threads` what the list sees, `contents` and `positions` the rest.
An assignment changes one of the four, at one element. `Inv` says which
binary tree a dictionary holds, and that the list runs through it in
order.
-/

namespace Mowgli

namespace Dictionary

open Store

variable {K D : Type}

/-- What the tree sees of the elements. -/
def links (m : Store (DictElem K D)) : Links := fun a => (m.get a).map fun e => (e.left, e.right)

/-- What the list sees of the elements. -/
def threads (m : Store (DictElem K D)) : Links := fun a => (m.get a).map fun e => (e.prev, e.next)

/-- The key and data of the elements. -/
def contents (m : Store (DictElem K D)) (a : Addr) : Option (K × D) :=
  (m.get a).map fun e => (e.key, e.data)

/-- The positions of the elements. -/
def positions (m : Store (DictElem K D)) (a : Addr) : Option ℤ := (m.get a).map fun e => e.position

/-- What an assignment to `left` or `right` leaves alone. -/
def unlinked (e : DictElem K D) : (Option Addr × Option Addr) × (K × D) × ℤ :=
  ((e.prev, e.next), (e.key, e.data), e.position)

/-- What an assignment to `prev` or `next` leaves alone. -/
def unthreaded (e : DictElem K D) : (Option Addr × Option Addr) × (K × D) × ℤ :=
  ((e.left, e.right), (e.key, e.data), e.position)

variable {m m' : Store (DictElem K D)} {a : Addr} {q : Option Addr} {w : Option Addr × Option Addr}

/-- An assignment to `left` or `right` does not touch the list. -/
theorem threads_of_same (h : Same unlinked m m') : threads m' = threads m :=
  funext (h.comp Prod.fst)

theorem contents_of_same (h : Same unlinked m m') : contents m' = contents m :=
  funext (h.comp fun u => u.2.1)

theorem positions_of_same (h : Same unlinked m m') : positions m' = positions m :=
  funext (h.comp fun u => u.2.2)

/-- An assignment to `prev` or `next` does not touch the tree. -/
theorem links_of_same (h : Same unthreaded m m') : links m' = links m :=
  funext (h.comp Prod.fst)

theorem contents_of_same' (h : Same unthreaded m m') : contents m' = contents m :=
  funext (h.comp fun u => u.2.1)

theorem exists_of_links {p : Option Addr} (h : links m a = some (p, q)) :
    ∃ e, m.get a = some e ∧ e.left = p ∧ e.right = q := by
  rw [links, Option.map_eq_some_iff] at h
  obtain ⟨e, he, hpq⟩ := h
  exact ⟨e, he, congrArg Prod.fst hpq, congrArg Prod.snd hpq⟩

theorem exists_of_threads {p : Option Addr} (h : threads m a = some (p, q)) :
    ∃ e, m.get a = some e ∧ e.prev = p ∧ e.next = q := by
  rw [threads, Option.map_eq_some_iff] at h
  obtain ⟨e, he, hpq⟩ := h
  exact ⟨e, he, congrArg Prod.fst hpq, congrArg Prod.snd hpq⟩

theorem exists_of_contents {k : K} {v : D} (h : contents m a = some (k, v)) :
    ∃ e, m.get a = some e ∧ e.key = k ∧ e.data = v := by
  rw [contents, Option.map_eq_some_iff] at h
  obtain ⟨e, he, hkv⟩ := h
  exact ⟨e, he, congrArg Prod.fst hkv, congrArg Prod.snd hkv⟩

theorem mem_live_of_links (h : links m a = some w) : a ∈ m.live := by
  obtain ⟨e, he, -⟩ := exists_of_links (p := w.1) h
  exact mem_live.2 ⟨e, he⟩

/-- `left` of an element is assigned. -/
theorem setLeft_spec (h : a ∈ m.live) (q : Option Addr) :
    ∃ m', setLeft m a q = some m' ∧ links m' = (links m).setFst a q ∧ Same unlinked m m' := by
  obtain ⟨e, he⟩ := mem_live.1 h
  refine ⟨_, modify_of_get _ he, funext fun b => ?_, Same.set he rfl⟩
  rw [links, Links.setFst, get_set]
  split_ifs with hb
  · rw [links, he]; rfl
  · rfl

theorem setRight_spec (h : a ∈ m.live) (q : Option Addr) :
    ∃ m', setRight m a q = some m' ∧ links m' = (links m).setSnd a q ∧ Same unlinked m m' := by
  obtain ⟨e, he⟩ := mem_live.1 h
  refine ⟨_, modify_of_get _ he, funext fun b => ?_, Same.set he rfl⟩
  rw [links, Links.setSnd, get_set]
  split_ifs with hb
  · rw [links, he]; rfl
  · rfl

/-- `prev` of an element is assigned. -/
theorem setPrev_spec (h : a ∈ m.live) (q : Option Addr) :
    ∃ m', setPrev m a q = some m' ∧ threads m' = (threads m).setFst a q ∧ Same unthreaded m m' := by
  obtain ⟨e, he⟩ := mem_live.1 h
  refine ⟨_, modify_of_get _ he, funext fun b => ?_, Same.set he rfl⟩
  rw [threads, Links.setFst, get_set]
  split_ifs with hb
  · rw [threads, he]; rfl
  · rfl

theorem setNext_spec (h : a ∈ m.live) (q : Option Addr) :
    ∃ m', setNext m a q = some m' ∧ threads m' = (threads m).setSnd a q ∧ Same unthreaded m m' := by
  obtain ⟨e, he⟩ := mem_live.1 h
  refine ⟨_, modify_of_get _ he, funext fun b => ?_, Same.set he rfl⟩
  rw [threads, Links.setSnd, get_set]
  split_ifs with hb
  · rw [threads, he]; rfl
  · rfl

/-- The same where there may be no element: then nothing happens. -/
theorem setPrev?_spec {p : Option Addr} (h : ∀ a, p = some a → a ∈ m.live) (q : Option Addr) :
    ∃ m', setPrev? m p q = some m' ∧ threads m' = (threads m).setFst? p q ∧ Same unthreaded m m' := by
  cases p with
  | none => exact ⟨m, rfl, rfl, Same.refl _ _⟩
  | some a => exact setPrev_spec (h a rfl) q

theorem setNext?_spec {p : Option Addr} (h : ∀ a, p = some a → a ∈ m.live) (q : Option Addr) :
    ∃ m', setNext? m p q = some m' ∧ threads m' = (threads m).setSnd? p q ∧ Same unthreaded m m' := by
  cases p with
  | none => exact ⟨m, rfl, rfl, Same.refl _ _⟩
  | some a => exact setNext_spec (h a rfl) q

/-- A comparator that is a strict total order on keys, with results in the
range of `int`. -/
structure Comparator (K : Type) where
  cmp : K → K → ℤ
  swap : ∀ a b, cmp a b < 0 ↔ 0 < cmp b a
  trans : ∀ {a b c}, cmp a b < 0 → cmp b c < 0 → cmp a c < 0
  eq_of_zero : ∀ {a b}, cmp a b = 0 → a = b
  range : ∀ a b, -2147483648 ≤ cmp a b ∧ cmp a b ≤ 2147483647

namespace Comparator

variable (C : Comparator K)

@[simp] theorem cmp_self (a : K) : C.cmp a a = 0 := by
  have := C.swap a a
  omega

end Comparator

/-- The binary trees of elements. -/
abbrev DTree (K D : Type) : Type := BinTree (Item Addr K D)

/-- The cells of a store hold a tree: its shape and its elements. -/
structure Holds (m : Store (DictElem K D)) (t : DTree K D) (root : Option Addr) : Prop where
  linked : t.Linked Item.cell (links m) root
  contents : ∀ x ∈ t.inorder, contents m x.cell = some (x.key, x.data)
  nodup : (t.inorder.map Item.cell).Nodup

/-- **The invariant of a dictionary** that holds the tree `t`. -/
structure Inv (C : Comparator K) (d : Dictionary K D) (t : DTree K D) : Prop where
  compareCb : d.compareCb = C.cmp
  holds : Holds d.mem t d.root
  live : ∀ a ∈ d.mem.live, ∃ x ∈ t.inorder, x.cell = a
  /-- The list runs through the tree in order. -/
  threaded : (threads d.mem).Dll d.head (t.inorder.map Item.cell) d.tail
  sorted : t.inorder.Pairwise fun x y => C.cmp x.key y.key < 0
  count : d.count = UInt32.ofNat t.inorder.length
  /-- A dictionary that is not dirty has its positions right. -/
  clean : d.dirty = false → t.inorder.length ≤ INT_MAX ∧
    ∀ l x r, t.inorder = l ++ x :: r → positions d.mem x.cell = some (l.length : ℤ)

/-- What of it does not depend on the comparator: the tree and the list are
in order as cells, whatever the order of the keys is. -/
structure Wired (d : Dictionary K D) (t : DTree K D) : Prop where
  holds : Holds d.mem t d.root
  live : ∀ a ∈ d.mem.live, ∃ x ∈ t.inorder, x.cell = a
  threaded : (threads d.mem).Dll d.head (t.inorder.map Item.cell) d.tail
  count : d.count = UInt32.ofNat t.inorder.length
  clean : d.dirty = false → t.inorder.length ≤ INT_MAX ∧
    ∀ l x r, t.inorder = l ++ x :: r → positions d.mem x.cell = some (l.length : ℤ)

theorem Inv.wired {C : Comparator K} {d : Dictionary K D} {t : DTree K D} (h : Inv C d t) : Wired d t :=
  ⟨h.holds, h.live, h.threaded, h.count, h.clean⟩

theorem Wired.inv {C : Comparator K} {d : Dictionary K D} {t : DTree K D} (h : Wired d t)
    (hcb : d.compareCb = C.cmp) (hsorted : t.inorder.Pairwise fun x y => C.cmp x.key y.key < 0) :
    Inv C d t :=
  ⟨hcb, h.holds, h.live, h.threaded, hsorted, h.count, h.clean⟩

/-- A new dictionary is in order, whatever it compares with. -/
theorem wired_create (compareCb : K → K → ℤ) : Wired (create compareCb : Dictionary K D) .nil where
  holds := ⟨rfl, by simp, by simp⟩
  live := by simp [create]
  threaded := ⟨rfl, rfl⟩
  count := rfl
  clean := by simp

theorem inv_create (C : Comparator K) : Inv C (create C.cmp : Dictionary K D) .nil :=
  (wired_create C.cmp).inv rfl (by simp)

variable {t : DTree K D} {root : Option Addr}

theorem Holds.mem_live (h : Holds m t root) {x : Item Addr K D} (hx : x ∈ t.inorder) :
    x.cell ∈ m.live := by
  obtain ⟨e, he, -⟩ := exists_of_contents (h.contents x hx)
  exact Store.mem_live.2 ⟨e, he⟩

/-- There are enough turns to pass every element. -/
theorem Holds.length_le (h : Holds m t root) : t.inorder.length ≤ m.live.card := by
  rw [← List.length_map (f := Item.cell), ← List.toFinset_card_of_nodup h.nodup]
  refine Finset.card_le_card fun a ha => ?_
  obtain ⟨x, hx, rfl⟩ := List.mem_map.1 (List.mem_toFinset.1 ha)
  exact h.mem_live hx

end Dictionary

end Mowgli
