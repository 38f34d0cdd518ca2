import Mathlib.Data.Finmap
import Mathlib.Order.Lattice.Nat
/-!
# Stores and allocators

A `Store` holds the live cells of a heap: finitely many addresses, each
with its contents. Reading an address that holds no cell gives `none`,
which is how a model that dereferences a dangling pointer gets stuck. An
`Allocator` picks the address of a new cell; nothing is assumed of it but
that the address is free, and it may fail.
-/

namespace Mowgli

/-- The address of a cell. A null pointer is the `none` of `Option Addr`. -/
abbrev Addr := ℕ

/-- The live cells of a heap, by address. -/
structure Store (α : Type) where
  /-- The cells. -/
  cells : Finmap fun _ : Addr => α

namespace Store

variable {α β γ : Type}

/-- The store with no live cell. -/
def empty : Store α := ⟨∅⟩

/-- The contents of the cell at `a`, if it is live. -/
def get (s : Store α) (a : Addr) : Option α := s.cells.lookup a

/-- The store with contents `x` at `a`. -/
def set (s : Store α) (a : Addr) (x : α) : Store α := ⟨s.cells.insert a x⟩

/-- The store without the cell at `a`. -/
def free (s : Store α) (a : Addr) : Store α := ⟨s.cells.erase a⟩

/-- The store with the contents of the cell at `a` put through `f`; `none`
if there is no such cell. -/
def modify (s : Store α) (a : Addr) (f : α → α) : Option (Store α) :=
  (s.get a).map fun x => s.set a (f x)

/-- The addresses of the live cells. -/
def live (s : Store α) : Finset Addr := s.cells.keys

@[simp] theorem get_empty (a : Addr) : (empty : Store α).get a = none :=
  Finmap.lookup_empty a

theorem get_set (s : Store α) (a b : Addr) (x : α) :
    (s.set a x).get b = if b = a then some x else s.get b := by
  split_ifs with h
  · rw [h]; exact Finmap.lookup_insert s.cells
  · exact Finmap.lookup_insert_of_ne s.cells h

@[simp] theorem get_set_self (s : Store α) (a : Addr) (x : α) : (s.set a x).get a = some x := by
  rw [get_set, if_pos rfl]

theorem get_set_of_ne (s : Store α) {a b : Addr} (x : α) (h : b ≠ a) :
    (s.set a x).get b = s.get b := by
  rw [get_set, if_neg h]

/-- A store is what is read from it. -/
theorem ext_get {s s' : Store α} (h : ∀ a, s.get a = s'.get a) : s = s' := by
  cases s
  cases s'
  rw [mk.injEq]
  exact Finmap.ext_lookup h

/-- Writing what is there changes nothing. -/
theorem set_eq_self {s : Store α} {a : Addr} {x : α} (h : s.get a = some x) : s.set a x = s := by
  refine ext_get fun b => ?_
  rw [get_set]
  split_ifs with hb
  · rw [hb, h]
  · rfl

/-- The last of two writes counts. -/
theorem set_set (s : Store α) (a : Addr) (x y : α) : (s.set a x).set a y = s.set a y := by
  refine ext_get fun b => ?_
  rw [get_set, get_set, get_set]
  split_ifs <;> rfl

theorem get_free (s : Store α) (a b : Addr) :
    (s.free a).get b = if b = a then none else s.get b := by
  split_ifs with h
  · rw [h]; exact Finmap.lookup_erase a s.cells
  · exact Finmap.lookup_erase_ne h

theorem get_free_of_ne (s : Store α) {a b : Addr} (h : b ≠ a) : (s.free a).get b = s.get b := by
  rw [get_free, if_neg h]

/-- What was written is freed. -/
theorem free_set (s : Store α) (a : Addr) (x : α) : (s.set a x).free a = s.free a := by
  refine ext_get fun b => ?_
  rw [get_free, get_free, get_set]
  split_ifs <;> rfl

theorem mem_live {s : Store α} {a : Addr} : a ∈ s.live ↔ ∃ x, s.get a = some x := by
  rw [live, Finmap.mem_keys, Finmap.mem_iff]; rfl

theorem get_eq_none {s : Store α} {a : Addr} : s.get a = none ↔ a ∉ s.live := by
  rw [mem_live]
  cases h : s.get a <;> simp

theorem mem_live_set {s : Store α} {a b : Addr} {x : α} :
    b ∈ (s.set a x).live ↔ b = a ∨ b ∈ s.live := by
  rw [mem_live, mem_live, get_set]
  split_ifs with h <;> simp [h]

theorem mem_live_free {s : Store α} {a b : Addr} :
    b ∈ (s.free a).live ↔ b ≠ a ∧ b ∈ s.live := by
  rw [mem_live, mem_live, get_free]
  split_ifs with h <;> simp [h]

@[simp] theorem live_empty : (empty : Store α).live = ∅ := Finmap.keys_empty

theorem modify_of_get {s : Store α} {a : Addr} {x : α} (f : α → α) (h : s.get a = some x) :
    s.modify a f = some (s.set a (f x)) := by
  rw [modify, h]
  rfl

/-- The cells of two stores look the same through `f`. -/
def Same (f : α → β) (s s' : Store α) : Prop := ∀ a, (s'.get a).map f = (s.get a).map f

namespace Same

variable {f : α → β} {s s' s'' : Store α}

theorem refl (f : α → β) (s : Store α) : Same f s s := fun _ => rfl

theorem trans (h : Same f s s') (h' : Same f s' s'') : Same f s s'' :=
  fun a => (h' a).trans (h a)

theorem comp (h : Same f s s') (g : β → γ) : Same (g ∘ f) s s' := by
  intro a
  rw [← Option.map_map, ← Option.map_map, h a]

theorem live (h : Same f s s') : s'.live = s.live := by
  ext a
  have ha := congrArg Option.isSome (h a)
  rw [Option.isSome_map, Option.isSome_map] at ha
  rw [mem_live, mem_live, ← Option.isSome_iff_exists, ← Option.isSome_iff_exists, ha]

theorem set {a : Addr} {x y : α} (ha : s.get a = some x) (hf : f y = f x) :
    Same f s (s.set a y) := by
  intro b
  by_cases hb : b = a
  · rw [hb, get_set_self, ha, Option.map_some, Option.map_some, hf]
  · rw [get_set_of_ne _ _ hb]

theorem modify {a : Addr} {g : α → α} (h : s.modify a g = some s') (hg : ∀ x, f (g x) = f x) : Same f s s' := by
  obtain ⟨x, hx, rfl⟩ := Option.map_eq_some_iff.1 h
  exact set hx (hg x)

end Same

end Store

/-- Where new cells go. `pick` is what the allocator answers in a given
state of the heap, `none` being a failed allocation. -/
structure Allocator (α : Type) where
  /-- The address of the next cell. -/
  pick : Store α → Option Addr
  /-- A new cell never overlaps a live one. -/
  fresh : ∀ {s : Store α} {a : Addr}, pick s = some a → s.get a = none

namespace Allocator

variable {α : Type}

/-- The allocator that never fails. -/
def NeverFails (A : Allocator α) : Prop := ∀ s, (A.pick s).isSome

/-- The allocator that always takes the address above all live ones. -/
def bump : Allocator α where
  pick s := some (s.live.sup id + 1)
  fresh := by
    intro s a h
    rw [Store.get_eq_none]
    intro hm
    have hle : a ≤ s.live.sup id := Finset.le_sup (f := id) hm
    rw [← Option.some.inj h] at hle
    exact Nat.not_succ_le_self _ hle

theorem bump_neverFails : (bump : Allocator α).NeverFails := fun _ => rfl

end Allocator

end Mowgli
