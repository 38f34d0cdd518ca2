import Mathlib.Data.Finmap
import Mowgli.Library.Store
/-!
# The elements of a container

What a container holds, as a list of items in its own order and as a
finite map from keys. `Lists` says that the two are the same, and how an
insertion and a removal keep it so.
-/

namespace Mowgli

variable {κ δ : Type} [DecidableEq κ]

/-- An item of a container: its label, its key and what is stored under
the key. -/
@[ext] structure Item (ι κ δ : Type) where
  /-- The label, in use the address of the cell. -/
  cell : ι
  /-- The key. -/
  key : κ
  /-- What is stored under the key. -/
  data : δ

/-- The elements of a container by their keys: each has its cell, which is
what the caller holds, and its data. -/
abbrev Elems (κ δ : Type) : Type := Finmap fun _ : κ => Addr × δ

/-- The elements `M` are the items `l`. -/
def Lists (l : List (Item Addr κ δ)) (M : Elems κ δ) : Prop :=
  ∀ k a v, M.lookup k = some (a, v) ↔ ⟨a, k, v⟩ ∈ l

variable {l l' : List (Item Addr κ δ)} {M : Elems κ δ} {k : κ} {a : Addr} {v : δ}

theorem Lists.lookup (h : Lists l M) {x : Item Addr κ δ} (hx : x ∈ l) :
    M.lookup x.key = some (x.cell, x.data) := (h ..).2 hx

theorem Lists.lookup_eq_none (h : Lists l M) (hno : ∀ x ∈ l, x.key ≠ k) : M.lookup k = none := by
  cases hk : M.lookup k with
  | none => rfl
  | some e => exact absurd rfl (hno _ ((h k e.1 e.2).1 hk))

theorem Lists.mem_iff (h : Lists l M) : k ∈ M ↔ ∃ x ∈ l, x.key = k := by
  rw [Finmap.mem_iff]
  constructor
  · rintro ⟨⟨a, v⟩, he⟩
    exact ⟨⟨a, k, v⟩, (h k a v).1 he, rfl⟩
  · rintro ⟨x, hx, rfl⟩
    exact ⟨_, h.lookup hx⟩

theorem Lists.not_mem (h : Lists l M) (hno : ∀ x ∈ l, x.key ≠ k) : k ∉ M := fun hk => by
  obtain ⟨x, hx, hkey⟩ := h.mem_iff.1 hk
  exact hno x hx hkey

theorem Lists.keys_eq (h : Lists l M) : M.keys = (l.map Item.key).toFinset := by
  ext k
  rw [Finmap.mem_keys, h.mem_iff, List.mem_toFinset, List.mem_map]

theorem Lists.keys_card (h : Lists l M) (hnd : (l.map Item.key).Nodup) : M.keys.card = l.length := by
  rw [h.keys_eq, List.toFinset_card_of_nodup hnd, List.length_map]

/-- Erasing a key there is not changes nothing. -/
theorem erase_of_not_mem (h : k ∉ M) : M.erase k = M := Finmap.ext_lookup fun k' => by
  by_cases hk : k' = k
  · rw [hk, Finmap.lookup_erase, Finmap.lookup_eq_none.2 h]
  · exact Finmap.lookup_erase_ne hk

/-- One more item with a key of its own is one more element. -/
theorem Lists.insert (h : Lists l M) (hno : ∀ x ∈ l, x.key ≠ k)
    (hperm : l'.Perm (⟨a, k, v⟩ :: l)) : Lists l' (M.insert k (a, v)) := by
  intro k' a' v'
  rw [hperm.mem_iff, List.mem_cons, Item.mk.injEq]
  by_cases hk : k' = k
  · subst hk
    rw [Finmap.lookup_insert, Option.some.injEq, Prod.mk.injEq]
    constructor
    · rintro ⟨rfl, rfl⟩; exact Or.inl ⟨rfl, rfl, rfl⟩
    · rintro (⟨rfl, -, rfl⟩ | hmem)
      · exact ⟨rfl, rfl⟩
      · exact absurd rfl (hno _ hmem)
  · rw [Finmap.lookup_insert_of_ne _ hk, h k' a' v']
    exact ⟨Or.inr, fun h' => h'.resolve_left fun h0 => hk h0.2.1⟩

/-- One item less is one element less. -/
theorem Lists.erase {r : List (Item Addr κ δ)} {x : Item Addr κ δ}
    (h : Lists (l ++ x :: r) M) (hnd : ((l ++ x :: r).map Item.key).Nodup) :
    Lists (l ++ r) (M.erase x.key) := by
  have hother : ∀ y ∈ l ++ r, y.key ≠ x.key := by
    rw [List.map_append, List.map_cons, List.nodup_middle, List.nodup_cons] at hnd
    intro y hy hkey
    exact hnd.1 (by rw [← hkey, ← List.map_append]; exact List.mem_map_of_mem hy)
  intro k a v
  by_cases hk : k = x.key
  · subst hk
    rw [Finmap.lookup_erase]
    simp only [reduceCtorEq, false_iff]
    exact fun hmem => hother _ hmem rfl
  · rw [Finmap.lookup_erase_ne hk, h k a v]
    simp only [List.mem_append, List.mem_cons]
    constructor
    · rintro (hmem | hmem | hmem)
      · exact Or.inl hmem
      · exact absurd (congrArg Item.key hmem) hk
      · exact Or.inr hmem
    · rintro (hmem | hmem)
      · exact Or.inl hmem
      · exact Or.inr (Or.inr hmem)

/-- Keys that are all different have one place each. -/
theorem eq_of_append_key {ι κ δ : Type} {l r l' r' : List (Item ι κ δ)} {x y : Item ι κ δ}
    (h : l ++ x :: r = l' ++ y :: r') (hnd : ((l ++ x :: r).map Item.key).Nodup) (hkey : x.key = y.key) :
    l = l' ∧ x = y ∧ r = r' := by
  induction l generalizing l' with
  | nil =>
    rw [List.nil_append, List.map_cons, List.nodup_cons] at hnd
    cases l' with
    | nil => simpa using h
    | cons z l' =>
      obtain ⟨-, rfl⟩ := List.cons.inj h
      exact absurd (List.mem_map.2 ⟨y, by simp, hkey.symm⟩) hnd.1
  | cons z l ih =>
    rw [List.cons_append, List.map_cons, List.nodup_cons] at hnd
    cases l' with
    | nil =>
      obtain ⟨rfl, -⟩ := List.cons.inj h
      exact absurd (List.mem_map.2 ⟨x, by simp, hkey⟩) hnd.1
    | cons w l' =>
      obtain ⟨rfl, hrest⟩ := List.cons.inj h
      obtain ⟨hl, hxy, hr⟩ := ih hrest hnd.2
      exact ⟨by rw [hl], hxy, hr⟩

end Mowgli
