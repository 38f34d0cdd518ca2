import Mathlib.Data.List.Basic
import Mathlib.Logic.Relation
/-!
# A graph listed in pre-order

Each vertex has a list of children, or none where it is broken. A walk of
bounded depth lists a vertex before what its children list, in their order.
It comes to an end only if nothing it reaches is broken or on a cycle.
-/

namespace Mowgli

open Relation

variable {α : Type} {children : α → Option (List α)} {d : ℕ} {a b : α}

/-- The vertices reached from `a` in pre-order, where `d` may be on one path. -/
def preorder (children : α → Option (List α)) : ℕ → α → Option (List α)
  | 0, _ => none
  | d + 1, a => do
    let as ← children a
    let ls ← as.mapM (preorder children d)
    some (a :: ls.flatten)

/-- One vertex has the other among its children. -/
def HasChild (children : α → Option (List α)) (a b : α) : Prop := ∃ as, children a = some as ∧ b ∈ as

theorem mapM_eq_none_iff {β : Type} {f : α → Option β} {as : List α} : as.mapM f = none ↔ ∃ a ∈ as, f a = none := by
  induction as with
  | nil => simp
  | cons a as ih =>
    rw [List.mapM_cons, List.exists_mem_cons_iff, ← ih]
    rcases f a with _ | b
    · simp
    · rcases as.mapM f with _ | bs <;> simp

theorem preorder_isSome_child (h : (preorder children (d + 1) a).isSome) (hab : HasChild children a b) :
    (preorder children d b).isSome := by
  obtain ⟨as, has, hb⟩ := hab
  rw [preorder, has] at h
  rw [Option.isSome_iff_ne_none]
  intro hnone
  have hmap : as.mapM (preorder children d) = none := mapM_eq_none_iff.2 ⟨b, hb, hnone⟩
  simp [hmap] at h

theorem preorder_isSome_transGen (h : (preorder children d a).isSome) (hab : TransGen (HasChild children) a b) :
    ∃ d' < d, (preorder children d' b).isSome := by
  have hpos : ∀ {d a}, (preorder children d a).isSome → ∃ k, d = k + 1 := by
    rintro (_ | k) a h
    · cases h
    · exact ⟨k, rfl⟩
  induction hab with
  | single hab =>
    obtain ⟨k, rfl⟩ := hpos h
    exact ⟨k, Nat.lt_succ_self k, preorder_isSome_child h hab⟩
  | tail _ hbc ih =>
    obtain ⟨d', hlt, hd'⟩ := ih
    obtain ⟨k, rfl⟩ := hpos hd'
    exact ⟨k, by omega, preorder_isSome_child hd' hbc⟩

/-- **Nothing that is listed is on a cycle.** -/
theorem not_transGen_self (h : (preorder children d a).isSome) : ¬ TransGen (HasChild children) a a := by
  intro hcycle
  induction d using Nat.strongRecOn with
  | _ d ih =>
    obtain ⟨d', hlt, hd'⟩ := preorder_isSome_transGen h hcycle
    exact ih d' hlt hd'

/-- What is reached from a vertex that is listed is listed. -/
theorem preorder_isSome_reaches (h : (preorder children d a).isSome) (hab : ReflTransGen (HasChild children) a b) :
    ∃ d', (preorder children d' b).isSome := by
  rcases reflTransGen_iff_eq_or_transGen.1 hab with rfl | hab
  · exact ⟨d, h⟩
  · obtain ⟨d', -, hd'⟩ := preorder_isSome_transGen h hab
    exact ⟨d', hd'⟩

theorem children_isSome (h : (preorder children d a).isSome) : (children a).isSome := by
  rcases d with _ | d
  · cases h
  · rw [preorder] at h
    rcases hc : children a with _ | as
    · rw [hc] at h
      cases h
    · rfl

/-- No path from `a` has more than `d` vertices. -/
def Shallow (children : α → Option (List α)) (d : ℕ) (a : α) : Prop :=
  ∀ as, (a :: as).IsChain (HasChild children) → as.length < d

theorem shallow_of_preorder (h : (preorder children d a).isSome) : Shallow children d a := by
  intro as
  induction as generalizing d a with
  | nil =>
    intro _
    rcases d with _ | d
    · cases h
    · exact Nat.succ_pos d
  | cons b as ih =>
    intro hpath
    obtain ⟨hab, hpath⟩ := List.isChain_cons_cons.1 hpath
    rcases d with _ | d
    · cases h
    · exact Nat.succ_lt_succ (ih (preorder_isSome_child h hab) hpath)

/-- **What is listed**: exactly the vertices that reach nothing broken, and from which no path is too long. -/
theorem preorder_isSome_iff : (preorder children d a).isSome ↔
    (∀ b, ReflTransGen (HasChild children) a b → (children b).isSome) ∧ Shallow children d a := by
  constructor
  · refine fun h => ⟨fun b hab => ?_, shallow_of_preorder h⟩
    obtain ⟨d', hd'⟩ := preorder_isSome_reaches h hab
    exact children_isSome hd'
  · rintro ⟨hwhole, hshallow⟩
    induction d generalizing a with
    | zero => exact absurd (hshallow [] (.singleton a)) (Nat.not_lt_zero _)
    | succ d ih =>
      obtain ⟨as, has⟩ := Option.isSome_iff_exists.1 (hwhole a .refl)
      have hmap : as.mapM (preorder children d) ≠ none := by
        rw [Ne, mapM_eq_none_iff]
        rintro ⟨b, hb, hnone⟩
        have hab : HasChild children a b := ⟨as, has, hb⟩
        have hsome := ih (fun c hbc => hwhole c (.head hab hbc))
          fun bs hpath => Nat.lt_of_succ_lt_succ (hshallow (b :: bs) (.cons_cons hab hpath))
        rw [hnone] at hsome
        cases hsome
      obtain ⟨ls, hls⟩ := Option.ne_none_iff_exists'.1 hmap
      rw [preorder, has]
      simp [hls]

end Mowgli
