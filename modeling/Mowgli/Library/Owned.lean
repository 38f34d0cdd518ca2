import Mathlib.Algebra.Order.Group.Multiset
import Mathlib.Data.Multiset.Bind
import Mathlib.Tactic.Abel
import Mowgli.Library.Store
/-!
# Cells that have one owner

Pointers that are read as values, a cell by what it holds pointers to. Where
no cell is held twice, the cells of some pointers are theirs alone: what is
done to others leaves them as they are, and each is held once, by another or
by one of the pointers.
-/

namespace Mowgli

/-- How pointers are read. -/
structure Ownership (α ρ ν : Type) where
  /-- The cell that a pointer is to, if it is to one. -/
  addr : ρ → Option Addr
  /-- What a pointer to no cell is read as. -/
  Plain : ρ → ν → Prop
  /-- What a cell is read as, with the pointers it holds and what they are
  read as. -/
  Shape : α → ν → List (ρ × ν) → Prop

variable {α ρ ν : Type} {O : Ownership α ρ ν} {s s' s₀ : Store α} {E E' l : List (ρ × ν)} {S S' : Multiset Addr}
  {e : ρ × ν} {r : ρ} {v v' : ν} {a b : Addr} {x : α}

/-- The cells that some pointers are to. -/
def Ownership.cells (O : Ownership α ρ ν) (l : List ρ) : Multiset Addr := l.filterMap O.addr

/-- Pointers with what they are read as, and their cells. -/
inductive Owns (O : Ownership α ρ ν) (s : Store α) : List (ρ × ν) → Multiset Addr → Prop
  | nil : Owns O s [] 0
  | plain {r : ρ} {v : ν} {E : List (ρ × ν)} {S : Multiset Addr} : O.addr r = none → O.Plain r v → Owns O s E S →
      Owns O s ((r, v) :: E) S
  | cell {r : ρ} {v : ν} {a : Addr} {x : α} {l E : List (ρ × ν)} {S₁ S : Multiset Addr} : O.addr r = some a →
      s.get a = some x → O.Shape x v l → Owns O s l S₁ → Owns O s E S → Owns O s ((r, v) :: E) (a ::ₘ (S₁ + S))

namespace Owns

theorem append (h : Owns O s E S) (h' : Owns O s E' S') : Owns O s (E ++ E') (S + S') := by
  induction h with
  | nil =>
    rw [zero_add]
    exact h'
  | plain hr hv _ ih => exact .plain hr hv ih
  | cell hr hx hv hl _ _ ih =>
    rw [Multiset.cons_add, add_assoc]
    exact .cell hr hx hv hl ih

theorem split (h : Owns O s (E ++ E') S) : ∃ S₁ S₂, S = S₁ + S₂ ∧ Owns O s E S₁ ∧ Owns O s E' S₂ := by
  induction E generalizing S with
  | nil => exact ⟨0, S, (zero_add S).symm, .nil, h⟩
  | cons e E ih =>
    rw [List.cons_append] at h
    cases h with
    | plain hr hv h =>
      obtain ⟨S₁, S₂, rfl, h₁, h₂⟩ := ih h
      exact ⟨S₁, S₂, rfl, .plain hr hv h₁, h₂⟩
    | @cell r v a x l _ S₀ S hr hx hv hl h =>
      obtain ⟨S₁, S₂, rfl, h₁, h₂⟩ := ih h
      exact ⟨a ::ₘ (S₀ + S₁), S₂, by rw [Multiset.cons_add, add_assoc], .cell hr hx hv hl h₁, h₂⟩

/-- The first of some pointers, and the others. -/
theorem uncons (h : Owns O s (e :: E) S) : ∃ S₁ S₂, S = S₁ + S₂ ∧ Owns O s [e] S₁ ∧ Owns O s E S₂ :=
  split (E := [e]) h

/-- Nothing but the order changes. -/
theorem perm (hp : E.Perm E') (h : Owns O s E S) : Owns O s E' S := by
  induction hp generalizing S with
  | nil => exact h
  | cons e _ ih =>
    obtain ⟨S₁, S₂, rfl, h₁, h₂⟩ := h.uncons
    exact h₁.append (ih h₂)
  | swap e e' E =>
    obtain ⟨S₁, S₂, rfl, h₁, h₂⟩ := h.uncons
    obtain ⟨S₂, S₃, rfl, h₂, h₃⟩ := h₂.uncons
    rw [add_left_comm]
    exact h₂.append (h₁.append h₃)
  | trans _ _ ih ih' => exact ih' (ih h)

/-- What is done to other cells changes nothing. -/
theorem frame (hs : ∀ a ∈ S, s'.get a = s.get a) (h : Owns O s E S) : Owns O s' E S := by
  induction h with
  | nil => exact .nil
  | plain hr hv _ ih => exact .plain hr hv (ih hs)
  | @cell r v a x l E S₁ S hr hx hv _ _ ih ih' =>
    refine .cell hr ?_ hv (ih fun b hb => hs b ?_) (ih' fun b hb => hs b ?_)
    · rw [hs a (Multiset.mem_cons_self a _), hx]
    · exact Multiset.mem_cons_of_mem (Multiset.mem_add.2 (.inl hb))
    · exact Multiset.mem_cons_of_mem (Multiset.mem_add.2 (.inr hb))

/-- What every cell is read as. -/
theorem shaped (h : Owns O s E S) (ha : a ∈ S) : ∃ x v l, s.get a = some x ∧ O.Shape x v l := by
  induction h with
  | nil => exact absurd ha (Multiset.notMem_zero a)
  | plain _ _ _ ih => exact ih ha
  | cell _ hx hv _ _ ih ih' =>
    rw [Multiset.mem_cons, Multiset.mem_add] at ha
    rcases ha with rfl | ha | ha
    · exact ⟨_, _, _, hx, hv⟩
    · exact ih ha
    · exact ih' ha

theorem live (h : Owns O s E S) (ha : a ∈ S) : ∃ x, s.get a = some x := by
  obtain ⟨x, v, l, hx, -⟩ := h.shaped ha
  exact ⟨x, hx⟩

/-- Where no pointer is to a cell, there is none. -/
theorem eq_zero_iff (h : Owns O s E S) : O.cells (E.map Prod.fst) = 0 ↔ S = 0 := by
  induction h with
  | nil => exact iff_of_true rfl rfl
  | plain hr _ _ ih =>
    rw [Ownership.cells, List.map_cons, List.filterMap_cons_none hr]
    exact ih
  | cell hr _ _ _ _ _ _ =>
    rw [Ownership.cells, List.map_cons, List.filterMap_cons_some hr]
    refine iff_of_false (fun hnil => ?_) Multiset.cons_ne_zero
    exact List.cons_ne_nil _ _ (Multiset.coe_eq_zero _ |>.1 hnil)

/-- The cell of a pointer. -/
theorem of_addr (hr : O.addr r = some a) (h : Owns O s ((r, v) :: E) S) : ∃ x l S₁ S₂, s.get a = some x ∧
    O.Shape x v l ∧ Owns O s l S₁ ∧ Owns O s E S₂ ∧ S = a ::ₘ (S₁ + S₂) := by
  cases h with
  | plain hr' _ _ => cases hr.symm.trans hr'
  | cell hr' hx hv hl h =>
    obtain rfl := Option.some.inj (hr.symm.trans hr')
    exact ⟨_, _, _, _, hx, hv, hl, h, rfl⟩

/-- A pointer to no cell has none. -/
theorem of_plain (hr : O.addr r = none) (h : Owns O s ((r, v) :: E) S) : O.Plain r v ∧ Owns O s E S := by
  cases h with
  | plain _ hv h => exact ⟨hv, h⟩
  | cell hr' _ _ _ _ => cases hr.symm.trans hr'

/-- **Every cell is held once**, by one of the pointers or by a cell. -/
theorem held_once {held : α → List ρ} (hheld : ∀ {x v l}, O.Shape x v l → held x = l.map Prod.fst)
    (h : Owns O s E S) :
    O.cells (E.map Prod.fst) + S.bind (fun a => O.cells ((s.get a).elim [] held)) = S := by
  induction h with
  | nil => rfl
  | plain hr _ _ ih =>
    rw [Ownership.cells, List.map_cons, List.filterMap_cons_none hr]
    exact ih
  | @cell r v a x l E S₁ S hr hx hv _ _ ih ih' =>
    have hcons : O.cells (((r, v) :: E).map Prod.fst) = a ::ₘ O.cells (E.map Prod.fst) := by
      rw [Ownership.cells, List.map_cons, List.filterMap_cons_some hr]
      rfl
    rw [← hheld hv] at ih
    rw [hcons, Multiset.cons_bind, Multiset.add_bind, hx, Option.elim_some, Multiset.cons_add]
    conv_rhs => rw [← ih, ← ih']
    congr 1
    abel

/-- **The number of cells** is that of what is read. -/
theorem card_eq {size : ν → ℕ} (hplain : ∀ {r v}, O.Plain r v → size v = 0)
    (hshape : ∀ {x v l}, O.Shape x v l → size v = (l.map fun e => size e.2).sum + 1) (h : Owns O s E S) :
    S.card = (E.map fun e => size e.2).sum := by
  induction h with
  | nil => rfl
  | plain _ hv _ ih => rw [List.map_cons, List.sum_cons, hplain hv, zero_add, ih]
  | cell _ _ hv _ _ ih ih' =>
    rw [Multiset.card_cons, Multiset.card_add, ih, ih', List.map_cons, List.sum_cons, hshape hv]
    omega

end Owns

/-! ## Cells that were made -/

/-- The cells that were made since the store was `s₀` are those of some
pointers, and the others are as they were. -/
structure Ledger (O : Ownership α ρ ν) (s₀ s : Store α) (E : List (ρ × ν)) (S : Multiset Addr) : Prop where
  owns : Owns O s E S
  nodup : S.Nodup
  kept : ∀ a ∉ S, s.get a = s₀.get a
  new : ∀ a ∈ S, s₀.get a = none

namespace Ledger

theorem nil (O : Ownership α ρ ν) (s : Store α) : Ledger O s s [] 0 :=
  ⟨.nil, Multiset.nodup_zero, fun _ _ => rfl, fun a ha => absurd ha (Multiset.notMem_zero a)⟩

theorem perm (hp : E.Perm E') (h : Ledger O s₀ s E S) : Ledger O s₀ s E' S := ⟨h.owns.perm hp, h.nodup, h.kept, h.new⟩

theorem plain (hr : O.addr r = none) (hv : O.Plain r v) (h : Ledger O s₀ s E S) : Ledger O s₀ s ((r, v) :: E) S :=
  ⟨.plain hr hv h.owns, h.nodup, h.kept, h.new⟩

theorem of_plain (hr : O.addr r = none) (h : Ledger O s₀ s ((r, v) :: E) S) : O.Plain r v ∧ Ledger O s₀ s E S :=
  ⟨(h.owns.of_plain hr).1, (h.owns.of_plain hr).2, h.nodup, h.kept, h.new⟩

/-- The cells are the live ones that are not of `s₀`. -/
theorem mem_iff (h : Ledger O s₀ s E S) : a ∈ S ↔ a ∈ s.live \ s₀.live := by
  rw [Finset.mem_sdiff, Store.mem_live, ← Store.get_eq_none]
  constructor
  · intro ha
    exact ⟨h.owns.live ha, h.new a ha⟩
  · rintro ⟨⟨x, hx⟩, hnone⟩
    by_contra ha
    rw [h.kept a ha, hnone] at hx
    cases hx

theorem toFinset_eq (h : Ledger O s₀ s E S) : (s.live \ s₀.live).val = S :=
  (Multiset.Nodup.ext (s.live \ s₀.live).nodup h.nodup).2 fun _ => h.mem_iff.symm

/-- No cell is held by two of the pointers. -/
theorem addr_ne (hr : O.addr r = some a) (h : Ledger O s₀ s ((r, v) :: e :: E) S) : O.addr e.1 ≠ some a := by
  obtain ⟨x, l, S₁, S₂, -, -, -, howns, rfl⟩ := h.owns.of_addr hr
  intro he
  obtain ⟨-, -, S₃, S₄, -, -, -, -, rfl⟩ := howns.of_addr he
  refine (Multiset.nodup_cons.1 h.nodup).1 (Multiset.mem_add.2 (.inr ?_))
  exact Multiset.mem_cons_self a _

/-- **A cell is made.** -/
theorem alloc (hr : O.addr r = some a) (ha : s.get a = none) (hv : O.Shape x v []) (h : Ledger O s₀ s E S) :
    Ledger O s₀ (s.set a x) ((r, v) :: E) (a ::ₘ S) := by
  have hmem : a ∉ S := fun hmem => by
    obtain ⟨y, hy⟩ := h.owns.live hmem
    cases ha.symm.trans hy
  have hne : ∀ b ∈ S, (s.set a x).get b = s.get b := fun b hb =>
    Store.get_set_of_ne s x fun hba => hmem (hba ▸ hb)
  refine ⟨?_, Multiset.nodup_cons.2 ⟨hmem, h.nodup⟩, fun b hb => ?_, fun b hb => ?_⟩
  · have howns := Owns.cell hr (Store.get_set_self s a x) hv .nil (h.owns.frame hne)
    rwa [zero_add] at howns
  · rw [Multiset.mem_cons, not_or] at hb
    rw [Store.get_set_of_ne s x hb.1, h.kept b hb.2]
  · rcases Multiset.mem_cons.1 hb with rfl | hb
    · rw [← h.kept b hmem, ha]
    · exact h.new b hb

/-- **A cell is freed** that holds no other. -/
theorem free (hr : O.addr r = some a) (hx : s.get a = some x) (hv : ∀ l, O.Shape x v l → l = [])
    (h : Ledger O s₀ s ((r, v) :: E) S) : ∃ S', S = a ::ₘ S' ∧ Ledger O s₀ (s.free a) E S' := by
  obtain ⟨y, l, S₁, S₂, hy, hl, hl', howns, rfl⟩ := h.owns.of_addr hr
  obtain rfl := Option.some.inj (hx.symm.trans hy)
  obtain rfl := hv l hl
  obtain rfl : S₁ = 0 := by
    cases hl'
    rfl
  rw [zero_add] at h ⊢
  have hmem := (Multiset.nodup_cons.1 h.nodup).1
  refine ⟨S₂, rfl, howns.frame fun b hb => ?_, (Multiset.nodup_cons.1 h.nodup).2, fun b hb => ?_, fun b hb => ?_⟩
  · exact Store.get_free_of_ne s fun hba => hmem (hba ▸ hb)
  · by_cases hba : b = a
    · rw [hba, Store.get_free, if_pos rfl, h.new a (Multiset.mem_cons_self a _)]
    · rw [Store.get_free_of_ne s hba]
      exact h.kept b fun hmem => (Multiset.mem_cons.1 hmem).elim hba hb
  · exact h.new b (Multiset.mem_cons_of_mem hb)

/-- **A pointer is put into a cell** that holds the pointers `l`. -/
theorem put {S₁ S₂ : Multiset Addr} {l' : List (ρ × ν)} (hr : O.addr r = some a) (hl : Owns O s l S₁)
    (he : Owns O s (e :: E) S₂) (hv : O.Shape x v' l') (hp : l'.Perm (e :: l))
    (h : Ledger O s₀ s ((r, v) :: e :: E) (a ::ₘ (S₁ + S₂))) :
    Ledger O s₀ (s.set a x) ((r, v') :: E) (a ::ₘ (S₁ + S₂)) := by
  obtain ⟨Sₑ, S₃, rfl, he, hE⟩ := he.uncons
  have hmem := (Multiset.nodup_cons.1 h.nodup).1
  have hne : ∀ b ∈ S₁ + (Sₑ + S₃), (s.set a x).get b = s.get b := fun b hb =>
    Store.get_set_of_ne s x fun hba => hmem (hba ▸ hb)
  refine ⟨?_, h.nodup, fun b hb => ?_, h.new⟩
  · have hin : Owns O (s.set a x) l' (Sₑ + S₁) := by
      refine ((he.append hl).perm hp.symm).frame fun b hb => hne b ?_
      rw [Multiset.mem_add] at hb ⊢
      exact hb.symm.imp_right fun hb => Multiset.mem_add.2 (.inl hb)
    have hout : Owns O (s.set a x) E S₃ := by
      refine hE.frame fun b hb => hne b ?_
      rw [Multiset.mem_add, Multiset.mem_add]
      exact .inr (.inr hb)
    have hall := Owns.cell hr (Store.get_set_self s a x) hv hin hout
    rwa [add_comm Sₑ S₁, add_assoc] at hall
  · have hba : b ≠ a := by
      rintro rfl
      exact hb (Multiset.mem_cons_self b _)
    rw [Store.get_set_of_ne s x hba]
    exact h.kept b hb

end Ledger

end Mowgli
