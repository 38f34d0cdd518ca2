import Mowgli.Library.Store
/-!
# Cells that were added to a store
-/

namespace Mowgli

namespace Store

variable {α : Type} {s s' s'' : Store α} {xs ys : List Addr} {a : Addr} {x : α}

/-- The cells at `xs` are new; the other ones are as they were. -/
structure Adds (s s' : Store α) (xs : List Addr) : Prop where
  nodup : xs.Nodup
  fresh : ∀ a ∈ xs, s.get a = none
  live : ∀ a ∈ xs, ∃ x, s'.get a = some x
  same : ∀ a, a ∉ xs → s'.get a = s.get a

namespace Adds

theorem refl (s : Store α) : Adds s s [] :=
  ⟨List.nodup_nil, by simp, by simp, fun _ _ => rfl⟩

theorem perm (h : Adds s s' xs) (hp : xs.Perm ys) : Adds s s' ys :=
  ⟨hp.nodup_iff.1 h.nodup, fun a ha => h.fresh a (hp.mem_iff.2 ha), fun a ha => h.live a (hp.mem_iff.2 ha),
    fun a ha => h.same a fun hx => ha (hp.mem_iff.1 hx)⟩

/-- A cell that was there is not one of the new ones. -/
theorem notMem (h : Adds s s' xs) (ha : s.get a = some x) : a ∉ xs := fun hx => by
  rw [h.fresh a hx] at ha
  cases ha

/-- What was there is there. -/
theorem keeps (h : Adds s s' xs) (ha : s.get a = some x) : s'.get a = some x := by
  rw [h.same a (h.notMem ha), ha]

/-- One more cell is allocated. -/
theorem alloc (h : Adds s s' xs) (ha : s'.get a = none) (x : α) : Adds s (s'.set a x) (a :: xs) := by
  have hmem : a ∉ xs := fun hx => by
    obtain ⟨y, hy⟩ := h.live a hx
    rw [ha] at hy
    cases hy
  refine ⟨List.nodup_cons.2 ⟨hmem, h.nodup⟩, ?_, ?_, ?_⟩
  · rintro b hb
    rcases List.mem_cons.1 hb with rfl | hb
    · rw [← h.same b hmem, ha]
    · exact h.fresh b hb
  · rintro b hb
    by_cases hba : b = a
    · exact ⟨x, by rw [hba, get_set_self]⟩
    · rw [get_set_of_ne _ _ hba]
      exact h.live b ((List.mem_cons.1 hb).resolve_left hba)
  · intro b hb
    rw [List.mem_cons, not_or] at hb
    rw [get_set_of_ne _ _ hb.1, h.same b hb.2]

/-- A new cell may be written to. -/
theorem set (h : Adds s s' xs) (ha : a ∈ xs) (x : α) : Adds s (s'.set a x) xs := by
  refine ⟨h.nodup, h.fresh, fun b hb => ?_, fun b hb => ?_⟩
  · by_cases hba : b = a
    · exact ⟨x, by rw [hba, get_set_self]⟩
    · rw [get_set_of_ne _ _ hba]
      exact h.live b hb
  · have hba : b ≠ a := fun hba => hb (hba ▸ ha)
    rw [get_set_of_ne _ _ hba, h.same b hb]

/-- A new cell is given back: the store is as if it had never been there. -/
theorem free (h : Adds s s' (a :: xs)) : Adds s (s'.free a) xs := by
  obtain ⟨ha, hnd⟩ := List.nodup_cons.1 h.nodup
  refine ⟨hnd, fun b hb => h.fresh b (List.mem_cons_of_mem _ hb), fun b hb => ?_, fun b hb => ?_⟩
  · have hba : b ≠ a := fun hba => ha (hba ▸ hb)
    rw [get_free_of_ne _ hba]
    exact h.live b (List.mem_cons_of_mem _ hb)
  · by_cases hba : b = a
    · rw [get_free, if_pos hba, hba, h.fresh a (List.mem_cons_self ..)]
    · rw [get_free_of_ne _ hba, h.same b fun hx => (List.mem_cons.1 hx).elim hba hb]

/-- What two parts of a run add is disjoint. -/
theorem trans (h : Adds s s' xs) (h' : Adds s' s'' ys) : Adds s s'' (ys ++ xs) := by
  have hdisj : ∀ a ∈ ys, a ∉ xs := by
    intro a ha hx
    obtain ⟨x, hx⟩ := h.live a hx
    exact h'.notMem hx ha
  refine ⟨List.nodup_append.2 ⟨h'.nodup, h.nodup, ?_⟩, ?_, ?_, ?_⟩
  · rintro a ha b hb rfl
    exact hdisj a ha hb
  · intro a ha
    rcases List.mem_append.1 ha with ha | ha
    · rw [← h.same a (hdisj a ha), h'.fresh a ha]
    · exact h.fresh a ha
  · intro a ha
    rcases List.mem_append.1 ha with ha | ha
    · exact h'.live a ha
    · obtain ⟨x, hx⟩ := h.live a ha
      exact ⟨x, h'.keeps hx⟩
  · intro a ha
    rw [List.mem_append, not_or] at ha
    rw [h'.same a ha.1, h.same a ha.2]

/-- There are no more new cells than live ones. -/
theorem length_le (h : Adds s s' xs) : xs.length ≤ s'.live.card := by
  rw [← List.toFinset_card_of_nodup h.nodup]
  refine Finset.card_le_card fun a ha => ?_
  rw [mem_live]
  exact h.live a (List.mem_toFinset.1 ha)

end Adds

end Store

end Mowgli
