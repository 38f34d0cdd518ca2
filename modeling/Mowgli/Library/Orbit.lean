import Mathlib.Data.Set.Finite.Basic
import Mathlib.GroupTheory.FixedPointFree
/-!
# Orbits of homomorphisms

What a quantity of a state can be along an orbit of a homomorphism of a finite
group. How long the orbits are need not be known, only that nothing but the
neutral state is fixed.
-/

namespace Mowgli

variable {G H : Type} [Group G] [Group H]

/-- The states that a quantity does not see, now or later. -/
def Unseen (φ : G →* G) (γ : G →* H) (v : G) : Prop := ∀ n : ℕ, γ (φ^[n] v) = 1

/-- **A quantity that stays the same is the neutral one.** -/
theorem eq_one_of_stays [Finite G] (φ : G →* G) (hφ : MonoidHom.FixedPointFree φ) (γ : G →* H) {v : G} {c : H}
    (hc : ∀ n : ℕ, γ (φ^[n] v) = c) : c = 1 := by
  have hinj := hφ.commutatorMap_injective
  -- what an unseen state changes by is unseen, and so is what `v` changes by
  have hchange : ∀ u, (∃ d, ∀ n : ℕ, γ (φ^[n] u) = d) → Unseen φ γ (MonoidHom.commutatorMap φ u) := by
    rintro u ⟨d, hd⟩ n
    rw [MonoidHom.commutatorMap_apply, iterate_map_div, map_div, ← Function.iterate_succ_apply, hd, hd, div_self']
  let f : {u // Unseen φ γ u} → {u // Unseen φ γ u} := fun u => ⟨MonoidHom.commutatorMap φ u, hchange u ⟨1, u.2⟩⟩
  have hf : Function.Injective f := fun u u' h => Subtype.ext (hinj (congrArg Subtype.val h))
  obtain ⟨u, hu⟩ := Finite.surjective_of_injective hf ⟨MonoidHom.commutatorMap φ v, hchange v ⟨c, hc⟩⟩
  have huv : (u : G) = v := hinj (congrArg Subtype.val hu)
  rw [← hc 0, ← huv]
  exact u.2 0

end Mowgli
