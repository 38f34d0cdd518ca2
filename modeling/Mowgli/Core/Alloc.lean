import Mowgli.Base.Memslice.Sizes
/-!
# Arrays with a policy's tag, as `core/alloc.c` has them

An array is what a policy's `allocate` gives, less the tag at its front that
names the policy. The number of bytes that is asked for is a `size_t`. A
function answers `none` where the tag is written through a null pointer.
-/

namespace Mowgli

/-- `mowgli_allocation_policy_t`: where there is room for so many bytes. -/
structure AllocationPolicy where
  allocate : ℕ → Option Addr

/-- `sizeof(alloc_tag_t)`. -/
def ALLOC_TAG_SIZE : ℕ := 8

/-- What is returned, with the block it points into. -/
structure Allocated where
  block : Region
  ptr : Addr

/-- How many bytes of the block there are from the pointer on. -/
def Allocated.usable (x : Allocated) : ℕ := x.block.1 + x.block.2 - x.ptr

/-- The number of bytes that a policy is asked for. -/
def adjSize (size count : ℕ) : ℕ := toSize (size * count + ALLOC_TAG_SIZE)

/-- `mowgli_alloc_array_using_policy`. The tag is written also where the block is
shorter. -/
def allocArrayUsingPolicy (policy : Option AllocationPolicy) (size count : ℕ) : Option (Option Allocated) :=
  match policy with
  | none => some none
  | some policy => do
    let r ← policy.allocate (adjSize size count)
    some (some ⟨(r, adjSize size count), r + ALLOC_TAG_SIZE⟩)

/-- `mowgli_alloc_array`; `allocator` is `_mowgli_allocator`. -/
def allocArray (allocator : AllocationPolicy) (size count : ℕ) : Option (Option Allocated) :=
  allocArrayUsingPolicy (some allocator) size count

/-- A call fails, or what it returns has `n` bytes. -/
def Enough (n : ℕ) (r : Option (Option Allocated)) : Prop := r = some none ∨ ∃ x, r = some (some x) ∧ n ≤ x.usable

/-- A request with its tag is asked for in full, or comes out below it. -/
theorem adjSize_enough_iff (size count : ℕ) :
    size * count ≤ adjSize size count - ALLOC_TAG_SIZE ↔ size * count + ALLOC_TAG_SIZE < 18446744073709551616 := by
  have hcast : ((size : ℤ) * count + ALLOC_TAG_SIZE) = (size * count + ALLOC_TAG_SIZE : ℕ) := by
    push_cast
    rfl
  unfold adjSize
  rw [hcast]
  generalize size * count = n
  unfold toSize ALLOC_TAG_SIZE
  omega

/-- What a policy gives is returned behind the tag. -/
theorem allocArrayUsingPolicy_of_some {p : AllocationPolicy} {size count : ℕ} {r : Addr}
    (h : p.allocate (adjSize size count) = some r) : allocArrayUsingPolicy (some p) size count =
      some (some ⟨(r, adjSize size count), r + ALLOC_TAG_SIZE⟩) := by
  rw [allocArrayUsingPolicy, h]
  rfl

/-- **When an array is as long as was asked for**, if there is a policy: the
request and its tag are a `size_t`, and the policy gives a block. -/
theorem allocArray_enough_iff (policy : Option AllocationPolicy) (size count : ℕ) :
    Enough (size * count) (allocArrayUsingPolicy policy size count) ↔
      policy = none ∨ size * count + ALLOC_TAG_SIZE < 18446744073709551616 ∧
        ∃ p r, policy = some p ∧ p.allocate (adjSize size count) = some r := by
  rw [← adjSize_enough_iff]
  cases policy with
  | none => exact iff_of_true (Or.inl rfl) (Or.inl rfl)
  | some p =>
    cases hr : p.allocate (adjSize size count) with
    | none =>
      -- the tag is written through a null pointer
      have hrun : allocArrayUsingPolicy (some p) size count = none := by
        rw [allocArrayUsingPolicy, hr]
        rfl
      refine iff_of_false ?_ ?_
      · rw [hrun]
        rintro (h | ⟨x, h, -⟩) <;> cases h
      · rintro (h | ⟨-, p', r, hp, hr'⟩)
        · cases h
        · cases hp
          rw [hr] at hr'
          cases hr'
    | some r =>
      have husable : Allocated.usable ⟨(r, adjSize size count), r + ALLOC_TAG_SIZE⟩ =
          adjSize size count - ALLOC_TAG_SIZE := by
        unfold Allocated.usable
        dsimp only
        omega
      rw [allocArrayUsingPolicy_of_some hr]
      constructor
      · rintro (h | ⟨x, h, hle⟩)
        · cases h
        · cases h
          exact Or.inr ⟨husable ▸ hle, p, r, rfl, hr⟩
      · rintro (h | ⟨hle, -⟩)
        · cases h
        · exact Or.inr ⟨_, rfl, husable ▸ hle⟩

end Mowgli
