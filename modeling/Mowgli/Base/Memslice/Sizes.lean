import Mathlib.Data.Nat.Size
import Mathlib.Order.Bounds.Defs
import Mowgli.Base.Memslice
/-!
# The sizes of the slice allocator

`nexthigher` is the next power of two, and a heap that is made for elements
of such a size, up to 2 ^ 26 bytes, has 16 of them in a block or more. From
2 ^ 27 bytes on the pages of a block are more bytes than an `int` has.
-/

namespace Mowgli

/-- The powers of two that are not below `n`. -/
def powersFrom (n : ℕ) : Set ℕ := {p | (∃ m, p = 2 ^ m) ∧ n ≤ p}

theorem toSize_of_lt {n : ℕ} (h : n < 18446744073709551616) : toSize n = n := by
  unfold toSize
  omega

/-- Each shift spreads the bits twice as far down. -/
theorem smear_step {n k i : ℕ} (h : ∀ b, k.testBit b ↔ ∃ t < i, n.testBit (b + t)) :
    ∀ b, (k ||| k >>> i).testBit b ↔ ∃ t < i + i, n.testBit (b + t) := by
  intro b
  rw [Nat.testBit_or, Nat.testBit_shiftRight, Bool.or_eq_true, h, h]
  constructor
  · rintro (⟨t, ht, hb⟩ | ⟨t, ht, hb⟩)
    · exact ⟨t, by omega, hb⟩
    · exact ⟨i + t, by omega, by rwa [← Nat.add_assoc, Nat.add_comm b i]⟩
  · rintro ⟨t, ht, hb⟩
    rcases Nat.lt_or_ge t i with hlt | hge
    · exact Or.inl ⟨t, hlt, hb⟩
    · refine Or.inr ⟨t - i, by omega, ?_⟩
      rwa [show i + b + (t - i) = b + t by omega]

/-- All bits below the highest one are set. -/
theorem smear_eq {n : ℕ} (hn : n < 2 ^ 64) :
    [1, 2, 4, 8, 16, 32].foldl (fun k i => k ||| k >>> i) n = 2 ^ n.size - 1 := by
  have h₁ : ∀ b, n.testBit b ↔ ∃ t < 1, n.testBit (b + t) := fun b => by simp
  have h₆ := smear_step (smear_step (smear_step (smear_step (smear_step (smear_step h₁)))))
  refine Nat.eq_of_testBit_eq fun b => ?_
  rw [Nat.testBit_two_pow_sub_one, Bool.eq_iff_iff, decide_eq_true_iff]
  refine (h₆ b).trans ⟨?_, fun hb => ?_⟩
  · rintro ⟨t, -, hb⟩
    have hlt : b + t < n.size := by
      by_contra hge
      have hsmall : n < 2 ^ (b + t) := (Nat.lt_size_self n).trans_le (Nat.pow_le_pow_right (by decide) (by omega))
      rw [Nat.testBit_lt_two_pow hsmall] at hb
      cases hb
    omega
  · -- the highest bit is near enough
    have hle : n.size ≤ 64 := Nat.size_le.2 hn
    have hge : 2 ^ (n.size - 1) ≤ n := Nat.lt_size.1 (by omega)
    refine ⟨n.size - 1 - b, by omega, ?_⟩
    rw [show b + (n.size - 1 - b) = n.size - 1 by omega]
    by_contra hbit
    have hhigh : n.testBit (n.size - 1) = false := by simpa using hbit
    have hlt : n < 2 ^ (n.size - 1) := by
      refine Nat.lt_pow_two_of_testBit n fun i hi => ?_
      rcases Nat.eq_or_lt_of_le hi with rfl | hlt
      · exact hhigh
      · exact Nat.testBit_lt_two_pow ((Nat.lt_size_self n).trans_le (Nat.pow_le_pow_right (by decide) (by omega)))
    omega

theorem nexthigher_succ {n : ℕ} (hn : n < 2 ^ 64) : nexthigher (n + 1) = toSize (2 ^ n.size : ℕ) := by
  rw [nexthigher, sizeDec_succ, smear_eq hn, ← Nat.cast_add_one, Nat.sub_add_cancel (Nat.two_pow_pos _)]

/-- **`nexthigher` is the next power of two.** -/
theorem nexthigher_isLeast {k : ℕ} (hpos : 0 < k) (hk : k ≤ 2 ^ 63) : IsLeast (powersFrom k) (nexthigher k) := by
  obtain ⟨n, rfl⟩ : ∃ n, k = n + 1 := ⟨k - 1, by omega⟩
  have hsize : n.size ≤ 63 := Nat.size_le.2 (by omega)
  have hpow : 2 ^ n.size ≤ 2 ^ 63 := Nat.pow_le_pow_right (by decide) hsize
  have heq : nexthigher (n + 1) = 2 ^ n.size := by
    rw [nexthigher_succ (by omega), toSize_of_lt (by omega)]
  rw [heq]
  refine ⟨⟨⟨n.size, rfl⟩, Nat.lt_size_self n⟩, ?_⟩
  rintro p ⟨⟨m, rfl⟩, hp⟩
  exact Nat.pow_le_pow_right (by decide) (Nat.size_le.2 hp)

/-- Where the next power of two is no `size_t`, it comes out as 0. -/
theorem nexthigher_of_gt {k : ℕ} (hk : 2 ^ 63 < k) (hlt : k < 2 ^ 64) : nexthigher k = 0 := by
  obtain ⟨n, rfl⟩ : ∃ n, k = n + 1 := ⟨k - 1, by omega⟩
  have hle : n.size ≤ 64 := Nat.size_le.2 (by omega)
  have hge : 63 < n.size := Nat.lt_size.2 (by omega)
  rw [nexthigher_succ (by omega), show n.size = 64 by omega]
  rfl

/-- What `nexthigher` gives has room, if it gives any. -/
theorem nexthigher_ge {k : ℕ} (hk : k < 2 ^ 64) (hpos : 0 < nexthigher k) : k ≤ nexthigher k := by
  rcases Nat.eq_zero_or_pos k with rfl | hk₀
  · exact Nat.zero_le _
  rcases Nat.lt_or_ge (2 ^ 63) k with hgt | hle
  · exact absurd (nexthigher_of_gt hgt hk) hpos.ne'
  · exact (nexthigher_isLeast hk₀ hle).1.2

theorem nexthigher_le {k m : ℕ} (hpos : 0 < k) (hk : k ≤ 2 ^ m) (hm : m ≤ 63) : nexthigher k ≤ 2 ^ m :=
  (nexthigher_isLeast hpos (hk.trans (Nat.pow_le_pow_right (by decide) hm))).2 ⟨⟨m, rfl⟩, hk⟩

/-- **A block has room for what was asked for**, and is not too long. -/
theorem heapElems_spec {elemSize : ℕ} (h : elemSize ≤ 2 ^ 26) :
    16 ≤ heapElems elemSize 16 ∧ BLOCK_SIZE + (elemSize + ELEM_HEADER_SIZE) * heapElems elemSize 16 ≤ MEMORY_SIZE := by
  obtain ⟨n, hn⟩ : ∃ n : ℕ, n = BLOCK_SIZE + (elemSize + ELEM_HEADER_SIZE) * 16 + 4095 := ⟨_, rfl⟩
  have hN : n = elemSize * 16 + 4279 := by
    rw [hn]
    unfold BLOCK_SIZE ELEM_HEADER_SIZE
    omega
  have hround : toSize (BLOCK_SIZE + (elemSize + ELEM_HEADER_SIZE : ℕ) * (16 : ℕ) + PAGE_SIZE - 1) = n := by
    rw [← toSize_of_lt (n := n) (by omega), hN]
    unfold BLOCK_SIZE ELEM_HEADER_SIZE PAGE_SIZE
    push_cast
    exact congrArg toSize (by omega)
  have hpages : toInt (n / PAGE_SIZE : ℕ) = (n / PAGE_SIZE : ℕ) := by
    unfold PAGE_SIZE
    exact toInt_of_range (by omega) (by omega)
  have hbytes : toInt ((n / PAGE_SIZE : ℕ) * PAGE_SIZE) = (n / 4096 * 4096 : ℕ) := by
    unfold PAGE_SIZE
    rw [toInt_of_range (by omega) (by omega)]
    push_cast
    rfl
  have helems : heapElems elemSize 16 = (n / 4096 * 4096 - BLOCK_SIZE) / (elemSize + ELEM_HEADER_SIZE) := by
    unfold heapElems
    dsimp only
    rw [if_neg (by decide), hround, hpages, hbytes, toSize_of_lt (by omega), sizeSub,
      if_neg (by unfold BLOCK_SIZE; omega)]
  have hfit := Nat.mul_div_le (n / 4096 * 4096 - BLOCK_SIZE) (elemSize + ELEM_HEADER_SIZE)
  rw [helems]
  constructor
  · rw [Nat.le_div_iff_mul_le (by unfold ELEM_HEADER_SIZE; omega)]
    unfold BLOCK_SIZE ELEM_HEADER_SIZE
    omega
  · unfold BLOCK_SIZE MEMORY_SIZE at *
    omega

/-- **Where the pages of 16 elements are no `int` of bytes**, a block has no
element, or it is longer than the memory. -/
theorem heapElems_of_gt {m : ℕ} (hm : 26 < m) (hle : m < 64) :
    heapElems (2 ^ m) 16 = 0 ∨ MEMORY_SIZE < BLOCK_SIZE + (2 ^ m + ELEM_HEADER_SIZE) * heapElems (2 ^ m) 16 := by
  have hall : ∀ j < 37, heapElems (2 ^ (27 + j)) 16 = 0 ∨
      MEMORY_SIZE < BLOCK_SIZE + (2 ^ (27 + j) + ELEM_HEADER_SIZE) * heapElems (2 ^ (27 + j)) 16 := by decide +kernel
  have hj := hall (m - 27) (by omega)
  rwa [show 27 + (m - 27) = m by omega] at hj

end Mowgli
