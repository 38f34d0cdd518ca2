import Mowgli.Base.Memslice.Sizes
/-!
# The pages of a block

`mowgli_heap_create` rounds a block up to whole pages and makes as many
elements as they hold. The number of pages is an `int`, and so is the number
of bytes they are multiplied out to.
-/

namespace Mowgli

/-- How much room a block with the elements that are asked for takes. -/
def requested (elemSize count : ℕ) : ℕ := BLOCK_SIZE + (elemSize + ELEM_HEADER_SIZE) * max 2 count

/-- The bytes of the pages that hold `n` bytes. -/
def pageBytes (n : ℕ) : ℕ := (n + PAGE_SIZE - 1) / PAGE_SIZE * PAGE_SIZE

theorem pageBytes_isLeast (n : ℕ) : IsLeast {m | PAGE_SIZE ∣ m ∧ n ≤ m} (pageBytes n) := by
  unfold pageBytes PAGE_SIZE
  refine ⟨⟨Nat.dvd_mul_left .., by omega⟩, ?_⟩
  rintro m ⟨⟨k, rfl⟩, hk⟩
  omega

theorem pageBytes_lt (n : ℕ) : pageBytes n < n + 4096 := by
  unfold pageBytes PAGE_SIZE
  omega

/-- What is left of an `int` that is multiplied. -/
theorem toInt_mul (a b : ℤ) : toInt (toInt a * b) = toInt (a * b) := by
  unfold toInt
  exact Int.bmod_mul_bmod ..

/-- The elements of a block are what fits the pages, read as an `int`. -/
theorem heapElems_eq {elemSize count : ℕ} (h : requested elemSize count + PAGE_SIZE < 18446744073709551616) :
    heapElems elemSize count =
      sizeSub (toSize (toInt (pageBytes (requested elemSize count)))) BLOCK_SIZE / (elemSize + ELEM_HEADER_SIZE) := by
  have hmax : (if count < 2 then 2 else count) = max 2 count := by
    split_ifs <;> omega
  have hround : toSize (BLOCK_SIZE + (elemSize + ELEM_HEADER_SIZE : ℕ) * (max 2 count : ℕ) + PAGE_SIZE - 1) =
      requested elemSize count + PAGE_SIZE - 1 := by
    have hcast : (BLOCK_SIZE + (elemSize + ELEM_HEADER_SIZE : ℕ) * (max 2 count : ℕ) + PAGE_SIZE - 1 : ℤ) =
        (requested elemSize count + PAGE_SIZE - 1 : ℕ) := by
      rw [Nat.cast_sub (by unfold PAGE_SIZE; omega)]
      unfold requested
      push_cast
      rfl
    rw [hcast, toSize_of_lt (by omega)]
  unfold heapElems
  dsimp only
  rw [hmax, hround, toInt_mul]
  unfold pageBytes
  push_cast
  rfl

/-- **When a block is as long as its pages, and no longer**: the pages have at
most `INT_MAX` bytes. Else the bytes have to be a number that is no positive
`int`, and so great that what follows it, read as a `size_t`, has no room for one
element more. -/
theorem heapElems_iff {elemSize count : ℕ} (h : requested elemSize count + PAGE_SIZE < 18446744073709551616) :
    (max 2 count ≤ heapElems elemSize count ∧
      BLOCK_SIZE + (elemSize + ELEM_HEADER_SIZE) * heapElems elemSize count ≤ pageBytes (requested elemSize count)) ↔
    (pageBytes (requested elemSize count) ≤ INT_MAX ∨
      toInt (pageBytes (requested elemSize count)) ≤ 0 ∧
      (18446744073709551616 + toInt (pageBytes (requested elemSize count)) - BLOCK_SIZE) / (elemSize + ELEM_HEADER_SIZE) ≤
        (pageBytes (requested elemSize count) - BLOCK_SIZE) / (elemSize + ELEM_HEADER_SIZE)) := by
  rw [heapElems_eq h]
  obtain ⟨⟨hdvd, hge⟩, -⟩ := pageBytes_isLeast (requested elemSize count)
  have hlt := pageBytes_lt (requested elemSize count)
  rw [← Nat.cast_add]
  unfold requested at *
  generalize pageBytes (BLOCK_SIZE + (elemSize + ELEM_HEADER_SIZE) * max 2 count) = R at *
  have hpos : 0 < elemSize + ELEM_HEADER_SIZE := Nat.lt_of_lt_of_le (by decide) (Nat.le_add_left ..)
  generalize elemSize + ELEM_HEADER_SIZE = a at *
  unfold BLOCK_SIZE PAGE_SIZE at *
  -- what fits a number of bytes, and what the elements take
  have hfits : ∀ s, max 2 count ≤ s / a ↔ a * max 2 count ≤ s := by
    intro s
    rw [Nat.le_div_iff_mul_le hpos, Nat.mul_comm]
  have htakes : ∀ s, 56 + a * (s / a) ≤ R ↔ s / a ≤ (R - 56) / a := by
    intro s
    rw [Nat.le_div_iff_mul_le hpos, Nat.mul_comm]
    omega
  by_cases hmax : R ≤ INT_MAX
  · have hs : sizeSub (toSize (toInt R)) 56 = R - 56 := by
      rw [toInt_of_le hmax, toSize_of_lt (by omega), sizeSub, if_neg (by omega)]
    rw [hs, hfits, htakes]
    exact iff_of_true ⟨by omega, le_rfl⟩ (Or.inl hmax)
  have hbig : 2147483647 < R := not_le.1 hmax
  have hv : ∃ k : ℤ, (R : ℤ) = toInt R + k * 4294967296 ∧ -2147483648 ≤ toInt R ∧ toInt R ≤ 2147483647 := by
    refine ⟨(R - toInt R) / 4294967296, ?_⟩
    rw [toInt, Int.bmod_def]
    split_ifs <;> omega
  obtain ⟨k, hk, hlo, hhi⟩ := hv
  generalize toInt R = v at *
  by_cases hneg : v ≤ 0
  · have hs : sizeSub (toSize v) 56 = (18446744073709551616 + v - 56).toNat := by
      unfold toSize sizeSub
      split_ifs <;> omega
    obtain ⟨s, hs'⟩ : ∃ s : ℕ, (s : ℤ) = 18446744073709551616 + v - 56 := ⟨_, Int.toNat_of_nonneg (by omega)⟩
    have hR : ((R - 56 : ℕ) : ℤ) = R - 56 := by omega
    rw [hs, hfits, htakes, Nat.cast_ofNat, ← hs', ← hR, Int.toNat_natCast, ← Int.natCast_ediv, ← Int.natCast_ediv,
      Nat.cast_le]
    have hfit : a * max 2 count ≤ s := by omega
    constructor
    · rintro ⟨-, h⟩
      exact Or.inr ⟨hneg, h⟩
    · rintro (h | ⟨-, h⟩)
      · exact absurd h hmax
      · exact ⟨hfit, h⟩
  · have hs : sizeSub (toSize v) 56 = v.toNat - 56 := by
      unfold toSize sizeSub
      split_ifs <;> omega
    rw [hs, hfits]
    exact iff_of_false (fun h => by omega) (fun h => by omega)

theorem heapElems_iff_hundred :
    16 ≤ heapElems 100 16 ∧ BLOCK_SIZE + 108 * heapElems 100 16 ≤ pageBytes (requested 100 16) :=
  (heapElems_iff (by decide : requested 100 16 + PAGE_SIZE < 18446744073709551616)).2 (Or.inl (by decide))

/-- A block for elements of 2 ^ 28 bytes has none. -/
theorem heapElems_few : ¬ ∀ elemSize count, requested elemSize count + PAGE_SIZE < 18446744073709551616 →
    max 2 count ≤ heapElems elemSize count ∧
      BLOCK_SIZE + (elemSize + ELEM_HEADER_SIZE) * heapElems elemSize count ≤ pageBytes (requested elemSize count) := by
  intro h
  have hfew := (h 268435456 16 (by decide)).1
  exact absurd hfew (by decide)

end Mowgli
