import Mathlib.Algebra.Order.Field.Power
import Mathlib.Data.Int.Log
import Mathlib.Data.List.DropRight
import Mathlib.Data.Rat.Floor
import Mathlib.Tactic.FieldSimp
import Mathlib.Tactic.Linarith
import Mathlib.Tactic.Positivity
/-!
# Decimals of so many digits

A positive number is rounded to a decimal of `p + 1` digits, to the nearest one,
and to the even one of two. Of its digits, those behind the point are all zeroes
exactly if the decimal is a whole number (`Decimal.whole_iff`).
-/

namespace Mowgli

/-! ## Digits -/

/-- The `k` lowest digits of a number, the highest first. -/
def lowDigits : ℕ → ℕ → List ℕ
  | 0, _ => []
  | k + 1, n => lowDigits k (n / 10) ++ [n % 10]

theorem length_lowDigits (k n : ℕ) : (lowDigits k n).length = k := by
  induction k generalizing n with
  | zero => rfl
  | succ k ih => rw [lowDigits, List.length_append, ih, List.length_singleton]

theorem lt_ten_of_mem_lowDigits {k n d : ℕ} (h : d ∈ lowDigits k n) : d < 10 := by
  induction k generalizing n with
  | zero => cases h
  | succ k ih =>
    rw [lowDigits, List.mem_append, List.mem_singleton] at h
    rcases h with h | rfl
    · exact ih h
    · exact Nat.mod_lt _ (by decide)

/-- The first digit. -/
theorem lowDigits_succ (k n : ℕ) : lowDigits (k + 1) n = n / 10 ^ k % 10 :: lowDigits k n := by
  induction k generalizing n with
  | zero => simp [lowDigits]
  | succ k ih =>
    rw [lowDigits, ih, Nat.div_div_eq_div_mul, ← pow_succ']
    rfl

/-- The digits of a number that has that many: the first is no zero. -/
theorem head_lowDigits {k n : ℕ} (h : 10 ^ k ≤ n) (hlt : n < 10 ^ (k + 1)) :
    ∃ d ds, lowDigits (k + 1) n = d :: ds ∧ d ≠ 0 := by
  refine ⟨_, _, lowDigits_succ k n, ?_⟩
  have hpos : 0 < n / 10 ^ k := Nat.div_pos h (by positivity)
  have hten : n / 10 ^ k < 10 := by
    rw [Nat.div_lt_iff_lt_mul (by positivity), ← pow_succ']
    exact hlt
  rw [Nat.mod_eq_of_lt hten]
  exact hpos.ne'

/-- Digits are all zeroes where a power of ten divides. -/
theorem lowDigits_zeroes_iff {k n : ℕ} : (∀ d ∈ lowDigits k n, d = 0) ↔ 10 ^ k ∣ n := by
  induction k generalizing n with
  | zero => simp [lowDigits]
  | succ k ih =>
    have hdvd : 10 ^ (k + 1) ∣ n ↔ 10 ^ k ∣ n / 10 ∧ n % 10 = 0 := by
      constructor
      · intro h
        have hten : 10 ∣ n := (Dvd.intro_left (10 ^ k) (pow_succ 10 k).symm).trans h
        exact ⟨(Nat.dvd_div_iff_mul_dvd hten).2 (by rwa [← pow_succ']), Nat.mod_eq_zero_of_dvd hten⟩
      · rintro ⟨h, hmod⟩
        rw [pow_succ']
        exact (Nat.dvd_div_iff_mul_dvd (Nat.dvd_of_mod_eq_zero hmod)).1 h
    rw [hdvd, ← ih, lowDigits]
    simp [List.mem_append, or_imp, forall_and]

/-- Digits without the zeroes at their end. -/
def stripZeroes (ds : List ℕ) : List ℕ := ds.rdropWhile (· = 0)

theorem stripZeroes_eq_nil_iff {k n : ℕ} : stripZeroes (lowDigits k n) = [] ↔ 10 ^ k ∣ n := by
  rw [stripZeroes, List.rdropWhile_eq_nil_iff, ← lowDigits_zeroes_iff]
  simp

theorem length_stripZeroes_le (ds : List ℕ) : (stripZeroes ds).length ≤ ds.length := (List.rdropWhile_prefix _ _).length_le

theorem mem_of_mem_stripZeroes {ds : List ℕ} {d : ℕ} (h : d ∈ stripZeroes ds) : d ∈ ds :=
  (List.rdropWhile_prefix _ _).subset h

/-! ## Rounding -/

/-- The natural number next to one that is not negative, the even one of two. -/
def roundEven (q : ℚ) : ℕ :=
  if q - ⌊q⌋₊ < 1 / 2 then ⌊q⌋₊
  else if 1 / 2 < q - ⌊q⌋₊ then ⌊q⌋₊ + 1
  else ⌊q⌋₊ + ⌊q⌋₊ % 2

theorem le_roundEven {n : ℕ} {q : ℚ} (h : (n : ℚ) ≤ q) : n ≤ roundEven q := by
  have hfloor : n ≤ ⌊q⌋₊ := Nat.le_floor h
  unfold roundEven
  split_ifs <;> omega

theorem roundEven_le {n : ℕ} {q : ℚ} (h0 : 0 ≤ q) (h : q < n) : roundEven q ≤ n := by
  have hfloor : ⌊q⌋₊ < n := (Nat.floor_lt h0).2 h
  unfold roundEven
  split_ifs <;> omega

/-- A decimal of `p + 1` digits, the first of which is worth a power of ten. -/
structure Decimal (p : ℕ) where
  digits : ℕ
  exponent : ℤ
  normal : 10 ^ p ≤ digits ∧ digits < 10 ^ (p + 1)

namespace Decimal

variable {p : ℕ}

/-- What a decimal is worth. -/
def value (d : Decimal p) : ℚ := d.digits * (10 : ℚ) ^ (d.exponent - p)

/-- A number has `p + 1` digits before the point, if it is brought there. -/
theorem scaled_bounds (p : ℕ) {q : ℚ} (hq : 0 < q) :
    ((10 ^ p : ℕ) : ℚ) ≤ q / (10 : ℚ) ^ (Int.log 10 q - p) ∧ q / (10 : ℚ) ^ (Int.log 10 q - p) < ((10 ^ (p + 1) : ℕ) : ℚ) := by
  have hpos : (0 : ℚ) < (10 : ℚ) ^ (Int.log 10 q - p) := by positivity
  have hlow : (10 : ℚ) ^ Int.log 10 q ≤ q := by
    simpa using Int.zpow_log_le_self (b := 10) (r := q) (by decide) hq
  have hhigh : q < (10 : ℚ) ^ (Int.log 10 q + 1) := by
    simpa using Int.lt_zpow_succ_log_self (b := 10) (by decide) q
  constructor
  · rw [le_div_iff₀ hpos]
    refine le_trans (le_of_eq ?_) hlow
    push_cast
    rw [← zpow_natCast, ← zpow_add₀ (by norm_num)]
    congr 1
    omega
  · rw [div_lt_iff₀ hpos]
    refine lt_of_lt_of_eq hhigh ?_
    push_cast
    rw [← zpow_natCast, ← zpow_add₀ (by norm_num)]
    congr 1
    push_cast
    omega

/-- The decimal next to a positive number. -/
def nearest (p : ℕ) (q : ℚ) (hq : 0 < q) : Decimal p :=
  let n := roundEven (q / (10 : ℚ) ^ (Int.log 10 q - p))
  if h : n = 10 ^ (p + 1) then ⟨10 ^ p, Int.log 10 q + 1, le_rfl, Nat.pow_lt_pow_right (by decide) (Nat.lt_succ_self p)⟩
  else ⟨n, Int.log 10 q, le_roundEven (scaled_bounds p hq).1,
    lt_of_le_of_ne (roundEven_le (by positivity) (scaled_bounds p hq).2) h⟩

theorem exponent_nearest (p : ℕ) {q : ℚ} (hq : 0 < q) :
    (nearest p q hq).exponent = Int.log 10 q ∨ (nearest p q hq).exponent = Int.log 10 q + 1 := by
  rw [nearest]
  split_ifs
  · exact Or.inr rfl
  · exact Or.inl rfl

/-- **A decimal is a whole number** exactly if its digits behind the point are
zeroes. -/
theorem whole_iff (d : Decimal p) :
    (∃ z : ℤ, (z : ℚ) = d.value) ↔ 10 ^ (p - d.exponent).toNat ∣ d.digits := by
  rcases le_or_gt (p : ℤ) d.exponent with h | h
  · -- there are no digits behind the point
    obtain ⟨k, hk⟩ := Int.eq_ofNat_of_zero_le (sub_nonneg.2 h)
    refine iff_of_true ⟨d.digits * 10 ^ k, ?_⟩ ?_
    · rw [value, hk]
      push_cast
      rfl
    · rw [show (p - d.exponent).toNat = 0 by omega, pow_zero]
      exact one_dvd _
  · obtain ⟨k, hk⟩ := Int.eq_ofNat_of_zero_le (sub_nonneg.2 h.le)
    have hvalue : d.value * 10 ^ k = d.digits := by
      rw [value, mul_assoc, ← zpow_natCast, ← zpow_add₀ (by norm_num), show d.exponent - p + (k : ℤ) = 0 by omega, zpow_zero,
        mul_one]
    have hpow : (10 : ℚ) ^ k ≠ 0 := by positivity
    rw [show (p - d.exponent).toNat = k by omega]
    constructor
    · rintro ⟨z, hz⟩
      have hmul : z * (10 ^ k : ℕ) = (d.digits : ℤ) := by
        rw [← hz] at hvalue
        exact_mod_cast hvalue
      exact Int.natCast_dvd_natCast.1 ⟨z, by rw [← hmul, mul_comm]⟩
    · rintro ⟨m, hm⟩
      refine ⟨m, mul_right_cancel₀ hpow ?_⟩
      rw [hvalue, hm]
      push_cast
      ring

end Decimal

end Mowgli
