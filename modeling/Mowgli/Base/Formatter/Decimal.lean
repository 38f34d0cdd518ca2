import Mowgli.Base.Formatter
/-!
# Numbers that are written and read

What `%d` writes is its sign and its digits, the first of which is a zero only
in that of zero itself, so `strtol` that finds the base by the prefix takes
all of it for decimal.
-/

namespace Mowgli

namespace Formatter

theorem ch_of_isDigit {c : Char} (h : c.isDigit) : (ch c).toNat = c.toNat ∧ 48 ≤ c.toNat ∧ c.toNat ≤ 57 := by
  simp only [Char.isDigit, Bool.and_eq_true, decide_eq_true_eq, ge_iff_le, UInt32.le_iff_toNat_le] at h
  have hlow : 48 ≤ c.toNat := h.1
  have hhigh : c.toNat ≤ 57 := h.2
  refine ⟨?_, hlow, hhigh⟩
  show c.toNat % 2 ^ 8 = c.toNat
  exact Nat.mod_eq_of_lt (by omega)

theorem isDigit_ch {c : Char} (h : c.isDigit) : isDigit (ch c) = true := by
  obtain ⟨hval, hlow, hhigh⟩ := ch_of_isDigit h
  have h0 : (ch '0').toNat = 48 := rfl
  have h9 : (ch '9').toNat = 57 := rfl
  rw [isDigit, Bool.and_eq_true, decide_eq_true_iff, decide_eq_true_iff, UInt8.le_iff_toNat_le, UInt8.le_iff_toNat_le,
    hval, h0, h9]
  exact ⟨hlow, hhigh⟩

theorem ch_eq_zero_digit {c : Char} (h : c.isDigit) (heq : ch c = ch '0') : c = '0' := by
  have hval : c.toNat = '0'.toNat := (ch_of_isDigit h).1.symm.trans (congrArg UInt8.toNat heq)
  exact Char.toNat_inj.1 hval

/-- The digits of a number are read as it. -/
theorem readDigits_digits {cs : List Char} (h : ∀ c ∈ cs, c.isDigit) (n : ℕ) :
    readDigits 10 n (cs.map ch) = Nat.ofDigitChars 10 cs n := by
  induction cs generalizing n with
  | nil => rfl
  | cons c cs ih =>
    rw [List.forall_mem_cons] at h
    obtain ⟨hval, -, hhigh⟩ := ch_of_isDigit h.1
    have hdigit : digitValue (ch c) = some (c.toNat - 48) := by
      rw [digitValue, if_pos (isDigit_ch h.1), hval]
    rw [List.map_cons, readDigits, hdigit]
    simp only [if_pos (show c.toNat - 48 < 10 by omega)]
    rw [ih h.2, Nat.ofDigitChars_cons, Nat.mul_comm]
    rfl

/-- The first digit of a number is no zero. -/
theorem head_toDigits {n : ℕ} (h : n ≠ 0) : ∀ c ∈ (Nat.toDigits 10 n).head?, c ≠ '0' := by
  have hone : ∀ n < 10, n ≠ 0 → Nat.digitChar n ≠ '0' := by decide
  induction n using Nat.strong_induction_on with
  | _ n ih =>
    by_cases hlt : n < 10
    · rw [Nat.toDigits_of_lt_base hlt]
      rintro c hc
      obtain rfl : n.digitChar = c := Option.some.inj hc
      exact hone n hlt h
    · rw [Nat.toDigits_of_base_le (by decide) (by omega)]
      intro c hc
      rw [List.head?_append_of_ne_nil _ Nat.toDigits_ne_nil] at hc
      exact ih (n / 10) (by omega) (by omega) c hc

/-- The digits of a number, none of them octal but those of zero. -/
theorem readDigits_toDigits (n : ℕ) :
    readDigits (basePrefix 0 ((Nat.toDigits 10 n).map ch)).1 0 (basePrefix 0 ((Nat.toDigits 10 n).map ch)).2 = n := by
  by_cases h : n = 0
  · subst h
    rfl
  have hdigits : ∀ c ∈ Nat.toDigits 10 n, c.isDigit := fun c hc => Nat.isDigit_of_mem_toDigits (by decide) (by decide) hc
  have hread := readDigits_digits hdigits 0
  obtain ⟨c, cs, hcs⟩ := List.exists_cons_of_ne_nil (Nat.toDigits_ne_nil (n := n) (b := 10))
  have hne : ch c ≠ ch '0' := fun heq =>
    head_toDigits h c (by rw [hcs]; rfl) (ch_eq_zero_digit (hdigits c (hcs ▸ List.mem_cons_self)) heq)
  have hbase : basePrefix 0 ((Nat.toDigits 10 n).map ch) = (10, (Nat.toDigits 10 n).map ch) := by
    rw [hcs]
    cases cs <;> simp [basePrefix, hne]
  rw [hbase, hread, Nat.ofDigitChars_ten_toDigits]

theorem digit_plain : ∀ c : UInt8, isDigit c = true → isSpace c = false ∧ c ≠ ch '-' ∧ c ≠ ch '+' :=
  forall_uint8 (by decide +kernel)

/-- **What `%d` writes is read as the same number**, the base being left to
`strtol`. -/
theorem strtol_decimal {z : ℤ} (h : toLong z = z) : strtol (decimal z).bytes 0 = z := by
  have hread := readDigits_toDigits z.natAbs
  have hdigits : ∀ c ∈ Nat.toDigits 10 z.natAbs, c.isDigit :=
    fun c hc => Nat.isDigit_of_mem_toDigits (by decide) (by decide) hc
  obtain ⟨c, cs, hcs⟩ := List.exists_cons_of_ne_nil (Nat.toDigits_ne_nil (n := z.natAbs) (b := 10))
  obtain ⟨hspace, hminus, hplus⟩ := digit_plain _ (isDigit_ch (hdigits c (hcs ▸ List.mem_cons_self)))
  have hsign : readSign ((decimal z).bytes.dropWhile isSpace) = (decide (z < 0), (Nat.toDigits 10 z.natAbs).map ch) := by
    have hdash : isSpace (ch '-') = false := rfl
    rw [decimal]
    by_cases hz : z < 0
    · simp [hz, hdash, readSign]
    · simp [hz, hcs, hspace, readSign, hminus, hplus]
  rw [strtol, hsign]
  simp only [hread]
  by_cases hz : z < 0
  · rw [if_pos (decide_eq_true hz), show -((z.natAbs : ℕ) : ℤ) = z by omega, h]
  · rw [if_neg (by simpa using hz), show ((z.natAbs : ℕ) : ℤ) = z by omega, h]

end Formatter

end Mowgli
