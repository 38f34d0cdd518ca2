import Mowgli.Ext.Json.ReadBack
import Mowgli.Library.Decimal
/-!
# Numbers that are read back

There are three definitions of a number: what the lexer goes on with, what
`lex_tokenize` takes for a float, and what `%g` writes. The lexer does not go on
with a plus sign, which `%g` writes in exponents, and a float has a point or a
small "e", which a whole number of up to six digits has not.
-/

namespace Mowgli

namespace Json

open Parse Lexeme

/-! ## What `%g` writes -/

/-- A `double` that is finite. -/
structure Double where
  negative : Bool
  significand : ℕ
  exponent : ℤ
  significand_lt : significand < 2 ^ 53
  exponent_mem : -1074 ≤ exponent ∧ exponent ≤ 971

namespace Double

def magnitude (x : Double) : ℚ := x.significand * (2 : ℚ) ^ x.exponent

/-- Six digits, unless it is a zero. -/
def sixDigits (x : Double) : Option (Decimal 5) :=
  if h : 0 < x.magnitude then some (.nearest 5 x.magnitude h) else none

/-- The number, rounded to six digits. -/
def rounded (x : Double) : ℚ := (if x.negative then -1 else 1) * (x.sixDigits.map Decimal.value).getD 0

end Double

/-- The character of a digit. -/
def digitChar (d : ℕ) : UInt8 := ch '0' + UInt8.ofNat d

/-- The digits behind the point, and the point. -/
def fraction (ds : List ℕ) : List UInt8 := if ds = [] then [] else ch '.' :: ds.map digitChar

/-- The digits of a decimal, the first of which is worth `10 ^ e`, without the
zeroes at their end. -/
def pointed (n : ℕ) (e : ℤ) : List UInt8 :=
  (lowDigits (e.toNat + 1) (n / 10 ^ (5 - e).toNat)).map digitChar ++ fraction (stripZeroes (lowDigits (5 - e).toNat n))

/-- An exponent, of two digits or more. -/
def exponentText (e : ℤ) : List UInt8 :=
  ch 'e' :: (if e < 0 then ch '-' else ch '+') ::
    (lowDigits (max 2 (Nat.log 10 e.natAbs + 1)) e.natAbs).map digitChar

/-- A decimal as `%g` writes it. -/
def decimalText (d : Decimal 5) : List UInt8 :=
  if -4 ≤ d.exponent ∧ d.exponent < 6 then pointed d.digits d.exponent
  else pointed d.digits 0 ++ exponentText d.exponent

/-- What `serialize_float` writes: `snprintf` with "%g". -/
def serializeFloat (x : Double) : List UInt8 :=
  (if x.negative then chars "-" else []) ++
    match x.sixDigits with
    | none => chars "0"
    | some d => decimalText d

/-! ## It is a JSON number -/

variable {w : List UInt8} {c : UInt8} {n : ℕ} {e : ℤ}

theorem digitChar_spec : ∀ d < 10, isDigit (digitChar d) ∧ (digitChar d = ch '0' → d = 0) := by
  decide

theorem isDigits_map {ds : List ℕ} (hne : ds ≠ []) (hds : ∀ d ∈ ds, d < 10) : IsDigits (ds.map digitChar) :=
  ⟨by simpa using hne, fun c hc => by
    obtain ⟨d, hd, rfl⟩ := List.mem_map.1 hc
    exact (digitChar_spec d (hds d hd)).1⟩

theorem isDigits_lowDigits (k n : ℕ) : IsDigits ((lowDigits (k + 1) n).map digitChar) :=
  isDigits_map (List.ne_nil_of_length_eq_add_one (length_lowDigits _ _)) fun _ hd => lt_ten_of_mem_lowDigits hd

/-- What is before the point. -/
theorem intPart_spec (hn : 10 ^ 5 ≤ n ∧ n < 10 ^ 6) (he : e < 6) :
    let int := (lowDigits (e.toNat + 1) (n / 10 ^ (5 - e).toNat)).map digitChar
    int = chars "0" ∨ IsDigits int ∧ int.head? ≠ some (ch '0') := by
  intro int
  rcases lt_or_ge e 0 with h | h
  · -- a fraction, that begins with a zero
    left
    have hdiv : n / 10 ^ (5 - e).toNat = 0 :=
      Nat.div_eq_of_lt (lt_of_lt_of_le hn.2 (Nat.pow_le_pow_right (by decide) (by omega)))
    show (lowDigits (e.toNat + 1) (n / 10 ^ (5 - e).toNat)).map digitChar = _
    rw [hdiv, show e.toNat = 0 by omega]
    decide
  · right
    obtain ⟨j, rfl⟩ := Int.eq_ofNat_of_zero_le h
    have hj : j ≤ 5 := by omega
    have hpow : 10 ^ j * 10 ^ (5 - j) = 10 ^ 5 := by rw [← pow_add]; congr 1; omega
    have hk : (5 - (j : ℤ)).toNat = 5 - j := by omega
    obtain ⟨d, ds, heq, hd⟩ := head_lowDigits (k := j) (n := n / 10 ^ (5 - j))
      ((Nat.le_div_iff_mul_le (by positivity)).2 (by rw [hpow]; exact hn.1))
      ((Nat.div_lt_iff_lt_mul (by positivity)).2 (by rw [pow_succ', mul_assoc, hpow]; exact hn.2))
    refine ⟨isDigits_lowDigits _ _, ?_⟩
    show ((lowDigits ((j : ℤ).toNat + 1) (n / 10 ^ (5 - (j : ℤ)).toNat)).map digitChar).head? ≠ _
    rw [hk, Int.toNat_natCast, heq]
    have hten : d < 10 := lt_ten_of_mem_lowDigits (k := j + 1) (n := n / 10 ^ (5 - j)) (by rw [heq]; exact List.mem_cons_self ..)
    exact fun h0 => hd ((digitChar_spec d hten).2 (Option.some.inj h0))

/-- What is behind the point, and the point. -/
theorem fraction_spec (k n : ℕ) :
    let frac := fraction (stripZeroes (lowDigits k n))
    frac = [] ∧ 10 ^ k ∣ n ∨ (∃ ds, frac = ch '.' :: ds ∧ IsDigits ds) ∧ ¬ 10 ^ k ∣ n := by
  intro frac
  rw [← stripZeroes_eq_nil_iff]
  by_cases h : stripZeroes (lowDigits k n) = []
  · exact Or.inl ⟨if_pos h, h⟩
  · exact Or.inr ⟨⟨_, if_neg h, isDigits_map h fun d hd => lt_ten_of_mem_lowDigits (mem_of_mem_stripZeroes hd)⟩, h⟩

theorem exponentText_spec (e : ℤ) : ∃ ds, IsDigits ds ∧ exponentText e = ch 'e' :: (if e < 0 then ch '-' else ch '+') :: ds := by
  obtain ⟨k, hk⟩ : ∃ k, max 2 (Nat.log 10 e.natAbs + 1) = k + 1 := ⟨max 2 (Nat.log 10 e.natAbs + 1) - 1, by omega⟩
  refine ⟨_, isDigits_lowDigits k e.natAbs, ?_⟩
  rw [exponentText, hk]

/-- The parts of a decimal. -/
theorem decimalText_spec (d : Decimal 5) : ∃ int frac exp, decimalText d = int ++ (frac ++ exp) ∧
    (int = chars "0" ∨ IsDigits int ∧ int.head? ≠ some (ch '0')) ∧ (frac = [] ∨ ∃ ds, frac = ch '.' :: ds ∧ IsDigits ds) ∧
    ((-4 ≤ d.exponent ∧ d.exponent < 6 ∧ exp = [] ∧ (frac = [] ↔ 10 ^ (5 - d.exponent).toNat ∣ d.digits)) ∨
      (¬ (-4 ≤ d.exponent ∧ d.exponent < 6) ∧
        ∃ ds, exp = ch 'e' :: (if d.exponent < 0 then ch '-' else ch '+') :: ds ∧ IsDigits ds)) := by
  have hfrac : ∀ e : ℤ, (fraction (stripZeroes (lowDigits (5 - e).toNat d.digits)) = [] ∨
      ∃ ds, fraction (stripZeroes (lowDigits (5 - e).toNat d.digits)) = ch '.' :: ds ∧ IsDigits ds) ∧
      (fraction (stripZeroes (lowDigits (5 - e).toNat d.digits)) = [] ↔ 10 ^ (5 - e).toNat ∣ d.digits) := by
    intro e
    rcases fraction_spec (5 - e).toNat d.digits with ⟨hnil, hdvd⟩ | ⟨⟨ds, hds, hdigits⟩, hdvd⟩
    · exact ⟨Or.inl hnil, iff_of_true hnil hdvd⟩
    · exact ⟨Or.inr ⟨ds, hds, hdigits⟩, iff_of_false (by rw [hds]; exact List.cons_ne_nil _ _) hdvd⟩
  by_cases hfixed : -4 ≤ d.exponent ∧ d.exponent < 6
  · refine ⟨_, _, [], ?_, intPart_spec d.normal hfixed.2, (hfrac d.exponent).1, Or.inl ⟨hfixed.1, hfixed.2, rfl, (hfrac d.exponent).2⟩⟩
    rw [decimalText, if_pos hfixed, List.append_nil]
    rfl
  · obtain ⟨ds, hds, hexp⟩ := exponentText_spec d.exponent
    refine ⟨_, _, exponentText d.exponent, ?_, intPart_spec d.normal (e := 0) (by decide), (hfrac 0).1,
      Or.inr ⟨hfixed, ds, hexp, hds⟩⟩
    rw [decimalText, if_neg hfixed, pointed, List.append_assoc]

/-- **What `%g` writes is a JSON number.** -/
theorem jsonNumber_serializeFloat (x : Double) : JsonNumber (serializeFloat x) := by
  have hsign : (if x.negative then chars "-" else []) ∈ [[], chars "-"] := by
    cases x.negative <;> decide
  unfold serializeFloat
  cases x.sixDigits with
  | none => exact @JsonNumber.intro _ (chars "0") [] [] hsign (Or.inl rfl) (Or.inl rfl) (Or.inl rfl)
  | some d =>
    obtain ⟨int, frac, exp, heq, hint, hfrac, hexp⟩ := decimalText_spec d
    simp only [heq]
    refine .intro hsign hint hfrac ?_
    rcases hexp with ⟨-, -, hnil, -⟩ | ⟨-, ds, rfl, hds⟩
    · exact Or.inl hnil
    · refine Or.inr ⟨ch 'e', [if d.exponent < 0 then ch '-' else ch '+'], ds, rfl, by decide, ?_, hds⟩
      split_ifs <;> decide

theorem Double.magnitude_bounds {x : Double} (h : 0 < x.magnitude) :
    (2 : ℚ) ^ (-1074 : ℤ) ≤ x.magnitude ∧ x.magnitude < (2 : ℚ) ^ (1024 : ℤ) := by
  obtain ⟨negative, m, e, hm, he⟩ := x
  have hpow : (0 : ℚ) < (2 : ℚ) ^ e := by positivity
  have hpos : 0 < m := Nat.pos_of_ne_zero fun h0 => by
    subst h0
    simp [magnitude] at h
  constructor
  · calc (2 : ℚ) ^ (-1074 : ℤ) ≤ (2 : ℚ) ^ e := zpow_le_zpow_right₀ (by norm_num) he.1
      _ ≤ m * (2 : ℚ) ^ e := le_mul_of_one_le_left hpow.le (by exact_mod_cast hpos)
  · calc (m : ℚ) * (2 : ℚ) ^ e < (2 : ℚ) ^ (53 : ℤ) * (2 : ℚ) ^ e := by
          refine mul_lt_mul_of_pos_right ?_ hpow
          exact_mod_cast hm
      _ = (2 : ℚ) ^ (53 + e) := (zpow_add₀ (by norm_num) _ _).symm
      _ ≤ (2 : ℚ) ^ (1024 : ℤ) := zpow_le_zpow_right₀ (by norm_num) (by omega)

/-- **It fits the buffer** of `serialize_float`, with the NUL. -/
theorem length_serializeFloat_lt (x : Double) : (serializeFloat x).length < 32 := by
  have hpointed : ∀ n e, -4 ≤ e → e < 6 → (pointed n e).length ≤ 16 := by
    intro n e he he'
    have hstrip := length_stripZeroes_le (lowDigits (5 - e).toNat n)
    rw [length_lowDigits] at hstrip
    have hfrac : (fraction (stripZeroes (lowDigits (5 - e).toNat n))).length ≤ (5 - e).toNat + 1 := by
      unfold fraction
      split_ifs
      · exact Nat.zero_le _
      · rw [List.length_cons, List.length_map]
        omega
    rw [pointed, List.length_append, List.length_map, length_lowDigits]
    omega
  have hsign : (if x.negative then chars "-" else []).length ≤ 1 := by
    cases x.negative <;> decide
  rw [serializeFloat, List.length_append, Double.sixDigits]
  generalize (if x.negative then chars "-" else []) = sign at hsign ⊢
  by_cases h : 0 < x.magnitude
  swap
  · rw [dif_neg h]
    exact lt_of_le_of_lt (Nat.add_le_add_right hsign 1) (by decide)
  rw [dif_pos h]
  obtain ⟨hlow, hhigh⟩ := Double.magnitude_bounds h
  have hpow : ∀ n : ℤ, 0 ≤ n → (2 : ℚ) ^ n ≤ (10 : ℕ) ^ n := fun n hn =>
    zpow_le_zpow_left₀ hn (by norm_num) (by norm_num)
  have hlog : -1074 ≤ Int.log 10 x.magnitude ∧ Int.log 10 x.magnitude < 1024 := by
    constructor
    · refine (Int.zpow_le_iff_le_log (by decide) h).1 (le_trans ?_ hlow)
      rw [zpow_neg, zpow_neg]
      exact inv_anti₀ (by positivity) (hpow _ (by decide))
    · exact (Int.lt_zpow_iff_log_lt (by decide) h).1 (lt_of_lt_of_le hhigh (hpow _ (by decide)))
  have hexp := Decimal.exponent_nearest 5 h
  generalize Decimal.nearest 5 x.magnitude h = d at hexp ⊢
  show _ + (decimalText d).length < 32
  unfold decimalText
  split_ifs with hfixed
  · have hlen := hpointed d.digits d.exponent hfixed.1 hfixed.2
    omega
  · have hlen := hpointed d.digits 0 (by decide) (by decide)
    have hdigits : Nat.log 10 d.exponent.natAbs < 4 := Nat.log_lt_of_lt_pow' (by decide) (by omega)
    rw [List.length_append, exponentText, List.length_cons, List.length_cons, List.length_map, length_lowDigits]
    omega

/-! ## Which numbers are read as floats -/

/-- The text of a float that the lexer reads in full. -/
def FloatText (w : List UInt8) : Prop := ch '+' ∉ w ∧ (ch '.' ∈ w ∨ ch 'e' ∈ w)

theorem digit_char : ∀ c : UInt8, isDigit c = true → c ≠ ch '+' ∧ c ≠ ch '.' ∧ c ≠ ch 'e' :=
  forall_uint8 (by decide +kernel)

/-- Digits and a sign are of no account. -/
theorem floatText_append {v : List UInt8} (hv : ∀ c ∈ v, c ≠ ch '+' ∧ c ≠ ch '.' ∧ c ≠ ch 'e') :
    FloatText (v ++ w) ↔ FloatText w := by
  have hmem : ∀ c ∈ [ch '+', ch '.', ch 'e'], c ∈ v ++ w ↔ c ∈ w := by
    intro c hc
    rw [List.mem_append, or_iff_right]
    intro hcv
    obtain ⟨h₁, h₂, h₃⟩ := hv c hcv
    simp [h₁, h₂, h₃] at hc
  rw [FloatText, FloatText, hmem _ (by simp), hmem _ (by simp), hmem _ (by simp)]

theorem floatText_decimalText (d : Decimal 5) : FloatText (decimalText d) ↔ ¬ 10 ^ (5 - d.exponent).toNat ∣ d.digits := by
  obtain ⟨int, frac, exp, heq, hint, hfrac, hexp⟩ := decimalText_spec d
  have hdigits : ∀ {ds : List UInt8}, IsDigits ds → ∀ c ∈ ds, c ≠ ch '+' ∧ c ≠ ch '.' ∧ c ≠ ch 'e' :=
    fun hds c hc => digit_char c (hds.2 c hc)
  have hint' : ∀ c ∈ int, c ≠ ch '+' ∧ c ≠ ch '.' ∧ c ≠ ch 'e' := by
    rcases hint with rfl | ⟨hint, -⟩
    · exact forall_mem_bytes (by decide)
    · exact hdigits hint
  rw [heq, floatText_append hint']
  rcases hexp with ⟨-, -, rfl, hnil⟩ | ⟨hout, ds, rfl, hds⟩
  · -- a decimal with its point in place
    rw [← hnil, List.append_nil]
    rcases hfrac with rfl | ⟨ds, rfl, hds⟩
    · exact iff_of_false (fun h => by simpa using h.2) fun h => h rfl
    · refine iff_of_true ⟨?_, Or.inl (List.mem_cons_self ..)⟩ (List.cons_ne_nil _ _)
      rw [List.mem_cons, not_or]
      exact ⟨by decide, fun h => (hdigits hds _ h).1 rfl⟩
  · have hplus : ch '+' ∉ frac := by
      rcases hfrac with rfl | ⟨ds, rfl, hds⟩
      · exact List.not_mem_nil
      · rw [List.mem_cons, not_or]
        exact ⟨by decide, fun h => (hdigits hds _ h).1 rfl⟩
    have he : ch 'e' ∈ frac ++ ch 'e' :: (if d.exponent < 0 then ch '-' else ch '+') :: ds := by simp
    have hds' : ch '+' ∉ ds := fun h => (hdigits hds _ h).1 rfl
    rcases lt_or_ge d.exponent 0 with h | h
    · -- a small number, no power of ten divides its digits
      rw [if_pos h] at he ⊢
      refine iff_of_true ⟨?_, Or.inr he⟩ (Nat.not_dvd_of_pos_of_lt (lt_of_lt_of_le (by decide) d.normal.1)
        (lt_of_lt_of_le d.normal.2 (Nat.pow_le_pow_right (by decide) (by omega))))
      simp only [List.mem_append, List.mem_cons, not_or]
      exact ⟨hplus, by decide, by decide, hds'⟩
    · rw [if_neg (by omega), show (5 - d.exponent).toNat = 0 by omega]
      exact iff_of_false (fun hf => hf.1 (by simp)) fun hf => hf (one_dvd _)

/-- **A float is written as one** exactly if it is not rounded to a whole
number. -/
theorem floatText_serializeFloat (x : Double) :
    FloatText (serializeFloat x) ↔ ¬ ∃ z : ℤ, (z : ℚ) = x.rounded := by
  have hsign : ∀ c ∈ (if x.negative then chars "-" else []), c ≠ ch '+' ∧ c ≠ ch '.' ∧ c ≠ ch 'e' := by
    cases x.negative <;> exact forall_mem_bytes (by decide)
  rw [serializeFloat, floatText_append hsign]
  have hneg : ∀ q : ℚ, (∃ z : ℤ, (z : ℚ) = (if x.negative then -1 else 1) * q) ↔ ∃ z : ℤ, (z : ℚ) = q := by
    intro q
    cases x.negative with
    | false => simp
    | true =>
      simp only [if_true, neg_one_mul]
      exact ⟨fun ⟨z, hz⟩ => ⟨-z, by push_cast; rw [hz, neg_neg]⟩, fun ⟨z, hz⟩ => ⟨-z, by push_cast; rw [hz]⟩⟩
  rw [Double.rounded, hneg]
  cases x.sixDigits with
  | none => exact iff_of_false (by unfold FloatText; decide) fun h => h ⟨0, by simp⟩
  | some d =>
    show FloatText (decimalText d) ↔ ¬ ∃ z : ℤ, (z : ℚ) = d.value
    rw [floatText_decimalText, d.whole_iff]
    rfl

/-! ## The lexer -/

variable {d : UInt8} {r : List UInt8} {t : Terminal}

/-- A character that a number may go on with. -/
def mayContinue (c : UInt8) : Bool := isDigit c || c ∈ chars "+-.eE"

/-- What a number is: a float, if it has a point or an exponent. -/
def rfcTerminal (w : List UInt8) : Terminal :=
  if ch '.' ∈ w ∨ ch 'e' ∈ w ∨ ch 'E' ∈ w then .float w else .int (toInt (strtol w 0))

theorem inNumber_of_mayContinue : ∀ c : UInt8, mayContinue c = false → inNumber c = false :=
  forall_uint8 (by decide +kernel)

theorem inNumber_char : ∀ c : UInt8, inNumber c = true ∨ c = ch '+' → c ≠ 0 ∧ Parse.easySym c = none ∧ c ≠ ch '"' :=
  forall_uint8 (by decide +kernel)

theorem numberTerminal_val (w : List UInt8) : (numberTerminal w).val.isSome := by
  unfold numberTerminal
  split_ifs <;> rfl

theorem JsonNumber.scanned (hw : JsonNumber w) (hplus : ch '+' ∉ w) : (Lexeme.number w).Scanned := by
  obtain ⟨hhead, hall⟩ := hw.chars
  exact ⟨hhead, fun c hc => (hall c hc).resolve_right fun h => hplus (h ▸ hc)⟩

/-- A plus sign is in an exponent. -/
theorem JsonNumber.exponent_of_plus (hw : JsonNumber w) (hplus : ch '+' ∈ w) : ch 'e' ∈ w ∨ ch 'E' ∈ w := by
  cases hw with
  | @intro sign int frac exp hsign hint hfrac hexp =>
    have hdigits : ∀ {ds : List UInt8}, IsDigits ds → ch '+' ∉ ds := fun hds h => (digit_char _ (hds.2 _ h)).1 rfl
    rcases hexp with rfl | ⟨e, s, ds, rfl, he, -, -⟩
    · -- there is none without
      exfalso
      simp only [List.mem_append, List.not_mem_nil, or_false] at hplus
      rcases hplus with h | h | h
      · have hall : ∀ s ∈ [[], Parse.chars "-"], ch '+' ∉ s := by decide
        exact hall sign hsign h
      · rcases hint with rfl | ⟨hint, -⟩
        · exact absurd h (by decide)
        · exact hdigits hint h
      · rcases hfrac with rfl | ⟨ds, rfl, hds⟩
        · cases h
        · rcases List.mem_cons.1 h with h | h
          · exact absurd h (by decide)
          · exact hdigits hds h
    · have he' : ∀ e ∈ Parse.chars "eE", e = ch 'e' ∨ e = ch 'E' := forall_mem_bytes (by decide)
      rcases he' e he with rfl | rfl
      · exact Or.inl (by simp)
      · exact Or.inr (by simp)

/-- **A number without a plus sign is read** as the lexer classifies it. -/
theorem readAs_number (hw : JsonNumber w) (hd : mayContinue d = false) (hplus : ch '+' ∉ w) (r : List UInt8) :
    ReadAs w (numberTerminal w) (d :: r) := by
  intro parse h
  refine parses_number h.error h.lex h.buf_nil (hw.scanned hplus) (fun h0 => ?_) (inNumber_of_mayContinue d hd)
  exact (inNumber_char 0 (hw.chars.2 0 h0)).1 rfl

/-- There is room for a number in an array. -/
theorem parseData_number_ok (hw : ∀ c ∈ w, inNumber c ∨ c = ch '+') (d : UInt8) :
    ∃ parse', (inArray .create 0).parseData valueOps (w ++ [d]) = .ok parse' := by
  have hnest : nestingFrom .plain 1 (w ++ [d]) ≤ 2 := by
    induction w with
    | nil =>
      show max 1 (Mode.plain.depth d 1) ≤ 2
      simp only [Mode.depth]
      split_ifs <;> decide
    | cons c w ih =>
      obtain ⟨-, hsym, hq⟩ := inNumber_char c (hw c (List.mem_cons_self ..))
      show max 1 (nestingFrom (Mode.plain.next c) (Mode.plain.depth c 1) (w ++ [d])) ≤ 2
      rw [depth_of_easySym_none hsym, show Mode.plain.next c = .plain from if_neg hq]
      exact max_le (by decide) (ih fun c hc => hw c (List.mem_cons_of_mem _ hc))
  have hfresh : (create () false : Parser).Fresh := ⟨rfl, rfl, rfl, rfl, rfl, rfl, rfl⟩
  have hle : nesting (ch '[' :: (w ++ [d])) ≤ 125 := le_trans (max_le (by decide) hnest) (by decide)
  obtain ⟨parse', hrun⟩ := hfresh.parseData_ok hle
  exact ⟨parse', hrun⟩

/-- In an array, a number is read as one value only. -/
theorem number_unique {t' : Terminal} {r' : List UInt8} (hw : ∀ c ∈ w, inNumber c ∨ c = ch '+') (ht : t.val.isSome)
    (ht' : t'.val.isSome) (h : Parses (inArray .create 0) (w ++ [d]) t r)
    (h' : Parses (inArray .create 0) (w ++ [d]) t' r') : t = t' := by
  obtain ⟨parse', hrun⟩ := parseData_number_ok hw d
  exact (takesValues_inArray (Fed.create false)).unique ht ht' h h' hrun

/-- **A number is read as a float** exactly if it has no plus sign, and a point
or a small "e". -/
theorem readAs_float_iff (hw : JsonNumber w) (hd : mayContinue d = false) :
    (∀ r, ReadAs w (.float w) (d :: r)) ↔ FloatText w := by
  have htakes : TakesValues (inArray .create 0) := takesValues_inArray (Fed.create false)
  constructor
  · intro h
    have hread := h [] (inArray .create 0) htakes.toAtToken
    by_cases hplus : ch '+' ∈ w
    · -- what is before the plus sign is read
      exfalso
      obtain ⟨v, u, rfl, hv⟩ := List.eq_append_cons_of_mem hplus
      obtain ⟨hhead, hall⟩ := hw.chars
      have hscan : (Lexeme.number v).Scanned := by
        refine ⟨?_, fun c hc => (hall c (List.mem_append_left _ hc)).resolve_right fun h => hv (h ▸ hc)⟩
        cases v with
        | nil =>
          have hno : beginsNumber (ch '+') = false := by decide
          cases hno.symm.trans hhead
        | cons c v => exact hhead
      have hpre : Parses (inArray .create 0) (v ++ ch '+' :: (u ++ [d])) (numberTerminal v) (ch '+' :: (u ++ [d])) := by
        refine parses_number rfl rfl rfl hscan (fun h0 => ?_) (by decide)
        exact (inNumber_char 0 (hall 0 (List.mem_append_left _ h0))).1 rfl
      rw [← List.cons_append, ← List.append_assoc] at hpre
      have heq := number_unique hall rfl (numberTerminal_val v) hread hpre
      unfold numberTerminal at heq
      split_ifs at heq
      exact hv (Terminal.float.inj heq ▸ hplus)
    · have heq := number_unique hw.chars.2 rfl (numberTerminal_val w) hread
        (readAs_number hw hd hplus [] _ htakes.toAtToken)
      refine ⟨hplus, ?_⟩
      by_contra hnone
      rw [numberTerminal, if_neg hnone] at heq
      cases heq
  · rintro ⟨hplus, hfloat⟩ r
    have hread := readAs_number hw hd hplus r
    rwa [numberTerminal, if_pos hfloat] at hread

/-- **A number is read as what it is** exactly if it has no plus sign, and no
capital "E" alone; and a float that `serialize_float` writes is read as a float
exactly if it is not rounded to a whole number. -/
theorem readAs_number_iff (hw : JsonNumber w) (hd : mayContinue d = false) (x : Double) :
    ((∀ r, ReadAs w (rfcTerminal w) (d :: r)) ↔ ch '+' ∉ w ∧ (ch 'E' ∈ w → ch '.' ∈ w ∨ ch 'e' ∈ w)) ∧
    ((∀ r, ReadAs (serializeFloat x) (.float (serializeFloat x)) (d :: r)) ↔ ¬ ∃ z : ℤ, (z : ℚ) = x.rounded) := by
  constructor
  · by_cases hfloat : ch '.' ∈ w ∨ ch 'e' ∈ w ∨ ch 'E' ∈ w
    · rw [rfcTerminal, if_pos hfloat, readAs_float_iff hw hd, FloatText]
      refine and_congr_right fun _ => ⟨fun h _ => h, fun h => ?_⟩
      rcases hfloat with h' | h' | h'
      · exact Or.inl h'
      · exact Or.inr h'
      · exact h h'
    · rw [not_or, not_or] at hfloat
      have hplus : ch '+' ∉ w := fun h => (hw.exponent_of_plus h).elim hfloat.2.1 hfloat.2.2
      refine iff_of_true (fun r => ?_) ⟨hplus, fun h => absurd h hfloat.2.2⟩
      have hread := readAs_number hw hd hplus r
      rw [numberTerminal, if_neg (by tauto)] at hread
      rwa [rfcTerminal, if_neg (by tauto)]
  · rw [readAs_float_iff (jsonNumber_serializeFloat x) hd, floatText_serializeFloat]

/-- A number with an exponent that is negative, and one half. -/
theorem readAs_number_iff_half : (∀ r, ReadAs (chars "1e-5") (.float (chars "1e-5")) (ch ',' :: r)) ∧
    ∃ x : Double, serializeFloat x = chars "0.5" ∧ ∀ r, ReadAs (chars "0.5") (.float (chars "0.5")) (ch ',' :: r) := by
  have hw : JsonNumber (chars "1e-5") := by
    have hdigits : IsDigits (chars "1") ∧ IsDigits (chars "5") :=
      ⟨⟨by decide, forall_mem_bytes (by decide)⟩, ⟨by decide, forall_mem_bytes (by decide)⟩⟩
    exact @JsonNumber.intro [] (chars "1") [] (chars "e-5") (by decide) (Or.inr ⟨hdigits.1, by decide⟩) (Or.inl rfl)
      (Or.inr ⟨ch 'e', chars "-", chars "5", by decide, by decide, by decide, hdigits.2⟩)
  let x : Double := ⟨false, 1, -1, by decide, by decide⟩
  have htext : serializeFloat x = chars "0.5" := by decide +kernel
  obtain ⟨hread, hfloat⟩ := readAs_number_iff hw (d := ch ',') (by decide) x
  have hrounded : ¬ ∃ z : ℤ, (z : ℚ) = x.rounded := by
    rw [← floatText_serializeFloat, htext]
    exact ⟨by decide, by decide⟩
  have hhalf := hfloat.2 hrounded
  rw [htext] at hhalf
  exact ⟨hread.2 ⟨by decide, by decide⟩, x, htext, hhalf⟩

/-- **A plus sign ends a number**, and a number with a capital "E" is an
integer: in an array, the first is an error, and of the second the lexer reads
what is before the "E". -/
theorem plus_ends_number : JsonNumber (chars "1e+5") ∧ ¬ (∀ r, ReadAs (chars "1e+5") (rfcTerminal (chars "1e+5")) (ch ',' :: r)) ∧
    (∃ parse, (create () false).parseData valueOps (chars "[1e+5,") = .ok parse ∧
      tokens parse.log = [⟨.beginArray, none⟩, ⟨.number, some (.float (chars "1e"))⟩] ∧
      parse.error = some (.character (ch '+'))) ∧
    ∃ parse, (create () false).parseData valueOps (chars "[1E5,") = .ok parse ∧
      tokens parse.log = [⟨.beginArray, none⟩, ⟨.number, some (.int 1)⟩, ⟨.valueSep, none⟩] := by
  have hw : JsonNumber (chars "1e+5") := by
    have hdigits : IsDigits (chars "1") ∧ IsDigits (chars "5") :=
      ⟨⟨by decide, forall_mem_bytes (by decide)⟩, ⟨by decide, forall_mem_bytes (by decide)⟩⟩
    exact @JsonNumber.intro [] (chars "1") [] (chars "e+5") (by decide) (Or.inr ⟨hdigits.1, by decide⟩) (Or.inl rfl)
      (Or.inr ⟨ch 'e', chars "+", chars "5", by decide, by decide, by decide, hdigits.2⟩)
  refine ⟨hw, fun h => ?_, ⟨_, rfl, rfl, rfl⟩, ⟨_, rfl, rfl⟩⟩
  exact ((readAs_float_iff hw (d := ch ',') (by decide)).1 h).1 (by decide)

end Json

end Mowgli
