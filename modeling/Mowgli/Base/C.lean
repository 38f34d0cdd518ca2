import Mathlib.Data.List.GetD
import Mathlib.Data.List.TakeWhile
import Mathlib.Data.Nat.Find
import Mathlib.Tactic.Linarith
/-!
# The C side: strings, integer widths and the log

A `CString` is what a `char *` argument points at: the bytes before the
terminating NUL, none of them NUL. `charAt` reads the buffer, so at the
length it reads the terminator. The library is built where `int` has 32
bits and `size_t` has 64: `toInt` is the conversion of a wider integer to
an `int`, which wraps.

`soft_assert` and `mowgli_log` do not stop the program. A model that
calls them carries the lines logged so far, so that a failed assertion
is something that can be proved not to happen.
-/

namespace Mowgli

/-- A line of the log. -/
inductive LogLine
  /-- `soft_assert(exp)` with `exp` false. -/
  | softAssert (exp : String)
  /-- `return_val_if_fail(exp, val)` with `exp` false. -/
  | returnIfFail (exp : String)
  /-- `mowgli_log(fmt, ...)`. -/
  | message (fmt : String)
  deriving DecidableEq

/-- `soft_assert`: the log after asserting `c`, written `exp`. -/
def softAssert (exp : String) (c : Bool) (log : List LogLine) : List LogLine :=
  if c then log else log ++ [.softAssert exp]

/-- An assertion that holds logs nothing. -/
@[simp] theorem softAssert_true (exp : String) (log : List LogLine) :
    softAssert exp true log = log := rfl

/-- The largest `int`. -/
def INT_MAX : ℕ := 2147483647

/-- The conversion of a wider integer to an `int`. -/
def toInt (z : ℤ) : ℤ := Int.bmod z 4294967296

/-- An integer in the range of `int` is kept. -/
theorem toInt_of_range {z : ℤ} (h₁ : -2147483648 ≤ z) (h₂ : z ≤ 2147483647) : toInt z = z :=
  Int.bmod_eq_of_le (by norm_num; omega) (by norm_num; omega)

theorem toInt_of_le {n : ℕ} (h : n ≤ INT_MAX) : toInt n = n := by
  have hlt : (n : ℤ) ≤ 2147483647 := by exact_mod_cast h
  exact toInt_of_range (by omega) hlt

/-- Subtraction on a `size_t`. -/
def sizeSub (a b : ℕ) : ℕ := if a < b then a + 18446744073709551616 - b else a - b

/-- `n--` on a `size_t`. -/
def sizeDec (n : ℕ) : ℕ := sizeSub n 1

@[simp] theorem sizeSub_add (a b : ℕ) : sizeSub (a + b) b = a := by
  rw [sizeSub, if_neg (by omega)]
  omega

@[simp] theorem sizeDec_succ (n : ℕ) : sizeDec (n + 1) = n := sizeSub_add n 1

theorem sizeDec_ne (n : ℕ) : sizeDec n ≠ n := by
  unfold sizeDec sizeSub
  split_ifs with h
  · omega
  · omega

/-- A NUL-terminated string, without the terminator. -/
@[ext] structure CString where
  /-- The bytes before the terminator. -/
  bytes : List UInt8
  nul_free : 0 ∉ bytes
  deriving DecidableEq

namespace CString

/-- `strlen`. -/
def length (k : CString) : ℕ := k.bytes.length

/-- The byte at index `i` of the buffer. -/
def charAt (k : CString) (i : ℕ) : UInt8 := k.bytes.getD i 0

theorem nul_free_takeWhile (buffer : List UInt8) : 0 ∉ buffer.takeWhile (· ≠ 0) :=
  fun h => by simpa using List.mem_takeWhile_imp h

theorem nul_free_nil : (0 : UInt8) ∉ ([] : List UInt8) := List.not_mem_nil

theorem nul_free_a : (0 : UInt8) ∉ [97] := by decide

theorem nul_free_b : (0 : UInt8) ∉ [98] := by decide

theorem nul_free_x : (0 : UInt8) ∉ [120] := by decide

/-- The string that is in a buffer. -/
def ofBuffer (buffer : List UInt8) : CString where
  bytes := buffer.takeWhile (· ≠ 0)
  nul_free := nul_free_takeWhile buffer

/-- The first `n` bytes. -/
def take (k : CString) (n : ℕ) : CString :=
  ⟨k.bytes.take n, fun h => k.nul_free (List.mem_of_mem_take h)⟩

/-- `strcmp` on the bytes before the terminators. -/
def strcmpBytes : List UInt8 → List UInt8 → ℤ
  | [], [] => 0
  | [], y :: _ => -(y.toNat : ℤ)
  | x :: _, [] => x.toNat
  | x :: s, y :: t => if x = y then strcmpBytes s t else x.toNat - y.toNat

/-- `strcmp`. -/
def strcmp (k k' : CString) : ℤ := strcmpBytes k.bytes k'.bytes

theorem take_of_length_le {k : CString} {n : ℕ} (h : k.length ≤ n) : k.take n = k :=
  CString.ext (List.take_of_length_le h)

theorem charAt_of_lt {k : CString} {i : ℕ} (h : i < k.length) : k.charAt i ≠ 0 := by
  have hlt : i < k.bytes.length := h
  rw [charAt, List.getD_eq_getElem _ _ hlt]
  exact fun h0 => k.nul_free (h0 ▸ List.getElem_mem hlt)

theorem charAt_of_ge {k : CString} {i : ℕ} (h : k.length ≤ i) : k.charAt i = 0 :=
  List.getD_eq_default _ _ h

theorem charAt_eq_zero {k : CString} {i : ℕ} : k.charAt i = 0 ↔ k.length ≤ i :=
  ⟨fun h => not_lt.1 fun hlt => charAt_of_lt hlt h, charAt_of_ge⟩

theorem ext_charAt {k k' : CString} (h : ∀ i, k.charAt i = k'.charAt i) : k = k' := by
  have hlen : k.length = k'.length := by
    have h₁ := charAt_eq_zero.1 ((h k'.length).trans (charAt_of_ge le_rfl))
    have h₂ := charAt_eq_zero.1 ((h k.length).symm.trans (charAt_of_ge le_rfl))
    exact le_antisymm h₁ h₂
  refine CString.ext (List.ext_getElem hlen fun i h₁ h₂ => ?_)
  have := h i
  rwa [charAt, charAt, List.getD_eq_getElem _ _ h₁, List.getD_eq_getElem _ _ h₂] at this

theorem strcmp_eq_zero {k k' : CString} : strcmp k k' = 0 ↔ k = k' := by
  have key : ∀ s t : List UInt8, 0 ∉ s → 0 ∉ t → (strcmpBytes s t = 0 ↔ s = t) := by
    intro s
    induction s with
    | nil =>
      intro t _ ht
      cases t with
      | nil => simp [strcmpBytes]
      | cons y t =>
        have : y ≠ 0 := fun h => ht (h ▸ List.mem_cons_self ..)
        simpa [strcmpBytes, ← UInt8.toNat_inj] using this
    | cons x s ih =>
      intro t hs ht
      cases t with
      | nil =>
        have : x ≠ 0 := fun h => hs (h ▸ List.mem_cons_self ..)
        simpa [strcmpBytes, ← UInt8.toNat_inj] using this
      | cons y t =>
        have := ih t (fun h => hs (List.mem_cons_of_mem _ h)) (fun h => ht (List.mem_cons_of_mem _ h))
        by_cases hxy : x = y
        · simp [strcmpBytes, hxy, this]
        · have hne : x.toNat ≠ y.toNat := fun h => hxy (UInt8.toNat_inj.1 h)
          simp only [strcmpBytes, List.cons.injEq, hxy, false_and, iff_false, ↓reduceIte]
          omega
  rw [strcmp, key _ _ k.nul_free k'.nul_free, CString.ext_iff]

theorem strcmp_swap (k k' : CString) : strcmp k' k = -strcmp k k' := by
  have key : ∀ s t : List UInt8, strcmpBytes t s = -strcmpBytes s t := by
    intro s
    induction s with
    | nil => intro t; cases t <;> simp [strcmpBytes]
    | cons x s ih =>
      intro t
      cases t with
      | nil => simp [strcmpBytes]
      | cons y t =>
        by_cases hxy : x = y
        · simp [strcmpBytes, hxy, ih]
        · simp [strcmpBytes, hxy, Ne.symm hxy]
  exact key _ _

/-- Strings that agree before position `j` and have the smaller byte there
compare as smaller, for `strcmp` and byte by byte. -/
theorem strcmp_neg_of_charAt {k k' : CString} {j : ℕ} (h : ∀ i < j, k.charAt i = k'.charAt i)
    (hlt : k.charAt j < k'.charAt j) : strcmp k k' < 0 ∧ k.bytes < k'.bytes := by
  have key : ∀ (s t : List UInt8) (j : ℕ), 0 ∉ s → 0 ∉ t → (∀ i < j, s.getD i 0 = t.getD i 0) →
      s.getD j 0 < t.getD j 0 → strcmpBytes s t < 0 ∧ s < t := by
    intro s
    induction s with
    | nil =>
      intro t j _ ht _ hlt
      cases t with
      | nil => simp at hlt
      | cons y t =>
        have hy : y ≠ 0 := fun h => ht (h ▸ List.mem_cons_self ..)
        have hpos : 0 < y.toNat := Nat.pos_of_ne_zero fun h => hy (UInt8.toNat_inj.1 h)
        exact ⟨by simpa [strcmpBytes] using hpos, List.nil_lt_cons ..⟩
    | cons x s ih =>
      intro t j hs ht h hlt
      cases t with
      | nil =>
        cases j with
        | zero => simp [UInt8.lt_iff_toNat_lt] at hlt
        | succ j =>
          have h0 : x = 0 := by simpa using h 0 (by omega)
          exact absurd (h0 ▸ List.mem_cons_self ..) hs
      | cons y t =>
        cases j with
        | zero =>
          have hxy : x < y := by simpa using hlt
          have hne : x ≠ y := fun h => by rw [h] at hxy; exact absurd hxy (by simp)
          refine ⟨?_, List.cons_lt_cons_iff.2 (Or.inl hxy)⟩
          rw [strcmpBytes, if_neg hne]
          have := UInt8.lt_iff_toNat_lt.1 hxy
          omega
        | succ j =>
          obtain rfl : x = y := by simpa using h 0 (by omega)
          have hrec := ih t j (fun h => hs (List.mem_cons_of_mem _ h))
            (fun h => ht (List.mem_cons_of_mem _ h)) (fun i hi => by simpa using h (i + 1) (by omega)) (by simpa using hlt)
          rw [strcmpBytes, if_pos rfl]
          exact ⟨hrec.1, List.cons_lt_cons_iff.2 (Or.inr ⟨rfl, hrec.2⟩)⟩
  exact key _ _ j k.nul_free k'.nul_free h hlt

end CString

end Mowgli
