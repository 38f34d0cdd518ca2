import Mowgli.Container.Patricia.Model
import Mowgli.Library.TrieEdit
/-!
# Nibbles of keys

A key is determined by its nibbles, two keys part at one, and the loop of
`elem_add` finds it as long as its number is an `int`. The order of the
nibbles is the order of `strcmp` and of the bytes.
-/

namespace Mowgli

namespace Patricia

theorem nibbleVal_even (k : CString) (j : ℕ) :
    ((nibbleVal k (2 * j) : Fin 16) : ℕ) = (k.charAt j).toNat / 16 := by
  have hlt := (k.charAt j).toNat_lt
  have h1 : 2 * j / 2 = j := by omega
  simp [nibbleVal, h1, Nat.shiftRight_eq_div_pow]
  omega

theorem nibbleVal_odd (k : CString) (j : ℕ) :
    ((nibbleVal k (2 * j + 1) : Fin 16) : ℕ) = (k.charAt j).toNat % 16 := by
  have h1 : (2 * j + 1) / 2 = j := by omega
  have h2 : (2 * j + 1) % 2 = 1 := by omega
  simp [nibbleVal, h1, h2]

/-- The two nibbles of a byte determine it. -/
theorem charAt_eq_of_nibbles {k k' : CString} {j : ℕ}
    (h₀ : nibbleVal k (2 * j) = nibbleVal k' (2 * j))
    (h₁ : nibbleVal k (2 * j + 1) = nibbleVal k' (2 * j + 1)) : k.charAt j = k'.charAt j := by
  have e₀ := congrArg Fin.val h₀
  have e₁ := congrArg Fin.val h₁
  rw [nibbleVal_even, nibbleVal_even] at e₀
  rw [nibbleVal_odd, nibbleVal_odd] at e₁
  exact UInt8.toNat_inj.1 (by omega)

theorem nibbleVal_of_charAt {k k' : CString} {i : ℕ} (h : k.charAt (i / 2) = k'.charAt (i / 2)) :
    nibbleVal k i = nibbleVal k' i := by
  rw [nibbleVal, nibbleVal, h]

/-- A nibble past the end of the key is 0. -/
theorem nibbleVal_of_length_le {k : CString} {i : ℕ} (h : k.length ≤ i / 2) : nibbleVal k i = 0 := by
  rw [nibbleVal, CString.charAt_of_ge h]
  simp

/-- Keys with the same nibbles are the same. -/
theorem ext_nibbleVal {k k' : CString} (h : ∀ i, nibbleVal k i = nibbleVal k' i) : k = k' :=
  CString.ext_charAt fun _ => charAt_eq_of_nibbles (h _) (h _)

/-- **Two keys part within both of them**, terminators included: the one
that ends first has its terminator where the other has a byte. -/
theorem div_two_le_length {k k' : CString} {i : ℕ} (hlt : ∀ m < i, nibbleVal k m = nibbleVal k' m)
    (hne : nibbleVal k i ≠ nibbleVal k' i) : i / 2 ≤ k.length := by
  by_contra hgt
  have hend : k.charAt k.length = k'.charAt k.length :=
    charAt_eq_of_nibbles (hlt _ (by omega)) (hlt _ (by omega))
  rw [CString.charAt_of_ge le_rfl] at hend
  have hle : k'.length ≤ k.length := CString.charAt_eq_zero.1 hend.symm
  refine hne (nibbleVal_of_charAt ?_)
  rw [CString.charAt_of_ge (by omega), CString.charAt_of_ge (by omega)]

/-- Two keys that part at an `int` position. -/
def PartWithin (k k' : CString) : Prop := ∃ i ≤ INT_MAX, nibbleVal k i ≠ nibbleVal k' i

/-- **The search for the first different nibble finds it.** -/
theorem differ_eq {k k' : CString} (h : PartWithin k k') :
    ∃ i, differ k k' (2 * k.length + 2) 0 = some i ∧ (∀ m < i, nibbleVal k m = nibbleVal k' m) ∧
      nibbleVal k i ≠ nibbleVal k' i := by
  classical
  obtain ⟨j, hj, hjne⟩ := h
  have hex : ∃ i, nibbleVal k i ≠ nibbleVal k' i := ⟨j, hjne⟩
  set i := Nat.find hex with hi
  have hne : nibbleVal k i ≠ nibbleVal k' i := Nat.find_spec hex
  have hlt : ∀ m < i, nibbleVal k m = nibbleVal k' m := fun m hm => not_not.1 (Nat.find_min hex hm)
  have hij : i ≤ j := Nat.find_min' hex hjne
  have hk : i / 2 ≤ k.length := div_two_le_length hlt hne
  have hk' : i / 2 ≤ k'.length :=
    div_two_le_length (fun m hm => (hlt m hm).symm) hne.symm
  have key : ∀ fuel s, s ≤ i → i < s + fuel → differ k k' fuel s = some i := by
    intro fuel
    induction fuel with
    | zero => intro s hs hf; omega
    | succ fuel ih =>
      intro s hs hf
      rw [differ, if_neg (by omega)]
      rcases Nat.eq_or_lt_of_le hs with rfl | hlt'
      · rw [if_neg hne]
      · rw [if_pos (hlt s hlt')]
        exact ih (s + 1) hlt' (by omega)
  exact ⟨i, key _ 0 (Nat.zero_le _) (by omega), hlt, hne⟩

/-- A key shorter than 2^30 bytes parts from any other at an `int`
position. -/
theorem partWithin_of_length {k k' : CString} (hlen : k.length < 2 ^ 30) (hne : k ≠ k') :
    PartWithin k k' := by
  classical
  have hex : ∃ i, nibbleVal k i ≠ nibbleVal k' i := by
    by_contra hno
    push Not at hno
    exact hne (ext_nibbleVal hno)
  have hle := div_two_le_length (fun m hm => not_not.1 (Nat.find_min hex hm)) (Nat.find_spec hex)
  refine ⟨Nat.find hex, ?_, Nat.find_spec hex⟩
  rw [INT_MAX]
  omega

/-- **The order of the nibbles is the order of the bytes**, and `strcmp`'s. -/
theorem lt_of_digLt {k k' : CString} (h : Trie.DigLt nibbleVal k k') :
    CString.strcmp k k' < 0 ∧ k.bytes < k'.bytes := by
  obtain ⟨i, hlt, hi⟩ := h
  refine CString.strcmp_neg_of_charAt (j := i / 2)
    (fun j hj => charAt_eq_of_nibbles (hlt _ (by omega)) (hlt _ (by omega))) ?_
  rw [UInt8.lt_iff_toNat_lt]
  have hi' : ((nibbleVal k i : Fin 16) : ℕ) < (nibbleVal k' i : Fin 16) := hi
  rcases Nat.mod_two_eq_zero_or_one i with hpar | hpar
  · rw [show i = 2 * (i / 2) by omega, nibbleVal_even, nibbleVal_even] at hi'
    omega
  · -- the high nibbles agree, so the low ones decide
    have heven := congrArg Fin.val (hlt (2 * (i / 2)) (by omega))
    rw [nibbleVal_even, nibbleVal_even] at heven
    rw [show i = 2 * (i / 2) + 1 by omega, nibbleVal_odd, nibbleVal_odd] at hi'
    omega

end Patricia

end Mowgli
