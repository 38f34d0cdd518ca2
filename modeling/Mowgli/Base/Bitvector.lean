import Mathlib.Data.List.Basic
import Mowgli.Base.C
/-!
# Bit vectors, as `base/bitvector.c` has them

The words are the `unsigned int`s of an array. A read or a write past its end
answers `none`. A shift takes the lower five bits of the amount, as the machine
does. What is allocated is zero-filled.

A `mowgli_bitvector_t` has no room for an object, but `mowgli_bitvector_create`
initializes one at its start. The object is larger than the block, so that no
call of `create` ends well, and none of `combine` and `xor` either, which make
their result with it. What `create` means to leave is `created`.
-/

namespace Mowgli

/-- `mowgli_bitvector_t`. -/
structure MowgliBitvector where
  bits : ℕ
  divisor : ℕ
  vector : List (BitVec 32)

namespace MowgliBitvector

/-- `sizeof(mowgli_bitvector_t)`: two `unsigned int`s and a pointer. -/
def sizeofBitvector : ℕ := 16

/-- The fields of a `mowgli_object_t` as `mowgli_object_init` writes them, each
with its offset and its size: the name, the class, the reference count, and the
three words of either list. -/
def objectFields : List (ℕ × ℕ) :=
  [(0, 8), (16, 8), (8, 4), (24, 8), (32, 8), (40, 8), (48, 8), (56, 8), (64, 8)]

/-- `mowgli_object_init`, at the start of a block of `size` bytes: a field that
is not in the block is not to be written. -/
def objectInit (size : ℕ) : Option Unit :=
  if objectFields.all fun (offset, width) => offset + width ≤ size then some () else none

/-- What `mowgli_bitvector_create` puts into a bit vector. -/
def created (bits : ℤ) : MowgliBitvector :=
  let bits := (bits % 4294967296).toNat
  let divisor := 4
  ⟨bits, divisor, List.replicate (bits / divisor) 0#32⟩

/-- `mowgli_bitvector_create`. -/
def create (bits : ℤ) : Option MowgliBitvector := do
  objectInit sizeofBitvector
  some (created bits)

/-- `vector[i] = x`. -/
def store (vector : List (BitVec 32)) (i : ℕ) (x : BitVec 32) : Option (List (BitVec 32)) :=
  if i < vector.length then some (vector.set i x) else none

/-- `mowgli_bitvector_set`. -/
def set (bv : MowgliBitvector) (slot : ℕ) (val : Bool) : Option MowgliBitvector := do
  let value := 1#32 <<< (slot % 32)
  let x ← bv.vector[bv.bits / bv.divisor]?
  let vector ← store bv.vector (bv.bits / bv.divisor) (if val then x ||| value else x &&& ~~~value)
  some { bv with vector := vector }

/-- `mowgli_bitvector_get`. -/
def get (bv : MowgliBitvector) (slot : ℕ) : Option Bool := do
  let mask := 1#32 <<< (slot % 32)
  let x ← bv.vector[bv.bits / bv.divisor]?
  some (x &&& mask ≠ 0#32)

/-- A word of a new bit vector, from those of two. -/
def mergeWord (f : BitVec 32 → BitVec 32 → BitVec 32 → BitVec 32) (bv1 bv2 : MowgliBitvector) (vector : List (BitVec 32))
    (iter : ℕ) : Option (List (BitVec 32)) := do
  let x ← vector[iter]?
  let x1 ← bv1.vector[iter]?
  let x2 ← bv2.vector[iter]?
  store vector iter (f x x1 x2)

/-- The words of a new bit vector, one after another. -/
def mergeWords (f : BitVec 32 → BitVec 32 → BitVec 32 → BitVec 32) (bv1 bv2 out : MowgliBitvector) :
    Option MowgliBitvector := do
  let vector ← (List.range (out.bits / out.divisor)).foldlM (mergeWord f bv1 bv2) out.vector
  some { out with vector := vector }

/-- The larger width. -/
def largerBits (bv1 bv2 : MowgliBitvector) : ℤ :=
  toInt (if bv1.bits > bv2.bits then bv1.bits else bv2.bits)

/-- A new bit vector of the larger width. -/
def merge (f : BitVec 32 → BitVec 32 → BitVec 32 → BitVec 32) (bv1 bv2 : MowgliBitvector) : Option MowgliBitvector := do
  let out ← create (largerBits bv1 bv2)
  mergeWords f bv1 bv2 out

/-- A word of `mowgli_bitvector_combine`. -/
def combineWord (x x1 x2 : BitVec 32) : BitVec 32 := x ||| x1 ||| x2

/-- A word of `mowgli_bitvector_xor`. -/
def xorWord (_ x1 x2 : BitVec 32) : BitVec 32 := x1 &&& ~~~x2

/-- `mowgli_bitvector_combine`. -/
def combine : MowgliBitvector → MowgliBitvector → Option MowgliBitvector := merge combineWord

/-- `mowgli_bitvector_xor`. -/
def xor : MowgliBitvector → MowgliBitvector → Option MowgliBitvector := merge xorWord

/-- `mowgli_bitvector_compare`: the body of the loop. -/
def compareWord (bv1 bv2 : MowgliBitvector) (ret : Bool) (iter : ℕ) : Option Bool := do
  let x1 ← bv1.vector[iter]?
  let x2 ← bv2.vector[iter]?
  some (if x1 &&& x2 = 0#32 then false else ret)

/-- `mowgli_bitvector_compare`. -/
def compare (bv1 bv2 : MowgliBitvector) : Option Bool :=
  (List.range (bv1.bits / bv1.divisor)).foldlM (compareWord bv1 bv2) true

/-! ## What a bit vector is -/

/-- A bit vector as it is to be made, with any words. A program can also fill
the structure itself. -/
structure Made (bv : MowgliBitvector) : Prop where
  bits : bv.bits < 4294967296
  divisor : bv.divisor = 4
  length : bv.vector.length = bv.bits / 4

theorem created_made (bits : ℤ) : (created bits).Made where
  bits := by
    change (bits % 4294967296).toNat < 4294967296
    omega
  divisor := rfl
  length := List.length_replicate

/-- **No bit vector can be created**: the class is written behind the block. -/
theorem create_eq_none (bits : ℤ) : create bits = none := rfl

/-! ## Slots -/

variable {bv x y out : MowgliBitvector} {i : ℕ} {v : Bool}

/-- The slot `i` is set to `v`, and no other one. -/
def SetsSlot (bv : MowgliBitvector) (i : ℕ) (v : Bool) : Prop :=
  ∃ bv', bv.set i v = some bv' ∧ bv'.get i = some v ∧ ∀ j < bv.bits, j ≠ i → bv'.get j = bv.get j

/-- The word of every slot is the one behind the vector. -/
theorem Made.word_eq_none (h : bv.Made) : bv.vector[bv.bits / bv.divisor]? = none := by
  rw [h.divisor, List.getElem?_eq_none_iff, h.length]

/-- **No slot can be set**: the word that is written is not in the vector,
whatever its width and whatever the slot. -/
theorem not_setsSlot (h : bv.Made) (i : ℕ) (v : Bool) : bv.set i v = none ∧ bv.get i = none ∧ ¬ bv.SetsSlot i v := by
  have hset : bv.set i v = none := by
    rw [set, h.word_eq_none]
    rfl
  refine ⟨hset, ?_, ?_⟩
  · rw [get, h.word_eq_none]
    rfl
  · rintro ⟨bv', hbv', -⟩
    rw [hset] at hbv'
    cases hbv'

theorem not_setsSlot_zero :
    (created 8).set 0 true = none ∧ (created 8).get 0 = none ∧ ¬ (created 8).SetsSlot 0 true :=
  not_setsSlot (created_made 8) 0 true

/-- A slot that is there is not set. -/
theorem slot_not_set : ¬ ∀ b : ℕ, 1 ≤ b → ∀ i < b, ∀ v, (created b).SetsSlot i v := by
  intro h
  obtain ⟨bv', hset, -⟩ := h 32 (by decide) 0 (by decide) true
  cases hset

/-! ## Words -/

/-- The words of a bit vector, zeros behind them. -/
def wordAt (bv : MowgliBitvector) (i : ℕ) : BitVec 32 := bv.vector.getD i 0#32

theorem getElem?_word (h : i < bv.vector.length) : bv.vector[i]? = some (bv.wordAt i) := by
  rw [wordAt, List.getD_eq_getElem _ _ h, List.getElem?_eq_getElem h]

theorem wordAt_of_ge (h : bv.vector.length ≤ i) : bv.wordAt i = 0#32 := List.getD_eq_default _ _ h

/-- What a loop that ends has done with each number. -/
theorem exists_of_foldlM {α β : Type} {f : α → β → Option α} {l : List β} {s r : α} (h : l.foldlM f s = some r) :
    ∀ b ∈ l, ∃ s' r', f s' b = some r' := by
  induction l generalizing s with
  | nil => simp
  | cons c l ih =>
    rw [List.foldlM_cons] at h
    obtain ⟨s₁, hs₁, h⟩ := Option.bind_eq_some_iff.1 h
    intro b hb
    rcases List.mem_cons.1 hb with rfl | hb
    · exact ⟨s, s₁, hs₁⟩
    · exact ih h b hb

variable {f : BitVec 32 → BitVec 32 → BitVec 32 → BitVec 32} {n : ℕ}

/-- The new words up to `t`. -/
theorem merge_loop (hx : x.vector.length = n) (hy : y.vector.length = n) (t : ℕ) (ht : t ≤ n) :
    ∃ vector, (List.range t).foldlM (mergeWord f x y) (List.replicate n 0#32) = some vector ∧ vector.length = n ∧
      ∀ i < n, vector[i]? = some (if i < t then f 0#32 (x.wordAt i) (y.wordAt i) else 0#32) := by
  induction t with
  | zero =>
    refine ⟨_, rfl, List.length_replicate, fun i hi => ?_⟩
    rw [if_neg (Nat.not_lt_zero i), List.getElem?_replicate, if_pos hi]
  | succ t ih =>
    obtain ⟨vector, hloop, hlen, hword⟩ := ih (by omega)
    have hold := hword t (by omega)
    rw [if_neg (lt_irrefl t)] at hold
    have hstep : mergeWord f x y vector t = some (vector.set t (f 0#32 (x.wordAt t) (y.wordAt t))) := by
      rw [mergeWord, hold, getElem?_word (by omega), getElem?_word (by omega)]
      exact if_pos (by omega)
    refine ⟨vector.set t (f 0#32 (x.wordAt t) (y.wordAt t)), ?_, by rw [List.length_set, hlen], fun i hi => ?_⟩
    · rw [List.range_succ, List.foldlM_append, hloop]
      exact congrArg (fun o => Option.bind o some) hstep
    · by_cases hit : i = t
      · rw [hit, List.getElem?_set_self (by omega), if_pos (Nat.lt_succ_self t)]
      · rw [List.getElem?_set_ne (Ne.symm hit), hword i hi]
        split_ifs
        all_goals first
          | rfl
          | omega

theorem created_toInt (h : n < 4294967296) : created (toInt n) = ⟨n, 4, List.replicate (n / 4) 0#32⟩ := by
  have hn : (toInt n % 4294967296).toNat = n := by
    rw [toInt, Int.bmod_def]
    split_ifs <;> omega
  simp only [created, hn]

/-- The bit vector of the larger width. -/
theorem created_largerBits (hx : x.Made) (hy : y.Made) :
    created (largerBits x y) =
      ⟨max x.bits y.bits, 4, List.replicate (max x.bits y.bits / 4) 0#32⟩ := by
  have hlarger : largerBits x y = toInt (max x.bits y.bits : ℕ) := by
    unfold largerBits
    split_ifs with h
    · rw [max_eq_left h.le]
    · rw [max_eq_right (not_lt.1 h)]
  rw [hlarger, created_toInt (max_lt hx.bits hy.bits)]

/-- **Merging** bit vectors of as many words each. -/
theorem mergeWords_spec (hx : x.Made) (hy : y.Made) (hlen : x.vector.length = y.vector.length) :
    ∃ out, mergeWords f x y (created (largerBits x y)) = some out ∧ ∀ i, out.wordAt i =
      if i < x.vector.length then f 0#32 (x.wordAt i) (y.wordAt i) else 0#32 := by
  have hwords : max x.bits y.bits / 4 = x.vector.length := by
    have := hx.length
    have := hy.length
    omega
  obtain ⟨vector, hloop, hvector, hword⟩ := merge_loop (f := f) rfl hlen.symm x.vector.length le_rfl
  refine ⟨⟨max x.bits y.bits, 4, vector⟩, ?_, fun i => ?_⟩
  · rw [created_largerBits hx hy, mergeWords]
    simp only [hwords, hloop, Option.bind_eq_bind, Option.bind_some]
  · split_ifs with hi
    · have hget := hword i hi
      rw [if_pos hi] at hget
      rw [wordAt, List.getD_eq_getElem?_getD, hget, Option.getD_some]
    · exact wordAt_of_ge (by rw [hvector]; omega)

/-- Of bit vectors that have not as many words each, words are read that are
not there. -/
theorem mergeWords_eq_none (hx : x.Made) (hy : y.Made) (hlen : x.vector.length ≠ y.vector.length) :
    mergeWords f x y (created (largerBits x y)) = none := by
  have hxl := hx.length
  have hyl := hy.length
  rw [created_largerBits hx hy, mergeWords]
  rcases hloop : (List.range (max x.bits y.bits / 4)).foldlM (mergeWord f x y)
    (List.replicate (max x.bits y.bits / 4) 0#32) with _ | vector
  · simp only [Option.bind_eq_bind, Option.bind_none]
  · have hsome := exists_of_foldlM hloop (min x.vector.length y.vector.length) (List.mem_range.2 (by omega))
    obtain ⟨v, v', hstep⟩ := hsome
    obtain ⟨x₀, -, hstep⟩ := Option.bind_eq_some_iff.1 hstep
    obtain ⟨x₁, h₁, hstep⟩ := Option.bind_eq_some_iff.1 hstep
    obtain ⟨x₂, h₂, -⟩ := Option.bind_eq_some_iff.1 hstep
    have hlt₁ := (List.getElem?_eq_some_iff.1 h₁).1
    have hlt₂ := (List.getElem?_eq_some_iff.1 h₂).1
    omega

/-- **Comparing** bit vectors of as many words each: no pair of words may be
without a common bit. -/
theorem compare_spec (hx : x.Made) (hlen : x.vector.length = y.vector.length) :
    compare x y = some (decide (∀ i < x.vector.length, x.wordAt i &&& y.wordAt i ≠ 0#32)) := by
  have hloop : ∀ t, t ≤ x.vector.length → (List.range t).foldlM (compareWord x y) true =
      some (decide (∀ i < t, x.wordAt i &&& y.wordAt i ≠ 0#32)) := by
    intro t
    induction t with
    | zero => exact fun _ => by simp
    | succ t ih =>
      intro ht
      have hstep : ∀ ret, compareWord x y ret t = some (if x.wordAt t &&& y.wordAt t = 0#32 then false else ret) := by
        intro ret
        rw [compareWord, getElem?_word (by omega), getElem?_word (by omega)]
        rfl
      rw [List.range_succ, List.foldlM_append, ih (by omega)]
      refine (congrArg (fun o => Option.bind o some) (hstep _)).trans ?_
      rw [Option.bind_some]
      refine congrArg some ?_
      simp only [Nat.forall_lt_succ_right]
      by_cases hzero : x.wordAt t &&& y.wordAt t = 0#32
      · simp [hzero]
      · simp [hzero]
  rw [compare, hx.divisor, ← hx.length]
  exact hloop _ le_rfl

/-- The words of a new bit vector are those of two, pointwise. -/
def Pointwise (op : BitVec 32 → BitVec 32 → BitVec 32) (x y : MowgliBitvector) (o : Option MowgliBitvector) : Prop :=
  ∃ out, o = some out ∧ ∀ i, out.wordAt i = op (x.wordAt i) (y.wordAt i)

/-- What bit vectors of words are to do, of an `or` and a `xor` of two: the
words of the one are the pointwise or, those of the other the pointwise
exclusive or, and `compare` tells whether vectors of one width have the same
words. -/
structure AlgebraicOf (or xor : Option MowgliBitvector) (x y : MowgliBitvector) : Prop where
  combine : Pointwise (· ||| ·) x y or
  xor : Pointwise (· ^^^ ·) x y xor
  compare : x.bits = y.bits → ∃ b, compare x y = some b ∧ (b = true ↔ ∀ i, x.wordAt i = y.wordAt i)

/-- `combine`, `xor` and `compare` do that. -/
def Algebraic (x y : MowgliBitvector) : Prop := AlgebraicOf (combine x y) (xor x y) x y

/-- The loops of `combine` and `xor` do that, given the new bit vector, and so
does `compare`. -/
def LoopsAlgebraic (x y : MowgliBitvector) : Prop :=
  AlgebraicOf (mergeWords combineWord x y (created (largerBits x y)))
    (mergeWords xorWord x y (created (largerBits x y))) x y

/-- Where the loops do that: there are as many words, all bits of `y` are set
in `x`, and if the widths are the same, then the words are the same just where
no word of `y` is zero. -/
structure Nested (x y : MowgliBitvector) : Prop where
  length : x.vector.length = y.vector.length
  subset : ∀ i, y.wordAt i &&& ~~~x.wordAt i = 0#32
  zero : x.bits = y.bits → ((∀ i < y.vector.length, y.wordAt i ≠ 0#32) ↔ ∀ i, x.wordAt i = y.wordAt i)

/-- The bits of the one that are not in the other are those in which they
differ, if there are none the other way round. -/
theorem and_not_eq_xor_iff (a b : BitVec 32) : a &&& ~~~b = a ^^^ b ↔ b &&& ~~~a = 0#32 := by
  have hbit : ∀ p q : Bool, (p && !q) = (p ^^ q) ↔ (q && !p) = false := by decide
  constructor
  · intro h
    refine BitVec.eq_of_getLsbD_eq fun i hi => ?_
    have hi' := congrArg (fun v => BitVec.getLsbD v i) h
    simp only [BitVec.getLsbD_and, BitVec.getLsbD_not, BitVec.getLsbD_xor, hi, decide_true, Bool.true_and] at hi'
    simpa [hi] using (hbit _ _).1 hi'
  · intro h
    refine BitVec.eq_of_getLsbD_eq fun i hi => ?_
    have hi' := congrArg (fun v => BitVec.getLsbD v i) h
    simp only [BitVec.getLsbD_and, BitVec.getLsbD_not, BitVec.getLsbD_zero, hi, decide_true, Bool.true_and] at hi'
    simpa [hi] using (hbit _ _).2 hi'

theorem and_eq_of_subset {a b : BitVec 32} (h : b &&& ~~~a = 0#32) : a &&& b = b := by
  have hbit : ∀ p q : Bool, (q && !p) = false → (p && q) = q := by decide
  refine BitVec.eq_of_getLsbD_eq fun i hi => ?_
  have hi' := congrArg (fun v => BitVec.getLsbD v i) h
  simp only [BitVec.getLsbD_and, BitVec.getLsbD_not, BitVec.getLsbD_zero, hi, decide_true, Bool.true_and] at hi'
  rw [BitVec.getLsbD_and]
  exact hbit _ _ hi'

/-- When the loops combine and xor as they are to do, and `compare` compares. -/
theorem loopsAlgebraic_iff (hx : x.Made) (hy : y.Made) : LoopsAlgebraic x y ↔ Nested x y := by
  by_cases hlen : x.vector.length = y.vector.length
  swap
  · refine iff_of_false ?_ fun h => hlen h.length
    rintro ⟨⟨out, hout, -⟩, -, -⟩
    rw [mergeWords_eq_none hx hy hlen] at hout
    cases hout
  -- behind the words there are zeros
  have hbehind : ∀ i, x.vector.length ≤ i → x.wordAt i = 0#32 ∧ y.wordAt i = 0#32 := fun i hi =>
    ⟨wordAt_of_ge hi, wordAt_of_ge (hlen ▸ hi)⟩
  have hcombine : Pointwise (· ||| ·) x y (mergeWords combineWord x y (created (largerBits x y))) := by
    obtain ⟨out, hout, hword⟩ := mergeWords_spec (f := combineWord) hx hy hlen
    refine ⟨out, hout, fun i => ?_⟩
    rw [hword]
    split_ifs with hi
    · rw [combineWord, BitVec.zero_or]
    · obtain ⟨h₁, h₂⟩ := hbehind i (not_lt.1 hi)
      rw [h₁, h₂]
      rfl
  have hxor : Pointwise (· ^^^ ·) x y (mergeWords xorWord x y (created (largerBits x y))) ↔
      ∀ i, y.wordAt i &&& ~~~x.wordAt i = 0#32 := by
    obtain ⟨out, hout, hword⟩ := mergeWords_spec (f := xorWord) hx hy hlen
    have hout' : ∀ i, out.wordAt i = x.wordAt i &&& ~~~y.wordAt i := by
      intro i
      rw [hword]
      split_ifs with hi
      · rfl
      · obtain ⟨h₁, h₂⟩ := hbehind i (not_lt.1 hi)
        rw [h₁, h₂]
        rfl
    constructor
    · rintro ⟨out', hout'', hword'⟩ i
      obtain rfl := Option.some.inj (hout.symm.trans hout'')
      exact (and_not_eq_xor_iff _ _).1 ((hout' i).symm.trans (hword' i))
    · exact fun h => ⟨out, hout, fun i => (hout' i).trans ((and_not_eq_xor_iff _ _).2 (h i))⟩
  have hcompare := compare_spec hx hlen
  -- where `y` is in `x`, words have no common bit where that of `y` is zero
  have hcommon : (∀ i, y.wordAt i &&& ~~~x.wordAt i = 0#32) →
      ((∀ i < x.vector.length, x.wordAt i &&& y.wordAt i ≠ 0#32) ↔ ∀ i < y.vector.length, y.wordAt i ≠ 0#32) := by
    intro hsub
    rw [hlen]
    exact forall_congr' fun i => by rw [and_eq_of_subset (hsub i)]
  constructor
  · rintro ⟨-, hx', hc⟩
    refine ⟨hlen, hxor.1 hx', fun hbits => ?_⟩
    obtain ⟨b, hb, hiff⟩ := hc hbits
    rw [← hiff, ← hcommon (hxor.1 hx'), ← Option.some.inj (hcompare.symm.trans hb), decide_eq_true_iff]
  · rintro ⟨-, hsub, hzero⟩
    refine ⟨hcombine, hxor.2 hsub, fun hbits => ⟨_, hcompare, ?_⟩⟩
    rw [decide_eq_true_iff, hcommon hsub, hzero hbits]

/-- No bit vector is made of two, as none is made. -/
theorem merge_eq_none : merge f x y = none := by
  rw [merge, create_eq_none]
  rfl

/-- **No bit vectors are combined or xored**, whatever they are: `create` writes
an object into a block that is too small for it. Were it not for that, the
loops would be right just for nested ones. -/
theorem never_algebraic (hx : x.Made) (hy : y.Made) :
    (combine x y = none ∧ xor x y = none ∧ ¬ Algebraic x y) ∧ (LoopsAlgebraic x y ↔ Nested x y) := by
  refine ⟨⟨merge_eq_none, merge_eq_none, ?_⟩, loopsAlgebraic_iff hx hy⟩
  rintro ⟨⟨out, hout, -⟩, -, -⟩
  rw [combine, merge_eq_none] at hout
  cases hout

/-- Vectors of one and of two words, the second with a bit that the first has
not. -/
theorem never_algebraic_words :
    (combine ⟨4, 4, [3#32]⟩ ⟨8, 4, [1#32, 4#32]⟩ = none ∧ xor ⟨4, 4, [3#32]⟩ ⟨8, 4, [1#32, 4#32]⟩ = none ∧
      ¬ Algebraic ⟨4, 4, [3#32]⟩ ⟨8, 4, [1#32, 4#32]⟩) ∧
      (LoopsAlgebraic ⟨4, 4, [3#32]⟩ ⟨8, 4, [1#32, 4#32]⟩ ↔ Nested ⟨4, 4, [3#32]⟩ ⟨8, 4, [1#32, 4#32]⟩) :=
  never_algebraic ⟨by decide, rfl, rfl⟩ ⟨by decide, rfl, rfl⟩

/-- Two vectors of 32 bits, all zero: `combine` and `xor` overflow, and `compare`
finds the one not to be the other. -/
theorem compare_not_reflexive : (∀ x y : MowgliBitvector, combine x y = none ∧ xor x y = none) ∧
    MowgliBitvector.compare (created 32) (created 32) = some false ∧
      ¬ ∀ x y : MowgliBitvector, x.Made → y.Made → Algebraic x y := by
  refine ⟨fun _ _ => ⟨merge_eq_none, merge_eq_none⟩, by decide, fun h => ?_⟩
  obtain ⟨out, hout, -⟩ := (h (created 32) (created 32) (created_made 32) (created_made 32)).combine
  rw [combine, merge_eq_none] at hout
  cases hout

end MowgliBitvector

end Mowgli
