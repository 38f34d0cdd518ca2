import Mathlib.Data.BitVec
import Mathlib.Data.Int.CardIntervalMod
import Mowgli.Base.Random.Reference
import Mowgli.Library.Orbit
/-!
# The numbers of a range

The words that are not rejected are as many times all numbers of the range, and
at least half of all words. Of the words a generator makes it comes to one:
the sequence is an orbit of a map of `N` words that is additive, bit by bit, and
fixes nothing but zeroes, so the upper bit of the numbers cannot be set
for ever.
-/

namespace Mowgli

namespace Random

open MonoidHom

variable {w : ℕ → BitVec 32} {n : ℕ} {max x y : BitVec 32}

/-! ## The sequence as an orbit -/

/-- Words under exclusive or. -/
def XorWord : Type := BitVec 32

instance : CommGroup XorWord where
  mul x y := BitVec.xor x y
  one := 0#32
  inv := id
  mul_assoc := BitVec.xor_assoc
  one_mul _ := BitVec.zero_xor
  mul_one _ := BitVec.xor_zero
  inv_mul_cancel _ := BitVec.xor_self
  mul_comm := BitVec.xor_comm

instance : Finite XorWord := Finite.of_equiv _ (BitVec.equivFin (m := 32)).symm.toEquiv

theorem mag01_eq (x : BitVec 32) : mag01 x = if x.getLsbD 0 then MATRIX_A else 0#32 := by
  have hlow : x &&& 1#32 = BitVec.setWidth 32 (BitVec.ofBool (x.getLsbD 0)) :=
    BitVec.and_one_eq_setWidth_ofBool_getLsbD
  rw [mag01, hlow]
  cases x.getLsbD 0 <;> rfl

theorem mag01_xor (x y : BitVec 32) : mag01 (x ^^^ y) = mag01 x ^^^ mag01 y := by
  rw [mag01_eq, mag01_eq, mag01_eq, BitVec.getLsbD_xor]
  cases x.getLsbD 0 <;> cases y.getLsbD 0 <;> simp

theorem and_xor (x y m : BitVec 32) : (x ^^^ y) &&& m = x &&& m ^^^ y &&& m := by
  refine BitVec.eq_of_getLsbD_eq fun i hi => ?_
  simp only [BitVec.getLsbD_and, BitVec.getLsbD_xor, Bool.and_xor_distrib_right]

/-- The word that is shifted and reduced. -/
theorem masked_xor (x x' y y' : BitVec 32) :
    (x ^^^ y) &&& UPPER_MASK ||| (x' ^^^ y') &&& LOWER_MASK =
      (x &&& UPPER_MASK ||| x' &&& LOWER_MASK) ^^^ (y &&& UPPER_MASK ||| y' &&& LOWER_MASK) := by
  -- no bit is in both masks
  have hmask : ∀ i < 32, UPPER_MASK.getLsbD i = !LOWER_MASK.getLsbD i := by decide
  refine BitVec.eq_of_getLsbD_eq fun i hi => ?_
  simp only [BitVec.getLsbD_or, BitVec.getLsbD_and, BitVec.getLsbD_xor, hmask i hi]
  cases LOWER_MASK.getLsbD i <;> simp

theorem twist_xor (x x' y y' : BitVec 32) : twist (x ^^^ y) (x' ^^^ y') = twist x x' ^^^ twist y y' := by
  rw [twist, twist, twist, masked_xor, mag01_xor, BitVec.ushiftRight_xor_distrib]
  ac_rfl

/-- What shifts to the right and to the left add. -/
theorem shiftRight_step (x y : BitVec 32) (k : ℕ) :
    (x ^^^ y) ^^^ (x ^^^ y) >>> k = (x ^^^ x >>> k) ^^^ (y ^^^ y >>> k) := by
  rw [BitVec.ushiftRight_xor_distrib]
  ac_rfl

theorem shiftLeft_step (x y m : BitVec 32) (k : ℕ) :
    (x ^^^ y) ^^^ (x ^^^ y) <<< k &&& m = (x ^^^ x <<< k &&& m) ^^^ (y ^^^ y <<< k &&& m) := by
  rw [BitVec.shiftLeft_xor_distrib, and_xor]
  ac_rfl

theorem temper_xor (x y : BitVec 32) : temper (x ^^^ y) = temper x ^^^ temper y := by
  simp only [temper, shiftRight_step, shiftLeft_step]

theorem twist_self (x : BitVec 32) : twist x x = x >>> 1 ^^^ mag01 x := by
  have hmask : UPPER_MASK ||| LOWER_MASK = BitVec.allOnes 32 := by decide
  have hx : x &&& UPPER_MASK ||| x &&& LOWER_MASK = x := by
    rw [← BitVec.and_or_distrib_left, hmask, BitVec.and_allOnes]
  rw [twist, hx]

/-- A word that adds nothing is zero. -/
theorem eq_zero_of_twist (h : twist x x = 0#32) : x = 0#32 := by
  rw [twist_self, mag01_eq] at h
  have hbit : ∀ i, x.getLsbD (1 + i) = (if x.getLsbD 0 then MATRIX_A else 0#32).getLsbD i := by
    intro i
    have hi := congrArg (fun v => BitVec.getLsbD v i) h
    simp only [BitVec.getLsbD_xor, BitVec.getLsbD_ushiftRight, BitVec.getLsbD_zero, bne_eq_false_iff_eq] at hi
    exact hi
  have hlow : x.getLsbD 0 = false := by
    by_contra hset
    have h31 := hbit 31
    rw [if_pos (by simpa using hset), BitVec.getLsbD_of_ge x _ (by decide)] at h31
    exact absurd h31 (by decide)
  refine BitVec.eq_of_getLsbD_eq fun i _ => ?_
  rcases i with _ | i
  · rw [hlow, BitVec.getLsbD_zero]
  · rw [Nat.add_comm, hbit i, hlow]
    simp

/-- `N` words of a sequence. -/
abbrev Window : Type := Fin N → XorWord

/-- The window that starts with the word `n`. -/
def window (w : ℕ → BitVec 32) (n : ℕ) : Window := fun i => w (n + i)

/-- What two words add to the one `M` words on. -/
def twisted (x x' : XorWord) : XorWord := twist x x'

theorem twisted_mul (x x' y y' : XorWord) : twisted (x * y) (x' * y') = twisted x x' * twisted y y' := twist_xor x x' y y'

/-- The word behind a window. -/
def behind (v : Window) : XorWord := v ⟨M, by decide⟩ * twisted (v ⟨0, by decide⟩) (v ⟨1, by decide⟩)

theorem behind_mul (u v : Window) : behind (u * v) = behind u * behind v := by
  simp only [behind, Pi.mul_apply, twisted_mul]
  exact mul_mul_mul_comm ..

/-- The window one word on. -/
def slideFun (v : Window) : Window := fun i => if h : i.1 + 1 < N then v ⟨i + 1, h⟩ else behind v

theorem slideFun_of_lt (v : Window) {i : ℕ} (h : i + 1 < N) :
    slideFun v ⟨i, Nat.lt_of_succ_lt h⟩ = v ⟨i + 1, h⟩ := dif_pos h

theorem slideFun_last (v : Window) {i : Fin N} (h : ¬ i.1 + 1 < N) : slideFun v i = behind v := dif_neg h

/-- The window one word on, as a homomorphism. -/
def slide : Window →* Window :=
  MonoidHom.mk' slideFun <| by
    intro u v
    funext i
    by_cases h : i.1 + 1 < N
    · rw [Pi.mul_apply, slideFun_of_lt _ h, slideFun_of_lt _ h, slideFun_of_lt _ h]
      rfl
    · rw [Pi.mul_apply, slideFun_last _ h, slideFun_last _ h, slideFun_last _ h, behind_mul]

theorem slide_window (hw : Recurs w) (n : ℕ) : slide (window w n) = window w (n + 1) := by
  funext i
  by_cases h : i.1 + 1 < N
  · refine (slideFun_of_lt _ h).trans ?_
    rw [window, window, Nat.add_assoc, Nat.add_comm 1]
  · have hi : n + 1 + i.1 = n + N := by
      have := i.2
      omega
    refine (slideFun_last _ h).trans ?_
    rw [window, hi, hw n]
    rfl

theorem iterate_slide (hw : Recurs w) (n k : ℕ) : slide^[k] (window w n) = window w (n + k) := by
  induction k generalizing n with
  | zero => rfl
  | succ k ih =>
    rw [Function.iterate_succ_apply, slide_window hw, ih, Nat.add_assoc, Nat.add_comm 1]

/-- **Nothing but zeroes goes on as it was.** -/
theorem slide_fixedPointFree : FixedPointFree slide := by
  intro v hv
  have hnext : ∀ i, ∀ h : i + 1 < N, v ⟨i + 1, h⟩ = v ⟨i, Nat.lt_of_succ_lt h⟩ := fun i h =>
    (slideFun_of_lt v h).symm.trans (congrFun hv _)
  -- all words are the same
  have hall : ∀ i, ∀ h : i < N, v ⟨i, h⟩ = v ⟨0, by decide⟩ := by
    intro i
    induction i with
    | zero => exact fun _ => rfl
    | succ i ih => exact fun h => (hnext i h).trans (ih _)
  have hlast : behind v = v ⟨N - 1, by decide⟩ :=
    (slideFun_last v (by decide : ¬ N - 1 + 1 < N)).symm.trans (congrFun hv _)
  rw [behind, hall M, hall 1, hall (N - 1), mul_eq_left] at hlast
  funext i
  exact (hall i.1 i.2).trans (eq_zero_of_twist hlast)

/-- The upper bit of the number of a word. -/
def upperBit : Window →* XorWord :=
  MonoidHom.mk' (fun v => (temper (v ⟨0, by decide⟩) &&& UPPER_MASK : BitVec 32)) <| by
    intro u v
    have h := temper_xor (u ⟨0, by decide⟩) (v ⟨0, by decide⟩)
    exact (congrArg (fun x : BitVec 32 => x &&& UPPER_MASK) h).trans (and_xor _ _ _)

theorem and_upper (hx : 0x80000000#32 ≤ x) : x &&& UPPER_MASK = UPPER_MASK := by
  have hmsb : x.msb = true := by
    rw [BitVec.msb_eq_decide, decide_eq_true_iff]
    exact hx
  have hlow : ∀ i < 31, UPPER_MASK.getLsbD i = false := by decide
  refine BitVec.eq_of_getLsbD_eq fun i hi => ?_
  rw [BitVec.getLsbD_and]
  rcases Nat.lt_or_ge i 31 with hlt | hge
  · rw [hlow i hlt, Bool.and_false]
  · obtain rfl : i = 31 := by omega
    rw [show x.getLsbD 31 = x.msb from (BitVec.msb_eq_getLsbD_last x).symm, hmsb, Bool.true_and]

/-- **Some number to come is below half of all.** -/
theorem exists_small (hw : Recurs w) (n : ℕ) : ∃ k, temper (w (n + k)) < 0x80000000#32 := by
  by_contra hbig
  have hstays : ∀ k : ℕ, upperBit (slide^[k] (window w n)) = (UPPER_MASK : BitVec 32) := by
    intro k
    rw [iterate_slide hw]
    exact and_upper (BitVec.not_lt.1 fun h => hbig ⟨k, h⟩)
  have hone : UPPER_MASK = 0#32 := eq_one_of_stays slide slide_fixedPointFree upperBit hstays
  exact absurd hone (by decide)

/-! ## The words that are not rejected -/

/-- A generator comes to a word that is not rejected. -/
theorem Made.wordUpTo (hw : Recurs w) {self : MowgliRandom} (h : Made w n self) {k : ℕ} (hk : temper (w (n + k)) ≤ max) :
    ∃ ret self', ret ≤ max ∧ ∀ fuel, k < fuel → MowgliRandom.wordUpTo max fuel self = some (ret, self') := by
  induction k generalizing n self with
  | zero =>
    obtain ⟨self', hint, -⟩ := h.int hw
    refine ⟨temper (w n), self', hk, fun fuel hf => ?_⟩
    obtain ⟨fuel, rfl⟩ : ∃ f, fuel = f + 1 := ⟨fuel - 1, by omega⟩
    have hmax : ¬ max < temper (w n) := BitVec.not_lt.2 hk
    simp [MowgliRandom.wordUpTo, hint, hmax]
  | succ k ih =>
    obtain ⟨self₁, hint, h₁⟩ := h.int hw
    by_cases hmax : max < temper (w n)
    · obtain ⟨ret, self', hret, hrun⟩ := ih h₁ (by rwa [show n + 1 + k = n + (k + 1) by omega])
      refine ⟨ret, self', hret, fun fuel hf => ?_⟩
      obtain ⟨fuel, rfl⟩ : ∃ f, fuel = f + 1 := ⟨fuel - 1, by omega⟩
      simp [MowgliRandom.wordUpTo, hint, hmax, hrun fuel (by omega)]
    · refine ⟨temper (w n), self₁, BitVec.not_lt.1 hmax, fun fuel hf => ?_⟩
      obtain ⟨fuel, rfl⟩ : ∃ f, fuel = f + 1 := ⟨fuel - 1, by omega⟩
      simp [MowgliRandom.wordUpTo, hint, hmax]

/-- What is left over of all words, where the range is at most half of them. -/
theorem remain_spec {d r : ℕ} (hd : 0 < d) (hr : r = 2147483648 % d * 2) :
    ∃ q, 4294967296 = q * d + if d ≤ r then r - d else r := by
  have hdiv := Nat.div_add_mod 2147483648 d
  have hlt := Nat.mod_lt 2147483648 hd
  by_cases h : d ≤ r
  · refine ⟨2147483648 / d * 2 + 1, ?_⟩
    rw [if_pos h, Nat.add_mul, Nat.mul_right_comm, Nat.mul_comm _ d, Nat.one_mul]
    omega
  · refine ⟨2147483648 / d * 2, ?_⟩
    rw [if_neg h, Nat.mul_right_comm, Nat.mul_comm _ d]
    omega

/-- **The words that are not rejected** are some multiple of the range, and at
least half of all words. -/
theorem maxWord_spec {d : BitVec 32} (hd : d ≠ 0#32) :
    ∃ q, (MowgliRandom.maxWord d).toNat + 1 = q * d.toNat ∧ 2147483648 ≤ (MowgliRandom.maxWord d).toNat + 1 := by
  have hpos : 0 < d.toNat := Nat.pos_of_ne_zero fun h => hd (BitVec.eq_of_toNat_eq h)
  have hbound := d.isLt
  unfold MowgliRandom.maxWord
  by_cases hle : d ≤ 0x80000000#32
  · have hle' : d.toNat ≤ 2147483648 := hle
    have hmod := Nat.mod_lt 2147483648 hpos
    have hr : (0x80000000#32 % d * 2#32).toNat = 2147483648 % d.toNat * 2 := by
      rw [BitVec.toNat_mul, BitVec.toNat_umod]
      exact Nat.mod_eq_of_lt (by change 2147483648 % d.toNat * 2 < 4294967296; omega)
    obtain ⟨q, hq⟩ := remain_spec hpos hr
    rw [if_pos hle]
    generalize 0x80000000#32 % d * 2#32 = r at hr hq
    have hremain : (if d ≤ r then r - d else r).toNat = if d.toNat ≤ r.toNat then r.toNat - d.toNat else r.toNat := by
      by_cases h : d ≤ r
      · rw [if_pos h, if_pos (BitVec.le_def.1 h), BitVec.toNat_sub_of_le h]
      · rw [if_neg h, if_neg fun hle => h (BitVec.le_def.2 hle)]
    rw [← hremain] at hq
    have hlt : (if d ≤ r then r - d else r).toNat < d.toNat := by
      rw [hremain]
      split_ifs <;> omega
    dsimp only
    rw [BitVec.toNat_sub_of_le (BitVec.le_def.2 (by change _ ≤ 4294967295; omega))]
    exact ⟨q, by change 4294967295 - _ + 1 = _; omega, by change _ ≤ 4294967295 - _ + 1; omega⟩
  · have hlt : 2147483648 < d.toNat := Nat.lt_of_not_le hle
    rw [if_neg hle, BitVec.toNat_sub_of_le (BitVec.le_def.2 (by change 1 ≤ _; omega))]
    exact ⟨1, by change d.toNat - 1 + 1 = _; omega, by change _ ≤ d.toNat - 1 + 1; omega⟩

/-! ## The numbers of the range -/

variable {begin end' v : ℤ}

/-- How many numbers there are. -/
theorem dist_toNat (hb : -2147483648 ≤ begin) (h : begin < end') (he : end' ≤ 2147483647) :
    ((MowgliRandom.dist begin end').toNat : ℤ) = end' - begin := by
  rw [MowgliRandom.dist, BitVec.toNat_ofInt]
  omega

/-- A word is one of the range. -/
theorem place_eq (hb : -2147483648 ≤ begin) (h : begin < end') (he : end' ≤ 2147483647) (ret : BitVec 32) :
    MowgliRandom.place begin end' ret = begin + (ret.toNat % (MowgliRandom.dist begin end').toNat : ℕ) := by
  have hdist := dist_toNat hb h he
  have hmod := Nat.mod_lt ret.toNat (by omega : 0 < (MowgliRandom.dist begin end').toNat)
  rw [MowgliRandom.place, BitVec.toInt_eq_toNat_bmod, BitVec.toNat_add, BitVec.toNat_ofInt, BitVec.toNat_umod]
  generalize ret.toNat % (MowgliRandom.dist begin end').toNat = m at hmod
  rw [Int.bmod_def]
  split_ifs <;> omega

theorem place_range (hb : -2147483648 ≤ begin) (h : begin < end') (he : end' ≤ 2147483647) (ret : BitVec 32) :
    begin ≤ MowgliRandom.place begin end' ret ∧ MowgliRandom.place begin end' ret < end' := by
  have hdist := dist_toNat hb h he
  have hmod := Nat.mod_lt ret.toNat (by omega : 0 < (MowgliRandom.dist begin end').toNat)
  rw [place_eq hb h he]
  omega

/-- The words that are not rejected. -/
def accepted (begin end' : ℤ) : Finset ℕ :=
  (Finset.range 4294967296).filter fun x => BitVec.ofNat 32 x ≤ MowgliRandom.maxWord (MowgliRandom.dist begin end')

theorem accepted_eq (begin end' : ℤ) :
    accepted begin end' = Finset.range ((MowgliRandom.maxWord (MowgliRandom.dist begin end')).toNat + 1) := by
  have hmax := (MowgliRandom.maxWord (MowgliRandom.dist begin end')).isLt
  ext x
  rw [accepted, Finset.mem_filter, Finset.mem_range, Finset.mem_range, BitVec.le_def, BitVec.toNat_ofNat]
  omega

end Random

end Mowgli
