import Mowgli.Base.Random
import Mowgli.Library.MersenneTwister
/-!
# The numbers are those of the Mersenne Twister

`mt` holds `N` words of the sequence. It is overwritten from the front, so in
between what is behind is `N` words on from what is ahead, and each word that
is looked up is there as it is needed.
-/

namespace Mowgli

namespace Random

open MersenneTwister

/-! ## Words -/

/-- What a word adds to the one `M` words on: the upper bit of the word and the
lower ones of its successor are shifted, and reduced. -/
def twist (x x' : BitVec 32) : BitVec 32 :=
  let y := x &&& UPPER_MASK ||| x' &&& LOWER_MASK
  y >>> 1 ^^^ mag01 y

/-- What is masked out of two words. -/
theorem masked_eq (x x' : BitVec 32) : x &&& UPPER_MASK ||| x' &&& LOWER_MASK = joined x x' := by
  have hupper : ∀ i < 32, UPPER_MASK.getLsbD i = !decide (i < 31) := by decide
  have hlower : ∀ i < 32, LOWER_MASK.getLsbD i = decide (i < 31) := by decide
  refine BitVec.eq_of_getLsbD_eq fun i hi => ?_
  rw [BitVec.getLsbD_or, BitVec.getLsbD_and, BitVec.getLsbD_and, hupper i hi, hlower i hi, getLsbD_joined x x' hi]
  split_ifs with h <;> simp [h]

/-- The multiplication by a table. -/
theorem shifted_eq (x : BitVec 32) : x >>> 1 ^^^ mag01 x = timesMatrix x := by
  have hbit : x &&& 1#32 = 0#32 ↔ x.getLsbD 0 = false := by
    rw [BitVec.and_one_eq_setWidth_ofBool_getLsbD]
    cases x.getLsbD 0 <;> decide
  rw [mag01, timesMatrix]
  by_cases h : x.getLsbD 0
  · rw [if_neg fun hx => absurd (hbit.1 hx) (by simp [h]), if_pos h]
    rfl
  · rw [if_pos (hbit.2 (by simpa using h)), if_neg h, BitVec.xor_zero]

theorem twist_eq (x x' : BitVec 32) : twist x x' = timesMatrix (joined x x') := by
  rw [← masked_eq, ← shifted_eq]
  rfl

theorem temper_eq (x : BitVec 32) : temper x = tempered x := rfl

/-! ## The block -/

variable {w : ℕ → BitVec 32} {mt : Vector (BitVec 32) N} {b t next far n : ℕ} {seed : BitVec 32}

/-- What the words obey. -/
def Recurs (w : ℕ → BitVec 32) : Prop := ∀ k, w (k + N) = w (k + M) ^^^ twist (w k) (w (k + 1))

theorem recurs_sequence (init : ℕ → BitVec 32) : Recurs (sequence init) := by
  intro k
  rw [twist_eq]
  exact sequence_add init k

/-- `mt` has the words from `b` on, those in front of `t` being `N` words on. -/
def Mixed (w : ℕ → BitVec 32) (b t : ℕ) (mt : Vector (BitVec 32) N) : Prop :=
  ∀ i < N, mt[i]? = some (w (if i < t then b + N + i else b + i))

theorem Mixed.behind {i k : ℕ} (h : Mixed w b t mt) (hi : i < t) (hN : i < N) (hk : b + N + i = k) :
    mt[i]? = some (w k) := by
  rw [h i hN, if_pos hi, hk]

theorem Mixed.ahead {i k : ℕ} (h : Mixed w b t mt) (hi : t ≤ i) (hN : i < N) (hk : b + i = k) :
    mt[i]? = some (w k) := by
  rw [h i hN, if_neg (by omega), hk]

/-- The words that are all ahead, and those that are all behind. -/
theorem mixed_turn : Mixed w b N mt ↔ Mixed w (b + N) 0 mt := by
  constructor
  · intro h
    exact fun i hi => by rw [h.behind hi hi rfl, if_neg (by omega)]
  · intro h
    exact fun i hi => by rw [h.ahead (by omega) hi rfl, if_pos hi]

theorem store_of_lt {i : ℕ} (h : i < N) (x : BitVec 32) : store mt i x = some (mt.set i x h) := dif_pos h

/-- **A word is overwritten** with the one `N` words on. -/
theorem Mixed.twistWord (hw : Recurs w) (h : Mixed w b t mt) (ht : t < N) (next far : ℕ → ℕ)
    (hnext : mt[next t]? = some (w (b + t + 1))) (hfar : mt[far t]? = some (w (b + t + M))) :
    ∃ mt', twistWord next far mt t = some mt' ∧ Mixed w b (t + 1) mt' := by
  have hnew : w (b + N + t) = w (b + t + M) ^^^ twist (w (b + t)) (w (b + t + 1)) := by
    rw [← hw (b + t)]
    congr 1
    omega
  refine ⟨mt.set t (w (b + N + t)) ht, ?_, fun i hi => ?_⟩
  · simp only [Random.twistWord, h.ahead le_rfl ht rfl, hnext, hfar, Option.bind_eq_bind, Option.bind_some]
    rw [store_of_lt ht, hnew, twist, BitVec.xor_assoc]
  · by_cases hit : i = t
    · rw [hit, Vector.getElem?_set_self ht, if_pos (Nat.lt_succ_self t)]
    · rw [Vector.getElem?_set_ne _ (Ne.symm hit), h i hi]
      split_ifs
      all_goals first
        | rfl
        | omega

/-- A loop over words that are there when they are needed. -/
theorem Mixed.loop (hw : Recurs w) (next far : ℕ → ℕ) (h : Mixed w b t mt) (ht : t + n ≤ N)
    (hthere : ∀ i mt, t ≤ i → i < t + n → Mixed w b i mt →
      mt[next i]? = some (w (b + i + 1)) ∧ mt[far i]? = some (w (b + i + M))) :
    ∃ mt', (List.range' t n).foldlM (Random.twistWord next far) mt = some mt' ∧ Mixed w b (t + n) mt' := by
  induction n generalizing t mt with
  | zero => exact ⟨mt, rfl, h⟩
  | succ n ih =>
    obtain ⟨hnext, hfar⟩ := hthere t mt le_rfl (by omega) h
    obtain ⟨mt₁, hmt₁, h₁⟩ := h.twistWord hw (by omega) next far hnext hfar
    obtain ⟨mt', hmt', h'⟩ := ih h₁ (by omega) fun i mt hi hin => hthere i mt (by omega) (by omega)
    refine ⟨mt', ?_, ?_⟩
    · rw [List.range'_succ, List.foldlM_cons, hmt₁]
      exact hmt'
    · rwa [show t + (n + 1) = t + 1 + n by omega]

/-- **The next `N` words.** -/
theorem Mixed.regenerate (hw : Recurs w) (h : Mixed w b 0 mt) :
    ∃ mt', regenerate mt = some mt' ∧ Mixed w (b + N) 0 mt' := by
  have hN : N = 624 := rfl
  have hM : M = 397 := rfl
  -- the words at the distance `M` are ahead, and then they are behind
  obtain ⟨mt₁, hmt₁, h₁⟩ := h.loop hw (· + 1) (· + M) (by omega : 0 + (N - M) ≤ N) fun i mt _ hi hm =>
    ⟨hm.ahead (Nat.le_succ i) (by omega) (by omega), hm.ahead (Nat.le_add_right i M) (by omega) (by omega)⟩
  obtain ⟨mt₂, hmt₂, h₂⟩ := h₁.loop hw (· + 1) (· - (N - M)) (by omega : 0 + (N - M) + (M - 1) ≤ N) fun i mt hge hi hm =>
    ⟨hm.ahead (Nat.le_succ i) (by omega) (by omega), hm.behind (by omega) (by omega) (by omega)⟩
  rw [show 0 + (N - M) + (M - 1) = N - 1 by omega] at h₂
  obtain ⟨mt₃, hmt₃, h₃⟩ := h₂.twistWord hw (by omega) (fun _ => 0) (fun _ => M - 1)
    (h₂.behind (by omega) (by omega) (by omega)) (h₂.behind (by omega) (by omega) (by omega))
  refine ⟨mt₃, ?_, mixed_turn.1 h₃⟩
  rw [Nat.zero_add] at hmt₂
  simp only [Random.regenerate, hmt₁, hmt₂, Option.bind_eq_bind, Option.bind_some]
  exact hmt₃

/-! ## The numbers -/

/-- A generator whose next number is the word `n` of the sequence `w`. -/
def Made (w : ℕ → BitVec 32) (n : ℕ) (self : MowgliRandom) : Prop := ∃ b, Mixed w b 0 self.mt ∧ b + min self.mti N = n

/-- Any generator goes on with some sequence. -/
theorem exists_made (self : MowgliRandom) : ∃ w n, Recurs w ∧ Made w n self := by
  refine ⟨sequence fun i => self.mt[i]?.getD 0#32, min self.mti N, recurs_sequence _, 0, fun i hi => ?_, Nat.zero_add _⟩
  rw [if_neg (Nat.not_lt_zero i), Nat.zero_add, sequence_of_lt hi, Vector.getElem?_eq_getElem hi, Option.getD_some]

/-- **The next number** is the next word, tempered. -/
theorem Made.int (hw : Recurs w) {self : MowgliRandom} (h : Made w n self) :
    ∃ self', self.int = some (temper (w n), self') ∧ Made w (n + 1) self' := by
  obtain ⟨b, hb, hn⟩ := h
  by_cases hfull : N ≤ self.mti
  · obtain ⟨mt, hmt, hb'⟩ := hb.regenerate hw
    have hget := hb'.ahead (Nat.zero_le 0) (by decide) (by omega : b + N + 0 = n)
    refine ⟨⟨mt, 1⟩, ?_, b + N, hb', ?_⟩
    · simp [MowgliRandom.int, hfull, hmt, hget]
    · rw [min_eq_left (by decide : 1 ≤ N)]
      omega
  · have hget := hb.ahead (Nat.zero_le self.mti) (not_le.1 hfull) (by omega : b + self.mti = n)
    refine ⟨{ self with mti := self.mti + 1 }, ?_, b, hb, ?_⟩
    · simp [MowgliRandom.int, hfull, hget]
    · simp only
      omega

/-- The numbers from the word `n` on. -/
theorem Made.ints (hw : Recurs w) {self : MowgliRandom} (h : Made w n self) (k : ℕ) :
    ∃ self', self.ints k = some ((List.range' n k).map fun i => temper (w i), self') ∧ Made w (n + k) self' := by
  induction k generalizing n self with
  | zero => exact ⟨self, rfl, h⟩
  | succ k ih =>
    obtain ⟨self₁, hint, h₁⟩ := h.int hw
    obtain ⟨self', hints, h'⟩ := ih h₁
    refine ⟨self', ?_, ?_⟩
    · simp only [MowgliRandom.ints, hint, hints, Option.bind_eq_bind, Option.bind_some, List.range'_succ, List.map_cons]
    · rwa [show n + (k + 1) = n + 1 + k by omega]

/-! ## Seeding -/

/-- The product that is taken in 64 bits. -/
theorem seedWord_trunc (x : BitVec 32) (i : ℕ) :
    (1812433253#64 * (x ^^^ x >>> 30).setWidth 64 + BitVec.ofNat 64 i).setWidth 32 =
      1812433253#32 * (x ^^^ x >>> 30) + BitVec.ofNat 32 i := by
  have hword : ((x ^^^ x >>> 30).setWidth 64).setWidth 32 = x ^^^ x >>> 30 :=
    BitVec.setWidth_setWidth_of_le _ (by decide)
  rw [BitVec.setWidth_add _ _ (by decide), BitVec.setWidth_mul _ _ (by decide), hword,
    BitVec.setWidth_ofNat_of_le (by decide) i, BitVec.setWidth_ofNat_of_le (by decide) 1812433253]

/-- The words of the seed are there up to `t`. -/
def Seeded (seed : BitVec 32) (t : ℕ) (mt : Vector (BitVec 32) N) : Prop :=
  ∀ i < t, mt[i]? = some (seedWords seed i)

theorem Seeded.seedWord (h : Seeded seed (t + 1) mt) (ht : t + 1 < N) :
    ∃ mt', seedWord mt (t + 1) = some mt' ∧ Seeded seed (t + 2) mt' := by
  refine ⟨mt.set (t + 1) (seedWords seed (t + 1)) ht, ?_, fun i hi => ?_⟩
  · simp only [Random.seedWord, Nat.add_sub_cancel, h t (Nat.lt_succ_self t), Option.bind_eq_bind,
      Option.bind_some, seedWord_trunc, store_of_lt ht, seedWords]
  · by_cases hit : i = t + 1
    · rw [hit, Vector.getElem?_set_self ht]
    · rw [Vector.getElem?_set_ne _ (Ne.symm hit), h i (by omega)]

theorem Seeded.loop (h : Seeded seed (t + 1) mt) (ht : t + 1 + n ≤ N) :
    ∃ mt', (List.range' (t + 1) n).foldlM Random.seedWord mt = some mt' ∧ Seeded seed (t + 1 + n) mt' := by
  induction n generalizing t mt with
  | zero => exact ⟨mt, rfl, h⟩
  | succ n ih =>
    obtain ⟨mt₁, hmt₁, h₁⟩ := h.seedWord (by omega)
    obtain ⟨mt', hmt', h'⟩ := ih h₁ (by omega)
    refine ⟨mt', ?_, ?_⟩
    · rw [List.range'_succ, List.foldlM_cons, hmt₁]
      exact hmt'
    · rwa [show t + 1 + (n + 1) = t + 1 + 1 + n by omega]

/-- **Seeding.** -/
theorem reseed_made (self : MowgliRandom) (seed : BitVec 32) :
    ∃ self', self.reseed seed = some self' ∧ Made (sequence (seedWords seed)) N self' := by
  have hN : 0 < N := by decide
  have h₀ : Seeded seed (0 + 1) (self.mt.set 0 seed hN) := by
    intro i hi
    obtain rfl : i = 0 := by omega
    rw [Vector.getElem?_set_self hN, seedWords]
  obtain ⟨mt, hmt, h⟩ := h₀.loop (by decide : 0 + 1 + (N - 1) ≤ N)
  refine ⟨⟨mt, N⟩, ?_, 0, fun i hi => ?_, rfl⟩
  · simp only [MowgliRandom.reseed, store_of_lt hN, Option.bind_eq_bind, Option.bind_some]
    rw [show List.range' 1 (N - 1) = List.range' (0 + 1) (N - 1) from rfl, hmt, Option.bind_some]
  · rw [if_neg (Nat.not_lt_zero i), Nat.zero_add, sequence_of_lt hi]
    exact h i hi

/-- **The numbers are those of the Mersenne Twister**: whatever the generator
was, after `mowgli_random_reseed` it makes the outputs of the seed, as many as
are asked for. -/
theorem ints_reference (self : MowgliRandom) (seed : BitVec 32) (n : ℕ) :
    ((self.reseed seed).bind (MowgliRandom.ints n)).map Prod.fst =
      some ((List.range n).map (MersenneTwister.output seed)) := by
  obtain ⟨self₀, hseed, h⟩ := reseed_made self seed
  obtain ⟨self', hints, -⟩ := h.ints (recurs_sequence _) n
  rw [hseed, Option.bind_some, hints, Option.map_some, List.range'_eq_map_range, List.map_map]
  refine congrArg some (List.map_congr_left fun i _ => ?_)
  rw [Function.comp_apply, temper_eq, Nat.add_comm]
  rfl

end Random

end Mowgli
