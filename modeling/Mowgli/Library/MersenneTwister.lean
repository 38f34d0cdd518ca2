import Mathlib.Data.List.Basic
/-!
# The Mersenne Twister MT19937

Its words are a sequence: the first 624 come from a seed, and each later one
from three words before it. What it puts out are the words behind the first 624,
tempered.
-/

namespace Mowgli

namespace MersenneTwister

/-- The upper bit of `x`, and the lower ones of `x'`. -/
def joined (x x' : BitVec 32) : BitVec 32 := x.extractLsb' 31 1 ++ x'.extractLsb' 0 31

/-- The matrix of the twist, in its rational normal form. -/
def timesMatrix (x : BitVec 32) : BitVec 32 := if x.getLsbD 0 then x >>> 1 ^^^ 0x9908b0df#32 else x >>> 1

/-- The sequence with the first 624 words `init`. -/
def sequence (init : ℕ → BitVec 32) (k : ℕ) : BitVec 32 :=
  if k < 624 then init k
  else sequence init (k - 624 + 397) ^^^ timesMatrix (joined (sequence init (k - 624)) (sequence init (k - 624 + 1)))
  termination_by k
  decreasing_by all_goals omega

variable {init : ℕ → BitVec 32} {k : ℕ}

theorem sequence_of_lt (h : k < 624) : sequence init k = init k := by
  rw [sequence, if_pos h]

/-- The recurrence. -/
theorem sequence_add (init : ℕ → BitVec 32) (k : ℕ) : sequence init (k + 624) =
    sequence init (k + 397) ^^^ timesMatrix (joined (sequence init k) (sequence init (k + 1))) := by
  rw [sequence, if_neg (by omega), Nat.add_sub_cancel]

/-- The words of a seed. -/
def seedWords (seed : BitVec 32) : ℕ → BitVec 32
  | 0 => seed
  | k + 1 => 1812433253#32 * (seedWords seed k ^^^ seedWords seed k >>> 30) + BitVec.ofNat 32 (k + 1)

/-- Tempering. -/
def tempered (x : BitVec 32) : BitVec 32 :=
  let x := x ^^^ x >>> 11
  let x := x ^^^ (x <<< 7 &&& 0x9d2c5680#32)
  let x := x ^^^ (x <<< 15 &&& 0xefc60000#32)
  x ^^^ x >>> 18

/-- The outputs of a seed. -/
def output (seed : BitVec 32) (n : ℕ) : BitVec 32 := tempered (sequence (seedWords seed) (n + 624))

/-- The first output that is published for the usual seed. -/
example : output 5489#32 0 = 3499211612#32 := by
  rw [output, sequence_add, sequence_of_lt (by decide), sequence_of_lt (by decide), sequence_of_lt (by decide)]
  decide +kernel

theorem getLsbD_joined {i : ℕ} (x x' : BitVec 32) (hi : i < 32) :
    (joined x x').getLsbD i = if i < 31 then x'.getLsbD i else x.getLsbD i := by
  rw [joined, BitVec.getLsbD_append]
  split_ifs with h
  · simp [h]
  · simp [show i = 31 by omega]

end MersenneTwister

end Mowgli
