import Mathlib.Data.List.Basic
import Mowgli.Base.C
/-!
# The random numbers, as `base/random.c` has them

An `unsigned int` is a bit vector of 32 bits and an `unsigned long` one of
64. A read or a write past the end of `mt` answers `none`.
-/

namespace Mowgli

namespace Random

/-- `N`. -/
def N : ℕ := 624

/-- `M`. -/
def M : ℕ := 397

/-- `MATRIX_A`. -/
def MATRIX_A : BitVec 32 := 0x9908b0df#32

/-- `UPPER_MASK`. -/
def UPPER_MASK : BitVec 32 := 0x80000000#32

/-- `LOWER_MASK`. -/
def LOWER_MASK : BitVec 32 := 0x7fffffff#32

/-- `mag01[y & 0x1U]`. -/
def mag01 (y : BitVec 32) : BitVec 32 := if y &&& 1#32 = 0#32 then 0#32 else MATRIX_A

/-- `mt[i] = x`. -/
def store (mt : Vector (BitVec 32) N) (i : ℕ) (x : BitVec 32) : Option (Vector (BitVec 32) N) :=
  if h : i < N then some (mt.set i x h) else none

/-- `mowgli_random_reseed`: the body of the loop. What is assigned to an
element of `mt` keeps its lower 32 bits. -/
def seedWord (mt : Vector (BitVec 32) N) (mti : ℕ) : Option (Vector (BitVec 32) N) := do
  let x ← mt[mti - 1]?
  let y : BitVec 64 := 1812433253#64 * (x ^^^ x >>> 30).setWidth 64 + BitVec.ofNat 64 mti
  store mt mti (y.setWidth 32)

/-- `mowgli_random_int`: an element of `mt` becomes the one `N` words on in the
sequence, with those at `next` and `far`. -/
def twistWord (next far : ℕ → ℕ) (mt : Vector (BitVec 32) N) (t : ℕ) : Option (Vector (BitVec 32) N) := do
  let x ← mt[t]?
  let x' ← mt[next t]?
  let y := x &&& UPPER_MASK ||| x' &&& LOWER_MASK
  let z ← mt[far t]?
  store mt t (z ^^^ y >>> 1 ^^^ mag01 y)

/-- `mowgli_random_int`: the next `N` words. -/
def regenerate (mt : Vector (BitVec 32) N) : Option (Vector (BitVec 32) N) := do
  let mt ← (List.range' 0 (N - M)).foldlM (twistWord (· + 1) (· + M)) mt
  let mt ← (List.range' (N - M) (M - 1)).foldlM (twistWord (· + 1) (· - (N - M))) mt
  twistWord (fun _ => 0) (fun _ => M - 1) mt (N - 1)

/-- `mowgli_random_int`: tempering. -/
def temper (y : BitVec 32) : BitVec 32 :=
  let y := y ^^^ y >>> 11
  let y := y ^^^ y <<< 7 &&& 0x9d2c5680#32
  let y := y ^^^ y <<< 15 &&& 0xefc60000#32
  y ^^^ y >>> 18

end Random

open Mowgli.Random

/-- `mowgli_random_t`. -/
structure MowgliRandom where
  mt : Vector (BitVec 32) N
  mti : ℕ

namespace MowgliRandom

/-- `mowgli_random_reseed`. -/
def reseed (self : MowgliRandom) (seed : BitVec 32) : Option MowgliRandom := do
  let mt ← store self.mt 0 seed
  let mt ← (List.range' 1 (N - 1)).foldlM seedWord mt
  some ⟨mt, N⟩

/-- `mowgli_random_create_with_seed`. -/
def createWithSeed (seed : BitVec 32) : Option MowgliRandom := reseed ⟨Vector.replicate N 0#32, 0⟩ seed

/-- `mowgli_random_int`. -/
def int (self : MowgliRandom) : Option (BitVec 32 × MowgliRandom) := do
  let self ← if N ≤ self.mti then (regenerate self.mt).map fun mt => ⟨mt, 0⟩ else some self
  let y ← self.mt[self.mti]?
  some (temper y, { self with mti := self.mti + 1 })

/-- Some calls of `mowgli_random_int`. -/
def ints : ℕ → MowgliRandom → Option (List (BitVec 32) × MowgliRandom)
  | 0, self => some ([], self)
  | n + 1, self => do
    let (x, self) ← self.int
    let (xs, self) ← ints n self
    some (x :: xs, self)

/-- `mowgli_random_int_ranged`: the largest word that is not rejected. -/
def maxWord (dist : BitVec 32) : BitVec 32 :=
  if dist ≤ 0x80000000#32 then
    let remain := 0x80000000#32 % dist * 2#32
    let remain := if dist ≤ remain then remain - dist else remain
    0xFFFFFFFF#32 - remain
  else dist - 1#32

/-- `mowgli_random_int_ranged`: the loop. -/
def wordUpTo (max : BitVec 32) : ℕ → MowgliRandom → Option (BitVec 32 × MowgliRandom)
  | 0, _ => none
  | fuel + 1, self => do
    let (ret, self) ← self.int
    if max < ret then wordUpTo max fuel self else some (ret, self)

/-- `unsigned int dist = end - begin`. -/
def dist (begin end' : ℤ) : BitVec 32 := BitVec.ofInt 32 (end' - begin)

/-- `ret %= dist; return begin + ret`. -/
def place (begin end' : ℤ) (ret : BitVec 32) : ℤ := (BitVec.ofInt 32 begin + ret % dist begin end').toInt

/-- `mowgli_random_int_ranged`. -/
def intRanged (fuel : ℕ) (self : MowgliRandom) (begin end' : ℤ) : Option (ℤ × MowgliRandom) := do
  let (ret, self) ← wordUpTo (maxWord (dist begin end')) fuel self
  some (place begin end' ret, self)

end MowgliRandom

end Mowgli
