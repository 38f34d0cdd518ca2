import Mathlib.Data.List.TakeDrop
import Mowgli.Base.C
/-!
# Blocks of bytes

What `malloc` gave, as the list of its bytes. A copy into a block, or out
of it, that goes past its end is undefined.
-/

namespace Mowgli

/-- `strchr(s, c) != NULL`: the terminator is found as well. -/
def CString.strchr (s : CString) (c : UInt8) : Bool := s.bytes.contains c || c == 0

namespace Bytes

/-- `memcpy(block + i, data, n)`, of the `n` bytes `data`. -/
def store (block : List UInt8) (i : ℕ) (data : List UInt8) : Option (List UInt8) :=
  if i + data.length ≤ block.length then some (block.take i ++ data ++ block.drop (i + data.length)) else none

/-- The `n` bytes at `block + i`. -/
def load (block : List UInt8) (i n : ℕ) : Option (List UInt8) :=
  if i + n ≤ block.length then some ((block.drop i).take n) else none

variable {block block' data : List UInt8} {i n : ℕ}

theorem exists_store (block : List UInt8) (i : ℕ) (data : List UInt8) (h : i + data.length ≤ block.length) : ∃ block', store block i data = some block' :=
  ⟨_, if_pos h⟩

theorem load_of_le (h : i + n ≤ block.length) : load block i n = some ((block.drop i).take n) := if_pos h

theorem store_eq_some (h : store block i data = some block') :
    i + data.length ≤ block.length ∧ block' = block.take i ++ data ++ block.drop (i + data.length) := by
  unfold store at h
  split_ifs at h with hle
  exact ⟨hle, (Option.some.inj h).symm⟩

/-- A block keeps its length. -/
theorem length_of_store (h : store block i data = some block') : block'.length = block.length := by
  obtain ⟨hle, rfl⟩ := store_eq_some h
  simp only [List.length_append, List.length_take, List.length_drop]
  omega

/-- What is in the block up to the end of what was stored. -/
theorem take_of_store (h : store block i data = some block') :
    block'.take (i + data.length) = block.take i ++ data := by
  obtain ⟨hle, rfl⟩ := store_eq_some h
  refine List.take_left' ?_
  rw [List.length_append, List.length_take, min_eq_left (by omega)]

/-- What is in it after that. -/
theorem drop_of_store (h : store block i data = some block') :
    block'.drop (i + data.length) = block.drop (i + data.length) := by
  obtain ⟨hle, rfl⟩ := store_eq_some h
  refine List.drop_left' ?_
  rw [List.length_append, List.length_take, min_eq_left (by omega)]

theorem getElem?_store (h : store block i data = some block') (j : ℕ) :
    block'[j]? = if i ≤ j ∧ j < i + data.length then data[j - i]? else block[j]? := by
  obtain ⟨hle, rfl⟩ := store_eq_some h
  have htake : (block.take i).length = i := by
    rw [List.length_take]
    omega
  rw [List.append_assoc]
  split_ifs with hj
  · rw [List.getElem?_append_right (by omega), htake, List.getElem?_append_left (by omega)]
  · rcases Nat.lt_or_ge j i with hlt | hge
    · rw [List.getElem?_append_left (by omega), List.getElem?_take, if_pos hlt]
    · rw [List.getElem?_append_right (by omega), htake, List.getElem?_append_right (by omega), List.getElem?_drop]
      congr 1
      omega

end Bytes

end Mowgli
