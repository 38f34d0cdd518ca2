import Mathlib.Data.List.TakeWhile
import Mowgli.Base.C
/-!
# Growing strings, as `core/mowgli_string.c` has them

The buffer of a `mowgli_string_t` is its bytes with a NUL after them, and
zeroes after that as far as it was just allocated. When it grows, what it
holds is copied with `mowgli_strlcpy`, which stops at the first NUL.
-/

namespace Mowgli

/-- `mowgli_string_t`: `str` up to `pos`. -/
structure MowgliString where
  bytes : List UInt8
  size : ℕ
  deriving DecidableEq

namespace MowgliString

/-- `pos`. -/
def pos (s : MowgliString) : ℕ := s.bytes.length

/-- `mowgli_string_create`. -/
def create : MowgliString := ⟨[], 64⟩

/-- `mowgli_string_reset`. -/
def reset (s : MowgliString) : MowgliString := { s with bytes := [] }

/-- `str`, read as a string: up to the first NUL. -/
def str (s : MowgliString) : List UInt8 := s.bytes.takeWhile (· ≠ 0)

/-- What a new buffer holds of the old one. -/
def copied (s : MowgliString) : List UInt8 := s.str ++ List.replicate (s.pos - s.str.length) 0

/-- `mowgli_string_append_char`. -/
def appendChar (s : MowgliString) (c : UInt8) : MowgliString :=
  if s.size - s.pos ≤ 1 then ⟨s.copied ++ [c], max (s.size * 2) (s.pos + 9)⟩
  else { s with bytes := s.bytes ++ [c] }

/-- `mowgli_string_append`. -/
def append (s : MowgliString) (src : List UInt8) : MowgliString :=
  if s.size - s.pos ≤ src.length then ⟨s.copied ++ src, max (s.size * 2) (s.pos + src.length + 8)⟩
  else { s with bytes := s.bytes ++ src }

theorem str_of_not_mem {s : MowgliString} (h : 0 ∉ s.bytes) : s.str = s.bytes := by
  rw [str, List.takeWhile_eq_self_iff]
  intro c hc
  rw [decide_eq_true_iff]
  exact fun h0 => h (h0 ▸ hc)

theorem copied_of_not_mem {s : MowgliString} (h : 0 ∉ s.bytes) : s.copied = s.bytes := by
  rw [copied, str_of_not_mem h, pos, Nat.sub_self, List.replicate_zero, List.append_nil]

/-- Without a NUL, a string is the bytes appended to it. -/
theorem appendChar_bytes {s : MowgliString} (h : 0 ∉ s.bytes) (c : UInt8) :
    (s.appendChar c).bytes = s.bytes ++ [c] := by
  unfold appendChar
  split_ifs with hs
  · rw [copied_of_not_mem h]
  · rfl

theorem append_bytes {s : MowgliString} (h : 0 ∉ s.bytes) (src : List UInt8) :
    (s.append src).bytes = s.bytes ++ src := by
  unfold append
  split_ifs with hs
  · rw [copied_of_not_mem h]
  · rfl

theorem length_copied (s : MowgliString) : s.copied.length = s.pos := by
  have hle : s.str.length ≤ s.bytes.length := (List.takeWhile_prefix _).length_le
  rw [copied, List.length_append, List.length_replicate, pos]
  omega

/-- Whatever it holds, a string is a byte longer. -/
theorem pos_appendChar (s : MowgliString) (c : UInt8) : (s.appendChar c).pos = s.pos + 1 := by
  unfold appendChar
  split_ifs with hs
  · rw [pos, List.length_append, length_copied]
    rfl
  · exact List.length_append

/-- There is room for what a string holds. -/
theorem room_appendChar {s : MowgliString} (h : s.pos < s.size) (c : UInt8) :
    (s.appendChar c).pos < (s.appendChar c).size := by
  rw [pos_appendChar]
  unfold appendChar
  split_ifs with hs
  · exact lt_of_lt_of_le (by omega) (le_max_right _ _)
  · show s.pos + 1 < s.size
    omega

/-! ## Strings of bytes that are appended -/

/-- The bytes are appended one by one. -/
def appendAll (s : MowgliString) (w : List UInt8) : MowgliString := w.foldl appendChar s

theorem appendAll_bytes {s : MowgliString} {w : List UInt8} (h : 0 ∉ s.bytes ++ w) :
    (s.appendAll w).bytes = s.bytes ++ w := by
  induction w generalizing s with
  | nil => exact (List.append_nil _).symm
  | cons c w ih =>
    have hc := appendChar_bytes (fun h0 => h (List.mem_append_left _ h0)) c
    have happ : s.bytes ++ [c] ++ w = s.bytes ++ c :: w := by rw [List.append_assoc]; rfl
    show ((s.appendChar c).appendAll w).bytes = _
    rw [ih (by rwa [hc, happ]), hc, happ]

theorem pos_appendAll (s : MowgliString) (w : List UInt8) : (s.appendAll w).pos = s.pos + w.length := by
  induction w generalizing s with
  | nil => rfl
  | cons c w ih =>
    show ((s.appendChar c).appendAll w).pos = _
    rw [ih, pos_appendChar, List.length_cons]
    omega

theorem room_appendAll {s : MowgliString} (h : s.pos < s.size) (w : List UInt8) :
    (s.appendAll w).pos < (s.appendAll w).size := by
  induction w generalizing s with
  | nil => exact h
  | cons c w ih => exact ih (room_appendChar h c)

/-- Where there is room, a string is the bytes appended to it, NULs or not. -/
theorem appendAll_of_room {s : MowgliString} {w : List UInt8} (h : s.pos + w.length < s.size) :
    s.appendAll w = { s with bytes := s.bytes ++ w } := by
  induction w generalizing s with
  | nil =>
    rw [List.append_nil]
    rfl
  | cons c w ih =>
    rw [List.length_cons] at h
    have hc : s.appendChar c = { s with bytes := s.bytes ++ [c] } := if_neg (by omega)
    have hroom : (s.appendChar c).pos + w.length < (s.appendChar c).size := by
      rw [pos_appendChar, hc]
      show s.pos + 1 + w.length < s.size
      omega
    show (s.appendChar c).appendAll w = _
    rw [ih hroom, hc, List.append_assoc]
    rfl

end MowgliString

end Mowgli
