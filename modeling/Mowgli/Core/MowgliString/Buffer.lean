import Mowgli.Base.Bytes
import Mowgli.Base.Memslice.Sizes
import Mowgli.Core.MowgliString
import Mowgli.Library.Run
/-!
# The buffer of a growing string

A `mowgli_string_t` with all the bytes of its buffer. When the buffer grows, it
is copied with `mowgli_strlcpy`, up to its first NUL; what is behind that is then
what was in the memory of the new one. So the string keeps what was appended to
it where that makes no difference. A function answers `none` where it would go
past the end of a buffer. All allocations succeed.
-/

namespace Mowgli

open Bytes

/-- `strlen`. -/
def strlen : List UInt8 → Option ℕ
  | [] => none
  | c :: s => if c = 0 then some 0 else (strlen s).map (· + 1)

/-- The loop of `mowgli_strlcpy`, at the byte `i` and with room for `n` more, and
what follows it. -/
def strlcpyLoop (dst src : List UInt8) (i : ℕ) : ℕ → Option (List UInt8 × ℕ)
  | 0 => do
    let dst ← store dst i [0]
    let k ← strlen (src.drop i)
    some (dst, i + k)
  | n + 1 => do
    let c ← src[i]?
    let dst ← store dst i [c]
    if c = 0 then some (dst, i) else strlcpyLoop dst src (i + 1) n

/-- `mowgli_strlcpy`: the buffer, and the length of `src`. -/
def strlcpy (dst src : List UInt8) (siz : ℕ) : Option (List UInt8 × ℕ) :=
  if siz = 0 then (strlen src).map fun k => (dst, k) else strlcpyLoop dst src 0 (siz - 1)

/-- `mowgli_string_t`, with what is allocated at `str`. -/
structure StringBuffer where
  str : List UInt8
  pos : ℕ
  size : ℕ
  deriving DecidableEq

namespace StringBuffer

/-- `mowgli_alloc`; `contents` is what is in the memory. -/
def allocated (contents : ℕ → UInt8) (size : ℕ) : List UInt8 := (List.range size).map contents

/-- `mowgli_string_create`. -/
def create (contents : ℕ → UInt8) : StringBuffer := ⟨allocated contents 64, 0, 64⟩

/-- `mowgli_string_reset`. -/
def reset (s : StringBuffer) : Option StringBuffer := do
  let str ← store s.str 0 [0]
  some { s with str := str, pos := 0 }

/-- The buffer is copied to a new one. -/
def grow (contents : ℕ → UInt8) (size : ℕ) (s : StringBuffer) : Option StringBuffer := do
  let (str, _) ← strlcpy (allocated contents size) s.str size
  some { s with str := str, size := size }

/-- The end of `append`: the bytes are copied behind what there is, and a NUL. -/
def write (s : StringBuffer) (src : List UInt8) : Option StringBuffer := do
  let str ← store s.str s.pos src
  let pos := toSize (s.pos + src.length)
  let str ← store str pos [0]
  some { s with str := str, pos := pos }

/-- `mowgli_string_append`, of the `n` bytes `src`. -/
def append (contents : ℕ → UInt8) (s : StringBuffer) (src : List UInt8) : Option StringBuffer := do
  let n := src.length
  let s ← if sizeSub s.size s.pos ≤ n then s.grow contents (max (toSize (s.size * 2)) (toSize (s.pos + n + 8)))
    else some s
  s.write src

/-- `mowgli_string_append_char`. -/
def appendChar (contents : ℕ → UInt8) (s : StringBuffer) (c : UInt8) : Option StringBuffer := do
  let s ← if sizeSub s.size s.pos ≤ 1 then s.grow contents (max (toSize (s.size * 2)) (toSize (s.pos + 9)))
    else some s
  s.write [c]

end StringBuffer

/-! ## What is copied -/

variable {dst src : List UInt8} {i k n siz : ℕ}

theorem strlen_eq (hk : src[k]? = some 0) (hne : ∀ j < k, src[j]? ≠ some 0) : strlen src = some k := by
  induction k generalizing src with
  | zero =>
    cases src with
    | nil => cases hk
    | cons c s =>
      obtain rfl := Option.some.inj hk
      rfl
  | succ k ih =>
    cases src with
    | nil => cases hk
    | cons c s =>
      have hc : c ≠ 0 := fun hc => hne 0 (Nat.succ_pos k) (congrArg some hc)
      rw [strlen, if_neg hc, ih hk fun j hj => hne (j + 1) (Nat.succ_lt_succ hj)]
      rfl

/-- Up to the NUL at `k` the loop copies, and all else stays. -/
theorem strlcpyLoop_spec (hk : src[k]? = some 0) (hne : ∀ j < k, src[j]? ≠ some 0) (hik : i ≤ k) (hkn : k ≤ i + n)
    (hlen : k < dst.length) :
    ∃ dst', strlcpyLoop dst src i n = some (dst', k) ∧ dst'.length = dst.length ∧
      ∀ j, dst'[j]? = if i ≤ j ∧ j ≤ k then src[j]? else dst[j]? := by
  induction n generalizing i dst with
  | zero =>
    obtain rfl : i = k := by omega
    obtain ⟨dst', hstore⟩ := exists_store dst i [0] (by rw [List.length_singleton]; omega)
    have hlen' : strlen (src.drop i) = some 0 := by
      refine strlen_eq ?_ (by simp)
      rw [List.getElem?_drop, Nat.add_zero, hk]
    refine ⟨dst', ?_, length_of_store hstore, fun j => ?_⟩
    · rw [strlcpyLoop, hstore, Option.bind_eq_bind, Option.bind_some, hlen']
      rfl
    · rw [getElem?_store hstore, List.length_singleton]
      by_cases hj : j = i
      · rw [hj, if_pos ⟨le_rfl, by omega⟩, if_pos ⟨le_rfl, le_rfl⟩, hk, Nat.sub_self]
        rfl
      · rw [if_neg (by omega), if_neg (by omega)]
  | succ n ih =>
    have hi : i < src.length := hik.trans_lt (List.getElem?_eq_some_iff.1 hk).1
    obtain ⟨c, hc⟩ : ∃ c, src[i]? = some c := ⟨_, List.getElem?_eq_getElem hi⟩
    obtain ⟨dst₁, hstore⟩ := exists_store dst i [c] (by rw [List.length_singleton]; omega)
    have hget : ∀ j, dst₁[j]? = if j = i then some c else dst[j]? := by
      intro j
      rw [getElem?_store hstore, List.length_singleton]
      by_cases hj : j = i
      · rw [hj, if_pos ⟨le_rfl, by omega⟩, if_pos rfl, Nat.sub_self]
        rfl
      · rw [if_neg (by omega), if_neg hj]
    rcases Nat.eq_or_lt_of_le hik with rfl | hlt
    · -- the NUL is copied, and the loop is left
      obtain rfl : c = 0 := Option.some.inj (hc.symm.trans hk)
      refine ⟨dst₁, ?_, length_of_store hstore, fun j => ?_⟩
      · rw [strlcpyLoop, hc, Option.bind_eq_bind, Option.bind_some, hstore]
        rfl
      · rw [hget]
        by_cases hj : j = i
        · rw [if_pos hj, if_pos (by omega), hj, hc]
        · rw [if_neg hj, if_neg (by omega)]
    · have hc0 : c ≠ 0 := fun h0 => hne i hlt (by rw [hc, h0])
      have hlen₁ : k < dst₁.length := by rwa [length_of_store hstore]
      obtain ⟨dst', hloop, hlen', hget'⟩ := ih hlt (by omega) hlen₁
      refine ⟨dst', ?_, hlen'.trans (length_of_store hstore), fun j => ?_⟩
      · simp only [strlcpyLoop, hc, hstore, if_neg hc0, Option.bind_eq_bind, Option.bind_some]
        exact hloop
      · rw [hget', hget]
        by_cases hj : j = i
        · rw [if_neg (by omega), if_pos hj, if_pos (by omega), hj, hc]
        · by_cases hin : i ≤ j ∧ j ≤ k
          · rw [if_pos hin, if_pos (by omega)]
          · rw [if_neg hin, if_neg (by omega), if_neg hj]

/-- **`mowgli_strlcpy`**, where there is room for the string. -/
theorem strlcpy_spec (hk : src[k]? = some 0) (hne : ∀ j < k, src[j]? ≠ some 0) (hsiz : k < siz)
    (hlen : dst.length = siz) :
    ∃ dst', strlcpy dst src siz = some (dst', k) ∧ dst'.length = siz ∧
      ∀ j, dst'[j]? = if j ≤ k then src[j]? else dst[j]? := by
  obtain ⟨dst', hloop, hlen', hget⟩ := strlcpyLoop_spec (n := siz - 1) hk hne (Nat.zero_le k) (by omega)
    (hlen ▸ hsiz : k < dst.length)
  refine ⟨dst', ?_, hlen'.trans hlen, fun j => ?_⟩
  · rw [strlcpy, if_neg (by omega)]
    exact hloop
  · rw [hget]
    simp

/-- However much is copied, a buffer keeps its length. -/
theorem length_strlcpy {dst' : List UInt8} (h : strlcpy dst src siz = some (dst', k)) : dst'.length = dst.length := by
  have hloop : ∀ n i (dst dst' : List UInt8) k, strlcpyLoop dst src i n = some (dst', k) → dst'.length = dst.length := by
    intro n
    induction n with
    | zero =>
      intro i dst dst' k h
      obtain ⟨dst₁, hstore, h⟩ := Option.bind_eq_some_iff.1 h
      obtain ⟨m, -, h⟩ := Option.bind_eq_some_iff.1 h
      obtain ⟨rfl, -⟩ := Prod.mk.inj (Option.some.inj h)
      exact length_of_store hstore
    | succ n ih =>
      intro i dst dst' k h
      obtain ⟨c, -, h⟩ := Option.bind_eq_some_iff.1 h
      obtain ⟨dst₁, hstore, h⟩ := Option.bind_eq_some_iff.1 h
      rw [← length_of_store hstore]
      split_ifs at h
      · obtain ⟨rfl, -⟩ := Prod.mk.inj (Option.some.inj h)
        rfl
      · exact ih _ _ _ _ h
  unfold strlcpy at h
  split_ifs at h
  · obtain ⟨m, -, h⟩ := Option.map_eq_some_iff.1 h
    rw [(Prod.mk.inj h).1]
  · exact hloop _ _ _ _ _ h

/-! ## What a string holds -/

namespace StringBuffer

variable {s s' : StringBuffer} {bytes : List UInt8} {contents : ℕ → UInt8} {c : UInt8}

/-- The buffer is as long as its size says. -/
structure Sized (s : StringBuffer) : Prop where
  length : s.str.length = s.size
  lt : s.size < 18446744073709551616

/-- **A string of the bytes `bytes`**, with a NUL after them and inside its buffer. -/
structure Holds (s : StringBuffer) (bytes : List UInt8) : Prop where
  bytes : s.str.take s.pos = bytes
  nul : s.str[s.pos]? = some 0
  pos_lt : s.pos < s.size

/-- The byte at `i` is behind a NUL. -/
def Behind (s : StringBuffer) (i : ℕ) : Prop := ∃ j < i, s.str[j]? = some 0

/-- In a new buffer of the size `size` there is room for `n` more bytes, and what
was behind a NUL is in its memory already. -/
def Survives (s : StringBuffer) (contents : ℕ → UInt8) (size n : ℕ) : Prop :=
  s.pos + n < size ∧ ∀ i < s.pos, s.Behind i → s.str[i]? = some (contents i)

theorem length_allocated (contents : ℕ → UInt8) (size : ℕ) : (allocated contents size).length = size := by
  rw [allocated, List.length_map, List.length_range]

theorem getElem?_allocated {size : ℕ} (hi : i < size) : (allocated contents size)[i]? = some (contents i) := by
  rw [allocated, List.getElem?_map, List.getElem?_range hi]
  rfl

theorem toSize_lt (z : ℤ) : toSize z < 18446744073709551616 := by
  unfold toSize
  omega

/-- **A buffer that grows** has what was up to the first NUL, and behind that what
was in its memory. -/
theorem Holds.grow (h : s.Holds bytes) (contents : ℕ → UInt8) {size : ℕ} (hsize : s.pos < size) :
    ∃ str, s.grow contents size = some ⟨str, s.pos, size⟩ ∧ str.length = size ∧
      ∀ i ≤ s.pos, (s.Behind i → str[i]? = some (contents i)) ∧ (¬s.Behind i → str[i]? = s.str[i]?) := by
  have hex : ∃ k : ℕ, s.str[k]? = some (0 : UInt8) := ⟨s.pos, h.nul⟩
  obtain ⟨k, hk, hne⟩ : ∃ k, s.str[k]? = some 0 ∧ ∀ j < k, s.str[j]? ≠ some 0 :=
    ⟨Nat.find hex, Nat.find_spec hex, fun j hj => Nat.find_min hex hj⟩
  have hle : k ≤ s.pos := by
    by_contra hgt
    exact hne s.pos (by omega) h.nul
  obtain ⟨str, hcopy, hlen, hget⟩ := strlcpy_spec hk hne (hle.trans_lt hsize) (length_allocated contents size)
  refine ⟨str, ?_, hlen, fun i hi => ⟨fun hbehind => ?_, fun hbehind => ?_⟩⟩
  · simp only [StringBuffer.grow, hcopy, Option.bind_eq_bind, Option.bind_some]
  · obtain ⟨j, hj, h0⟩ := hbehind
    have hkj : k ≤ j := by
      by_contra hgt
      exact hne j (by omega) h0
    rw [hget, if_neg (by omega), getElem?_allocated (by omega)]
  · have hik : i ≤ k := by
      by_contra hgt
      exact hbehind ⟨k, by omega, hk⟩
    rw [hget, if_pos hik]

/-- What is appended where there is room. -/
theorem write_of_room (hs : s.Sized) (hroom : s.pos + src.length < s.size) :
    ∃ s', s.write src = some s' ∧ s'.size = s.size ∧ s'.Holds (s.str.take s.pos ++ src) := by
  have hlen := hs.length
  obtain ⟨str₁, hstr₁⟩ := exists_store s.str s.pos src (by omega)
  have hlen₁ := length_of_store hstr₁
  obtain ⟨str₂, hstr₂⟩ := exists_store str₁ (s.pos + src.length) [0] (by rw [List.length_singleton]; omega)
  have hcast : toSize (s.pos + src.length) = s.pos + src.length := by
    rw [← Nat.cast_add]
    exact toSize_of_lt (hroom.trans hs.lt)
  refine ⟨⟨str₂, s.pos + src.length, s.size⟩, ?_, rfl, ⟨?_, ?_, hroom⟩⟩
  · simp only [write, hstr₁, hcast, hstr₂, Option.bind_eq_bind, Option.bind_some]
  · rw [← take_of_store hstr₁]
    dsimp only
    refine List.ext_getElem? fun j => ?_
    rw [List.getElem?_take, List.getElem?_take]
    split_ifs with hj
    · rw [getElem?_store hstr₂, if_neg (by omega)]
    · rfl
  · dsimp only
    rw [getElem?_store hstr₂, if_pos ⟨le_rfl, by rw [List.length_singleton]; omega⟩, Nat.sub_self]
    rfl

theorem Sized.write (hs : s.Sized) (hrun : s.write src = some s') : s'.Sized := by
  obtain ⟨str₁, hstr₁, hrun⟩ := Option.bind_eq_some_iff.1 hrun
  obtain ⟨str₂, hstr₂, hrun⟩ := Option.bind_eq_some_iff.1 hrun
  rw [← Option.some.inj hrun]
  exact ⟨((length_of_store hstr₂).trans (length_of_store hstr₁)).trans hs.length, hs.lt⟩

theorem sized_of_grow {size : ℕ} (hlt : size < 18446744073709551616) (hrun : s.grow contents size = some s') :
    s'.Sized ∧ s'.pos = s.pos ∧ s'.size = size := by
  obtain ⟨⟨str, k⟩, hcopy, hrun⟩ := Option.bind_eq_some_iff.1 hrun
  obtain rfl := Option.some.inj hrun
  exact ⟨⟨(length_strlcpy hcopy).trans (length_allocated ..), hlt⟩, rfl, rfl⟩

theorem Sized.append (hs : s.Sized) (hrun : s.append contents src = some s') : s'.Sized := by
  unfold StringBuffer.append at hrun
  dsimp only at hrun
  split_ifs at hrun
  · obtain ⟨s₁, hg, hw⟩ := Option.bind_eq_some_iff.1 hrun
    exact (sized_of_grow (max_lt (toSize_lt _) (toSize_lt _)) hg).1.write hw
  · exact hs.write hrun

/-- Where it returns there was room. -/
theorem room_of_write (hs : s.Sized) (hrun : s.write src = some s') : s.pos + src.length < s.size := by
  obtain ⟨str₁, hstr₁, hrun⟩ := Option.bind_eq_some_iff.1 hrun
  obtain ⟨str₂, hstr₂, -⟩ := Option.bind_eq_some_iff.1 hrun
  obtain ⟨hle₁, -⟩ := store_eq_some hstr₁
  obtain ⟨hle₂, -⟩ := store_eq_some hstr₂
  have hlen := hs.length
  have hlt := hs.lt
  rw [length_of_store hstr₁, List.length_singleton, ← Nat.cast_add, toSize_of_lt (by omega)] at hle₂
  omega

/-- **When an `append` does what it should**: if the buffer grows, what it held
survives. -/
theorem Holds.append_iff (h : s.Holds bytes) (hs : s.Sized) :
    (∃ s', s.append contents src = some s' ∧ s'.Holds (bytes ++ src)) ↔
      (sizeSub s.size s.pos ≤ src.length →
        s.Survives contents (max (toSize (s.size * 2)) (toSize (s.pos + src.length + 8))) src.length) := by
  have hsub : sizeSub s.size s.pos = s.size - s.pos := by
    have hlt := h.pos_lt
    unfold sizeSub
    rw [if_neg (by omega)]
  by_cases hgrow : sizeSub s.size s.pos ≤ src.length
  · obtain ⟨size, hsize⟩ : ∃ size, size = max (toSize (s.size * 2)) (toSize (s.pos + src.length + 8)) := ⟨_, rfl⟩
    have hlt : size < 18446744073709551616 := hsize ▸ max_lt (toSize_lt _) (toSize_lt _)
    have happend : s.append contents src = (s.grow contents size).bind fun s => s.write src := by
      rw [append, hsize]
      exact if_pos hgrow
    rw [← hsize, happend]
    refine Iff.trans ?_ (forall_prop_of_true hgrow).symm
    constructor
    · rintro ⟨s', hrun, hholds⟩
      obtain ⟨s₁, hg, hw⟩ := Option.bind_eq_some_iff.1 hrun
      obtain ⟨hs₁, hpos, hsz⟩ := sized_of_grow hlt hg
      have hroom := room_of_write hs₁ hw
      rw [hpos, hsz] at hroom
      have hsize' : s.pos < size := by omega
      obtain ⟨str, hg', -, hget⟩ := h.grow contents hsize'
      obtain rfl := Option.some.inj (hg.symm.trans hg')
      obtain ⟨s₂, hw', -, hholds'⟩ := write_of_room hs₁ hroom
      obtain rfl := Option.some.inj (hw.symm.trans hw')
      refine ⟨hroom, fun i hi hbehind => ?_⟩
      -- what is read there, before and after
      have hsame : s.str.take s.pos = str.take s.pos := by
        rw [h.bytes]
        exact List.append_cancel_right (hholds.bytes.symm.trans hholds'.bytes)
      have hread := congrArg (fun l : List UInt8 => l[i]?) hsame
      simp only [List.getElem?_take, if_pos hi] at hread
      rw [hread, (hget i hi.le).1 hbehind]
    · rintro ⟨hroom, hkept⟩
      have hsize' : s.pos < size := by omega
      obtain ⟨str, hg, hlen, hget⟩ := h.grow contents hsize'
      have hs₁ : Sized ⟨str, s.pos, size⟩ := ⟨hlen, hlt⟩
      obtain ⟨s', hw, -, hholds⟩ := write_of_room hs₁ hroom
      have hsame : str.take s.pos = bytes := by
        rw [← h.bytes]
        refine List.ext_getElem? fun j => ?_
        rw [List.getElem?_take, List.getElem?_take]
        split_ifs with hj
        · by_cases hbehind : s.Behind j
          · rw [(hget j hj.le).1 hbehind, hkept j hj hbehind]
          · exact (hget j hj.le).2 hbehind
        · rfl
      exact ⟨s', by rw [hg, Option.bind_some, hw], hsame ▸ hholds⟩
  · refine iff_of_true ?_ fun hle => absurd hle hgrow
    have hroom : s.pos + src.length < s.size := by omega
    obtain ⟨s', hw, -, hholds⟩ := write_of_room hs hroom
    refine ⟨s', ?_, h.bytes ▸ hholds⟩
    rw [append]
    exact (if_neg hgrow).trans hw

/-- A byte is appended like a string of one byte. -/
theorem appendChar_eq (contents : ℕ → UInt8) (s : StringBuffer) (c : UInt8) :
    s.appendChar contents c = s.append contents [c] := by
  have hsize : toSize (s.pos + ([c] : List UInt8).length + 8) = toSize (s.pos + 9) := by
    rw [List.length_singleton]
    exact congrArg toSize (by omega)
  unfold appendChar append
  dsimp only
  rw [hsize, List.length_singleton]

/-! ## Zero-filled memory -/

/-- The string, but for what is behind it in its buffer. -/
def toString (s : StringBuffer) : MowgliString := ⟨s.str.take s.pos, s.size⟩

/-- The bytes up to the first NUL, filled up with NULs. -/
theorem getElem?_filled {l : List UInt8} {j : ℕ} (hj : j < l.length) :
    (l.takeWhile (· ≠ 0) ++ List.replicate (l.length - (l.takeWhile (· ≠ 0)).length) 0)[j]? =
      if ∃ i < j, l[i]? = some 0 then some 0 else l[j]? := by
  induction l generalizing j with
  | nil => exact absurd hj (Nat.not_lt_zero j)
  | cons d l ih =>
    by_cases hd : d = 0
    · subst hd
      have hnil : ((0 : UInt8) :: l).takeWhile (· ≠ 0) = [] := by simp
      rw [hnil, List.nil_append, List.length_nil, Nat.sub_zero, List.getElem?_replicate_of_lt hj]
      cases j with
      | zero => simp
      | succ j => rw [if_pos ⟨0, Nat.succ_pos j, rfl⟩]
    · have hcons : (d :: l).takeWhile (· ≠ 0) = d :: l.takeWhile (· ≠ 0) := by simp [hd]
      rw [hcons, List.cons_append, List.length_cons, List.length_cons, Nat.add_sub_add_right]
      cases j with
      | zero => simp
      | succ j =>
        have hiff : (∃ i < j + 1, (d :: l)[i]? = some 0) ↔ ∃ i < j, l[i]? = some 0 := by
          constructor
          · rintro ⟨i, hi, h0⟩
            cases i with
            | zero => exact absurd (Option.some.inj h0) hd
            | succ i => exact ⟨i, Nat.lt_of_succ_lt_succ hi, h0⟩
          · rintro ⟨i, hi, h0⟩
            exact ⟨i + 1, Nat.succ_lt_succ hi, h0⟩
        rw [List.getElem?_cons_succ, List.getElem?_cons_succ, ih (Nat.lt_of_succ_lt_succ hj)]
        simp only [hiff]

/-- **On zero-filled memory** `append_char` is the one of the strings without a
buffer. -/
theorem Holds.appendChar_toString (h : s.Holds bytes) (hs : s.Sized) (hsize : s.size * 2 < 18446744073709551616)
    (c : UInt8) : ∃ s', s.appendChar (fun _ => 0) c = some s' ∧ s'.toString = s.toString.appendChar c := by
  have hlt := h.pos_lt
  have hlen := hs.length
  have hpos : s.toString.pos = s.pos := by
    rw [MowgliString.pos, toString, List.length_take]
    omega
  have hsub : sizeSub s.size s.pos = s.size - s.pos := by
    unfold sizeSub
    rw [if_neg (by omega)]
  have hdouble : toSize (s.size * 2) = s.size * 2 := toSize_of_lt (n := s.size * 2) hsize
  have hnine : toSize (s.pos + 9) = s.pos + 9 := toSize_of_lt (n := s.pos + 9) (by omega)
  have hone : ([c] : List UInt8).length = 1 := rfl
  unfold appendChar MowgliString.appendChar
  rw [hsub, hpos, hdouble, hnine]
  by_cases hgrow : s.size - s.pos ≤ 1
  · have hgrow' : s.toString.size - s.pos ≤ 1 := hgrow
    obtain ⟨str, hg, hlen', hget⟩ := h.grow (fun _ => 0) (show s.pos < max (s.size * 2) (s.pos + 9) by omega)
    have hs₁ : Sized ⟨str, s.pos, max (s.size * 2) (s.pos + 9)⟩ := ⟨hlen', by dsimp only; omega⟩
    have hroom : s.pos + [c].length < max (s.size * 2) (s.pos + 9) := by omega
    obtain ⟨s', hw, hsz, hholds⟩ := write_of_room hs₁ hroom
    refine ⟨s', ?_, ?_⟩
    · rw [if_pos hgrow, hg]
      exact hw
    · have hcopied : str.take s.pos = s.toString.copied := by
        have hbytes : s.toString.bytes.length = s.pos := hpos
        refine List.ext_getElem? fun j => ?_
        rw [List.getElem?_take]
        split_ifs with hj
        · have hfilled := getElem?_filled (l := s.toString.bytes) (j := j) (by omega)
          have hread : ∀ i < s.pos, s.toString.bytes[i]? = s.str[i]? := fun i hi => by
            rw [toString, List.getElem?_take, if_pos hi]
          rw [MowgliString.copied, MowgliString.str, MowgliString.pos, hfilled, hread j hj]
          split_ifs with hex
          · obtain ⟨i, hi, h0⟩ := hex
            exact (hget j hj.le).1 ⟨i, hi, (hread i (by omega)).symm.trans h0⟩
          · refine (hget j hj.le).2 ?_
            rintro ⟨i, hi, h0⟩
            exact hex ⟨i, hi, (hread i (by omega)).trans h0⟩
        · refine (List.getElem?_eq_none ?_).symm
          rw [MowgliString.copied, List.length_append, List.length_replicate, MowgliString.str, hpos]
          have hle := (List.takeWhile_sublist (p := fun x : UInt8 => decide (x ≠ 0)) (l := s.toString.bytes)).length_le
          omega
      rw [if_pos hgrow', toString, hholds.bytes, hsz]
      dsimp only
      rw [hcopied]
      rfl
  · have hgrow' : ¬s.toString.size - s.pos ≤ 1 := hgrow
    have hroom : s.pos + [c].length < s.size := by omega
    obtain ⟨s', hw, hsz, hholds⟩ := write_of_room hs hroom
    refine ⟨s', (if_neg hgrow).trans hw, ?_⟩
    rw [if_neg hgrow', toString, hholds.bytes, hsz]
    rfl

/-! ## Runs -/

/-- A call, with what is in the memory that it allocates. -/
inductive Call
  | append (src : List UInt8) (contents : ℕ → UInt8)
  | appendChar (c : UInt8) (contents : ℕ → UInt8)
  | reset

def Call.run (s : StringBuffer) : Call → Option (Unit × StringBuffer)
  | append src contents => (s.append contents src).map fun s => ((), s)
  | appendChar c contents => (s.appendChar contents c).map fun s => ((), s)
  | reset => s.reset.map fun s => ((), s)

/-- What was appended since the last `reset`, after the call. -/
def Call.after (bytes : List UInt8) : Call → List UInt8
  | append src _ => bytes ++ src
  | appendChar c _ => bytes ++ [c]
  | reset => []

/-- If the buffer grows, what it holds survives. -/
def Call.Ok (s : StringBuffer) : Call → Prop
  | append src contents => sizeSub s.size s.pos ≤ src.length →
    s.Survives contents (max (toSize (s.size * 2)) (toSize (s.pos + src.length + 8))) src.length
  | appendChar _ contents => sizeSub s.size s.pos ≤ 1 →
    s.Survives contents (max (toSize (s.size * 2)) (toSize (s.pos + 9))) 1
  | reset => True

/-- What was appended since the last `reset` of a run. -/
def appended (tr : List (Call × Unit)) : List UInt8 := tr.foldl (fun bytes x => x.1.after bytes) []

theorem create_sized (contents : ℕ → UInt8) : (create contents).Sized := ⟨length_allocated .., (by decide : 64 < 18446744073709551616)⟩

/-- A new string is empty where its memory starts with a NUL. -/
theorem create_holds_iff (contents : ℕ → UInt8) : (create contents).Holds [] ↔ contents 0 = 0 := by
  have hget : (create contents).str[0]? = some (contents 0) := getElem?_allocated (by decide)
  constructor
  · intro h
    exact Option.some.inj (hget.symm.trans h.nul)
  · intro h0
    exact ⟨rfl, hget.trans (congrArg some h0), (by decide : 0 < 64)⟩

theorem Sized.run (hs : s.Sized) {c : Call} (hrun : c.run s = some ((), s')) : s'.Sized := by
  cases c with
  | append src contents =>
    obtain ⟨s₁, happend, heq⟩ := Option.map_eq_some_iff.1 hrun
    rw [← (Prod.mk.inj heq).2]
    exact hs.append happend
  | appendChar c contents =>
    obtain ⟨s₁, happend, heq⟩ := Option.map_eq_some_iff.1 hrun
    rw [← (Prod.mk.inj heq).2]
    rw [appendChar_eq] at happend
    exact hs.append happend
  | reset =>
    obtain ⟨s₁, hreset, heq⟩ := Option.map_eq_some_iff.1 hrun
    obtain ⟨str, hstr, hreset⟩ := Option.bind_eq_some_iff.1 hreset
    rw [← (Prod.mk.inj heq).2, ← Option.some.inj hreset]
    exact ⟨(length_of_store hstr).trans hs.length, hs.lt⟩

/-- **One call.** -/
theorem Holds.run_iff (h : s.Holds bytes) (hs : s.Sized) (c : Call) :
    (∃ s', c.run s = some ((), s') ∧ s'.Holds (c.after bytes)) ↔ c.Ok s := by
  have hmap : ∀ (o : Option StringBuffer) (l : List UInt8),
      (∃ s', o.map (fun s => ((), s)) = some ((), s') ∧ s'.Holds l) ↔ ∃ s', o = some s' ∧ s'.Holds l := by
    intro o l
    cases o <;> simp
  cases c with
  | append src contents => exact (hmap _ _).trans (h.append_iff hs)
  | appendChar c contents =>
    refine (hmap _ _).trans ?_
    rw [appendChar_eq]
    refine (h.append_iff hs).trans ?_
    rw [List.length_singleton, Call.Ok]
    have hsize : toSize (s.pos + (1 : ℕ) + 8) = toSize (s.pos + 9) := congrArg toSize (by omega)
    rw [hsize]
  | reset =>
    refine (hmap _ _).trans (iff_of_true ?_ trivial)
    have hlen := hs.length
    have hpos := h.pos_lt
    obtain ⟨str, hstr⟩ := exists_store s.str 0 [0] (by rw [List.length_singleton]; omega)
    refine ⟨{ s with str := str, pos := 0 }, ?_, rfl, ?_, by dsimp only; omega⟩
    · rw [StringBuffer.reset, hstr]
      rfl
    · rw [getElem?_store hstr]
      rfl

/-- **When a string is what was appended to it**: its first memory starts with a
NUL, and whenever its buffer grows, what was behind a NUL is in the memory of
the new one already. In every run of such calls the string holds what was
appended since the last `reset`, and in each state it comes to no other call
keeps that. -/
theorem runs_hold (contents : ℕ → UInt8) :
    ((create contents).Holds [] ↔ contents 0 = 0) ∧
      (contents 0 = 0 → ∀ tr s, Run Call.run Call.Ok (create contents) tr s →
        s.Holds (appended tr) ∧ ∀ c : Call, (∃ s', c.run s = some ((), s') ∧ s'.Holds (c.after (appended tr))) ↔ c.Ok s) := by
  refine ⟨create_holds_iff contents, fun h0 tr s hrun => ?_⟩
  suffices hall : s.Holds (appended tr) ∧ s.Sized from ⟨hall.1, hall.1.run_iff hall.2⟩
  induction hrun with
  | nil => exact ⟨(create_holds_iff contents).2 h0, create_sized contents⟩
  | @snoc tr s s' c r _ hok hstep ih =>
    obtain ⟨s₁, hrun, hholds⟩ := (ih.1.run_iff ih.2 c).2 hok
    obtain ⟨-, rfl⟩ := Prod.mk.inj (Option.some.inj (hstep.symm.trans hrun))
    have happ : appended (tr ++ [(c, r)]) = c.after (appended tr) := by
      rw [appended, List.foldl_append]
      rfl
    exact ⟨happ ▸ hholds, ih.2.run hrun⟩

/-- Some bytes, among them a NUL, in four calls. -/
theorem runs_hold_bytes : ∃ s : StringBuffer, s.Holds [98, 0, 99, 100] := by
  have h : Run Call.run Call.Ok (create fun _ => 0) ([] ++ [(.append [97, 97] fun _ => 0, ())]) _ :=
    Run.nil.snoc (fun hgrow => absurd (show 64 ≤ 2 from hgrow) (by decide)) rfl
  have h₁ := h.snoc (a := .reset) (b := ()) (by exact trivial) rfl
  have h₂ := h₁.snoc (a := .append [98, 0, 99] fun _ => 0) (b := ())
    (by exact fun hgrow => absurd (show 64 ≤ 3 from hgrow) (by decide)) rfl
  have h₃ := h₂.snoc (a := .appendChar 100 fun _ => 0) (b := ())
    (by exact fun hgrow => absurd (show 61 ≤ 1 from hgrow) (by decide)) rfl
  exact ⟨_, ((runs_hold fun _ => 0).2 rfl _ _ h₃).1⟩

set_option maxRecDepth 20000 in
/-- 62 bytes behind a NUL are lost when one more is appended. -/
theorem bytes_lost : ¬ ∀ tr s, Run Call.run (fun _ _ => True) (create fun _ => 0) tr s → s.Holds (appended tr) := by
  intro h
  have hrun : Run Call.run (fun _ _ => True) (create fun _ => 0)
      ([] ++ [(.append (0 :: List.replicate 62 1) fun _ => 0, ())] ++ [(.appendChar 1 fun _ => 0, ())]) _ :=
    (Run.nil.snoc trivial rfl).snoc trivial rfl
  have hbytes := (h _ _ hrun).bytes
  exact absurd hbytes (by decide)

end StringBuffer

end Mowgli
