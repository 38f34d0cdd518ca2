import Mowgli.Container.List
/-!
# The pointer index, as `container/index.c` has it

An index is an array of pointers that grows: `count` of them are in use,
and `size` is what there is room for. The functions answer `none` where
they would read or write outside an array, or where the loop that doubles
`size` does not end. Allocation succeeds, and gives zero-filled memory. An
`int` has 32 bits, and a pointer 8 bytes. What the source calls `at`, `from`
and `to` is `pos`, `src` and `dst` here.
-/

namespace Mowgli

/-- An array of pointers in memory. -/
structure PtrArray where
  length : ℕ
  cell : ℕ → Option Addr

namespace PtrArray

/-- `mowgli_alloc_array(sizeof(void *), n)`. -/
def alloc (n : ℕ) : PtrArray := ⟨n, fun _ => none⟩

/-- `a[i]`. -/
def get (a : PtrArray) (i : ℤ) : Option (Option Addr) :=
  if 0 ≤ i ∧ i < a.length then some (a.cell i.toNat) else none

/-- `a[i] = v`. -/
def set (a : PtrArray) (i : ℤ) (v : Option Addr) : Option PtrArray :=
  if 0 ≤ i ∧ i < a.length then some { a with cell := Function.update a.cell i.toNat v } else none

/-- The array with `n` pointers of `b` from `src` on written over its own
from `dst` on. -/
def paste (a b : PtrArray) (dst src n : ℕ) : PtrArray :=
  { a with cell := fun i => if dst ≤ i ∧ i < dst + n then b.cell (i - dst + src) else a.cell i }

/-- `memcpy(a + dst, b + src, sizeof(void *) * n)`, and with `b` the array
itself also `memmove`. -/
def copy (a b : PtrArray) (dst src n : ℤ) : Option PtrArray :=
  if 0 ≤ dst ∧ 0 ≤ src ∧ 0 ≤ n ∧ dst + n ≤ a.length ∧ src + n ≤ b.length then
    some (a.paste b dst.toNat src.toNat n.toNat)
  else none

/-- `memcpy(a, b, bytes)`, of whole pointers. -/
def copyBytes (a b : PtrArray) (bytes : ℤ) : Option PtrArray :=
  if bytes % 8 = 0 then a.copy b 0 0 (bytes / 8) else none

end PtrArray

/-- `mowgli_index_t`, as far as it is used. -/
structure MowgliIndex where
  data : Option PtrArray
  count : ℤ
  size : ℤ

namespace Index

/-- `mowgli_index_create`. -/
def create : MowgliIndex := ⟨none, 0, 0⟩

/-- `while (size > index->size) index->size <<= 1`, from the `index->size`
given. -/
def growSize (size : ℤ) : ℕ → ℤ → Option ℤ
  | 0, s => if size > s then none else some s
  | fuel + 1, s => if size > s then growSize size fuel (toInt (s * 2)) else some s

/-- `mowgli_index_allocate`. After 32 rounds the bits of `index->size` are
all shifted out. -/
def allocate (ix : MowgliIndex) (size : ℤ) : Option MowgliIndex :=
  if size ≤ ix.size then some ix
  else do
    let oldsize := if ix.size = 0 then 64 else ix.size
    let newsize ← growSize size 32 oldsize
    let new := PtrArray.alloc newsize.toNat
    match ix.data with
    | none => some { ix with data := some new, size := newsize }
    | some old => do
      let new ← new.copyBytes old oldsize
      some { ix with data := some new, size := newsize }

/-- `mowgli_index_set`. -/
def set (ix : MowgliIndex) (pos : ℤ) (value : Option Addr) : Option MowgliIndex := do
  let data ← ix.data
  let data ← data.set pos value
  some { ix with data := some data }

/-- `mowgli_index_get`. -/
def get (ix : MowgliIndex) (pos : ℤ) : Option (Option Addr) := do
  let data ← ix.data
  data.get pos

/-- `memmove(index->data + to, index->data + from, sizeof(void *) * n)`. Of
no pointers it does nothing. -/
def memmove (ix : MowgliIndex) (dst src n : ℤ) : Option MowgliIndex :=
  if n = 0 then some ix
  else do
    let data ← ix.data
    let data ← data.copy data dst src n
    some { ix with data := some data }

/-- `memcpy(target->data + to, source->data + from, sizeof(void *) * n)`. -/
def memcpy (source target : MowgliIndex) (dst src n : ℤ) : Option MowgliIndex :=
  if n = 0 then some target
  else do
    let s ← source.data
    let data ← target.data
    let data ← data.copy s dst src n
    some { target with data := some data }

/-- `make_room`. -/
def makeRoom (ix : MowgliIndex) (pos count : ℤ) : Option MowgliIndex := do
  let ix ← allocate ix (toInt (ix.count + count))
  let ix ← if pos < ix.count then memmove ix (pos + count) pos (ix.count - pos) else some ix
  some { ix with count := toInt (ix.count + count) }

/-- `mowgli_index_insert`. -/
def insert (ix : MowgliIndex) (pos : ℤ) (value : Option Addr) : Option MowgliIndex := do
  let ix ← makeRoom ix pos 1
  set ix pos value

/-- `mowgli_index_append`. -/
def append (ix : MowgliIndex) (value : Option Addr) : Option MowgliIndex := insert ix ix.count value

/-- `mowgli_index_copy_insert`, of two indexes that are not the same. -/
def copyInsert (source : MowgliIndex) (src : ℤ) (target : MowgliIndex) (dst count : ℤ) : Option MowgliIndex := do
  let target ← makeRoom target dst count
  memcpy source target dst src count

/-- `mowgli_index_copy_append`. -/
def copyAppend (source : MowgliIndex) (src : ℤ) (target : MowgliIndex) (count : ℤ) : Option MowgliIndex :=
  copyInsert source src target target.count count

/-- `mowgli_index_merge_insert`. -/
def mergeInsert (first : MowgliIndex) (pos : ℤ) (second : MowgliIndex) : Option MowgliIndex :=
  copyInsert second 0 first pos second.count

/-- `mowgli_index_merge_append`. -/
def mergeAppend (first second : MowgliIndex) : Option MowgliIndex :=
  copyInsert second 0 first first.count second.count

/-- `mowgli_index_move`. -/
def move (ix : MowgliIndex) (src dst count : ℤ) : Option MowgliIndex := memmove ix dst src count

/-- `mowgli_index_delete`. -/
def delete (ix : MowgliIndex) (pos count : ℤ) : Option MowgliIndex :=
  let ix := { ix with count := toInt (ix.count - count) }
  memmove ix pos (pos + count) (ix.count - pos)

/-! ## Arrays in a block of memory -/

variable {ix ix' source target : MowgliIndex} {xs ys ws : List (Option Addr)} {pos n : ℕ}

/-- The memory of an index. -/
def block (ix : MowgliIndex) : PtrArray := ix.data.getD (PtrArray.alloc 0)

/-- The room of an index is its memory, and was made by doubling from 64. -/
structure Sized (ix : MowgliIndex) : Prop where
  size : ix.size = (block ix).length
  null : ix.data = none ↔ ix.size = 0
  pow : ix.size = 0 ∨ ∃ j, 6 ≤ j ∧ j ≤ 20 ∧ ix.size = 2 ^ j

/-- **An index stores the pointers `xs`.** -/
structure Stores (ix : MowgliIndex) (xs : List (Option Addr)) : Prop where
  sized : Sized ix
  count : ix.count = xs.length
  fits : xs.length ≤ (block ix).length
  cell : ∀ i x, xs[i]? = some x → (block ix).cell i = x

theorem stores_create : Stores create [] :=
  ⟨⟨rfl, iff_of_true rfl rfl, Or.inl rfl⟩, rfl, le_rfl, by simp⟩

/-- Where there is room there is memory. -/
theorem data_of_pos (hpos : 0 < (block ix).length) : ix.data = some (block ix) := by
  cases hd : ix.data with
  | none =>
    rw [block, hd] at hpos
    exact absurd hpos (by simp [PtrArray.alloc])
  | some a => rw [block, hd, Option.getD_some]

/-- Other memory of the same length. -/
theorem Sized.replace (h : Sized ix) {a : PtrArray} (ha : a.length = (block ix).length) (hd : ix.data ≠ none)
    (c : ℤ) : Sized { ix with data := some a, count := c } := by
  refine ⟨?_, ?_, h.pow⟩
  · rw [block, Option.getD_some, ha, h.size]
  · exact iff_of_false (by simp) fun h0 => hd (h.null.2 h0)

theorem Sized.length_le (h : Sized ix) : (block ix).length ≤ 2 ^ 20 := by
  have hsize := h.size
  rcases h.pow with h0 | ⟨j, -, hj, hpow⟩
  · omega
  · have hle : (2 : ℤ) ^ j ≤ 2 ^ 20 := pow_le_pow_right₀ (by norm_num) hj
    omega

theorem Sized.withCount (h : Sized ix) (c : ℤ) : Sized { ix with count := c } := ⟨h.size, h.null, h.pow⟩

theorem memmove_spec (h : Sized ix) (dst src n : ℕ) (hdst : dst + n ≤ (block ix).length)
    (hsrc : src + n ≤ (block ix).length) :
    ∃ ix', memmove ix dst src n = some ix' ∧ Sized ix' ∧ ix'.count = ix.count ∧ ix'.size = ix.size ∧
      ∀ i, (block ix').cell i =
        if dst ≤ i ∧ i < dst + n then (block ix).cell (i - dst + src) else (block ix).cell i := by
  rw [memmove]
  split_ifs with hn
  · refine ⟨ix, rfl, h, rfl, rfl, fun i => ?_⟩
    rw [if_neg (by omega)]
  · have hd := data_of_pos (show 0 < (block ix).length by omega)
    refine ⟨_, ?_, h.replace (a := (block ix).paste (block ix) dst src n) rfl (by rw [hd]; simp) ix.count, rfl, rfl,
      fun i => rfl⟩
    rw [hd, Option.bind_eq_bind, Option.bind_some, PtrArray.copy, if_pos (by omega)]
    rfl

theorem memcpy_spec (source : MowgliIndex) (h : Sized target) (dst src n : ℕ)
    (hdst : dst + n ≤ (block target).length) (hsrc : src + n ≤ (block source).length) :
    ∃ ix', memcpy source target dst src n = some ix' ∧ Sized ix' ∧ ix'.count = target.count ∧
      ix'.size = target.size ∧ ∀ i, (block ix').cell i =
        if dst ≤ i ∧ i < dst + n then (block source).cell (i - dst + src) else (block target).cell i := by
  rw [memcpy]
  split_ifs with hn
  · refine ⟨target, rfl, h, rfl, rfl, fun i => ?_⟩
    rw [if_neg (by omega)]
  · have hd := data_of_pos (show 0 < (block target).length by omega)
    have hds := data_of_pos (show 0 < (block source).length by omega)
    refine ⟨_, ?_, h.replace (a := (block target).paste (block source) dst src n) rfl (by rw [hd]; simp)
      target.count, rfl, rfl, fun i => rfl⟩
    rw [hds, hd, Option.bind_eq_bind, Option.bind_some, Option.bind_some, PtrArray.copy, if_pos (by omega)]
    rfl

theorem set_spec (h : Sized ix) (pos : ℕ) (hpos : pos < (block ix).length) (v : Option Addr) :
    ∃ ix', set ix pos v = some ix' ∧ Sized ix' ∧ ix'.count = ix.count ∧ ix'.size = ix.size ∧
      ∀ i, (block ix').cell i = if i = pos then v else (block ix).cell i := by
  have hd := data_of_pos (show 0 < (block ix).length by omega)
  refine ⟨_, ?_, h.replace (a := { block ix with cell := Function.update (block ix).cell pos v }) rfl
    (by rw [hd]; simp) ix.count, rfl, rfl, fun i => ?_⟩
  · rw [set, hd, Option.bind_eq_bind, Option.bind_some, PtrArray.set, if_pos (by omega)]
    rfl
  · exact Function.update_apply ..

theorem Stores.get (h : Stores ix xs) (hpos : pos < xs.length) : get ix pos = xs[pos]? := by
  have hlt := h.fits
  rw [Index.get, data_of_pos (show 0 < (block ix).length by omega), Option.bind_eq_bind, Option.bind_some, PtrArray.get, if_pos (by omega),
    List.getElem?_eq_getElem hpos]
  exact congrArg some (h.cell pos _ (List.getElem?_eq_getElem hpos))

/-- The doubling ends at a power of two that is enough. -/
theorem growSize_spec {size : ℤ} {n : ℕ} (hn : n ≤ 30) (hsize : size ≤ 2 ^ n) (fuel j : ℕ) (hj : j ≤ n)
    (hfuel : n - j ≤ fuel) :
    ∃ k, growSize size fuel (2 ^ j) = some (2 ^ k) ∧ j ≤ k ∧ k ≤ n ∧ size ≤ 2 ^ k := by
  induction fuel generalizing j with
  | zero =>
    obtain rfl : j = n := by omega
    refine ⟨j, ?_, le_rfl, le_rfl, hsize⟩
    rw [growSize, if_neg (by omega)]
  | succ fuel ih =>
    rw [growSize]
    split_ifs with h
    · have hlt : j < n := by
        rcases Nat.lt_or_ge j n with hlt | hge
        · exact hlt
        · obtain rfl : j = n := by omega
          omega
      have hpow : (2 : ℤ) ^ (j + 1) ≤ 2 ^ 30 := pow_le_pow_right₀ (by norm_num) (by omega)
      have hpos : (0 : ℤ) < 2 ^ (j + 1) := by positivity
      rw [← pow_succ, toInt_of_range (by omega) (by norm_num at hpow; omega)]
      obtain ⟨k, hk, hjk, hkn, hle⟩ := ih (j + 1) (by omega) (by omega)
      exact ⟨k, hk, by omega, hkn, hle⟩
    · exact ⟨j, rfl, le_rfl, hj, by omega⟩

/-- What is left of the pointers `xs` where the room `size` is made to be
enough for `want`: of the old memory `size` bytes are kept, not `size`
pointers. -/
def survivors (size want : ℤ) (xs : List (Option Addr)) : List (Option Addr) :=
  if size < want then xs.take (size / 8).toNat ++ List.replicate (xs.length - (size / 8).toNat) none else xs

theorem survivors_length (size want : ℤ) (xs : List (Option Addr)) :
    (survivors size want xs).length = xs.length := by
  rw [survivors]
  split_ifs
  · rw [List.length_append, List.length_take, List.length_replicate]
    omega
  · rfl

/-- All pointers survive exactly if those past the first eighth of the old
memory are null. -/
theorem survivors_eq_iff {size want : ℤ} :
    survivors size want xs = xs ↔
      (size < want → ∀ i x, size / 8 ≤ (i : ℕ) → xs[i]? = some x → x = none) := by
  rw [survivors]
  split_ifs with hgrow
  · rw [forall_prop_of_true hgrow]
    have hcut := List.take_append_drop (size / 8).toNat xs
    trans List.drop (size / 8).toNat xs = List.replicate (xs.length - (size / 8).toNat) none
    · exact ⟨fun h => (List.append_cancel_left (h.trans hcut.symm)).symm, fun h => by rw [← h, hcut]⟩
    rw [List.eq_replicate_iff, List.length_drop]
    refine ⟨fun h i x hi hx => h.2 x ?_, fun h => ⟨rfl, fun x hx => ?_⟩⟩
    · rw [List.mem_iff_getElem?]
      refine ⟨i - (size / 8).toNat, ?_⟩
      rw [List.getElem?_drop, ← hx]
      congr 1
      omega
    · obtain ⟨i, hi⟩ := List.mem_iff_getElem?.1 hx
      rw [List.getElem?_drop] at hi
      exact h ((size / 8).toNat + i) x (by omega) hi
  · exact iff_of_true rfl fun h => absurd h hgrow

end Index

end Mowgli
