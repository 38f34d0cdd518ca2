import Mowgli.Container.List.Move
/-!
# Positions in a list

`mowgli_node_nth`, `mowgli_node_index` and `mowgli_node_insert` of
`container/list.c`. `mowgli_node_nth` walks from the end that is nearer,
with a `size_t` that wraps where the list is empty. A walk that has not
ended after as many steps as there are cells, and one more, answers `none`.
-/

namespace Mowgli

namespace NodeField

open Store

variable {α : Type} (F : NodeField α)

/-- `for (; iter != pos && n != NULL; iter++, n = n->next)`. -/
def nthForward (m : Store α) (pos : ℕ) : ℕ → ℕ → Option Addr → Option (Option Addr)
  | _, _, none => some none
  | 0, iter, some a => if iter = pos then some (some a) else none
  | fuel + 1, iter, some a =>
    if iter = pos then some (some a)
    else do
      let x ← m.get a
      nthForward m pos fuel (iter + 1) (F.get x).next

/-- `for (; iter != pos && n != NULL; iter--, n = n->prev)`. -/
def nthBackward (m : Store α) (pos : ℕ) : ℕ → ℕ → Option Addr → Option (Option Addr)
  | _, _, none => some none
  | 0, iter, some a => if iter = pos then some (some a) else none
  | fuel + 1, iter, some a =>
    if iter = pos then some (some a)
    else do
      let x ← m.get a
      nthBackward m pos fuel (sizeDec iter) (F.get x).prev

/-- `mowgli_node_nth`. -/
def nodeNth (m : Store α) (l : MowgliList) (pos : ℕ) : Option (Option Addr) :=
  if pos < l.count / 2 then F.nthForward m pos m.live.card 0 l.head
  else F.nthBackward m pos m.live.card (sizeDec l.count) l.tail

/-- `mowgli_node_nth_data`. -/
def nodeNthData (m : Store α) (l : MowgliList) (pos : ℕ) : Option (Option Addr) := do
  let n ← F.nodeNth m l pos
  match n with
  | none => some none
  | some n => F.data m n

/-- `mowgli_node_insert`. -/
def nodeInsert (m : Store α) (data : Option Addr) (n : Addr) (l : MowgliList) (pos : ℕ) :
    Option (Store α × MowgliList) := do
  let tn ← F.nodeNth m l pos
  F.nodeAddBefore m data n l tn

/-- `for (iter = 0, tn = l->head; tn != n && tn != NULL; iter++, tn = tn->next)`. -/
def indexLoop (m : Store α) (n : Addr) : ℕ → ℕ → Option Addr → Option ℕ
  | _, iter, none => some iter
  | 0, iter, some a => if a = n then some iter else none
  | fuel + 1, iter, some a =>
    if a = n then some iter
    else do
      let x ← m.get a
      indexLoop m n fuel (iter + 1) (F.get x).next

/-- `mowgli_node_index`. -/
def nodeIndex (m : Store α) (n : Addr) (l : MowgliList) : Option ℤ := do
  let iter ← F.indexLoop m n m.live.card 0 l.head
  some (if (iter : ℤ) < l.count then iter else -1)

variable {F} {m : Store α} {l : MowgliList} {xs ys zs : List Addr} {a b n : Addr} {p hd tl q : Option Addr}

theorem nthForward_spec (pos : ℕ) (fuel : ℕ) {iter : ℕ} (h : (F.links m).Seg p hd xs tl none)
    (hpos : iter ≤ pos) (hfuel : xs.length ≤ fuel) :
    F.nthForward m pos fuel iter hd = some xs[pos - iter]? := by
  induction xs generalizing p hd iter fuel with
  | nil =>
    obtain ⟨rfl, -⟩ := h
    cases fuel <;> rfl
  | cons a xs ih =>
    obtain ⟨rfl, n, ha, h⟩ := h
    rw [List.length_cons] at hfuel
    obtain ⟨fuel, rfl⟩ : ∃ k, fuel = k + 1 := ⟨fuel - 1, by omega⟩
    unfold nthForward
    split_ifs with hi
    · rw [hi, Nat.sub_self]
      rfl
    · obtain ⟨x, hx, -, hn⟩ := exists_of_links ha
      have hsub : pos - iter = (pos - (iter + 1)) + 1 := by omega
      rw [hx, Option.bind_eq_bind, Option.bind_some, hn, ih fuel h (by omega) (by omega), hsub,
        List.getElem?_cons_succ]

/-- The walk back from the last of the cells up to a place. -/
theorem nthBackward_spec (pos : ℕ) (fuel : ℕ) (h : (F.links m).Seg none hd xs tl q)
    (hfuel : xs.length ≤ fuel) :
    F.nthBackward m pos fuel (sizeDec xs.length) tl = some xs[pos]? := by
  induction xs using List.reverseRecOn generalizing tl q fuel with
  | nil =>
    obtain ⟨-, rfl⟩ := h
    cases fuel <;> rfl
  | append_singleton xs a ih =>
    obtain ⟨p, n, hxs, rfl, n', ha, -, rfl⟩ := Links.seg_append.1 h
    rw [List.length_append, List.length_singleton] at hfuel ⊢
    obtain ⟨fuel, rfl⟩ : ∃ k, fuel = k + 1 := ⟨fuel - 1, by omega⟩
    unfold nthBackward
    rw [sizeDec_succ]
    split_ifs with hi
    · rw [← hi, List.getElem?_append_right le_rfl, Nat.sub_self]
      rfl
    · obtain ⟨x, hx, hp, -⟩ := exists_of_links ha
      rw [hx, Option.bind_eq_bind, Option.bind_some, hp, ih fuel hxs (by omega)]
      by_cases hlt : pos < xs.length
      · rw [List.getElem?_append_left hlt]
      · rw [List.getElem?_eq_none (by omega), List.getElem?_eq_none (by
          rw [List.length_append, List.length_singleton]
          omega)]

/-- **`mowgli_node_nth`** is the cell at the position, whichever end it
walks from, and null past the last. -/
theorem Holds.nodeNth (h : F.Holds m l xs) (pos : ℕ) : F.nodeNth m l pos = some xs[pos]? := by
  unfold NodeField.nodeNth
  split_ifs
  · exact nthForward_spec pos _ h.dll (Nat.zero_le _) h.length_le
  · rw [h.count]
    exact nthBackward_spec pos _ h.dll h.length_le

/-- The data at a position, and null past the last. -/
theorem Holds.nodeNthData (h : F.Holds m l xs) (pos : ℕ) :
    F.nodeNthData m l pos = xs[pos]?.elim (some none) (F.data m) := by
  rw [NodeField.nodeNthData, h.nodeNth, Option.bind_eq_bind, Option.bind_some]
  cases xs[pos]? <;> rfl

/-- **Inserting at a position**, or at the end if it is past it. -/
theorem Holds.nodeInsert (h : F.Holds m l xs) (d : Option Addr) (hn : n ∈ m.live) (hxs : n ∉ xs) (pos : ℕ) :
    ∃ m' l', F.nodeInsert m d n l pos = some (m', l') ∧
      F.Inserts m m' l' n d xs (xs.take pos ++ n :: xs.drop pos) := by
  have hcut : xs.take pos ++ xs.drop pos = xs := List.take_append_drop pos xs
  rw [← hcut] at h hxs
  obtain ⟨m', l', hrun, hins⟩ := h.nodeAddBefore d hn hxs
  rw [hcut] at h hins
  refine ⟨m', l', ?_, hins⟩
  rw [List.head?_drop] at hrun
  rw [NodeField.nodeInsert, h.nodeNth pos, Option.bind_eq_bind, Option.bind_some, hrun]

theorem indexLoop_spec (n : Addr) (fuel : ℕ) {iter : ℕ} (h : (F.links m).Seg p hd xs tl none)
    (hfuel : xs.length ≤ fuel) :
    F.indexLoop m n fuel iter hd = some (iter + xs.idxOf n) := by
  induction xs generalizing p hd iter fuel with
  | nil =>
    obtain ⟨rfl, -⟩ := h
    rw [List.idxOf_nil]
    cases fuel <;> rfl
  | cons a xs ih =>
    obtain ⟨rfl, n', ha, h⟩ := h
    rw [List.length_cons] at hfuel
    obtain ⟨fuel, rfl⟩ : ∃ k, fuel = k + 1 := ⟨fuel - 1, by omega⟩
    unfold indexLoop
    split_ifs with hi
    · rw [hi, List.idxOf_cons_self]
      rfl
    · obtain ⟨x, hx, -, hn⟩ := exists_of_links ha
      rw [hx, Option.bind_eq_bind, Option.bind_some, hn, ih fuel h (by omega), List.idxOf_cons_ne _ hi]
      congr 1
      omega

/-- **`mowgli_node_index`** is the position of a cell that is listed. -/
theorem Holds.nodeIndex (h : F.Holds m l xs) (n : Addr) :
    F.nodeIndex m n l = some (if n ∈ xs then (xs.idxOf n : ℤ) else -1) := by
  rw [NodeField.nodeIndex, indexLoop_spec n _ h.dll h.length_le, Option.bind_eq_bind, Option.bind_some,
    Nat.zero_add, h.count]
  by_cases hn : n ∈ xs
  · rw [if_pos hn, if_pos (by exact_mod_cast List.idxOf_lt_length_of_mem hn)]
  · rw [if_neg hn, if_neg (by
      rw [List.idxOf_eq_length hn]
      omega)]

/-- Position and index are inverse to one another. -/
theorem Holds.nth_iff_index (h : F.Holds m l xs) (pos : ℕ) (n : Addr) :
    F.nodeNth m l pos = some (some n) ↔ F.nodeIndex m n l = some (pos : ℤ) := by
  rw [h.nodeNth, h.nodeIndex, Option.some_inj, Option.some_inj]
  constructor
  · intro hpos
    obtain ⟨hlt, hget⟩ := List.getElem?_eq_some_iff.1 hpos
    rw [if_pos (hget ▸ List.getElem_mem hlt), ← hget, h.nodup.idxOf_getElem]
  · intro hidx
    split_ifs at hidx with hn
    have hi : xs.idxOf n = pos := by exact_mod_cast hidx
    rw [← hi, List.getElem?_eq_getElem (List.idxOf_lt_length_of_mem hn), List.getElem_idxOf]

end NodeField

end Mowgli
