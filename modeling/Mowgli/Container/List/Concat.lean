import Mowgli.Container.List.Runs
/-!
# Putting two lists together

`mowgli_list_concat` of `container/list.c`. It takes the tail of the second
list whatever that list has, so a list that something empty is put behind
is left without a tail.
-/

namespace Mowgli

namespace NodeField

open Store

variable {α : Type} (F : NodeField α)

/-- `mowgli_list_concat`: the tail of `l` is linked to the head of `l2`. -/
def concatLink (m : Store α) (l l2 : MowgliList) : Option (Store α) :=
  match l.tail with
  | none => some m
  | some t => do
    let m ← F.setNext m t l2.head
    let x ← m.get t
    F.setPrev? m (F.get x).next (some t)

/-- `mowgli_list_concat`: the two lists after it. -/
def listConcat (m : Store α) (l l2 : MowgliList) : Option (Store α × MowgliList × MowgliList) := do
  let head := if l.head = none then l2.head else l.head
  let m ← F.concatLink m l l2
  some (m, ⟨head, l2.tail, l.count + l2.count⟩, ⟨none, none, 0⟩)

variable {F} {m m' : Store α} {l l2 l' : MowgliList} {xs ys : List Addr} {t b : Addr}

/-- The tail of a list that has cells. -/
theorem Holds.exists_tail (h : F.Holds m l xs) (hxs : xs ≠ []) : ∃ t, l.tail = some t ∧ t ∈ xs := by
  have htail := h.tail_eq
  rw [List.getLast?_eq_some_getLast hxs] at htail
  exact ⟨_, htail, List.getLast_mem hxs⟩

/-- The head of a list that has cells. -/
theorem Holds.exists_head (h : F.Holds m l xs) (hxs : xs ≠ []) : ∃ b, l.head = some b ∧ b ∈ xs := by
  have hhead := h.head_eq
  rw [List.head?_eq_some_head hxs] at hhead
  exact ⟨_, hhead, List.head_mem hxs⟩

/-- What links there are after the tail `t` has been linked to the head of `l2`. -/
theorem concatLink_spec (ht : t ∈ m.live) (htail : l.tail = some t) (hhead : ∀ b, l2.head = some b → b ∈ m.live) :
    ∃ m', F.concatLink m l l2 = some m' ∧ F.links m' = ((F.links m).setSnd t l2.head).setFst? l2.head (some t) ∧
      F.data m' = F.data m ∧ F.Keeps m m' := by
  obtain ⟨m₁, hm₁, hl₁, hd₁, hk₁⟩ := setNext_spec (F := F) ht l2.head
  obtain ⟨x, hx⟩ := mem_live.1 (hk₁.live.symm ▸ ht)
  have hnext : (F.get x).next = l2.head := by
    obtain ⟨v, hv⟩ := Option.isSome_iff_exists.1 (links_isSome (F := F) ht)
    have hlx := congrFun hl₁ t
    rw [Links.setSnd_self, hv, links, hx] at hlx
    exact congrArg Prod.snd (Option.some.inj hlx)
  obtain ⟨m₂, hm₂, hl₂, hd₂, hk₂⟩ := setPrev?_spec (F := F) (m := m₁)
    (fun b hb => hk₁.live.symm ▸ hhead b hb) (some t)
  refine ⟨m₂, ?_, hl₂.trans (by rw [hl₁]), hd₂.trans hd₁, hk₁.trans hk₂⟩
  simp only [concatLink, htail, hm₁, hx, hnext, hm₂, Option.bind_eq_bind, Option.bind_some]

/-- **A list with cells behind a list with cells.** -/
theorem Holds.concat (h : F.Holds m l xs) (h2 : F.Holds m l2 ys) (hxy : ∀ a ∈ xs, a ∉ ys) (hxs : xs ≠ [])
    (hys : ys ≠ []) : ∃ m' l', F.listConcat m l l2 = some (m', l', .zero) ∧ F.Holds m' l' (xs ++ ys) ∧
      F.Keeps m m' ∧ F.data m' = F.data m := by
  obtain ⟨t, htail, ht⟩ := h.exists_tail hxs
  obtain ⟨a, hhead, -⟩ := h.exists_head hxs
  obtain ⟨b, hhead2, hb⟩ := h2.exists_head hys
  obtain ⟨m', hm', hl', hd', hk'⟩ := concatLink_spec (h.mem_live ht) htail
    fun c (hc : l2.head = some c) => by
      rw [hhead2] at hc
      exact Option.some.inj hc ▸ h2.mem_live hb
  refine ⟨m', ⟨l.head, l2.tail, l.count + l2.count⟩, ?_, ⟨?_, ?_, ?_⟩, hk', hd'⟩
  · rw [listConcat, hhead, if_neg (by simp), hm']
    rfl
  · have hdll := h.dll
    have hdll2 := h2.dll
    rw [htail] at hdll
    rw [hhead2] at hdll2 hl'
    rw [hl', Links.setFst?_some]
    exact hdll.concat hdll2 h.nodup h2.nodup hxy
  · rw [List.nodup_append]
    refine ⟨h.nodup, h2.nodup, ?_⟩
    rintro a ha c hc rfl
    exact hxy a ha hc
  · rw [List.length_append, ← h.count, ← h2.count]

/-- A list without cells has neither head nor tail. -/
theorem Holds.eq_zero (h : F.Holds m l []) : l = .zero := by
  have hhead := h.head_eq
  have htail := h.tail_eq
  have hcount := h.count
  obtain ⟨head, tail, count⟩ := l
  rw [MowgliList.zero, MowgliList.mk.injEq]
  exact ⟨hhead, htail, hcount⟩

/-- **Concatenation is right unless only the second list is empty.** Two lists
that have no cell in common are put together, and the second one emptied,
exactly if the first is empty or the second is not. -/
theorem listConcat_iff (h : F.Holds m l xs) (h2 : F.Holds m l2 ys) (hxy : ∀ a ∈ xs, a ∉ ys) :
    (∃ m' l' l2', F.listConcat m l l2 = some (m', l', l2') ∧ F.Holds m' l' (xs ++ ys) ∧ F.Holds m' l2' [] ∧
      F.data m' = F.data m) ↔ (xs = [] ∨ ys ≠ []) := by
  constructor
  · rintro ⟨m', l', l2', hrun, hl', -, -⟩
    by_contra hno
    rw [not_or, not_not] at hno
    obtain ⟨hxs, rfl⟩ := hno
    obtain ⟨m₁, hm₁, hrun⟩ := Option.bind_eq_some_iff.1 hrun
    obtain ⟨rfl, hlists⟩ := Prod.mk.inj (Option.some.inj hrun)
    obtain ⟨rfl, -⟩ := Prod.mk.inj hlists
    obtain ⟨t, htail, -⟩ := hl'.exists_tail (by simpa using hxs)
    rw [h2.eq_zero] at htail
    cases htail
  · intro hor
    by_cases hxs : xs = []
    · subst hxs
      refine ⟨m, l2, .zero, ?_, h2, holds_zero m, rfl⟩
      rw [h.eq_zero, listConcat]
      obtain ⟨head, tail, count⟩ := l2
      simp only [MowgliList.zero, concatLink, if_true, Option.bind_eq_bind, Option.bind_some, Nat.zero_add]
    · obtain ⟨m', l', hrun, hl', -, hd'⟩ := h.concat h2 hxy hxs (hor.resolve_left hxs)
      exact ⟨m', l', .zero, hrun, hl', holds_zero m', hd'⟩

/-- Two nodes, linked to nothing. -/
def twoNodes : Store MowgliNode := (Store.empty.set 1 ⟨none, none, some 7⟩).set 2 ⟨none, none, some 8⟩

theorem twoNodes_holds {n : Addr} (hn : n = 1 ∨ n = 2) :
    LinkedList.bareNode.Holds twoNodes ⟨some n, some n, 1⟩ [n] := by
  refine ⟨⟨rfl, none, ?_, rfl, rfl⟩, List.nodup_singleton n, rfl⟩
  rcases hn with rfl | rfl
  · rfl
  · rfl

theorem listConcat_iff_two : ∃ m' l' l2',
    LinkedList.bareNode.listConcat twoNodes ⟨some 1, some 1, 1⟩ ⟨some 2, some 2, 1⟩ = some (m', l', l2') ∧
      LinkedList.bareNode.Holds m' l' [1, 2] := by
  obtain ⟨m', l', l2', hrun, hl', -⟩ := (listConcat_iff (twoNodes_holds (Or.inl rfl)) (twoNodes_holds (Or.inr rfl))
    (by decide)).2 (Or.inr (by decide))
  exact ⟨m', l', l2', hrun, hl'⟩

/-- **A list that an empty one is put behind loses its tail.** -/
theorem concat_loses_tail : ∃ (m m' : Store MowgliNode) (l l' : MowgliList), LinkedList.bareNode.Holds m l [1] ∧
    LinkedList.bareNode.Holds m .zero [] ∧ LinkedList.bareNode.listConcat m l .zero = some (m', l', .zero) ∧
      l'.head = some 1 ∧ l'.tail = none ∧ ¬ LinkedList.bareNode.Holds m' l' [1] := by
  have hhead : ∀ b, MowgliList.zero.head = some b → b ∈ twoNodes.live := fun b hb => by cases hb
  obtain ⟨m', hm', -⟩ := concatLink_spec (F := LinkedList.bareNode) (m := twoNodes) (l := ⟨some 1, some 1, 1⟩)
    (t := 1) (by decide) rfl hhead
  refine ⟨twoNodes, m', ⟨some 1, some 1, 1⟩, ⟨some 1, none, 1⟩, twoNodes_holds (Or.inl rfl), holds_zero _, ?_, rfl, rfl,
    fun h => ?_⟩
  · rw [listConcat, hm']
    rfl
  · have htail := h.tail_eq
    cases htail

end NodeField

end Mowgli
