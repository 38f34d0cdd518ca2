import Mowgli.Container.Dictionary.Map
import Mowgli.Library.Calls
/-!
# Calling back on every element of a dictionary

`foreach` follows the list, and the list is the tree in order, so where that
is a search tree the callback is called on the elements in the order of
their keys. What it returns is not looked at.
-/

namespace Mowgli

namespace Dictionary

open Store Calls

variable {K D σ : Type}

/-- `n ? n->next : NULL`. -/
def nextOf (m : Store (DictElem K D)) : Option Addr → Option (Option Addr)
  | none => some none
  | some n => (m.get n).map DictElem.next

/-- The loop `MOWGLI_LIST_FOREACH_SAFE(n, tn, dtree->head)` of `foreach`. The
value `foreach_cb` returns is ignored. -/
def foreachLoop (m : Store (DictElem K D)) (foreachCb : Option (Item Addr K D → σ → ℤ × σ)) :
    ℕ → Option Addr → Option Addr → σ → Option σ
  | 0, _, _, _ => none
  | _ + 1, none, _, s => some s
  | fuel + 1, some n, tn, s => do
    let delem ← m.get n
    let s := match foreachCb with
      | none => s
      | some cb => (cb ⟨n, delem.key, delem.data⟩ s).2
    let tn' ← nextOf m tn
    foreachLoop m foreachCb fuel tn tn' s

/-- `mowgli_dictionary_foreach`. The callback is given the element, and
works on the state `privdata` points to. -/
def foreach (d : Dictionary K D) (foreachCb : Option (Item Addr K D → σ → ℤ × σ)) (privdata : σ) :
    Option σ := do
  let tn ← nextOf d.mem d.head
  foreachLoop d.mem foreachCb d.fuel d.head tn privdata

/-- The elements `foreach` calls the callback on. -/
def foreachCalls (d : Dictionary K D) (cb : Item Addr K D → σ → ℤ × σ) (s : σ) :
    Option (List (Item Addr K D)) := (d.foreach (some (noted cb)) (s, [])).map Prod.snd

variable {m : Store (DictElem K D)} {d : Dictionary K D} {t : DTree K D}

/-- **The loop over a list** calls the callback on its elements one after
another. -/
theorem foreachLoop_eq (cb : Item Addr K D → σ → ℤ × σ) {xs : List (Item Addr K D)}
    {p hd tl : Option Addr} {fuel : ℕ} (s : σ) (h : (threads m).Seg p hd (xs.map Item.cell) tl none)
    (hc : ∀ x ∈ xs, contents m x.cell = some (x.key, x.data)) (hfuel : xs.length < fuel) :
    ∃ tn, nextOf m hd = some tn ∧
      foreachLoop m (some cb) fuel hd tn s = some (xs.foldl (fun s x => (cb x s).2) s) := by
  induction xs generalizing p hd fuel s with
  | nil =>
    obtain ⟨fuel, rfl⟩ := Nat.exists_eq_add_of_lt hfuel
    obtain ⟨rfl, -⟩ := h
    exact ⟨none, rfl, by rw [foreachLoop]; rfl⟩
  | cons x xs ih =>
    obtain ⟨fuel, rfl⟩ : ∃ n, fuel = n + 1 := ⟨fuel - 1, by omega⟩
    obtain ⟨rfl, n, hx, hrest⟩ := h
    obtain ⟨e, he, -, rfl⟩ := exists_of_threads hx
    obtain ⟨e', he', hkey, hdata⟩ := exists_of_contents (hc x (by simp))
    obtain rfl : e = e' := Option.some.inj (he.symm.trans he')
    obtain ⟨tn, htn, hloop⟩ := ih (cb x s).2 hrest (fun y hy => hc y (by simp [hy]))
      (show xs.length < fuel by rw [List.length_cons] at hfuel; omega)
    refine ⟨e.next, by rw [nextOf, he]; rfl, ?_⟩
    rw [foreachLoop, he]
    simp only [Option.bind_eq_bind, Option.bind_some, htn, hkey, hdata]
    exact hloop

/-- **`foreach` calls the callback on every element**, in the order of the list. -/
theorem Wired.foreachCalls (h : Wired d t) (cb : Item Addr K D → σ → ℤ × σ) (s : σ) :
    d.foreachCalls cb s = some t.inorder := by
  have hlen := h.holds.length_le
  obtain ⟨tn, htn, hloop⟩ := foreachLoop_eq (noted cb) (s, []) h.threaded
    h.holds.contents (show t.inorder.length < d.fuel by rw [Dictionary.fuel]; omega)
  rw [Dictionary.foreachCalls, Dictionary.foreach, htn, Option.bind_eq_bind, Option.bind_some, hloop,
    foldl_noted]
  rfl

end Dictionary

end Mowgli
