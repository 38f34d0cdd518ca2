import Mowgli.Container.Dictionary.Retune
/-!
# Finding an element

After `retune` the root is the element with the key, or the key would
stand next to it. So `find` answers the element with the key if there is
one.
-/

namespace Mowgli

namespace Dictionary

open Store BinTree

variable {K D : Type} {C : Comparator K} {d : Dictionary K D} {t : DTree K D} {key : K}

/-- A key has one place among sorted elements. -/
theorem cut_of_sorted {xs : List (Item Addr K D)} (h : xs.Pairwise fun x y => C.cmp x.key y.key < 0) (key : K) :
    Cut (fun x : Item Addr K D => C.cmp key x.key) xs := by
  refine h.imp fun {x y} hxy hle => ?_
  rcases hle.lt_or_eq with hlt | heq
  · exact C.trans hlt hxy
  · rwa [C.eq_of_zero heq]

/-- **Where `retune` goes.** -/
theorem splay_near (hne : t ≠ nil) (h : t.inorder.Pairwise fun x y => C.cmp x.key y.key < 0)
    (key : K) :
    ∃ l x r, splay (fun x : Item Addr K D => C.cmp key x.key) t = node l x r ∧
      t.inorder = l.inorder ++ x :: r.inorder ∧
      (key = x.key ∨
        ((∀ y ∈ t.inorder, y.key ≠ key) ∧
          ((C.cmp key x.key < 0 ∧ ∀ y ∈ l.inorder, C.cmp y.key key < 0) ∨
            (0 < C.cmp key x.key ∧ ∀ y ∈ r.inorder, C.cmp key y.key < 0)))) := by
  obtain ⟨l, x, r, hs, hin, h0 | ⟨hno, hx⟩⟩ := splay_root hne (cut_of_sorted h key)
  · exact ⟨l, x, r, hs, hin, Or.inl (C.eq_of_zero h0)⟩
  refine ⟨l, x, r, hs, hin, Or.inr ⟨fun y hy hkey => hno y hy ?_, ?_⟩⟩
  · rw [hkey, C.cmp_self]
  · exact hx.imp_left fun ⟨hneg, hl⟩ => ⟨hneg, fun y hy => (C.swap ..).2 (hl y hy)⟩

/-- `retune` splays the tree and keeps it wired. -/
theorem Wired.retune (h : Wired d t) (key : K) :
    ∃ m root, d.retune key = some { d with mem := m, root := root } ∧
      Wired { d with mem := m, root := root } (splay (fun x => d.compareCb key x.key) t) := by
  obtain ⟨m, root, hrun, hholds, hsame⟩ := retune_spec h.holds key
  have hin := inorder_splay (fun x : Item Addr K D => d.compareCb key x.key) t
  refine ⟨m, root, hrun, hholds, ?_, ?_, ?_, ?_⟩
  · rw [hin, hsame.live]
    exact h.live
  · rw [hin, threads_of_same hsame]
    exact h.threaded
  · rw [hin]
    exact h.count
  · rw [hin, positions_of_same hsame]
    exact h.clean

/-- **What `find` answers, whatever the order of the tree**: the root after
the splay, if it is equal to the key. -/
theorem Wired.find (h : Wired d t) (key : K) :
    ∃ m root, Wired { d with mem := m, root := root } (splay (fun x => d.compareCb key x.key) t) ∧
      ((∃ l x r, splay (fun x => d.compareCb key x.key) t = node l x r ∧ d.compareCb key x.key = 0 ∧
          d.find key = some (some x.cell, { d with mem := m, root := root })) ∨
        ((∀ l x r, splay (fun x => d.compareCb key x.key) t = node l x r → d.compareCb key x.key ≠ 0) ∧
          d.find key = some (none, { d with mem := m, root := root }))) := by
  obtain ⟨m, root, hrun, h'⟩ := h.retune key
  refine ⟨m, root, h', ?_⟩
  have hlinked := h'.holds.linked
  have hcontents := h'.holds.contents
  rcases hs : splay (fun x => d.compareCb key x.key) t with - | ⟨l, x, r⟩
  · rw [hs] at hlinked
    obtain rfl : root = none := hlinked
    exact Or.inr ⟨by simp [hs], by simp [Dictionary.find, hrun]⟩
  · rw [hs] at hlinked hcontents
    obtain ⟨rfl, -⟩ := hlinked
    obtain ⟨e, he, hk, -⟩ := exists_of_contents (hcontents x (by simp))
    have hfind : d.find key = if d.compareCb key x.key = 0
        then some (some x.cell, { d with mem := m, root := some x.cell })
        else some (none, { d with mem := m, root := some x.cell }) := by
      simp only [Dictionary.find, hrun, Option.bind_eq_bind, Option.bind_some]
      rw [he, Option.bind_some, hk]
    by_cases h0 : d.compareCb key x.key = 0
    · exact Or.inl ⟨l, x, r, hs, h0, by rw [hfind, if_pos h0]⟩
    · refine Or.inr ⟨fun l' x' r' heq => ?_, by rw [hfind, if_neg h0]⟩
      obtain ⟨-, rfl, -⟩ := BinTree.node.inj (hs.symm.trans heq)
      exact h0

/-- An element with the key would be the root after the splay. -/
theorem Inv.keys_ne_of_splay (h : Inv C d t)
    (hne : ∀ l x r, splay (fun x => C.cmp key x.key) t = node l x r → C.cmp key x.key ≠ 0) :
    ∀ x ∈ t.inorder, x.key ≠ key := by
  intro x hx hk
  have ht : t ≠ nil := by
    rintro rfl
    simp at hx
  obtain ⟨l, y, r, hs, -, rfl | ⟨hno, -⟩⟩ := splay_near ht h.sorted key
  · exact hne l y r hs (C.cmp_self _)
  · exact hno x hx hk

/-- **What `find` answers**: the element with the key, which it makes the
root, or that there is none. -/
theorem Inv.find (h : Inv C d t) (key : K) :
    ∃ m root t', Inv C { d with mem := m, root := root } t' ∧ t'.inorder = t.inorder ∧
      ((∃ l x r, t' = node l x r ∧ x.key = key ∧
          d.find key = some (some x.cell, { d with mem := m, root := root })) ∨
        ((∀ x ∈ t.inorder, x.key ≠ key) ∧
          d.find key = some (none, { d with mem := m, root := root }))) := by
  obtain ⟨m, root, hw, hfind⟩ := h.wired.find key
  have hc : ∀ k, d.compareCb key k = C.cmp key k := fun k => by rw [h.compareCb]
  simp only [hc] at hw hfind
  have hin := inorder_splay (fun x : Item Addr K D => C.cmp key x.key) t
  refine ⟨m, root, _, hw.inv h.compareCb (hin ▸ h.sorted), hin, ?_⟩
  rcases hfind with ⟨l, x, r, hs, h0, hfind⟩ | ⟨hne, hfind⟩
  · exact Or.inl ⟨l, x, r, hs, (C.eq_of_zero h0).symm, hfind⟩
  · exact Or.inr ⟨h.keys_ne_of_splay hne, hfind⟩

end Dictionary

end Mowgli
