import Mowgli.Container.Dictionary.Map
/-!
# Comparators whose results are no `int`s

A comparator returns a `ptrdiff_t`. `find` and `retune` take it as it is,
`link` stores it in an `int`. Where that loses the sign, an element is put
on the wrong side of the root and the tree is no search tree any more; yet
it stays a tree and a list, and what `find` misses in it `add` misses too.
Where nothing is left but zero, `link` takes the root for the key's own
element, overwrites it and frees the new one. `add` retunes twice before it
does so, and each time the other neighbour of the key's place is at the root.
-/

namespace Mowgli

namespace Dictionary

open Store BinTree

variable {K D : Type}

/-- A comparator that is a strict total order on keys, with results in the
range of `ptrdiff_t`. -/
structure PtrComparator (K : Type) where
  cmp : K → K → ℤ
  swap : ∀ a b, cmp a b < 0 ↔ 0 < cmp b a
  trans : ∀ {a b c}, cmp a b < 0 → cmp b c < 0 → cmp a c < 0
  eq_of_zero : ∀ {a b}, cmp a b = 0 → a = b
  range : ∀ a b, -9223372036854775808 ≤ cmp a b ∧ cmp a b ≤ 9223372036854775807

/-- The runs of a dictionary over such a comparator, from an empty one. -/
abbrev PtrRuns (A : Allocator (DictElem K D)) (C : PtrComparator K) :
    List (Op K D × Out D) → Dictionary K D → Prop :=
  Run (Op.run A) (fun _ _ => True) (create C.cmp)

variable {A : Allocator (DictElem K D)} {d d' d₁ d₂ : Dictionary K D} {t : DTree K D} {key : K} {data : D}

/-! ## What the calls keep -/

/-- **What `add` does, whatever the order of the tree**: it refuses a key
that `find` finds, and else links a new element. -/
theorem Wired.add (h : Wired d t) (key : K) (data : D) :
    ((∃ l x r, splay (fun x => d.compareCb key x.key) t = node l x r ∧ d.compareCb key x.key = 0) ∧
      ∃ m root line, Wired { d with mem := m, root := root } (splay (fun x => d.compareCb key x.key) t) ∧
        d.add A key data = some (none, { d with mem := m, root := root, log := d.log ++ [line] })) ∨
    ((∀ l x r, splay (fun x => d.compareCb key x.key) t = node l x r → d.compareCb key x.key ≠ 0) ∧
      ∃ m root, Wired { d with mem := m, root := root } (splay (fun x => d.compareCb key x.key) t) ∧
        d.find key = some (none, { d with mem := m, root := root }) ∧
        d.add A key data = (A.pick m).bind fun a =>
          (({ d with mem := m.set a (unlinkedElem key data), root := root } : Dictionary K D).link a).map
            fun d' => (some a, d')) := by
  obtain ⟨m, root, hw, ⟨l, x, r, hs, h0, hfind⟩ | ⟨hne, hfind⟩⟩ := h.find key
  · exact Or.inl ⟨⟨l, x, r, hs, h0⟩, m, root, _, hw, by rw [Dictionary.add, hfind]; rfl⟩
  · refine Or.inr ⟨hne, m, root, hw, hfind, ?_⟩
    rw [Dictionary.add, hfind]
    cases hpick : A.pick m with
    | none => simp only [Option.bind_eq_bind, Option.bind_some, hpick, Option.bind_none]
    | some a =>
      simp only [Option.bind_eq_bind, Option.bind_some, hpick, unlinkedElem]
      cases Dictionary.link { d with mem := m.set a ⟨none, none, none, none, data, key, 0⟩, root := root } a <;> rfl

/-- Linking keeps a dictionary wired. -/
theorem Wired.exists_link (h : Wired d t) {a : Addr} (ha : d.mem.get a = none) (key : K) (data : D) :
    ∃ d' t', ({ d with mem := d.mem.set a (unlinkedElem key data) } : Dictionary K D).link a = some d' ∧
      Wired d' t' ∧ d'.compareCb = d.compareCb := by
  obtain ⟨d', hrun, ⟨-, t', hg⟩ | ⟨l, x, r, -, ⟨-, t', hg⟩ | ⟨-, t', hg⟩ | ⟨-, ho⟩⟩⟩ := h.link ha key data
  · exact ⟨d', t', hrun, hg.wired, hg.compareCb⟩
  · exact ⟨d', t', hrun, hg.wired, hg.compareCb⟩
  · exact ⟨d', t', hrun, hg.wired, hg.compareCb⟩
  · exact ⟨d', _, hrun, ho.wired, ho.compareCb⟩

/-- **Every call keeps a dictionary wired.** -/
theorem Wired.step (h : Wired d t) {op : Op K D} {out : Out D} (hrun : op.run A d = some (out, d')) :
    ∃ t', Wired d' t' ∧ d'.compareCb = d.compareCb := by
  have hretrieve : ∀ key out d', d.find key = some (out, d') → ∃ t', Wired d' t' ∧ d'.compareCb = d.compareCb := by
    intro key out d' hfind
    obtain ⟨m, root, hw, ⟨l, x, r, -, -, hfind'⟩ | ⟨-, hfind'⟩⟩ := h.find key
    · obtain ⟨-, rfl⟩ := Prod.mk.inj (Option.some.inj (hfind.symm.trans hfind'))
      exact ⟨_, hw, rfl⟩
    · obtain ⟨-, rfl⟩ := Prod.mk.inj (Option.some.inj (hfind.symm.trans hfind'))
      exact ⟨_, hw, rfl⟩
  cases op with
  | add key data =>
    obtain ⟨⟨out', d''⟩, hadd, heq⟩ := Option.map_eq_some_iff.1 hrun
    obtain ⟨-, rfl⟩ := Prod.mk.inj heq
    rcases h.add (A := A) key data with ⟨-, m, root, line, hw, hadd'⟩ | ⟨-, m, root, hw, -, hadd'⟩
    · obtain ⟨-, rfl⟩ := Prod.mk.inj (Option.some.inj (hadd.symm.trans hadd'))
      exact ⟨_, ⟨hw.holds, hw.live, hw.threaded, hw.count, hw.clean⟩, rfl⟩
    · rw [hadd] at hadd'
      obtain ⟨a, hpick, hlink⟩ := Option.bind_eq_some_iff.1 hadd'.symm
      obtain ⟨d₂, t₂, hlink', hw₂, hcb₂⟩ := hw.exists_link (A.fresh hpick) key data
      rw [hlink'] at hlink
      obtain ⟨-, rfl⟩ := Prod.mk.inj (Option.some.inj hlink)
      exact ⟨t₂, hw₂, hcb₂⟩
  | find key =>
    obtain ⟨⟨out', d''⟩, hfind, heq⟩ := Option.map_eq_some_iff.1 hrun
    obtain ⟨-, rfl⟩ := Prod.mk.inj heq
    exact hretrieve key out' d'' hfind
  | retrieve key =>
    obtain ⟨⟨out', d''⟩, hretr, heq⟩ := Option.map_eq_some_iff.1 hrun
    obtain ⟨-, rfl⟩ := Prod.mk.inj heq
    obtain ⟨⟨elem, d₂⟩, hfind, hrest⟩ := Option.bind_eq_some_iff.1 hretr
    cases elem with
    | none =>
      obtain ⟨-, rfl⟩ := Prod.mk.inj (Option.some.inj hrest)
      exact hretrieve key none d₂ hfind
    | some delem =>
      obtain ⟨e, -, hrest⟩ := Option.bind_eq_some_iff.1 hrest
      obtain ⟨-, rfl⟩ := Prod.mk.inj (Option.some.inj hrest)
      exact hretrieve key (some delem) d₂ hfind
  | delete key =>
    obtain ⟨⟨out', d''⟩, hdel, heq⟩ := Option.map_eq_some_iff.1 hrun
    obtain ⟨-, rfl⟩ := Prod.mk.inj heq
    obtain ⟨d₂, t₂, hw₂, hcb₂, -, ⟨l, x, r, -, -, -, -, hdel'⟩ | ⟨-, -, hdel'⟩⟩ := h.delete key
    · obtain ⟨-, rfl⟩ := Prod.mk.inj (Option.some.inj (hdel.symm.trans hdel'))
      exact ⟨t₂, hw₂, hcb₂⟩
    · obtain ⟨-, rfl⟩ := Prod.mk.inj (Option.some.inj (hdel.symm.trans hdel'))
      exact ⟨t₂, hw₂, hcb₂⟩
  | getLinearIndex key =>
    obtain ⟨⟨out', d''⟩, hidx, heq⟩ := Option.map_eq_some_iff.1 hrun
    obtain ⟨-, rfl⟩ := Prod.mk.inj heq
    rcases h.getLinearIndex key with ⟨l, x, r, -, -, -, hidx'⟩ | ⟨-, d₂, t₂, hw₂, hcb₂, -, -, hidx'⟩
    · split_ifs at hidx'
      · obtain ⟨d₂, t₂, hw₂, hcb₂, -, -, hidx'⟩ := hidx'
        obtain ⟨-, rfl⟩ := Prod.mk.inj (Option.some.inj (hidx.symm.trans hidx'))
        exact ⟨t₂, hw₂, hcb₂⟩
      · rw [hidx'] at hidx
        cases hidx
    · obtain ⟨-, rfl⟩ := Prod.mk.inj (Option.some.inj (hidx.symm.trans hidx'))
      exact ⟨t₂, hw₂, hcb₂⟩

theorem PtrRuns.wired {C : PtrComparator K} {tr : List (Op K D × Out D)} (h : PtrRuns A C tr d) :
    (∃ t, Wired d t) ∧ d.compareCb = C.cmp :=
  Run.invariant (I := fun d : Dictionary K D => (∃ t, Wired d t) ∧ d.compareCb = C.cmp)
    ⟨⟨.nil, wired_create C.cmp⟩, rfl⟩ (fun {d op out d'} hd _ hrun => by
      obtain ⟨⟨t, hw⟩, hcb⟩ := hd
      obtain ⟨t', hw', hcb'⟩ := hw.step hrun
      exact ⟨⟨t', hw'⟩, hcb'.trans hcb⟩) h

/-! ## Adding a key that `find` misses -/

/-- **One more element**, with the key and data: the list has it at `a` and
all it had before, and nothing else is different about the elements. -/
structure OneMore (d d' : Dictionary K D) (a : Addr) (key : K) (data : D) : Prop where
  list : ∃ xs ys, (threads d.mem).Dll d.head (xs ++ ys) d.tail ∧
    (threads d'.mem).Dll d'.head (xs ++ a :: ys) d'.tail
  fresh : a ∉ d.mem.live
  live : d'.mem.live = insert a d.mem.live
  elem : contents d'.mem a = some (key, data)
  others : ∀ b ∈ d.mem.live, contents d'.mem b = contents d.mem b

/-- `add` adds one element and returns it. -/
def AddsOne (A : Allocator (DictElem K D)) (d : Dictionary K D) (key : K) (data : D) : Prop :=
  ∃ a d', d.add A key data = some (some a, d') ∧ OneMore d d' a key data

/-- A dictionary with one more item has one more element. -/
theorem OneMore.of_wired {t' : DTree K D} {xs ys : List (Item Addr K D)} {a : Addr} (h : Wired d t)
    (h' : Wired d' t') (hold : t.inorder = xs ++ ys) (hnew : t'.inorder = xs ++ ⟨a, key, data⟩ :: ys) :
    OneMore d d' a key data := by
  have hfresh : a ∉ d.mem.live := by
    intro ha
    obtain ⟨x, hx, hxa⟩ := h.live a ha
    have hnd := h'.holds.nodup
    rw [hnew, List.map_append, List.map_cons, List.nodup_middle, List.nodup_cons, ← List.map_append,
      ← hold] at hnd
    exact hnd.1 (List.mem_map.2 ⟨x, hx, hxa⟩)
  have hmem : ∀ x, x ∈ t'.inorder ↔ x = ⟨a, key, data⟩ ∨ x ∈ t.inorder := by
    intro x
    rw [hnew, hold]
    simp only [List.mem_append, List.mem_cons]
    tauto
  refine ⟨⟨xs.map Item.cell, ys.map Item.cell, ?_, ?_⟩, hfresh, Finset.ext fun b => ?_,
    h'.holds.contents _ ((hmem _).2 (Or.inl rfl)), fun b hb => ?_⟩
  · rw [← List.map_append, ← hold]
    exact h.threaded
  · have hdll := h'.threaded
    rwa [hnew, List.map_append, List.map_cons] at hdll
  · rw [Finset.mem_insert]
    constructor
    · intro hb
      obtain ⟨x, hx, rfl⟩ := h'.live b hb
      rcases (hmem x).1 hx with rfl | hx
      · exact Or.inl rfl
      · exact Or.inr (h.holds.mem_live hx)
    · rintro (rfl | hb)
      · exact h'.holds.mem_live ((hmem _).2 (Or.inl rfl))
      · obtain ⟨x, hx, rfl⟩ := h.live b hb
        exact h'.holds.mem_live ((hmem x).2 (Or.inr hx))
  · obtain ⟨x, hx, rfl⟩ := h.live b hb
    rw [h.holds.contents x hx, h'.holds.contents x ((hmem x).2 (Or.inr hx))]

/-- A splay that misses a key, once more. -/
theorem splay_ne_zero {c : Item Addr K D → ℤ} {t : DTree K D}
    (hne : ∀ l x r, splay c t = node l x r → c x ≠ 0) :
    ∀ l x r, splay c (splay c t) = node l x r → c x ≠ 0 := by
  intro l x r hs
  by_cases ht : t = nil
  · subst ht
    cases hs
  obtain ⟨l₁, x₁, r₁, hs₁, hmiss, -⟩ := splay_any (c := c) ht
  have hne₁ : splay c t ≠ nil := by rw [hs₁]; simp
  obtain ⟨l₂, x₂, r₂, hs₂, -, hx₂⟩ := splay_any (c := c) hne₁
  obtain ⟨-, rfl, -⟩ := BinTree.node.inj (hs.symm.trans hs₂)
  exact hx₂ (hmiss (hne l₁ x₁ r₁ hs₁))

/-- What `find` leaves of a dictionary in which it finds no element. -/
theorem Wired.find_none (h : Wired d t) (hfind : d.find key = some (none, d₁)) : ∃ m root,
    d₁ = { d with mem := m, root := root } ∧
      Wired { d with mem := m, root := root } (splay (fun x => d.compareCb key x.key) t) ∧
      ∀ l x r, splay (fun x => d.compareCb key x.key) t = node l x r → d.compareCb key x.key ≠ 0 := by
  obtain ⟨m, root, hw, ⟨l, x, r, -, -, hfind'⟩ | ⟨hne, hfind'⟩⟩ := h.find key
  · obtain ⟨hnone, -⟩ := Prod.mk.inj (Option.some.inj (hfind.symm.trans hfind'))
    cases hnone
  · exact ⟨m, root, (Prod.mk.inj (Option.some.inj (hfind.symm.trans hfind'))).2, hw, hne⟩

/-- The element at the root is told from a key by an `int`. -/
def RootTold (d : Dictionary K D) (key : K) : Prop :=
  ∀ a k v, d.root = some a → contents d.mem a = some (k, v) → toInt (d.compareCb key k) ≠ 0

/-- What is at the root. -/
theorem Wired.rootTold_iff (h : Wired d t) {l r : DTree K D} {x : Item Addr K D} (ht : t = node l x r) (key : K) :
    d.RootTold key ↔ toInt (d.compareCb key x.key) ≠ 0 := by
  have hroot : d.root = some x.cell := by
    rw [h.holds.linked.eq_root?, ht]
    rfl
  have hx := h.holds.contents x (by rw [ht]; simp)
  refine ⟨fun hd => hd x.cell x.key x.data hroot hx, fun hne a k v ha hc => ?_⟩
  obtain rfl := Option.some.inj (hroot.symm.trans ha)
  obtain ⟨rfl, rfl⟩ := Prod.mk.inj (Option.some.inj (hx.symm.trans hc))
  exact hne

/-- A key that `find` misses it misses again. -/
theorem Wired.find_again (h : Wired d t) (hfind : d.find key = some (none, d₁)) : ∃ d₂, d₁.find key = some (none, d₂) := by
  obtain ⟨m, root, rfl, hw, hne⟩ := h.find_none hfind
  obtain ⟨m₂, root₂, -, ⟨l, x, r, hs, h0, -⟩ | ⟨-, hfind₂⟩⟩ := hw.find key
  · exact absurd h0 (splay_ne_zero hne l x r hs)
  · exact ⟨_, hfind₂⟩

/-- And then the same element is at the root as after the first time. -/
theorem Wired.rootTold_thrice {d₃ : Dictionary K D} (h : Wired d t) (hfind : d.find key = some (none, d₁))
    (hfind₂ : d₁.find key = some (none, d₂)) (hfind₃ : d₂.find key = some (none, d₃)) :
    d₃.RootTold key ↔ d₁.RootTold key := by
  obtain ⟨m₁, root₁, rfl, hw₁, hne⟩ := h.find_none hfind
  obtain ⟨m₂, root₂, rfl, hw₂, -⟩ := hw₁.find_none hfind₂
  obtain ⟨m₃, root₃, rfl, hw₃, -⟩ := hw₂.find_none hfind₃
  cases hs : splay (fun x => d.compareCb key x.key) t with
  | nil =>
    rw [hs] at hw₁ hw₃
    have hroot₁ : root₁ = none := hw₁.holds.linked.eq_root?
    have hroot₃ : root₃ = none := hw₃.holds.linked.eq_root?
    refine iff_of_true (fun a k v ha => ?_) fun a k v ha => ?_
    · cases hroot₃.symm.trans ha
    · cases hroot₁.symm.trans ha
  | node l x r =>
    obtain ⟨l', r', hs₃⟩ := splay_thrice hs (hne l x r hs)
    rw [hw₃.rootTold_iff hs₃ key, hw₁.rootTold_iff hs key]

/-- **What becomes of a key that `find` misses**, twice. It is added if it is told
by an `int` from the root that is left; else the element at the root is taken
for its own. -/
theorem Wired.add_of_absent (hA : A.NeverFails) (h : Wired d t) (hfind : d.find key = some (none, d₁))
    (hfind₂ : d₁.find key = some (none, d₂)) (data : D) :
    ∃ a d', d.add A key data = some (some a, d') ∧
      (d₂.RootTold key ∧ OneMore d d' a key data ∨ ¬ d₂.RootTold key ∧ a ∉ d'.mem.live) := by
  have hin := inorder_splay (fun x : Item Addr K D => d.compareCb key x.key) t
  obtain ⟨m₁, root₁, rfl, hw₁, hne⟩ := h.find_none hfind
  obtain ⟨m₂, root₂, rfl, hw₂, -⟩ := hw₁.find_none hfind₂
  rcases h.add (A := A) key data with ⟨⟨l, x, r, hs, h0⟩, -⟩ | ⟨-, m, root, hw, -, hadd⟩
  · exact absurd h0 (hne l x r hs)
  obtain ⟨a, hpick⟩ := Option.isSome_iff_exists.1 (hA m)
  obtain ⟨d', hlink, hcases⟩ := hw.link (A.fresh hpick) key data
  rw [hpick, Option.bind_some, hlink, Option.map_some] at hadd
  -- one more element, next to the root of the second splay
  have hmore : ∀ {t' xs ys}, Grown { d with mem := m, root := root } d' _ t' xs ys ⟨a, key, data⟩ →
      OneMore d d' a key data := fun hg =>
    OneMore.of_wired h hg.wired (hin.symm.trans hg.old) hg.new
  refine ⟨a, d', hadd, ?_⟩
  rcases hcases with ⟨hnil, t', hg⟩ | ⟨l, x, r, hs, ⟨hneg, t', hg⟩ | ⟨hpos, t', hg⟩ | ⟨h0, ho⟩⟩
  · refine Or.inl ⟨fun b k v hb => ?_, hmore hg⟩
    rw [hnil] at hw₂
    have hroot : root₂ = none := hw₂.holds.linked.eq_root?
    cases hroot.symm.trans hb
  · exact Or.inl ⟨(hw₂.rootTold_iff hs key).2 hneg.ne, hmore hg⟩
  · exact Or.inl ⟨(hw₂.rootTold_iff hs key).2 hpos.ne', hmore hg⟩
  · refine Or.inr ⟨fun hd => (hw₂.rootTold_iff hs key).1 hd h0, ?_⟩
    rw [ho.live]
    exact get_eq_none.1 (A.fresh hpick)

/-- **A key is added exactly if it is told from the root.** -/
theorem Wired.addsOne_iff (hA : A.NeverFails) (h : Wired d t) (hfind : d.find key = some (none, d₁))
    (hfind₂ : d₁.find key = some (none, d₂)) (data : D) : AddsOne A d key data ↔ d₂.RootTold key := by
  obtain ⟨a, d', hadd, ⟨htold, hmore⟩ | ⟨htold, hfree⟩⟩ := h.add_of_absent hA hfind hfind₂ data
  · exact iff_of_true ⟨a, d', hadd, hmore⟩ htold
  · refine iff_of_false ?_ htold
    rintro ⟨a', d'', hadd', hmore⟩
    obtain ⟨heq, rfl⟩ := Prod.mk.inj (Option.some.inj (hadd.symm.trans hadd'))
    obtain rfl := Option.some.inj heq
    exact hfree (hmore.live ▸ Finset.mem_insert_self ..)

/-- If all elements are told from it, it is. -/
theorem Wired.rootTold_of_forall (h : Wired d t) (hfind : d.find key = some (none, d₁))
    (hall : ∀ k, toInt (d.compareCb key k) = 0 → d.compareCb key k = 0) : d₁.RootTold key := by
  obtain ⟨m, root, rfl, hw, hne⟩ := h.find_none hfind
  cases hs : splay (fun x => d.compareCb key x.key) t with
  | nil =>
    rw [hs] at hw
    have hroot : root = none := hw.holds.linked.eq_root?
    intro a k v ha
    cases hroot.symm.trans ha
  | node l x r =>
    rw [hw.rootTold_iff hs key]
    exact fun hint => hne l x r hs (hall x.key hint)

/-- A run that adds one element. -/
theorem exists_ptrRuns_one (C : PtrComparator K) (b : K) (data : D) :
    ∃ (e : Addr) (d : Dictionary K D) (t : DTree K D),
      PtrRuns Allocator.bump C [(.add b data, .elem (some e))] d ∧ Wired d t ∧
        d.compareCb = C.cmp ∧ t.inorder = [⟨e, b, data⟩] := by
  rcases (wired_create (D := D) C.cmp).add (A := Allocator.bump) b data with
    ⟨⟨l, x, r, hs, -⟩, -⟩ | ⟨-, m, root, hw, -, hadd⟩
  · cases hs
  obtain ⟨e, hpick⟩ := Option.isSome_iff_exists.1 (Allocator.bump_neverFails m)
  obtain ⟨d', hlink, ⟨-, t', hg⟩ | ⟨l, x, r, hs, -⟩⟩ := hw.link (Allocator.bump.fresh hpick) b data
  · rw [hpick, Option.bind_some, hlink, Option.map_some] at hadd
    have hrun : Op.run Allocator.bump (create C.cmp) (.add b data) = some (.elem (some e), d') := by
      rw [Op.run, hadd]
      rfl
    exact ⟨e, d', t', Run.nil.snoc trivial hrun, hg.wired, hg.compareCb, hg.new⟩
  · cases hs

/-- **A key that `link` takes for another**: the other's element is
overwritten, and the one that is returned has been freed. -/
theorem exists_not_addsOne {C : PtrComparator K} {a b : K} (data : D) (hne : C.cmp a b ≠ 0)
    (hint : toInt (C.cmp a b) = 0) :
    ∃ (e : Addr) (d d₁ : Dictionary K D), PtrRuns Allocator.bump C [(.add b data, .elem (some e))] d ∧
      d.find a = some (none, d₁) ∧ ¬ AddsOne Allocator.bump d a data := by
  obtain ⟨e, d, t, hruns, hw, hcb, hin⟩ := exists_ptrRuns_one C b data
  have hb : ∀ x ∈ t.inorder, x.key = b := by
    rw [hin]
    simp
  obtain ⟨m, root, -, ⟨l, x, r, hs, h0, -⟩ | ⟨-, hfind⟩⟩ := hw.find a
  · have hx : x ∈ t.inorder := by
      rw [← inorder_splay (fun x : Item Addr K D => d.compareCb a x.key), hs]
      simp
    rw [hb x hx, hcb] at h0
    exact absurd h0 hne
  refine ⟨e, d, _, hruns, hfind, fun hadds => ?_⟩
  -- the one element is at the root
  obtain ⟨d₂, hfind₂⟩ := hw.find_again hfind
  have htold := (hw.addsOne_iff Allocator.bump_neverFails hfind hfind₂ data).1 hadds
  obtain ⟨m₁, root₁, heq, hw₁, -⟩ := hw.find_none hfind
  rw [heq] at hfind₂
  obtain ⟨m₂, root₂, rfl, hw₂, -⟩ := hw₁.find_none hfind₂
  cases hs : splay (fun x => d.compareCb a x.key) (splay (fun x => d.compareCb a x.key) t) with
  | nil =>
    rw [← inorder_eq_nil, inorder_splay, inorder_splay, hin] at hs
    cases hs
  | node l x r =>
    have hx : x ∈ t.inorder := by
      rw [← inorder_splay (fun x : Item Addr K D => d.compareCb a x.key),
        ← inorder_splay (fun x : Item Addr K D => d.compareCb a x.key), hs]
      simp
    have hxne := (hw₂.rootTold_iff hs a).1 htold
    rw [hb x hx] at hxne
    exact hxne (by rw [hcb, hint])

/-- **When `add` is right.** In any dictionary of any run a key that `find` misses
is added exactly if the comparison with an element at the root is no multiple of
2^32: the one that another `find` leaves there, and if `add` is called after a
`find`, the one that this `find` left. And it always is, over all runs, just
when the comparator has no pair of keys that are other than the `int` says. -/
theorem runs_addsOne_iff [Nonempty D] (C : PtrComparator K) :
    (∀ (A : Allocator (DictElem K D)), A.NeverFails → ∀ tr d, PtrRuns A C tr d →
      ∀ key data d₁, d.find key = some (none, d₁) →
        (∃ d₂, d₁.find key = some (none, d₂) ∧ (AddsOne A d key data ↔ d₂.RootTold key)) ∧
        (AddsOne A d₁ key data ↔ d₁.RootTold key)) ∧
    ((∀ (A : Allocator (DictElem K D)), A.NeverFails → ∀ tr d, PtrRuns A C tr d →
      ∀ key data d₁, d.find key = some (none, d₁) → AddsOne A d key data) ↔
        ∀ a b, toInt (C.cmp a b) = 0 → C.cmp a b = 0) := by
  refine ⟨fun A hA tr d hd key data d₁ hfind => ?_, fun h a b hint => ?_, fun h A hA tr d hd key data d₁ hfind => ?_⟩
  · obtain ⟨⟨t, hw⟩, -⟩ := hd.wired
    obtain ⟨d₂, hfind₂⟩ := hw.find_again hfind
    obtain ⟨m, root, heq, hw₁, -⟩ := hw.find_none hfind
    rw [← heq] at hw₁
    obtain ⟨d₃, hfind₃⟩ := hw₁.find_again hfind₂
    refine ⟨⟨d₂, hfind₂, hw.addsOne_iff hA hfind hfind₂ data⟩, ?_⟩
    rw [hw₁.addsOne_iff hA hfind₂ hfind₃ data, hw.rootTold_thrice hfind hfind₂ hfind₃]
  · obtain ⟨data⟩ := ‹Nonempty D›
    by_contra hne
    obtain ⟨e, d, d₁, hd, hfind, hno⟩ := exists_not_addsOne data hne hint
    exact hno (h Allocator.bump Allocator.bump_neverFails _ d hd a data d₁ hfind)
  · obtain ⟨⟨t, hw⟩, hcb⟩ := hd.wired
    obtain ⟨d₂, hfind₂⟩ := hw.find_again hfind
    obtain ⟨m, root, rfl, hw₁, -⟩ := hw.find_none hfind
    rw [hw.addsOne_iff hA hfind hfind₂ data]
    refine hw₁.rootTold_of_forall hfind₂ fun k hint => ?_
    rw [show d.compareCb = C.cmp from hcb] at hint ⊢
    exact h key k hint

/-! ## Keys 2^32 apart -/

/-- Numbers below 2^62, compared by their difference. -/
def difference : PtrComparator (Fin 4611686018427387904) where
  cmp a b := (a.val : ℤ) - b.val
  swap a b := by omega
  trans h₁ h₂ := by omega
  eq_of_zero h := Fin.ext (by omega)
  range a b := by
    have ha := a.isLt
    have hb := b.isLt
    omega

/-- A run that adds the keys 8 and 2^32 + 13, and what is at the root when the key
2^32 + 8 has been looked for, once and twice. -/
theorem exists_ptrRuns_difference : ∃ tr d d₁ d₂, PtrRuns (D := Unit) Allocator.bump difference tr d ∧
    d.find 4294967304 = some (none, d₁) ∧ d₁.find 4294967304 = some (none, d₂) ∧
      (d₁.root = some 1 ∧ contents d₁.mem 1 = some (8, ()) ∧ d₁.compareCb = difference.cmp) ∧
      d₂.root = some 2 ∧ contents d₂.mem 2 = some (4294967309, ()) ∧ d₂.compareCb = difference.cmp :=
  ⟨([] ++ [(.add 8 (), .elem (some 1))]) ++ [(.add 4294967309 (), .elem (some 2))], _, _, _,
    (Run.nil.snoc trivial rfl).snoc trivial rfl, rfl, rfl, ⟨rfl, rfl, rfl⟩, rfl, rfl, rfl⟩

/-- **The key 2^32 + 8 is added** to these, but it is not when it was looked for
before. -/
theorem runs_addsOne_iff_difference : ∃ (d d₁ : Dictionary (Fin 4611686018427387904) Unit),
    d.find 4294967304 = some (none, d₁) ∧ AddsOne Allocator.bump d 4294967304 () ∧
      ¬ AddsOne Allocator.bump d₁ 4294967304 () := by
  obtain ⟨tr, d, d₁, d₂, hd, hfind, hfind₂, ⟨hroot₁, hc₁, hcb₁⟩, hroot₂, hc₂, hcb₂⟩ := exists_ptrRuns_difference
  obtain ⟨⟨d₂', hfind₂', hiff₂⟩, hiff₁⟩ :=
    (runs_addsOne_iff (D := Unit) difference).1 _ Allocator.bump_neverFails tr d hd _ () d₁ hfind
  obtain ⟨-, rfl⟩ := Prod.mk.inj (Option.some.inj (hfind₂.symm.trans hfind₂'))
  refine ⟨d, d₁, hfind, hiff₂.2 fun a k v ha hc => ?_, fun h => hiff₁.1 h 1 8 () hroot₁ hc₁ ?_⟩
  · obtain rfl := Option.some.inj (hroot₂.symm.trans ha)
    obtain ⟨rfl, -⟩ := Prod.mk.inj (Option.some.inj (hc₂.symm.trans hc))
    rw [hcb₂]
    decide
  · rw [hcb₁]
    decide

/-- **The key 0 is lost** when 2^32 is added to a dictionary that has it. -/
theorem add_overwrites : ∃ (e : Addr) (d d₁ : Dictionary (Fin 4611686018427387904) Unit),
    PtrRuns Allocator.bump difference [(.add 0 (), .elem (some e))] d ∧
      d.find 4294967296 = some (none, d₁) ∧ ¬ AddsOne Allocator.bump d 4294967296 () :=
  exists_not_addsOne () (by decide) (by decide)

/-! ## What `retune` nominates -/

theorem PtrComparator.cut (C : PtrComparator K) (key : K) {xs : List (Item Addr K D)}
    (h : xs.Pairwise fun x y => C.cmp x.key y.key < 0) : Cut (fun x : Item Addr K D => C.cmp key x.key) xs := by
  refine h.imp fun {x y} hxy hx => ?_
  rcases hx.lt_or_eq with hx | hx
  · exact C.trans hx hxy
  · rwa [C.eq_of_zero hx]

/-- **The root that `retune` makes of a search tree** is the element of the key
or, if there is none, the one before or after it; the elements stay in order. -/
theorem retune_nominates (C : PtrComparator K) (hC : d.compareCb = C.cmp) (h : Holds d.mem t d.root)
    (hbst : t.BST fun x y => C.cmp x.key y.key < 0) (hne : t ≠ nil) (key : K) :
    ∃ m l x r, d.retune key = some { d with mem := m, root := some x.cell } ∧
      Holds m (node l x r) (some x.cell) ∧ (node l x r).BST (fun x y => C.cmp x.key y.key < 0) ∧
      (node l x r).inorder = t.inorder ∧
      (C.cmp key x.key = 0 ∨ (∀ y ∈ t.inorder, C.cmp key y.key ≠ 0) ∧
        ((C.cmp key x.key < 0 ∧ ∀ y ∈ l.inorder, 0 < C.cmp key y.key) ∨
          (0 < C.cmp key x.key ∧ ∀ y ∈ r.inorder, C.cmp key y.key < 0))) := by
  have hsorted := hbst.sorted fun _ _ _ hxy hyz => C.trans hxy hyz
  obtain ⟨m, root, hrun, hholds, -⟩ := retune_spec h key
  rw [hC] at hholds
  obtain ⟨l, x, r, hsplay, hin, hroot⟩ := splay_root hne (C.cut key hsorted)
  rw [hsplay] at hholds
  obtain rfl : root = some x.cell := hholds.linked.1
  refine ⟨m, l, x, r, hrun, hholds, bst_of_sorted ?_, hin.symm, hroot⟩
  rw [inorder_node, ← hin]
  exact hsorted

/-- A dictionary with the keys 3, 7 and 9, and 7 at the root. -/
def threeElements : Dictionary (Fin 4611686018427387904) Unit :=
  ⟨difference.cmp, some 2, some 1, some 3, 3, true,
    ((Store.empty.set 1 ⟨none, none, none, some 2, (), 3, 0⟩).set 2 ⟨some 1, some 3, some 1, some 3, (), 7, 0⟩).set 3
      ⟨none, none, some 2, none, (), 9, 0⟩, []⟩

/-- The key 8 would be next to 9 or next to 7, and one of them comes to the root. -/
theorem retune_nominates_three : ∃ m l x r,
    threeElements.retune 8 = some { threeElements with mem := m, root := some x.cell } ∧
      Holds m (node l x r) (some x.cell) ∧ (node l x r).inorder = [⟨1, 3, ()⟩, ⟨2, 7, ()⟩, ⟨3, 9, ()⟩] ∧
      (x.key = 7 ∨ x.key = 9) := by
  have h : Holds threeElements.mem (node (node nil ⟨1, 3, ()⟩ nil) ⟨2, 7, ()⟩ (node nil ⟨3, 9, ()⟩ nil)) threeElements.root :=
    ⟨⟨rfl, some 1, some 3, rfl, ⟨rfl, none, none, rfl, rfl, rfl⟩, rfl, none, none, rfl, rfl, rfl⟩,
      by simp [contents, threeElements, Store.get_set], by simp⟩
  obtain ⟨m, l, x, r, hrun, hholds, -, hin, hroot⟩ := retune_nominates difference rfl h
    ⟨by simp [difference], by simp [difference], ⟨by simp, by simp, trivial, trivial⟩, by simp, by simp, trivial, trivial⟩
    (by simp) 8
  have hin' : (node l x r).inorder = [⟨1, 3, ()⟩, ⟨2, 7, ()⟩, ⟨3, 9, ()⟩] := by simpa using hin
  refine ⟨m, l, x, r, hrun, hholds, hin', ?_⟩
  have hmem : x ∈ (node l x r).inorder := by simp
  rw [hin'] at hmem
  simp only [List.mem_cons, List.not_mem_nil, or_false] at hmem
  rcases hmem with rfl | rfl | rfl
  · -- the root is not 3: 7 is right of it, and not after 8
    have hr : r.inorder = [⟨2, 7, ()⟩, ⟨3, 9, ()⟩] := by
      rcases List.append_eq_cons_iff.1 hin' with ⟨-, heq⟩ | ⟨as, -, heq⟩
      · exact (List.cons.inj heq).2
      · have hbad : (⟨1, 3, ()⟩ : Item Addr (Fin 4611686018427387904) Unit) ∈ as ++ ⟨1, 3, ()⟩ :: r.inorder := by simp
        rw [← heq] at hbad
        simp at hbad
    rcases hroot with h0 | ⟨-, ⟨hneg, -⟩ | ⟨-, hafter⟩⟩
    · exact absurd h0 (by decide)
    · exact absurd hneg (by decide)
    · exact absurd (hafter ⟨2, 7, ()⟩ (by rw [hr]; simp)) (by decide)
  · exact Or.inl rfl
  · exact Or.inr rfl

end Dictionary

end Mowgli
