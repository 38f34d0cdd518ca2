import Mowgli.Container.Dictionary.Repr
/-!
# What `retune` does

Each group of assignments of `retune` is a step of the splay of a linked
tree, so the whole is the splay: the elements stay in order, and the root
is the key looked for or its neighbour.
-/

namespace Mowgli

namespace Dictionary

open Store BinTree

variable {K D : Type} {s : Tuning K D} {L : List (DTree K D × Item Addr K D)}
variable {R : List (Item Addr K D × DTree K D)} {t l r ll lr rl rr : DTree K D}
variable {x y : Item Addr K D}

/-- The variables of `retune` are those of a splay in progress. -/
abbrev TunedAt (s : Tuning K D) (p : Parts (Item Addr K D)) : Prop :=
  Tuned Item.cell (links s.mem) s.nLeft s.nRight s.left s.right s.node p

/-- The element the splay is at is there. -/
theorem node_mem_live (h : TunedAt s (L, node l x r, R)) : s.node ∈ s.mem.live := by
  obtain ⟨⟨hat, a, b, hx, -⟩, -⟩ := h
  exact Option.some.inj hat ▸ mem_live_of_links hx

/-- The first group of assignments: the left child comes up, with the element it was below on its
right. -/
theorem rotateRight_spec (h : TunedAt s (L, node (node ll y lr) x r, R)) :
    ∃ s', s.rotateRight y.cell = some s' ∧ TunedAt s' (L, node ll y (node lr x r), R) ∧
      Same unlinked s.mem s'.mem := by
  have hx : s.node = x.cell := Option.some.inj h.tree.1
  obtain ⟨c, hy, h'⟩ := h.rotateRight
  obtain ⟨e, he, -, rfl⟩ := exists_of_links hy
  obtain ⟨m₁, hm₁, hl₁, hs₁⟩ := setLeft_spec (node_mem_live h) e.right
  have hlive : y.cell ∈ m₁.live := hs₁.live ▸ mem_live_of_links hy
  obtain ⟨m₂, hm₂, hl₂, hs₂⟩ := setRight_spec hlive (some s.node)
  refine ⟨{ s with mem := m₂, node := y.cell }, ?_, ?_, hs₁.trans hs₂⟩
  · simp only [Tuning.rotateRight, he, Option.bind_eq_bind, Option.bind_some, hm₁, hm₂]
  · rw [TunedAt]
    simpa only [hl₂, hl₁, hx] using h'

/-- And on the other side. -/
theorem rotateLeft_spec (h : TunedAt s (L, node l x (node rl y rr), R)) :
    ∃ s', s.rotateLeft y.cell = some s' ∧ TunedAt s' (L, node (node l x rl) y rr, R) ∧
      Same unlinked s.mem s'.mem := by
  have hx : s.node = x.cell := Option.some.inj h.tree.1
  obtain ⟨b, hy, h'⟩ := h.rotateLeft
  obtain ⟨e, he, rfl, -⟩ := exists_of_links hy
  obtain ⟨m₁, hm₁, hl₁, hs₁⟩ := setRight_spec (node_mem_live h) e.left
  have hlive : y.cell ∈ m₁.live := hs₁.live ▸ mem_live_of_links hy
  obtain ⟨m₂, hm₂, hl₂, hs₂⟩ := setLeft_spec hlive (some s.node)
  refine ⟨{ s with mem := m₂, node := y.cell }, ?_, ?_, hs₁.trans hs₂⟩
  · simp only [Tuning.rotateLeft, he, Option.bind_eq_bind, Option.bind_some, hm₁, hm₂]
  · rw [TunedAt]
    simpa only [hl₂, hl₁, hx] using h'

/-- `left->right = q`: the right end of the left spine, or the `n` on the stack if there is no spine yet. -/
theorem setLeftRight_spec (q : Option Addr) (h : ∀ p, s.left = some p → p ∈ s.mem.live) :
    ∃ m, s.setLeftRight q = some { s with mem := m, nRight := if s.left = none then q else s.nRight } ∧
      links m = (links s.mem).setSnd? s.left q ∧ Same unlinked s.mem m := by
  rw [Tuning.setLeftRight]
  cases hleft : s.left with
  | none => exact ⟨s.mem, rfl, rfl, Same.refl _ _⟩
  | some p =>
    obtain ⟨m, hm, hl, hs⟩ := setRight_spec (h p hleft) q
    exact ⟨m, by simp [hm], hl, hs⟩

/-- `right->left = q`. -/
theorem setRightLeft_spec (q : Option Addr) (h : ∀ p, s.right = some p → p ∈ s.mem.live) :
    ∃ m, s.setRightLeft q = some { s with mem := m, nLeft := if s.right = none then q else s.nLeft } ∧
      links m = (links s.mem).setFst? s.right q ∧ Same unlinked s.mem m := by
  rw [Tuning.setRightLeft]
  cases hright : s.right with
  | none => exact ⟨s.mem, rfl, rfl, Same.refl _ _⟩
  | some p =>
    obtain ⟨m, hm, hl, hs⟩ := setLeft_spec (h p hright) q
    exact ⟨m, by simp [hm], hl, hs⟩

/-- The ends of the spines are there. -/
theorem left_mem_live (h : TunedAt s (L, t, R)) {p : Addr} (hp : s.left = some p) :
    p ∈ s.mem.live := by
  obtain ⟨q, hq⟩ := h.spineL
  have hp := h.left.symm.trans hp
  cases L with
  | nil => cases hp
  | cons f L =>
    obtain ⟨a, hf, -⟩ := hq
    exact Option.some.inj hp ▸ mem_live_of_links hf

theorem right_mem_live (h : TunedAt s (L, t, R)) {p : Addr} (hp : s.right = some p) :
    p ∈ s.mem.live := by
  obtain ⟨q, hq⟩ := h.spineR
  have hp := h.right.symm.trans hp
  cases R with
  | nil => cases hp
  | cons f R =>
    obtain ⟨b, hf, -⟩ := hq
    exact Option.some.inj hp ▸ mem_live_of_links hf

/-- A tree that is not empty has a root. -/
theorem exists_root? (ht : t ≠ nil) : ∃ a, t.root? Item.cell = some a := by
  cases t with
  | nil => exact absurd rfl ht
  | node _ x _ => exact ⟨_, rfl⟩

/-- The second group: the element goes to the right spine, and the splay goes on to its left child. -/
theorem descendLeft_spec (ht : l ≠ nil) (h : TunedAt s (L, node l x r, R)) :
    ∃ s', s.descendLeft = some s' ∧ TunedAt s' (L, l, (x, r) :: R) ∧ Same unlinked s.mem s'.mem := by
  obtain ⟨a, ha⟩ := exists_root? ht
  obtain ⟨m, hm, hl, hs⟩ := setRightLeft_spec (some s.node) fun p hp => right_mem_live h hp
  obtain ⟨b, hx, h'⟩ := h.descendLeft ha
  rw [← hl] at hx h'
  obtain ⟨e, he, hea, -⟩ := exists_of_links hx
  refine ⟨⟨m, if s.right = none then some s.node else s.nLeft, s.nRight, s.left, some s.node, a⟩,
    ?_, h', hs⟩
  simp only [Tuning.descendLeft, hm, Option.bind_eq_bind, Option.bind_some, he, hea]

/-- And on the other side. -/
theorem descendRight_spec (ht : r ≠ nil) (h : TunedAt s (L, node l x r, R)) :
    ∃ s', s.descendRight = some s' ∧ TunedAt s' ((l, x) :: L, r, R) ∧ Same unlinked s.mem s'.mem := by
  obtain ⟨b, hb⟩ := exists_root? ht
  obtain ⟨m, hm, hl, hs⟩ := setLeftRight_spec (some s.node) fun p hp => left_mem_live h hp
  obtain ⟨a, hx, h'⟩ := h.descendRight hb
  rw [← hl] at hx h'
  obtain ⟨e, he, -, heb⟩ := exists_of_links hx
  refine ⟨⟨m, s.nLeft, if s.left = none then some s.node else s.nRight, some s.node, s.right, b⟩,
    ?_, h', hs⟩
  simp only [Tuning.descendRight, hm, Option.bind_eq_bind, Option.bind_some, he, heb]

/-- What is read at the element a splay is at. -/
theorem exists_node (h : TunedAt s (L, node l x r, R))
    (hc : contents s.mem x.cell = some (x.key, x.data)) :
    ∃ e, s.mem.get s.node = some e ∧ e.key = x.key ∧ e.left = l.root? Item.cell ∧
      e.right = r.root? Item.cell := by
  obtain ⟨⟨hat, a, b, hx, hl, hr⟩, -⟩ := h
  obtain ⟨e, he, rfl, rfl⟩ := exists_of_links hx
  obtain ⟨e', he', hk, -⟩ := exists_of_contents hc
  obtain rfl := Option.some.inj (he.symm.trans he')
  exact ⟨e, Option.some.inj hat ▸ he, hk, hl.eq_root?, hr.eq_root?⟩

/-- **The loop of `retune` is that of the splay.** -/
theorem retuneLoop_spec (compareCb : K → K → ℤ) (key : K) (hne : t ≠ nil) {fuel : ℕ} (hfuel : t.inorder.length ≤ fuel)
    (hc : ∀ x ∈ t.inorder, contents s.mem x.cell = some (x.key, x.data)) (h : TunedAt s (L, t, R)) :
    ∃ s', retuneLoop compareCb key fuel s = some s' ∧
      TunedAt s' (tune (fun x => compareCb key x.key) L R t) ∧ Same unlinked s.mem s'.mem := by
  obtain ⟨n, rfl⟩ : ∃ n, fuel = n + 1 := by
    cases t with
    | nil => exact absurd rfl hne
    | node l x r => exact ⟨fuel - 1, by simp at hfuel; omega⟩
  fun_induction tune (fun x => compareCb key x.key) L R t generalizing n s with
  | case1 => exact absurd rfl hne
  | case2 L R l x r h0 =>
    obtain ⟨e, he, hk, -⟩ := exists_node h (hc x (by simp))
    refine ⟨s, ?_, h, Same.refl _ _⟩
    simp only [retuneLoop, he, Option.bind_eq_bind, Option.bind_some, hk, if_pos h0]
  | case3 L R x r h0 hneg =>
    obtain ⟨e, he, hk, hel, -⟩ := exists_node h (hc x (by simp))
    refine ⟨s, ?_, h, Same.refl _ _⟩
    simp only [retuneLoop, he, Option.bind_eq_bind, Option.bind_some, hk, if_neg h0, if_pos hneg,
      hel, root?]
  | case4 L R x r h0 hneg y lr hy =>
    obtain ⟨e, he, hk, hel, -⟩ := exists_node h (hc x (by simp))
    obtain ⟨e₁, he₁, hk₁, -⟩ := exists_of_contents (hc y (by simp))
    obtain ⟨s', hs', h', hsame⟩ := rotateRight_spec h
    have hc' : contents s'.mem y.cell = some (y.key, y.data) := by
      rw [contents_of_same hsame, hc y (by simp)]
    obtain ⟨e₂, he₂, -, hel₂, -⟩ := exists_node h' hc'
    refine ⟨s', ?_, h', hsame⟩
    simp only [retuneLoop, he, Option.bind_eq_bind, Option.bind_some, hk, if_neg h0, if_pos hneg,
      hel, root?, he₁, hk₁, if_pos hy, hs', he₂, hel₂, ↓reduceIte]
  | case5 L R x r h0 hneg y lr hy lll z llr ih =>
    obtain ⟨e, he, hk, hel, -⟩ := exists_node h (hc x (by simp))
    obtain ⟨e₁, he₁, hk₁, -⟩ := exists_of_contents (hc y (by simp))
    obtain ⟨s', hs', h', hsame⟩ := rotateRight_spec h
    have hc' : contents s'.mem y.cell = some (y.key, y.data) := by
      rw [contents_of_same hsame, hc y (by simp)]
    obtain ⟨e₂, he₂, -, hel₂, -⟩ := exists_node h' hc'
    obtain ⟨s'', hs'', h'', hsame'⟩ := descendLeft_spec (by simp) h'
    have hsub : ∀ w ∈ (node lll z llr).inorder, contents s''.mem w.cell = some (w.key, w.data) := by
      intro w hw
      rw [contents_of_same (hsame.trans hsame'), hc w (by simp only [inorder_node, List.mem_append] at hw ⊢; tauto)]
    simp only [inorder_node, List.length_append, List.length_cons] at hfuel
    obtain ⟨k, rfl⟩ : ∃ k, n = k + 1 := ⟨n - 1, by omega⟩
    obtain ⟨s₃, hs₃, h₃, hsame₃⟩ := ih (by simp) hsub h'' k (by simp; omega)
    refine ⟨s₃, ?_, h₃, (hsame.trans hsame').trans hsame₃⟩
    rw [← hs₃, retuneLoop]
    simp only [he, Option.bind_eq_bind, Option.bind_some, hk, if_neg h0, if_pos hneg,
      hel, root?, he₁, hk₁, if_pos hy, hs', he₂, hel₂, reduceCtorEq, ↓reduceIte, hs'']
  | case6 L R x r h0 hneg ll y lr hy ih =>
    obtain ⟨e, he, hk, hel, -⟩ := exists_node h (hc x (by simp))
    obtain ⟨e₁, he₁, hk₁, -⟩ := exists_of_contents (hc y (by simp))
    obtain ⟨s', hs', h', hsame⟩ := descendLeft_spec (by simp) h
    have hsub : ∀ w ∈ (node ll y lr).inorder, contents s'.mem w.cell = some (w.key, w.data) := by
      intro w hw
      rw [contents_of_same hsame, hc w (List.mem_append_left _ hw)]
    simp only [inorder_node, List.length_append, List.length_cons] at hfuel
    obtain ⟨k, rfl⟩ : ∃ k, n = k + 1 := ⟨n - 1, by omega⟩
    obtain ⟨s₃, hs₃, h₃, hsame₃⟩ := ih (by simp) hsub h' k (by simp; omega)
    refine ⟨s₃, ?_, h₃, hsame.trans hsame₃⟩
    rw [← hs₃, retuneLoop]
    simp only [he, Option.bind_eq_bind, Option.bind_some, hk, if_neg h0, if_pos hneg,
      hel, root?, he₁, hk₁, if_neg hy, hs']
  | case7 L R l x h0 hneg =>
    obtain ⟨e, he, hk, -, her⟩ := exists_node h (hc x (by simp))
    refine ⟨s, ?_, h, Same.refl _ _⟩
    simp only [retuneLoop, he, Option.bind_eq_bind, Option.bind_some, hk, if_neg h0, if_neg hneg,
      her, root?]
  | case8 L R l x h0 hneg rl y hy =>
    obtain ⟨e, he, hk, -, her⟩ := exists_node h (hc x (by simp))
    obtain ⟨e₁, he₁, hk₁, -⟩ := exists_of_contents (hc y (by simp))
    obtain ⟨s', hs', h', hsame⟩ := rotateLeft_spec h
    have hc' : contents s'.mem y.cell = some (y.key, y.data) := by
      rw [contents_of_same hsame, hc y (by simp)]
    obtain ⟨e₂, he₂, -, -, her₂⟩ := exists_node h' hc'
    refine ⟨s', ?_, h', hsame⟩
    simp only [retuneLoop, he, Option.bind_eq_bind, Option.bind_some, hk, if_neg h0, if_neg hneg,
      her, root?, he₁, hk₁, gt_iff_lt, if_pos hy, hs', he₂, her₂, ↓reduceIte]
  | case9 L R l x h0 hneg rl y hy rrl z rrr ih =>
    obtain ⟨e, he, hk, -, her⟩ := exists_node h (hc x (by simp))
    obtain ⟨e₁, he₁, hk₁, -⟩ := exists_of_contents (hc y (by simp))
    obtain ⟨s', hs', h', hsame⟩ := rotateLeft_spec h
    have hc' : contents s'.mem y.cell = some (y.key, y.data) := by
      rw [contents_of_same hsame, hc y (by simp)]
    obtain ⟨e₂, he₂, -, -, her₂⟩ := exists_node h' hc'
    obtain ⟨s'', hs'', h'', hsame'⟩ := descendRight_spec (by simp) h'
    have hsub : ∀ w ∈ (node rrl z rrr).inorder, contents s''.mem w.cell = some (w.key, w.data) := by
      intro w hw
      rw [contents_of_same (hsame.trans hsame'), hc w (by simp only [inorder_node, List.mem_append, List.mem_cons] at hw ⊢; tauto)]
    simp only [inorder_node, List.length_append, List.length_cons] at hfuel
    obtain ⟨k, rfl⟩ : ∃ k, n = k + 1 := ⟨n - 1, by omega⟩
    obtain ⟨s₃, hs₃, h₃, hsame₃⟩ := ih (by simp) hsub h'' k (by simp; omega)
    refine ⟨s₃, ?_, h₃, (hsame.trans hsame').trans hsame₃⟩
    rw [← hs₃, retuneLoop]
    simp only [he, Option.bind_eq_bind, Option.bind_some, hk, if_neg h0, if_neg hneg,
      her, root?, he₁, hk₁, gt_iff_lt, if_pos hy, hs', he₂, her₂, reduceCtorEq, ↓reduceIte, hs'']
  | case10 L R l x h0 hneg rl y rr hy ih =>
    obtain ⟨e, he, hk, -, her⟩ := exists_node h (hc x (by simp))
    obtain ⟨e₁, he₁, hk₁, -⟩ := exists_of_contents (hc y (by simp))
    obtain ⟨s', hs', h', hsame⟩ := descendRight_spec (by simp) h
    have hsub : ∀ w ∈ (node rl y rr).inorder, contents s'.mem w.cell = some (w.key, w.data) := by
      intro w hw
      rw [contents_of_same hsame, hc w (List.mem_append_right _ (List.mem_cons_of_mem _ hw))]
    simp only [inorder_node, List.length_append, List.length_cons] at hfuel
    obtain ⟨k, rfl⟩ : ∃ k, n = k + 1 := ⟨n - 1, by omega⟩
    obtain ⟨s₃, hs₃, h₃, hsame₃⟩ := ih (by simp) hsub h' k (by simp; omega)
    refine ⟨s₃, ?_, h₃, hsame.trans hsame₃⟩
    rw [← hs₃, retuneLoop]
    simp only [he, Option.bind_eq_bind, Option.bind_some, hk, if_neg h0, if_neg hneg,
      her, root?, he₁, hk₁, gt_iff_lt, if_neg hy, hs']

variable {d : Dictionary K D}

/-- **`retune` is a splay** and changes nothing else. -/
theorem retune_spec (h : Holds d.mem t d.root) (key : K) :
    ∃ m root, d.retune key = some { d with mem := m, root := root } ∧
      Holds m (splay (fun x => d.compareCb key x.key) t) root ∧ Same unlinked d.mem m := by
  by_cases ht : t = nil
  · subst ht
    obtain ⟨compareCb, root, head, tail, count, dirty, mem, log⟩ := d
    obtain rfl : root = none := h.linked
    exact ⟨mem, none, rfl, h, Same.refl _ _⟩
  obtain ⟨root, hroot⟩ := exists_root? ht
  rw [← h.linked.eq_root?] at hroot
  have hlinked := h.linked
  rw [hroot] at hlinked
  have h₀ : TunedAt ⟨d.mem, none, none, none, none, root⟩ ([], t, []) :=
    ⟨hlinked, ⟨none, rfl⟩, ⟨none, rfl⟩, rfl, rfl, by simpa [spread] using h.nodup⟩
  obtain ⟨s, hs, h₁, hsame⟩ := retuneLoop_spec d.compareCb key ht
    (show t.inorder.length ≤ d.fuel from Nat.le_succ_of_le h.length_le) h.contents h₀
  have hsplay : splay (fun x => d.compareCb key x.key) t =
      assemble (tune (fun x => d.compareCb key x.key) [] [] t) := rfl
  generalize tune (fun x => d.compareCb key x.key) [] [] t = p at h₁ hsplay
  obtain ⟨L, t', R⟩ := p
  cases t' with
  | nil => exact absurd h₁.tree (by simp [Linked])
  | node l x r =>
    obtain ⟨a, b, hv, hv₁, hlinked⟩ := h₁.assemble
    obtain ⟨e, he, rfl, -⟩ := exists_of_links hv
    obtain ⟨m₁, hm₁, hl₁, hs₁⟩ := setLeftRight_spec e.left fun p hp => left_mem_live h₁ hp
    rw [← hl₁] at hv₁ hlinked
    obtain ⟨e₁, he₁, -, rfl⟩ := exists_of_links hv₁
    let s₁ : Tuning K D := { s with mem := m₁, nRight := if s.left = none then e.left else s.nRight }
    obtain ⟨m₂, hm₂, hl₂, hs₂⟩ := setRightLeft_spec (s := s₁) e₁.right fun p hp =>
      hs₁.live ▸ right_mem_live h₁ hp
    have hat : s.node ∈ m₂.live := hs₂.live ▸ hs₁.live ▸ node_mem_live h₁
    obtain ⟨m₃, hm₃, hl₃, hs₃⟩ := setLeft_spec hat (if s.left = none then e.left else s.nRight)
    obtain ⟨m₄, hm₄, hl₄, hs₄⟩ := setRight_spec (hs₃.live ▸ hat)
      (if s.right = none then e₁.right else s.nLeft)
    have hs' : Same unlinked d.mem m₄ := hsame.trans (hs₁.trans (hs₂.trans (hs₃.trans hs₄)))
    have hinorder := inorder_splay (fun x => d.compareCb key x.key) t
    refine ⟨m₄, some s.node, ?_, ⟨?_, fun x hx => ?_, ?_⟩, hs'⟩
    · rw [retune, hroot]
      simp only [hs, Option.bind_eq_bind, Option.bind_some, he, hm₁, he₁]
      rw [hm₂]
      simp only [Option.bind_some]
      rw [hm₃, Option.bind_some, hm₄, Option.bind_some]
    · rw [hl₄, hl₃, hl₂, hsplay]
      exact hlinked
    · rw [contents_of_same hs']
      exact h.contents x (hinorder ▸ hx)
    · rw [hinorder]
      exact h.nodup

end Dictionary

end Mowgli
