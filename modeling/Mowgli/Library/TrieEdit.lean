import Mowgli.Library.Trie
/-!
# Walking and editing a radix trie

The descent to the place of a key, the climb back to a position, and the
two ways a leaf is added there: in an empty slot of a node that tests the
position the keys differ at, or beside a subtree under a new node.
Removing a leaf empties its slot, and a node left with one subtree makes
way for it. Each keeps `WF` and changes the leaves by that one leaf.
-/

namespace Mowgli

namespace Trie

variable {ι κ δ : Type} {b : ℕ} {dig : κ → ℕ → Fin b}

/-! ## The descent and the climb -/

/-- Follow the digits of `k` down from a place. -/
def descend (dig : κ → ℕ → Fin b) (k : κ) :
    List (Frame ι κ δ b) → Trie ι κ δ b → List (Frame ι κ δ b) × Trie ι κ δ b
  | c, nil => (c, nil)
  | c, leaf x => (c, leaf x)
  | c, node a n down => descend dig k (⟨a, n, down, dig k n⟩ :: c) (down (dig k n))

/-- Go up from a place past every node that tests a position after `i`. -/
def climb (i : ℕ) : List (Frame ι κ δ b) → Trie ι κ δ b → List (Frame ι κ δ b) × Trie ι κ δ b
  | [], t => ([], t)
  | f :: c, t => if i < f.pos then climb i c (f.fill t) else (f :: c, t)

theorem plug_descend (dig : κ → ℕ → Fin b) (k : κ) (c : List (Frame ι κ δ b)) (t : Trie ι κ δ b) :
    plug (descend dig k c t).1 (descend dig k c t).2 = plug c t := by
  induction t generalizing c with
  | nil => rfl
  | leaf x => rfl
  | node a n down ih => rw [descend, ih, plug_cons, fill_mk]

/-- The descent ends at an empty slot or at a leaf. -/
theorem descend_end (dig : κ → ℕ → Fin b) (k : κ) (c : List (Frame ι κ δ b)) (t : Trie ι κ δ b) :
    (descend dig k c t).2 = nil ∨ ∃ x, (descend dig k c t).2 = leaf x := by
  induction t generalizing c with
  | nil => exact Or.inl rfl
  | leaf x => exact Or.inr ⟨x, rfl⟩
  | node a n down ih => exact ih _ _

/-- The way down follows the digits of the key. -/
theorem descend_along (dig : κ → ℕ → Fin b) {k : κ} {c : List (Frame ι κ δ b)} {t : Trie ι κ δ b}
    (h : ∀ f ∈ c, dig k f.pos = f.slot) : ∀ f ∈ (descend dig k c t).1, dig k f.pos = f.slot := by
  induction t generalizing c with
  | nil => exact h
  | leaf x => exact h
  | node a n down ih =>
    refine ih _ fun f hf => ?_
    rcases List.mem_cons.1 hf with rfl | hf
    · rfl
    · exact h f hf

/-- **The descent finds a key that is there**: each node files the leaf
under the digit the descent follows. -/
theorem descend_of_mem {c : List (Frame ι κ δ b)} {t : Trie ι κ δ b} {x : Item ι κ δ}
    (hwf : t.WF dig) (hx : x ∈ t.leaves) : (descend dig x.key c t).2 = leaf x := by
  induction t generalizing c with
  | nil => cases hx
  | leaf y => rw [leaves_leaf, List.mem_singleton] at hx; rw [hx]; rfl
  | node a n down ih => exact ih _ (hwf.2 _) (mem_down_dig hwf hx)

theorem plug_climb (i : ℕ) (c : List (Frame ι κ δ b)) (t : Trie ι κ δ b) :
    plug (climb i c t).1 (climb i c t).2 = plug c t := by
  induction c generalizing t with
  | nil => rfl
  | cons f c ih =>
    rw [climb]
    split_ifs
    · exact ih _
    · rfl

/-- The climb stops below a node that tests a position up to `i`. -/
theorem climb_head (i : ℕ) (c : List (Frame ι κ δ b)) (t : Trie ι κ δ b) :
    ∀ f ∈ (climb i c t).1.head?, f.pos ≤ i := by
  induction c generalizing t with
  | nil => simp [climb]
  | cons f c ih =>
    rw [climb]
    split_ifs with h
    · exact ih _
    · simpa using not_lt.1 h

theorem climb_suffix (i : ℕ) (c : List (Frame ι κ δ b)) (t : Trie ι κ δ b) :
    (climb i c t).1 <:+ c := by
  induction c generalizing t with
  | nil => exact List.suffix_rfl
  | cons f c ih =>
    rw [climb]
    split_ifs
    · exact (ih _).trans (List.suffix_cons f c)
    · exact List.suffix_rfl

theorem leaves_subset_climb (i : ℕ) (c : List (Frame ι κ δ b)) (t : Trie ι κ δ b) :
    t.leaves ⊆ (climb i c t).2.leaves := by
  induction c generalizing t with
  | nil => exact List.Subset.refl _
  | cons f c ih =>
    rw [climb]
    split_ifs
    · exact fun x hx => ih _ (Frame.mem_leaves_fill.2 (Or.inl hx))
    · exact List.Subset.refl _

/-- What the climb passed tests positions past `i`. -/
theorem climb_above {i : ℕ} {c : List (Frame ι κ δ b)} {t : Trie ι κ δ b} (h : t.Above i) :
    (climb i c t).2.Above i := by
  induction c generalizing t with
  | nil => exact h
  | cons f c ih =>
    rw [climb]
    split_ifs with hi
    · exact ih hi
    · exact h

/-- **Where the climb from the place of a key ends.** `y` is a leaf of the
node above the place, and `i` the first position it differs from `k` at.
Either the climb stays where it is, the slot being empty and the node
above it testing position `i`, or it ends at a subtree that holds `y`
and hangs below earlier positions only. -/
theorem climb_cases {k : κ} {y : Item ι κ δ} {i : ℕ} {c : List (Frame ι κ δ b)}
    {t : Trie ι κ δ b} (hwf : (plug c t).WF dig) (hend : t = nil ∨ t = leaf y)
    (halong : ∀ f ∈ c, dig k f.pos = f.slot) (hy : ∀ f ∈ c.head?, y ∈ (f.fill t).leaves)
    (hroot : c = [] → y ∈ t.leaves) (hlt : ∀ m < i, dig k m = dig y.key m)
    (hne : dig k i ≠ dig y.key i) :
    (∃ f c', climb i c t = (f :: c', nil) ∧ f.pos = i ∧ y ∈ (f.fill nil).leaves) ∨
      (y ∈ (climb i c t).2.leaves ∧ ∀ f ∈ (climb i c t).1.head?, f.pos < i) := by
  have hhead := climb_head i c t
  have hwf' : (plug (climb i c t).1 (climb i c t).2).WF dig := by rwa [plug_climb]
  by_cases hmem : y ∈ (climb i c t).2.leaves
  · refine Or.inr ⟨hmem, fun f hf => lt_of_le_of_ne (hhead f hf) fun hpos => hne ?_⟩
    obtain ⟨c', hc'⟩ : ∃ c', (climb i c t).1 = f :: c' := by
      rcases h : (climb i c t).1 with - | ⟨g, c'⟩
      · rw [h] at hf; cases hf
      · rw [h] at hf; exact ⟨c', by rw [Option.some.inj hf]⟩
    rw [hc', plug_cons] at hwf'
    have hslot := (WF.of_plug hwf').1.filed f.slot y (by rwa [Frame.downWith_slot])
    have hk := halong f ((climb_suffix i c t).subset (hc' ▸ List.mem_cons_self ..))
    rw [← hpos, hk, hslot]
  · -- nothing was passed, or `y` would be below the place
    rcases c with - | ⟨f, c'⟩
    · exact absurd (hroot rfl) hmem
    · have hy' := hy f rfl
      by_cases hpos : i < f.pos
      · rw [climb, if_pos hpos] at hmem
        exact absurd (leaves_subset_climb i c' (f.fill t) hy') hmem
      · have hstay : climb i (f :: c') t = (f :: c', t) := by rw [climb, if_neg hpos]
        rw [hstay] at hmem
        have hnil : t = nil := hend.resolve_right fun h => hmem (by rw [h]; simp)
        subst hnil
        refine Or.inl ⟨f, c', hstay, ?_, hy'⟩
        by_contra hne'
        have hlt' : f.pos < i := lt_of_le_of_ne (not_lt.1 hpos) hne'
        have hfile := mem_down_dig (WF.of_plug (c := c') hwf) hy'
        rw [← hlt f.pos hlt', halong f (List.mem_cons_self ..), Frame.downWith_slot] at hfile
        cases hfile

/-! ## Adding a leaf -/

/-- In a subtree whose nodes test positions past `i`, all leaves agree up
to `i`. -/
theorem WF.agree_of_above {t : Trie ι κ δ b} {i : ℕ} (h : t.WF dig) (ha : t.Above i)
    {x y : Item ι κ δ} (hx : x ∈ t.leaves) (hy : y ∈ t.leaves) :
    ∀ m ≤ i, dig x.key m = dig y.key m := by
  intro m hm
  cases t with
  | nil => cases hx
  | leaf z => simp only [leaves_leaf, List.mem_singleton] at hx hy; rw [hx, hy]
  | node a n down =>
    obtain ⟨j, hj⟩ := mem_leaves_node.1 hx
    obtain ⟨j', hj'⟩ := mem_leaves_node.1 hy
    exact h.1.agree j j' x hj y hj' m (lt_of_le_of_lt hm ha)

/-- A new node at position `i` over the subtree `t` and the leaf `x`. -/
def fork (a : ι) (i : ℕ) (s : Fin b) (t : Trie ι κ δ b) (s' : Fin b) (x : Item ι κ δ) :
    Trie ι κ δ b :=
  node a i (Function.update (Function.update (fun _ => nil) s t) s' (leaf x))

/-- A node with nothing beside the place has the leaves of what is put
there. -/
theorem leaves_fill_bare (a : ι) (i : ℕ) (s : Fin b) (t : Trie ι κ δ b) :
    ((Frame.mk a i (fun _ => nil) s).fill t).leaves = t.leaves := by
  have hbefore : (Frame.mk a i (fun _ => nil) s : Frame ι κ δ b).before = [] :=
    List.flatMap_eq_nil_iff.2 fun _ _ => rfl
  have hafter : (Frame.mk a i (fun _ => nil) s : Frame ι κ δ b).after = [] :=
    List.flatMap_eq_nil_iff.2 fun _ _ => rfl
  rw [Frame.leaves_fill, hbefore, hafter, List.nil_append, List.append_nil]

/-- A node over one subtree, seen from an empty slot of it. -/
theorem fill_single_eq (a : ι) (i : ℕ) {s s' : Fin b} (h : s ≠ s') (t : Trie ι κ δ b) :
    (Frame.mk a i (Function.update (fun _ => nil) s t) s').fill nil =
      (Frame.mk a i (fun _ => nil) s).fill t := by
  have hself : (Function.update (fun _ => nil) s t : Fin b → Trie ι κ δ b) s' = nil :=
    Function.update_of_ne h.symm ..
  have hsame := Function.update_eq_self s' (Function.update (fun _ => nil) s t : Fin b → Trie ι κ δ b)
  rw [hself] at hsame
  rw [Frame.fill, Frame.fill, Frame.downWith, Frame.downWith, hsame]

/-- A node over one subtree has its leaves and one more cell. -/
theorem fill_single (a : ι) (i : ℕ) {s s' : Fin b} (h : s ≠ s') (t : Trie ι κ δ b) :
    ((Frame.mk a i (Function.update (fun _ => nil) s t) s').fill nil).leaves = t.leaves ∧
      ((Frame.mk a i (Function.update (fun _ => nil) s t) s').fill nil).cells = a ::ₘ t.cells := by
  rw [fill_single_eq a i h]
  constructor
  · exact leaves_fill_bare ..
  · rw [Frame.cells_fill]; simp [Frame.cells, Trie.cells]

/-- The leaves at a place, up to order, are those of the subtree there and
those beside it. -/
theorem leaves_plug_perm {c : List (Frame ι κ δ b)} {t t' : Trie ι κ δ b} {x : Item ι κ δ}
    (h : t'.leaves.Perm (x :: t.leaves)) : (plug c t').leaves.Perm (x :: (plug c t).leaves) := by
  rw [leaves_plug, leaves_plug, List.append_assoc, List.append_assoc]
  refine ((h.append_right _).append_left _).trans ?_
  exact List.perm_middle

theorem leaves_fork_perm (a : ι) (i : ℕ) {s s' : Fin b} (h : s ≠ s') (t : Trie ι κ δ b)
    (x : Item ι κ δ) : (fork a i s t s' x).leaves.Perm (x :: t.leaves) := by
  conv_rhs => rw [← (fill_single a i h t).1]
  have hleaf : (leaf x : Trie ι κ δ b).leaves.Perm (x :: (nil : Trie ι κ δ b).leaves) := List.Perm.refl _
  exact leaves_plug_perm (c := [Frame.mk a i _ s']) hleaf

/-- **A new node branches** where the leaf and the subtree part. -/
theorem wf_fork {a : ι} {i : ℕ} {t : Trie ι κ δ b} {x y : Item ι κ δ} (hwf : t.WF dig)
    (ha : t.Above i) (hy : y ∈ t.leaves) (hlt : ∀ m < i, dig x.key m = dig y.key m)
    (hne : dig x.key i ≠ dig y.key i) :
    (fork a i (dig y.key i) t (dig x.key i) x).WF dig := by
  have hold : ∀ z ∈ t.leaves, ∀ m ≤ i, dig z.key m = dig y.key m :=
    fun z hz => hwf.agree_of_above ha hz hy
  -- what the slots of the new node hold
  have hdown : ∀ j, Function.update (Function.update (fun _ => nil) (dig y.key i) t)
      (dig x.key i) (leaf x) j = if j = dig x.key i then leaf x else
        if j = dig y.key i then t else nil := by
    intro j
    simp only [Function.update_apply]
  have hlow : ∀ j, ∀ z ∈ (Function.update (Function.update (fun _ => nil) (dig y.key i) t)
      (dig x.key i) (leaf x) j).leaves, dig z.key i = j ∧ ∀ m < i, dig z.key m = dig y.key m := by
    intro j z hz
    rw [hdown] at hz
    split_ifs at hz with h1 h2
    · rw [leaves_leaf, List.mem_singleton] at hz
      subst hz
      exact ⟨h1.symm, hlt⟩
    · exact ⟨(hold z hz i le_rfl).trans h2.symm, fun m hm => hold z hz m hm.le⟩
    · cases hz
  refine ⟨⟨fun j z hz => (hlow j z hz).1, fun j j' z hz z' hz' m hm => ?_, fun j => ?_,
    dig x.key i, dig y.key i, hne, ?_, ?_⟩, fun j => ?_⟩
  · rw [(hlow j z hz).2 m hm, (hlow j' z' hz').2 m hm]
  · rw [hdown]
    split_ifs
    · trivial
    · exact ha
    · trivial
  · rw [hdown, if_pos rfl]; simp
  · rw [hdown, if_neg hne.symm, if_pos rfl]
    intro hnil
    rw [hnil] at hy
    cases hy
  · rw [hdown]
    split_ifs
    · trivial
    · exact hwf
    · trivial

/-- **Adding a leaf beside a subtree**, under a new node. -/
theorem WF.plug_fork {a : ι} {i : ℕ} {c : List (Frame ι κ δ b)} {t : Trie ι κ δ b}
    {x y : Item ι κ δ} (h : (plug c t).WF dig) (ha : t.Above i) (hy : y ∈ t.leaves)
    (hlt : ∀ m < i, dig x.key m = dig y.key m) (hne : dig x.key i ≠ dig y.key i)
    (hc : ∀ f ∈ c.head?, f.pos < i) :
    (plug c (fork a i (dig y.key i) t (dig x.key i) x)).WF dig := by
  have hfork : (fork a i (dig y.key i) t (dig x.key i) x).WF dig := wf_fork h.of_plug ha hy hlt hne
  refine h.replug hfork (by simp [fork]) hc fun z hz => ?_
  rcases List.mem_cons.1 ((leaves_fork_perm a i hne.symm t x).subset hz) with rfl | hz
  · exact Or.inr ⟨y, hy, fun f hf m hm => hlt m (lt_of_le_of_lt hm (hc f hf))⟩
  · exact Or.inl hz

/-- A node keeps branching when a leaf that agrees with its other leaves
is put in the empty slot it belongs in. -/
theorem wf_fill_leaf {f : Frame ι κ δ b} {x y : Item ι κ δ} (h : (f.fill nil).WF dig)
    (hy : y ∈ (f.fill nil).leaves) (hlt : ∀ m < f.pos, dig x.key m = dig y.key m)
    (hslot : dig x.key f.pos = f.slot) : (f.fill (leaf x)).WF dig := by
  have hold : ∀ i, i ≠ f.slot → f.downWith (leaf x) i = f.downWith nil i := by
    intro i hi
    rw [Frame.downWith_of_ne f _ hi, Frame.downWith_of_ne f _ hi]
  have hlow : ∀ i, ∀ z ∈ (f.downWith (leaf x) i).leaves,
      dig z.key f.pos = i ∧ ∀ m < f.pos, dig z.key m = dig y.key m := by
    intro i z hz
    by_cases hi : i = f.slot
    · rw [hi, Frame.downWith_slot, leaves_leaf, List.mem_singleton] at hz
      rw [hz, hi]
      exact ⟨hslot, hlt⟩
    · rw [hold i hi] at hz
      obtain ⟨j, hj⟩ := mem_leaves_node.1 hy
      exact ⟨h.1.filed i z hz, fun m hm => h.1.agree i j z hz y hj m hm⟩
  refine ⟨⟨fun i z hz => (hlow i z hz).1, fun i j z hz z' hz' m hm => ?_, fun i => ?_, ?_⟩,
    fun i => ?_⟩
  · rw [(hlow i z hz).2 m hm, (hlow j z' hz').2 m hm]
  · by_cases hi : i = f.slot
    · rw [hi, Frame.downWith_slot]; trivial
    · rw [hold i hi]; exact h.1.above i
  · obtain ⟨i, j, hij, hi, hj⟩ := h.1.two
    have hkeep : ∀ k, f.downWith nil k ≠ nil → f.downWith (leaf x) k ≠ nil := by
      intro k hk
      have hks : k ≠ f.slot := fun hks => hk (by rw [hks, Frame.downWith_slot])
      rwa [hold k hks]
    exact ⟨i, j, hij, hkeep i hi, hkeep j hj⟩
  · by_cases hi : i = f.slot
    · rw [hi, Frame.downWith_slot]; trivial
    · rw [hold i hi]; exact h.2 i

/-- **Adding a leaf in an empty slot** of the node that tells it apart. -/
theorem WF.plug_leaf {f : Frame ι κ δ b} {c : List (Frame ι κ δ b)} {x y : Item ι κ δ}
    (h : (plug (f :: c) nil).WF dig) (hy : y ∈ (f.fill nil).leaves)
    (hlt : ∀ m < f.pos, dig x.key m = dig y.key m) (hslot : dig x.key f.pos = f.slot) :
    (plug (f :: c) (leaf x)).WF dig := by
  rw [plug_cons] at h ⊢
  have habove : ∀ g ∈ c.head?, g.pos < f.pos := by
    intro g hg
    rcases c with - | ⟨g', c⟩
    · cases hg
    · obtain rfl : g' = g := by simpa using hg
      have := (WF.of_plug (c := c) h).1.above g'.slot
      rwa [Frame.downWith_slot] at this
  refine h.replug (wf_fill_leaf h.of_plug hy hlt hslot) (by simp) habove fun z hz => ?_
  rcases Frame.mem_leaves_fill.1 hz with hz | hz
  · rw [leaves_leaf, List.mem_singleton] at hz
    subst hz
    exact Or.inr ⟨y, hy, fun g hg m hm => hlt m (lt_of_le_of_lt hm (habove g hg))⟩
  · exact Or.inl (Frame.mem_leaves_fill.2 (Or.inr hz))

/-! ## Removing a leaf -/

/-- **Emptying a slot** of a node that keeps two subtrees. -/
theorem WF.plug_fill_nil {f : Frame ι κ δ b} {c : List (Frame ι κ δ b)} {t : Trie ι κ δ b}
    (h : (plug (f :: c) t).WF dig) {i j : Fin b} (hij : i ≠ j) (hi : f.downWith nil i ≠ nil)
    (hj : f.downWith nil j ≠ nil) : (plug (f :: c) nil).WF dig := by
  rw [plug_cons] at h ⊢
  have hold := WF.of_plug (c := c) h
  have hsub : ∀ k, ∀ z ∈ (f.downWith nil k).leaves, z ∈ (f.downWith t k).leaves := by
    intro k z hz
    by_cases hk : k = f.slot
    · rw [hk, Frame.downWith_slot] at hz; cases hz
    · rwa [Frame.downWith_of_ne f _ hk] at hz ⊢
  have hwf : (f.fill nil).WF dig := by
    refine ⟨⟨fun k z hz => hold.1.filed k z (hsub k z hz),
      fun k k' z hz z' hz' => hold.1.agree k k' z (hsub k z hz) z' (hsub k' z' hz'),
      fun k => ?_, i, j, hij, hi, hj⟩, fun k => ?_⟩
    · by_cases hk : k = f.slot
      · rw [hk, Frame.downWith_slot]; trivial
      · have := hold.1.above k
        rwa [Frame.downWith_of_ne f _ hk] at this ⊢
    · by_cases hk : k = f.slot
      · rw [hk, Frame.downWith_slot]; trivial
      · have := hold.2 k
        rwa [Frame.downWith_of_ne f _ hk] at this ⊢
  refine h.replug hwf (by simp) (fun g hg => ?_) fun z hz => Or.inl ?_
  · rcases c with - | ⟨g', c⟩
    · cases hg
    · obtain rfl : g' = g := by simpa using hg
      have := (WF.of_plug (c := c) h).1.above g'.slot
      rwa [Frame.downWith_slot] at this
  · obtain ⟨k, hk⟩ := mem_leaves_node.1 hz
    exact mem_leaves_node.2 ⟨k, hsub k z hk⟩

/-- **A node with one subtree left makes way for it.** -/
theorem WF.plug_only {f : Frame ι κ δ b} {c : List (Frame ι κ δ b)} {t : Trie ι κ δ b}
    (h : (plug (f :: c) t).WF dig) {j : Fin b} (hj : j ≠ f.slot) (hne : f.down j ≠ nil) :
    (plug c (f.down j)).WF dig := by
  rw [plug_cons] at h
  have hold := WF.of_plug (c := c) h
  have hdown : f.downWith t j = f.down j := Frame.downWith_of_ne f t hj
  refine h.replug (hdown ▸ hold.2 j) hne (fun g hg => ?_) fun z hz => Or.inl ?_
  · have hfj : (f.down j).Above f.pos := hdown ▸ hold.1.above j
    rcases c with - | ⟨g', c⟩
    · cases hg
    · obtain rfl : g' = g := by simpa using hg
      have hgf := (WF.of_plug (c := c) h).1.above g'.slot
      rw [Frame.downWith_slot] at hgf
      cases hd : f.down j with
      | nil => trivial
      | leaf x => trivial
      | node a m down =>
        rw [hd] at hfj
        exact lt_trans (a := g'.pos) hgf hfj
  · exact mem_leaves_node.2 ⟨j, by rwa [hdown]⟩

/-- With one subtree left, the leaves of the node are those of that subtree. -/
theorem leaves_of_only {f : Frame ι κ δ b} {j : Fin b} (hj : j ≠ f.slot)
    (honly : ∀ i, i ≠ f.slot → i ≠ j → f.down i = nil) :
    f.before ++ f.after = (f.down j).leaves ∧ f.cells = f.cell ::ₘ (f.down j).cells := by
  have hfill : f.fill nil = (Frame.mk f.cell f.pos (fun _ => nil) j).fill (f.down j) := by
    rw [Frame.fill, Frame.fill]
    congr 1
    funext i
    by_cases hi : i = j
    · subst hi
      rw [Frame.downWith_of_ne f _ hj]
      simp [Frame.downWith]
    · by_cases his : i = f.slot
      · rw [his, Frame.downWith_slot, Frame.downWith_of_ne _ _ (his ▸ hi)]
      · rw [Frame.downWith_of_ne f _ his, honly i his hi, Frame.downWith_of_ne _ _ hi]
  constructor
  · have := congrArg Trie.leaves hfill
    rw [Frame.leaves_fill, leaves_fill_bare] at this
    simpa using this
  · have := congrArg Trie.cells hfill
    rw [Frame.cells_fill, Frame.cells_fill] at this
    simpa [Frame.cells, Trie.cells] using this

/-! ## The order of the leaves -/

/-- The order of keys by their digits. -/
def DigLt (dig : κ → ℕ → Fin b) (k k' : κ) : Prop :=
  ∃ i, (∀ m < i, dig k m = dig k' m) ∧ dig k i < dig k' i

/-- **The leaves are in the order of their keys' digits.** -/
theorem WF.sorted : ∀ {t : Trie ι κ δ b}, t.WF dig →
    t.leaves.Pairwise fun x y => DigLt dig x.key y.key
  | nil, _ => List.Pairwise.nil
  | leaf x, _ => List.pairwise_singleton _ _
  | node a n down, h => by
    rw [leaves, List.pairwise_flatMap]
    refine ⟨fun i _ => WF.sorted (h.2 i), (List.pairwise_lt_finRange b).imp ?_⟩
    intro i j hij x hx y hy
    refine ⟨n, fun m hm => h.1.agree i j x hx y hy m hm, ?_⟩
    rw [h.1.filed i x hx, h.1.filed j y hy]
    exact hij

end Trie

end Mowgli
