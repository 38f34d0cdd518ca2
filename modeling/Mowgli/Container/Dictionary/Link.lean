import Mowgli.Container.Dictionary.Find
/-!
# Linking an element

`link` makes the new element the root, with the old root on one side of
it, and puts it into the list next to the old root. That is in order
because the old root is a neighbour of the new key.
-/

namespace Mowgli

namespace Dictionary

open Store BinTree Links

variable {K D : Type} {C : Comparator K} {d : Dictionary K D} {t l r : DTree K D}
variable {m : Store (DictElem K D)} {root : Option Addr} {a : Addr} {x : Item Addr K D}
variable {key : K} {data : D}

/-- A new cell changes nothing for a tree. -/
theorem Holds.set_fresh (h : Holds m t root) (ha : m.get a = none) (e : DictElem K D) :
    Holds (m.set a e) t root := by
  have hne : ∀ x ∈ t.inorder, x.cell ≠ a := by
    rintro x hx rfl
    exact get_eq_none.1 ha (h.mem_live hx)
  refine ⟨h.linked.congr fun x hx => ?_, fun x hx => ?_, h.nodup⟩
  · rw [links, links, get_set_of_ne _ _ (hne x hx)]
  · rw [← h.contents x hx, Dictionary.contents, Dictionary.contents, get_set_of_ne _ _ (hne x hx)]

/-- What `link` has made of a dictionary that held `l` and then `r`. -/
structure Linking (d d' : Dictionary K D) (t' : DTree K D) (l r : List (Item Addr K D))
    (x : Item Addr K D) : Prop where
  holds : Holds d'.mem t' d'.root
  inorder : t'.inorder = l ++ x :: r
  threaded : (threads d'.mem).Dll d'.head (t'.inorder.map Item.cell) d'.tail
  live : d'.mem.live = d.mem.live
  rest : d' = { d with mem := d'.mem, root := d'.root, head := d'.head, tail := d'.tail }

theorem isSome_links (h : a ∈ m.live) : (links m a).isSome := by
  obtain ⟨e, he⟩ := Store.mem_live.1 h
  simp [links, he]

theorem isSome_threads (h : a ∈ m.live) : (threads m a).isSome := by
  obtain ⟨e, he⟩ := Store.mem_live.1 h
  simp [threads, he]

theorem mem_cells {xs : List (Item Addr K D)} :
    a ∈ xs.map Item.cell ↔ ∃ y ∈ xs, y.cell = a := List.mem_map

/-- Linking an element before the root. -/
theorem linkBefore_spec {y : Item Addr K D} (h : Holds d.mem (node l x r) d.root)
    (hthr : (threads d.mem).Dll d.head ((node l x r).inorder.map Item.cell) d.tail)
    (hy : contents d.mem y.cell = some (y.key, y.data))
    (hfresh : ∀ z ∈ (node l x r).inorder, z.cell ≠ y.cell) :
    ∃ d', d.linkBefore y.cell x.cell = some d' ∧
      Linking d d' (node l y (node nil x r)) l.inorder (x :: r.inorder) y := by
  obtain ⟨ey, hey, -⟩ := exists_of_contents hy
  have hylive : y.cell ∈ d.mem.live := Store.mem_live.2 ⟨ey, hey⟩
  have hxlive : x.cell ∈ d.mem.live := h.mem_live (by simp)
  -- the tree
  obtain ⟨pl, pr, hx, hlinked⟩ := h.linked.plantBefore h.nodup (isSome_links hylive) hfresh
  obtain ⟨e₀, he₀, rfl, -⟩ := exists_of_links hx
  obtain ⟨m₁, hm₁, hl₁, hs₁⟩ := setLeft_spec hylive e₀.left
  obtain ⟨m₂, hm₂, hl₂, hs₂⟩ := setRight_spec (hs₁.live ▸ hylive) (some x.cell)
  obtain ⟨m₃, hm₃, hl₃, hs₃⟩ := setLeft_spec (hs₂.live ▸ hs₁.live ▸ hxlive) none
  rw [← hl₁, ← hl₂, ← hl₃] at hlinked
  have hsame := hs₁.trans (hs₂.trans hs₃)
  -- the list
  have hnd := h.nodup
  have hfresh' : y.cell ∉ (node l x r).inorder.map Item.cell := by
    rw [mem_cells]
    rintro ⟨z, hz, hzy⟩
    exact hfresh z hz hzy
  rw [inorder_node, List.map_append] at hthr hnd hfresh'
  rw [← threads_of_same hsame] at hthr
  obtain ⟨p, n, hxt, hpl, hxt', hdll⟩ := hthr.insertBefore hnd hfresh'
    (isSome_threads (hsame.live ▸ hylive))
  obtain ⟨e₃, he₃, rfl, -⟩ := exists_of_threads hxt
  obtain ⟨m₄, hm₄, hl₄, hs₄⟩ := setNext?_spec (p := e₃.prev) (m := m₃) (fun b hb => by
    obtain ⟨z, hz, rfl⟩ := mem_cells.1 (hpl b hb)
    exact hsame.live ▸ h.mem_live (by simp [hz])) (some y.cell)
  rw [← hl₄] at hxt' hdll
  obtain ⟨e₄, he₄, hprev, -⟩ := exists_of_threads hxt'
  have hylive₄ : y.cell ∈ m₄.live := hs₄.live ▸ hsame.live ▸ hylive
  obtain ⟨m₅, hm₅, hl₅, hs₅⟩ := setPrev_spec hylive₄ e₃.prev
  obtain ⟨m₆, hm₆, hl₆, hs₆⟩ := setNext_spec (hs₅.live ▸ hylive₄) (some x.cell)
  obtain ⟨m₇, hm₇, hl₇, hs₇⟩ := setPrev_spec
    (hs₆.live ▸ hs₅.live ▸ hs₄.live ▸ hsame.live ▸ hxlive) (some y.cell)
  rw [← hl₅, ← hl₆, ← hl₇] at hdll
  have hsame' := hs₄.trans (hs₅.trans (hs₆.trans hs₇))
  have hcont : contents m₇ = contents d.mem :=
    (contents_of_same' hsame').trans (contents_of_same hsame)
  refine ⟨{ d with mem := m₇, head := if e₃.prev = none then some y.cell else d.head, root := some y.cell },
    ?_, ⟨⟨?_, fun z hz => ?_, ?_⟩, by simp, by simpa using hdll, hsame'.live.trans hsame.live, rfl⟩⟩
  · simp only [linkBefore, he₀, Option.bind_eq_bind, Option.bind_some, hm₁, hm₂, hm₃, he₃, hm₄, he₄,
      hprev, hm₅, hm₆, hm₇]
  · rwa [links_of_same hsame']
  · rw [hcont]
    simp only [inorder_node, inorder_nil, List.nil_append, List.mem_append, List.mem_cons] at hz
    rcases hz with hz | rfl | hz
    · exact h.contents z (by simp [hz])
    · exact hy
    · exact h.contents z (by simp [hz])
  · rw [inorder_node, List.map_append, List.map_cons, List.nodup_middle, ← List.map_append]
    exact List.nodup_cons.2 ⟨by simpa using hfresh', by simpa using hnd⟩

/-- Linking an element after the root. -/
theorem linkAfter_spec {y : Item Addr K D} (h : Holds d.mem (node l x r) d.root)
    (hthr : (threads d.mem).Dll d.head ((node l x r).inorder.map Item.cell) d.tail)
    (hy : contents d.mem y.cell = some (y.key, y.data))
    (hfresh : ∀ z ∈ (node l x r).inorder, z.cell ≠ y.cell) :
    ∃ d', d.linkAfter y.cell x.cell = some d' ∧
      Linking d d' (node (node l x nil) y r) (l.inorder ++ [x]) r.inorder y := by
  obtain ⟨ey, hey, -⟩ := exists_of_contents hy
  have hylive : y.cell ∈ d.mem.live := Store.mem_live.2 ⟨ey, hey⟩
  have hxlive : x.cell ∈ d.mem.live := h.mem_live (by simp)
  -- the tree
  obtain ⟨pl, pr, hx, hlinked⟩ := h.linked.plantAfter h.nodup (isSome_links hylive) hfresh
  obtain ⟨e₀, he₀, -, rfl⟩ := exists_of_links hx
  obtain ⟨m₁, hm₁, hl₁, hs₁⟩ := setRight_spec hylive e₀.right
  obtain ⟨m₂, hm₂, hl₂, hs₂⟩ := setLeft_spec (hs₁.live ▸ hylive) (some x.cell)
  obtain ⟨m₃, hm₃, hl₃, hs₃⟩ := setRight_spec (hs₂.live ▸ hs₁.live ▸ hxlive) none
  rw [← hl₁, ← hl₂, ← hl₃] at hlinked
  have hsame := hs₁.trans (hs₂.trans hs₃)
  -- the list
  have hnd := h.nodup
  have hfresh' : y.cell ∉ (node l x r).inorder.map Item.cell := by
    rw [mem_cells]
    rintro ⟨z, hz, hzy⟩
    exact hfresh z hz hzy
  rw [inorder_node, List.map_append] at hthr hnd hfresh'
  rw [← threads_of_same hsame] at hthr
  obtain ⟨p, n, hxt, hnr, hxt', hdll⟩ := hthr.insertAfter hnd hfresh'
    (isSome_threads (hsame.live ▸ hylive))
  obtain ⟨e₃, he₃, -, rfl⟩ := exists_of_threads hxt
  obtain ⟨m₄, hm₄, hl₄, hs₄⟩ := setPrev?_spec (p := e₃.next) (m := m₃) (fun b hb => by
    obtain ⟨z, hz, rfl⟩ := mem_cells.1 (hnr b hb)
    exact hsame.live ▸ h.mem_live (by simp [hz])) (some y.cell)
  rw [← hl₄] at hxt' hdll
  obtain ⟨e₄, he₄, -, hnext⟩ := exists_of_threads hxt'
  have hylive₄ : y.cell ∈ m₄.live := hs₄.live ▸ hsame.live ▸ hylive
  obtain ⟨m₅, hm₅, hl₅, hs₅⟩ := setNext_spec hylive₄ e₃.next
  obtain ⟨m₆, hm₆, hl₆, hs₆⟩ := setPrev_spec (hs₅.live ▸ hylive₄) (some x.cell)
  obtain ⟨m₇, hm₇, hl₇, hs₇⟩ := setNext_spec
    (hs₆.live ▸ hs₅.live ▸ hs₄.live ▸ hsame.live ▸ hxlive) (some y.cell)
  rw [← hl₅, ← hl₆, ← hl₇] at hdll
  have hsame' := hs₄.trans (hs₅.trans (hs₆.trans hs₇))
  have hcont : contents m₇ = contents d.mem :=
    (contents_of_same' hsame').trans (contents_of_same hsame)
  refine ⟨{ d with mem := m₇, tail := if e₃.next = none then some y.cell else d.tail, root := some y.cell },
    ?_, ⟨⟨?_, fun z hz => ?_, ?_⟩, by simp, by simpa using hdll, hsame'.live.trans hsame.live, rfl⟩⟩
  · simp only [linkAfter, he₀, Option.bind_eq_bind, Option.bind_some, hm₁, hm₂, hm₃, he₃, hm₄, he₄,
      hnext, hm₅, hm₆, hm₇]
  · rwa [links_of_same hsame']
  · rw [hcont]
    simp only [inorder_node, inorder_nil, List.append_assoc, List.singleton_append, List.mem_append,
      List.mem_cons] at hz
    rcases hz with hz | rfl | rfl | hz
    · exact h.contents z (by simp [hz])
    · exact h.contents z (by simp)
    · exact hy
    · exact h.contents z (by simp [hz])
  · rw [inorder_node, List.map_append, List.map_cons, List.nodup_middle, ← List.map_append]
    exact List.nodup_cons.2 ⟨by simpa using hfresh', by simpa using hnd⟩

/-- A key between the elements before it and those after it makes them
sorted with its own. -/
theorem sorted_insert {xs ys : List (Item Addr K D)} {y : Item Addr K D}
    (h : (xs ++ ys).Pairwise fun x y => C.cmp x.key y.key < 0)
    (hxs : ∀ z ∈ xs, C.cmp z.key y.key < 0) (hys : ∀ z ∈ ys, C.cmp y.key z.key < 0) :
    (xs ++ y :: ys).Pairwise fun x y => C.cmp x.key y.key < 0 := by
  obtain ⟨h₁, h₂, h₃⟩ := List.pairwise_append.1 h
  refine List.pairwise_append.2 ⟨h₁, List.pairwise_cons.2 ⟨hys, h₂⟩, fun z hz w hw => ?_⟩
  rcases List.mem_cons.1 hw with rfl | hw
  · exact hxs z hz
  · exact h₃ z hz w hw

/-- Linking keeps the dictionary wired. -/
theorem Linking.wired {d₁ d' : Dictionary K D} {t' : DTree K D} {xs ys : List (Item Addr K D)}
    {y : Item Addr K D} (hl : Linking d₁ d' t' xs ys y) (h : Wired d t) (hin : t.inorder = xs ++ ys)
    (hdirty : d₁.dirty = true) (hcount : d₁.count = d.count + 1)
    (hlive : ∀ b ∈ d₁.mem.live, b = y.cell ∨ b ∈ d.mem.live) : Wired d' t' := by
  have hlen : t'.inorder.length = t.inorder.length + 1 := by
    rw [hl.inorder, hin, List.length_append, List.length_append, List.length_cons]
    omega
  refine ⟨hl.holds, fun b hb => ?_, hl.threaded, ?_, fun hd => ?_⟩
  · rw [hl.inorder]
    rcases hlive b (hl.live ▸ hb) with rfl | hb
    · exact ⟨y, by simp, rfl⟩
    · obtain ⟨x, hx, hxb⟩ := h.live b hb
      rw [hin] at hx
      simp only [List.mem_append] at hx
      exact ⟨x, by simp; tauto, hxb⟩
  · rw [hl.rest, hlen, UInt32.ofNat_add, ← h.count]
    exact hcount
  · rw [hl.rest] at hd
    exact absurd hd (by simp [hdirty])

/-- Linking into an empty dictionary. -/
theorem linkEmpty_spec {y : Item Addr K D} {e : DictElem K D} (he : d.mem.get y.cell = some e)
    (hkey : e.key = y.key) (hdata : e.data = y.data) :
    Linking d { d with
      mem := d.mem.set y.cell { e with left := none, right := none, next := none, prev := none },
      head := some y.cell, tail := some y.cell, root := some y.cell } (node nil y nil) [] [] y := by
  refine ⟨⟨⟨rfl, none, none, ?_, rfl, rfl⟩, fun z hz => ?_, by simp⟩, rfl, ⟨rfl, none, ?_, rfl, rfl⟩, ?_,
    rfl⟩
  · rw [links, get_set_self]
    rfl
  · obtain rfl : z = y := by simpa using hz
    rw [contents, get_set_self, ← hkey, ← hdata]
    rfl
  · rw [threads, get_set_self]
    rfl
  · ext b
    rw [mem_live_set]
    refine ⟨fun hb => ?_, Or.inr⟩
    rcases hb with rfl | hb
    · exact Store.mem_live.2 ⟨e, he⟩
    · exact hb

/-- The element to link, in its cell. -/
def unlinkedElem (key : K) (data : D) : DictElem K D := ⟨none, none, none, none, data, key, 0⟩

/-- What `link` has made of the dictionary `d` that held `t`, given the new
element `y`: one more element, between `xs` and `ys`. -/
structure Grown (d d' : Dictionary K D) (t t' : DTree K D) (xs ys : List (Item Addr K D))
    (y : Item Addr K D) : Prop where
  wired : Wired d' t'
  old : t.inorder = xs ++ ys
  new : t'.inorder = xs ++ y :: ys
  compareCb : d'.compareCb = d.compareCb
  log : d'.log = d.log

/-- `link` takes the root's element for the new one's: it gets the new key
and data, and the new element is freed. -/
structure Overwritten (d d' : Dictionary K D) (x : Item Addr K D) (l r : DTree K D) (key : K) (data : D) :
    Prop where
  wired : Wired d' (node l ⟨x.cell, key, data⟩ r)
  live : d'.mem.live = d.mem.live
  compareCb : d'.compareCb = d.compareCb
  log : d'.log = d.log

/-- The new key and data of an element that keeps its links. -/
theorem Holds.overwrite {e : DictElem K D} (h : Holds m (node l x r) root) (he : m.get x.cell = some e)
    (key : K) (data : D) : Holds (m.set x.cell { e with key := key, data := data }) (node l ⟨x.cell, key, data⟩ r) root := by
  have hlinks : links (m.set x.cell { e with key := key, data := data }) = links m := by
    funext b
    rw [links, get_set]
    split_ifs with hb
    · rw [links, hb, he]
      rfl
    · rfl
  obtain ⟨hroot, pl, pr, hx, hl, hr⟩ := h.linked
  refine ⟨?_, fun z hz => ?_, by simpa using h.nodup⟩
  · rw [hlinks]
    exact ⟨hroot, pl, pr, hx, hl, hr⟩
  · rw [inorder_node, List.mem_append, List.mem_cons] at hz
    by_cases hzx : z.cell = x.cell
    · have hz' : z = ⟨x.cell, key, data⟩ := by
        rcases hz with hz | hz | hz
        · exact absurd hzx (cell_ne_of_mem h.nodup (by simp [hz]))
        · exact hz
        · exact absurd hzx (cell_ne_of_mem h.nodup (by simp [hz]))
      rw [hz', Dictionary.contents, get_set_self]
      rfl
    · rw [Dictionary.contents, get_set_of_ne _ _ hzx]
      refine h.contents z ?_
      rw [inorder_node, List.mem_append, List.mem_cons]
      rcases hz with hz | rfl | hz
      · exact Or.inl hz
      · exact absurd rfl hzx
      · exact Or.inr (Or.inr hz)

/-- **What `link` does** with a new element: it stands next to the root of
the splay, on the side the `int` says, and where the `int` is zero it is
lost. -/
theorem Wired.link (h : Wired d t) (ha : d.mem.get a = none) (key : K) (data : D) :
    ∃ d', ({ d with mem := d.mem.set a (unlinkedElem key data) } : Dictionary K D).link a = some d' ∧
      ((t = nil ∧ ∃ t', Grown d d' t t' [] [] ⟨a, key, data⟩) ∨
        ∃ l x r, splay (fun x => d.compareCb key x.key) t = node l x r ∧
          ((toInt (d.compareCb key x.key) < 0 ∧
              ∃ t', Grown d d' t t' l.inorder (x :: r.inorder) ⟨a, key, data⟩) ∨
            (0 < toInt (d.compareCb key x.key) ∧
              ∃ t', Grown d d' t t' (l.inorder ++ [x]) r.inorder ⟨a, key, data⟩) ∨
            (toInt (d.compareCb key x.key) = 0 ∧ Overwritten d d' x l r key data))) := by
  have hfresh : ∀ x ∈ t.inorder, x.cell ≠ a := by
    rintro x hx rfl
    exact get_eq_none.1 ha (h.holds.mem_live hx)
  have hholds := h.holds.set_fresh ha (unlinkedElem key data)
  have hmem₁ : ∀ b, b ∈ (d.mem.set a (unlinkedElem key data)).live ↔ b = a ∨ b ∈ d.mem.live :=
    fun b => mem_live_set
  have hthr : (threads (d.mem.set a (unlinkedElem key data))).Dll d.head
      (t.inorder.map Item.cell) d.tail := by
    refine h.threaded.congr fun b hb => ?_
    obtain ⟨x, hx, rfl⟩ := mem_cells.1 hb
    rw [threads, threads, get_set_of_ne _ _ (hfresh x hx)]
  have hnew : (d.mem.set a (unlinkedElem key data)).get a = some (unlinkedElem key data) := get_set_self ..
  generalize d.mem.set a (unlinkedElem key data) = m₁ at *
  rw [Dictionary.link]
  by_cases ht : t = nil
  · subst ht
    have hroot : d.root = none := h.holds.linked
    have hl := linkEmpty_spec (d := { d with mem := m₁, dirty := true, count := d.count + 1 })
      (y := ⟨a, key, data⟩) hnew rfl rfl
    refine ⟨_, ?_, Or.inl ⟨rfl, _, hl.wired h rfl rfl rfl fun b hb => (hmem₁ b).1 hb, rfl, rfl, rfl, rfl⟩⟩
    simp only [hroot, modify_of_get _ hnew, Option.bind_eq_bind, Option.bind_some]
  obtain ⟨m, root, hrun, hholds', hsame⟩ := retune_spec
    (d := { d with mem := m₁, dirty := true, count := d.count + 1 }) hholds key
  have hin₀ := inorder_splay (fun x : Item Addr K D => d.compareCb key x.key) t
  obtain ⟨l, x, r, hs, -, -⟩ := splay_any (c := fun x : Item Addr K D => d.compareCb key x.key) ht
  obtain ⟨root₀, hroot₀⟩ := exists_root? ht
  rw [← h.holds.linked.eq_root?] at hroot₀
  simp only [hs] at hholds' hin₀
  rw [inorder_node] at hin₀
  obtain ⟨rfl, -⟩ := hholds'.linked
  obtain ⟨ex, hex, hkx, -⟩ := exists_of_contents (hholds'.contents x (by simp))
  have ha' : contents m a = some (key, data) := by
    rw [contents_of_same hsame, contents, hnew]
    rfl
  obtain ⟨ea, hea, hka, hda⟩ := exists_of_contents ha'
  -- the dictionary `link` has after `retune`
  let d₂ : Dictionary K D := { d with mem := m, root := some x.cell, dirty := true, count := d.count + 1 }
  have hthr₂ : (threads m).Dll d.head ((node l x r).inorder.map Item.cell) d.tail := by
    rw [threads_of_same hsame, inorder_node, hin₀]
    exact hthr
  have hfresh₂ : ∀ z ∈ (node l x r).inorder, z.cell ≠ a := by
    rw [inorder_node, hin₀]
    exact hfresh
  have hlive₂ : ∀ b, b ∈ m.live ↔ b = a ∨ b ∈ d.mem.live := by
    rw [hsame.live]
    exact hmem₁
  simp only [hroot₀] at hrun ⊢
  have hkey₁ : (unlinkedElem key data).key = key := rfl
  simp only [Option.bind_eq_bind, Option.bind_some, hnew, hkey₁, hrun, hea, hex, hka, hkx]
  rcases lt_trichotomy (toInt (d.compareCb key x.key)) 0 with hneg | h0 | hpos
  · obtain ⟨d', hd', hlk⟩ := linkBefore_spec (d := d₂) (y := ⟨a, key, data⟩) hholds' hthr₂ ha' hfresh₂
    have hgrown : Grown d d' t _ l.inorder (x :: r.inorder) ⟨a, key, data⟩ :=
      ⟨hlk.wired h hin₀.symm rfl rfl fun b hb => (hlive₂ b).1 hb, hin₀.symm, hlk.inorder,
        by rw [hlk.rest], by rw [hlk.rest]⟩
    exact ⟨d', by rw [if_pos hneg]; exact hd', Or.inr ⟨l, x, r, hs, Or.inl ⟨hneg, _, hgrown⟩⟩⟩
  · -- the root gets the key and data, and the new element is freed
    have hne : x.cell ≠ a := hfresh₂ x (by simp)
    have hover := hholds'.overwrite hex key data
    have hout : ∀ z ∈ (node l ⟨x.cell, key, data⟩ r).inorder, z.cell ≠ a := by
      intro z hz
      rw [inorder_node, List.mem_append, List.mem_cons] at hz
      rcases hz with hz | rfl | hz
      · exact hfresh₂ z (by simp [hz])
      · exact hne
      · exact hfresh₂ z (by simp [hz])
    have hlive : ∀ b, b ∈ ((m.set x.cell { ex with key := key, data := data }).free a).live ↔
        b ∈ d.mem.live := by
      intro b
      have hxlive := hholds'.mem_live (x := x) (by simp)
      rw [mem_live_free, mem_live_set, hlive₂]
      constructor
      · rintro ⟨hba, rfl | hb | hb⟩
        · exact ((hlive₂ _).1 hxlive).resolve_left hne
        · exact absurd hb hba
        · exact hb
      · intro hb
        refine ⟨?_, Or.inr (Or.inr hb)⟩
        rintro rfl
        exact get_eq_none.1 ha hb
    refine ⟨{ d with
      mem := (m.set x.cell { ex with key := key, data := data }).free a,
      root := some x.cell, dirty := true, count := d.count + 1 - 1 }, ?_,
      Or.inr ⟨l, x, r, hs, Or.inr (Or.inr ⟨h0, ⟨⟨?_, fun b hb => ?_, ?_, ?_, by simp⟩, ?_, rfl, rfl⟩⟩)⟩⟩
    · simp only [h0, lt_irrefl, if_false, modify_of_get _ hex, Option.bind_some, hda]
    · refine ⟨hover.linked.congr fun z hz => ?_, fun z hz => ?_, hover.nodup⟩
      · rw [links, links, get_free_of_ne _ (hout z hz)]
      · rw [← hover.contents z hz, contents, contents, get_free_of_ne _ (hout z hz)]
    · obtain ⟨z, hz, rfl⟩ := h.live b ((hlive b).1 hb)
      rw [← hin₀, List.mem_append, List.mem_cons] at hz
      rw [inorder_node]
      rcases hz with hz | rfl | hz
      · exact ⟨z, by simp [hz], rfl⟩
      · exact ⟨⟨z.cell, key, data⟩, by simp, rfl⟩
      · exact ⟨z, by simp [hz], rfl⟩
    · have hcells : (node l ⟨x.cell, key, data⟩ r).inorder.map Item.cell =
          (node l x r).inorder.map Item.cell := by simp
      rw [hcells]
      refine hthr₂.congr fun b hb => ?_
      obtain ⟨z, hz, rfl⟩ := mem_cells.1 hb
      rw [threads, threads, get_free_of_ne _ (hfresh₂ z hz), get_set]
      split_ifs with hzx
      · rw [hzx, hex]
        rfl
      · rfl
    · have hlen := congrArg List.length hin₀
      rw [List.length_append, List.length_cons] at hlen
      rw [inorder_node, List.length_append, List.length_cons, hlen]
      show d.count + 1 - 1 = _
      rw [h.count]
      exact UInt32.add_sub_cancel ..
    · exact Finset.ext hlive
  · obtain ⟨d', hd', hlk⟩ := linkAfter_spec (d := d₂) (y := ⟨a, key, data⟩) hholds' hthr₂ ha' hfresh₂
    have hin' : t.inorder = (l.inorder ++ [x]) ++ r.inorder := by rw [← hin₀]; simp
    have hgrown : Grown d d' t _ (l.inorder ++ [x]) r.inorder ⟨a, key, data⟩ :=
      ⟨hlk.wired h hin' rfl rfl fun b hb => (hlive₂ b).1 hb, hin', hlk.inorder, by rw [hlk.rest],
        by rw [hlk.rest]⟩
    exact ⟨d', by rw [if_neg (by omega), if_pos hpos]; exact hd',
      Or.inr ⟨l, x, r, hs, Or.inr (Or.inl ⟨hpos, _, hgrown⟩)⟩⟩

/-- **What `link` does** with a new element whose key no other has, in a
sorted dictionary. -/
theorem Inv.link (h : Inv C d t) (ha : d.mem.get a = none) (key : K) (data : D)
    (hno : ∀ x ∈ t.inorder, x.key ≠ key) :
    ∃ d' t' xs ys, ({ d with mem := d.mem.set a (unlinkedElem key data) } : Dictionary K D).link a = some d' ∧
      Inv C d' t' ∧ d'.log = d.log ∧ t.inorder = xs ++ ys ∧ t'.inorder = xs ++ ⟨a, key, data⟩ :: ys := by
  have hc : ∀ k, d.compareCb key k = C.cmp key k := fun k => by rw [h.compareCb]
  have hret : ∀ k, toInt (C.cmp key k) = C.cmp key k :=
    fun k => toInt_of_range (C.range ..).1 (C.range ..).2
  have hsorted := h.sorted
  obtain ⟨d', hrun, hcases⟩ := h.wired.link ha key data
  simp only [hc, hret] at hcases
  rcases hcases with ⟨rfl, t', hlk⟩ | ⟨l, x, r, hs, hcases⟩
  · exact ⟨d', t', [], [], hrun, hlk.wired.inv (hlk.compareCb.trans h.compareCb) (by rw [hlk.new]; simp),
      hlk.log, hlk.old, hlk.new⟩
  have ht : t ≠ nil := by
    rintro rfl
    cases hs
  obtain ⟨l', x', r', hs', hin, hx⟩ := splay_near ht hsorted key
  obtain ⟨rfl, rfl, rfl⟩ := BinTree.node.inj (hs.symm.trans hs')
  obtain ⟨hno, hx⟩ := hx.resolve_left fun hkey => hno x (by rw [hin]; simp) hkey.symm
  have hcut := cut_of_sorted hsorted key
  rw [hin] at hcut
  rcases hcases with ⟨hneg, t', hlk⟩ | ⟨hpos, t', hlk⟩ | ⟨h0, -⟩
  · refine ⟨d', t', _, _, hrun, hlk.wired.inv (hlk.compareCb.trans h.compareCb) ?_, hlk.log, hlk.old, hlk.new⟩
    obtain ⟨-, hl⟩ := hx.resolve_right fun hpos => not_lt.2 hneg.le hpos.1
    rw [hlk.new]
    rw [hlk.old] at hsorted
    refine sorted_insert hsorted hl fun z hz => ?_
    rcases List.mem_cons.1 hz with rfl | hz
    · exact hneg
    · exact hcut.neg hneg.le z hz
  · refine ⟨d', t', _, _, hrun, hlk.wired.inv (hlk.compareCb.trans h.compareCb) ?_, hlk.log, hlk.old, hlk.new⟩
    obtain ⟨-, hr⟩ := hx.resolve_left fun hneg => not_lt.2 hpos.le hneg.1
    rw [hlk.new]
    rw [hlk.old] at hsorted
    refine sorted_insert hsorted (fun z hz => ?_) hr
    rw [C.swap]
    rcases List.mem_append.1 hz with hz | hz
    · exact hcut.pos hpos.le z hz
    · rw [List.mem_singleton.1 hz]
      exact hpos
  · omega

end Dictionary

end Mowgli
