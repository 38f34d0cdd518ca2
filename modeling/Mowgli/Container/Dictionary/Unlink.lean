import Mowgli.Container.Dictionary.Find
/-!
# Unlinking the root

The element after the root in the list is the first of its right subtree.
It has no left child, and the loop down the left pointers ends at its
parent, so both assertions of `unlink_root` hold.
-/

namespace Mowgli

namespace Dictionary

open Store BinTree Links

variable {K D : Type} {C : Comparator K} {d : Dictionary K D} {t l r s : DTree K D}
variable {m : Store (DictElem K D)} {a : Addr} {x y : Item Addr K D}
variable {R : List (Item Addr K D × DTree K D)} {f : Item Addr K D × DTree K D}

/-- **The loop of `unlink_root`** ends at the parent of the first element. -/
theorem parentOfNext_spec {p : Addr} {fuel : ℕ}
    (h : (closeRight (f :: R) (node nil y s)).Linked Item.cell (links m) (some p))
    (hne : ∀ z ∈ after (f :: R), z.cell ≠ y.cell) (hfuel : R.length < fuel) :
    parentOfNext m y.cell fuel p = some f.1.cell := by
  obtain ⟨n, rfl⟩ : ∃ n, fuel = n + 1 := ⟨fuel - 1, by omega⟩
  induction R using List.reverseRecOn generalizing p n with
  | nil =>
    obtain ⟨hp, a, b, hf, ⟨rfl, -⟩, -⟩ := h
    obtain rfl := Option.some.inj hp
    obtain ⟨e, he, hel, -⟩ := exists_of_links hf
    simp only [parentOfNext, he, Option.bind_eq_bind, Option.bind_some, hel, if_pos]
  | append_singleton R g ih =>
    rw [← List.cons_append, closeRight_append] at h
    obtain ⟨hp, a, b, hg, ha, -⟩ := h
    obtain rfl := Option.some.inj hp
    obtain ⟨e, he, hel, -⟩ := exists_of_links hg
    have hne' : ∀ z ∈ after (f :: R), z.cell ≠ y.cell := by
      intro z hz
      refine hne z ?_
      simp only [after, List.mem_flatMap, List.mem_cons, List.mem_append] at hz ⊢
      obtain ⟨k, hk, hz⟩ := hz
      exact ⟨k, by tauto, hz⟩
    -- the left child is an element of the spine, so the loop goes on
    obtain ⟨l, x, r, hroot, hx⟩ := closeRight_cons f R (node nil y s)
    obtain rfl : a = some x.cell := by rw [ha.eq_root?, hroot]; rfl
    simp only [List.length_append, List.length_singleton] at hfuel
    obtain ⟨k, rfl⟩ : ∃ k, n = k + 1 := ⟨n - 1, by omega⟩
    rw [parentOfNext, he, Option.bind_eq_bind, Option.bind_some]
    simp only [hel, if_neg (hne' x hx)]
    exact ih ha hne' k (by omega)

/-- **The next element becomes the root**, and no assertion fails. -/
theorem promoteNext_spec {q : Option Addr}
    (h : Holds d.mem (node l x (closeRight R (node nil y s))) d.root)
    (hnext : threads d.mem x.cell = some (q, some y.cell)) {right : Addr}
    (hright : (closeRight R (node nil y s)).root? Item.cell = some right) :
    ∃ m, d.promoteNext x.cell right = some { d with mem := m, root := some y.cell } ∧
      Holds m (node l y (closeRight R s)) (some y.cell) ∧ Same unlinked d.mem m := by
  obtain ⟨e, he, -, hen⟩ := exists_of_threads hnext
  have hin : (node l x (closeRight R (node nil y s))).inorder =
      l.inorder ++ x :: y :: (s.inorder ++ after R) := by
    simp [inorder_closeRight]
  have hin' : (node l y (closeRight R s)).inorder = l.inorder ++ y :: (s.inorder ++ after R) := by
    simp [inorder_closeRight]
  have hylive : y.cell ∈ d.mem.live := h.mem_live (by simp [hin])
  -- what the tree keeps whatever is linked
  have hkeep : ∀ m, Same unlinked d.mem m →
      (node l y (closeRight R s)).Linked Item.cell (links m) (some y.cell) →
      Holds m (node l y (closeRight R s)) (some y.cell) := by
    intro m hs hl
    refine ⟨hl, fun z hz => ?_, ?_⟩
    · rw [contents_of_same hs]
      refine h.contents z ?_
      rw [hin'] at hz
      rw [hin]
      simp only [List.mem_append, List.mem_cons] at hz ⊢
      tauto
    · have hnd := h.nodup
      rw [hin, List.map_append, List.map_cons, List.nodup_middle, List.nodup_cons] at hnd
      rw [hin', List.map_append]
      exact hnd.2
  cases R with
  | nil =>
    obtain rfl : y.cell = right := Option.some.inj hright
    obtain ⟨a, hx, hl⟩ := h.linked.promoteChild h.nodup
    obtain ⟨e', he', rfl, -⟩ := exists_of_links hx
    obtain rfl := Option.some.inj (he.symm.trans he')
    obtain ⟨_, _, _, _, _, _, b, c, hy, rfl, -⟩ := h.linked
    obtain ⟨ey, hey, hleft, -⟩ := exists_of_links hy
    obtain ⟨m, hm, hlm, hs⟩ := setLeft_spec hylive e.left
    refine ⟨m, ?_, hkeep m hs (hlm ▸ hl), hs⟩
    simp only [promoteNext, he, Option.bind_eq_bind, Option.bind_some, hen, hey, hleft,
      Option.isNone_none, softAssert_true, if_pos, hm]
  | cons f R =>
    obtain ⟨a, b, c, b', hx, hy, hf, hx₁, hx₂, hl⟩ := h.linked.promoteFirst h.nodup
    have hne : ∀ z ∈ after (f :: R), z.cell ≠ y.cell := fun z hz =>
      cell_ne_of_mem (l := l.inorder ++ [x]) (r := s.inorder ++ after (f :: R))
        (by simpa [hin] using h.nodup) (List.mem_append_right _ (List.mem_append_right _ hz))
    have hne' : y.cell ≠ right := by
      obtain ⟨l', z, r', hroot, hz⟩ := closeRight_cons f R (node nil y s)
      rw [hroot] at hright
      exact fun hyr => hne z hz ((Option.some.inj hright).trans hyr.symm)
    have hlen : R.length < d.fuel := by
      have h₁ := h.length_le
      have h₂ := length_le_after (f :: R)
      rw [hin, List.length_append, List.length_cons, List.length_cons, List.length_append] at h₁
      rw [List.length_cons] at h₂
      rw [fuel]
      omega
    have hparent : parentOfNext d.mem y.cell d.fuel right = some f.1.cell := by
      obtain ⟨_, _, _, _, _, hr⟩ := h.linked
      rw [hr.eq_root?] at hr
      exact parentOfNext_spec (hright ▸ hr) hne hlen
    obtain ⟨e', he', rfl, rfl⟩ := exists_of_links hx
    obtain rfl := Option.some.inj (he.symm.trans he')
    obtain ⟨ey, hey, hleft, rfl⟩ := exists_of_links hy
    obtain ⟨ef, hef, hfl, -⟩ := exists_of_links hf
    obtain ⟨m₁, hm₁, hl₁, hs₁⟩ := setLeft_spec (mem_live_of_links hf) ey.right
    rw [← hl₁] at hx₁ hx₂ hl
    obtain ⟨e₁, he₁, hel₁, -⟩ := exists_of_links hx₁
    obtain ⟨m₂, hm₂, hl₂, hs₂⟩ := setLeft_spec (hs₁.live ▸ hylive) e.left
    rw [← hl₂] at hx₂ hl
    obtain ⟨e₂, he₂, -, her₂⟩ := exists_of_links hx₂
    obtain ⟨m₃, hm₃, hl₃, hs₃⟩ := setRight_spec (hs₂.live ▸ hs₁.live ▸ hylive) e.right
    have hs := hs₁.trans (hs₂.trans hs₃)
    refine ⟨m₃, ?_, hkeep m₃ hs (hl₃ ▸ hl), hs⟩
    simp only [promoteNext, he, Option.bind_eq_bind, Option.bind_some, hen, hey, hleft,
      Option.isNone_none, softAssert_true, if_neg hne']
    rw [show ({ d with log := d.log } : Dictionary K D).fuel = d.fuel from rfl, hparent]
    simp only [Option.bind_some, hef, hfl, decide_true, softAssert_true, hm₁, he₁, hel₁, hm₂, he₂, her₂, hm₃]

/-- **The second half of `unlink_root`** takes the element out of the list. -/
theorem unthread_spec {xs ys : List Addr}
    (h : (threads d.mem).Dll d.head (xs ++ a :: ys) d.tail) (hnd : (xs ++ a :: ys).Nodup)
    (hlive : ∀ b ∈ xs ++ a :: ys, b ∈ d.mem.live) :
    ∃ m head tail, d.unthread a =
        some { d with mem := m, head := head, tail := tail, count := d.count - 1 } ∧
      (threads m).Dll head (xs ++ ys) tail ∧ Same unthreaded d.mem m := by
  obtain ⟨p, n, ha, hxs, hys, hrem⟩ := h.remove hnd
  have hmid := hnd
  rw [List.nodup_middle, List.nodup_cons, List.mem_append, not_or] at hmid
  have hpa : p ≠ some a := fun hp => hmid.1.1 (hxs.tl_mem hp)
  have hna : n ≠ some a := fun hn => hmid.1.2 (hys.hd_mem hn)
  obtain ⟨e, he, rfl, rfl⟩ := exists_of_threads ha
  obtain ⟨m₁, hm₁, hl₁, hs₁⟩ := setNext?_spec (p := e.prev) (m := d.mem)
    (fun b hb => hlive b (List.mem_append_left _ (hxs.tl_mem hb))) e.next
  have ha₁ : threads m₁ a = some (e.prev, e.next) := by rw [hl₁, setSnd?_of_ne hpa, ha]
  obtain ⟨e₁, he₁, hp₁, hn₁⟩ := exists_of_threads ha₁
  obtain ⟨m₂, hm₂, hl₂, hs₂⟩ := setPrev?_spec (p := e.next) (m := m₁)
    (fun b hb => hs₁.live ▸ hlive b (by simp [hys.hd_mem hb])) e.prev
  have ha₂ : threads m₂ a = some (e.prev, e.next) := by rw [hl₂, setFst?_of_ne hna, ha₁]
  obtain ⟨e₂, he₂, hp₂, -⟩ := exists_of_threads ha₂
  refine ⟨m₂, if d.head = some a then e.next else d.head, if d.tail = some a then e.prev else d.tail,
    ?_, ?_, hs₁.trans hs₂⟩
  · simp only [unthread, he, Option.bind_eq_bind, Option.bind_some, hm₁, he₁, hp₁, hn₁, hm₂, he₂, hp₂]
  · have hdll := @hrem (threads m₂) fun b _ => by rw [hl₂, hl₁]
    simpa only [hxs.hd_eq_iff hmid.1.1, hys.tl_eq_iff hmid.1.2] using hdll

/-- **The first half of `unlink_root`** takes the element out of the tree. -/
theorem unlinkRoot_spec (h : Holds d.mem (node l x r) d.root)
    (hthr : (threads d.mem).Dll d.head ((node l x r).inorder.map Item.cell) d.tail) :
    ∃ m root t', d.unlinkRoot =
        ({ d with mem := m, root := root, dirty := true } : Dictionary K D).unthread x.cell ∧
      Holds m t' root ∧ t'.inorder = l.inorder ++ r.inorder ∧ Same unlinked d.mem m := by
  obtain ⟨hroot, a, b, hx, hl, hr⟩ := h.linked
  obtain ⟨e, he, rfl, rfl⟩ := exists_of_links hx
  have hnd := h.nodup
  rw [inorder_node, List.map_append] at hnd
  -- a subtree that becomes the tree
  have hkeep : ∀ t : DTree K D, ∀ p, t.Linked Item.cell (links d.mem) p →
      t.inorder.Sublist (l.inorder ++ x :: r.inorder) → Holds d.mem t p := fun t p ht hsub =>
    ⟨ht, fun z hz => h.contents z (hsub.subset hz), h.nodup.sublist (hsub.map _)⟩
  by_cases hlnil : l = nil
  · subst hlnil
    have hel : e.left = none := hl
    refine ⟨d.mem, e.right, r, ?_, hkeep r _ hr (by simp), by simp, Same.refl _ _⟩
    rw [unlinkRoot]
    simp only [hroot, he, hel, Option.bind_eq_bind, Option.bind_some]
  by_cases hrnil : r = nil
  · subst hrnil
    have her : e.right = none := hr
    obtain ⟨a, ha⟩ := exists_root? hlnil
    rw [← hl.eq_root?] at ha
    refine ⟨d.mem, e.left, l, ?_, hkeep l _ hl (by simp), by simp, Same.refl _ _⟩
    rw [unlinkRoot]
    simp only [hroot, he, ha, her, Option.bind_eq_bind, Option.bind_some]
  obtain ⟨a, ha⟩ := exists_root? hlnil
  obtain ⟨b, hb⟩ := exists_root? hrnil
  rw [← hl.eq_root?] at ha
  obtain ⟨R, y, s, rfl⟩ : ∃ R y s, r = closeRight R (node nil y s) := by
    cases r with
    | nil => exact absurd rfl hrnil
    | node l y s => exact exists_closeRight l y s
  have hin : (closeRight R (node nil y s)).inorder = y :: (s.inorder ++ after R) := by
    simp [inorder_closeRight]
  obtain ⟨q, hnext⟩ : ∃ q, threads d.mem x.cell = some (q, some y.cell) := by
    rw [inorder_node, hin, List.map_append] at hthr
    obtain ⟨q, _, -, -, n, hxn, hn, -⟩ := Links.seg_append.1 hthr
    exact ⟨q, hn ▸ hxn⟩
  have her : e.right = some b := hr.eq_root?.trans hb
  obtain ⟨m, hm, hholds, hs⟩ := promoteNext_spec (d := { d with dirty := true }) h hnext hb
  refine ⟨m, some y.cell, _, ?_, hholds, by simp [inorder_closeRight], hs⟩
  rw [unlinkRoot]
  simp only [hroot] at hm ⊢
  simp only [he, ha, her, Option.bind_eq_bind, Option.bind_some, hm]

/-- A cell of no element changes nothing for a tree when it is freed. -/
theorem Holds.free {root : Option Addr} (h : Holds m t root) (ha : ∀ x ∈ t.inorder, x.cell ≠ a) :
    Holds (m.free a) t root := by
  refine ⟨h.linked.congr fun x hx => ?_, fun x hx => ?_, h.nodup⟩
  · rw [links, links, get_free_of_ne _ (ha x hx)]
  · rw [← h.contents x hx, Dictionary.contents, Dictionary.contents, get_free_of_ne _ (ha x hx)]

/-- **What `delete` does, whatever the order of the tree**: the root after the
splay goes if it is equal to the key. -/
theorem Wired.delete (h : Wired d t) (key : K) :
    ∃ d' t', Wired d' t' ∧ d'.compareCb = d.compareCb ∧ d'.log = d.log ∧
      ((∃ l x r, splay (fun x => d.compareCb key x.key) t = node l x r ∧ d.compareCb key x.key = 0 ∧
          t.inorder = l.inorder ++ x :: r.inorder ∧ t'.inorder = l.inorder ++ r.inorder ∧
          d.delete key = some (some x.data, d')) ∨
        ((∀ l x r, splay (fun x => d.compareCb key x.key) t = node l x r → d.compareCb key x.key ≠ 0) ∧
          t'.inorder = t.inorder ∧ d.delete key = some (none, d'))) := by
  have hin := inorder_splay (fun x : Item Addr K D => d.compareCb key x.key) t
  obtain ⟨m, root, h₁, ⟨l, x, r, hsplay, h0, hfind⟩ | ⟨hne, hfind⟩⟩ := h.find key
  · rw [hsplay] at h₁ hin
    obtain ⟨m₂, root₂, t₂, hrun, hholds, hin₂, hs⟩ := unlinkRoot_spec h₁.holds h₁.threaded
    have hnd := h₁.holds.nodup
    rw [inorder_node, List.map_append, List.map_cons] at hnd
    have hthr := h₁.threaded
    rw [inorder_node, List.map_append, List.map_cons, ← threads_of_same hs] at hthr
    have hlive : ∀ b ∈ l.inorder.map Item.cell ++ x.cell :: r.inorder.map Item.cell,
        b ∈ m₂.live := by
      intro b hb
      rw [← List.map_cons, ← List.map_append, List.mem_map] at hb
      obtain ⟨z, hz, rfl⟩ := hb
      exact hs.live ▸ h₁.holds.mem_live hz
    obtain ⟨m₃, head, tail, hun, hdll, hs₃⟩ := unthread_spec
      (d := { d with mem := m₂, root := root₂, dirty := true }) hthr hnd hlive
    have hne : ∀ z ∈ t₂.inorder, z.cell ≠ x.cell := by
      rw [hin₂]
      exact fun z hz => cell_ne_of_mem h₁.holds.nodup hz
    have hholds₃ : Holds m₃ t₂ root₂ := ⟨by rw [links_of_same hs₃]; exact hholds.linked,
      fun z hz => by rw [contents_of_same' hs₃]; exact hholds.contents z hz, hholds.nodup⟩
    obtain ⟨e, he, -, hdata⟩ := exists_of_contents (h₁.holds.contents x (by simp))
    rw [inorder_node] at hin
    refine ⟨{ d with
      mem := m₃.free x.cell, root := root₂, dirty := true, head := head, tail := tail,
      count := d.count - 1 }, t₂, ⟨hholds₃.free hne, ?_, ?_, ?_, by simp⟩, rfl, rfl,
      Or.inl ⟨l, x, r, hsplay, h0, hin.symm, hin₂, ?_⟩⟩
    · intro b hb
      obtain ⟨hbx, hb⟩ := mem_live_free.1 hb
      rw [hs₃.live, hs.live] at hb
      obtain ⟨z, hz, rfl⟩ := h₁.live b hb
      rw [inorder_node, List.mem_append, List.mem_cons] at hz
      refine ⟨z, ?_, rfl⟩
      rw [hin₂, List.mem_append]
      rcases hz with hz | rfl | hz
      · exact Or.inl hz
      · exact absurd rfl hbx
      · exact Or.inr hz
    · rw [hin₂, List.map_append]
      refine hdll.congr fun b hb => ?_
      have hbx : b ≠ x.cell := by
        rw [← List.map_append, ← hin₂, List.mem_map] at hb
        obtain ⟨z, hz, rfl⟩ := hb
        exact hne z hz
      rw [threads, threads, get_free_of_ne _ hbx]
    · have hlen : t.inorder.length = t₂.inorder.length + 1 := by
        rw [← hin, hin₂, List.length_append, List.length_append, List.length_cons]
        omega
      have hcount := h.count
      rw [hlen, UInt32.ofNat_add] at hcount
      change d.count - 1 = _
      rw [hcount]
      exact UInt32.add_sub_cancel ..
    · simp only [Dictionary.delete, hfind, Option.bind_eq_bind, Option.bind_some, he, hrun, hun, hdata]
  · refine ⟨_, _, h₁, rfl, rfl, Or.inr ⟨hne, hin, ?_⟩⟩
    simp only [Dictionary.delete, hfind, Option.bind_eq_bind, Option.bind_some]

/-- **What `delete` does** in a sorted dictionary. -/
theorem Inv.delete (h : Inv C d t) (key : K) :
    ∃ d' t', Inv C d' t' ∧ d'.log = d.log ∧
      ((∃ xs x ys, t.inorder = xs ++ x :: ys ∧ x.key = key ∧ t'.inorder = xs ++ ys ∧
          d.delete key = some (some x.data, d')) ∨
        ((∀ x ∈ t.inorder, x.key ≠ key) ∧ t'.inorder = t.inorder ∧
          d.delete key = some (none, d'))) := by
  have hsorted := h.sorted
  obtain ⟨d', t', hw, hcb, hlog, hcases⟩ := h.wired.delete key
  have hc : ∀ k, d.compareCb key k = C.cmp key k := fun k => by rw [h.compareCb]
  simp only [hc] at hcases
  rcases hcases with ⟨l, x, r, -, h0, hin, hin', hrun⟩ | ⟨hne, hin', hrun⟩
  · refine ⟨d', t', hw.inv (hcb.trans h.compareCb) ?_, hlog,
      Or.inl ⟨l.inorder, x, r.inorder, hin, (C.eq_of_zero h0).symm, hin', hrun⟩⟩
    rw [hin] at hsorted
    rw [hin']
    exact hsorted.sublist (by simp)
  · exact ⟨d', t', hw.inv (hcb.trans h.compareCb) (hin' ▸ hsorted), hlog,
      Or.inr ⟨h.keys_ne_of_splay hne, hin', hrun⟩⟩

end Dictionary

end Mowgli
