import Mowgli.Container.Dictionary.Find
/-!
# The linear index

`get_linear_index` numbers the elements along the list when the
dictionary is dirty, and trusts the positions when it is not. The counter
is an `int`, so a list of more than `INT_MAX` elements cannot be numbered.
-/

namespace Mowgli

namespace Dictionary

open Store BinTree Links

variable {K D : Type} {C : Comparator K} {d : Dictionary K D} {t : DTree K D}
variable {m : Store (DictElem K D)} {p hd tl : Option Addr} {xs : List Addr} {i : ℕ}

/-- What an assignment to `position` leaves alone. -/
def unpositioned (e : DictElem K D) :
    (Option Addr × Option Addr) × (Option Addr × Option Addr) × (K × D) :=
  ((e.left, e.right), (e.prev, e.next), (e.key, e.data))

theorem links_of_same_unpositioned {m' : Store (DictElem K D)} (h : Same unpositioned m m') :
    links m' = links m :=
  funext (h.comp Prod.fst)

theorem threads_of_same_unpositioned {m' : Store (DictElem K D)} (h : Same unpositioned m m') :
    threads m' = threads m :=
  funext (h.comp fun u => u.2.1)

theorem contents_of_same_unpositioned {m' : Store (DictElem K D)} (h : Same unpositioned m m') :
    contents m' = contents m :=
  funext (h.comp fun u => u.2.2)

/-- One turn of the loop. -/
theorem number_cons {fuel : ℕ} {a : Addr} {e : DictElem K D} (he : m.get a = some e) :
    number m (fuel + 1) (some a) i =
      if i = INT_MAX then none
      else number (m.set a { e with position := i }) fuel e.next (i + 1) := by
  rw [number, modify_of_get _ he, Option.bind_eq_bind, Option.bind_some, get_set_self]
  rfl

/-- **The loop numbers the elements** from `i` on, and nothing else changes. -/
theorem number_spec (fuel : ℕ) (h : (threads m).Seg p hd xs tl none) (hnd : xs.Nodup)
    (hfuel : xs.length < fuel) (hi : i + xs.length ≤ INT_MAX) :
    ∃ m', number m fuel hd i = some m' ∧ Same unpositioned m m' ∧
      (∀ a ∉ xs, positions m' a = positions m a) ∧
      ∀ l a r, xs = l ++ a :: r → positions m' a = some ((i + l.length : ℕ) : ℤ) := by
  induction xs generalizing m p hd i fuel with
  | nil =>
    obtain ⟨n, rfl⟩ : ∃ n, fuel = n + 1 := ⟨fuel - 1, by simp at hfuel; omega⟩
    obtain ⟨rfl, -⟩ := h
    exact ⟨m, rfl, Same.refl _ _, fun _ _ => rfl, by simp⟩
  | cons a xs ih =>
    simp only [List.length_cons] at hfuel hi
    obtain ⟨n, rfl⟩ : ∃ n, fuel = n + 1 := ⟨fuel - 1, by omega⟩
    obtain ⟨rfl, next, ha, hseg⟩ := h
    obtain ⟨e, he, -, rfl⟩ := exists_of_threads ha
    have hs : Same unpositioned m (m.set a { e with position := i }) := Same.set he rfl
    obtain ⟨hax, hnd⟩ := List.nodup_cons.1 hnd
    rw [← threads_of_same_unpositioned hs] at hseg
    obtain ⟨m', hm', hs', hout, hpos⟩ := ih (i := i + 1) n hseg hnd (by omega) (by omega)
    have hapos : positions m' a = some (i : ℤ) := by
      rw [hout a hax, positions, get_set_self]
      rfl
    refine ⟨m', ?_, hs.trans hs', fun b hb => ?_, fun l b r hl => ?_⟩
    · rw [number_cons he, if_neg (by omega), hm']
    · rw [List.mem_cons, not_or] at hb
      rw [hout b hb.2, positions, positions, get_set_of_ne _ _ hb.1]
    · cases l with
      | nil =>
        obtain ⟨rfl, -⟩ := List.cons.inj hl
        simpa using hapos
      | cons c l =>
        obtain ⟨rfl, rfl⟩ := List.cons.inj hl
        rw [hpos l b r rfl, List.length_cons]
        congr 2
        omega

/-- **A list that is too long** overflows the counter. -/
theorem number_eq_none (fuel : ℕ) (h : (threads m).Seg p hd xs tl none) (hnd : xs.Nodup)
    (hle : i ≤ INT_MAX) (hi : INT_MAX < i + xs.length) : number m fuel hd i = none := by
  induction xs generalizing m p hd i fuel with
  | nil => simp at hi; omega
  | cons a xs ih =>
    simp only [List.length_cons] at hi
    obtain ⟨rfl, next, ha, hseg⟩ := h
    obtain ⟨e, he, -, rfl⟩ := exists_of_threads ha
    have hs : Same unpositioned m (m.set a { e with position := i }) := Same.set he rfl
    rw [← threads_of_same_unpositioned hs] at hseg
    cases fuel with
    | zero => rfl
    | succ n =>
      rw [number_cons he]
      split_ifs with h0
      · rfl
      · exact ih n hseg (List.nodup_cons.1 hnd).2 (by omega) (by omega)

/-- The dictionary with its elements numbered. -/
theorem Wired.numbered (h : Wired d t) (hlen : t.inorder.length ≤ INT_MAX) :
    ∃ m, number d.mem d.fuel d.head 0 = some m ∧ Wired { d with mem := m, dirty := false } t := by
  have hfuel : (t.inorder.map Item.cell).length < d.fuel := by
    rw [List.length_map]
    exact Nat.lt_succ_of_le h.holds.length_le
  obtain ⟨m, hm, hs, -, hpos⟩ := number_spec _ h.threaded h.holds.nodup hfuel
    (by rwa [List.length_map, Nat.zero_add])
  refine ⟨m, hm, ⟨?_, ?_, h.holds.nodup⟩, ?_, ?_, h.count, fun _ => ⟨hlen, fun l x r hl => ?_⟩⟩
  · rw [links_of_same_unpositioned hs]
    exact h.holds.linked
  · rw [contents_of_same_unpositioned hs]
    exact h.holds.contents
  · rw [hs.live]
    exact h.live
  · rw [threads_of_same_unpositioned hs]
    exact h.threaded
  · rw [hpos (l.map Item.cell) x.cell (r.map Item.cell) (by rw [hl]; simp), Nat.zero_add,
      List.length_map]

/-- **What `get_linear_index` answers, whatever the order of the tree**: how
many elements are before the root of the splay, if that is equal to the key.
The counter overflows if there are too many elements. -/
theorem Wired.getLinearIndex (h : Wired d t) (key : K) :
    ((∃ l x r, splay (fun x => d.compareCb key x.key) t = node l x r ∧ d.compareCb key x.key = 0 ∧
        t.inorder = l.inorder ++ x :: r.inorder ∧
        if t.inorder.length ≤ INT_MAX then
          ∃ d' t', Wired d' t' ∧ d'.compareCb = d.compareCb ∧ d'.log = d.log ∧
            t'.inorder = t.inorder ∧ d.getLinearIndex key = some ((l.inorder.length : ℤ), d')
        else d.getLinearIndex key = none) ∨
      ((∀ l x r, splay (fun x => d.compareCb key x.key) t = node l x r → d.compareCb key x.key ≠ 0) ∧
        ∃ d' t', Wired d' t' ∧ d'.compareCb = d.compareCb ∧ d'.log = d.log ∧
          t'.inorder = t.inorder ∧ d.getLinearIndex key = some (-1, d'))) := by
  have hin := inorder_splay (fun x : Item Addr K D => d.compareCb key x.key) t
  obtain ⟨m, root, h₁, ⟨l, x, r, hsplay, h0, hfind⟩ | ⟨hne, hfind⟩⟩ := h.find key
  · rw [hsplay] at h₁ hin
    refine Or.inl ⟨l, x, r, hsplay, h0, hin.symm, ?_⟩
    rw [Dictionary.getLinearIndex, hfind, Option.bind_eq_bind, Option.bind_some]
    split_ifs with hlen
    · by_cases hd : d.dirty = true
      · simp only [if_pos hd]
        obtain ⟨m₂, hm₂, h₂⟩ := h₁.numbered (by rwa [hin])
        have hpos := (h₂.clean rfl).2 _ _ _ rfl
        rw [positions, Option.map_eq_some_iff] at hpos
        obtain ⟨e, he, hpos⟩ := hpos
        refine ⟨_, _, h₂, rfl, rfl, hin, ?_⟩
        rw [hm₂, Option.bind_eq_bind, Option.bind_some, he, ← hpos]
        rfl
      · simp only [if_neg hd]
        have hpos := (h₁.clean (by simpa using hd)).2 _ _ _ rfl
        rw [positions, Option.map_eq_some_iff] at hpos
        obtain ⟨e, he, hpos⟩ := hpos
        refine ⟨_, _, h₁, rfl, rfl, hin, ?_⟩
        rw [he, ← hpos]
        rfl
    · have hd : d.dirty = true := by
        by_contra hd
        exact hlen (h.clean (by simpa using hd)).1
      simp only [if_pos hd]
      have hnone := number_eq_none ({ d with mem := m, root := root } : Dictionary K D).fuel
        (i := 0) h₁.threaded h₁.holds.nodup (by decide)
        (by rw [List.length_map, hin, Nat.zero_add]; exact not_le.1 hlen)
      exact congrArg (Option.bind · _) hnone
  · refine Or.inr ⟨hne, _, _, h₁, rfl, rfl, hin, ?_⟩
    rw [Dictionary.getLinearIndex, hfind]
    rfl

/-- **What `get_linear_index` answers** for a key there is: how many
elements are before the one with the key. -/
theorem Inv.getLinearIndex_of_mem (h : Inv C d t) {key : K} (hmem : ∃ x ∈ t.inorder, x.key = key) :
    if t.inorder.length ≤ INT_MAX then
      ∃ d' t' xs x ys, Inv C d' t' ∧ d'.log = d.log ∧ t'.inorder = t.inorder ∧
        t.inorder = xs ++ x :: ys ∧ x.key = key ∧
        d.getLinearIndex key = some ((xs.length : ℤ), d')
    else d.getLinearIndex key = none := by
  have hc : ∀ k, d.compareCb key k = C.cmp key k := fun k => by rw [h.compareCb]
  have hcases := h.wired.getLinearIndex key
  simp only [hc] at hcases
  rcases hcases with ⟨l, x, r, -, h0, hin, hrun⟩ | ⟨hne, -⟩
  · split_ifs at hrun ⊢
    · obtain ⟨d', t', hw, hcb, hlog, hin', hrun⟩ := hrun
      exact ⟨d', t', l.inorder, x, r.inorder, hw.inv (hcb.trans h.compareCb) (hin' ▸ h.sorted), hlog,
        hin', hin, (C.eq_of_zero h0).symm, hrun⟩
    · exact hrun
  · obtain ⟨x, hx, hk⟩ := hmem
    exact absurd hk (h.keys_ne_of_splay hne x hx)

/-- For a key there is not, it answers -1. -/
theorem Inv.getLinearIndex_of_not_mem (h : Inv C d t) {key : K} (hno : ∀ x ∈ t.inorder, x.key ≠ key) :
    ∃ d' t', Inv C d' t' ∧ d'.log = d.log ∧ t'.inorder = t.inorder ∧
      d.getLinearIndex key = some (-1, d') := by
  have hc : ∀ k, d.compareCb key k = C.cmp key k := fun k => by rw [h.compareCb]
  have hcases := h.wired.getLinearIndex key
  simp only [hc] at hcases
  rcases hcases with ⟨l, x, r, -, h0, hin, -⟩ | ⟨-, d', t', hw, hcb, hlog, hin', hrun⟩
  · exact absurd (C.eq_of_zero h0).symm (hno x (by rw [hin]; simp))
  · exact ⟨d', t', hw.inv (hcb.trans h.compareCb) (hin' ▸ h.sorted), hlog, hin', hrun⟩

end Dictionary

end Mowgli
