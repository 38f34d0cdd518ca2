import Mowgli.Container.Dictionary.Index
import Mowgli.Container.Dictionary.Link
import Mowgli.Container.Dictionary.Unlink
import Mowgli.Library.Run
/-!
# A dictionary is a finite sorted map

The calls of the interface as one machine, and what they are to do as
calls on a finite map. Every run of the dictionary is a run of the map,
and after every run the tree is a binary search tree that the list runs
through in order. Only `count`, which is an `unsigned int`, wraps, and a
dictionary with more elements than an `int` counts cannot be numbered.
-/

namespace Mowgli

namespace Dictionary

open Store BinTree

variable {K D : Type}

/-- A call on a dictionary. -/
inductive Op (K D : Type)
  | add (key : K) (data : D)
  | find (key : K)
  | retrieve (key : K)
  | delete (key : K)
  | getLinearIndex (key : K)

/-- What a call returns. -/
inductive Out (D : Type)
  | elem (elem : Option Addr)
  | data (data : Option D)
  | index (i : ℤ)

/-- Make a call. -/
def Op.run (A : Allocator (DictElem K D)) (d : Dictionary K D) :
    Op K D → Option (Out D × Dictionary K D)
  | .add key data => (d.add A key data).map fun (elem, d) => (.elem elem, d)
  | .find key => (d.find key).map fun (elem, d) => (.elem elem, d)
  | .retrieve key => (d.retrieve key).map fun (data, d) => (.data data, d)
  | .delete key => (d.delete key).map fun (data, d) => (.data data, d)
  | .getLinearIndex key => (d.getLinearIndex key).map fun (i, d) => (.index i, d)

/-- No two elements have the same key. -/
theorem nodup_keys {C : Comparator K} {xs : List (Item Addr K D)}
    (h : xs.Pairwise fun x y => C.cmp x.key y.key < 0) : (xs.map Item.key).Nodup := by
  refine List.pairwise_map.2 (h.imp fun {x y} hxy heq => ?_)
  rw [heq, C.cmp_self] at hxy
  exact lt_irrefl 0 hxy

variable [DecidableEq K] (C : Comparator K)

/-- The rank of a key among those there are, -1 for any other. -/
def rank (M : Elems K D) (key : K) : ℤ :=
  if key ∈ M then ((M.keys.filter fun k => C.cmp k key < 0).card : ℤ) else -1

/-- **What each call is to do** to the elements, and what it may return. -/
def Spec (M : Elems K D) : Op K D → Out D → Elems K D → Prop
  | .add key data, out, M' =>
    if key ∈ M then out = .elem none ∧ M' = M
    else ∃ a, (∀ k e, M.lookup k = some e → e.1 ≠ a) ∧ out = .elem (some a) ∧
      M' = M.insert key (a, data)
  | .find key, out, M' => out = .elem ((M.lookup key).map Prod.fst) ∧ M' = M
  | .retrieve key, out, M' => out = .data ((M.lookup key).map Prod.snd) ∧ M' = M
  | .delete key, out, M' => out = .data ((M.lookup key).map Prod.snd) ∧ M' = M.erase key
  | .getLinearIndex key, out, M' => out = .index (rank C M key) ∧ M' = M

/-- The calls that are answered: to number the elements their number has
to be an `int`. -/
def Op.Fits (M : Elems K D) : Op K D → Prop
  | .getLinearIndex _ => M.keys.card ≤ INT_MAX
  | _ => True

/-- **What a dictionary is** that holds the map `M`. -/
structure Sorted (d : Dictionary K D) (t : DTree K D) (M : Elems K D) : Prop where
  /-- The elements from `root` on are the tree. -/
  tree : t.Linked Item.cell (links d.mem) d.root
  contents : ∀ x ∈ t.inorder, contents d.mem x.cell = some (x.key, x.data)
  bst : t.BST fun x y => C.cmp x.key y.key < 0
  /-- The list from `head` to `tail` is the tree in order. -/
  list : (threads d.mem).Dll d.head (t.inorder.map Item.cell) d.tail
  inverse : ∀ a ∈ d.mem.live, ∀ b ∈ d.mem.live,
    (∃ p, threads d.mem a = some (p, some b)) ↔ ∃ q, threads d.mem b = some (some a, q)
  count : d.count.toNat = t.inorder.length % 2 ^ 32
  /-- The elements are those of the map. -/
  map : Lists t.inorder M
  size : t.inorder.length = M.keys.card
  /-- No assertion has failed. -/
  asserts : ∀ exp, .softAssert exp ∉ d.log

/-- A dictionary and the map it is. -/
structure Is (d : Dictionary K D) (M : Elems K D) : Prop where
  lists : ∃ t, Inv C d t ∧ Lists t.inorder M
  quiet : ∀ exp, .softAssert exp ∉ d.log

variable {C} {A : Allocator (DictElem K D)} {d d' : Dictionary K D} {t : DTree K D} {M : Elems K D}
variable {key : K} {data : D}

theorem is_create (C : Comparator K) : Is C (create C.cmp : Dictionary K D) ∅ where
  lists := ⟨.nil, inv_create C, by simp [Lists]⟩
  quiet := by simp [create]

/-- **A dictionary is a sorted tree and list.** -/
theorem Is.sorted (h : Is C d M) : ∃ t, Sorted C d t M := by
  obtain ⟨t, hinv, hl⟩ := h.lists
  have hmem : ∀ a ∈ d.mem.live, a ∈ t.inorder.map Item.cell := fun a ha =>
    List.mem_map.2 (hinv.live a ha)
  refine ⟨t, hinv.holds.linked, hinv.holds.contents, bst_of_sorted hinv.sorted, hinv.threaded,
    fun a ha b hb => hinv.threaded.snd_iff_fst hinv.holds.nodup (hmem a ha) (hmem b hb), ?_, hl,
    (hl.keys_card (nodup_keys hinv.sorted)).symm, h.quiet⟩
  rw [hinv.count, UInt32.toNat_ofNat']

/-- What `find` does to the map. -/
theorem Is.find (h : Is C d M) (key : K) :
    ∃ d', d.find key = some ((M.lookup key).map Prod.fst, d') ∧
      d.retrieve key = some ((M.lookup key).map Prod.snd, d') ∧ Is C d' M := by
  obtain ⟨t, hinv, hl⟩ := h.lists
  obtain ⟨m, root, t₁, h₁, hin, ⟨l, x, r, rfl, hk, hfind⟩ | ⟨hno, hfind⟩⟩ := hinv.find key
  · have hx : M.lookup key = some (x.cell, x.data) := hk ▸ hl.lookup (by rw [← hin]; simp)
    obtain ⟨e, he, -, hdata⟩ := exists_of_contents (h₁.holds.contents x (by simp))
    refine ⟨_, by rw [hfind, hx]; rfl, ?_, ⟨_, h₁, hin ▸ hl⟩, h.quiet⟩
    rw [Dictionary.retrieve, hfind, hx]
    simp only [Option.bind_eq_bind, Option.bind_some, he, hdata, Option.map_some]
  · have hx : M.lookup key = none := hl.lookup_eq_none hno
    refine ⟨_, by rw [hfind, hx]; rfl, ?_, ⟨_, h₁, hin ▸ hl⟩, h.quiet⟩
    rw [Dictionary.retrieve, hfind, hx]
    rfl

/-- What `delete` does to the map. -/
theorem Is.delete (h : Is C d M) (key : K) :
    ∃ d', d.delete key = some ((M.lookup key).map Prod.snd, d') ∧ Is C d' (M.erase key) := by
  obtain ⟨t, hinv, hl⟩ := h.lists
  obtain ⟨d', t', h', hlog, ⟨xs, x, ys, hin, rfl, hin', hrun⟩ | ⟨hno, hin', hrun⟩⟩ := hinv.delete key
  · have hx := hl.lookup (x := x) (by rw [hin]; simp)
    have hnd := nodup_keys hinv.sorted
    rw [hin] at hl hnd
    exact ⟨d', by rw [hrun, hx]; rfl, ⟨t', h', hin' ▸ hl.erase hnd⟩, hlog ▸ h.quiet⟩
  · refine ⟨d', by rw [hrun, hl.lookup_eq_none hno]; rfl, ⟨t', h', ?_⟩, hlog ▸ h.quiet⟩
    rw [erase_of_not_mem (hl.not_mem hno), hin']
    exact hl

/-- What `add` does to the map, if it is answered. -/
theorem Is.add (h : Is C d M) (key : K) (data : D) :
    (∃ out d' M', d.add A key data = some (out, d') ∧ Is C d' M' ∧
      if key ∈ M then out = none ∧ M' = M
      else ∃ a, (∀ k e, M.lookup k = some e → e.1 ≠ a) ∧ out = some a ∧
        M' = M.insert key (a, data)) ∨ (d.add A key data = none ∧ ¬ A.NeverFails) := by
  obtain ⟨t, hinv, hl⟩ := h.lists
  obtain ⟨m, root, t₁, h₁, hin, ⟨l, x, r, rfl, hk, hfind⟩ | ⟨hno, hfind⟩⟩ := hinv.find key
  · have hmem : key ∈ M := hl.mem_iff.2 ⟨x, by rw [← hin]; simp, hk⟩
    let line : LogLine := .returnIfFail "mowgli_dictionary_find(dict, key) == NULL"
    refine Or.inl ⟨none, { d with mem := m, root := root, log := d.log ++ [line] }, M,
      by rw [Dictionary.add, hfind]; rfl, ⟨⟨_, ⟨h₁.compareCb, h₁.holds, h₁.live, h₁.threaded,
      h₁.sorted, h₁.count, h₁.clean⟩, hin ▸ hl⟩, ?_⟩, ?_⟩
    · intro exp hexp
      rcases List.mem_append.1 hexp with hexp | hexp
      · exact h.quiet exp hexp
      · simp at hexp
    · rw [if_pos hmem]
      exact ⟨rfl, rfl⟩
  · cases hpick : A.pick m with
    | none =>
      refine Or.inr ⟨?_, fun hA => ?_⟩
      · rw [Dictionary.add, hfind, Option.bind_eq_bind, Option.bind_some]
        simp only [hpick, Option.bind_eq_bind, Option.bind_none]
      · have := hA m
        rw [hpick] at this
        cases this
    | some a =>
      have hfresh := A.fresh hpick
      obtain ⟨d', t', xs, ys, hrun, h', hlog, hin₁, hin'⟩ := h₁.link hfresh key data (hin ▸ hno)
      have hl' : Lists t'.inorder (M.insert key (a, data)) := by
        refine hl.insert (fun x hx => hno x hx) ?_
        rw [hin', ← hin, hin₁]
        exact List.perm_middle
      refine Or.inl ⟨some a, d', _, ?_, ⟨⟨t', h', hl'⟩, hlog ▸ h.quiet⟩, ?_⟩
      · rw [unlinkedElem] at hrun
        rw [Dictionary.add, hfind, Option.bind_eq_bind, Option.bind_some]
        simp only [hpick, Option.bind_eq_bind, Option.bind_some, hrun]
      · rw [if_neg (hl.not_mem hno)]
        refine ⟨a, fun k e hk hea => ?_, rfl, rfl⟩
        have hold := (hl k e.1 e.2).1 hk
        rw [← hin] at hold
        exact get_eq_none.1 hfresh (hea ▸ h₁.holds.mem_live hold)

/-- The rank of a key is the number of elements before it. -/
theorem rank_eq {xs ys : List (Item Addr K D)} {x : Item Addr K D} (hl : Lists (xs ++ x :: ys) M)
    (h : (xs ++ x :: ys).Pairwise fun x y => C.cmp x.key y.key < 0) :
    rank C M x.key = xs.length := by
  have hmem : x.key ∈ M := hl.mem_iff.2 ⟨x, by simp, rfl⟩
  have hnd := nodup_keys h
  obtain ⟨-, hxys, hcross⟩ := List.pairwise_append.1 h
  have hfilter : (M.keys.filter fun k => C.cmp k x.key < 0) = (xs.map Item.key).toFinset := by
    ext k
    rw [Finset.mem_filter, hl.keys_eq, List.mem_toFinset, List.mem_toFinset, List.mem_map, List.mem_map]
    constructor
    · rintro ⟨⟨y, hy, rfl⟩, hlt⟩
      rcases List.mem_append.1 hy with hy | hy
      · exact ⟨y, hy, rfl⟩
      · rcases List.mem_cons.1 hy with rfl | hy
        · exact absurd hlt (by simp)
        · have := (List.pairwise_cons.1 hxys).1 y hy
          rw [C.swap] at this
          omega
    · rintro ⟨y, hy, rfl⟩
      exact ⟨⟨y, by simp [hy], rfl⟩, hcross y hy x (by simp)⟩
  rw [List.map_append] at hnd
  rw [rank, if_pos hmem, hfilter, List.toFinset_card_of_nodup (List.nodup_append.1 hnd).1,
    List.length_map]

/-- What `get_linear_index` does to the map, if it is answered. -/
theorem Is.getLinearIndex (h : Is C d M) (key : K) :
    if key ∈ M ∧ INT_MAX < M.keys.card then d.getLinearIndex key = none
    else ∃ d', d.getLinearIndex key = some (rank C M key, d') ∧ Is C d' M := by
  obtain ⟨t, hinv, hl⟩ := h.lists
  rw [hl.keys_card (nodup_keys hinv.sorted)]
  by_cases hmem : key ∈ M
  · have hidx := hinv.getLinearIndex_of_mem (hl.mem_iff.1 hmem)
    by_cases hlen : t.inorder.length ≤ INT_MAX
    · rw [if_pos hlen] at hidx
      obtain ⟨d', t', xs, x, ys, h', hlog, hin', hin, rfl, hrun⟩ := hidx
      have hsorted := hinv.sorted
      rw [if_neg fun hlong => not_le.2 hlong.2 hlen]
      refine ⟨d', ?_, ⟨t', h', by rw [hin']; exact hl⟩, hlog ▸ h.quiet⟩
      rw [hin] at hl hsorted
      rw [hrun, rank_eq hl hsorted]
    · rw [if_neg hlen] at hidx
      rwa [if_pos ⟨hmem, not_le.1 hlen⟩]
  · have hno : ∀ x ∈ t.inorder, x.key ≠ key := fun x hx hk => hmem (hl.mem_iff.2 ⟨x, hx, hk⟩)
    obtain ⟨d', t', h', hlog, hin', hrun⟩ := hinv.getLinearIndex_of_not_mem hno
    rw [if_neg fun hlong => hmem hlong.1]
    refine ⟨d', ?_, ⟨t', h', by rw [hin']; exact hl⟩, hlog ▸ h.quiet⟩
    rw [hrun, rank, if_neg hmem]

/-- **One call** does to the map what it should. Only where there is no
memory, or too many elements to number, is it not answered. -/
theorem Is.step (h : Is C d M) (op : Op K D) :
    (∃ out d' M', op.run A d = some (out, d') ∧ Spec C M op out M' ∧ Is C d' M') ∨
      (op.run A d = none ∧ (op.Fits M → ¬ A.NeverFails)) := by
  cases op with
  | add key data =>
    rcases h.add (A := A) key data with ⟨out, d', M', hrun, h', hspec⟩ | ⟨hrun, hA⟩
    · refine Or.inl ⟨.elem out, d', M', by rw [Op.run, hrun]; rfl, ?_, h'⟩
      rw [Spec]
      split_ifs at hspec ⊢
      · exact ⟨congrArg _ hspec.1, hspec.2⟩
      · obtain ⟨a, hfresh, rfl, rfl⟩ := hspec
        exact ⟨a, hfresh, rfl, rfl⟩
    · exact Or.inr ⟨by rw [Op.run, hrun]; rfl, fun _ => hA⟩
  | find key =>
    obtain ⟨d', hrun, -, h'⟩ := h.find key
    exact Or.inl ⟨_, d', M, by rw [Op.run, hrun]; rfl, ⟨rfl, rfl⟩, h'⟩
  | retrieve key =>
    obtain ⟨d', -, hrun, h'⟩ := h.find key
    exact Or.inl ⟨_, d', M, by rw [Op.run, hrun]; rfl, ⟨rfl, rfl⟩, h'⟩
  | delete key =>
    obtain ⟨d', hrun, h'⟩ := h.delete key
    exact Or.inl ⟨_, d', _, by rw [Op.run, hrun]; rfl, ⟨rfl, rfl⟩, h'⟩
  | getLinearIndex key =>
    have hidx := h.getLinearIndex key
    split_ifs at hidx with hlong
    · exact Or.inr ⟨by rw [Op.run, hidx]; rfl, fun hfits => absurd hfits (not_le.2 hlong.2)⟩
    · obtain ⟨d', hrun, h'⟩ := hidx
      exact Or.inl ⟨_, d', M, by rw [Op.run, hrun]; rfl, ⟨rfl, rfl⟩, h'⟩

/-! ## Runs -/

/-- The runs of a dictionary from an empty one. -/
abbrev Runs (A : Allocator (DictElem K D)) (C : Comparator K) :
    List (Op K D × Out D) → Dictionary K D → Prop :=
  Run (Op.run A) (fun _ _ => True) (create C.cmp)

/-- The traces of a finite sorted map from an empty one. -/
abbrev MapRuns (C : Comparator K) : List (Op K D × Out D) → Elems K D → Prop :=
  SpecRun (Spec C) ∅

theorem Runs.is {tr : List (Op K D × Out D)} (h : Runs A C tr d) : ∃ M, MapRuns C tr M ∧ Is C d M :=
  Run.refines (R := Is C) (is_create C) (fun {d M op out d'} hd _ hrun => by
    rcases hd.step (A := A) op with ⟨out', d'', M', hrun', hspec, hd'⟩ | ⟨hnone, -⟩
    · obtain ⟨rfl, rfl⟩ := Prod.mk.inj (Option.some.inj (hrun.symm.trans hrun'))
      exact ⟨M', hspec, hd'⟩
    · rw [hnone] at hrun
      cases hrun) h

/-- **A dictionary refines a finite sorted map**: whatever calls were made,
each answer is that of the map, the tree is a binary search tree that the
list runs through in order, and the next call is answered too. -/
theorem runs_refine_sorted_map {tr : List (Op K D × Out D)} (h : Runs A C tr d) :
    ∃ M, MapRuns C tr M ∧ (∃ t, Sorted C d t M) ∧
      (A.NeverFails → ∀ op : Op K D, op.Fits M →
        ∃ out d' M', op.run A d = some (out, d') ∧ Spec C M op out M') := by
  obtain ⟨M, hM, hd⟩ := h.is
  refine ⟨M, hM, hd.sorted, fun hA op hfits => ?_⟩
  rcases hd.step (A := A) op with ⟨out, d', M', hrun, hspec, -⟩ | ⟨-, hno⟩
  · exact ⟨out, d', M', hrun, hspec⟩
  · exact absurd hA (hno hfits)

/-- The order of the natural numbers. -/
def natOrder : Comparator ℕ where
  cmp a b := if a < b then -1 else if b < a then 1 else 0
  swap a b := by split_ifs <;> omega
  trans {a b c} h₁ h₂ := by split_ifs at h₁ h₂ ⊢ <;> omega
  eq_of_zero {a b} h := by split_ifs at h <;> omega
  range a b := by split_ifs <;> omega

/-- The run that adds three keys, the last one between the others. -/
theorem exists_runs_three : ∃ d : Dictionary ℕ Unit, Runs Allocator.bump natOrder
    [(.add 5 (), .elem (some 1)), (.add 9 (), .elem (some 2)), (.add 7 (), .elem (some 3))] d :=
  ⟨_, Run.of_exec [.add 5 (), .add 9 (), .add 7 ()] rfl⟩

/-- Three keys, and the call that is next: the one in the middle is looked up. -/
theorem runs_refine_sorted_map_three : ∃ (d : Dictionary ℕ Unit) (M : Elems ℕ Unit) (t : DTree ℕ Unit),
    MapRuns natOrder [(.add 5 (), .elem (some 1)), (.add 9 (), .elem (some 2)), (.add 7 (), .elem (some 3))] M ∧
      Sorted natOrder d t M ∧ ∃ out d' M', Op.run Allocator.bump d (.retrieve 7) = some (out, d') ∧
        Spec natOrder M (.retrieve 7) out M' := by
  obtain ⟨d, hd⟩ := exists_runs_three
  obtain ⟨M, hM, ⟨t, ht⟩, hnext⟩ := runs_refine_sorted_map hd
  obtain ⟨out, d', M', hrun, hspec⟩ := hnext Allocator.bump_neverFails (.retrieve 7) trivial
  exact ⟨d, M, t, hM, ht, out, d', M', hrun, hspec⟩

/-! ## More elements than an `unsigned int` counts -/

/-- A run that adds the keys below `n`. -/
theorem exists_runs_add (n : ℕ) : ∃ (tr : List (Op ℕ Unit × Out Unit)) (d : Dictionary ℕ Unit)
    (M : Elems ℕ Unit), Runs Allocator.bump natOrder tr d ∧ Is natOrder d M ∧
      M.keys = Finset.range n := by
  induction n with
  | zero => exact ⟨[], _, ∅, .nil, is_create natOrder, by simp⟩
  | succ n ih =>
    obtain ⟨tr, d, M, hruns, h, hkeys⟩ := ih
    have hmem : n ∉ M := by rw [← Finmap.mem_keys, hkeys]; simp
    rcases h.add (A := Allocator.bump) n () with ⟨out, d', M', hrun, h', hspec⟩ | ⟨-, hA⟩
    · rw [if_neg hmem] at hspec
      obtain ⟨a, -, rfl, rfl⟩ := hspec
      refine ⟨_, d', _, hruns.snoc (a := .add n ()) trivial (by rw [Op.run, hrun]; rfl), h', ?_⟩
      ext k
      rw [Finmap.mem_keys, Finmap.mem_insert, ← Finmap.mem_keys, hkeys, Finset.mem_range, Finset.mem_range]
      omega
    · exact absurd Allocator.bump_neverFails hA

/-- **`count` wraps**: a dictionary of 2^32 elements has count 0, and its
elements cannot be numbered. -/
theorem runs_count_wraps : ∃ (tr : List (Op ℕ Unit × Out Unit)) (d : Dictionary ℕ Unit)
    (t : DTree ℕ Unit) (M : Elems ℕ Unit), Runs Allocator.bump natOrder tr d ∧
      Sorted natOrder d t M ∧ d.count.toNat ≠ t.inorder.length ∧
      5 ∈ M ∧ Op.run Allocator.bump d (.getLinearIndex 5) = none := by
  obtain ⟨tr, d, M, hruns, h, hkeys⟩ := exists_runs_add (2 ^ 32)
  obtain ⟨t, ht⟩ := h.sorted
  have hcard : M.keys.card = 2 ^ 32 := by rw [hkeys, Finset.card_range]
  have hmem : 5 ∈ M := by
    rw [← Finmap.mem_keys, hkeys, Finset.mem_range]
    decide
  have hcount := ht.count
  rw [ht.size, hcard, Nat.mod_self] at hcount
  refine ⟨tr, d, t, M, hruns, ht, ?_, hmem, ?_⟩
  · rw [hcount, ht.size, hcard]
    decide
  · have hidx := h.getLinearIndex 5
    rw [hcard, if_pos ⟨hmem, by decide⟩] at hidx
    rw [Op.run, hidx]
    rfl

end Dictionary

end Mowgli
