import Mowgli.Container.Patricia.Iterate
import Mowgli.Ext.Json.Derives
/-!
# The tree of the members

The members of an object are in a patricia tree, made without a function
that canonizes keys, and a parser only adds to it. Its keys are the names.
While these are shorter than 2^30 bytes, the tree is the list of members in
the order of their names that the parser on trees has in its place; with
longer ones it need not be.
-/

namespace Mowgli

namespace Json

open Patricia (Inv)

variable {D σ : Type} {A : Allocator (PatriciaElem D)} {d : Patricia D} {m : List (CString × D)} {key : CString} {data : D}

/-- The members that a tree has, in the order that it is gone through. -/
structure Members (d : Patricia D) (m : List (CString × D)) : Prop where
  canonizeCb : d.canonizeCb = none
  short : ∀ e ∈ m, e.1.length < 2 ^ 30
  tree : ∃ t, Inv d t ∧ t.leaves.map (fun x => (x.key, x.data)) = m

theorem members_create : Members (Patricia.create none : Patricia D) [] :=
  ⟨rfl, fun _ he => absurd he List.not_mem_nil, .nil, Patricia.inv_create none, rfl⟩

/-- Names shorter than 2^30 bytes have an `int` for their length. -/
theorem length_le_of_short (h : key.length < 2 ^ 30) : key.length ≤ INT_MAX := by
  have hmax : INT_MAX = 2147483647 := rfl
  omega

namespace Members

theorem sorted (h : Members d m) : m.Pairwise fun x y => x.1.bytes < y.1.bytes := by
  obtain ⟨t, hinv, rfl⟩ := h.tree
  exact List.pairwise_map.2 (hinv.pairwise.imp fun hlt => hlt.2.1)

theorem keepsLength (h : Members d m) : Patricia.KeepsLength d.canonizeCb := by
  rw [h.canonizeCb]
  exact fun f hf => absurd hf (by simp)

/-- **A member is added**, and one whose name is there already changes nothing. -/
theorem add (hA : A.NeverFails) (h : Members d m) (hkey : key.length < 2 ^ 30) :
    ∃ b d', d.add A key data = some (b, d') ∧ Members d' (memberAdd key data m) := by
  obtain ⟨t, hinv, hleaves⟩ := h.tree
  have hadd : d.addKey key = key := by rw [Patricia.addKey, h.canonizeCb]
  have hmem : ∀ {x : Item Addr CString D}, x ∈ t.leaves → (x.key, x.data) ∈ m := fun hx =>
    hleaves ▸ List.mem_map_of_mem hx
  have hshort : ∀ e ∈ memberAdd key data m, e.1.length < 2 ^ 30 := fun e he => by
    rcases mem_keys_memberAdd he with rfl | he
    · exact hkey
    · exact h.short e he
  by_cases hin : ∃ x ∈ t.leaves, x.key = key
  · obtain ⟨x, hx, hxkey⟩ := hin
    have hrun := hinv.elemAdd_of_mem (A := A) data h.keepsLength (length_le_of_short hkey) hx (hxkey.trans hadd.symm)
    have hsame : m = memberAdd key data m := eq_of_sorted h.sorted (memberAdd_sorted h.sorted) fun e => by
      rw [mem_memberAdd h.sorted]
      refine ⟨Or.inl, fun he => he.resolve_right fun hno => hno.2.2 x.data ?_⟩
      exact hxkey ▸ hmem hx
    refine ⟨false, _, congrArg (Option.bind · _) hrun, h.canonizeCb, hshort, t, ?_, hleaves.trans hsame⟩
    exact ⟨⟨hinv.root, hinv.repr, hinv.live, hinv.nodup⟩, hinv.wf, hinv.count⟩
  · have hno : ∀ x ∈ t.leaves, x.key ≠ d.addKey key := fun x hx heq => hin ⟨x, hx, heq.trans hadd⟩
    obtain ⟨la, d', t', hrun, hinv', hperm, hd'⟩ := hinv.elemAdd_of_not_mem hA data h.keepsLength
      (length_le_of_short hkey) hno fun x hx => Patricia.partWithin_of_length (hadd.symm ▸ hkey) (hno x hx).symm
    rw [hadd] at hperm
    refine ⟨true, d', congrArg (Option.bind · _) hrun, (congrArg Patricia.canonizeCb hd').trans h.canonizeCb, hshort, t',
      hinv', ?_⟩
    refine eq_of_sorted (List.pairwise_map.2 (hinv'.pairwise.imp fun hlt => hlt.2.1)) (memberAdd_sorted h.sorted) fun e => ?_
    rw [(hperm.map _).mem_iff, List.map_cons, hleaves, List.mem_cons, mem_memberAdd h.sorted]
    constructor
    · rintro (rfl | he)
      · refine Or.inr ⟨rfl, rfl, fun w hw => ?_⟩
        obtain ⟨x, hx, heq⟩ := List.mem_map.1 (hleaves ▸ hw)
        exact hin ⟨x, hx, (Prod.mk.inj heq).1⟩
      · exact Or.inl he
    · rintro (he | ⟨hk, hv, -⟩)
      · exact Or.inr he
      · exact Or.inl (Prod.ext hk hv)

/-- So many are in the tree. -/
theorem size (h : Members d m) : d.size = UInt32.ofNat m.length := by
  obtain ⟨t, hinv, rfl⟩ := h.tree
  rw [Patricia.size, hinv.count, List.length_map]

/-- **They are gone through** in the order of their names. -/
theorem foreach (h : Members d m) (cb : CString → D → σ → ℤ × σ) (s : σ) :
    d.foreach (some cb) s = some (m.foldl (fun s e => (cb e.1 e.2 s).2) s) := by
  obtain ⟨t, hinv, rfl⟩ := h.tree
  have hfuel := hinv.lt_fuel
  rw [Patricia.foreach_eq hinv.root hinv.repr (by omega), List.foldl_map]

/-- **The tree is destroyed** with each of them, once. -/
theorem clear (h : Members d m) (hlen : m.length < 2 ^ 32) (destroyCb : CString → D → σ → σ) (s : σ) :
    ∃ d', d.clear (some destroyCb) s = some (d', m.foldl (fun s e => destroyCb e.1 e.2 s) s) ∧ Members d' [] := by
  obtain ⟨t, hinv, rfl⟩ := h.tree
  have hstored : Patricia.Stored d t := fun x hx => by
    refine ⟨by rw [Patricia.addKey, h.canonizeCb], ?_⟩
    exact length_le_of_short (h.short _ (List.mem_map_of_mem (f := fun x => (x.key, x.data)) hx))
  rw [List.length_map] at hlen
  obtain ⟨d', hrun, hinv', hcb, -⟩ := hinv.clear hlen hstored h.keepsLength (some destroyCb) s
  rw [List.foldl_map]
  exact ⟨d', hrun, hcb.trans h.canonizeCb, fun _ he => absurd he List.not_mem_nil, .nil, hinv', rfl⟩

end Members

/-- `mowgli_patricia_add`, for one member after the other. -/
def addAll (A : Allocator (PatriciaElem D)) : Patricia D → List (CString × D) → Option (Patricia D)
  | d, [] => some d
  | d, (key, data) :: adds => do
    let (_, d) ← d.add A key data
    addAll A d adds

/-- **A tree of members with these names** is the list that `memberAdd` makes, whatever the members
are and in whatever order they come. -/
def TreesHold (names : CString → Prop) : Prop :=
  ∀ (D : Type) (A : Allocator (PatriciaElem D)), A.NeverFails → ∀ adds : List (CString × D), (∀ e ∈ adds, names e.1) →
    ∃ d, addAll A (Patricia.create none) adds = some d ∧ Members d (adds.foldl (fun m e => memberAdd e.1 e.2 m) [])

theorem Members.addAll (hA : A.NeverFails) {adds : List (CString × D)} (h : Members d m)
    (hadds : ∀ e ∈ adds, e.1.length < 2 ^ 30) :
    ∃ d', Json.addAll A d adds = some d' ∧ Members d' (adds.foldl (fun m e => memberAdd e.1 e.2 m) m) := by
  induction adds generalizing d m with
  | nil => exact ⟨d, rfl, h⟩
  | cons e adds ih =>
    rw [List.forall_mem_cons] at hadds
    obtain ⟨b, d₁, hrun, h₁⟩ : ∃ b d₁, d.add A e.1 e.2 = some (b, d₁) ∧ Members d₁ (memberAdd e.1 e.2 m) :=
      h.add hA hadds.1
    obtain ⟨d', hrun', h'⟩ := ih h₁ hadds.2
    refine ⟨d', ?_, h'⟩
    rw [Json.addAll, hrun]
    exact hrun'

/-- **Names shorter than 2^30 bytes** are what the tree can hold. -/
theorem treesHold_of_short {names : CString → Prop} (h : ∀ name, names name → name.length < 2 ^ 30) : TreesHold names :=
  fun _ _ hA _ hadds => members_create.addAll hA fun e he => h e.1 (hadds e he)

/-! ## The names of a text -/

/-- The names among the tokens: strings with a `:` behind them, up to their first NUL. -/
def memberNames : List Terminal → List CString
  | .string bytes :: .nameSep :: ts => Parse.cString bytes :: memberNames ts
  | _ :: ts => memberNames ts
  | [] => []

/-- The strings among the tokens, up to their first NUL. -/
def strings (ts : List Terminal) : List CString :=
  ts.filterMap fun t => match t with
    | .string bytes => some (Parse.cString bytes)
    | _ => none

end Json

end Mowgli
