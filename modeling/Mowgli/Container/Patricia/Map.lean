import Mowgli.Container.Patricia.Iterate
import Mowgli.Library.Run
/-!
# A patricia tree is a finite map

The calls of the interface as one machine, and what they are to do as
calls on a finite map from canonical keys to elements. Every run of the
tree is a run of the map as long as its keys fit the `int`s the code
counts bytes and nibbles with and its size fits its counter; past that
the map is lost.
-/

namespace Mowgli

namespace Patricia

variable {D σ : Type}

/-- A call on a patricia tree. -/
inductive Op (D σ : Type)
  | elemAdd (key : CString) (data : D)
  | add (key : CString) (data : D)
  | elemFind (key : CString)
  | retrieve (key : CString)
  | delete (key : CString)
  | elemDelete (leaf : Addr)
  | clear (destroyCb : Option (CString → D → σ → σ)) (privdata : σ)

/-- What a call returns. -/
inductive Out (D : Type)
  | elem (leaf : Option Addr)
  | bool (b : Bool)
  | data (data : Option D)
  | done
  deriving DecidableEq

/-- Make a call. -/
def Op.run (A : Allocator (PatriciaElem D)) (d : Patricia D) : Op D σ → Option (Out D × Patricia D)
  | .elemAdd key data => (d.elemAdd A key data).map fun (leaf, d) => (.elem leaf, d)
  | .add key data => (d.add A key data).map fun (b, d) => (.bool b, d)
  | .elemFind key => (d.elemFind key).map fun leaf => (.elem leaf, d)
  | .retrieve key => (d.retrieve key).map fun data => (.data data, d)
  | .delete key => (d.delete key).map fun (data, d) => (.data data, d)
  | .elemDelete leaf => (d.elemDelete leaf).map fun d => (.done, d)
  | .clear destroyCb privdata => (d.clear destroyCb privdata).map fun (d, _) => (.done, d)

/-- The canonical key. -/
def canon (cb : Option (CString → CString)) (key : CString) : CString :=
  match cb with
  | none => key
  | some f => f key

/-- What the interface asks of a canonizing function. -/
structure Canonizes (cb : Option (CString → CString)) : Prop where
  keepsLength : KeepsLength cb
  idem : ∀ f ∈ cb, ∀ k, f (f k) = f k

/-- The elements by their canonical keys. -/
abbrev Elems (D : Type) : Type := Mowgli.Elems CString D

/-- **What each call is to do** to the elements, and what it may return. -/
def Spec (can : CString → CString) (M : Elems D) : Op D σ → Out D → Elems D → Prop
  | .elemAdd key data, out, M' =>
    if can key ∈ M then out = .elem none ∧ M' = M
    else ∃ a, (∀ k e, M.lookup k = some e → e.1 ≠ a) ∧ out = .elem (some a) ∧
      M' = M.insert (can key) (a, data)
  | .add key data, out, M' =>
    if can key ∈ M then out = .bool false ∧ M' = M
    else ∃ a, (∀ k e, M.lookup k = some e → e.1 ≠ a) ∧ out = .bool true ∧
      M' = M.insert (can key) (a, data)
  | .elemFind key, out, M' => out = .elem ((M.lookup (can key)).map Prod.fst) ∧ M' = M
  | .retrieve key, out, M' => out = .data ((M.lookup (can key)).map Prod.snd) ∧ M' = M
  | .delete key, out, M' => out = .data ((M.lookup (can key)).map Prod.snd) ∧ M' = M.erase (can key)
  | .elemDelete leaf, out, M' =>
    out = .done ∧ ∃ k v, M.lookup k = some (leaf, v) ∧ M' = M.erase k
  | .clear _ _, out, M' => out = .done ∧ M' = ∅

/-- What the caller owes: `elem_delete` is given a leaf of the tree. -/
def Op.Valid (d : Patricia D) : Op D σ → Prop
  | .elemDelete leaf => (leafAt d.mem leaf).isSome
  | _ => True

/-- **The calls the code is right for**: the length of the key is an `int`,
the key to add parts from every other key at a nibble whose number is an
`int`, and there is room in `count` for one more. -/
def Op.Fits (d : Patricia D) : Op D σ → Prop
  | .elemAdd key _ | .add key _ => key.length ≤ INT_MAX ∧
      (∀ a l, leafAt d.mem a = some l → l.key ≠ d.addKey key → PartWithin (d.addKey key) l.key) ∧
      d.count.toNat + 1 < 2 ^ 32
  | .elemFind key | .retrieve key | .delete key => key.length ≤ INT_MAX
  | .elemDelete _ | .clear _ _ => True

/-! ## The map a tree holds -/

variable {M : Elems D} {k : CString} {a : Addr} {v : D}

/-- **A tree and the map it is.** No assertion has failed so far. -/
structure Is (cb : Option (CString → CString)) (d : Patricia D) (M : Elems D) : Prop where
  canonizeCb : d.canonizeCb = cb
  lists : ∃ t, Inv d t ∧ Stored d t ∧ t.leaves.length < 2 ^ 32 ∧ Lists t.leaves M
  quiet : ∀ exp, .softAssert exp ∉ d.log

variable {A : Allocator (PatriciaElem D)} {cb : Option (CString → CString)} {d : Patricia D}
variable {t : PTrie D} {key : CString} {data : D}

theorem is_create (cb : Option (CString → CString)) : Is cb (create cb : Patricia D) ∅ where
  canonizeCb := rfl
  lists := ⟨.nil, inv_create cb, by simp [Stored], by simp, by simp [Lists]⟩
  quiet := by simp [create]

theorem Is.canon_eq (h : Is cb d M) (key : CString) : canon cb key = d.addKey key := by
  obtain rfl := h.canonizeCb
  rfl

/-- **The size of the tree is that of the map.** -/
theorem Is.size (h : Is cb d M) : d.size.toNat = M.keys.card := by
  obtain ⟨t, hinv, -, hlen, hl⟩ := h.lists
  rw [hl.keys_card hinv.nodup_keys, Patricia.size, hinv.count, UInt32.toNat_ofNat_of_lt' hlen]

/-- What `elem_add` does to the map. -/
theorem Is.elemAdd (hA : A.NeverFails) (hcb : Canonizes cb) (h : Is cb d M)
    (hlen : key.length ≤ INT_MAX)
    (hpart : ∀ a l, leafAt d.mem a = some l → l.key ≠ d.addKey key →
      PartWithin (d.addKey key) l.key)
    (hroom : d.count.toNat + 1 < 2 ^ 32) :
    ∃ out d' M', d.elemAdd A key data = some (out, d') ∧ Is cb d' M' ∧
      if canon cb key ∈ M then out = none ∧ M' = M
      else ∃ a, (∀ k e, M.lookup k = some e → e.1 ≠ a) ∧ out = some a ∧
        M' = M.insert (canon cb key) (a, data) := by
  obtain ⟨t, hinv, hst, hlen32, hl⟩ := h.lists
  have hkeep : KeepsLength d.canonizeCb := h.canonizeCb ▸ hcb.keepsLength
  rw [h.canon_eq]
  by_cases hmem : d.addKey key ∈ M
  · obtain ⟨x, hx, hkey⟩ := hl.mem_iff.1 hmem
    refine ⟨_, _, M, hinv.elemAdd_of_mem data hkeep hlen hx hkey, ⟨h.canonizeCb, ⟨t, ?_, hst, hlen32, hl⟩,
      ?_⟩, ?_⟩
    · exact ⟨⟨hinv.root, hinv.repr, hinv.live, hinv.nodup⟩, hinv.wf, hinv.count⟩
    · intro exp hexp
      rcases List.mem_append.1 hexp with hexp | hexp
      · exact h.quiet exp hexp
      · simp at hexp
    · rw [if_pos hmem]; exact ⟨rfl, rfl⟩
  · have hno : ∀ x ∈ t.leaves, x.key ≠ d.addKey key :=
      fun x hx hkey => hmem (hl.mem_iff.2 ⟨x, hx, hkey⟩)
    obtain ⟨la, d', t', hrun, hinv', hperm, hd'⟩ := hinv.elemAdd_of_not_mem hA data hkeep
      hlen hno fun x hx => by
        obtain ⟨p, v, hleaf⟩ := hinv.repr.leafAt hx
        exact hpart _ _ hleaf (hno x hx)
    have hcb' : d'.canonizeCb = d.canonizeCb := by rw [hd']
    have hcount : d.count.toNat = t.leaves.length := by
      rw [hinv.count, UInt32.toNat_ofNat_of_lt' hlen32]
    refine ⟨_, d', _, hrun, ⟨hcb'.trans h.canonizeCb, ⟨t', hinv', ?_, ?_, hl.insert hno hperm⟩, ?_⟩, ?_⟩
    · intro x hx
      rw [addKey_congr hcb']
      rcases List.mem_cons.1 (hperm.subset hx) with rfl | hx
      · refine ⟨?_, by rw [length_addKey hkeep]; exact hlen⟩
        simp only [addKey]
        cases hf : d.canonizeCb with
        | none => rfl
        | some f => exact hcb.idem f (by rw [← h.canonizeCb, hf]; rfl) key
      · exact hst x hx
    · rw [hperm.length_eq, List.length_cons]
      omega
    · rw [hd']; exact h.quiet
    · rw [if_neg hmem]
      refine ⟨la, fun k e hk hea => ?_, rfl, rfl⟩
      -- a leaf of the new one's cell would be the new one
      have hold : ⟨e.1, k, e.2⟩ ∈ t.leaves := (hl k e.1 e.2).1 hk
      have heq := hinv'.repr.eq_of_cell (hperm.symm.subset (List.mem_cons_of_mem _ hold))
        (hperm.symm.subset (List.mem_cons_self ..)) hea
      exact hno _ hold (congrArg Item.key heq)

/-- What `elem_find` and `retrieve` answer. -/
theorem Is.lookups (hcb : Canonizes cb) (h : Is cb d M) (hlen : key.length ≤ INT_MAX) :
    d.elemFind key = some ((M.lookup (canon cb key)).map Prod.fst) ∧
      d.retrieve key = some ((M.lookup (canon cb key)).map Prod.snd) := by
  obtain ⟨t, hinv, -, -, hl⟩ := h.lists
  have hkeep : KeepsLength d.canonizeCb := h.canonizeCb ▸ hcb.keepsLength
  rw [h.canon_eq]
  by_cases hmem : d.addKey key ∈ M
  · obtain ⟨x, hx, hkey⟩ := hl.mem_iff.1 hmem
    rw [hinv.elemFind_of_mem hkeep hlen hx hkey, hinv.retrieve_of_mem hkeep hlen hx hkey, ← hkey,
      hl.lookup hx]
    exact ⟨rfl, rfl⟩
  · have hno : ∀ x ∈ t.leaves, x.key ≠ d.addKey key :=
      fun x hx hkey => hmem (hl.mem_iff.2 ⟨x, hx, hkey⟩)
    rw [hinv.elemFind_of_not_mem hkeep hlen hno, hinv.retrieve_of_not_mem hkeep hlen hno,
      hl.lookup_eq_none hno]
    exact ⟨rfl, rfl⟩

/-- What deleting the leaf of an element does to the map. -/
theorem Is.elemDelete (h : Is cb d M) (hk : M.lookup k = some (a, v)) :
    ∃ d', d.elemDelete a = some d' ∧ Is cb d' (M.erase k) := by
  obtain ⟨t, hinv, hst, hlen32, hl⟩ := h.lists
  obtain ⟨l, r, hlr⟩ := List.append_of_mem ((hl k a v).1 hk)
  obtain ⟨d', t', hrun, hinv', hleaves, hd'⟩ := hinv.elemDelete hlr hlen32
  have hcb' : d'.canonizeCb = d.canonizeCb := by rw [hd']
  have hnd := hinv.nodup_keys
  rw [hlr] at hl hnd
  have herase := hl.erase hnd
  rw [← hleaves] at herase
  refine ⟨d', hrun, hcb'.trans h.canonizeCb, ⟨t', hinv', fun x hx => ?_, ?_, herase⟩, ?_⟩
  · rw [addKey_congr hcb']
    refine hst x ?_
    rw [hlr]
    rw [hleaves] at hx
    simp only [List.mem_append, List.mem_cons] at hx ⊢
    tauto
  · rw [hlr, List.length_append, List.length_cons] at hlen32
    rw [hleaves, List.length_append]
    omega
  · rw [hd']; exact h.quiet

/-- What `delete` does to the map. -/
theorem Is.delete (hcb : Canonizes cb) (h : Is cb d M) (hlen : key.length ≤ INT_MAX) :
    ∃ d', d.delete key = some ((M.lookup (canon cb key)).map Prod.snd, d') ∧
      Is cb d' (M.erase (canon cb key)) := by
  obtain ⟨t, hinv, -, -, hl⟩ := h.lists
  have hkeep : KeepsLength d.canonizeCb := h.canonizeCb ▸ hcb.keepsLength
  rw [h.canon_eq]
  by_cases hmem : d.addKey key ∈ M
  · obtain ⟨x, hx, hkey⟩ := hl.mem_iff.1 hmem
    have hx' := hl.lookup hx
    rw [hkey] at hx'
    obtain ⟨d', hrun, h'⟩ := h.elemDelete hx'
    refine ⟨d', ?_, h'⟩
    rw [hinv.delete_of_mem hkeep hlen hx hkey, hrun, hx']
    rfl
  · have hno : ∀ x ∈ t.leaves, x.key ≠ d.addKey key :=
      fun x hx hkey => hmem (hl.mem_iff.2 ⟨x, hx, hkey⟩)
    refine ⟨d, ?_, ?_⟩
    · rw [hinv.delete_of_not_mem hkeep hlen hno, hl.lookup_eq_none hno]
      rfl
    · rwa [erase_of_not_mem hmem]

/-- What `clear` does to the map. -/
theorem Is.clear (hcb : Canonizes cb) (h : Is cb d M) (destroyCb : Option (CString → D → σ → σ))
    (s : σ) : ∃ d' s', d.clear destroyCb s = some (d', s') ∧ Is cb d' ∅ := by
  obtain ⟨t, hinv, hst, hlen32, -⟩ := h.lists
  obtain ⟨d', hrun, hinv', hcb', hlog⟩ := hinv.clear hlen32 hst
    (h.canonizeCb ▸ hcb.keepsLength) destroyCb s
  refine ⟨d', _, hrun, hcb'.trans h.canonizeCb,
    ⟨.nil, hinv', by simp [Stored], by simp, by simp [Lists]⟩, ?_⟩
  rw [hlog]
  exact h.quiet

/-- **One call.** It is answered, and it does to the map what it should. -/
theorem Is.step (hA : A.NeverFails) (hcb : Canonizes cb) (h : Is cb d M) {op : Op D σ}
    (hv : op.Valid d) (hf : op.Fits d) :
    ∃ out d' M', op.run A d = some (out, d') ∧ Spec (canon cb) M op out M' ∧ Is cb d' M' := by
  cases op with
  | elemAdd key data =>
    obtain ⟨out, d', M', hrun, h', hspec⟩ := h.elemAdd hA hcb hf.1 hf.2.1 hf.2.2
    refine ⟨.elem out, d', M', by rw [Op.run, hrun]; rfl, ?_, h'⟩
    rw [Spec]
    split_ifs at hspec ⊢
    · exact ⟨congrArg _ hspec.1, hspec.2⟩
    · obtain ⟨a, hfresh, rfl, rfl⟩ := hspec
      exact ⟨a, hfresh, rfl, rfl⟩
  | add key data =>
    obtain ⟨out, d', M', hrun, h', hspec⟩ := h.elemAdd hA hcb hf.1 hf.2.1 hf.2.2
    refine ⟨.bool out.isSome, d', M', by rw [Op.run, Patricia.add, hrun]; rfl, ?_, h'⟩
    rw [Spec]
    split_ifs at hspec ⊢
    · exact ⟨by rw [hspec.1]; rfl, hspec.2⟩
    · obtain ⟨a, hfresh, rfl, rfl⟩ := hspec
      exact ⟨a, hfresh, rfl, rfl⟩
  | elemFind key =>
    exact ⟨_, d, M, by rw [Op.run, (h.lookups hcb hf).1]; rfl, ⟨rfl, rfl⟩, h⟩
  | retrieve key =>
    exact ⟨_, d, M, by rw [Op.run, (h.lookups hcb hf).2]; rfl, ⟨rfl, rfl⟩, h⟩
  | delete key =>
    obtain ⟨d', hrun, h'⟩ := h.delete hcb hf
    exact ⟨_, d', _, by rw [Op.run, hrun]; rfl, ⟨rfl, rfl⟩, h'⟩
  | elemDelete leaf =>
    -- the leaf is that of an element
    obtain ⟨t, hinv, -, -, hl⟩ := h.lists
    obtain ⟨l, hleaf⟩ := Option.isSome_iff_exists.1 hv
    obtain ⟨x, hx, hcell⟩ := hinv.exists_leaf hleaf
    have hx' := hl.lookup hx
    rw [hcell] at hx'
    obtain ⟨d', hrun, h'⟩ := h.elemDelete hx'
    exact ⟨_, d', _, by rw [Op.run, hrun]; rfl, ⟨rfl, _, _, hx', rfl⟩, h'⟩
  | clear destroyCb privdata =>
    obtain ⟨d', s', hrun, h'⟩ := h.clear hcb destroyCb privdata
    exact ⟨_, d', ∅, by rw [Op.run, hrun]; rfl, ⟨rfl, rfl⟩, h'⟩

/-! ## Runs -/

/-- The runs of a tree from an empty one, of calls that meet `ok`. -/
abbrev Runs (A : Allocator (PatriciaElem D)) (cb : Option (CString → CString))
    (ok : Patricia D → Op D σ → Prop) : List (Op D σ × Out D) → Patricia D → Prop :=
  Run (Op.run A) ok (create cb)

/-- The traces of a finite map from an empty one. -/
abbrev MapRuns (cb : Option (CString → CString)) : List (Op D σ × Out D) → Elems D → Prop :=
  SpecRun (Spec (canon cb)) ∅

theorem Runs.is (hA : A.NeverFails) (hcb : Canonizes cb) {tr : List (Op D σ × Out D)}
    (h : Runs A cb (fun d op => op.Valid d ∧ op.Fits d) tr d) :
    ∃ M, MapRuns cb tr M ∧ Is cb d M :=
  Run.refines (R := Is cb) (is_create cb) (fun {d M op out d'} hd hop hrun => by
    obtain ⟨out', d'', M', hrun', hspec, hd'⟩ := hd.step hA hcb hop.1 hop.2
    obtain ⟨rfl, rfl⟩ := Prod.mk.inj (Option.some.inj (hrun.symm.trans hrun'))
    exact ⟨M', hspec, hd'⟩) h

/-- **A patricia tree refines a finite map**: whatever calls were made, each
answer is that of the map, the size is the map's, and the next call is
answered too. -/
theorem runs_refine_map (hA : A.NeverFails) (hcb : Canonizes cb) {tr : List (Op D σ × Out D)}
    (h : Runs A cb (fun d op => op.Valid d ∧ op.Fits d) tr d) :
    ∃ M, MapRuns cb tr M ∧ d.size.toNat = M.keys.card ∧
      ∀ op : Op D σ, op.Valid d → op.Fits d →
        ∃ out d' M', op.run A d = some (out, d') ∧ Spec (canon cb) M op out M' := by
  obtain ⟨M, hM, hd⟩ := h.is hA hcb
  refine ⟨M, hM, hd.size, fun op hv hf => ?_⟩
  obtain ⟨out, d', M', hrun, hspec, -⟩ := hd.step hA hcb hv hf
  exact ⟨out, d', M', hrun, hspec⟩

/-- No canonizing function asks nothing. -/
theorem canonizes_none : Canonizes none := ⟨by simp [KeepsLength], by simp⟩

/-- The key "a". -/
def keyA : CString := ⟨[97], CString.nul_free_a⟩

/-- The key "b". -/
def keyB : CString := ⟨[98], CString.nul_free_b⟩

/-! ## A key whose length is no `int`

With "a" and "b" in the tree, its one node tests the low nibble of the
first byte. The length of a key of 2^31 bytes is a negative `int`, every
nibble of it counts as past the end, and the descent for it ends in the
empty slot 0. If it begins with a 'b' the comparison with "a" then sends
it to slot 2, where "b" is. -/

/-- The slots of a node with a child in each of the slots 1 and 2. -/
def slots12 (a b : Addr) : Fin 16 → Option Addr :=
  fun i => if i.val = 1 then some a else if i.val = 2 then some b else none

/-- A tree of "a" and "b". -/
structure TwoKeys (d : Patricia Unit) : Prop where
  canonizeCb : d.canonizeCb = none
  root : d.root = some 2
  count : d.count = 2
  log : d.log = []
  live : d.mem.live = {1, 2, 3}
  pick : Allocator.bump.pick d.mem = some 4
  leafA : d.mem.get 1 = some (.leaf ⟨(), keyA, some 2, 1⟩)
  node : d.mem.get 2 = some (.node ⟨1, slots12 1 3, none, 18⟩)
  leafB : d.mem.get 3 = some (.leaf ⟨(), keyB, some 2, 2⟩)

theorem exists_twoKeys : ∃ d₁ d₂ : Patricia Unit,
    Op.run (σ := Unit) Allocator.bump (create none) (.add keyA ()) = some (.bool true, d₁) ∧
    Op.run (σ := Unit) Allocator.bump d₁ (.add keyB ()) = some (.bool true, d₂) ∧ TwoKeys d₂ := by
  have hdown : Function.update (Function.update (fun _ => none) 1 (some 1)) 2 (some 3) =
      slots12 1 3 := by decide
  refine ⟨_, _, rfl, rfl, ⟨rfl, rfl, rfl, rfl, by decide, rfl, rfl, ?_, rfl⟩⟩
  rw [← hdown]
  rfl

theorem Spec.of_add {can : CString → CString} {M M' : Elems D}
    (h : Spec can M (.add key data : Op D σ) (.bool true) M') :
    ∃ a, M' = M.insert (can key) (a, data) := by
  rw [Spec] at h
  split_ifs at h
  · cases h.1
  · obtain ⟨a, -, -, rfl⟩ := h
    exact ⟨a, rfl⟩

/-- A run that adds "a" and "b". -/
theorem exists_runs_twoKeys : ∃ d : Patricia Unit, TwoKeys d ∧
    Runs (σ := Unit) Allocator.bump none (fun d op => op.Valid d ∧ op.Fits d)
      [(.add keyA (), .bool true), (.add keyB (), .bool true)] d := by
  obtain ⟨d₁, d₂, hrun₁, hrun₂, h⟩ := exists_twoKeys
  have r₁ : Runs (σ := Unit) Allocator.bump none (fun d op => op.Valid d ∧ op.Fits d)
      ([] ++ [(.add keyA (), .bool true)]) d₁ :=
    Run.nil.snoc ⟨trivial, by decide, fun a l hl => (by cases hl), by decide⟩ hrun₁
  obtain ⟨M, hM, his⟩ := r₁.is Allocator.bump_neverFails canonizes_none
  obtain ⟨M₀, hM₀, hspec⟩ := hM.last
  obtain ⟨a, rfl⟩ := hspec.of_add
  have hsize := his.size
  obtain ⟨t, hinv, -, -, hl⟩ := his.lists
  obtain rfl := hM₀.of_nil
  have hkeys : (Finmap.insert keyA (a, ()) (∅ : Elems Unit)).keys = {keyA} := by
    ext k
    rw [Finmap.mem_keys, Finmap.mem_insert, Finset.mem_singleton]
    exact or_iff_left Finmap.notMem_empty
  refine ⟨d₂, h, r₁.snoc ⟨trivial, by decide, fun b l hleaf _ => ?_, ?_⟩ hrun₂⟩
  · -- "a" is the only key there is, and it parts from "b" at nibble 1
    obtain ⟨x, hx, hcell⟩ := hinv.exists_leaf hleaf
    obtain ⟨q, v, hleaf'⟩ := hinv.repr.leafAt hx
    rw [hcell, hleaf, Option.some.injEq] at hleaf'
    have hmem := Finmap.mem_keys.2 (hl.mem_iff.2 ⟨x, hx, rfl⟩)
    rw [canon, hkeys, Finset.mem_singleton] at hmem
    rw [hleaf', hmem, addKey, his.canonizeCb]
    exact ⟨1, by decide, show nibbleVal keyB 1 ≠ nibbleVal keyA 1 by decide⟩
  · rw [canon, hkeys, Finset.card_singleton] at hsize
    rw [Patricia.size] at hsize
    rw [hsize]
    decide

/-- Two keys, and the call that is next: "a" is taken out again. -/
theorem runs_refine_map_two : ∃ (d : Patricia Unit) (M M' : Elems Unit),
    MapRuns (σ := Unit) none [(.add keyA (), .bool true), (.add keyB (), .bool true)] M ∧ d.size.toNat = M.keys.card ∧
      ∃ out d', Op.run (σ := Unit) Allocator.bump d (.delete keyA) = some (out, d') ∧
        Spec (σ := Unit) (canon none) M (.delete keyA) out M' := by
  obtain ⟨d, -, hd⟩ := exists_runs_twoKeys
  obtain ⟨M, hM, hsize, hnext⟩ := runs_refine_map Allocator.bump_neverFails canonizes_none hd
  have hfits : Op.Fits (σ := Unit) d (.delete keyA) := (by decide : keyA.length ≤ INT_MAX)
  obtain ⟨out, d', M', hrun, hspec⟩ := hnext (.delete keyA) trivial hfits
  exact ⟨d, M, M', hM, hsize, out, d', hrun, hspec⟩

/-- The tree after a third key that took the slot of "b". -/
def TwoKeys.overwritten (d : Patricia Unit) (K : CString) : Patricia Unit :=
  { d with
    mem := (d.mem.set 2 (.node ⟨1, slots12 1 4, none, 18⟩)).set 4 (.leaf ⟨(), K, some 2, 2⟩)
    count := 3
    log := [.softAssert "*place1 == NULL"] }

/-- **A key that begins with a 'b' and whose length wraps takes the slot of
"b"**, and `elem_add` reports success. -/
theorem TwoKeys.add {d : Patricia Unit} (h : TwoKeys d) {K : CString} (hlen : toInt K.length < 0)
    (h0 : K.charAt 0 = 98) :
    Op.run (σ := Unit) Allocator.bump d (.add K ()) =
      some (.bool true, TwoKeys.overwritten d K) := by
  have hfuel : d.fuel = 8 := by rw [fuel, h.live]; rfl
  have hn0 : nibbleVal K 0 = 6 := by rw [nibbleVal, h0]; rfl
  have hn1 : nibbleVal K 1 = 2 := by rw [nibbleVal, h0]; rfl
  have hnode : nodeAt d.mem 2 = some ⟨1, slots12 1 3, none, 18⟩ := by rw [nodeAt, h.node]
  have hleaf : leafAt d.mem 1 = some ⟨(), keyA, some 2, 1⟩ := by rw [leafAt, h.leafA]
  have hadd : d.addKey K = K := by rw [addKey, h.canonizeCb]
  have hdesc : descend d.mem (toInt K.length) K d.fuel none (POINTERS_PER_NODE + 2) d.root =
      some (some 2, 0, none) := by
    have hneg : ¬ ((1 / 2 : ℕ) : ℤ) < toInt K.length := not_lt.2 hlen.le
    rw [hfuel, h.root]
    simp only [descend, h.node, if_neg hneg]
    rfl
  have hfirst : firstLeaf d.mem d.fuel 2 = some 1 := by
    have hfind : (List.finRange 16).find? (fun val => (slots12 1 3 val).isSome) = some 1 := by
      decide
    have h1 : slots12 1 3 1 = some 1 := rfl
    rw [hfuel, firstLeaf, h.node]
    dsimp only
    rw [hfind]
    dsimp only
    rw [h1, Option.bind_some, firstLeaf, h.leafA]
  -- the first nibble the new key and "a" differ at is the low one of the first byte
  have hdiff : differ K keyA (2 * K.length + 2) 0 = some 1 := by
    rw [differ, if_neg (by rw [INT_MAX]; omega), hn0, if_pos (by decide), differ,
      if_neg (by rw [INT_MAX]; omega), hn1, if_neg (by decide)]
  have hclimb : climb d.mem 1 d.fuel (some 2) 0 = some (some 2, 0) := by
    rw [hfuel, climb, hnode]
    rfl
  have hset : setChild ⟨1, slots12 1 3, none, 18⟩ ((2 : Fin 16) : ℕ) (some 4) =
      some ⟨1, slots12 1 4, none, 18⟩ := by
    have hslots : Function.update (slots12 1 3) 2 (some 4) = slots12 1 4 := by decide
    rw [setChild_slot, ← hslots]
  have hplace : placeLeaf Allocator.bump { d with log := [.softAssert "*place1 == NULL"] } (some 2)
      (2 : Fin 16) K () = some (some 4, TwoKeys.overwritten d K) := by
    have hcount : (3 : UInt32) = d.count + 1 := by rw [h.count]; rfl
    rw [placeLeaf, h.pick, hnode, TwoKeys.overwritten, hcount, Option.bind_eq_bind,
      Option.bind_some, hset]
    rfl
  have hbeside : addBeside Allocator.bump d (some 2) 0 1 K () =
      some (some 4, TwoKeys.overwritten d K) := by
    rw [← hplace, addBeside, hleaf, Option.bind_eq_bind, Option.bind_some, hdiff,
      Option.bind_eq_bind, Option.bind_some, hclimb, Option.bind_eq_bind, Option.bind_some]
    dsimp only
    rw [hnode, Option.bind_eq_bind, Option.bind_some, if_neg (Nat.lt_irrefl 1), Option.bind_eq_bind,
      Option.bind_some]
    dsimp only
    rw [hnode, Option.bind_some, hn1, h.log]
    rfl
  have helem : d.elemAdd Allocator.bump K () = some (some 4, TwoKeys.overwritten d K) := by
    rw [elemAdd, hadd, hdesc, Option.bind_eq_bind, Option.bind_some]
    dsimp only
    rw [hfirst, Option.bind_eq_bind, Option.bind_some, hbeside]
  rw [Op.run, Patricia.add, helem]
  rfl

/-- The run to that tree. -/
theorem TwoKeys.runs_overwritten {d₁ d₂ : Patricia Unit} (h : TwoKeys d₂)
    (h₁ : Op.run (σ := Unit) Allocator.bump (create none) (.add keyA ()) = some (.bool true, d₁))
    (h₂ : Op.run (σ := Unit) Allocator.bump d₁ (.add keyB ()) = some (.bool true, d₂)) {K : CString}
    (hlen : toInt K.length < 0) (h0 : K.charAt 0 = 98) :
    Runs (σ := Unit) Allocator.bump none (fun d op => op.Valid d)
      [(.add keyA (), .bool true), (.add keyB (), .bool true), (.add K (), .bool true)]
      (TwoKeys.overwritten d₂ K) := by
  have r₁ : Runs (σ := Unit) Allocator.bump none (fun d op => op.Valid d)
      [(.add keyA (), .bool true)] d₁ := Run.nil.snoc trivial h₁
  have r₂ : Runs (σ := Unit) Allocator.bump none (fun d op => op.Valid d)
      [(.add keyA (), .bool true), (.add keyB (), .bool true)] d₂ := r₁.snoc trivial h₂
  exact r₂.snoc trivial (h.add hlen h0)

theorem TwoKeys.get_overwritten {d : Patricia Unit} (h : TwoKeys d) (K : CString) :
    (TwoKeys.overwritten d K).mem.get 1 = some (.leaf ⟨(), keyA, some 2, 1⟩) ∧
      (TwoKeys.overwritten d K).mem.get 2 = some (.node ⟨1, slots12 1 4, none, 18⟩) ∧
      (TwoKeys.overwritten d K).mem.get 3 = some (.leaf ⟨(), keyB, some 2, 2⟩) ∧
      (TwoKeys.overwritten d K).mem.get 4 = some (.leaf ⟨(), K, some 2, 2⟩) := by
  refine ⟨?_, ?_, ?_, ?_⟩ <;> simp [TwoKeys.overwritten, Store.get_set, h.leafA, h.leafB]

theorem TwoKeys.fuel_overwritten {d : Patricia Unit} (h : TwoKeys d) (K : CString) :
    (TwoKeys.overwritten d K).fuel = 10 := by
  have hlive : (TwoKeys.overwritten d K).mem.live = {1, 2, 3, 4} := by
    ext a
    simp only [TwoKeys.overwritten, Store.mem_live_set, h.live, Finset.mem_insert,
      Finset.mem_singleton]
    tauto
  rw [fuel, hlive]
  rfl

/-- "b" is not found any more. -/
theorem TwoKeys.retrieve {d : Patricia Unit} (h : TwoKeys d) {K : CString} (hK : 1 < K.length) :
    Op.run (σ := Unit) Allocator.bump (TwoKeys.overwritten d K) (.retrieve keyB) =
      some (.data none, TwoKeys.overwritten d K) := by
  obtain ⟨-, hnode, -, hleaf⟩ := h.get_overwritten K
  have hroot : (TwoKeys.overwritten d K).root = some 2 := h.root
  have hkey : (TwoKeys.overwritten d K).findKey keyB = keyB := by
    rw [findKey, TwoKeys.overwritten, h.canonizeCb]
  have hdesc : descend (TwoKeys.overwritten d K).mem (toInt keyB.length) keyB
      (TwoKeys.overwritten d K).fuel none (POINTERS_PER_NODE + 2) (TwoKeys.overwritten d K).root =
        some (some 2, 2, some 4) := by
    have hval : nibbleVal keyB 1 = 2 := by decide
    have hlt : ((1 / 2 : ℕ) : ℤ) < toInt keyB.length := by decide
    have h2 : slots12 1 4 2 = some 4 := rfl
    rw [h.fuel_overwritten, hroot]
    simp only [descend, hnode, if_pos hlt, hval, h2, hleaf]
    rfl
  have hne : CString.strcmp K keyB ≠ 0 := by
    rw [Ne, CString.strcmp_eq_zero]
    rintro rfl
    exact absurd hK (by decide)
  have hfind : (TwoKeys.overwritten d K).elemFind keyB = some none := by
    rw [elemFind, hkey, hdesc, Option.bind_eq_bind, Option.bind_some]
    dsimp only
    rw [leafAt, hleaf, Option.bind_eq_bind, Option.bind_some, if_pos hne]
  rw [Op.run, Patricia.retrieve, hfind]
  rfl

/-- A key of `n` bytes, each a 'b'. -/
def keyBs (n : ℕ) : CString := ⟨List.replicate n 98, by simp⟩

theorem keyBs_wraps : toInt (keyBs 2147483648).length < 0 ∧ (keyBs 2147483648).charAt 0 = 98 ∧
    1 < (keyBs 2147483648).length := by
  have hlen : ∀ n, (keyBs n).length = n := fun n => List.length_replicate
  have hchar : ∀ n, 0 < n → (keyBs n).charAt 0 = 98 := fun n hn => List.getD_replicate _ hn
  rw [hlen]
  exact ⟨by decide, hchar _ (by decide), by decide⟩

/-- **The map is lost** to a key of 2^31 bytes: "b" was added and not
deleted, and `retrieve` answers null. -/
theorem longKey_loses_keyB : ∃ (tr : List (Op Unit Unit × Out Unit)) (d : Patricia Unit),
    Runs Allocator.bump none (fun d op => op.Valid d) tr d ∧ ¬ ∃ M, MapRuns none tr M := by
  obtain ⟨hlen, h0, hlong⟩ := keyBs_wraps
  obtain ⟨d₁, d₂, hrun₁, hrun₂, h⟩ := exists_twoKeys
  refine ⟨[(.add keyA (), .bool true), (.add keyB (), .bool true),
    (.add (keyBs 2147483648) (), .bool true), (.retrieve keyB, .data none)], _,
    (h.runs_overwritten hrun₁ hrun₂ hlen h0).snoc trivial (h.retrieve hlong), ?_⟩
  rintro ⟨M, hM⟩
  obtain ⟨M₃, hM₃, hout, -⟩ := (show MapRuns none ([_, _, _] ++ [(_, _)]) M from hM).last
  obtain ⟨M₂, hM₂, hspec₃⟩ := (show MapRuns none ([_, _] ++ [(_, _)]) M₃ from hM₃).last
  obtain ⟨M₁, -, hspec₂⟩ := (show MapRuns none ([_] ++ [(_, _)]) M₂ from hM₂).last
  obtain ⟨a, rfl⟩ := hspec₃.of_add
  obtain ⟨b, rfl⟩ := hspec₂.of_add
  have hne : keyB ≠ keyBs 2147483648 := by
    intro heq
    rw [← heq] at hlong
    exact absurd hlong (by decide)
  simp only [canon] at hout
  rw [Finmap.lookup_insert_of_ne _ hne, Finmap.lookup_insert] at hout
  cases hout

end Patricia

end Mowgli
