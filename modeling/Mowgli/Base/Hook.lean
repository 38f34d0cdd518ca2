import Mowgli.Base.Ctype
import Mowgli.Container.List.Move
import Mowgli.Container.Patricia.Map
/-!
# Hooks, as `base/hook.c` has them

The hooks are found by name in a patricia tree, that ignores case, and each has
a list of items on the heap. `mowgli_hook_call` goes on from an item after its
function was called, and the function may have given the item back by then:
what reads memory that was given back answers `none`.

The functions are parameters. What one does to the hooks is a list of requests,
by the calls that were made so far.
-/

namespace Mowgli

/-! ## The functions -/

/-- `mowgli_hook_item_t`. -/
structure HookItem where
  func : Option Addr
  userData : Option Addr
  node : MowgliNode

/-- `mowgli_hook_t`. -/
structure Hook where
  name : CString
  items : MowgliList

/-- `mowgli_hooks`, the hooks, the heap of their items, and the lines logged. -/
structure Hooks where
  hooks : Patricia Addr
  mem : Store Hook
  items : Store HookItem
  log : List LogLine

/-- A function is called. -/
structure Invocation where
  func : Addr
  hookData : Option Addr
  userData : Option Addr

/-- What a function may ask for. -/
inductive HookRequest
  | associate (name : CString) (func : Addr) (userData : Option Addr)
  | dissociate (name : CString) (func : Addr)

/-- What the functions ask for: the last one that was called, the calls being
those made so far. -/
abbrev HookFunctions : Type := List Invocation → List HookRequest

namespace Hooks

/-- The nodes of items. -/
def nodeField : NodeField HookItem := ⟨HookItem.node, fun x n => { x with node := n }, fun _ _ => rfl⟩

/-- `_hook_key_canon`. -/
def hookKeyCanon : CString → CString := CString.upper

/-- `mowgli_hook_bootstrap`. -/
def bootstrap : Hooks := ⟨Patricia.create (some hookKeyCanon), .empty, .empty, []⟩

variable (A : Allocator Hook) (B : Allocator HookItem) (P : Allocator (PatriciaElem Addr))

/-- `return_if_fail(exp)` with `exp` false. -/
def warn (s : Hooks) (exp : String) : Hooks := { s with log := s.log ++ [.returnIfFail exp] }

/-- `mowgli_hook_find`. -/
def find (s : Hooks) (name : CString) : Option (Option Addr) := s.hooks.retrieve name

/-- `mowgli_hook_register`. -/
def register (s : Hooks) (name : Option CString) : Option Hooks :=
  match name with
  | none => some (s.warn "name != NULL")
  | some name => do
    let hook ← s.find name
    if hook.isSome then some (s.warn "(hook = mowgli_hook_find(name)) == NULL")
    else do
      let hook ← A.pick s.mem
      let (_, hooks) ← s.hooks.add P name hook
      some { s with hooks := hooks, mem := s.mem.set hook ⟨name, .zero⟩ }

/-- `mowgli_node_add(hookitem, &hookitem->node, &hook->items)`, of a new item. -/
def addItem (s : Hooks) (hook : Addr) (func : Addr) (userData : Option Addr) : Option Hooks := do
  let x ← s.mem.get hook
  let hookitem ← B.pick s.items
  let items := s.items.set hookitem ⟨some func, userData, ⟨none, none, none⟩⟩
  let (items, l) ← nodeField.nodeAdd items (some hookitem) hookitem x.items
  some { s with items := items, mem := s.mem.set hook { x with items := l } }

/-- `mowgli_hook_associate`. -/
def associate (s : Hooks) (name : Option CString) (func : Option Addr) (userData : Option Addr) : Option (ℤ × Hooks) :=
  match name, func with
  | none, _ => some (-1, s.warn "name != NULL")
  | some _, none => some (-1, s.warn "func != NULL")
  | some name, some func => do
    let hook ← s.find name
    let s ← if hook.isNone then s.register A P (some name) else some s
    let hook ← s.find name
    match hook with
    | none => some (-1, s.warn "hook != NULL")
    | some hook => (s.addItem B hook func userData).map fun s => (0, s)

/-- The loop of `mowgli_hook_dissociate`: the item it finds. -/
def findItem (items : Store HookItem) (func : Addr) : ℕ → Option Addr → Option (Option Addr)
  | _, none => some none
  | 0, some _ => none
  | fuel + 1, some n => do
    let x ← items.get n
    let hookitem ← x.node.data
    let y ← items.get hookitem
    if y.func = some func then some (some hookitem) else findItem items func fuel x.node.next

/-- `mowgli_node_delete(&hookitem->node, &hook->items)`, and the item is freed. -/
def removeItem (s : Hooks) (hook hookitem : Addr) : Option Hooks := do
  let x ← s.mem.get hook
  let (items, l) ← nodeField.nodeDelete s.items hookitem x.items
  some { s with items := items.free hookitem, mem := s.mem.set hook { x with items := l } }

/-- `mowgli_hook_dissociate`. -/
def dissociate (s : Hooks) (name : Option CString) (func : Option Addr) : Option (ℤ × Hooks) :=
  match name, func with
  | none, _ => some (-1, s.warn "name != NULL")
  | some _, none => some (-1, s.warn "func != NULL")
  | some name, some func => do
    let hook ← s.find name
    match hook with
    | none => some (-1, s)
    | some hook => do
      let x ← s.mem.get hook
      let hookitem ← findItem s.items func s.items.live.card x.items.head
      match hookitem with
      | none => some (-1, s)
      | some hookitem => (s.removeItem hook hookitem).map fun s => (0, s)

/-- A request is met. -/
def request (s : Hooks) : HookRequest → Option Hooks
  | .associate name func userData => (s.associate A B P (some name) (some func) userData).map Prod.snd
  | .dissociate name func => (s.dissociate (some name) (some func)).map Prod.snd

/-- The loop of `mowgli_hook_call`, at the node `n`; `called` are the calls made. -/
def callLoop (act : HookFunctions) (hookData : Option Addr) :
    ℕ → Hooks → Option Addr → List Invocation → Option (List Invocation × Hooks)
  | _, s, none, called => some (called, s)
  | 0, _, some _, _ => none
  | fuel + 1, s, some n, called => do
    let x ← s.items.get n
    let hookitem ← x.node.data
    let y ← s.items.get hookitem
    match y.func with
    | none => some (called, s.warn "hookitem->func != NULL")
    | some func => do
      let called := called ++ [⟨func, hookData, y.userData⟩]
      let s ← (act called).foldlM (request A B P) s
      -- `n = n->next`, after the call
      let x ← s.items.get n
      callLoop act hookData fuel s x.node.next called

/-- `mowgli_hook_call`: the calls that were made. -/
def call (act : HookFunctions) (fuel : ℕ) (s : Hooks) (name : Option CString) (hookData : Option Addr) :
    Option (List Invocation × Hooks) :=
  match name with
  | none => some ([], s.warn "name != NULL")
  | some name => do
    let hook ← s.find name
    match hook with
    | none => some ([], s)
    | some hook => do
      let x ← s.mem.get hook
      callLoop A B P act hookData fuel s x.items.head []

/-! ## The lists of the hooks -/

/-- What an item holds, its node apart. -/
def info (x : HookItem) : Option Addr × Option Addr := (x.func, x.userData)

/-- The list of each hook. -/
def lists (s : Hooks) (hook : Addr) : MowgliList := ((s.mem.get hook).map Hook.items).getD .zero

/-- The hooks are those of the tree, and each has the items `S`. An item has the
function and the data `F`. -/
structure WellFormed (s : Hooks) (S : Addr → List Addr) (F : Addr → Addr × Option Addr) : Prop where
  tree : ∃ M, Patricia.Is (some hookKeyCanon) s.hooks M ∧ ∀ k e, M.lookup k = some e → e.2 ∈ s.mem.live
  lists : nodeField.HoldsAll s.items s.lists S
  info : ∀ h, ∀ a ∈ S h, (s.items.get a).map info = some (some (F a).1, (F a).2)
  data : ∀ h, ∀ a ∈ S h, nodeField.data s.items a = some (some a)

variable {A B P} {s s' : Hooks} {S : Addr → List Addr} {F : Addr → Addr × Option Addr} {name : CString}
variable {func hook a : Addr} {xs ys zs : List Addr}

theorem canonizes_hookKeyCanon : Patricia.Canonizes (some hookKeyCanon) where
  keepsLength := fun f hf k => by
    obtain rfl := Option.some.inj hf
    exact CString.length_upper k
  idem := fun f hf k => by
    obtain rfl := Option.some.inj hf
    exact CString.upper_upper k

theorem wellFormed_bootstrap : WellFormed bootstrap (fun _ => []) fun _ => (0, none) where
  tree := ⟨∅, Patricia.is_create _, fun k e h => by cases h⟩
  lists := ⟨fun _ => NodeField.holds_zero _, fun h => absurd h List.not_mem_nil⟩
  info := fun _ _ h => absurd h List.not_mem_nil
  data := fun _ _ h => absurd h List.not_mem_nil

/-- A name that fits an `int` is looked for. -/
theorem WellFormed.find (hs : WellFormed s S F) (hlen : name.length ≤ INT_MAX) :
    ∃ o, s.find name = some o ∧ ∀ h ∈ o, ∃ x, s.mem.get h = some x := by
  obtain ⟨M, hM, hlive⟩ := hs.tree
  refine ⟨_, (hM.lookups canonizes_hookKeyCanon hlen).2, fun h hh => ?_⟩
  obtain ⟨e, he, rfl⟩ := Option.map_eq_some_iff.1 hh
  exact Store.mem_live.1 (hlive _ e he)

theorem WellFormed.get (hs : WellFormed s S F) (ha : a ∈ S hook) :
    ∃ x, s.items.get a = some x ∧ x.func = some (F a).1 ∧ x.userData = (F a).2 ∧ x.node.data = some a := by
  obtain ⟨x, hx, hinfo⟩ := Option.map_eq_some_iff.1 (hs.info hook a ha)
  obtain ⟨y, hy, hdata⟩ := Option.map_eq_some_iff.1 (hs.data hook a ha)
  obtain rfl := Option.some.inj (hx.symm.trans hy)
  exact ⟨x, hx, congrArg Prod.fst hinfo, congrArg Prod.snd hinfo, hdata⟩

/-- A hook holds its items. -/
theorem WellFormed.holds (hs : WellFormed s S F) {x : Hook} (hx : s.mem.get hook = some x) :
    nodeField.Holds s.items x.items (S hook) := by
  have hlist : s.lists hook = x.items := by
    rw [Hooks.lists, hx]
    rfl
  rw [← hlist]
  exact hs.lists.holds hook

/-- An item has the function. -/
def runs (F : Addr → Addr × Option Addr) (func a : Addr) : Bool := (F a).1 = func

/-- The item that `mowgli_hook_dissociate` finds is the first that has the
function. -/
theorem findItem_spec {m : Store HookItem} {p hd tl : Option Addr} {fuel : ℕ}
    (hitem : ∀ a ∈ xs, ∃ x, m.get a = some x ∧ x.func = some (F a).1 ∧ x.node.data = some a)
    (h : (nodeField.links m).Seg p hd xs tl none) (hfuel : xs.length ≤ fuel) :
    findItem m func fuel hd = some (xs.find? (runs F func)) := by
  induction xs generalizing p hd fuel with
  | nil =>
    obtain ⟨rfl, -⟩ := h
    cases fuel <;> rfl
  | cons a xs ih =>
    obtain ⟨rfl, n, ha, h⟩ := h
    rw [List.length_cons] at hfuel
    obtain ⟨fuel, rfl⟩ : ∃ k, fuel = k + 1 := ⟨fuel - 1, by omega⟩
    obtain ⟨x, hx, hfunc, hdata⟩ := hitem a (List.mem_cons_self ..)
    obtain ⟨y, hy, -, rfl⟩ := NodeField.exists_of_links ha
    obtain rfl := Option.some.inj (hx.symm.trans hy)
    rw [findItem, hx]
    simp only [Option.bind_eq_bind, Option.bind_some, hdata, hx, hfunc, Option.some.injEq]
    by_cases hf : (F a).1 = func
    · rw [if_pos hf, List.find?_cons_of_pos (by simpa [runs] using hf)]
    · rw [if_neg hf, List.find?_cons_of_neg (by simpa [runs] using hf)]
      exact ih (fun b hb => hitem b (List.mem_cons_of_mem _ hb)) h (by omega)

theorem lists_set (x : Hook) (items : Store HookItem) (l : MowgliList) :
    ({ s with items := items, mem := s.mem.set hook { x with items := l } } : Hooks).lists =
      Function.update s.lists hook l := by
  funext h
  by_cases hh : h = hook
  · rw [hh, Function.update_self, Hooks.lists, Store.get_set_self]
    rfl
  · rw [Function.update_of_ne hh, Hooks.lists, Hooks.lists, Store.get_set_of_ne _ _ hh]

/-- **An item is taken from its list** and freed. -/
theorem WellFormed.removeItem (hs : WellFormed s S F) (hlive : hook ∈ s.mem.live) (hS : S hook = ys ++ a :: zs) :
    ∃ s', s.removeItem hook a = some s' ∧ s'.hooks = s.hooks ∧ WellFormed s' (Function.update S hook (ys ++ zs)) F ∧
      s'.items.live = s.items.live.erase a := by
  obtain ⟨x, hx⟩ := Store.mem_live.1 hlive
  have hholds := hs.holds hx
  rw [hS] at hholds
  obtain ⟨m, l, hrun, hout, hkeeps, hdata⟩ := hholds.nodeDelete
  have hnd := hholds.nodup
  rw [List.nodup_middle, List.nodup_cons] at hnd
  have ha : a ∈ S hook := by rw [hS]; simp
  have hsub : ∀ b ∈ ys ++ zs, b ∈ S hook := fun b hb => by
    rw [hS]
    rcases List.mem_append.1 hb with hb | hb <;> simp [hb]
  -- the items that stay are not the one that is freed
  have hne : ∀ h, ∀ b ∈ Function.update S hook (ys ++ zs) h, b ≠ a ∧ b ∈ S h := by
    intro h b hb
    by_cases hh : h = hook
    · subst hh
      rw [Function.update_self] at hb
      exact ⟨fun hba => hnd.1 (hba ▸ hb), hsub b hb⟩
    · rw [Function.update_of_ne hh] at hb
      exact ⟨fun hba => hh (hs.lists.disjoint (hba ▸ hb) ha), hb⟩
  refine ⟨{ s with items := m.free a, mem := s.mem.set hook { x with items := l } },
    by rw [Hooks.removeItem, hx, Option.bind_eq_bind, Option.bind_some, hrun]; rfl, rfl, ⟨?_, ?_, ?_, ?_⟩, ?_⟩
  · obtain ⟨M, hM, hlive⟩ := hs.tree
    exact ⟨M, hM, fun k e he => Store.mem_live_set.2 (Or.inr (hlive k e he))⟩
  · rw [lists_set x]
    have hfree : ∀ b ≠ a, nodeField.links (m.free a) b = nodeField.links m b := fun b hb => by
      rw [NodeField.links, NodeField.links, Store.get_free_of_ne _ hb]
    refine hs.lists.update (hout.congr fun b hb => hfree b fun hba => hnd.1 (hba ▸ hb))
      (fun b hb c hc => hs.lists.disjoint hc (hsub b hb)) fun c hc b hb => ?_
    have hbS : b ∉ S hook := fun hbS => hc (hs.lists.disjoint hb hbS)
    rw [hfree b fun hba => hbS (hba ▸ ha), hholds.nodeDelete_frame hrun fun hb => hbS (hsub b hb)]
  · intro h b hb
    obtain ⟨hba, hbS⟩ := hne h b hb
    rw [Store.get_free_of_ne _ hba, (hkeeps Hooks.info fun _ _ => rfl) b, hs.info h b hbS]
  · intro h b hb
    obtain ⟨hba, hbS⟩ := hne h b hb
    rw [NodeField.data, Store.get_free_of_ne _ hba]
    exact (congrFun hdata b).trans (hs.data h b hbS)
  · ext b
    rw [Store.mem_live_free, hkeeps.live, Finset.mem_erase]

/-- **A hook is registered** under a name that is not found. -/
theorem WellFormed.register (hA : A.NeverFails) (hP : P.NeverFails) (hs : WellFormed s S F) (hlen : name.length ≤ INT_MAX)
    (hfits : ∀ hook, (Patricia.Op.add name hook : Patricia.Op Addr Unit).Fits s.hooks) (hnone : s.find name = some none) :
    ∃ hook s', s.register A P (some name) = some s' ∧ s'.find name = some (some hook) ∧ hook ∈ s'.mem.live ∧
      WellFormed s' S F := by
  obtain ⟨hook, hpick⟩ := Option.isSome_iff_exists.1 (hA s.mem)
  obtain ⟨-, hpart, hroom⟩ := hfits hook
  obtain ⟨M, hM, hlive⟩ := hs.tree
  obtain ⟨out, d, M', hrun, hM', hspec⟩ : ∃ out d M', s.hooks.elemAdd P name hook = some (out, d) ∧
      Patricia.Is (some hookKeyCanon) d M' ∧ if name.upper ∈ M then out = none ∧ M' = M
        else ∃ a, (∀ k e, M.lookup k = some e → e.1 ≠ a) ∧ out = some a ∧ M' = M.insert name.upper (a, hook) :=
    hM.elemAdd hP canonizes_hookKeyCanon hlen hpart hroom
  have hmem : name.upper ∉ M := by
    have hlookup := (hM.lookups canonizes_hookKeyCanon hlen).2
    rw [show s.hooks.retrieve name = some none from hnone, Option.some.injEq] at hlookup
    exact Finmap.lookup_eq_none.1 (Option.map_eq_none_iff.1 hlookup.symm)
  rw [if_neg hmem] at hspec
  obtain ⟨a, -, -, rfl⟩ := hspec
  have hrun' : s.register A P (some name) = some { s with hooks := d, mem := s.mem.set hook ⟨name, .zero⟩ } := by
    rw [Hooks.register, hnone, Option.bind_eq_bind, Option.bind_some, if_neg (by simp), hpick]
    simp only [Option.bind_eq_bind, Option.bind_some, Patricia.add, hrun]
  refine ⟨hook, _, hrun', ?_, Store.mem_live_set.2 (Or.inl rfl), ⟨_, hM', fun k e he => ?_⟩, ?_, hs.info, hs.data⟩
  · refine (hM'.lookups canonizes_hookKeyCanon hlen).2.trans ?_
    rw [show Patricia.canon (some hookKeyCanon) name = name.upper from rfl, Finmap.lookup_insert]
    rfl
  · rw [Store.mem_live_set]
    by_cases hk : k = name.upper
    · rw [hk, Finmap.lookup_insert] at he
      exact Or.inl (congrArg Prod.snd (Option.some.inj he).symm)
    · rw [Finmap.lookup_insert_of_ne M hk] at he
      exact Or.inr (hlive k e he)
  · have hlists : ({ s with hooks := d, mem := s.mem.set hook ⟨name, .zero⟩ } : Hooks).lists = s.lists := by
      funext h
      by_cases hh : h = hook
      · rw [hh, Hooks.lists, Hooks.lists, Store.get_set_self, A.fresh hpick]
        rfl
      · rw [Hooks.lists, Hooks.lists, Store.get_set_of_ne _ _ hh]
    rw [hlists]
    exact hs.lists

/-- **An item is added** at the end of the list of a hook. -/
theorem WellFormed.addItem (hB : B.NeverFails) (hs : WellFormed s S F) (hlive : hook ∈ s.mem.live) (func : Addr)
    (userData : Option Addr) : ∃ a s', s.addItem B hook func userData = some s' ∧ s'.hooks = s.hooks ∧
      WellFormed s' (Function.update S hook (S hook ++ [a])) (Function.update F a (func, userData)) := by
  obtain ⟨x, hx⟩ := Store.mem_live.1 hlive
  obtain ⟨a, hpick⟩ := Option.isSome_iff_exists.1 (hB s.items)
  have hfresh := B.fresh hpick
  have hnot : ∀ h, a ∉ S h := fun h ha => by
    obtain ⟨y, hy, -⟩ := hs.get ha
    rw [hfresh] at hy
    cases hy
  let m := s.items.set a ⟨some func, userData, ⟨none, none, none⟩⟩
  have hkeep : ∀ b ≠ a, m.get b = s.items.get b := fun b hb => Store.get_set_of_ne _ _ hb
  have hlinks : ∀ b ≠ a, nodeField.links m b = nodeField.links s.items b := fun b hb => by
    rw [NodeField.links, NodeField.links, hkeep b hb]
  have hholds : nodeField.Holds m x.items (S hook) :=
    (hs.holds hx).congr fun b hb => hlinks b fun hba => hnot hook (hba ▸ hb)
  obtain ⟨m', l, hrun, hins⟩ := hholds.nodeAdd_inserts (some a) (Store.mem_live_set.2 (Or.inl rfl)) (hnot hook)
  have hmem : ∀ h, ∀ b ∈ Function.update S hook (S hook ++ [a]) h, b = a ∨ b ≠ a ∧ b ∈ S h := by
    intro h b hb
    by_cases hh : h = hook
    · subst hh
      rw [Function.update_self, List.mem_append, List.mem_singleton] at hb
      rcases hb with hb | hb
      · exact Or.inr ⟨fun hba => hnot h (hba ▸ hb), hb⟩
      · exact Or.inl hb
    · rw [Function.update_of_ne hh] at hb
      exact Or.inr ⟨fun hba => hnot h (hba ▸ hb), hb⟩
  refine ⟨a, { s with items := m', mem := s.mem.set hook { x with items := l } }, ?_, rfl, ⟨?_, ?_, ?_, ?_⟩⟩
  · rw [Hooks.addItem, hx]
    simp only [Option.bind_eq_bind, Option.bind_some, hpick]
    rw [show nodeField.nodeAdd (s.items.set a ⟨some func, userData, ⟨none, none, none⟩⟩) (some a) a x.items =
      some (m', l) from hrun, Option.bind_some]
  · obtain ⟨M, hM, hlive⟩ := hs.tree
    exact ⟨M, hM, fun k e he => Store.mem_live_set.2 (Or.inr (hlive k e he))⟩
  · rw [lists_set x]
    refine hs.lists.update hins.holds (fun b hb c hc => ?_) fun c hc b hb => ?_
    · rcases List.mem_append.1 hb with hb | hb
      · exact hs.lists.disjoint hc hb
      · exact absurd (List.mem_singleton.1 hb ▸ hc) (hnot c)
    · have hba : b ≠ a := fun hba => hnot c (hba ▸ hb)
      rw [hins.frame b (fun hbh => hc (hs.lists.disjoint hb hbh)) hba, hlinks b hba]
  · intro h b hb
    rw [(hins.keeps Hooks.info fun _ _ => rfl) b]
    rcases hmem h b hb with rfl | ⟨hba, hbS⟩
    · rw [Store.get_set_self, Function.update_self]
      rfl
    · rw [hkeep b hba, Function.update_of_ne hba, hs.info h b hbS]
  · intro h b hb
    rcases hmem h b hb with rfl | ⟨hba, hbS⟩
    · exact hins.data
    · rw [hins.data_other b hba, NodeField.data, hkeep b hba]
      exact hs.data h b hbS

/-- **A function is associated** with the hook of a name, which is registered if
there is none. -/
theorem WellFormed.associate (hA : A.NeverFails) (hB : B.NeverFails) (hP : P.NeverFails) (hs : WellFormed s S F)
    (hlen : name.length ≤ INT_MAX)
    (hfits : s.find name = some none → ∀ hook, (Patricia.Op.add name hook : Patricia.Op Addr Unit).Fits s.hooks)
    (func : Addr) (userData : Option Addr) :
    ∃ hook a s', s.associate A B P (some name) (some func) userData = some (0, s') ∧ s'.find name = some (some hook) ∧
      (∀ h, s.find name = some (some h) → hook = h) ∧
      WellFormed s' (Function.update S hook (S hook ++ [a])) (Function.update F a (func, userData)) := by
  obtain ⟨o, hfind, hlive⟩ := hs.find hlen
  rcases o with _ | hook
  · obtain ⟨hook, s₁, hreg, hfind₁, hlive₁, hs₁⟩ := hs.register hA hP hlen (hfits hfind) hfind
    obtain ⟨a, s', hadd, hhooks, hs'⟩ := hs₁.addItem hB hlive₁ func userData
    -- the name is looked for again, and found
    refine ⟨hook, a, s', ?_, ?_, fun h hh => by simp [hfind] at hh, hs'⟩
    · rw [Hooks.associate, hfind]
      simp only [Option.bind_eq_bind, Option.bind_some, Option.isNone_none, if_true, hreg, hfind₁, hadd, Option.map_some]
    · rw [Hooks.find, hhooks]
      exact hfind₁
  · obtain ⟨a, s', hadd, hhooks, hs'⟩ := hs.addItem hB (Store.mem_live.2 (hlive hook rfl)) func userData
    refine ⟨hook, a, s', ?_, ?_, fun h hh => Option.some.inj (Option.some.inj (hfind.symm.trans hh)), hs'⟩
    · rw [Hooks.associate, hfind]
      simp only [Option.bind_eq_bind, Option.bind_some, Option.isNone_some, if_false, Bool.false_eq_true, hfind, hadd,
        Option.map_some]
    · rw [Hooks.find, hhooks]
      exact hfind

/-! ## Functions that dissociate themselves -/

/-- The items when the first with the function is taken. -/
def leave (F : Addr → Addr × Option Addr) (func : Addr) (xs : List Addr) : List Addr := xs.eraseP (runs F func)

theorem WellFormed.congr {S' : Addr → List Addr} (hs : WellFormed s S F) (hS : ∀ h, S' h = S h) : WellFormed s S' F := by
  obtain rfl : S' = S := funext hS
  exact hs

/-- **A function is dissociated** from the hook of a name: the first item that
has it is freed. -/
theorem WellFormed.dissociate (hs : WellFormed s S F) (hlen : name.length ≤ INT_MAX) (func : Addr) :
    ∃ o k s', s.find name = some o ∧ s.dissociate (some name) (some func) = some (k, s') ∧ s'.hooks = s.hooks ∧
      s'.items.live ⊆ s.items.live ∧ WellFormed s' (fun h => if o = some h then leave F func (S h) else S h) F ∧
      ∀ h, o = some h → ∀ a ∈ S h, a ∉ leave F func (S h) → a ∉ s'.items.live := by
  obtain ⟨o, hfind, hlive⟩ := hs.find hlen
  rcases o with _ | hook
  · exact ⟨none, -1, s, hfind, by rw [Hooks.dissociate, hfind]; rfl, rfl, subset_rfl, hs.congr fun h => by simp, by simp⟩
  obtain ⟨x, hx⟩ := hlive hook rfl
  have hholds := hs.holds hx
  have hitem : findItem s.items func s.items.live.card x.items.head = some ((S hook).find? (runs F func)) :=
    findItem_spec (fun a ha => by obtain ⟨x, hx, hf, -, hd⟩ := hs.get ha; exact ⟨x, hx, hf, hd⟩) hholds.dll hholds.length_le
  have hrun : s.dissociate (some name) (some func) =
      ((S hook).find? (runs F func)).elim (some (-1, s)) fun a => (s.removeItem hook a).map fun s => (0, s) := by
    rw [Hooks.dissociate, hfind]
    simp only [Option.bind_eq_bind, Option.bind_some, hx, hitem]
    cases (S hook).find? (runs F func) <;> rfl
  rcases List.exists_or_eq_self_of_eraseP (runs F func) (S hook) with hself | ⟨a, ys, zs, hys, ha, hS, herase⟩
  -- no item has the function
  · have hnone : (S hook).find? (runs F func) = none := List.find?_eq_none.2 (List.eraseP_eq_self_iff.1 hself)
    refine ⟨some hook, -1, s, hfind, by rw [hrun, hnone]; rfl, rfl, subset_rfl, hs.congr fun h => ?_, ?_⟩
    · split_ifs with hh
      · rw [← Option.some.inj hh, leave, hself]
      · rfl
    · rintro h hh a ha hout
      rw [← Option.some.inj hh] at ha hout
      exact absurd (by rw [leave, hself]; exact ha) hout
  · have hsome : (S hook).find? (runs F func) = some a := by
      rw [hS, List.find?_append, List.find?_eq_none.2 hys, Option.none_or, List.find?_cons_of_pos ha]
    obtain ⟨s', hremove, hhooks, hs', hlive'⟩ := hs.removeItem (Store.mem_live.2 ⟨x, hx⟩) hS
    refine ⟨some hook, 0, s', hfind, by rw [hrun, hsome, Option.elim_some, hremove]; rfl, hhooks, ?_, hs'.congr fun h => ?_, ?_⟩
    · rw [hlive']
      exact Finset.erase_subset _ _
    · by_cases hh : h = hook
      · rw [hh, Function.update_self, if_pos rfl, leave, herase]
      · rw [Function.update_of_ne hh, if_neg fun h => hh (Option.some.inj h).symm]
    · rintro h hh b hb hout
      rw [← Option.some.inj hh, hS] at hb
      rw [← Option.some.inj hh, leave, herase, List.mem_append, not_or] at hout
      obtain rfl : b = a := by
        rcases List.mem_append.1 hb with hb | hb
        · exact absurd hb hout.1
        · exact (List.mem_cons.1 hb).resolve_right hout.2
      rw [hlive']
      exact Finset.notMem_erase _ _

/-! Taking items from the front part of a list leaves the rest of it. -/

theorem countP_leave (func g : Addr) (h : ∃ a ∈ xs, runs F func a) :
    (leave F func xs).countP (runs F g) + (if func = g then 1 else 0) = xs.countP (runs F g) := by
  obtain ⟨b, hb, hrun⟩ := h
  obtain ⟨a, l₁, l₂, -, ha, rfl, herase⟩ := List.exists_of_eraseP hb hrun
  obtain rfl : (F a).1 = func := by simpa [runs] using ha
  rw [leave, herase, List.countP_append, List.countP_append, List.countP_cons, Nat.add_assoc]
  simp [runs]

theorem leave_append (h : ∃ a ∈ ys, runs F func a) (zs : List Addr) : leave F func (ys ++ zs) = leave F func ys ++ zs := by
  obtain ⟨a, ha, hrun⟩ := h
  exact List.eraseP_append_left hrun zs ha

theorem iterate_leave_append (F : Addr → Addr × Option Addr) (func : Addr) {m : ℕ} (ys zs : List Addr)
    (h : m ≤ ys.countP (runs F func)) :
    (leave F func)^[m] (ys ++ zs) = (leave F func)^[m] ys ++ zs ∧
      ∀ g, ((leave F func)^[m] ys).countP (runs F g) + (if func = g then m else 0) = ys.countP (runs F g) := by
  induction m generalizing ys with
  | zero => simp
  | succ m ih =>
    have hex : ∃ a ∈ ys, runs F func a := List.countP_pos_iff.1 (by omega)
    have hcount := countP_leave func func hex
    rw [if_pos rfl] at hcount
    obtain ⟨happ, hg⟩ := ih (leave F func ys) (by omega)
    rw [Function.iterate_succ_apply, leave_append hex, happ, Function.iterate_succ_apply]
    refine ⟨rfl, fun g => ?_⟩
    have hg := hg g
    have hleave := countP_leave func g hex
    split_ifs at hg hleave ⊢ <;> omega

/-- An item is taken if it is next and the items before it are not enough. -/
theorem iterate_leave_gone {m : ℕ} (ha : runs F func a) (h : ys.countP (runs F func) < m) (hnd : (ys ++ a :: zs).Nodup) :
    a ∉ (leave F func)^[m] (ys ++ a :: zs) := by
  obtain ⟨k, rfl⟩ : ∃ k, m = k + 1 + ys.countP (runs F func) := ⟨m - ys.countP (runs F func) - 1, by omega⟩
  -- first those before it are taken, and it is the next one
  obtain ⟨happ, hg⟩ := iterate_leave_append F func ys (a :: zs) le_rfl
  have hg := hg func
  rw [if_pos rfl] at hg
  have hnone : ∀ b ∈ (leave F func)^[ys.countP (runs F func)] ys, ¬ runs F func b := List.countP_eq_zero.1 (by omega)
  have hsub : ∀ (n : ℕ) (l : List Addr), (leave F func)^[n] l ⊆ l := by
    intro n
    induction n with
    | zero => exact fun l => List.Subset.refl l
    | succ n ih =>
      intro l
      rw [Function.iterate_succ_apply]
      exact List.Subset.trans (ih _) List.eraseP_subset
  rw [Function.iterate_add_apply, happ, Function.iterate_succ_apply, leave, List.eraseP_append_right _ hnone,
    List.eraseP_cons_of_pos ha]
  intro hmem
  rw [List.nodup_middle, List.nodup_cons, List.mem_append, not_or] at hnd
  rcases List.mem_append.1 (hsub _ _ hmem) with hmem | hmem
  · exact hnd.1.1 (hsub _ _ hmem)
  · exact hnd.1.2 hmem

end Hooks

/-- A request takes an item from a hook. -/
def HookRequest.leaves (hooks : Patricia Addr) (hook : Addr) : HookRequest → Bool
  | .associate .. => false
  | .dissociate name _ => hooks.retrieve name = some (some hook)

/-- All that is asked for is that a function be dissociated. -/
def HookRequest.Only (func : Addr) (r : HookRequest) : Prop := ∃ name : CString, name.length ≤ INT_MAX ∧ r = .dissociate name func

namespace Hooks

/-- **The requests** of a function that dissociates itself are met. -/
theorem WellFormed.requests (hs : WellFormed s S F) {rs : List HookRequest} (hrs : ∀ r ∈ rs, r.Only func) :
    ∃ s', rs.foldlM (request A B P) s = some s' ∧ s'.hooks = s.hooks ∧ s'.items.live ⊆ s.items.live ∧
      WellFormed s' (fun h => (leave F func)^[rs.countP (HookRequest.leaves s.hooks h)] (S h)) F ∧
      ∀ h, ∀ a ∈ S h, a ∉ (leave F func)^[rs.countP (HookRequest.leaves s.hooks h)] (S h) → a ∉ s'.items.live := by
  induction rs generalizing s S with
  | nil => exact ⟨s, rfl, rfl, subset_rfl, hs, fun h a ha hout => absurd ha hout⟩
  | cons r rs ih =>
    obtain ⟨⟨name, hlen, rfl⟩, hrest⟩ := List.forall_mem_cons.1 hrs
    obtain ⟨o, k, s₁, hfind, hrun, hhooks, hlive, hs₁, hgone⟩ := hs.dissociate hlen func
    obtain ⟨s', hrun', hhooks', hlive', hs', hgone'⟩ := ih hs₁ hrest
    have hleaves : ∀ h, HookRequest.leaves s.hooks h (.dissociate name func) = decide (o = some h) := by
      intro h
      rw [HookRequest.leaves, show s.hooks.retrieve name = some o from hfind]
      simp
    have hiter : ∀ h, (leave F func)^[(HookRequest.dissociate name func :: rs).countP (HookRequest.leaves s.hooks h)] (S h) =
        (leave F func)^[rs.countP (HookRequest.leaves s₁.hooks h)] (if o = some h then leave F func (S h) else S h) := by
      intro h
      rw [List.countP_cons, hleaves, hhooks]
      by_cases ho : o = some h
      · simp [ho]
      · simp [ho]
    refine ⟨s', ?_, hhooks'.trans hhooks, hlive'.trans hlive, hs'.congr hiter, fun h a ha hout => ?_⟩
    · rw [List.foldlM_cons, request, hrun]
      exact hrun'
    · rw [hiter] at hout
      by_cases hmem : a ∈ (if o = some h then leave F func (S h) else S h)
      · exact hgone' h a hmem hout
      · by_cases ho : o = some h
        · rw [if_pos ho] at hmem
          exact fun hl => hgone h ho a ha hmem (hlive' hl)
        · rw [if_neg ho] at hmem
          exact absurd ha hmem

/-! ## A call of a hook -/

variable {act : HookFunctions} {hookData : Option Addr} {called past : List Invocation} {fuel : ℕ}

/-- The call of an item. -/
def invocation (F : Addr → Addr × Option Addr) (hookData : Option Addr) (a : Addr) : Invocation :=
  ⟨(F a).1, hookData, (F a).2⟩

/-- How often a function has taken an item from the hook in the calls that come
after others. -/
def taken (hooks : Patricia Addr) (hook : Addr) (act : HookFunctions) (func : Addr) : List Invocation → List Invocation → ℕ
  | _, [] => 0
  | past, i :: later => (if i.func = func then (act (past ++ [i])).countP (HookRequest.leaves hooks hook) else 0) +
      taken hooks hook act func (past ++ [i]) later

/-- Functions that may dissociate themselves. -/
def OnlyThemselves (act : HookFunctions) : Prop := ∀ past i, ∀ r ∈ act (past ++ [i]), r.Only i.func

theorem taken_append (hooks : Patricia Addr) (hook : Addr) (act : HookFunctions) (func : Addr) (past l : List Invocation)
    (i : Invocation) :
    taken hooks hook act func past (l ++ [i]) = taken hooks hook act func past l +
      if i.func = func then (act (past ++ l ++ [i])).countP (HookRequest.leaves hooks hook) else 0 := by
  induction l generalizing past with
  | nil => simp [taken]
  | cons j l ih =>
    rw [List.cons_append, taken, taken, ih, Nat.add_assoc]
    simp

/-- The items that functions have taken are of those whose call was made. -/
def Balanced (hooks : Patricia Addr) (hook : Addr) (act : HookFunctions) (F : Addr → Addr × Option Addr) (ys : List Addr)
    (called : List Invocation) : Prop :=
  ∀ f, ys.countP (runs F f) + taken hooks hook act f [] called = called.countP fun i => i.func = f

/-- A function is called for the item `a`, and takes items that come before it. -/
theorem Balanced.call {hooks : Patricia Addr} (h : Balanced hooks hook act F ys called)
    (hys : ∀ g, zs.countP (runs F g) + (if (F a).1 = g then
      (act (called ++ [invocation F hookData a])).countP (HookRequest.leaves hooks hook) else 0) = ys.countP (runs F g)) :
    Balanced hooks hook act F (zs ++ [a]) (called ++ [invocation F hookData a]) := by
  intro f
  have hf := h f
  have hg := hys f
  have hrun : runs F f a = decide ((F a).1 = f) := rfl
  have hfunc : (invocation F hookData a).func = (F a).1 := rfl
  rw [taken_append, List.nil_append, List.countP_append, List.countP_append, List.countP_singleton, List.countP_singleton,
    hrun, hfunc]
  by_cases hfa : (F a).1 = f
  · rw [if_pos hfa] at hg
    simp only [hfa, decide_true, if_true]
    omega
  · rw [if_neg hfa] at hg
    simp only [hfa, decide_false, if_false, Bool.false_eq_true]
    omega

/-- The functions stay: after each call, the function has not taken more items
than it was called before. -/
def Stays (hooks : Patricia Addr) (hook : Addr) (act : HookFunctions) (called todo : List Invocation) : Prop :=
  ∀ past i later, todo = past ++ i :: later →
    taken hooks hook act i.func [] (called ++ past ++ [i]) ≤ (called ++ past).countP fun j => j.func = i.func

theorem stays_cons {hooks : Patricia Addr} {todo : List Invocation} {i : Invocation} :
    Stays hooks hook act called (i :: todo) ↔
      (taken hooks hook act i.func [] (called ++ [i]) ≤ called.countP fun j => j.func = i.func) ∧
        Stays hooks hook act (called ++ [i]) todo := by
  constructor
  · intro h
    refine ⟨by simpa using h [] i todo rfl, fun past j later hj => ?_⟩
    have hstay := h (i :: past) j later (by rw [hj]; rfl)
    simpa using hstay
  · rintro ⟨hi, h⟩ past j later hj
    rcases past with _ | ⟨i', past⟩
    · obtain ⟨rfl, rfl⟩ := List.cons.inj hj
      simpa using hi
    · obtain ⟨rfl, rfl⟩ := List.cons.inj hj
      simpa using h past j later rfl

/-- **The loop** makes the calls that are left, exactly if the functions stay. The
items of the hook are `ys`, of those that were called and are still there, and
`zs`. -/
theorem callLoop_iff (hs : WellFormed s S F) (hS : S hook = ys ++ zs)
    (hcount : Balanced s.hooks hook act F ys called) (hact : OnlyThemselves act) (hfuel : zs.length ≤ fuel) :
    (∃ s', callLoop A B P act hookData fuel s zs.head? called =
        some (called ++ zs.map (invocation F hookData), s')) ↔
      Stays s.hooks hook act called (zs.map (invocation F hookData)) := by
  induction zs generalizing fuel s S ys called with
  | nil =>
    refine iff_of_true ⟨s, ?_⟩ fun past i later h => by simp at h
    cases fuel <;> simp [callLoop]
  | cons a zs ih =>
    rw [List.length_cons] at hfuel
    obtain ⟨fuel, rfl⟩ : ∃ k, fuel = k + 1 := ⟨fuel - 1, by omega⟩
    have ha : a ∈ S hook := by rw [hS]; simp
    obtain ⟨x, hx, hfunc, huser, hdata⟩ := hs.get ha
    obtain ⟨s', hrun, hhooks, hlive', hs', hgone⟩ := hs.requests (A := A) (B := B) (P := P)
      (hact called (invocation F hookData a))
    have hcall : callLoop A B P act hookData (fuel + 1) s (some a) called =
        (s'.items.get a).bind fun x =>
          callLoop A B P act hookData fuel s' x.node.next (called ++ [invocation F hookData a]) := by
      rw [callLoop, hx]
      simp only [Option.bind_eq_bind, Option.bind_some, hdata, hx, hfunc, huser]
      rw [show (⟨(F a).1, hookData, (F a).2⟩ : Invocation) = invocation F hookData a from rfl, hrun, Option.bind_some]
    have htaken := taken_append s.hooks hook act (F a).1 [] called (invocation F hookData a)
    rw [List.nil_append, if_pos (show (invocation F hookData a).func = (F a).1 from rfl)] at htaken
    have hbal := hcount (F a).1
    generalize hm : (act (called ++ [invocation F hookData a])).countP (HookRequest.leaves s.hooks hook) = m at htaken
    have hfirst : taken s.hooks hook act (invocation F hookData a).func [] (called ++ [invocation F hookData a]) ≤
        (called.countP fun j => j.func = (invocation F hookData a).func) ↔ m ≤ ys.countP (runs F (F a).1) := by
      rw [show (invocation F hookData a).func = (F a).1 from rfl, htaken]
      omega
    rw [List.head?_cons, hcall, List.map_cons, stays_cons, hfirst]
    by_cases hroom : m ≤ ys.countP (runs F (F a).1)
    swap
    · -- the item at `n` is freed, and `n->next` read
      have hnd := (hs.lists.holds hook).nodup
      rw [hS] at hnd
      have hout := iterate_leave_gone (show runs F (F a).1 a from decide_eq_true rfl) (Nat.lt_of_not_le hroom) hnd
      have hfreed := hgone hook a ha (by rw [hm, hS]; exact hout)
      rw [Store.get_eq_none.2 hfreed]
      exact iff_of_false (fun ⟨_, h⟩ => nomatch h) fun h => hroom h.1
    -- the items that are taken are before `n`
    obtain ⟨happ, hcounts⟩ := iterate_leave_append F (F a).1 ys (a :: zs) hroom
    have hS' : (leave F (F a).1)^[m] (S hook) = (leave F (F a).1)^[m] ys ++ a :: zs := by rw [hS, happ]
    have hholds := hs'.lists.holds hook
    simp only [show (invocation F hookData a).func = (F a).1 from rfl, hm, hS'] at hholds
    obtain ⟨x', hx', hnext⟩ := hholds.next_eq
    have hbalanced : Balanced s'.hooks hook act F ((leave F (F a).1)^[m] ys ++ [a]) (called ++ [invocation F hookData a]) :=
      hhooks ▸ hcount.call (by rw [hm]; exact hcounts)
    have hloop := ih (S := fun h => (leave F (F a).1)^[(act (called ++ [invocation F hookData a])).countP
      (HookRequest.leaves s.hooks h)] (S h)) hs' (by rw [hm, hS', List.append_assoc]; rfl) hbalanced
      (show zs.length ≤ fuel by omega)
    rw [hx', Option.bind_some, show x'.node.next = zs.head? from hnext, ← hhooks, ← hloop, List.append_assoc]
    exact (and_iff_right hroom).symm

/-- **A call of a hook** calls each function that is associated with it, once
and in their order, and reads no item that was freed, exactly if the functions
stay: none takes more items than it was called before. -/
theorem call_iff (A : Allocator Hook) (B : Allocator HookItem) (P : Allocator (PatriciaElem Addr)) {act : HookFunctions}
    {s : Hooks} {S : Addr → List Addr} {F : Addr → Addr × Option Addr} {name : CString} {hook : Addr}
    (hs : WellFormed s S F) (hlen : name.length ≤ INT_MAX) (hname : s.find name = some (some hook))
    (hact : OnlyThemselves act) (hookData : Option Addr) {fuel : ℕ} (hfuel : (S hook).length ≤ fuel) :
    (∃ s', call A B P act fuel s (some name) hookData = some ((S hook).map (invocation F hookData), s')) ↔
      Stays s.hooks hook act [] ((S hook).map (invocation F hookData)) := by
  obtain ⟨o, hfind, hlive⟩ := hs.find hlen
  obtain rfl := Option.some.inj (hname.symm.trans hfind)
  obtain ⟨x, hx⟩ := hlive hook rfl
  rw [call, hname]
  simp only [Option.bind_eq_bind, Option.bind_some, hx, (hs.holds hx).head_eq]
  exact callLoop_iff hs (show S hook = [] ++ S hook from rfl) (fun f => rfl) hact hfuel

/-- The function of the second call dissociates itself from the hook "a". -/
def secondLeaves : HookFunctions := fun called =>
  if called.length = 2 then called.getLast?.elim [] fun i => [.dissociate Patricia.keyA i.func] else []

/-- A function that is associated twice is called twice, and dissociates itself
in its second call: the item of the first is the one that is freed. -/
theorem call_iff_twice : ∃ s₁ s₂ s₃,
    bootstrap.associate .bump .bump .bump (some Patricia.keyA) (some 1) none = some (0, s₁) ∧
      s₁.associate .bump .bump .bump (some Patricia.keyA) (some 1) none = some (0, s₂) ∧
      call .bump .bump .bump secondLeaves 2 s₂ (some Patricia.keyA) none =
        some ([⟨1, none, none⟩, ⟨1, none, none⟩], s₃) := by
  have hlen : Patricia.keyA.length ≤ INT_MAX := by decide
  obtain ⟨hook, a, s₁, hrun₁, hfind₁, -, hs₁⟩ := wellFormed_bootstrap.associate (A := .bump) (B := .bump) (P := .bump)
    Allocator.bump_neverFails Allocator.bump_neverFails Allocator.bump_neverFails hlen
    (fun _ hook => ⟨hlen, fun a l h => (nomatch h), by decide⟩) 1 none
  obtain ⟨hook, b, s₂, hrun₂, hfind₂, hsame, hs₂⟩ := hs₁.associate (A := .bump) (B := .bump) (P := .bump)
    Allocator.bump_neverFails Allocator.bump_neverFails Allocator.bump_neverFails hlen
    (fun hnone => absurd (hfind₁.symm.trans hnone) (by simp)) 1 none
  obtain rfl := hsame _ hfind₁
  rw [Function.update_self, Function.update_idem] at hs₂
  have hself : OnlyThemselves secondLeaves := by
    intro past i r hr
    refine ⟨Patricia.keyA, hlen, ?_⟩
    rw [secondLeaves] at hr
    split_ifs at hr
    · rw [List.getLast?_concat] at hr
      exact List.mem_singleton.1 hr
    · cases hr
  have hS : Function.update (fun _ => []) hook ([] ++ [a] ++ [b]) hook = [a, b] := Function.update_self ..
  have hcalls : [a, b].map (invocation (Function.update (Function.update (fun _ => (0, none)) a (1, none)) b (1, none)) none) =
      [⟨1, none, none⟩, ⟨1, none, none⟩] := by
    simp [invocation, Function.update_apply]
  obtain ⟨s₃, hcall⟩ := (call_iff .bump .bump .bump hs₂ hlen hfind₂ hself none
    (show (Function.update (fun _ => []) hook ([] ++ [a] ++ [b]) hook).length ≤ 2 by rw [hS]; exact le_rfl)).2 (by
    rw [hS, hcalls, stays_cons, stays_cons]
    refine ⟨Nat.zero_le 0, ?_, fun past i later h => by simp at h⟩
    -- one item is taken, in the second call
    have hone : ∀ rs : List HookRequest, rs.length ≤ 1 → 0 + (rs.countP (HookRequest.leaves s₂.hooks hook) + 0) ≤ 1 :=
      fun rs hrs => by have := List.countP_le_length (p := HookRequest.leaves s₂.hooks hook) (l := rs); omega
    exact hone [.dissociate Patricia.keyA 1] le_rfl)
  rw [hS, hcalls] at hcall
  exact ⟨s₁, s₂, s₃, hrun₁, hrun₂, hcall⟩

/-- Each function dissociates itself from the hook "a". -/
def leavers : HookFunctions := fun called => called.getLast?.elim [] fun i => [.dissociate Patricia.keyA i.func]

/-- **A function that dissociates itself ends the call**: of two, each of which
does, the second is not called, the item of the first being read after it was
freed. -/
theorem leaving_ends_call : OnlyThemselves leavers ∧ ∃ s₁ s₂,
    bootstrap.associate .bump .bump .bump (some Patricia.keyA) (some 1) none = some (0, s₁) ∧
      s₁.associate .bump .bump .bump (some Patricia.keyA) (some 2) none = some (0, s₂) ∧
      (∃ s', call .bump .bump .bump (fun _ => []) 2 s₂ (some Patricia.keyA) none =
        some ([⟨1, none, none⟩, ⟨2, none, none⟩], s')) ∧
      ∀ fuel, call .bump .bump .bump leavers fuel s₂ (some Patricia.keyA) none = none := by
  refine ⟨fun past i r hr => ⟨Patricia.keyA, by decide, ?_⟩, _, _, rfl, rfl, ⟨_, rfl⟩, fun fuel => ?_⟩
  · rw [leavers, List.getLast?_concat] at hr
    exact List.mem_singleton.1 hr
  · cases fuel <;> rfl

end Hooks

end Mowgli
