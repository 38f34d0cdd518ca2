import Mowgli.Container.Dictionary.Map
/-!
# Iterating over a dictionary with a cursor

The cursor is at one element and knows the next. Lookups turn the tree
around it, and the element it is at may be deleted, but the list only
changes where an element is taken out: what comes after the cursor stays,
and the next element is still the next one.
-/

namespace Mowgli

namespace Dictionary

open Store BinTree Links

variable {K D : Type}

/-- `mowgli_dictionary_iteration_state_t`. -/
structure IterationState where
  cur : Option Addr
  next : Option Addr

/-- `mowgli_dictionary_foreach_next`. -/
def foreachNext (d : Dictionary K D) (state : IterationState) :
    Option (Dictionary K D × IterationState) :=
  match state.cur with
  | none => some ({ d with log := d.log ++ [.message
      "mowgli_dictionary_foreach_next(): called again after iteration finished on dtree<%p>"] }, state)
  | some _ =>
    match state.next with
    | none => some (d, { state with cur := none })
    | some next => (d.mem.get next).map fun e => (d, { cur := some next, next := e.next })

/-- `mowgli_dictionary_foreach_start`. -/
def foreachStart (d : Dictionary K D) : Option (Dictionary K D × IterationState) :=
  match d.head with
  | none => some (d, { cur := none, next := none })
  | some cur => d.foreachNext { cur := some cur, next := some cur }

/-- `mowgli_dictionary_foreach_cur`. -/
def foreachCur (d : Dictionary K D) (state : IterationState) : Option (Option D) :=
  match state.cur with
  | none => some none
  | some cur => (d.mem.get cur).map fun e => some e.data

/-! ## What may be done during an iteration -/

/-- A step of a loop over a dictionary: a lookup, the deletion of the element
the cursor is at, or the step to the next one. -/
inductive Act (K : Type)
  | find (key : K)
  | retrieve (key : K)
  | getLinearIndex (key : K)
  | deleteCur
  | foreachNext

/-- Delete the element the cursor is at, by its key. -/
def deleteCur (d : Dictionary K D) (state : IterationState) : Option (Dictionary K D) := do
  let cur ← state.cur
  let e ← d.mem.get cur
  let (_, d) ← d.delete e.key
  some d

/-- Take a step. -/
def Act.run : Dictionary K D × IterationState → Act K → Option (Unit × (Dictionary K D × IterationState))
  | (d, state), .find key => (d.find key).map fun (_, d) => ((), d, state)
  | (d, state), .retrieve key => (d.retrieve key).map fun (_, d) => ((), d, state)
  | (d, state), .getLinearIndex key => (d.getLinearIndex key).map fun (_, d) => ((), d, state)
  | (d, state), .deleteCur => (d.deleteCur state).map fun d => ((), d, state)
  | (d, state), .foreachNext => (d.foreachNext state).map fun s => ((), s)

/-- What a loop may do: go on while the cursor is at an element, delete that
element once, and number no more elements than an `int` counts. -/
def Act.Allowed : Dictionary K D × IterationState → Act K → Prop
  | _, .find _ | _, .retrieve _ => True
  | (d, _), .getLinearIndex _ => d.mem.live.card ≤ INT_MAX
  | (d, state), .deleteCur => ∃ cur, state.cur = some cur ∧ cur ∈ d.mem.live
  | (_, state), .foreachNext => state.cur.isSome

instance : ∀ (s : Dictionary K D × IterationState) (act : Act K), Decidable (act.Allowed s)
  | _, .find _ | _, .retrieve _ => inferInstanceAs (Decidable True)
  | (d, _), .getLinearIndex _ => inferInstanceAs (Decidable (d.mem.live.card ≤ INT_MAX))
  | (d, state), .deleteCur => inferInstanceAs (Decidable (∃ cur ∈ state.cur, cur ∈ d.mem.live))
  | (_, state), .foreachNext => inferInstanceAs (Decidable (state.cur.isSome = true))

/-- How far a step gets: the steps to the next element, and whether the
element the cursor is at has been deleted. -/
def Act.progress (p : ℕ × Bool) : Act K → ℕ × Bool
  | .find _ | .retrieve _ | .getLinearIndex _ => p
  | .deleteCur => (p.1, true)
  | .foreachNext => (p.1 + 1, false)

/-- How far some steps get. -/
def progress (acts : List (Act K × Unit)) : ℕ × Bool :=
  acts.foldl (fun p act => act.1.progress p) (0, false)

/-! ## Where the cursor is -/

variable {C : Comparator K} {d d' : Dictionary K D} {t : DTree K D} {items : List (Item Addr K D)}
variable {log : List LogLine} {state : IterationState} {p : ℕ × Bool}

/-- What the list says of an element. -/
theorem Inv.get (h : Inv C d t) {l r : List (Item Addr K D)} {x : Item Addr K D}
    (hin : t.inorder = l ++ x :: r) :
    ∃ e, d.mem.get x.cell = some e ∧ e.key = x.key ∧ e.data = x.data ∧ e.next = r.head?.map Item.cell := by
  obtain ⟨e, he, hkey, hdata⟩ := exists_of_contents (h.holds.contents x (by rw [hin]; simp))
  have hthr := h.threaded
  rw [hin, List.map_append, List.map_cons] at hthr
  obtain ⟨q, m, -, -, n, hx, hr⟩ := seg_append.1 hthr
  obtain ⟨e', he', -, hnext⟩ := exists_of_threads hx
  obtain rfl := Option.some.inj (he.symm.trans he')
  exact ⟨e, he, hkey, hdata, by rw [hnext, hr.hd_eq, List.head?_map]⟩

/-- **Where the cursor is** after `p.1` steps over `items`: at that item, of
which the list still has it, if it was not deleted, and all after it. -/
structure At (C : Comparator K) (items : List (Item Addr K D)) (log : List LogLine)
    (d : Dictionary K D) (state : IterationState) (p : ℕ × Bool) : Prop where
  quiet : d.log = log
  place : ∃ t, Inv C d t ∧
    ((items.length = p.1 ∧ p.2 = false ∧ state.cur = none) ∨
      ∃ pre x rest kept, items = pre ++ x :: rest ∧ pre.length = p.1 ∧ state.cur = some x.cell ∧
        state.next = rest.head?.map Item.cell ∧
        t.inorder = kept ++ (if p.2 then rest else x :: rest) ∧
        (p.2 → ∀ y ∈ t.inorder, y.cell ≠ x.cell))

/-- At the start the cursor is at the first element. -/
theorem Inv.foreachStart (h : Inv C d t) :
    ∃ state, d.foreachStart = some (d, state) ∧ At C t.inorder d.log d state (0, false) := by
  have hhead : d.head = (t.inorder.map Item.cell).head? := Seg.hd_eq h.threaded
  rw [List.head?_map] at hhead
  rcases hin : t.inorder with - | ⟨x, rest⟩
  · rw [hin] at hhead
    exact ⟨⟨none, none⟩, by rw [Dictionary.foreachStart, hhead]; rfl, rfl, t, h, Or.inl ⟨rfl, rfl, rfl⟩⟩
  · rw [hin] at hhead
    obtain ⟨e, he, -, -, hnext⟩ := h.get (l := []) hin
    refine ⟨⟨some x.cell, rest.head?.map Item.cell⟩, ?_, rfl, t, h,
      Or.inr ⟨[], x, rest, [], rfl, rfl, rfl, rfl, by simpa using hin, by simp⟩⟩
    rw [Dictionary.foreachStart, hhead]
    simp only [List.head?_cons, Option.map_some, Dictionary.foreachNext, he, hnext]

/-- The tree may be another, the elements and the log are the same. -/
def Keeps (C : Comparator K) (t : DTree K D) (d d' : Dictionary K D) : Prop :=
  ∃ t', Inv C d' t' ∧ t'.inorder = t.inorder ∧ d'.log = d.log

theorem Inv.find_keeps (h : Inv C d t) (key : K) :
    ∃ out d', d.find key = some (out, d') ∧ Keeps C t d d' := by
  obtain ⟨m, root, t', ht', hin, ⟨l, x, r, -, -, hfind⟩ | ⟨-, hfind⟩⟩ := h.find key
  · exact ⟨_, _, hfind, t', ht', hin, rfl⟩
  · exact ⟨_, _, hfind, t', ht', hin, rfl⟩

theorem Inv.retrieve_keeps (h : Inv C d t) (key : K) :
    ∃ out d', d.retrieve key = some (out, d') ∧ Keeps C t d d' := by
  obtain ⟨m, root, t', ht', hin, ⟨l, x, r, rfl, -, hfind⟩ | ⟨-, hfind⟩⟩ := h.find key
  · obtain ⟨e, he, -, -⟩ := exists_of_contents (ht'.holds.contents x (by simp))
    refine ⟨some e.data, { d with mem := m, root := root }, ?_, _, ht', hin, rfl⟩
    rw [Dictionary.retrieve, hfind]
    simp only [Option.bind_eq_bind, Option.bind_some, he]
  · exact ⟨_, _, by rw [Dictionary.retrieve, hfind]; rfl, t', ht', hin, rfl⟩

theorem Inv.getLinearIndex_keeps (h : Inv C d t) (hlen : t.inorder.length ≤ INT_MAX) (key : K) :
    ∃ out d', d.getLinearIndex key = some (out, d') ∧ Keeps C t d d' := by
  by_cases hmem : ∃ x ∈ t.inorder, x.key = key
  · have hidx := h.getLinearIndex_of_mem hmem
    rw [if_pos hlen] at hidx
    obtain ⟨d', t', xs, x, ys, ht', hlog, hin, -, -, hrun⟩ := hidx
    exact ⟨_, d', hrun, t', ht', hin, hlog⟩
  · obtain ⟨d', t', ht', hlog, hin, hrun⟩ :=
      h.getLinearIndex_of_not_mem fun x hx hk => hmem ⟨x, hx, hk⟩
    exact ⟨_, d', hrun, t', ht', hin, hlog⟩

/-- **The element the cursor is at may be deleted**: what comes after it stays. -/
theorem At.deleteCur (h : At C items log d state p)
    (hok : Act.Allowed (d, state) (.deleteCur : Act K)) :
    ∃ d', d.deleteCur state = some d' ∧ At C items log d' state (p.1, true) := by
  obtain ⟨hlog, t, ht, hplace⟩ := h
  obtain ⟨cur, hcur, hlive⟩ := hok
  obtain ⟨-, -, hnone⟩ | ⟨pre, x, rest, kept, hitems, hlen, hx, hnext, hin, hgone⟩ := hplace
  · cases hcur.symm.trans hnone
  obtain rfl := Option.some.inj (hcur.symm.trans hx)
  have hdel : p.2 = false := by
    by_contra hdel
    obtain ⟨y, hy, hyx⟩ := ht.live _ hlive
    exact hgone (by simpa using hdel) y hy hyx
  rw [hdel, if_neg Bool.false_ne_true] at hin
  obtain ⟨e, he, hkey, -, -⟩ := ht.get hin
  obtain ⟨d', t', ht', hlog', ⟨xs, y, ys, hin₁, hy, hin₂, hrun⟩ | ⟨hno, -, -⟩⟩ := ht.delete e.key
  · -- the keys are all different, so it is that element
    obtain ⟨rfl, rfl, rfl⟩ := eq_of_append_key (hin₁.symm.trans hin)
      (hin₁ ▸ nodup_keys ht.sorted) (hy.trans hkey)
    refine ⟨d', ?_, hlog'.trans hlog, t', ht',
      Or.inr ⟨pre, y, ys, xs, hitems, hlen, hcur, hnext, by simpa using hin₂, fun _ z hz => ?_⟩⟩
    · rw [Dictionary.deleteCur]
      simp only [hcur, Option.bind_eq_bind, Option.bind_some, he, hrun]
    · have hnd := ht.holds.nodup
      rw [hin] at hnd
      rw [hin₂] at hz
      exact cell_ne_of_mem hnd hz
  · exact absurd hkey.symm (hno x (by rw [hin]; simp))

/-- **The step to the next element.** -/
theorem At.foreachNext (h : At C items log d state p) (hcur : state.cur.isSome) :
    ∃ state', d.foreachNext state = some (d, state') ∧ At C items log d state' (p.1 + 1, false) := by
  obtain ⟨hlog, t, ht, hplace⟩ := h
  obtain ⟨cur, hcur⟩ := Option.isSome_iff_exists.1 hcur
  obtain ⟨-, -, hnone⟩ | ⟨pre, x, rest, kept, hitems, hlen, hx, hnext, hin, -⟩ := hplace
  · cases hcur.symm.trans hnone
  cases rest with
  | nil =>
    refine ⟨{ state with cur := none }, ?_, hlog, t, ht, Or.inl ⟨?_, rfl, rfl⟩⟩
    · simp only [Dictionary.foreachNext, hcur, hnext, List.head?_nil, Option.map_none]
    · rw [hitems, List.length_append, hlen]
      rfl
  | cons y rest =>
    obtain ⟨kept', hin'⟩ : ∃ kept', t.inorder = kept' ++ y :: rest := by
      by_cases hdel : p.2
      · exact ⟨kept, by rw [hin, if_pos hdel]⟩
      · exact ⟨kept ++ [x], by rw [hin, if_neg hdel]; simp⟩
    obtain ⟨e, he, -, -, hnext'⟩ := ht.get hin'
    refine ⟨⟨some y.cell, rest.head?.map Item.cell⟩, ?_, hlog, t, ht,
      Or.inr ⟨pre ++ [x], y, rest, kept', by simp [hitems], by simp [hlen], rfl, rfl, by simpa using hin',
        by simp⟩⟩
    simp only [Dictionary.foreachNext, hcur, hnext, List.head?_cons, Option.map_some, he, hnext']

/-- **Every step is answered**, and the cursor is where it should be. -/
theorem At.step (h : At C items log d state p) {act : Act K} (hok : act.Allowed (d, state)) :
    ∃ d' state', act.run (d, state) = some ((), d', state') ∧ At C items log d' state' (act.progress p) := by
  obtain ⟨hlog, t, ht, hplace⟩ := id h
  have hkeeps : ∀ {d'}, Keeps C t d d' → At C items log d' state p := by
    rintro d' ⟨t', ht', hin, hlog'⟩
    exact ⟨hlog'.trans hlog, t', ht', by rw [hin]; exact hplace⟩
  cases act with
  | find key =>
    obtain ⟨out, d', hrun, hk⟩ := ht.find_keeps key
    exact ⟨d', state, by rw [Act.run, hrun]; rfl, hkeeps hk⟩
  | retrieve key =>
    obtain ⟨out, d', hrun, hk⟩ := ht.retrieve_keeps key
    exact ⟨d', state, by rw [Act.run, hrun]; rfl, hkeeps hk⟩
  | getLinearIndex key =>
    obtain ⟨out, d', hrun, hk⟩ := ht.getLinearIndex_keeps (ht.holds.length_le.trans hok) key
    exact ⟨d', state, by rw [Act.run, hrun]; rfl, hkeeps hk⟩
  | deleteCur =>
    obtain ⟨d', hrun, h'⟩ := h.deleteCur hok
    exact ⟨d', state, by rw [Act.run, hrun]; rfl, h'⟩
  | foreachNext =>
    obtain ⟨state', hrun, h'⟩ := h.foreachNext hok
    exact ⟨d, state', by rw [Act.run, hrun]; rfl, h'⟩

/-! ## Runs -/

/-- The runs of a loop from the state in which it starts. -/
abbrev LoopRuns (s : Dictionary K D × IterationState) :
    List (Act K × Unit) → Dictionary K D × IterationState → Prop :=
  Run Act.run Act.Allowed s

theorem LoopRuns.cursorAt {s s' : Dictionary K D × IterationState} (h : At C items log s.1 s.2 (0, false))
    {acts : List (Act K × Unit)} (hrun : LoopRuns s acts s') :
    At C items log s'.1 s'.2 (progress acts) := by
  induction hrun with
  | nil => exact h
  | snoc _ hok hact ih =>
    obtain ⟨d', state', hact', h'⟩ := ih.step hok
    obtain ⟨-, rfl⟩ := Prod.mk.inj (Option.some.inj (hact.symm.trans hact'))
    rw [progress, List.foldl_append]
    exact h'

/-- What the cursor shows. -/
theorem At.shows (h : At C items log d state p) :
    p.1 ≤ items.length ∧ state.cur = (items[p.1]?).map Item.cell ∧
      (p.2 = false → d.foreachCur state = some ((items[p.1]?).map Item.data)) := by
  obtain ⟨-, t, ht, ⟨hlen, -, hcur⟩ | ⟨pre, x, rest, kept, hitems, hlen, hcur, -, hin, -⟩⟩ := h
  · have hnone : items[p.1]? = none := List.getElem?_eq_none hlen.le
    refine ⟨hlen.ge, by rw [hcur, hnone]; rfl, fun _ => ?_⟩
    rw [Dictionary.foreachCur, hcur, hnone]
    rfl
  · have hsome : items[p.1]? = some x := by rw [hitems, ← hlen]; simp
    refine ⟨by rw [hitems, List.length_append]; omega, by rw [hcur, hsome]; rfl, fun hdel => ?_⟩
    rw [hdel, if_neg Bool.false_ne_true] at hin
    obtain ⟨e, he, -, hdata, -⟩ := ht.get hin
    rw [Dictionary.foreachCur, hcur, hsome]
    simp only [he, Option.map_some, hdata]

variable [DecidableEq K] {A : Allocator (DictElem K D)}

/-- **An iteration visits every element once, in the order of the keys.**
`items` are the elements there are at the start. After `n` steps, whatever
was looked up and deleted on the way, the cursor is at the `n`-th of them
and shows its data; after the last it is null. Every step is answered. -/
theorem runs_cursor {tr : List (Op K D × Out D)} (h : Runs A C tr d) :
    ∃ M items state, MapRuns C tr M ∧ Lists items M ∧
      items.Pairwise (fun x y => C.cmp x.key y.key < 0) ∧ d.foreachStart = some (d, state) ∧
      ∀ acts d' state', LoopRuns (d, state) acts (d', state') →
        (progress acts).1 ≤ items.length ∧
        state'.cur = (items[(progress acts).1]?).map Item.cell ∧
        ((progress acts).2 = false → d'.foreachCur state' = some ((items[(progress acts).1]?).map Item.data)) ∧
        d'.log = d.log ∧
        ∀ act : Act K, act.Allowed (d', state') → ∃ s, act.run (d', state') = some ((), s) := by
  obtain ⟨M, hM, hd⟩ := h.is
  obtain ⟨t, hinv, hl⟩ := hd.lists
  obtain ⟨state, hstart, hat⟩ := hinv.foreachStart
  refine ⟨M, t.inorder, state, hM, hl, hinv.sorted, hstart, fun acts d' state' hacts => ?_⟩
  have hat' : At C t.inorder d.log d' state' (progress acts) := LoopRuns.cursorAt hat hacts
  obtain ⟨hle, hcur, hdata⟩ := hat'.shows
  refine ⟨hle, hcur, hdata, hat'.quiet, fun act hok => ?_⟩
  obtain ⟨d'', state'', hrun, -⟩ := hat'.step hok
  exact ⟨_, hrun⟩

/-- A loop over three elements: the first one is deleted, and then another is looked up. -/
theorem runs_cursor_three : ∃ (d d' : Dictionary ℕ Unit) (state state' : IterationState) (items : List (Item Addr ℕ Unit)),
    d.foreachStart = some (d, state) ∧
      LoopRuns (d, state) [(.deleteCur, ()), (.foreachNext, ()), (.find 9, ()), (.foreachNext, ())] (d', state') ∧
      state'.cur = some 2 ∧ (items[2]?).map Item.cell = some 2 := by
  have h : Runs Allocator.bump natOrder _ _ := Run.of_exec [.add 5 (), .add 9 (), .add 7 ()] rfl
  obtain ⟨M, items, state, -, -, -, hstart, hloop⟩ := runs_cursor h
  obtain rfl : _ = state := congrArg Prod.snd (Option.some.inj hstart)
  have hrun := hloop _ _ _ (Run.of_exec [.deleteCur, .foreachNext, .find 9, .foreachNext] rfl)
  refine ⟨_, _, _, _, items, hstart, Run.of_exec [.deleteCur, .foreachNext, .find 9, .foreachNext] rfl, ?_, hrun.2.1.symm⟩
  rfl

/-- **2^31 elements cannot be numbered**: in a loop over so many the query for
the index of one is not answered. -/
theorem runs_cursor_overflow : ∃ (tr : List (Op ℕ Unit × Out Unit)) (d : Dictionary ℕ Unit)
    (state : IterationState), Runs Allocator.bump natOrder tr d ∧ d.foreachStart = some (d, state) ∧
      Act.run (d, state) (.getLinearIndex 5) = none := by
  obtain ⟨tr, d, M, hruns, h, hkeys⟩ := exists_runs_add (2 ^ 31)
  obtain ⟨t, hinv, hl⟩ := h.lists
  obtain ⟨state, hstart, -⟩ := hinv.foreachStart
  have hmem : 5 ∈ M := by
    rw [← Finmap.mem_keys, hkeys, Finset.mem_range]
    decide
  have hidx := h.getLinearIndex 5
  rw [hkeys, Finset.card_range, if_pos ⟨hmem, by decide⟩] at hidx
  exact ⟨tr, d, state, hruns, hstart, by rw [Act.run, hidx]; rfl⟩

end Dictionary

end Mowgli
