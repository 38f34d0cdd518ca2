import Mathlib.Data.Fintype.Basic
import Mathlib.Data.List.FinRange
import Mowgli.Base.C
import Mowgli.Library.Store
/-!
# The patricia tree, as `container/patricia.c` has it

Leaves and nodes are cells of one store, linked by addresses in both
directions: a node's `down` holds the addresses of its children, and every
cell has the address of its parent and the slot it is in. `data` pointers
are never null, so a value of `D` stands for one.

A function that would dereference a null or dangling pointer, read past
the end of a string, or overflow an `int` answers `none`; so does a loop
that has not ended after `fuel` turns, a bound no loop reaches on a tree
the operations build. Failed assertions and messages go to `log`.
-/

namespace Mowgli

namespace Patricia

/-- `POINTERS_PER_NODE`. -/
def POINTERS_PER_NODE : ℕ := 16

/-- `NIBBLE_VAL`. `char` is signed and the shift arithmetic, but the mask
drops the sign bits. -/
def nibbleVal (key : CString) (nibnum : ℕ) : Fin 16 :=
  Fin.ofNat 16 ((key.charAt (nibnum / 2)).toNat >>> (if nibnum % 2 = 1 then 0 else 4))

end Patricia

/-- `struct patricia_node`. -/
structure PatriciaNode where
  /-- The nibble to test. -/
  nibnum : ℕ
  /-- The branches of the tree. -/
  down : Fin 16 → Option Addr
  parent : Option Addr
  parentVal : ℕ

/-- `struct patricia_leaf`, which is `mowgli_patricia_elem_t`. -/
structure PatriciaLeaf (D : Type) where
  /-- The data associated with the key. -/
  data : D
  /-- The key (canonized copy). -/
  key : CString
  parent : Option Addr
  parentVal : ℕ

/-- `union patricia_elem`. A leaf is told from a node by its `nibnum`,
which is -1. -/
inductive PatriciaElem (D : Type)
  | node (n : PatriciaNode)
  | leaf (l : PatriciaLeaf D)

namespace PatriciaElem

variable {D : Type}

/-- The parent of either kind of element. -/
def parent : PatriciaElem D → Option Addr
  | node n => n.parent
  | leaf l => l.parent

/-- The slot of either kind of element. -/
def parentVal : PatriciaElem D → ℕ
  | node n => n.parentVal
  | leaf l => l.parentVal

/-- The element with another parent and slot. -/
def setParent (e : PatriciaElem D) (parent : Option Addr) (val : ℕ) : PatriciaElem D :=
  match e with
  | node n => node { n with parent := parent, parentVal := val }
  | leaf l => leaf { l with parent := parent, parentVal := val }

/-- `IS_LEAF`. -/
def isLeaf : PatriciaElem D → Bool
  | node _ => false
  | leaf _ => true

end PatriciaElem

/-- `mowgli_patricia_t`, with the cells it owns and the lines logged. -/
structure Patricia (D : Type) where
  /-- The canonizing function, null when there is none. It turns a string
  into one of its own in place. -/
  canonizeCb : Option (CString → CString)
  root : Option Addr
  count : UInt32
  /-- The leaves and nodes of this tree. -/
  mem : Store (PatriciaElem D)
  /-- What has been logged. -/
  log : List LogLine

/-- `mowgli_patricia_iteration_state_t`: `STATE_CUR` and `STATE_NEXT`. -/
structure IterationState where
  cur : Option Addr
  next : Option Addr
  deriving DecidableEq

namespace Patricia

variable {D σ : Type}

/-- The node at `a`. -/
def nodeAt (m : Store (PatriciaElem D)) (a : Addr) : Option PatriciaNode :=
  match m.get a with
  | some (.node n) => some n
  | _ => none

/-- The leaf at `a`. -/
def leafAt (m : Store (PatriciaElem D)) (a : Addr) : Option (PatriciaLeaf D) :=
  match m.get a with
  | some (.leaf l) => some l
  | _ => none

/-- `node.down[val]`, for a `val` within the array. -/
def child (n : PatriciaNode) (val : ℕ) : Option (Option Addr) :=
  if h : val < POINTERS_PER_NODE then some (n.down ⟨val, h⟩) else none

/-- `node.down[val] = p`, for a `val` within the array. -/
def setChild (n : PatriciaNode) (val : ℕ) (p : Option Addr) : Option PatriciaNode :=
  if h : val < POINTERS_PER_NODE then some { n with down := Function.update n.down ⟨val, h⟩ p }
  else none

/-- More turns than any loop over this tree takes. -/
def fuel (d : Patricia D) : ℕ := 2 * d.mem.live.card + 2

/-- `mowgli_patricia_create`. The object comes zero-filled. -/
def create (canonizeCb : Option (CString → CString)) : Patricia D where
  canonizeCb := canonizeCb
  root := none
  count := 0
  mem := Store.empty
  log := []

/-- `first_leaf`: the smallest leaf hanging off a subtree. -/
def firstLeaf (m : Store (PatriciaElem D)) : ℕ → Addr → Option Addr
  | 0, _ => none
  | fuel + 1, delem =>
    match m.get delem with
    | none => none
    | some (.leaf _) => some delem
    | some (.node n) =>
      match (List.finRange 16).find? fun val => (n.down val).isSome with
      | some val => (n.down val).bind (firstLeaf m fuel)
      | none => firstLeaf m fuel delem

/-- The descent of `elem_find` and `elem_add`: the last node passed, the
slot taken there, and what is in it. A nibble past the end of the key
counts as 0. -/
def descend (m : Store (PatriciaElem D)) (keylen : ℤ) (ckey : CString) :
    ℕ → Option Addr → ℕ → Option Addr → Option (Option Addr × ℕ × Option Addr)
  | 0, _, _, _ => none
  | _ + 1, prev, val, none => some (prev, val, none)
  | fuel + 1, prev, val, some delem =>
    match m.get delem with
    | none => none
    | some (.leaf _) => some (prev, val, some delem)
    | some (.node n) =>
      let val : Fin 16 := if ((n.nibnum / 2 : ℕ) : ℤ) < keylen then nibbleVal ckey n.nibnum else 0
      descend m keylen ckey fuel (some delem) val (n.down val)

/-- The canonical key `elem_find` looks for. A short key is canonized in a
256-byte buffer, and it is its `int` length that says whether it is short. -/
def findKey (d : Patricia D) (key : CString) : CString :=
  match d.canonizeCb with
  | none => key
  | some cb => if (256 : ℤ) ≤ toInt key.length then cb key else cb (key.take 255)

/-- The canonical key `elem_add` stores. -/
def addKey (d : Patricia D) (key : CString) : CString :=
  match d.canonizeCb with
  | none => key
  | some cb => cb key

/-- `mowgli_patricia_elem_find`. -/
def elemFind (d : Patricia D) (key : CString) : Option (Option Addr) := do
  let keylen := toInt key.length
  let ckey := d.findKey key
  let (_, _, delem) ← descend d.mem keylen ckey d.fuel none (POINTERS_PER_NODE + 2) d.root
  match delem with
  | none => some none
  | some a => do
    let l ← leafAt d.mem a
    if CString.strcmp l.key ckey ≠ 0 then some none else some (some a)

/-- `mowgli_patricia_retrieve`. -/
def retrieve (d : Patricia D) (key : CString) : Option (Option D) := do
  match ← d.elemFind key with
  | none => some none
  | some a => do
    let l ← leafAt d.mem a
    some (some l.data)

/-- `mowgli_patricia_size`. -/
def size (d : Patricia D) : UInt32 := d.count

/-- The first nibble two keys differ at, looked for from nibble `i` on. The
strings are read up to their terminators and no further, and `i` is an
`int`. -/
def differ (ckey key : CString) : ℕ → ℕ → Option ℕ
  | 0, _ => none
  | fuel + 1, i =>
    if ckey.length < i / 2 ∨ key.length < i / 2 ∨ INT_MAX < i then none
    else if nibbleVal ckey i = nibbleVal key i then differ ckey key fuel (i + 1)
    else some i

/-- Where to insert the new node: up from `prev` past every node that tests
a nibble after `i`. -/
def climb (m : Store (PatriciaElem D)) (i : ℕ) :
    ℕ → Option Addr → ℕ → Option (Option Addr × ℕ)
  | 0, _, _ => none
  | _ + 1, none, val => some (none, val)
  | fuel + 1, some prev, val =>
    match nodeAt m prev with
    | none => none
    | some n => if i < n.nibnum then climb m i fuel n.parent n.parentVal else some (some prev, val)

/-- Give the element at `a` another parent and slot. -/
def setParent (m : Store (PatriciaElem D)) (a : Addr) (parent : Option Addr) (val : ℕ) :
    Option (Store (PatriciaElem D)) := do
  let e ← m.get a
  some (m.set a (e.setParent parent val))

/-- Insert a new node at nibble `i` below `prev`, over what is in slot
`val` there, which goes to the slot of `key`'s nibble. Answers the address
of the node, null if there is no memory for it. -/
def insertNode (A : Allocator (PatriciaElem D)) (d : Patricia D) (prev : Option Addr) (val i : ℕ)
    (key : CString) : Option (Option Addr × Patricia D) :=
  match A.pick d.mem with
  | none => some (none, { d with log := d.log ++ [.returnIfFail "newnode != NULL"] })
  | some newnode => do
    let slot := nibbleVal key i
    match prev with
    | none => do
      let root ← d.root
      let n : PatriciaNode :=
        { nibnum := i, down := Function.update (fun _ => none) slot d.root,
          parent := prev, parentVal := val }
      let mem := d.mem.set newnode (.node n)
      let e ← mem.get root
      let log := match e with
        | .leaf _ => d.log
        | .node r => softAssert "dict->root->nibnum > i" (i < r.nibnum) d.log
      let mem ← setParent mem root (some newnode) slot
      some (some newnode, { d with mem := mem, root := some newnode, log := log })
    | some p => do
      let pn ← nodeAt d.mem p
      let old ← child pn val
      let n : PatriciaNode :=
        { nibnum := i, down := Function.update (fun _ => none) slot old,
          parent := prev, parentVal := val }
      let mem := d.mem.set newnode (.node n)
      let mem ← old.bind fun a => setParent mem a (some newnode) slot
      let pn ← nodeAt mem p
      let pn ← setChild pn val (some newnode)
      some (some newnode, { d with mem := mem.set p (.node pn) })

/-- Put a new leaf in slot `val` of the node `newnode`, or at the root.
Answers its address, null if there is no memory for it. -/
def placeLeaf (A : Allocator (PatriciaElem D)) (d : Patricia D) (newnode : Option Addr) (val : ℕ)
    (ckey : CString) (data : D) : Option (Option Addr × Patricia D) := do
  let leaf := A.pick d.mem
  let d ← match newnode with
    | none => some { d with root := leaf }
    | some p => do
      let n ← nodeAt d.mem p
      let n ← setChild n val leaf
      some { d with mem := d.mem.set p (.node n) }
  match leaf with
  | none => some (none, { d with log := d.log ++ [.returnIfFail "*place1 != NULL"] })
  | some a =>
    let l : PatriciaLeaf D := { data := data, key := ckey, parent := newnode, parentVal := val }
    some (some a, { d with mem := d.mem.set a (.leaf l), count := d.count + 1 })

/-- The second half of `elem_add`, once there is a leaf `delem` to compare
with: find the nibble the keys part at, the node to test it, and put the
new leaf there. -/
def addBeside (A : Allocator (PatriciaElem D)) (d : Patricia D) (prev : Option Addr) (val : ℕ)
    (delem : Addr) (ckey : CString) (data : D) : Option (Option Addr × Patricia D) := do
  let l ← leafAt d.mem delem
  let i ← differ ckey l.key (2 * ckey.length + 2) 0
  let (prev, val) ← climb d.mem i d.fuel prev val
  let (newnode, d) ← match prev with
    | none => insertNode A d none val i l.key
    | some p => do
      let n ← nodeAt d.mem p
      if n.nibnum < i then insertNode A d (some p) val i l.key
      else some (some p, { d with log := softAssert "prev->nibnum == i" (n.nibnum = i) d.log })
  match newnode with
  | none => some (none, d)
  | some p => do
    let n ← nodeAt d.mem p
    let val := nibbleVal ckey i
    let log := softAssert "*place1 == NULL" (n.down val).isNone d.log
    placeLeaf A { d with log := log } (some p) val ckey data

/-- `mowgli_patricia_elem_add`. -/
def elemAdd (A : Allocator (PatriciaElem D)) (d : Patricia D) (key : CString) (data : D) :
    Option (Option Addr × Patricia D) := do
  let keylen := toInt key.length
  let ckey := d.addKey key
  let (prev, val, delem) ← descend d.mem keylen ckey d.fuel none (POINTERS_PER_NODE + 2) d.root
  match delem with
  | some a => do
    let l ← leafAt d.mem a
    if CString.strcmp l.key ckey = 0 then
      some (none, { d with log := d.log ++ [.message "Key is already in dict, ignoring duplicate"] })
    else addBeside A d prev val a ckey data
  | none =>
    match prev with
    | some p => do
      -- get a leaf to compare with
      let a ← firstLeaf d.mem d.fuel p
      addBeside A d prev val a ckey data
    | none =>
      let log := softAssert "prev == NULL" prev.isNone d.log
      let log := softAssert "dict->count == 0" (d.count = 0) log
      placeLeaf A { d with log := log } prev val ckey data

/-- `mowgli_patricia_add`. -/
def add (A : Allocator (PatriciaElem D)) (d : Patricia D) (key : CString) (data : D) :
    Option (Bool × Patricia D) := do
  let (leaf, d) ← d.elemAdd A key data
  some (leaf.isSome, d)

/-- The loop of `elem_delete` over the slots of a node: the one slot in
use, -1 if there is none and -2 if there are several. -/
def usedSlot (down : Fin 16 → Option Addr) : ℤ :=
  (List.finRange 16).foldl
    (fun used i => if (down i).isSome then (if used = -1 then (i : ℤ) else -2) else used) (-1)

/-- `mowgli_patricia_elem_delete`. -/
def elemDelete (d : Patricia D) (leaf : Addr) : Option (Patricia D) := do
  let l ← leafAt d.mem leaf
  let mem := d.mem.free leaf
  let d ← match l.parent with
    | none => some { d with mem := mem, root := none }
    | some prev => do
      let n ← nodeAt mem prev
      let n ← setChild n l.parentVal none
      let mem := mem.set prev (.node n)
      let used := usedSlot n.down
      let log := softAssert "used == -2 || used >= 0" (used = -2 ∨ 0 ≤ used) d.log
      let d := { d with mem := mem, log := log }
      if 0 ≤ used then do
        let next ← (← child n used.toNat)
        let d ← match n.parent with
          | none => some { d with root := some next }
          | some p => do
            let pn ← nodeAt d.mem p
            let pn ← setChild pn n.parentVal (some next)
            some { d with mem := d.mem.set p (.node pn) }
        let mem ← setParent d.mem next n.parent n.parentVal
        some { d with mem := mem.free prev }
      else some d
  let d := { d with count := d.count - 1 }
  if d.count = 0 then
    some { d with root := none, log := softAssert "dict->root == NULL" d.root.isNone d.log }
  else some d

/-- `mowgli_patricia_delete`. -/
def delete (d : Patricia D) (key : CString) : Option (Option D × Patricia D) := do
  match ← d.elemFind key with
  | none => some (none, d)
  | some leaf => do
    let l ← leafAt d.mem leaf
    let d ← d.elemDelete leaf
    some (some l.data, d)

/-! ## Iteration -/

/-- The inner loop of the traversals: the next child from slot `val` on, and
the slot after it. -/
def nextChild (down : Fin 16 → Option Addr) (val : ℕ) : Option (Option Addr × ℕ) :=
  if h : val < POINTERS_PER_NODE then
    match down ⟨val, h⟩ with
    | some next => some (some next, val + 1)
    | none => if val + 1 < POINTERS_PER_NODE then nextChild down (val + 1) else some (none, val + 1)
  else none
termination_by POINTERS_PER_NODE - val

/-- The last loop of the traversals: up from a node whose slots are all done. -/
def ascend (m : Store (PatriciaElem D)) : ℕ → Addr → ℕ → Option (Option Addr × ℕ)
  | 0, _, _ => none
  | fuel + 1, delem, val =>
    if POINTERS_PER_NODE ≤ val then
      match nodeAt m delem with
      | none => none
      | some n =>
        match n.parent with
        | none => some (none, n.parentVal)
        | some p => ascend m fuel p (n.parentVal + 1)
    else some (some delem, val)

/-- The traversal loop `foreach` and `foreach_next` share, from slot `val` of
the node `delem` on. `visit` is what the loop does at a leaf; it may leave
the loop with an answer. -/
def walk {ρ : Type} (m : Store (PatriciaElem D)) (visit : Addr → PatriciaLeaf D → σ → σ ⊕ ρ) :
    ℕ → Option Addr → ℕ → σ → Option (σ ⊕ ρ)
  | 0, _, _, _ => none
  | _ + 1, none, _, s => some (.inl s)
  | fuel + 1, some delem, val, s => do
    let n ← nodeAt m delem
    let (next, val) ← nextChild n.down val
    match next with
    | none => do
      let (delem, val) ← ascend m fuel delem val
      walk m visit fuel delem val s
    | some c =>
      match m.get c with
      | none => none
      | some (.node _) => walk m visit fuel (some c) 0 s
      | some (.leaf l) =>
        match visit c l s with
        | .inr r => some (.inr r)
        | .inl s => do
          let (delem, val) ← ascend m fuel delem val
          walk m visit fuel delem val s

/-- `mowgli_patricia_foreach`. The value `foreach_cb` returns is ignored. -/
def foreach (d : Patricia D) (foreachCb : Option (CString → D → σ → ℤ × σ)) (privdata : σ) :
    Option σ :=
  let visit : Addr → PatriciaLeaf D → σ → σ ⊕ Empty := fun _ l s =>
    .inl (match foreachCb with
      | none => s
      | some cb => (cb l.key l.data s).2)
  match d.root with
  | none => some privdata
  | some r => do
    let s ← match ← d.mem.get r with
      | .leaf l => some (visit r l privdata)
      | .node _ => walk d.mem visit d.fuel (some r) 0 privdata
    match s with
    | .inl s => some s

/-- `mowgli_patricia_foreach_next`. -/
def foreachNext (d : Patricia D) (state : IterationState) : Option (Patricia D × IterationState) :=
  match state.cur with
  | none => some ({ d with log := d.log ++ [.message
      "mowgli_patricia_foreach_next(): called again after iteration finished on dtree<%p>"] }, state)
  | some _ =>
    match state.next with
    | none => some (d, { cur := none, next := none })
    | some a => do
      let leaf ← leafAt d.mem a
      let found ← walk d.mem
        -- we will find the original leaf first
        (fun c l (_ : Unit) => if c = a then .inl () else .inr (c, l.key)) d.fuel
        leaf.parent leaf.parentVal ()
      match found with
      | .inl _ => some (d, { cur := some a, next := none })
      | .inr (c, key) =>
        if CString.strcmp key leaf.key < 0 then
          some ({ d with log := d.log ++ [.message
            "mowgli_patricia_foreach_next(): iteration went backwards (libmowgli bug) on dtree<%p>"] },
            { cur := some a, next := none })
        else some (d, { cur := some a, next := some c })

/-- `mowgli_patricia_foreach_start`. -/
def foreachStart (d : Patricia D) : Option (Patricia D × IterationState) := do
  let next ← match d.root with
    | none => some none
    | some r => (firstLeaf d.mem d.fuel r).map some
  match next with
  | none => some (d, { cur := none, next := none })
  | some a => d.foreachNext { cur := some a, next := some a }

/-- `mowgli_patricia_foreach_cur`. -/
def foreachCur (d : Patricia D) (state : IterationState) : Option (Option D) :=
  match state.cur with
  | none => some none
  | some a => do
    let l ← leafAt d.mem a
    some (some l.data)

/-- The loop of `MOWGLI_PATRICIA_FOREACH`. -/
def foreachLoop (body : Addr → D → Patricia D → σ → Option (Patricia D × σ)) :
    ℕ → Patricia D → IterationState → σ → Option (Patricia D × σ)
  | 0, _, _, _ => none
  | fuel + 1, d, state, s => do
    match state.cur, ← d.foreachCur state with
    | some a, some element => do
      let (d, s) ← body a element d s
      let (d, state) ← d.foreachNext state
      foreachLoop body fuel d state s
    | _, _ => some (d, s)

/-- `MOWGLI_PATRICIA_FOREACH(element, state, dict)`, with the loop body
given the current leaf and its data. -/
def FOREACH (d : Patricia D) (body : Addr → D → Patricia D → σ → Option (Patricia D × σ)) (s : σ) :
    Option (Patricia D × σ) := do
  let (d, state) ← d.foreachStart
  foreachLoop body d.fuel d state s

/-- `mowgli_patricia_clear`. `destroy_cb` works on state of its own. -/
def clear (d : Patricia D) (destroyCb : Option (CString → D → σ → σ)) (privdata : σ) :
    Option (Patricia D × σ) :=
  d.FOREACH (fun delem _ d s => do
    let l ← leafAt d.mem delem
    let s := match destroyCb with
      | none => s
      | some cb => cb l.key l.data s
    let (_, d) ← d.delete l.key
    some (d, s)) privdata

/-- `stats_recurse`: the sum of the depths of the subtree rooted in `delem`,
the greatest depth seen, and the log with the assertions that failed. -/
def statsRecurse (m : Store (PatriciaElem D)) :
    ℕ → Addr → ℕ → ℕ → List LogLine → Option (ℕ × ℕ × List LogLine)
  | 0, _, _, _, _ => none
  | fuel + 1, delem, depth, pmaxdepth, log => do
    let pmaxdepth := max depth pmaxdepth
    let e ← m.get delem
    let log := if depth = 0 then
        match e with
        | .leaf l => softAssert "delem->leaf.parent == NULL" l.parent.isNone log
        | .node n => softAssert "delem->node.parent == NULL" n.parent.isNone log
      else log
    match e with
    | .leaf _ => some (depth, pmaxdepth, log)
    | .node n =>
      (List.finRange 16).foldlM (fun (result, pmaxdepth, log) val =>
        match n.down val with
        | none => some (result, pmaxdepth, log)
        | some next => do
          let (r, pmaxdepth, log) ← statsRecurse m fuel next (depth + 1) pmaxdepth log
          let log := match ← m.get next with
            | .leaf l =>
              softAssert "next->leaf.parent_val == val" (l.parentVal = val)
                (softAssert "next->leaf.parent == delem" (l.parent = some delem) log)
            | .node c =>
              softAssert "next->node.nibnum > delem->node.nibnum" (n.nibnum < c.nibnum)
                (softAssert "next->node.parent_val == val" (c.parentVal = val)
                  (softAssert "next->node.parent == delem" (c.parent = some delem) log))
          some (result + r, pmaxdepth, log)) (0, pmaxdepth, log)

end Patricia

end Mowgli
