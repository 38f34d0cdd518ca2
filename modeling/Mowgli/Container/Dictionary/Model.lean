import Mowgli.Base.C
import Mowgli.Library.Store
/-!
# The dictionary tree, as `container/dictionary.c` has it

The elements are cells of one store. Each is a node of a binary tree, by
`left` and `right`, and of a doubly linked list, by `prev` and `next`.
Keys and `data` are pointers that are never null, so a value of `K` or
`D` stands for one, and `compare_cb` compares values of `K`.

A function that would dereference a null or dangling pointer or overflow
an `int` answers `none`; so does a loop that has not ended after `fuel`
turns, a bound no loop reaches on a tree the operations build. Failed
assertions go to `log`.
-/

namespace Mowgli

/-- `mowgli_dictionary_elem_t`. -/
structure DictElem (K D : Type) where
  left : Option Addr
  right : Option Addr
  prev : Option Addr
  next : Option Addr
  data : D
  key : K
  position : ℤ

/-- `mowgli_dictionary_t`, with the elements it owns and the lines logged. -/
structure Dictionary (K D : Type) where
  compareCb : K → K → ℤ
  root : Option Addr
  head : Option Addr
  tail : Option Addr
  count : UInt32
  /-- The positions of the elements are out of date. -/
  dirty : Bool
  /-- The elements of this dictionary. -/
  mem : Store (DictElem K D)
  /-- What has been logged. -/
  log : List LogLine

namespace Dictionary

variable {K D : Type}

/-- `p->left = q`. -/
def setLeft (m : Store (DictElem K D)) (p : Addr) (q : Option Addr) : Option (Store (DictElem K D)) :=
  m.modify p fun e => { e with left := q }

/-- `p->right = q`. -/
def setRight (m : Store (DictElem K D)) (p : Addr) (q : Option Addr) : Option (Store (DictElem K D)) :=
  m.modify p fun e => { e with right := q }

/-- `p->prev = q`. -/
def setPrev (m : Store (DictElem K D)) (p : Addr) (q : Option Addr) : Option (Store (DictElem K D)) :=
  m.modify p fun e => { e with prev := q }

/-- `p->next = q`. -/
def setNext (m : Store (DictElem K D)) (p : Addr) (q : Option Addr) : Option (Store (DictElem K D)) :=
  m.modify p fun e => { e with next := q }

/-- `if (p) p->prev = q`. -/
def setPrev? (m : Store (DictElem K D)) (p q : Option Addr) : Option (Store (DictElem K D)) :=
  match p with
  | none => some m
  | some p => setPrev m p q

/-- `if (p) p->next = q`. -/
def setNext? (m : Store (DictElem K D)) (p q : Option Addr) : Option (Store (DictElem K D)) :=
  match p with
  | none => some m
  | some p => setNext m p q

/-- More turns than any loop over this dictionary takes. -/
def fuel (d : Dictionary K D) : ℕ := d.mem.live.card + 1

/-- `mowgli_dictionary_create`. The object comes zero-filled. -/
def create (compareCb : K → K → ℤ) : Dictionary K D where
  compareCb := compareCb
  root := none
  head := none
  tail := none
  count := 0
  dirty := false
  mem := Store.empty
  log := []

/-- The variables of `retune`: the element `n` on the stack, of which only
`left` and `right` are used, and the pointers `left`, `right` and `node`.
A null `left` or `right` stands for `&n`. -/
structure Tuning (K D : Type) where
  mem : Store (DictElem K D)
  nLeft : Option Addr
  nRight : Option Addr
  left : Option Addr
  right : Option Addr
  node : Addr

/-- `left->right = q`. -/
def Tuning.setLeftRight (s : Tuning K D) (q : Option Addr) : Option (Tuning K D) :=
  match s.left with
  | none => some { s with nRight := q }
  | some p => (setRight s.mem p q).map fun mem => { s with mem := mem }

/-- `right->left = q`. -/
def Tuning.setRightLeft (s : Tuning K D) (q : Option Addr) : Option (Tuning K D) :=
  match s.right with
  | none => some { s with nLeft := q }
  | some p => (setLeft s.mem p q).map fun mem => { s with mem := mem }

/-- `node->left = tn->right; tn->right = node; node = tn;`. -/
def Tuning.rotateRight (s : Tuning K D) (tn : Addr) : Option (Tuning K D) := do
  let t ← s.mem.get tn
  let mem ← setLeft s.mem s.node t.right
  let mem ← setRight mem tn (some s.node)
  some { s with mem := mem, node := tn }

/-- `node->right = tn->left; tn->left = node; node = tn;`. -/
def Tuning.rotateLeft (s : Tuning K D) (tn : Addr) : Option (Tuning K D) := do
  let t ← s.mem.get tn
  let mem ← setRight s.mem s.node t.left
  let mem ← setLeft mem tn (some s.node)
  some { s with mem := mem, node := tn }

/-- `right->left = node; right = node; node = node->left;`. -/
def Tuning.descendLeft (s : Tuning K D) : Option (Tuning K D) := do
  let s ← s.setRightLeft (some s.node)
  let e ← s.mem.get s.node
  let node ← e.left
  some { s with right := some s.node, node := node }

/-- `left->right = node; left = node; node = node->right;`. -/
def Tuning.descendRight (s : Tuning K D) : Option (Tuning K D) := do
  let s ← s.setLeftRight (some s.node)
  let e ← s.mem.get s.node
  let node ← e.right
  some { s with left := some s.node, node := node }

/-- The loop of `retune`. -/
def retuneLoop (compareCb : K → K → ℤ) (key : K) : ℕ → Tuning K D → Option (Tuning K D)
  | 0, _ => none
  | fuel + 1, s => do
    let e ← s.mem.get s.node
    if compareCb key e.key = 0 then some s
    else if compareCb key e.key < 0 then
      match e.left with
      | none => some s
      | some tn => do
        let t ← s.mem.get tn
        if compareCb key t.key < 0 then do
          let s ← s.rotateRight tn
          let e ← s.mem.get s.node
          if e.left = none then some s else retuneLoop compareCb key fuel (← s.descendLeft)
        else retuneLoop compareCb key fuel (← s.descendLeft)
    else
      match e.right with
      | none => some s
      | some tn => do
        let t ← s.mem.get tn
        if compareCb key t.key > 0 then do
          let s ← s.rotateLeft tn
          let e ← s.mem.get s.node
          if e.right = none then some s else retuneLoop compareCb key fuel (← s.descendRight)
        else retuneLoop compareCb key fuel (← s.descendRight)

/-- `mowgli_dictionary_retune`. -/
def retune (d : Dictionary K D) (key : K) : Option (Dictionary K D) :=
  match d.root with
  | none => some d
  | some root => do
    let s ← retuneLoop d.compareCb key d.fuel ⟨d.mem, none, none, none, none, root⟩
    let e ← s.mem.get s.node
    let s ← s.setLeftRight e.left
    let e ← s.mem.get s.node
    let s ← s.setRightLeft e.right
    let mem ← setLeft s.mem s.node s.nRight
    let mem ← setRight mem s.node s.nLeft
    some { d with mem := mem, root := some s.node }

/-- The branch of `link` for a key before that of the root. -/
def linkBefore (d : Dictionary K D) (delem root : Addr) : Option (Dictionary K D) := do
  let r ← d.mem.get root
  let mem ← setLeft d.mem delem r.left
  let mem ← setRight mem delem (some root)
  let mem ← setLeft mem root none
  let r ← mem.get root
  let mem ← setNext? mem r.prev (some delem)
  let head := if r.prev = none then some delem else d.head
  let r ← mem.get root
  let mem ← setPrev mem delem r.prev
  let mem ← setNext mem delem (some root)
  let mem ← setPrev mem root (some delem)
  some { d with mem := mem, head := head, root := some delem }

/-- The branch of `link` for a key after that of the root. -/
def linkAfter (d : Dictionary K D) (delem root : Addr) : Option (Dictionary K D) := do
  let r ← d.mem.get root
  let mem ← setRight d.mem delem r.right
  let mem ← setLeft mem delem (some root)
  let mem ← setRight mem root none
  let r ← mem.get root
  let mem ← setPrev? mem r.next (some delem)
  let tail := if r.next = none then some delem else d.tail
  let r ← mem.get root
  let mem ← setNext mem delem r.next
  let mem ← setPrev mem delem (some root)
  let mem ← setNext mem root (some delem)
  some { d with mem := mem, tail := tail, root := some delem }

/-- `mowgli_dictionary_link`. -/
def link (d : Dictionary K D) (delem : Addr) : Option (Dictionary K D) :=
  let d := { d with dirty := true, count := d.count + 1 }
  match d.root with
  | none => do
    let mem ← d.mem.modify delem fun e =>
      { e with left := none, right := none, next := none, prev := none }
    some { d with mem := mem, head := some delem, tail := some delem, root := some delem }
  | some _ => do
    let e ← d.mem.get delem
    let d ← d.retune e.key
    let root ← d.root
    let e ← d.mem.get delem
    let r ← d.mem.get root
    let ret := toInt (d.compareCb e.key r.key)
    if ret < 0 then d.linkBefore delem root
    else if ret > 0 then d.linkAfter delem root
    else do
      let mem ← d.mem.modify root fun r => { r with key := e.key, data := e.data }
      some { d with mem := mem.free delem, count := d.count - 1 }

/-- The loop of `unlink_root` for the parent of the next element. -/
def parentOfNext (m : Store (DictElem K D)) (nextnode : Addr) : ℕ → Addr → Option Addr
  | 0, _ => none
  | fuel + 1, p => do
    let e ← m.get p
    match e.left with
    | none => some p
    | some l => if l = nextnode then some p else parentOfNext m nextnode fuel l

/-- The branch of `unlink_root` for a root with two children: make the node
with the next highest key the new root. -/
def promoteNext (d : Dictionary K D) (delem right : Addr) : Option (Dictionary K D) := do
  let e ← d.mem.get delem
  let nextnode ← e.next
  let n ← d.mem.get nextnode
  let d := { d with log := softAssert "nextnode->left == NULL" n.left.isNone d.log }
  if nextnode = right then do
    let mem ← setLeft d.mem nextnode e.left
    some { d with mem := mem, root := some nextnode }
  else do
    let parentofnext ← parentOfNext d.mem nextnode d.fuel right
    let p ← d.mem.get parentofnext
    let log := softAssert "parentofnext->left == nextnode" (p.left = some nextnode) d.log
    let mem ← setLeft d.mem parentofnext n.right
    let e ← mem.get delem
    let mem ← setLeft mem nextnode e.left
    let e ← mem.get delem
    let mem ← setRight mem nextnode e.right
    some { d with mem := mem, root := some nextnode, log := log }

/-- The second half of `unlink_root`: take the element out of the linked list. -/
def unthread (d : Dictionary K D) (delem : Addr) : Option (Dictionary K D) := do
  let e ← d.mem.get delem
  let mem ← setNext? d.mem e.prev e.next
  let e ← mem.get delem
  let head := if d.head = some delem then e.next else d.head
  let mem ← setPrev? mem e.next e.prev
  let e ← mem.get delem
  let tail := if d.tail = some delem then e.prev else d.tail
  some { d with mem := mem, head := head, tail := tail, count := d.count - 1 }

/-- `mowgli_dictionary_unlink_root`. -/
def unlinkRoot (d : Dictionary K D) : Option (Dictionary K D) :=
  let d := { d with dirty := true }
  match d.root with
  | none => some d
  | some delem => do
    let e ← d.mem.get delem
    let d ← match e.left, e.right with
      | none, right => some { d with root := right }
      | left, none => some { d with root := left }
      | some _, some right => d.promoteNext delem right
    d.unthread delem

/-- `mowgli_dictionary_find`. -/
def find (d : Dictionary K D) (key : K) : Option (Option Addr × Dictionary K D) := do
  let d ← d.retune key
  match d.root with
  | none => some (none, d)
  | some root => do
    let r ← d.mem.get root
    if d.compareCb key r.key = 0 then some (some root, d) else some (none, d)

/-- `mowgli_dictionary_add`. The element comes zero-filled. -/
def add (A : Allocator (DictElem K D)) (d : Dictionary K D) (key : K) (data : D) :
    Option (Option Addr × Dictionary K D) := do
  let (elem, d) ← d.find key
  match elem with
  | some _ =>
    let line := .returnIfFail "mowgli_dictionary_find(dict, key) == NULL"
    some (none, { d with log := d.log ++ [line] })
  | none => do
    let delem ← A.pick d.mem
    let d ← { d with mem := d.mem.set delem ⟨none, none, none, none, data, key, 0⟩ }.link delem
    some (some delem, d)

/-- `mowgli_dictionary_delete`. -/
def delete (d : Dictionary K D) (key : K) : Option (Option D × Dictionary K D) := do
  let (elem, d) ← d.find key
  match elem with
  | none => some (none, d)
  | some delem => do
    let e ← d.mem.get delem
    let d ← d.unlinkRoot
    some (some e.data, { d with mem := d.mem.free delem })

/-- `mowgli_dictionary_retrieve`. -/
def retrieve (d : Dictionary K D) (key : K) : Option (Option D × Dictionary K D) := do
  let (elem, d) ← d.find key
  match elem with
  | none => some (none, d)
  | some delem => do
    let e ← d.mem.get delem
    some (some e.data, d)

/-- `mowgli_dictionary_size`. -/
def size (d : Dictionary K D) : UInt32 := d.count

/-- The loop of `get_linear_index`, which gives every element its position. -/
def number (m : Store (DictElem K D)) : ℕ → Option Addr → ℕ → Option (Store (DictElem K D))
  | 0, _, _ => none
  | _ + 1, none, _ => some m
  | fuel + 1, some delem, i => do
    let m ← m.modify delem fun e => { e with position := i }
    let e ← m.get delem
    if i = INT_MAX then none else number m fuel e.next (i + 1)

/-- `mowgli_dictionary_get_linear_index`. -/
def getLinearIndex (d : Dictionary K D) (key : K) : Option (ℤ × Dictionary K D) := do
  let (elem, d) ← d.find key
  match elem with
  | none => some (-1, d)
  | some elem =>
    if d.dirty then do
      let mem ← number d.mem d.fuel d.head 0
      let e ← mem.get elem
      some (e.position, { d with mem := mem, dirty := false })
    else do
      let e ← d.mem.get elem
      some (e.position, d)

end Dictionary

end Mowgli
