import Mathlib.Algebra.BigOperators.Group.Finset.Basic
import Mowgli.Ext.Json.Value
import Mowgli.Library.Store
/-!
# JSON values as cells

The parser on values with reference counts. A value is a cell that
`json_alloc` made, or one of those that are always there: these have the
count `JSON_REFCOUNT_CONSTANT`, and are never counted or freed. A value
that is freed is not there any more, so that counting it once more is a
`Fault`.

The tree of an object is the finite map that it is, in the order of its
keys, and the list of an array the list of what its nodes hold.
-/

namespace Mowgli

namespace Json

/-- `mowgli_json_t *`. -/
inductive Ref
  | null
  | true
  | false
  | objStart
  | arrStart
  | cell (a : Addr)
  deriving DecidableEq

/-- What a value is: its tag and what is in its union. -/
inductive Contents
  | int (z : ℤ)
  | float (text : List UInt8)
  | string (bytes : List UInt8)
  | array (l : List Ref)
  | object (m : List (CString × Ref))

/-- The values that a value holds. -/
def Contents.held : Contents → List Ref
  | .array l => l
  | .object m => m.map Prod.snd
  | _ => []

/-- `mowgli_json_t`. -/
structure JsonCell where
  refcount : ℤ
  contents : Contents

/-- The memory that values are in. -/
abbrev JsonHeap := Store JsonCell

/-- `JSON_REFCOUNT_CONSTANT`. -/
def JSON_REFCOUNT_CONSTANT : ℤ := -42

namespace JsonHeap

/-- `json_alloc`, with what the constructor puts into the value. -/
def create (A : Allocator JsonCell) (hA : A.NeverFails) (h : JsonHeap) (contents : Contents) : Ref × JsonHeap :=
  let a := (A.pick h).get (hA h)
  (.cell a, h.set a ⟨0, contents⟩)

/-- `mowgli_json_incref`. -/
def incref (h : JsonHeap) : Ref → Except Fault JsonHeap
  | .cell a =>
    match h.get a with
    | none => .error .dangling
    | some n =>
      if n.refcount = JSON_REFCOUNT_CONSTANT then .ok h
      else .ok (h.set a { n with refcount := n.refcount + 1 })
  | _ => .ok h

/-- `mowgli_free`. -/
def free (h : JsonHeap) (a : Addr) : Except Fault JsonHeap :=
  match h.get a with
  | none => .error .dangling
  | some _ => .ok (Store.free h a)

/-- `mowgli_json_decref`, on so many values inside one another: a value that
no reference is left to gives back those it holds, and is freed. -/
def decrefIn : ℕ → JsonHeap → Ref → Except Fault JsonHeap
  | 0, _, _ => .error .endless
  | k + 1, h, .cell a =>
    match h.get a with
    | none => .error .dangling
    | some n =>
      if n.refcount = JSON_REFCOUNT_CONSTANT then .ok h
      else if n.refcount - 1 ≤ 0 then do
        let h ← n.contents.held.foldlM (decrefIn k) (h.set a { n with refcount := n.refcount - 1 })
        h.free a
      else .ok (h.set a { n with refcount := n.refcount - 1 })
  | _ + 1, h, _ => .ok h

/-- `mowgli_json_decref`. Values that are further inside one another than
there are values are inside themselves, and their freeing never ends. -/
def decref (h : JsonHeap) (n : Ref) : Except Fault JsonHeap := decrefIn (h.live.card + 1) h n

/-- The bytes of a value whose tag is `MOWGLI_JSON_TAG_STRING`. -/
def stringBytes (h : JsonHeap) : Ref → Except Fault (Option (List UInt8))
  | .cell a =>
    match h.get a with
    | none => .error .dangling
    | some n => .ok (match n.contents with | .string bytes => some bytes | _ => none)
  | _ => .ok none

/-- `mowgli_node_add_head` on the list of an array. -/
def nodeAddHead (h : JsonHeap) (arr data : Ref) : Except Fault (Ref × JsonHeap) :=
  match arr with
  | .cell a =>
    match h.get a with
    | some ⟨count, .array l⟩ => .ok (arr, h.set a ⟨count, .array (data :: l)⟩)
    | _ => .error .dangling
  | _ => .error .dangling

/-- `mowgli_patricia_add` on the tree of an object: a key that is there
already stays as it is. -/
def patriciaAdd (h : JsonHeap) (obj : Ref) (key : CString) (data : Ref) : Except Fault (Ref × JsonHeap) :=
  match obj with
  | .cell a =>
    match h.get a with
    | some ⟨count, .object m⟩ => .ok (obj, h.set a ⟨count, .object (memberAdd key data m)⟩)
    | _ => .error .dangling
  | _ => .error .dangling

end JsonHeap

/-- The operations on cells, for an allocator that does not run out. -/
def countedOps (A : Allocator JsonCell) (hA : A.NeverFails) : JsonOps JsonHeap Ref where
  null := .null
  true := .true
  false := .false
  objStart := .objStart
  arrStart := .arrStart
  isObjStart n := n = .objStart
  isArrStart n := n = .arrStart
  createInteger h z := JsonHeap.create A hA h (.int z)
  createFloat h text := JsonHeap.create A hA h (.float text)
  createString h bytes := JsonHeap.create A hA h (.string bytes)
  createArray h := JsonHeap.create A hA h (.array [])
  createObject h := JsonHeap.create A hA h (.object [])
  incref := JsonHeap.incref
  decref := JsonHeap.decref
  stringBytes := JsonHeap.stringBytes
  nodeAddHead := JsonHeap.nodeAddHead
  patriciaAdd := JsonHeap.patriciaAdd

/-! ## What is there to be counted -/

/-- The values that were made since the memory was `h₀`, and not freed. -/
def made (h₀ h : JsonHeap) : Finset Addr := h.live \ h₀.live

/-- What the value at `a` holds. -/
def heldAt (h : JsonHeap) (a : Addr) : List Ref := (h.get a).elim [] fun n => n.contents.held

/-- How often a value is held by containers, of those that were made. -/
def holders (h₀ h : JsonHeap) (a : Addr) : ℕ := ∑ b ∈ made h₀ h, (heldAt h b).count (.cell a)

/-- **Every count is right**: it is the number of containers that hold the
value and of the handles to it. -/
def CountsExact (h₀ h : JsonHeap) (handles : List Ref) : Prop :=
  ∀ a ∈ made h₀ h, ∃ n, h.get a = some n ∧ n.refcount = holders h₀ h a + handles.count (.cell a)

end Json

end Mowgli
