import Mowgli.Ext.Json.Parser
/-!
# JSON values as trees

The parser on values that are never changed once they are made: nothing is
allocated, and references need not be counted. An object is the finite map
that a patricia tree is, its members in the order of their keys, which is
the order in which the tree is gone through.

The two markers are values too, of tag `MOWGLI_JSON_TAG_NULL`, as they are
in the source.
-/

namespace Mowgli

namespace Json

/-- A JSON value. A float is what `strtod` makes of its text. -/
inductive Value
  | objStart
  | arrStart
  | null
  | bool (b : Bool)
  | int (z : ℤ)
  | float (text : List UInt8)
  | string (bytes : List UInt8)
  | array (l : List Value)
  | object (m : List (CString × Value))

/-- `mowgli_patricia_add`, for keys shorter than 2^30 bytes (`treesHold_of_short`): one that is
there already stays as it is. -/
def memberAdd {α : Type} (key : CString) (val : α) : List (CString × α) → List (CString × α)
  | [] => [(key, val)]
  | (k, v) :: m =>
    if key = k then (k, v) :: m
    else if key.bytes < k.bytes then (key, val) :: (k, v) :: m
    else (k, v) :: memberAdd key val m

/-- The operations on trees. -/
def valueOps : JsonOps Unit Value where
  null := .null
  true := .bool true
  false := .bool false
  objStart := .objStart
  arrStart := .arrStart
  isObjStart v := match v with | .objStart => true | _ => false
  isArrStart v := match v with | .arrStart => true | _ => false
  createInteger _ z := (.int z, ())
  createFloat _ text := (.float text, ())
  createString _ bytes := (.string bytes, ())
  createArray _ := (.array [], ())
  createObject _ := (.object [], ())
  incref _ _ := .ok ()
  decref _ _ := .ok ()
  stringBytes _ v := match v with | .string bytes => .ok (some bytes) | _ => .ok none
  nodeAddHead _ arr v := match arr with | .array l => .ok (.array (v :: l), ()) | _ => .error .dangling
  patriciaAdd _ obj key v :=
    match obj with
    | .object m => .ok (.object (memberAdd key v m), ())
    | _ => .error .dangling

/-- The parser on trees. -/
abbrev Parser := Parse Unit Value

end Json

end Mowgli
