import Mathlib.Data.List.Basic
import Mathlib.Data.Fintype.Defs
/-!
# The symbols and tables of the JSON parser

`ext/json.c` has an LL(1) parser: `ll_table` tells by the symbol on top of
the stack and the symbol of the token which rule of the grammar to apply,
`ll_rules` what the symbol on the stack is replaced with.
-/

namespace Mowgli

namespace Json

/-- `enum ll_sym`. -/
inductive Sym
  | none
  | beginObject
  | endObject
  | beginArray
  | endArray
  | nameSep
  | valueSep
  | string
  | number
  | identifier
  | jsonDocument
  | value
  | object
  | objBody
  | objElems
  | objTail
  | objElem
  | array
  | arrBody
  | arrElems
  | arrTail
  deriving DecidableEq

instance : Fintype Sym where
  elems := ⟨↑[Sym.none, .beginObject, .endObject, .beginArray, .endArray, .nameSep, .valueSep, .string, .number,
    .identifier, .jsonDocument, .value, .object, .objBody, .objElems, .objTail, .objElem, .array, .arrBody,
    .arrElems, .arrTail], by decide⟩
  complete := by
    intro s
    cases s <;> decide

/-- `ll_sym_name`. -/
def llSymName : Sym → String
  | .none => "(none)"
  | .beginObject => "'\x7b'"
  | .endObject => "'\x7d'"
  | .beginArray => "'['"
  | .endArray => "']'"
  | .nameSep => "':'"
  | .valueSep => "','"
  | .string => "string"
  | .number => "number"
  | .identifier => "identifier"
  | .jsonDocument => "json-document"
  | .value => "value"
  | .object => "object"
  | .objBody => "object body"
  | .objElems => "object elements"
  | .objTail => "object tail"
  | .objElem => "object element"
  | .array => "array"
  | .arrBody => "array body"
  | .arrElems => "array elements"
  | .arrTail => "array tail"

/-- `ll_table`. -/
def llTable : Sym → Sym → ℕ
  | .jsonDocument, .beginObject => 1
  | .jsonDocument, .beginArray => 2
  | .value, .beginObject => 3
  | .value, .beginArray => 4
  | .value, .string => 5
  | .value, .number => 6
  | .value, .identifier => 7
  | .object, .beginObject => 8
  | .objBody, .endObject => 9
  | .objBody, .string => 10
  | .objElems, .string => 11
  | .objTail, .endObject => 13
  | .objTail, .valueSep => 12
  | .objElem, .string => 14
  | .array, .beginArray => 15
  | .arrBody, .beginObject => 17
  | .arrBody, .beginArray => 17
  | .arrBody, .endArray => 16
  | .arrBody, .string => 17
  | .arrBody, .number => 17
  | .arrBody, .identifier => 17
  | .arrElems, .beginObject => 18
  | .arrElems, .beginArray => 18
  | .arrElems, .string => 18
  | .arrElems, .number => 18
  | .arrElems, .identifier => 18
  | .arrTail, .endArray => 20
  | .arrTail, .valueSep => 19
  | _, _ => 0

/-- `ll_rules`, without the empty places. -/
def llRules : ℕ → List Sym
  | 1 => [.object]
  | 2 => [.array]
  | 3 => [.object]
  | 4 => [.array]
  | 5 => [.string]
  | 6 => [.number]
  | 7 => [.identifier]
  | 8 => [.beginObject, .objBody]
  | 9 => [.endObject]
  | 10 => [.objElems]
  | 11 => [.objElem, .objTail]
  | 12 => [.valueSep, .objElems]
  | 13 => [.endObject]
  | 14 => [.string, .nameSep, .value]
  | 15 => [.beginArray, .arrBody]
  | 16 => [.endArray]
  | 17 => [.arrElems]
  | 18 => [.value, .arrTail]
  | 19 => [.valueSep, .arrElems]
  | 20 => [.endArray]
  | _ => []

end Json

end Mowgli
