import Mowgli.Base.Ctype
import Mowgli.Core.MowgliString
import Mowgli.Ext.Json.Grammar
/-!
# The JSON parser, as `ext/json.c` has it

The parser works on values it makes, counts references to, and puts into
containers. What values are is left open: `JsonOps` is what the parser does
with them, `H` the memory they are in and `V` the pointers to them, so that
the same parser runs on cells with reference counts and on plain trees.

The stack is an array of `LL_STACK_SIZE` symbols and `top` its height; what
is above `top` is never read, so it is the list of the symbols below, the
top one first. Pushing past the end of the array is a `Fault`, and so are
the other things the code must not do. The queue `out` and the list `build`
are lists of values, from the head on. `log` is not in the source: it is
the tokens that were parsed, the errors that were recorded and the
documents that were put on `out`, in order, since the parser was made or
reset.
-/

namespace Mowgli

namespace Json

/-- What must not happen. -/
inductive Fault
  /-- `parse->stack` is written past its end. -/
  | overflow
  /-- A null pointer is used as a value. -/
  | null
  /-- Memory that is not allocated is used. -/
  | dangling
  /-- A loop never ends. -/
  | endless
  deriving DecidableEq

/-- What the parser does with values. -/
structure JsonOps (H V : Type) where
  /-- `mowgli_json_null`. -/
  null : V
  /-- `mowgli_json_true`. -/
  true : V
  /-- `mowgli_json_false`. -/
  false : V
  /-- `&obj_start_marker`. -/
  objStart : V
  /-- `&arr_start_marker`. -/
  arrStart : V
  isObjStart : V → Bool
  isArrStart : V → Bool
  createInteger : H → ℤ → V × H
  /-- `mowgli_json_create_float(strtod(s, NULL))`, for the text `s`. -/
  createFloat : H → List UInt8 → V × H
  createString : H → List UInt8 → V × H
  createArray : H → V × H
  createObject : H → V × H
  incref : H → V → Except Fault H
  decref : H → V → Except Fault H
  /-- The bytes of a value whose tag is `MOWGLI_JSON_TAG_STRING`. -/
  stringBytes : H → V → Except Fault (Option (List UInt8))
  /-- `mowgli_node_add_head` on the list of an array. -/
  nodeAddHead : H → V → V → Except Fault (V × H)
  /-- `mowgli_patricia_add` on the tree of an object. -/
  patriciaAdd : H → V → CString → V → Except Fault (V × H)

/-- `struct ll_token`. -/
structure Token (V : Type) where
  sym : Sym
  val : Option V

/-- What `parse_error` is called with. -/
inductive ParseError
  | afterInput (sym : Sym)
  | expected (top sym : Sym)
  | character (c : UInt8)
  deriving DecidableEq

/-- The text in `parse->error`. -/
def ParseError.text : ParseError → String
  | .afterInput sym => "Unexpected " ++ llSymName sym ++ " after JSON input"
  | .expected top sym => "Expected " ++ llSymName top ++ ", got " ++ llSymName sym
  | .character c => "Cannot process character '" ++ String.singleton (Char.ofNat c.toNat) ++ "' in input stream"

/-- A line of the log of a parser. -/
inductive ParseEvent (V : Type)
  | token (tok : Token V)
  | error (e : ParseError)
  | document (val : V)

/-- The modes of the lexer. -/
inductive Lex
  | limbo
  | string
  | stringEsc
  | stringEscU
  | number
  | identifier
  deriving DecidableEq

/-- `LL_STACK_SIZE`. -/
def LL_STACK_SIZE : ℕ := 128

/-- `mowgli_json_parse_t`. -/
structure Parse (H V : Type) where
  heap : H
  out : List V
  error : Option ParseError
  multidoc : Bool
  build : List V
  stack : List Sym
  buf : MowgliString
  lex : Lex
  lexU : ℕ
  log : List (ParseEvent V)

namespace Parse

variable {H V : Type} (ops : JsonOps H V)

/-! ## The parser -/

/-- `parse_out_enqueue`. -/
def outEnqueue (parse : Parse H V) (val : V) : Parse H V :=
  { parse with out := parse.out ++ [val], log := parse.log ++ [.document val] }

/-- `parse_error`. -/
def parseError (parse : Parse H V) (e : ParseError) : Parse H V :=
  { parse with error := some e, log := parse.log ++ [.error e] }

/-! What the actions see of the parser is the build list. -/

/-- `ll_act_echo`. A token without a value is never echoed. -/
def llActEcho (h : H) (build : List V) (tok : Token V) : Except Fault (H × List V) :=
  match tok.val with
  | none => .error .null
  | some val => do
    let h ← ops.incref h val
    .ok (h, val :: build)

/-- `ll_act_obj_start`. -/
def llActObjStart (h : H) (build : List V) : H × List V := (h, ops.objStart :: build)

/-- `mowgli_json_object_add`. -/
def objectAdd (h : H) (obj : V) (key : CString) (data : V) : Except Fault (V × H) := do
  let h ← ops.incref h data
  ops.patriciaAdd h obj key data

/-- `mowgli_json_array_add_head`. -/
def arrayAddHead (h : H) (arr data : V) : Except Fault (V × H) := do
  let h ← ops.incref h data
  ops.nodeAddHead h arr data

/-- The text of a string value, up to its first NUL. -/
def cString (bytes : List UInt8) : CString :=
  ⟨bytes.takeWhile (· ≠ 0), CString.nul_free_takeWhile bytes⟩

/-- The body of the loop of `ll_act_obj_end`, for a key and a value: `none`
is to leave the loop. -/
def objMember (h : H) (obj key val : V) : Except Fault (Option (V × H)) := do
  match ← ops.stringBytes h key with
  | none => .ok none
  | some name => do
    let (obj, h) ← objectAdd ops h obj (cString name) val
    let h ← ops.decref h key
    let h ← ops.decref h val
    .ok (some (obj, h))

/-- The loop of `ll_act_obj_end`, on the build list. -/
def objEndLoop (h : H) (obj : V) : List V → Except Fault (V × H × List V)
  | [] => .error .null
  | [val] => if ops.isObjStart val then .ok (obj, h, []) else .error .null
  | val :: key :: build =>
    if ops.isObjStart val then .ok (obj, h, key :: build)
    else if ops.isObjStart key then .ok (obj, h, build)
    else do
      match ← objMember ops h obj key val with
      | none => .ok (obj, h, build)
      | some (obj, h) => objEndLoop h obj build

/-- `ll_act_obj_end`. -/
def llActObjEnd (h : H) (build : List V) : Except Fault (H × List V) := do
  let (obj, h) := ops.createObject h
  let h ← ops.incref h obj
  let (obj, h, build) ← objEndLoop ops h obj build
  .ok (h, obj :: build)

/-- `ll_act_arr_start`. -/
def llActArrStart (h : H) (build : List V) : H × List V := (h, ops.arrStart :: build)

/-- The loop of `ll_act_arr_end`, on the build list. On an empty list it
would add null pointers for ever. -/
def arrEndLoop (h : H) (arr : V) : List V → Except Fault (V × H × List V)
  | [] => .error .endless
  | val :: build =>
    if ops.isArrStart val then .ok (arr, h, build)
    else do
      let (arr, h) ← arrayAddHead ops h arr val
      let h ← ops.decref h val
      arrEndLoop h arr build

/-- `ll_act_arr_end`. -/
def llActArrEnd (h : H) (build : List V) : Except Fault (H × List V) := do
  let (arr, h) := ops.createArray h
  let h ← ops.incref h arr
  let (arr, h, build) ← arrEndLoop ops h arr build
  .ok (h, arr :: build)

/-- `ll_action`. -/
def llAction (rule : ℕ) (h : H) (build : List V) (tok : Token V) : Except Fault (H × List V) :=
  match rule with
  | 5 | 6 | 7 | 14 => llActEcho ops h build tok
  | 8 => .ok (llActObjStart ops h build)
  | 9 | 13 => llActObjEnd ops h build
  | 15 => .ok (llActArrStart ops h build)
  | 16 | 20 => llActArrEnd ops h build
  | _ => .ok (h, build)

/-- `ll_push`. -/
def llPush (parse : Parse H V) (sym : Sym) : Except Fault (Parse H V) :=
  if parse.stack.length < LL_STACK_SIZE then .ok { parse with stack := sym :: parse.stack }
  else .error .overflow

/-- Pushing a rule, the last symbol first. -/
def pushAll (parse : Parse H V) : List Sym → Except Fault (Parse H V)
  | [] => .ok parse
  | sym :: syms => do
    let parse ← parse.pushAll syms
    parse.llPush sym

/-- `ll_cycle`. -/
def llCycle (parse : Parse H V) : Except Fault (Parse H V) :=
  let parse :=
    match parse.build with
    | [] => parse
    | n :: build => { parse with build := build }.outEnqueue n
  if parse.multidoc then parse.llPush .jsonDocument else .ok parse

/-- How far a symbol is from the tokens it can begin with. -/
def rank : Sym → ℕ
  | .jsonDocument | .arrBody | .objBody => 4
  | .arrElems | .objElems => 3
  | .value | .objElem => 2
  | .object | .array | .objTail | .arrTail => 1
  | _ => 0

/-- The loop of `ll_parse`, for so many rounds. -/
def llLoop : ℕ → Parse H V → Token V → Except Fault (Parse H V)
  | 0, _, _ => .error .endless
  | n + 1, parse, tok =>
    match parse.stack with
    | [] => .ok (parse.parseError (.afterInput tok.sym))
    | top :: stack =>
      let parse := { parse with stack := stack }
      if top = tok.sym then
        if stack = [] then parse.llCycle else .ok parse
      else if llTable top tok.sym = 0 then .ok (parse.parseError (.expected top tok.sym))
      else do
        let (h, build) ← llAction ops (llTable top tok.sym) parse.heap parse.build tok
        let parse ← { parse with heap := h, build := build }.pushAll (llRules (llTable top tok.sym))
        llLoop n parse tok

/-- `ll_token_free`. -/
def llTokenFree (parse : Parse H V) (tok : Token V) : Except Fault (Parse H V) :=
  match tok.val with
  | none => .ok parse
  | some val => do
    let h ← ops.decref parse.heap val
    .ok { parse with heap := h }

/-- `ll_parse`. No token takes the loop more than five rounds, as the rank
of the symbol on top falls from one to the next. -/
def llParse (parse : Parse H V) (tok : Token V) : Except Fault (Parse H V) := do
  let parse ← llLoop ops 5 { parse with log := parse.log ++ [.token tok] } tok
  parse.llTokenFree ops tok

/-! ## The lexer -/

/-- `lex_easy`. -/
def lexEasy (parse : Parse H V) (sym : Sym) : Except Fault (Parse H V) := parse.llParse ops ⟨sym, none⟩

/-- `lex_append`. -/
def lexAppend (parse : Parse H V) (c : UInt8) : Parse H V := { parse with buf := parse.buf.appendChar c }

/-- What a character after a backslash stands for. -/
def escaped (c : UInt8) : Option UInt8 :=
  if c = ch '"' ∨ c = ch '\\' ∨ c = ch '/' then some c
  else if c = ch 'b' then some 0x8
  else if c = ch 'f' then some 0xc
  else if c = ch 'n' then some 0xa
  else if c = ch 'r' then some 0xd
  else if c = ch 't' then some 0x9
  else none

/-- `strtol(ubuf, NULL, 16) & 0xff`. -/
def ubufByte (ubuf : List UInt8) : UInt8 := UInt8.ofNat ((strtol ubuf 16) % 256).toNat

/-- `lex_string_scan`, on what is left of the lexeme. The NUL after the
lexeme is what follows a backslash at its end. -/
def lexStringScan (str : MowgliString) : List UInt8 → MowgliString
  | [] => str
  | [c] => if c = ch '\\' then str else str.appendChar c
  | c :: d :: s =>
    if c = ch '\\' then
      if d = ch 'u' then
        match s with
        | u₁ :: u₂ :: u₃ :: u₄ :: s => lexStringScan (str.appendChar (ubufByte [u₁, u₂, u₃, u₄])) s
        | _ => str
      else
        match escaped d with
        | some e => lexStringScan (str.appendChar e) s
        | none => lexStringScan str s
    else lexStringScan (str.appendChar c) (d :: s)

/-- The value of a number, with no reference to it yet. -/
def numberValue (h : H) (s : List UInt8) : V × H :=
  if ch '.' ∈ s ∨ ch 'e' ∈ s then ops.createFloat h s else ops.createInteger h (toInt (strtol s 0))

/-- The characters of an identifier. -/
def chars (s : String) : List UInt8 := s.toList.map ch

/-- The value of an identifier. -/
def identifierValue (s : List UInt8) : V :=
  if s = chars "null" then ops.null
  else if s = chars "true" then ops.true
  else if s = chars "false" then ops.false
  else ops.null

/-- The token of `lex_tokenize`, with the reference the token has. -/
def lexToken (parse : Parse H V) : Except Fault (Token V × H) :=
  match parse.lex with
  | .string => do
    let (val, h) := ops.createString parse.heap (lexStringScan .create parse.buf.bytes).bytes
    let h ← ops.incref h val
    .ok (⟨.string, some val⟩, h)
  | .number => do
    let (val, h) := numberValue ops parse.heap parse.buf.str
    let h ← ops.incref h val
    .ok (⟨.number, some val⟩, h)
  | .identifier => .ok (⟨.identifier, some (identifierValue ops parse.buf.str)⟩, parse.heap)
  | _ => .ok (⟨.none, none⟩, parse.heap)

/-- `lex_tokenize`. -/
def lexTokenize (parse : Parse H V) : Except Fault (Parse H V) := do
  let (tok, h) ← parse.lexToken ops
  { parse with heap := h, buf := parse.buf.reset, lex := .limbo }.llParse ops tok

/-- The tokens of one character. -/
def easySym (c : UInt8) : Option Sym :=
  if c = ch '\x7b' then some .beginObject
  else if c = ch '\x7d' then some .endObject
  else if c = ch '[' then some .beginArray
  else if c = ch ']' then some .endArray
  else if c = ch ':' then some .nameSep
  else if c = ch ',' then some .valueSep
  else none

/-- Whether a number begins. -/
def beginsNumber (c : UInt8) : Bool := c = ch '-' || c = ch '.' || isDigit c

/-- Whether a number goes on. -/
def inNumber (c : UInt8) : Bool := c = ch '-' || c = ch '.' || isDigit c || toUpper c = ch 'E'

/-- `lex_char` in `LEX_LIMBO`. -/
def lexLimbo (parse : Parse H V) (c : UInt8) : Except Fault (Bool × Parse H V) :=
  match easySym c with
  | some sym => do
    let parse ← parse.lexEasy ops sym
    .ok (.false, parse)
  | none =>
    if beginsNumber c then .ok (.true, { parse with lex := .number })
    else if isAlpha c then .ok (.true, { parse with lex := .identifier })
    else if c = ch '"' then .ok (.false, { parse with lex := .string })
    else if isSpace c then .ok (.false, parse)
    else .ok (.false, parse.parseError (.character c))

/-- A character that ends a number or an identifier is sent again. -/
def lexEnd (parse : Parse H V) (goesOn : Bool) (c : UInt8) : Except Fault (Bool × Parse H V) :=
  if goesOn then .ok (.false, parse.lexAppend c)
  else do
    let parse ← parse.lexTokenize ops
    .ok (.true, parse)

/-- `lex_char`: the character is to be sent again if it answers so. -/
def lexChar (parse : Parse H V) (c : UInt8) : Except Fault (Bool × Parse H V) :=
  match parse.lex with
  | .limbo => parse.lexLimbo ops c
  | .string =>
    if c = ch '\\' then .ok (.false, { parse.lexAppend c with lex := .stringEsc })
    else if c = ch '"' then do
      let parse ← parse.lexTokenize ops
      .ok (.false, parse)
    else .ok (.false, parse.lexAppend c)
  | .stringEsc =>
    if c = ch 'u' then .ok (.false, { parse.lexAppend c with lexU := 0, lex := .stringEscU })
    else .ok (.false, { parse.lexAppend c with lex := .string })
  | .stringEscU =>
    let parse := { parse.lexAppend c with lexU := parse.lexU + 1 }
    if 4 ≤ parse.lexU then .ok (.false, { parse with lex := .string }) else .ok (.false, parse)
  | .number => parse.lexEnd ops (inNumber c) c
  | .identifier => parse.lexEnd ops (isAlpha c) c

/-- `while (lex_char(parse, *data))`, for so many rounds. -/
def sendChar : ℕ → Parse H V → UInt8 → Except Fault (Parse H V)
  | 0, _, _ => .error .endless
  | n + 1, parse, c => do
    match ← parse.lexChar ops c with
    | (.true, parse) => sendChar n parse c
    | (.false, parse) => .ok parse

/-- The body of the loop of `mowgli_json_parse_data`. A character is sent
three times at most: it ends a token, begins another, and is part of it. -/
def parseChar (parse : Parse H V) (c : UInt8) : Except Fault (Parse H V) := sendChar ops 3 parse c

/-- `mowgli_json_parse_data`. -/
def parseData (parse : Parse H V) : List UInt8 → Except Fault (Parse H V)
  | [] => .ok parse
  | c :: data =>
    match parse.error with
    | some _ => .ok parse
    | none => do
      let parse ← parse.parseChar ops c
      parse.parseData data

/-! ## The interface -/

/-- `mowgli_json_parse_create`. -/
def create (h : H) (multidoc : Bool) : Parse H V :=
  ⟨h, [], none, multidoc, [], [.jsonDocument], .create, .limbo, 0, []⟩

/-- `mowgli_json_decref` on all of a list. -/
def decrefAll (h : H) : List V → Except Fault H
  | [] => .ok h
  | val :: vals => do
    let h ← ops.decref h val
    decrefAll h vals

/-- `mowgli_json_parse_reset`. -/
def parseReset (parse : Parse H V) (multidoc : Bool) : Except Fault (Parse H V) := do
  let h ← decrefAll ops parse.heap parse.out
  let h ← decrefAll ops h parse.build
  .ok { parse with
    heap := h, out := [], build := [], error := none, multidoc := multidoc, stack := [.jsonDocument]
    buf := parse.buf.reset, lex := .limbo, log := [] }

/-- `mowgli_json_parse_error`. -/
def errorText (parse : Parse H V) : Option String := parse.error.map ParseError.text

/-- `mowgli_json_parse_more`. -/
def parseMore (parse : Parse H V) : Bool := parse.out ≠ []

/-- `mowgli_json_parse_next`. -/
def parseNext (parse : Parse H V) : Option V × Parse H V :=
  match parse.out with
  | [] => (none, parse)
  | n :: out => (some n, { parse with out := out })

/-- What is left when a value was returned. -/
theorem parseNext_some {parse parse' : Parse H V} {v : V} (h : parse.parseNext = (some v, parse')) :
    ∃ out, parse.out = v :: out ∧ parse' = { parse with out := out } := by
  unfold parseNext at h
  cases hout : parse.out with
  | nil =>
    rw [hout] at h
    cases h
  | cons n out =>
    rw [hout] at h
    cases h
    exact ⟨out, rfl, rfl⟩

/-- What is left of a parser that was reset. -/
theorem parseReset_ok {ops : JsonOps H V} {parse parse' : Parse H V} {multidoc : Bool}
    (h : parse.parseReset ops multidoc = .ok parse') : ∃ heap, parse' = { parse with
      heap := heap, out := [], build := [], error := none, multidoc := multidoc, stack := [.jsonDocument]
      buf := parse.buf.reset, lex := .limbo, log := [] } := by
  unfold parseReset at h
  cases hout : decrefAll ops parse.heap parse.out with
  | error f =>
    rw [hout] at h
    cases h
  | ok h₁ =>
    cases hbuild : decrefAll ops h₁ parse.build with
    | error f =>
      simp only [hout, bind, Except.bind, hbuild] at h
      cases h
    | ok h₂ =>
      simp only [hout, bind, Except.bind, hbuild] at h
      cases h
      exact ⟨h₂, rfl⟩

/-! ## The static parser -/

/-- `static_parser`, before its first use. -/
def staticParser (h : H) : Parse H V := ⟨h, [], none, false, [], [], .create, .limbo, 0, []⟩

/-- What is returned when there is no more to read: nothing where there was
an error, nor where the document is not complete. -/
def parseEnd (parse : Parse H V) : Option V × Parse H V :=
  match parse.error with
  | some _ => (none, parse)
  | none => parse.parseNext

/-- `mowgli_json_parse_string`. -/
def parseString (parse : Parse H V) (data : CString) : Except Fault (Option V × Parse H V) := do
  let parse ← parse.parseReset ops false
  let parse ← parse.parseData ops data.bytes
  .ok parse.parseEnd

/-- The loop of `mowgli_json_parse_file`. A read that gets less than it asks
for is at the end of the file. -/
def fileLoop (parse : Parse H V) (data : List UInt8) : Except Fault (Parse H V) := do
  let parse ← parse.parseData ops (data.take 512)
  if 512 ≤ data.length ∧ parse.error = none then fileLoop parse (data.drop 512) else .ok parse
termination_by data.length
decreasing_by
  rw [List.length_drop]
  omega

/-- `mowgli_json_parse_file`, for what is in the file if it can be opened. -/
def parseFile (parse : Parse H V) (contents : Option (List UInt8)) : Except Fault (Option V × Parse H V) := do
  let parse ← parse.parseReset ops false
  match contents with
  | none => .ok (none, parse)
  | some data => do
    let parse ← parse.fileLoop ops data
    .ok parse.parseEnd

end Parse

end Json

end Mowgli
