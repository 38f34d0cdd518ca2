import Mowgli.Ext.Confparse.Model
import Mowgli.Library.Forest
/-!
# What the config parser reads, as text

The parser without its memory: what is left of the text stands for the
cursor, strings for the positions of names, and a forest that is open at its
end for the entries and their pointers. It has the functions the parser has.
It answers `none` where an unquoted word is cut off by the end of the text.
-/

namespace Mowgli

namespace Confparse

/-- What is left of the text, and the line. -/
structure Place where
  rest : List UInt8
  curline : ℤ

/-- What `skip_ws` is in. -/
inductive Skipping
  | blank
  | line
  /-- At the `'*'` a comment begins with. -/
  | opening
  | comment
  /-- At the `'/'` a comment ends with. -/
  | closing

namespace Place

variable (p : Place)

/-- There was an error. -/
def errored : Prop := p.curline ≤ 0

instance : Decidable p.errored := inferInstanceAs (Decidable (p.curline ≤ 0))

/-- An error is set. -/
def error : Place := { p with curline := -|p.curline| }

/-- What is left after whitespace and comments, a text being read on in a
comment or not. -/
def skipFrom : Skipping → List UInt8 → ℤ → Place
  | .blank, [], l => ⟨[], l⟩
  | .blank, x :: t, l =>
    if x = ch ' ' ∨ x = ch '\t' ∨ x = ch '\r' ∨ x = ch '=' then skipFrom .blank t l
    else if x = ch '\n' then skipFrom .blank t (toInt (l + 1))
    else if x = ch '/' ∧ t.head? = some (ch '*') then skipFrom .opening t l
    else if x = ch '/' ∧ t.head? = some (ch '/') then skipFrom .line t l
    else if x = ch '#' then skipFrom .line t l
    else ⟨x :: t, l⟩
  | .line, [], l => ⟨[], l⟩
  | .line, x :: t, l =>
    if x = ch '\n' then skipFrom .blank t (toInt (l + 1))
    else if x = ch '\r' then skipFrom .blank t l
    else skipFrom .line t l
  | .opening, [], l => ⟨[], l⟩
  | .opening, _ :: t, l => skipFrom .comment t l
  | .comment, [], l => (⟨[], l⟩ : Place).error
  | .comment, x :: t, l =>
    if x = ch '*' ∧ t.head? = some (ch '/') then skipFrom .closing t l
    else if x = ch '\n' then skipFrom .comment t (toInt (l + 1))
    else skipFrom .comment t l
  | .closing, [], l => ⟨[], l⟩
  | .closing, _ :: t, l => skipFrom .blank t l

/-- `skip_ws`. -/
def skip : Place := skipFrom .blank p.rest p.curline

/-- A quoted string is decoded, up to what ends it. -/
def decode : List UInt8 → List UInt8 × List UInt8
  | [] => ([], [])
  | x :: t =>
    if x = ch '\r' ∨ x = ch '\n' ∨ x = ch '"' then ([], x :: t)
    else
      match t with
      | [] => ([x], [])
      | y :: u =>
        if x = ch '\\' ∧ (y = ch '"' ∨ y = ch '\\') then (y :: (decode u).1, (decode u).2)
        else (x :: (decode (y :: u)).1, (decode (y :: u)).2)

/-- What an unquoted string is made of. -/
def inWord (x : UInt8) : Bool := ¬ Cursor.endsWord x

/-- `get_value`, at a quotation mark. -/
def quoted : Option CString × UInt8 × Place :=
  match decode p.rest.tail with
  | (s, x :: t) => if x = ch '"' then (some (stringOf s), 0, (⟨t, p.curline⟩ : Place).skip) else (none, 0, p.error)
  | (_, []) => (none, 0, p.error)

/-- `get_value`, at an unquoted string. -/
def unquoted : Option (Option CString × UInt8 × Place) :=
  let w := p.rest.takeWhile inWord
  if w = [] then some (none, 0, p)
  else
    match p.rest.dropWhile inWord with
    | [] => none
    | x :: t =>
      let p' := (⟨x :: t, p.curline⟩ : Place).skip
      if p'.rest = x :: t then some (some (stringOf w), x, ⟨t, p'.curline⟩) else some (some (stringOf w), 0, p')

/-- `get_value`. -/
def value : Option (Option CString × UInt8 × Place) :=
  if p.rest.head? = some (ch '"') then some p.quoted else p.unquoted

/-- The delimiter after a name or a value, if it was not skipped. -/
def delimiter (skipped : UInt8) : UInt8 × Place :=
  if skipped = 0 then
    match p.rest with
    | [] => (0, p)
    | x :: t => if x = ch '{' ∨ x = ch ';' then (x, ⟨t, p.curline⟩) else (0, p)
  else (skipped, p)

end Place

/-- An entry. -/
structure Node where
  varlinenum : ℤ
  varname : CString
  vardata : Option CString
  sectlinenum : ℤ

/-- A file that was parsed. The children of an entry are its left subtree, its
next siblings the right one. -/
structure Loaded where
  filename : CString
  entries : BinTree Node

open BinTree

/-- A file that is being parsed. -/
structure Reader where
  place : Place
  entries : List (Frame Node)

/-- What a turn of the loop comes to: the loop goes on, or ends, or goes on
with a file that is included. -/
inductive Turn
  | on (r : Reader)
  | off (r : Reader)
  | file (r : Reader) (name : CString)

namespace Reader

variable (r : Reader)

/-- An error, after which the parser leaves its loop. -/
def fail : Turn := .off { r with place := r.place.error }

/-- A new entry. -/
def newEntry (varname : CString) : Reader :=
  { r with entries := .sibling nil ⟨r.place.curline, varname, none, 0⟩ :: r.entries }

/-- The last entry becomes the section that is open. -/
def openSection : Reader := { r with entries := opened r.entries }

/-- At a `'}'`. -/
def closeSection : Turn :=
  match shut r.entries nil with
  | none => r.fail
  | some entries =>
    let place := (⟨r.place.rest.tail, r.place.curline⟩ : Place).skip
    let r := { r with place := place, entries := onTop (fun e => { e with sectlinenum := r.place.curline }) entries }
    if place.errored then .off r
    else if place.rest.head? = some (ch ';') then .on { r with place := ⟨place.rest.tail, place.curline⟩ }
    else r.fail

/-- At the end of an entry with a value. -/
def directive (varname vardata : CString) : Turn :=
  if sections r.entries = [] ∧ CString.strcasecmp varname includeName = 0 then .file r vardata else .on r

/-- After the value of an entry. -/
def afterData (varname vardata : CString) (c : UInt8) : Turn :=
  if c = ch '{' then .on r.openSection
  else if c = ch ';' then r.directive varname vardata
  else r.fail

/-- The value of an entry. -/
def readData (varname : CString) : Option Turn := do
  let (val, c, place) ← r.place.value
  let r := { r with place := place }
  if place.errored then some (.off r)
  else
    match val with
    | none => some r.fail
    | some val =>
      let r := { r with entries := onTop (fun e => { e with vardata := some val }) r.entries }
      let (c, place) := place.delimiter c
      some (({ r with place := place } : Reader).afterData varname val c)

/-- After the name of an entry. -/
def afterName (varname : CString) (c : UInt8) : Option Turn :=
  if c = ch '{' then some (.on r.openSection)
  else if c = ch ';' then some (.on r)
  else if c ≠ 0 then some r.fail
  else r.readData varname

/-- An entry. -/
def readEntry : Option Turn := do
  let (val, c, place) ← r.place.value
  let r := { r with place := place }
  if place.errored then some (.off r)
  else
    match val with
    | none => some r.fail
    | some val =>
      let r := r.newEntry val
      let (c, place) := r.place.delimiter c
      ({ r with place := place } : Reader).afterName val c

/-- A turn of the loop. -/
def turn : Option Turn :=
  let place := r.place.skip
  let r := { r with place := place }
  if place.rest = [] ∨ place.errored then some (.off r)
  else if place.rest.head? = some (ch '}') then some r.closeSection
  else r.readEntry

/-- A file is included, which comes with others. -/
def includeFile (load : CString → Option (Option (List Loaded))) (name : CString) :
    Option (Bool × Reader × List Loaded) :=
  (load name).map fun subcf =>
    match subcf with
    | none => (false, { r with place := r.place.error }, [])
    | some files => (true, r, files)

end Reader

/-- A turn is made: whether the loop goes on, and the files that are included. -/
def Turn.run (load : CString → Option (Option (List Loaded))) : Turn → Option (Bool × Reader × List Loaded)
  | .on r => some (true, r, [])
  | .off r => some (false, r, [])
  | .file r name => r.includeFile load name

namespace Reader

variable (load : CString → Option (Option (List Loaded))) (r : Reader)

/-- A turn of the loop. -/
def body : Option (Bool × Reader × List Loaded) := r.turn.bind (Turn.run load)

/-- The loop, `next` being the files that were included. -/
def loop : ℕ → Reader → List Loaded → Option (Reader × List Loaded)
  | 0, _, _ => none
  | fuel + 1, r, next =>
    if r.place.rest = [] then some (r, next)
    else do
      let (go, r, files) ← r.body load
      if go then loop fuel r (next ++ files) else some (r, next ++ files)

/-- Sections that are open at the end. -/
def unclosed : Reader :=
  if sections r.entries = [] ∨ r.place.errored then r else { r with place := r.place.error.error }

/-- The file and those it includes, null if there was an error. -/
def finish (filename : CString) (next : List Loaded) : Option (List Loaded) :=
  if r.place.errored then none else some (⟨filename, plug r.entries nil⟩ :: next)

/-- Before the first entry. -/
def start (text : List UInt8) : Reader := ⟨⟨text, 1⟩, []⟩

end Reader

/-- `mowgli_config_file_parse`. -/
def parseText (load : CString → Option (Option (List Loaded))) (fuel : ℕ) (filename : CString) (text : List UInt8) :
    Option (Option (List Loaded)) :=
  (Reader.loop load fuel (.start text) []).map fun x => x.1.unclosed.finish filename x.2

/-- `mowgli_config_file_load_internal`. -/
def loadText (files : CString → Opened) (fuel depth nestcnt : ℕ) : CString → Option (Option (List Loaded)) := fun filename =>
  if maxIncludeNesting < nestcnt then some none
  else
    match files filename with
    | .contents bytes =>
      match depth with
      | 0 => none
      | depth + 1 => parseText (loadText files fuel depth (nestcnt + 1)) fuel filename (stringOf bytes).bytes
    | _ => some none

/-! ## What is left of a text -/

namespace Place

variable {p p' : Place} {k : UInt8} {val : Option CString}

theorem skipFrom_suffix (m : Skipping) (t : List UInt8) (l : ℤ) : ∃ e, t = e ++ (skipFrom m t l).rest := by
  fun_induction skipFrom m t l
  all_goals first
    | exact ⟨[], rfl⟩
    | (rename_i ih
       obtain ⟨e, he⟩ := ih
       exact ⟨_ :: e, congrArg (List.cons _) he⟩)

theorem skip_suffix (p : Place) : ∃ e, p.rest = e ++ p.skip.rest := skipFrom_suffix _ _ _

/-- What ends a string. -/
theorem decode_stops (t : List UInt8) : ∀ x u, (decode t).2 = x :: u → x = ch '\r' ∨ x = ch '\n' ∨ x = ch '"' := by
  fun_induction decode t with
  | case1 => simp
  | case2 x t hx =>
    intro y u h
    rw [List.cons.injEq] at h
    exact h.1 ▸ hx
  | case3 => simp
  | case4 x hx y u hesc ih => exact ih
  | case5 x hx y u hesc ih => exact ih

theorem decode_suffix (t : List UInt8) : ∃ e, t = e ++ (decode t).2 := by
  fun_induction decode t with
  | case1 => exact ⟨[], rfl⟩
  | case2 x t hx => exact ⟨[], rfl⟩
  | case3 x hx => exact ⟨[x], rfl⟩
  | case4 x hx y u hesc ih =>
    obtain ⟨e, he⟩ := ih
    exact ⟨x :: y :: e, by rw [List.cons_append, List.cons_append, ← he]⟩
  | case5 x hx y u hesc ih =>
    obtain ⟨e, he⟩ := ih
    exact ⟨x :: e, by rw [List.cons_append, ← he]⟩

/-- A name or a value is read on the way. -/
theorem value_suffix (h : p.value = some (val, k, p')) : ∃ e, p.rest = e ++ p'.rest ∧ (val ≠ none → e ≠ []) := by
  rw [value] at h
  split_ifs at h with hq
  · obtain ⟨t, l⟩ := p
    obtain ⟨x, u, rfl⟩ : ∃ x u, t = x :: u := by
      cases t with
      | nil => cases hq
      | cons x u => exact ⟨x, u, rfl⟩
    obtain ⟨e, he⟩ := decode_suffix u
    rw [quoted, List.tail_cons] at h
    split at h
    · rename_i s y v hd
      rw [hd] at he
      split_ifs at h with hy
      · obtain ⟨e', he'⟩ := skip_suffix ⟨v, l⟩
        cases h
        exact ⟨x :: (e ++ y :: e'), by simp [he, ← he'], by simp⟩
      · cases h
        exact ⟨[], rfl, by simp⟩
    · cases h
      exact ⟨[], rfl, by simp⟩
  · rw [unquoted] at h
    split_ifs at h with hw
    · cases h
      exact ⟨[], rfl, by simp⟩
    · have hsplit : p.rest.takeWhile inWord ++ p.rest.dropWhile inWord = p.rest := List.takeWhile_append_dropWhile
      split at h
      · cases h
      · rename_i x u hu
        rw [hu] at hsplit
        simp only at h
        split_ifs at h with hstop
        · cases h
          exact ⟨p.rest.takeWhile inWord ++ [k], by rw [List.append_assoc, List.singleton_append, hsplit], by simp⟩
        · cases h
          obtain ⟨e, he⟩ := skip_suffix ⟨x :: u, p.curline⟩
          exact ⟨p.rest.takeWhile inWord ++ e, by rw [List.append_assoc, ← he, hsplit], by simp [hw]⟩

theorem delimiter_suffix (p : Place) (k : UInt8) : ∃ e, p.rest = e ++ (p.delimiter k).2.rest := by
  rw [delimiter]
  split_ifs
  · split
    · exact ⟨[], rfl⟩
    · rename_i x t hx
      split_ifs
      · exact ⟨[x], hx⟩
      · exact ⟨[], rfl⟩
  · exact ⟨[], rfl⟩

end Place

end Confparse

end Mowgli
