import Mowgli.Base.Ctype
import Mowgli.Library.Store
/-!
# The config parser, as `ext/confparse.c` has it

A block of memory that is text ends at its first NUL. A name or a value is
decoded where it stands and ended by a NUL that is written over the text, so
an entry has the positions of both. What reads or writes past the block
answers `none`, as does what follows a dangling pointer, a failed allocation,
and a loop that has not ended after `fuel` turns. While a file is parsed its
text and its `curline` are the cursor's. `curline` is an `int` that wraps; an
error turns its sign.

The files there are to open are a parameter. The error that opening one sets
in the file that includes it is one that is set there again.
-/

namespace Mowgli

namespace Confparse

/-! ## Reading the text -/

/-- Where the parser is in the text: `cf->mem`, `*pos` and `cf->curline`, and
the lines logged. -/
structure Cursor where
  mem : List UInt8
  pos : ℕ
  curline : ℤ
  log : List LogLine

namespace Cursor

/-- `CF_ERRORED`. -/
def errored (c : Cursor) : Prop := c.curline ≤ 0

instance (c : Cursor) : Decidable c.errored := inferInstanceAs (Decidable (c.curline ≤ 0))

/-- `mowgli_config_file_error`. -/
def error (c : Cursor) (format : String) : Cursor :=
  { c with curline := -|c.curline|, log := c.log ++ [.message format] }

/-- `(*pos)++`. -/
def next (c : Cursor) : Cursor := { c with pos := c.pos + 1 }

/-- `cf->curline++`. -/
def newline (c : Cursor) : Cursor := { c with curline := toInt (c.curline + 1) }

/-- `while (**pos != '\0' && (**pos != '*' || (*pos)[1] != '/'))`. -/
def commentLoop : ℕ → Cursor → Option Cursor
  | 0, _ => none
  | fuel + 1, c => do
    let x ← c.mem[c.pos]?
    let y ← if x = ch '*' then c.mem[c.pos + 1]? else some 0
    if x = 0 ∨ y = ch '/' then some c
    else commentLoop fuel (if x = ch '\n' then c.newline.next else c.next)

/-- `skip_ws`: a comment, from its first two characters on. -/
def comment (c : Cursor) : Option Cursor := do
  let c ← commentLoop c.mem.length c.next.next
  let x ← c.mem[c.pos]?
  some (if x = 0 then c.error "File ends inside comment starting at line %d" else c.next)

/-- `while (**pos != '\0' && **pos != '\n' && **pos != '\r')`. -/
def lineLoop : ℕ → Cursor → Option Cursor
  | 0, _ => none
  | fuel + 1, c => do
    let x ← c.mem[c.pos]?
    if x = 0 ∨ x = ch '\n' ∨ x = ch '\r' then some c else lineLoop fuel c.next

/-- The loop of `skip_ws`. -/
def skipLoop : ℕ → Cursor → Option Cursor
  | 0, _ => none
  | fuel + 1, c => do
    let x ← c.mem[c.pos]?
    if x = ch ' ' ∨ x = ch '\t' ∨ x = ch '\r' ∨ x = ch '=' then skipLoop fuel c.next
    else if x = ch '\n' then skipLoop fuel c.newline.next
    else if x = ch '/' then do
      let y ← c.mem[c.pos + 1]?
      if y = ch '*' then do
        let c ← c.comment
        let z ← c.mem[c.pos]?
        if z = 0 then some c else skipLoop fuel c.next
      else if y = ch '/' then do
        let c ← lineLoop c.mem.length c
        skipLoop fuel c
      else some c
    else if x = ch '#' then do
      let c ← lineLoop c.mem.length c
      skipLoop fuel c
    else some c

/-- `skip_ws`. -/
def skipWs (c : Cursor) : Option Cursor := skipLoop c.mem.length c

/-- `*q = x`. -/
def write (mem : List UInt8) (q : ℕ) (x : UInt8) : Option (List UInt8) :=
  if q < mem.length then some (mem.set q x) else none

/-- `get_value`: whether the character at `p` is a backslash that is left out. -/
def escapes (mem : List UInt8) (p : ℕ) (x : UInt8) : Option Bool :=
  if x = ch '\\' then (mem[p + 1]?).map fun y => y = ch '"' ∨ y = ch '\\' else some false

/-- `get_value`: the loop over a quoted string, and where `p` and `q` are
after it. -/
def quotedLoop : ℕ → List UInt8 → ℕ → ℕ → Option (List UInt8 × ℕ × ℕ)
  | 0, _, _, _ => none
  | fuel + 1, mem, p, q => do
    let x ← mem[p]?
    if x = 0 ∨ x = ch '\r' ∨ x = ch '\n' ∨ x = ch '"' then some (mem, p, q)
    else do
      let e ← escapes mem p x
      let p := if e then p + 1 else p
      let y ← mem[p]?
      let mem ← write mem q y
      quotedLoop fuel mem (p + 1) (q + 1)

/-- `get_value`, for a quoted string. It answers the position of the value,
null if there is none, and `*skipped`. -/
def getQuoted (c : Cursor) : Option (Option ℕ × UInt8 × Cursor) := do
  let start := c.pos + 1
  let (mem, p, q) ← quotedLoop c.mem.length c.mem start start
  let x ← mem[p]?
  let c := { c with mem := mem }
  if x = 0 then some (none, 0, c.error "File ends inside quoted string")
  else if x = ch '\r' ∨ x = ch '\n' then some (none, 0, c.error "Newline inside quoted string")
  else do
    let mem ← write mem q 0
    let c ← ({ c with mem := mem, pos := p + 1 } : Cursor).skipWs
    some (some start, 0, c)

/-- What an unquoted string ends before. -/
def endsWord (x : UInt8) : Prop :=
  x = 0 ∨ x = ch '\t' ∨ x = ch '\r' ∨ x = ch '\n' ∨ x = ch ' ' ∨ x = ch '/' ∨ x = ch '#' ∨ x = ch ';' ∨
    x = ch '{' ∨ x = ch '}'

instance (x : UInt8) : Decidable (endsWord x) := by
  unfold endsWord
  infer_instance

/-- `get_value`: the loop over an unquoted string. -/
def wordLoop (mem : List UInt8) : ℕ → ℕ → Option ℕ
  | 0, _ => none
  | fuel + 1, p => do
    let x ← mem[p]?
    if endsWord x then some p else wordLoop mem fuel (p + 1)

/-- `get_value`, for an unquoted string that ends at `p`: what is skipped is
the character there, if no whitespace is. -/
def endWord (c : Cursor) (p : ℕ) : Option (UInt8 × Cursor) := do
  let c ← ({ c with pos := p } : Cursor).skipWs
  let x ← c.mem[p]?
  let mem ← write c.mem p 0
  let c := { c with mem := mem }
  some (if p = c.pos then (x, c.next) else (0, c))

/-- `get_value`, for an unquoted string. -/
def getWord (c : Cursor) : Option (Option ℕ × UInt8 × Cursor) := do
  let p ← wordLoop c.mem c.mem.length c.pos
  if p = c.pos then some (none, 0, c)
  else do
    let (skipped, c') ← c.endWord p
    some (some c.pos, skipped, c')

/-- `get_value`. -/
def getValue (c : Cursor) : Option (Option ℕ × UInt8 × Cursor) := do
  let x ← c.mem[c.pos]?
  if x = ch '"' then c.getQuoted else c.getWord

/-- `if ((c == '\0') && ((*p == '{') || (*p == ';'))) c = *p++;`. -/
def delimiter (c : Cursor) (skipped : UInt8) : Option (UInt8 × Cursor) :=
  if skipped = 0 then do
    let x ← c.mem[c.pos]?
    some (if x = ch '{' ∨ x = ch ';' then (x, c.next) else (0, c))
  else some (skipped, c)

end Cursor

/-- The string at the front of a text. -/
def stringOf (text : List UInt8) : CString where
  bytes := text.takeWhile fun x => x ≠ 0
  nul_free h := by
    have hall := List.all_eq_true.1 (List.all_takeWhile (p := fun x : UInt8 => x ≠ 0) (l := text)) 0 h
    simp at hall

/-- The string at a position of a block. -/
def stringAt (mem : List UInt8) (p : ℕ) : CString := stringOf (mem.drop p)

/-- The name of the entries that include files. -/
def includeName : CString := ⟨[ch 'i', ch 'n', ch 'c', ch 'l', ch 'u', ch 'd', ch 'e'], by decide⟩

/-- `MAX_INCLUDE_NESTING`. -/
def maxIncludeNesting : ℕ := 16

/-! ## The entries and the files -/

/-- `mowgli_config_file_entry_t`. The names are positions in `cf->mem`. -/
structure ConfigFileEntry where
  varlinenum : ℤ
  varname : ℕ
  vardata : Option ℕ
  sectlinenum : ℤ
  entries : Option Addr
  prevlevel : Option Addr
  next : Option Addr

/-- `mowgli_config_file_t`. The name and the text are blocks. -/
structure ConfigFile where
  filename : Addr
  mem : Addr
  entries : Option Addr
  next : Option Addr

/-- The memory, and the static `nestcnt`. -/
structure Memory where
  entries : Store ConfigFileEntry
  files : Store ConfigFile
  blocks : Store (List UInt8)
  nestcnt : ℕ

/-- Where entries, files and blocks are allocated. -/
structure Allocators where
  entry : Allocator ConfigFileEntry
  file : Allocator ConfigFile
  block : Allocator (List UInt8)

/-- What there is to be read under a name. -/
inductive Opened
  | noFile
  | noStat
  | notRegular
  | tooLarge
  | unreadable
  | contents (bytes : List UInt8)

/-- What `mowgli_config_file_load_internal` is: it answers the lines logged,
the memory and the file, null on failure. -/
abbrev Loader : Type := CString → Memory → Option (List LogLine × Memory × Option Addr)

namespace Memory

/-- `mowgli_free`, of an entry. -/
def freeEntry (m : Memory) (ce : Addr) : Option Memory :=
  (m.entries.get ce).map fun _ => { m with entries := m.entries.free ce }

/-- `mowgli_free`, of a file. -/
def freeFile (m : Memory) (cf : Addr) : Option Memory :=
  (m.files.get cf).map fun _ => { m with files := m.files.free cf }

/-- `mowgli_free`, of a block. -/
def freeBlock (m : Memory) (a : Addr) : Option Memory :=
  (m.blocks.get a).map fun _ => { m with blocks := m.blocks.free a }

/-- `mowgli_config_file_entry_free`. -/
def freeEntries : ℕ → Memory → Option Addr → Option Memory
  | 0, _, _ => none
  | _ + 1, m, none => some m
  | fuel + 1, m, some ce => do
    let e ← m.entries.get ce
    let m ← freeEntries fuel m e.entries
    let m ← m.freeEntry ce
    freeEntries fuel m e.next

/-- `mowgli_config_file_free`. -/
def freeFiles : ℕ → Memory → Option Addr → Option Memory
  | 0, _, _ => none
  | _ + 1, m, none => some m
  | fuel + 1, m, some cf => do
    let f ← m.files.get cf
    let m ← m.freeEntries (m.entries.live.card + 1) f.entries
    let m ← m.freeBlock f.filename
    let m ← m.freeBlock f.mem
    let m ← m.freeFile cf
    freeFiles fuel m f.next

end Memory

/-- What `pprevce` points at: `cf->entries`, or a field of an entry. -/
inductive Slot
  | file
  | next (ce : Addr)
  | entries (ce : Addr)

/-- A file that is being parsed. -/
structure Parse where
  cur : Cursor
  m : Memory
  cf : Addr
  lastcf : Addr
  pprevce : Slot
  upce : Option Addr

namespace Parse

variable (A : Allocators) (load : Loader)

/-- An error, after which the parser leaves its loop. -/
def fail (s : Parse) (format : String) : Bool × Parse := (false, { s with cur := s.cur.error format })

/-- An entry that is there is changed. -/
def modifyEntry (s : Parse) (ce : Addr) (f : ConfigFileEntry → ConfigFileEntry) : Option Parse :=
  (s.m.entries.modify ce f).map fun entries => { s with m := { s.m with entries := entries } }

/-- A file that is there is changed. -/
def modifyFile (s : Parse) (cf : Addr) (f : ConfigFile → ConfigFile) : Option Parse :=
  (s.m.files.modify cf f).map fun files => { s with m := { s.m with files := files } }

/-- `*pprevce = ce`. -/
def setSlot (s : Parse) (ce : Addr) : Option Parse :=
  match s.pprevce with
  | .file => s.modifyFile s.cf fun f => { f with entries := some ce }
  | .next a => s.modifyEntry a fun e => { e with next := some ce }
  | .entries a => s.modifyEntry a fun e => { e with entries := some ce }

/-- `mowgli_config_file_parse`: a new entry, in the place that `pprevce`
points at. -/
def newEntry (s : Parse) (varname : ℕ) : Option (Addr × Parse) := do
  let ce ← A.entry.pick s.m.entries
  let e : ConfigFileEntry := ⟨s.cur.curline, varname, none, 0, none, s.upce, none⟩
  let s ← ({ s with m := { s.m with entries := s.m.entries.set ce e } } : Parse).setSlot ce
  some (ce, { s with pprevce := .next ce })

/-- `mowgli_config_file_parse`: the entry becomes the section that is open. -/
def openSection (s : Parse) (ce : Addr) : Parse := { s with pprevce := .entries ce, upce := some ce }

/-- `mowgli_config_file_parse`, at a `'}'`. -/
def closeSection (s : Parse) : Option (Bool × Parse) :=
  match s.upce with
  | none => some (s.fail "Extraneous closing brace")
  | some ce => do
    let s ← s.modifyEntry ce fun e => { e with sectlinenum := s.cur.curline }
    let e ← s.m.entries.get ce
    let cur ← s.cur.next.skipWs
    let s := { s with cur := cur, pprevce := .next ce, upce := e.prevlevel }
    if cur.errored then some (false, s)
    else do
      let x ← cur.mem[cur.pos]?
      some (if x = ch ';' then (true, { s with cur := cur.next })
        else s.fail "Missing semicolon after closing brace for section ending at line %d")

/-- `while (lastcf->next != NULL) lastcf = lastcf->next`. -/
def lastOf (files : Store ConfigFile) : ℕ → Addr → Option Addr
  | 0, _ => none
  | fuel + 1, a => do
    let f ← files.get a
    match f.next with
    | none => some a
    | some a => lastOf files fuel a

/-- `mowgli_config_file_parse`: a file is included. -/
def includeFile (s : Parse) (name : CString) : Option (Bool × Parse) := do
  let (log, m, subcf) ← load name s.m
  let s := { s with cur := { s.cur with log := s.cur.log ++ log }, m := m }
  match subcf with
  | none => some (s.fail "Error in file included from here")
  | some subcf => do
    let s ← s.modifyFile s.lastcf fun f => { f with next := some subcf }
    let lastcf ← lastOf s.m.files (s.m.files.live.card + 1) s.lastcf
    some (true, { s with lastcf := lastcf })

/-- `mowgli_config_file_parse`, at the end of an entry with a value: a file is
included if the entry says so. -/
def directive (s : Parse) (ce : Addr) : Option (Bool × Parse) := do
  let e ← s.m.entries.get ce
  if s.upce = none ∧ CString.strcasecmp (stringAt s.cur.mem e.varname) includeName = 0 then do
    let vardata ← e.vardata
    s.includeFile load (stringAt s.cur.mem vardata)
  else some (true, s)

/-- `mowgli_config_file_parse`, after the value of an entry. -/
def afterData (s : Parse) (ce : Addr) (c : UInt8) : Option (Bool × Parse) :=
  if c = ch '{' then some (true, s.openSection ce)
  else if c = ch ';' then s.directive load ce
  else some (s.fail "Unexpected characters after value %s %s")

/-- `mowgli_config_file_parse`: the value of an entry. -/
def readData (s : Parse) (ce : Addr) : Option (Bool × Parse) := do
  let (val, c, cur) ← s.cur.getValue
  let s := { s with cur := cur }
  if cur.errored then some (false, s)
  else
    match val with
    | none => some (s.fail "Unexpected character trying to read value for %s")
    | some val => do
      let s ← s.modifyEntry ce fun e => { e with vardata := some val }
      let (c, cur) ← cur.delimiter c
      ({ s with cur := cur } : Parse).afterData load ce c

/-- `mowgli_config_file_parse`, after the name of an entry. -/
def afterName (s : Parse) (ce : Addr) (c : UInt8) : Option (Bool × Parse) :=
  if c = ch '{' then some (true, s.openSection ce)
  else if c = ch ';' then some (true, s)
  else if c ≠ 0 then some (s.fail "Unexpected characters after unquoted string %s")
  else s.readData load ce

/-- `mowgli_config_file_parse`: an entry. -/
def readEntry (s : Parse) : Option (Bool × Parse) := do
  let (val, c, cur) ← s.cur.getValue
  let s := { s with cur := cur }
  if cur.errored then some (false, s)
  else
    match val with
    | none => some (s.fail "Unexpected character trying to read variable name")
    | some val => do
      let (ce, s) ← s.newEntry A val
      let (c, cur) ← s.cur.delimiter c
      ({ s with cur := cur } : Parse).afterName load ce c

/-- The body of the loop of `mowgli_config_file_parse`, and whether the loop
goes on. -/
def body (s : Parse) : Option (Bool × Parse) := do
  let cur ← s.cur.skipWs
  let x ← cur.mem[cur.pos]?
  let s := { s with cur := cur }
  if x = 0 ∨ cur.errored then some (false, s)
  else if x = ch '}' then s.closeSection
  else s.readEntry A load

/-- The loop of `mowgli_config_file_parse`. -/
def loop : ℕ → Parse → Option Parse
  | 0, _ => none
  | fuel + 1, s => do
    let x ← s.cur.mem[s.cur.pos]?
    if x = 0 then some s
    else do
      let (go, s) ← s.body A load
      if go then loop fuel s else some s

/-- `while (ce->prevlevel != NULL) ce = ce->prevlevel`. -/
def outermost (entries : Store ConfigFileEntry) : ℕ → Addr → Option Addr
  | 0, _ => none
  | fuel + 1, ce => do
    let e ← entries.get ce
    match e.prevlevel with
    | none => some ce
    | some up => outermost entries fuel up

/-- `mowgli_config_file_parse`: sections that are open at the end. -/
def unclosed (s : Parse) : Option Parse :=
  match s.upce with
  | none => some s
  | some ce =>
    if s.cur.errored then some s
    else do
      let ce ← outermost s.m.entries (s.m.entries.live.card + 1) ce
      let e ← s.m.entries.get ce
      let cur := s.cur.error "One or more sections not closed"
      some { s with cur := cur.error (if e.vardata.isSome then "First unclosed section is %s %s at line %d"
        else "First unclosed section is %s at line %d") }

/-- `mowgli_config_file_parse`: the file, which is given back if there was an
error. -/
def finish (s : Parse) : Option (List LogLine × Memory × Option Addr) := do
  let f ← s.m.files.get s.cf
  let m := { s.m with blocks := s.m.blocks.set f.mem s.cur.mem }
  if s.cur.errored then do
    let m ← m.freeFiles (m.files.live.card + 1) (some s.cf)
    some (s.cur.log, m, none)
  else some (s.cur.log, m, some s.cf)

end Parse

/-- `mowgli_config_file_parse`, of the text at `confdata`. -/
def parse (A : Allocators) (load : Loader) (fuel : ℕ) (filename : CString) (confdata : Addr) (m : Memory) :
    Option (List LogLine × Memory × Option Addr) := do
  let cf ← A.file.pick m.files
  let name ← A.block.pick m.blocks
  let mem ← m.blocks.get confdata
  let m := { m with
    files := m.files.set cf ⟨name, confdata, none, none⟩
    blocks := m.blocks.set name (filename.bytes ++ [0]) }
  let s ← Parse.loop A load fuel ⟨⟨mem, 0, 1, []⟩, m, cf, cf, .file, none⟩
  let s ← s.unclosed
  s.finish

/-- `mowgli_config_file_load_internal`. What a file has behind its first NUL
is not part of its text. Files may be parsed `depth` at a time: where there
would be more the answer is `none`. -/
def loadInternal (A : Allocators) (files : CString → Opened) (fuel depth : ℕ) : Loader := fun filename m =>
  if maxIncludeNesting < m.nestcnt then some ([.message "Includes nested too deep \"%s\"\n"], m, none)
  else
    match files filename with
    | .noFile => some ([.message "Couldn't open \"%s\": %s\n"], m, none)
    | .noStat => some ([.message "Couldn't fstat \"%s\": %s\n"], m, none)
    | .notRegular => some ([.message "Not a regular file: \"%s\"\n"], m, none)
    | .tooLarge => some ([.message "File too large: \"%s\"\n"], m, none)
    | .unreadable => do
      let buf ← A.block.pick m.blocks
      let m ← ({ m with blocks := m.blocks.set buf [] } : Memory).freeBlock buf
      some ([.message "Error reading \"%s\": %s\n"], m, none)
    | .contents bytes =>
      match depth with
      | 0 => none
      | depth + 1 => do
        let buf ← A.block.pick m.blocks
        let m := { m with blocks := m.blocks.set buf ((stringOf bytes).bytes ++ [0]), nestcnt := m.nestcnt + 1 }
        let (log, m, cfptr) ← parse A (loadInternal A files fuel depth) fuel filename buf m
        some (log, { m with nestcnt := m.nestcnt - 1 }, cfptr)

/-- `mowgli_config_file_load`. -/
def load (A : Allocators) (files : CString → Opened) (fuel depth : ℕ) (filename : CString) (m : Memory) :
    Option (List LogLine × Memory × Option Addr) :=
  loadInternal A files fuel depth filename m

end Confparse

end Mowgli
