import Mowgli.Base.Bytes
import Mowgli.Base.Ctype
/-!
# Domain names, as `dns/evloop_reslib.c` has them

A name is three things: text, a row of labels, and the labels in a message,
where a pointer stands for what is at an earlier place. A message is the block
it is in, `rmsg` is 0, and `eom` is where the message ends. A function answers
`none` where the code reads or writes outside a block, or uses what was not
written; where it returns -1 the answer is what it puts in `errno`. An `int` is
large enough for a place in a message, and a `char` is signed.
-/

namespace Mowgli

/-- What the functions put in `errno`. -/
inductive DnsErrno
  | emsgsize
  | einval
  deriving DecidableEq

/-- What a function returns, if it is defined. -/
abbrev NameResult (α : Type) := Option (Except DnsErrno α)

namespace DnsName

/-- `MOWGLI_DNS_NS_CMPRSFLAGS`. -/
def NS_CMPRSFLAGS : UInt8 := 0xc0

/-- `MOWGLI_DNS_NS_TYPE_ELT`. -/
def NS_TYPE_ELT : UInt8 := 0x40

/-- `MOWGLI_DNS_LABELTYPE_BITSTRING`. -/
def LABELTYPE_BITSTRING : UInt8 := 0x41

/-- `MOWGLI_DNS_NS_MAXCDNAME`. -/
def NS_MAXCDNAME : ℕ := 255

/-- `MOWGLI_DNS_HFIXEDSIZE`. -/
def HFIXEDSIZE : ℕ := 12

/-- `MOWGLI_DNS_QFIXEDSIZE`. -/
def QFIXEDSIZE : ℕ := 4

/-- `errno` is set, and -1 returned. -/
def fail {α : Type} (e : DnsErrno) : NameResult α := some (.error e)

/-- A value is returned. -/
def done {α : Type} (a : α) : NameResult α := some (.ok a)

/-- How many bits a bit string has, by the byte in front of them. -/
def bitLength (count : UInt8) : ℕ := if count = 0 then 256 else count.toNat

/-- `labellen`, with what is in memory from `lp` on; `some none` is -1. -/
def labellen : List UInt8 → Option (Option ℕ)
  | [] => none
  | l :: rest =>
    if l &&& NS_CMPRSFLAGS = NS_CMPRSFLAGS then some none
    else if l &&& NS_CMPRSFLAGS = NS_TYPE_ELT then
      if l = LABELTYPE_BITSTRING then
        match rest with
        | [] => none
        | bitlen :: _ => some (some ((bitLength bitlen + 7) / 8 + 1))
      else some none
    else some (some l.toNat)

/-! ## From a message -/

/-- Where a compression pointer leads: `((n & 0x3f) << 8) | *srcp`. -/
def pointer (n c : UInt8) : ℕ := (n &&& 0x3f).toNat * 256 + c.toNat

/-- The loop of `mowgli_dns_ns_name_unpack`, with what is written to `dst` and the
value of `len`, where `none` is -1. -/
def nsNameUnpackLoop (msg : List UInt8) (eom src dstsiz : ℕ) :
    ℕ → ℕ → List UInt8 → ℕ → Option ℕ → NameResult (ℕ × List UInt8)
  | 0, _, _, _, _ => none
  | fuel + 1, srcp, dst, checked, len =>
    match msg[srcp]? with
    | none => none
    | some n =>
      if n = 0 then
        if dst.length < dstsiz then done (len.getD (srcp + 1 - src), dst ++ [0]) else none
      else if n &&& NS_CMPRSFLAGS = 0 ∨ n &&& NS_CMPRSFLAGS = NS_TYPE_ELT then
        match labellen (msg.drop srcp) with
        | none => none
        | some none => fail .emsgsize
        | some (some l) =>
          if dstsiz ≤ dst.length + l + 1 ∨ eom ≤ srcp + 1 + l then fail .emsgsize
          else
            match Bytes.load msg (srcp + 1) l with
            | none => none
            | some label =>
              nsNameUnpackLoop msg eom src dstsiz fuel (srcp + 1 + l) (dst ++ n :: label) (checked + (l + 1)) len
      else if n &&& NS_CMPRSFLAGS = NS_CMPRSFLAGS then
        if eom ≤ srcp + 1 then fail .emsgsize
        else
          match msg[srcp + 1]? with
          | none => none
          | some c =>
            if eom ≤ pointer n c then fail .emsgsize
            else if eom ≤ checked + 2 then fail .emsgsize
            else nsNameUnpackLoop msg eom src dstsiz fuel (pointer n c) dst (checked + 2) (some (len.getD (srcp + 2 - src)))
      else fail .emsgsize

/-- `mowgli_dns_ns_name_unpack`: what it returns, and what it writes to `dst`. Each
turn of the loop takes room in `dst` or adds to `checked`. -/
def nsNameUnpack (msg : List UInt8) (eom src dstsiz : ℕ) : NameResult (ℕ × List UInt8) :=
  if eom ≤ src then fail .emsgsize else nsNameUnpackLoop msg eom src dstsiz (dstsiz + eom + 1) src [] 0 none

/-- The loop of `mowgli_dns_ns_name_skip`: where it ends. -/
def nsNameSkipLoop (msg : List UInt8) (eom : ℕ) : ℕ → ℕ → NameResult ℕ
  | 0, _ => none
  | fuel + 1, cp =>
    if eom ≤ cp then done cp
    else
      match msg[cp]? with
      | none => none
      | some n =>
        if n = 0 then done (cp + 1)
        else if n &&& NS_CMPRSFLAGS = 0 then nsNameSkipLoop msg eom fuel (cp + 1 + n.toNat)
        else if n &&& NS_CMPRSFLAGS = NS_TYPE_ELT then
          match labellen (msg.drop cp) with
          | none => none
          | some none => fail .emsgsize
          | some (some l) => nsNameSkipLoop msg eom fuel (cp + 1 + l)
        else if n &&& NS_CMPRSFLAGS = NS_CMPRSFLAGS then done (cp + 2)
        else fail .emsgsize

/-- `mowgli_dns_ns_name_skip`, from `ptr`: what `*ptrptr` is after it. -/
def nsNameSkip (msg : List UInt8) (eom ptr : ℕ) : NameResult ℕ :=
  match nsNameSkipLoop msg eom (eom + 1) ptr with
  | some (.ok cp) => if eom < cp then fail .emsgsize else done cp
  | r => r

/-- `mowgli_dns_dn_skipname`. -/
def dnSkipname (msg : List UInt8) (eom ptr : ℕ) : NameResult ℕ :=
  match nsNameSkip msg eom ptr with
  | some (.ok cp) => done (cp - ptr)
  | r => r

/-! ## To text -/

/-- `mowgli_dns_is_special`. -/
def isSpecial (c : UInt8) : Bool :=
  c = 0x22 || c = 0x2e || c = 0x3b || c = 0x5c || c = 0x28 || c = 0x29 || c = 0x40 || c = 0x24

/-- `mowgli_dns_is_printable`. -/
def isPrintable (c : UInt8) : Bool := 0x20 < c && c < 0x7f

/-- `digits[n]`. -/
def digit (n : ℕ) : UInt8 := ch '0' + n.toUInt8

/-- A number printed with "%x". -/
def printHex (n : ℕ) : List UInt8 := (Nat.toDigits 16 n).map ch

/-- A number printed with "%02x". -/
def printHex2 (n : ℕ) : List UInt8 := if n < 16 then ch '0' :: printHex n else printHex n

/-- What a `char` is as an `unsigned int`. -/
def charToUnsigned (tc : UInt8) : ℕ := if tc < 0x80 then tc.toNat else tc.toNat + 0xffffff00

/-- The last byte of a bit string, of which `b` bits are left. -/
def lastBits (b : ℕ) (tc : UInt8) : List UInt8 :=
  if 4 < b then printHex2 (charToUnsigned tc &&& 0xff <<< (8 - b))
  else printHex ((charToUnsigned tc >>> 4 &&& 0x0f) &&& 0x0f <<< (4 - b))

/-- What `mowgli_dns_decode_bitstring` prints for `blen` bits. -/
def bitstringText (blen : ℕ) (bits : List UInt8) : List UInt8 :=
  let last := if blen % 8 = 0 then [] else (bits.drop (blen / 8)).flatMap (lastBits (blen % 8))
  [ch '\\', ch '[', ch 'x'] ++ (bits.take (blen / 8)).flatMap (fun c => printHex2 c.toNat) ++ last ++
    [ch '/'] ++ (Nat.toDigits 10 blen).map ch ++ [ch ']']

/-- The room that `mowgli_dns_decode_bitstring` asks for. -/
def bitstringRoom (blen : ℕ) : ℕ := (blen + 3) / 4 + 6 + (if 99 < blen then 3 else if 9 < blen then 2 else 1)

/-- `mowgli_dns_decode_bitstring`: what it prints, and what `*cpp` is after it;
`some none` is -1. -/
def decodeBitstring (dn eom : ℕ) : List UInt8 → Option (Option (List UInt8 × List UInt8))
  | [] => none
  | count :: cp =>
    let blen := bitLength count
    if eom ≤ dn + bitstringRoom blen then some none
    else
      match Bytes.load cp 0 ((blen + 7) / 8) with
      | none => none
      | some bits =>
        if eom < dn + (bitstringText blen bits).length + 1 then none
        else some (some (bitstringText blen bits, cp.drop ((blen + 7) / 8)))

/-- The loop of `mowgli_dns_ns_name_ntop` over a label of which `l` bytes are left:
what `cp` is after it, and what is in `dst` before `dn`. -/
def nsNameNtopLabel (eom : ℕ) : ℕ → List UInt8 → List UInt8 → NameResult (List UInt8 × List UInt8)
  | 0, cp, dst => done (cp, dst)
  | _ + 1, [], _ => none
  | l + 1, c :: cp, dst =>
    if isSpecial c then
      if eom ≤ dst.length + 1 then fail .emsgsize else nsNameNtopLabel eom l cp (dst ++ [ch '\\', c])
    else if !isPrintable c then
      if eom ≤ dst.length + 3 then fail .emsgsize
      else
        nsNameNtopLabel eom l cp
          (dst ++ [ch '\\', digit (c.toNat / 100), digit (c.toNat % 100 / 10), digit (c.toNat % 10)])
    else if eom ≤ dst.length then fail .emsgsize else nsNameNtopLabel eom l cp (dst ++ [c])

/-- The loop of `mowgli_dns_ns_name_ntop`: what is in `dst` before `dn`. -/
def nsNameNtopLoop (eom : ℕ) : ℕ → List UInt8 → List UInt8 → NameResult (List UInt8)
  | 0, _, _ => none
  | _ + 1, [], _ => none
  | fuel + 1, n :: cp, dst =>
    if n = 0 then done dst
    else if n &&& NS_CMPRSFLAGS = NS_CMPRSFLAGS then fail .emsgsize
    else if dst ≠ [] ∧ eom ≤ dst.length then fail .emsgsize
    else
      let dst := if dst = [] then [] else dst ++ [ch '.']
      match labellen (n :: cp) with
      | none => none
      | some none => fail .emsgsize
      | some (some l) =>
        if eom ≤ dst.length + l then fail .emsgsize
        else if n &&& NS_CMPRSFLAGS = NS_TYPE_ELT then
          if n ≠ LABELTYPE_BITSTRING then fail .einval
          else
            match decodeBitstring dst.length eom cp with
            | none => none
            | some none => fail .emsgsize
            | some (some (m, cp)) => nsNameNtopLoop eom fuel cp (dst ++ m)
        else
          match nsNameNtopLabel eom l cp dst with
          | some (.ok (cp, dst)) => nsNameNtopLoop eom fuel cp dst
          | some (.error e) => fail e
          | none => none

/-- `mowgli_dns_ns_name_ntop`: what it writes to `dst`, with the terminator. -/
def nsNameNtop (src : List UInt8) (dstsiz : ℕ) : NameResult (List UInt8) :=
  match nsNameNtopLoop dstsiz src.length src [] with
  | some (.ok dst) =>
    if dst = [] ∧ dstsiz = 0 then fail .emsgsize
    else
      let dst := if dst = [] then [ch '.'] else dst
      if dstsiz ≤ dst.length then fail .emsgsize else done (dst ++ [0])
  | r => r

/-- `mowgli_dns_ns_name_uncompress`. -/
def nsNameUncompress (msg : List UInt8) (eom src dstsiz : ℕ) : NameResult (ℕ × List UInt8) :=
  match nsNameUnpack msg eom src NS_MAXCDNAME with
  | some (.ok (n, tmp)) =>
    match nsNameNtop tmp dstsiz with
    | some (.ok dst) => done (n, dst)
    | some (.error e) => fail e
    | none => none
  | r => r

/-- `mowgli_dns_dn_expand`: what it returns, and the string in `dst`. -/
def dnExpand (msg : List UInt8) (eom src dstsiz : ℕ) : NameResult (ℕ × CString) :=
  match nsNameUncompress msg eom src dstsiz with
  | some (.ok (n, dst)) => done (n, if 0 < n ∧ dst.head? = some (ch '.') then .ofBuffer [] else .ofBuffer dst)
  | some (.error e) => fail e
  | none => none

/-! ## From text -/

/-- `isxdigit`. -/
def isXdigit (c : UInt8) : Bool := isDigit c || (ch 'A' ≤ c && c ≤ ch 'F') || (ch 'a' ≤ c && c ≤ ch 'f')

/-- A bit string in the text, with what is behind `\[`. It is looked for its end,
and `mowgli_dns_encode_bitsring` looks at its first two characters. What comes
then is not defined: the code goes on with `(char *) (dst + 1)`, where `dst` is the
address of the variable `bp`, and so compares, and writes to, what is behind
that variable. -/
def encodeBitsring {α : Type} (src : List UInt8) : NameResult α :=
  if ch ']' ∉ src then fail .einval
  else
    match src with
    | x :: c :: _ => if x ≠ ch 'x' ∨ isXdigit c = false then fail .einval else none
    | _ => fail .einval

/-- The number that three digits are. -/
def decimal (c₁ c₂ c₃ : UInt8) : ℕ := (c₁ - ch '0').toNat * 100 + (c₂ - ch '0').toNat * 10 + (c₃ - ch '0').toNat

/-- A label is ended: what is in `dst` with it, where `dst` was there before
`label`, and `cur` is between that and `bp`. -/
def closeLabel (dstsiz : ℕ) (dst cur : List UInt8) : NameResult (List UInt8) :=
  -- the label is too big
  if cur.length &&& 0xc0 ≠ 0 then fail .emsgsize
  else if dstsiz ≤ dst.length then fail .emsgsize
  else done (dst ++ cur.length.toUInt8 :: cur)

/-- The end of the name behind the last label, where `c` is the length of that. -/
def closeName (dstsiz : ℕ) (dst : List UInt8) (c : ℕ) : NameResult (List UInt8) :=
  if c ≠ 0 ∧ dstsiz ≤ dst.length then fail .emsgsize
  else
    let dst := if c = 0 then dst else dst ++ [0]
    if NS_MAXCDNAME < dst.length then fail .emsgsize else done dst

/-- A byte of a label is written at `bp`. -/
def putByte (dstsiz : ℕ) (dst cur : List UInt8) (c : UInt8) : NameResult (List UInt8) :=
  if dstsiz ≤ dst.length + 1 + cur.length then fail .emsgsize else done (cur ++ [c])

/-- The loop of `mowgli_dns_ns_name_pton`: whether the name was fully qualified, and
what is in `dst`. -/
def nsNamePtonLoop (dstsiz : ℕ) : List UInt8 → Bool → List UInt8 → List UInt8 → NameResult (Bool × List UInt8)
  | [], _, dst, cur =>
    match closeLabel dstsiz dst cur with
    | some (.ok dst) =>
      match closeName dstsiz dst cur.length with
      | some (.ok dst) => done (false, dst)
      | some (.error e) => fail e
      | none => none
    | some (.error e) => fail e
    | none => none
  | c :: src, true, dst, cur =>
    if c = ch '[' then encodeBitsring src
    else if isDigit c then
      match src with
      | c₂ :: c₃ :: src =>
        if isDigit c₂ && isDigit c₃ && decimal c c₂ c₃ ≤ 255 then
          match putByte dstsiz dst cur (decimal c c₂ c₃).toUInt8 with
          | some (.ok cur) => nsNamePtonLoop dstsiz src false dst cur
          | some (.error e) => fail e
          | none => none
        else fail .emsgsize
      | _ => fail .emsgsize
    else
      match putByte dstsiz dst cur c with
      | some (.ok cur) => nsNamePtonLoop dstsiz src false dst cur
      | some (.error e) => fail e
      | none => none
  | c :: src, false, dst, cur =>
    if c = ch '\\' then nsNamePtonLoop dstsiz src true dst cur
    else if c = ch '.' then
      match closeLabel dstsiz dst cur with
      | some (.ok dst) =>
        if src = [] then
          match closeName dstsiz dst cur.length with
          | some (.ok dst) => done (true, dst)
          | some (.error e) => fail e
          | none => none
        else if cur = [] ∨ src.head? = some (ch '.') then fail .emsgsize
        else nsNamePtonLoop dstsiz src false dst []
      | some (.error e) => fail e
      | none => none
    else
      match putByte dstsiz dst cur c with
      | some (.ok cur) => nsNamePtonLoop dstsiz src false dst cur
      | some (.error e) => fail e
      | none => none

/-- `mowgli_dns_ns_name_pton`. -/
def nsNamePton (src : CString) (dstsiz : ℕ) : NameResult (Bool × List UInt8) := nsNamePtonLoop dstsiz src.bytes false [] []

/-! ## To a message -/

/-- `mowgli_dns_mklower`. -/
def mklower (c : UInt8) : UInt8 := if 0x41 ≤ c && c ≤ 0x5a then c + 0x20 else c

/-- What comes of the search from one place of an earlier name. -/
inductive DnFind
  | found (offset : ℕ)
  /-- The search goes on: `next`. -/
  | next
  /-- The search is given up, for a label of a type it does not know. -/
  | illegal
  deriving DecidableEq

/-- The bytes of two labels, of which `n` are left, are the same but for the
case. -/
def compareLabel (msg : List UInt8) : ℕ → List UInt8 → ℕ → Option Bool
  | 0, _, _ => some true
  | n + 1, dn, cp =>
    match dn.head?, msg[cp]? with
    | some d, some c => if mklower d ≠ mklower c then some false else compareLabel msg n dn.tail (cp + 1)
    | _, _ => none

/-- The loop of `mowgli_dns_dn_find` that compares the name with that at `sp`. -/
def dnMatchLoop (msg : List UInt8) (sp : ℕ) : ℕ → List UInt8 → ℕ → Option DnFind
  | 0, _, _ => none
  | fuel + 1, dn, cp =>
    match msg[cp]? with
    | none => none
    | some n =>
      if n = 0 then some .next
      else if n &&& NS_CMPRSFLAGS = 0 then
        match dn with
        | [] => none
        | d :: dn =>
          if n ≠ d then some .next
          else
            match compareLabel msg n.toNat dn (cp + 1) with
            | none => none
            | some false => some .next
            | some true =>
              match (dn.drop n.toNat).head?, msg[cp + 1 + n.toNat]? with
              | some d, some c =>
                if d = 0 ∧ c = 0 then some (.found sp)
                else if d ≠ 0 then dnMatchLoop msg sp fuel (dn.drop n.toNat) (cp + 1 + n.toNat)
                else some .next
              | _, _ => none
      else if n &&& NS_CMPRSFLAGS = NS_CMPRSFLAGS then
        match msg[cp + 1]? with
        | none => none
        | some c => dnMatchLoop msg sp fuel dn (pointer n c)
      else some .illegal

/-- The loop of `mowgli_dns_dn_find` over the labels of one earlier name. A
comparison that has not ended after as many turns as there are places in the
name and in the message came to a place twice, and does not end. -/
def dnFindFrom (msg domain : List UInt8) : ℕ → ℕ → Option DnFind
  | 0, _ => none
  | fuel + 1, sp =>
    match msg[sp]? with
    | none => none
    | some c =>
      if c = 0 ∨ c &&& NS_CMPRSFLAGS ≠ 0 ∨ 0x4000 ≤ sp then some .next
      else
        match dnMatchLoop msg sp ((domain.length + 1) * (msg.length + 1)) domain sp with
        | some .next => dnFindFrom msg domain fuel (sp + (c.toNat + 1))
        | r => r

/-- `mowgli_dns_dn_find`, over the earlier names at `dnptrs`; `some none` is -1. -/
def dnFind (msg domain : List UInt8) : List ℕ → Option (Option ℕ)
  | [] => some none
  | sp :: rest =>
    match dnFindFrom msg domain (msg.length + 1) sp with
    | none => none
    | some (.found offset) => some (some offset)
    | some .next => dnFind msg domain rest
    | some .illegal => some none

/-- The loop of `mowgli_dns_ns_name_pack` that looks whether the name is legal. -/
def nsNamePackCheck : ℕ → List UInt8 → ℕ → NameResult Unit
  | 0, _, _ => none
  | _ + 1, [], _ => none
  | fuel + 1, n :: srcp, l =>
    if n &&& NS_CMPRSFLAGS = NS_CMPRSFLAGS then fail .emsgsize
    else
      match labellen (n :: srcp) with
      | none => none
      | some none => fail .einval
      | some (some l0) =>
        if NS_MAXCDNAME < l + (l0 + 1) then fail .emsgsize
        else if n = 0 then done ()
        else nsNamePackCheck fuel (srcp.drop l0) (l + (l0 + 1))

/-- The two bytes of a compression pointer. -/
def pointerBytes (l : ℕ) : List UInt8 := [(l / 256).toUInt8 ||| NS_CMPRSFLAGS, (l % 256).toUInt8]

/-- Whether a name that is put at `dstp` is saved among `dnptrs`. The array, with
the pointer to the message, has room up to `lastdnptr`. -/
def savesName (dnptrs : List ℕ) (lastdnptr : Option ℕ) (dstp : ℕ) : Bool :=
  lastdnptr.any fun last => dnptrs.length + 1 < last - 1 && dstp < 0x4000

/-- The loop of `mowgli_dns_ns_name_pack` that copies the labels: where it ends, the
message and the names that are saved, with that put at `saved`. -/
def nsNamePackLoop (eob : ℕ) (dnptrs : Option (List ℕ)) (lastdnptr : Option ℕ) :
    ℕ → List UInt8 → List UInt8 → ℕ → List ℕ → NameResult (ℕ × List UInt8 × List ℕ)
  | 0, _, _, _, _ => none
  | _ + 1, _, [], _, _ => none
  | fuel + 1, msg, n :: srcp, dstp, saved =>
    match (if n = 0 then some none else (dnptrs.elim (some none) (dnFind msg (n :: srcp)))) with
    | none => none
    | some (some l) =>
      if eob ≤ dstp + 1 then fail .emsgsize
      else (Bytes.store msg dstp (pointerBytes l)).bind fun msg => done (dstp + 2, msg, saved)
    | some none =>
      let saved := if n ≠ 0 ∧ saved = [] ∧ dnptrs.any (savesName · lastdnptr dstp) then [dstp] else saved
      if n &&& NS_CMPRSFLAGS = NS_CMPRSFLAGS then fail .emsgsize
      else
        match labellen (n :: srcp) with
        | some (some l) =>
          if eob ≤ dstp + 1 + l then fail .emsgsize
          else
            match Bytes.load (n :: srcp) 0 (l + 1) with
            | none => none
            | some label =>
              match Bytes.store msg dstp label with
              | none => none
              | some msg =>
                if l = 0 then done (dstp + (l + 1), msg, saved)
                else nsNamePackLoop eob dnptrs lastdnptr fuel msg (srcp.drop l) (dstp + (l + 1)) saved
        | _ => none

/-- `mowgli_dns_ns_name_pack`, to the place `dst` of a message, where `dnptrs` are the
earlier names, if there is an array of them: what it returns, the message and
the names. The message after it failed is left out. -/
def nsNamePack (src msg : List UInt8) (dst dstsiz : ℕ) (dnptrs : Option (List ℕ)) (lastdnptr : Option ℕ) :
    NameResult (ℕ × List UInt8 × Option (List ℕ)) :=
  match nsNamePackCheck (src.length + 1) src 0 with
  | none => none
  | some (.error e) => fail e
  | some (.ok ()) =>
    match nsNamePackLoop (dst + dstsiz) dnptrs lastdnptr (src.length + 1) msg src dst [] with
    | none => none
    | some (.error e) => fail e
    | some (.ok (dstp, msg, saved)) => done (dstp - dst, msg, dnptrs.map (· ++ saved))

/-- `mowgli_dns_dn_comp`, which is `mowgli_dns_ns_name_compress`. -/
def dnComp (src : CString) (msg : List UInt8) (dst dstsiz : ℕ) (dnptrs : Option (List ℕ)) (lastdnptr : Option ℕ) :
    NameResult (ℕ × List UInt8 × Option (List ℕ)) :=
  match nsNamePton src NS_MAXCDNAME with
  | some (.ok (_, tmp)) => nsNamePack tmp msg dst dstsiz dnptrs lastdnptr
  | some (.error e) => fail e
  | none => none

/-- `MOWGLI_DNS_NS_PUT16`: the bytes it writes. -/
def put16 (s : ℤ) : List UInt8 :=
  let t := (s % 65536).toNat
  [(t / 256).toUInt8, (t % 256).toUInt8]

/-- The header of a query, but for `id` and `qdcount`: the bit `rd` is set. -/
def queryHeader : List UInt8 := [0, 0, 1, 0, 0, 0, 0, 0, 0, 0, 0, 0]

/-- `mowgli_dns_res_mkquery`, with the block that is at `buf`: the size of the packet
and the block after it; `some none` is -1. -/
def resMkquery (dname : CString) (queryClass type : ℤ) (buf : List UInt8) : Option (Option (ℕ × List UInt8)) :=
  if buf.length < HFIXEDSIZE then some none
  else
    match Bytes.store buf 0 queryHeader with
    | none => none
    | some buf =>
      if buf.length < HFIXEDSIZE + QFIXEDSIZE then some none
      else
        match dnComp dname buf HFIXEDSIZE (buf.length - HFIXEDSIZE - QFIXEDSIZE) (some []) (some 20) with
        | none => none
        | some (.error _) => some none
        | some (.ok (n, buf, _)) =>
          let cp := HFIXEDSIZE + n
          -- the type, the class, and `hp->qdcount = htons(1)`
          ((Bytes.store buf cp (put16 type ++ put16 queryClass)).bind fun buf => Bytes.store buf 4 [0, 1]).map fun buf =>
            some (cp + QFIXEDSIZE, buf)

end DnsName

end Mowgli
