import Mathlib.Data.List.TakeWhile
import Mathlib.Data.Vector.Basic
import Mowgli.Base.Bytes
import Mowgli.Base.Ctype
import Mowgli.Library.Store
/-!
# Requests and replies of the resolver, as `dns/evloop_res.c` has them

What the resolver keeps of a request, the names it asks for, and what it
makes of a datagram. The routines of `dns/evloop_reslib.c` that read and
write names are taken as they come (`Reslib`): nothing is assumed of them.
Of the strings only the name of a request is kept with the size of the block it
is in, into which the name of a host is copied. What is logged is left out.
-/

namespace Mowgli

/-- `ss_family`. -/
inductive AddrFamily
  | inet
  | inet6
  | other (family : ℕ)
  deriving DecidableEq

/-- `struct sockaddr_storage`, with the addresses that `struct sockaddr_in`
and `struct sockaddr_in6` have there. -/
structure SockaddrStorage where
  family : AddrFamily
  port : UInt16
  sinAddr : Vector UInt8 4
  sin6Addr : Vector UInt8 16
  deriving DecidableEq

/-- `mowgli_dns_query_t *`. With it goes the number of the submission that it
came with, which the code has no need of. -/
structure DnsQuery where
  ptr : Addr
  submission : ℕ
  deriving DecidableEq

/-- The result that a callback is given. -/
inductive DnsResult
  | success
  | nxdomain
  | invalid
  | timeout
  deriving DecidableEq

/-- `mowgli_dns_reply_t`. -/
structure DnsReply where
  hName : Option CString
  addr : SockaddrStorage
  deriving DecidableEq

/-- `mowgli_dns_reslist_t`. -/
structure DnsReslist where
  /-- The address of the request, and of its node. -/
  node : Addr
  id : UInt16
  ttl : UInt32
  type : Int8
  queryname : CString
  retries : ℤ
  sends : ℕ
  sentat : ℤ
  timeout : ℤ
  lastns : ℕ
  addr : SockaddrStorage
  name : Option CString
  /-- The size of the block that `name` points to. -/
  nameSize : ℕ
  query : DnsQuery

/-- The name, with its NUL, fits its block. -/
def DnsReslist.nameFits (r : DnsReslist) : Bool := r.name.all fun name => name.length < r.nameSize

/-- The fields of `mowgli_dns_resheader_t` that are read. -/
structure DnsResheader where
  id : UInt16
  rcode : ℕ
  qdcount : ℕ
  ancount : ℕ

/-- A datagram in the buffer it was read into, which holds something after
the datagram as well. -/
structure DnsDatagram where
  /-- The header, in CPU byte order. It is where the first twelve bytes are. -/
  header : DnsResheader
  buf : ℕ → UInt8
  /-- The length of the datagram, with the header. -/
  rc : ℕ
  /-- Where it came from. -/
  lsin : SockaddrStorage

/-- The routines of `dns/evloop_reslib.c`. -/
structure Reslib where
  /-- Whether `mowgli_dns_res_mkquery` makes a packet that asks for a name
  and a type. -/
  mkquery : CString → Int8 → Bool
  /-- `mowgli_dns_dn_expand`: its value, and what it puts in its buffer, of
  the given size. -/
  dnExpand : DnsDatagram → ℕ → ℕ → ℤ × CString
  /-- `mowgli_dns_dn_skipname`. -/
  dnSkipname : DnsDatagram → ℕ → ℤ

/-- `MOWGLI_DNS_RES_HOSTLEN`. -/
def DNS_RES_HOSTLEN : ℕ := 512

/-- `MOWGLI_DNS_T_A`. -/
def DNS_T_A : ℤ := 1

/-- `MOWGLI_DNS_T_AAAA`. -/
def DNS_T_AAAA : ℤ := 28

/-- `MOWGLI_DNS_T_PTR`. -/
def DNS_T_PTR : ℤ := 12

/-- `MOWGLI_DNS_T_CNAME`. -/
def DNS_T_CNAME : ℤ := 5

/-- `sizeof(mowgli_dns_resheader_t)`. -/
def DNS_HEADER_SIZE : ℕ := 12

/-- `MOWGLI_DNS_QFIXEDSIZE`. -/
def DNS_QFIXEDSIZE : ℕ := 4

/-- `MOWGLI_DNS_ANSWER_FIXED_SIZE`. -/
def DNS_ANSWER_FIXED_SIZE : ℕ := 10

/-- `MOWGLI_DNS_NO_ERRORS`. -/
def DNS_NO_ERRORS : ℕ := 0

/-- `MOWGLI_DNS_NXDOMAIN`. -/
def DNS_NXDOMAIN : ℕ := 3

namespace CString

/-- `strcpy(k + strlen(k), k')`. -/
def append (k k' : CString) : CString :=
  ⟨k.bytes ++ k'.bytes, fun h => (List.mem_append.1 h).elim k.nul_free k'.nul_free⟩

/-- `mowgli_strlcpy` into a buffer of size `siz`. -/
def strlcpy (k : CString) (siz : ℕ) : CString := k.take (siz - 1)

end CString

/-- The bytes of a text. -/
def text (s : String) : List UInt8 := s.toList.map ch

/-- A byte, printed with "%u". -/
def printU (b : UInt8) : List UInt8 := (Nat.toDigits 10 b.toNat).map ch

/-- A number below 16, printed with "%1x". -/
def printX (n : UInt8) : List UInt8 := [ch n.toNat.digitChar]

namespace SockaddrStorage

/-- One that is all zeroes. -/
def zero : SockaddrStorage := ⟨.other 0, 0, .replicate 4 0, .replicate 16 0⟩

/-- The name that `do_query_number` prints for an address, if there is one. -/
def queryname (addr : SockaddrStorage) : Option CString :=
  match addr.family with
  | .inet =>
    let cp := addr.sinAddr
    some (.ofBuffer (printU cp[3] ++ text "." ++ printU cp[2] ++ text "." ++ printU cp[1] ++ text "." ++
      printU cp[0] ++ text ".in-addr.arpa"))
  | .inet6 =>
    let cp := addr.sin6Addr
    some (.ofBuffer (cp.toList.reverse.flatMap (fun b => printX (b &&& 15) ++ text "." ++ printX (b >>> 4) ++ text ".") ++
      text "ip6.arpa"))
  | .other _ => none

/-- Whether `res_ourserver` takes `inp` for the nameserver `srv`. -/
def serves (srv inp : SockaddrStorage) : Bool :=
  match srv.family with
  | .inet6 => srv.family = inp.family && srv.port = inp.port &&
      (srv.sin6Addr = inp.sin6Addr || srv.sin6Addr = .replicate 16 0)
  | .inet => srv.family = inp.family && srv.port = inp.port &&
      (srv.sinAddr = .replicate 4 0 || srv.sinAddr = inp.sinAddr)
  | .other _ => false

/-- What comes from `inp` comes from the nameserver `srv`: the port is the same,
and the address, unless `srv` has the address that stands for any. -/
structure Serves (srv inp : SockaddrStorage) : Prop where
  family : srv.family = inp.family
  port : srv.port = inp.port
  addr : (srv.family = .inet ∧ (srv.sinAddr = inp.sinAddr ∨ srv.sinAddr = .replicate 4 0)) ∨
    (srv.family = .inet6 ∧ (srv.sin6Addr = inp.sin6Addr ∨ srv.sin6Addr = .replicate 16 0))

theorem serves_iff {srv inp : SockaddrStorage} : srv.serves inp = true ↔ srv.Serves inp := by
  unfold serves
  cases hf : srv.family with
  | inet =>
    simp only [Bool.and_eq_true, Bool.or_eq_true, decide_eq_true_eq]
    constructor
    · rintro ⟨⟨hfam, hp⟩, ha⟩
      exact ⟨hf.trans hfam, hp, Or.inl ⟨hf, ha.symm⟩⟩
    · rintro ⟨hfam, hp, ⟨-, ha⟩ | ⟨h6, -⟩⟩
      · exact ⟨⟨hf.symm.trans hfam, hp⟩, ha.symm⟩
      · cases hf.symm.trans h6
  | inet6 =>
    simp only [Bool.and_eq_true, Bool.or_eq_true, decide_eq_true_eq]
    constructor
    · rintro ⟨⟨hfam, hp⟩, ha⟩
      exact ⟨hf.trans hfam, hp, Or.inr ⟨hf, ha⟩⟩
    · rintro ⟨hfam, hp, ⟨h4, -⟩ | ⟨-, ha⟩⟩
      · cases hf.symm.trans h4
      · exact ⟨⟨hf.symm.trans hfam, hp⟩, ha⟩
  | other n =>
    refine ⟨fun h => absurd h Bool.false_ne_true, ?_⟩
    rintro ⟨-, -, ⟨h4, -⟩ | ⟨h6, -⟩⟩
    · cases hf.symm.trans h4
    · cases hf.symm.trans h6

end SockaddrStorage

/-- `mowgli_dns_evloop_add_local_domain`, where `domain` is the local domain. -/
def addLocalDomain (domain hname : CString) (size : ℕ) : CString :=
  if hname.strchr (ch '.') = false ∧ domain.bytes ≠ [] ∧ domain.length + hname.length + 2 < size then
    (hname.append (.ofBuffer [ch '.'])).append domain
  else hname

namespace DnsDatagram

/-- `mowgli_dns_ns_get16`. -/
def get16 (d : DnsDatagram) (current : ℕ) : ℕ := (d.buf current).toNat * 256 + (d.buf (current + 1)).toNat

/-- `mowgli_dns_ns_get32`. -/
def get32 (d : DnsDatagram) (current : ℕ) : UInt32 :=
  UInt32.ofNat (d.get16 current * 65536 + d.get16 (current + 2))

/-- The datagram with another `header->qdcount`. -/
def setQdcount (d : DnsDatagram) (n : ℕ) : DnsDatagram := { d with header := { d.header with qdcount := n } }

/-- The datagram with another `header->ancount`. -/
def setAncount (d : DnsDatagram) (n : ℕ) : DnsDatagram := { d with header := { d.header with ancount := n } }

end DnsDatagram

variable (lib : Reslib)

/-- `check_question`. -/
def checkQuestion (request : DnsReslist) (d : DnsDatagram) : Bool :=
  let (n, hostbuf) := lib.dnExpand d DNS_HEADER_SIZE (DNS_RES_HOSTLEN + 1)
  d.header.qdcount = 1 && 0 < n && CString.strcasecmp hostbuf request.queryname = 0

/-- The loop of `proc_answer` over the questions, of which there are `n`
left: where it ends, and `none` where it returns 0. -/
def skipQuestions (d : DnsDatagram) : ℕ → ℕ → Option ℕ
  | 0, current => some current
  | n + 1, current =>
    let len := lib.dnSkipname (d.setQdcount (n + 1)) current
    if len < 0 then none else skipQuestions d n (current + len.toNat + DNS_QFIXEDSIZE)

/-- An answer with an address or a name: what `proc_answer` returns, and the
request after that. The name of a host may not fit where it is copied (`nameFits`). -/
def procRecord (request : DnsReslist) (d : DnsDatagram) (type : ℤ) (rdLength current : ℕ) : Bool × DnsReslist :=
  if request.type.toInt ≠ type then (false, request)
  else if type = DNS_T_A then
    if rdLength ≠ 4 then (false, request)
    else (true, { request with addr.family := .inet, addr.sinAddr := .ofFn fun i => d.buf (current + i) })
  else if type = DNS_T_AAAA then
    if rdLength ≠ 16 then (false, request)
    else (true, { request with addr.family := .inet6, addr.sin6Addr := .ofFn fun i => d.buf (current + i) })
  else
    let (n, hostbuf) := lib.dnExpand d current (DNS_RES_HOSTLEN + 100)
    if n ≤ 0 then (false, request) else (true, { request with name := some (hostbuf.strlcpy (DNS_RES_HOSTLEN + 1)) })

/-- The loop of `proc_answer` over the answers, of which there are `n` left. -/
def procAnswers (d : DnsDatagram) : ℕ → DnsReslist → ℕ → Bool × DnsReslist
  | 0, request, _ => (true, request)
  | n + 1, request, current =>
    if d.rc ≤ current then (true, request)
    else
      let len := (lib.dnExpand (d.setAncount n) current (DNS_RES_HOSTLEN + 100)).1
      if len ≤ 0 then (false, request)
      else
        let current := current + len.toNat
        if d.rc ≤ current + DNS_ANSWER_FIXED_SIZE then (true, request)
        else
          let type : ℤ := d.get16 current
          let request := { request with ttl := d.get32 (current + 4) }
          let rdLength := d.get16 (current + 8)
          let current := current + DNS_ANSWER_FIXED_SIZE
          if type = DNS_T_A ∨ type = DNS_T_AAAA ∨ type = DNS_T_PTR then
            procRecord lib request (d.setAncount n) type rdLength current
          -- the real answer follows a CNAME; of other types only the fixed part is read
          else if type = DNS_T_CNAME then procAnswers d n request (current + rdLength)
          else procAnswers d n request current

/-- `proc_answer`: what it returns, and the request after that. -/
def procAnswer (request : DnsReslist) (d : DnsDatagram) : Bool × DnsReslist :=
  match skipQuestions lib d d.header.qdcount DNS_HEADER_SIZE with
  | none => (false, request)
  | some current => procAnswers lib (d.setQdcount 0) d.header.ancount request current

end Mowgli
