import Mathlib.Logic.Function.Basic
import Mowgli.Dns.ProcAnswer
import Mowgli.Library.Program
/-!
# The resolver on an event loop, as `dns/evloop_res.c` has it

The state of the resolver has in it what the world is going to answer: the
random numbers that are left, the outcomes of the sends, and the queries
that the callbacks will submit. A function that uses a request which is no
longer there stops as `undefined`. Times are added without wrapping.
-/

namespace Mowgli

/-- What the user of the resolver asks it for: `mowgli_dns_evloop_gethost_byname`
with a name, or `mowgli_dns_evloop_gethost_byaddr`. -/
inductive DnsSubmission
  | byName (name : CString) (query : Addr) (type : ℤ)
  | byAddr (addr : SockaddrStorage) (query : Addr)

/-- The query that a submission is for. -/
def DnsSubmission.query : DnsSubmission → Addr
  | byName _ query _ => query
  | byAddr _ query => query

/-- A packet that `query_name` generated. -/
structure DnsPacket where
  request : Addr
  id : UInt16
  queryname : CString

/-- A call of the callback of a query. -/
structure DnsCall where
  query : DnsQuery
  result : DnsResult
  reply : Option DnsReply

/-- `mowgli_dns_evloop_t`, with what happened so far and what the world is
going to answer. -/
structure DnsEvloop where
  /-- The first `nscount` of `nsaddr_list`. -/
  nsaddrList : List SockaddrStorage
  retrycnt : ℤ
  timeoutCount : ℕ → ℕ
  requestList : List DnsReslist
  domain : CString
  /-- The time of the event loop. -/
  now : ℤ
  /-- The address of the next request. -/
  allocated : Addr
  /-- How many queries were submitted. -/
  submitted : ℕ
  calls : List DnsCall
  /-- The queries of the requests that `mowgli_dns_evloop_delete_queries`
  removed. -/
  deleted : List DnsQuery
  packets : List DnsPacket
  /-- The calls of `mowgli_vio_sendto`: the server, and whether the whole
  packet was sent. -/
  attempts : List (ℕ × Bool)
  /-- The numbers that `mowgli_random_int` has still to give. -/
  random : List UInt32
  /-- The outcomes of the next calls of `mowgli_vio_sendto`. -/
  sendto : ℕ → Bool
  /-- What the next callbacks are going to submit; those after them submit
  nothing. -/
  callbacks : List (List DnsSubmission)

/-- Why the resolver does not get to the end of a step. -/
inductive DnsStop
  /-- The loop of `query_name` finds no id with the numbers there are. -/
  | noId
  /-- A request is used that is not there, or a string that is `NULL`. -/
  | undefined
  /-- The name of a host is copied past the end of the block of `request->name`. -/
  | overflow
  /-- A loop over the requests does not end. -/
  | endless
  deriving DecidableEq

/-- What the functions of the resolver do. -/
abbrev Dns := Prog DnsEvloop DnsStop

/-- The address of a request that is there, or what it is made for: the
arguments `request` and `query` of `do_query_name` and `do_query_number`,
one of which is `NULL`. -/
inductive DnsTarget
  | new (query : DnsQuery)
  | again (request : Addr)

namespace DnsEvloop

/-- The resolver as it was initialised, in a world. -/
def init (nsaddrList : List SockaddrStorage) (domain : CString) (now : ℤ) (random : List UInt32) (sendto : ℕ → Bool)
    (callbacks : List (List DnsSubmission)) : DnsEvloop where
  nsaddrList := nsaddrList
  retrycnt := 0
  timeoutCount := fun _ => 0
  requestList := []
  domain := domain
  now := now
  allocated := 0
  submitted := 0
  calls := []
  deleted := []
  packets := []
  attempts := []
  random := random
  sendto := sendto
  callbacks := callbacks

/-- The request at an address. -/
def get (s : DnsEvloop) (a : Addr) : Option DnsReslist := s.requestList.find? fun r => r.node = a

/-- The request `r` is changed to, where its address is. -/
def put (s : DnsEvloop) (r : DnsReslist) : DnsEvloop :=
  { s with requestList := s.requestList.map fun r' => if r'.node = r.node then r else r' }

/-- `find_id`. -/
def findId (s : DnsEvloop) (id : UInt16) : Option DnsReslist := s.requestList.find? fun r => r.id = id

/-- The node after that of a request: `next`. -/
def next (a : Addr) : List DnsReslist → Option (Option Addr)
  | [] => none
  | r :: rest => if r.node = a then some (rest.head?.map DnsReslist.node) else next a rest

/-- `res_ourserver`. -/
def resOurserver (s : DnsEvloop) (inp : SockaddrStorage) : Bool × DnsEvloop :=
  match s.nsaddrList.findIdx? (fun srv => srv.serves inp) with
  | some ns => (true, { s with timeoutCount := Function.update s.timeoutCount ns 0 })
  | none => (false, s)

/-- The loop of `query_name`, with the numbers that are drawn: the id that is
not in use, and the numbers that are left. -/
def generateId (s : DnsEvloop) (id : UInt16) : List UInt32 → Option (UInt16 × List UInt32)
  | [] => none
  | n :: random =>
    let id := id + n.toUInt16
    if (s.findId id).isSome then s.generateId id random else some (id, random)

end DnsEvloop

namespace Dns

/-- The request at `a`, which is read. -/
def request (a : Addr) : Dns DnsReslist := do
  let s ← get
  match s.get a with
  | some r => pure r
  | none => throw .undefined

/-- The request at `a` is changed by `f`. -/
def update (a : Addr) (f : DnsReslist → DnsReslist) : Dns Unit := do
  let r ← request a
  modify fun s => s.put (f r)

/-- `rem_request`. -/
def remRequest (a : Addr) : Dns Unit := do
  let _ ← request a
  modify fun s => { s with requestList := s.requestList.filter fun r => r.node ≠ a }

/-- `make_request`. -/
def makeRequest (query : DnsQuery) : Dns Addr := do
  let s ← get
  let r : DnsReslist :=
    { node := s.allocated, id := 0, ttl := 0, type := 0, queryname := .ofBuffer [], retries := 3, sends := 0,
      sentat := s.now, timeout := 4, lastns := 0, addr := .zero, name := none, nameSize := 0,
      query := query }
  set { s with requestList := s.requestList ++ [r], allocated := s.allocated + 1 }
  pure s.allocated

/-- `retryfreq`. -/
def retryfreq (timeouts : ℕ) : ℤ := 3 ^ min timeouts 5

/-- `mowgli_vio_sendto`, to the nameserver `ns`: whether it sends it all. -/
def vioSendto (ns : ℕ) : Dns Bool := do
  let s ← get
  set { s with sendto := fun n => s.sendto (n + 1), attempts := s.attempts ++ [(ns, s.sendto 0)] }
  pure (s.sendto 0)

/-- A loop of `send_res_msg`, over the nameservers that `tries` holds of. -/
def sendLoop (tries : ℕ → Bool) : List ℕ → Dns (Option ℕ)
  | [] => pure none
  | ns :: rest =>
    if tries ns then do
      let sent ← vioSendto ns
      if sent then pure (some ns) else sendLoop tries rest
    else sendLoop tries rest

/-- `send_res_msg`: the nameserver, or `none` for -1. -/
def sendResMsg (rcount : ℕ) : Dns (Option ℕ) := do
  modify fun s => { s with retrycnt := s.retrycnt + 1 }
  let s ← get
  let nscount := s.nsaddrList.length
  let order := (List.range nscount).map fun i => (i + rcount - 1) % nscount
  -- first those that seem to work, and now and then one that seems broken
  let ns ← sendLoop (fun ns => s.timeoutCount ns = 0 || s.retrycnt % retryfreq (s.timeoutCount ns) = 0) order
  match ns with
  | some ns => pure (some ns)
  | none => sendLoop (fun ns => s.timeoutCount ns ≠ 0) order

variable (lib : Reslib)

/-- What `query_name` does with the packet that was made. -/
def sendQuery (a : Addr) : Dns Unit := do
  let r ← request a
  let s ← get
  match s.generateId 0 s.random with
  | none => throw .noId
  | some (id, random) => do
    set { s with random := random, packets := s.packets ++ [DnsPacket.mk a id r.queryname] }
    update a fun r => { r with id := id, sends := r.sends + 1 }
    let ns ← sendResMsg (r.sends + 1)
    match ns with
    | some ns => update a fun r => { r with lastns := ns }
    | none => pure ()

/-- `query_name`. -/
def queryName (a : Addr) : Dns Unit := do
  let r ← request a
  if lib.mkquery r.queryname r.type then sendQuery a else pure ()

/-- The request of `do_query_name` or `do_query_number`, which is filled in by
`f` if it is a new one. -/
def target (f : DnsReslist → DnsReslist) : DnsTarget → Dns Addr
  | .again a => pure a
  | .new query => do
    let a ← makeRequest query
    update a f
    pure a

/-- `do_query_name`. -/
def doQueryName (t : DnsTarget) (name : CString) (type : ℤ) : Dns Unit := do
  let s ← get
  let hostName := addLocalDomain s.domain (name.strlcpy (DNS_RES_HOSTLEN + 1)) DNS_RES_HOSTLEN
  let a ← target (fun r => { r with name := some hostName, nameSize := hostName.length + 1 }) t
  update a fun r => { r with queryname := hostName.strlcpy (DNS_RES_HOSTLEN + 1), type := .ofInt type }
  queryName lib a

/-- `do_query_number`. -/
def doQueryNumber (t : DnsTarget) (addr : SockaddrStorage) : Dns Unit := do
  let a ← target (fun r => { r with addr := addr, name := some (.ofBuffer []), nameSize := DNS_RES_HOSTLEN + 1 }) t
  match addr.queryname with
  | some queryname => do
    update a fun r => { r with queryname := queryname, type := .ofInt DNS_T_PTR }
    queryName lib a
  | none => pure ()

/-- `mowgli_dns_evloop_gethost_byname`. -/
def gethostByname (name : CString) (query : DnsQuery) (type : ℤ) : Dns Unit := doQueryName lib (.new query) name type

/-- `mowgli_dns_evloop_gethost_byaddr`. -/
def gethostByaddr (addr : SockaddrStorage) (query : DnsQuery) : Dns Unit := doQueryNumber lib (.new query) addr

/-- The user submits a query. -/
def submit (submission : DnsSubmission) : Dns Unit := do
  let s ← get
  set { s with submitted := s.submitted + 1 }
  match submission with
  | .byName name query type => gethostByname lib name ⟨query, s.submitted⟩ type
  | .byAddr addr query => gethostByaddr lib addr ⟨query, s.submitted⟩

/-- The submissions of a callback, in their order. -/
def submitAll : List DnsSubmission → Dns Unit
  | [] => pure ()
  | submission :: rest => do
    submit lib submission
    submitAll rest

/-- `(*request->query->callback)(reply, result, request->query->ptr)`. -/
def callback (a : Addr) (reply : Option DnsReply) (result : DnsResult) : Dns Unit := do
  let r ← request a
  let s ← get
  set { s with calls := s.calls ++ [DnsCall.mk r.query result reply], callbacks := s.callbacks.tail }
  submitAll lib (s.callbacks.headD [])

/-- The callback is called, and then `rem_request`. -/
def complete (a : Addr) (reply : Option DnsReply) (result : DnsResult) : Dns Unit := do
  callback lib a reply result
  remRequest a

/-- `resend_query`. -/
def resendQuery (a : Addr) : Dns Unit := do
  let r ← request a
  if r.type.toInt = DNS_T_PTR then doQueryNumber lib (.again a) r.addr
  else if r.type.toInt = DNS_T_A ∨ r.type.toInt = DNS_T_AAAA then
    match r.name with
    | some name => doQueryName lib (.again a) name r.type.toInt
    | none => throw .undefined
  else pure ()

/-- `MOWGLI_ITER_FOREACH_SAFE` over the requests, from the node `a`: the
next node is read before `body` is run. There are steps for `fuel` of them. -/
def foreachSafe {β : Type} (body : Addr → β → Dns β) : ℕ → Option Addr → β → Dns β
  | _, none, acc => pure acc
  | 0, some _, _ => throw .endless
  | fuel + 1, some a, acc => do
    let s ← get
    match DnsEvloop.next a s.requestList with
    | none => throw .undefined
    | some next => do
      let acc ← body a acc
      foreachSafe body fuel next acc

/-- What `timeout_query_list` does with a request that timed out: whether it
was removed. -/
def timedOut (now : ℤ) (a : Addr) : Dns Bool := do
  update a fun r => { r with retries := r.retries - 1 }
  let r ← request a
  if r.retries ≤ 0 then do
    complete lib a none .timeout
    pure true
  else do
    modify fun s => { s with timeoutCount := Function.update s.timeoutCount r.lastns (s.timeoutCount r.lastns + 1) }
    update a fun r => { r with sentat := now, timeout := r.timeout + r.timeout }
    resendQuery lib a
    pure false

/-- Whether `timeout_query_list` removed the request at `a`, which it does if
that timed out and has no retries left. -/
def timeoutRequest (now timeout : ℤ) (a : Addr) : Dns Bool :=
  if timeout ≤ now then timedOut lib now a else pure false

/-- The loop of `timeout_query_list`, for one request. -/
def timeoutBody (now : ℤ) (a : Addr) (nextTime : ℤ) : Dns ℤ := do
  let r ← request a
  let timeout := r.sentat + r.timeout
  let removed ← timeoutRequest lib now timeout a
  if removed then pure nextTime
  else if nextTime = 0 ∨ timeout < nextTime then pure timeout
  else pure nextTime

/-- `timeout_query_list`. It may come upon the requests there are, and upon
those that the callbacks submit. -/
def timeoutQueryList (now : ℤ) : Dns ℤ := do
  let s ← get
  let nextTime ← foreachSafe (timeoutBody lib now) (s.requestList.length + (s.callbacks.map List.length).sum)
    (s.requestList.head?.map DnsReslist.node) 0
  pure (if now < nextTime then nextTime else now + 600)

/-- The loop of `mowgli_dns_evloop_delete_queries`, for one request. -/
def deleteBody (query : Addr) (a : Addr) (_ : Unit) : Dns Unit := do
  let r ← request a
  if query = r.query.ptr then do
    modify fun s => { s with deleted := s.deleted ++ [r.query] }
    remRequest a
  else pure ()

/-- `mowgli_dns_evloop_delete_queries`. -/
def deleteQueries (query : Addr) : Dns Unit := do
  let s ← get
  foreachSafe (deleteBody query) s.requestList.length (s.requestList.head?.map DnsReslist.node) ()

/-- `make_dnsreply`. -/
def makeDnsreply (r : DnsReslist) : DnsReply := ⟨r.name, r.addr⟩

/-- What `res_read_single_reply` does with a reply that was decoded. -/
def answered (a : Addr) : Dns Unit := do
  let r ← request a
  if r.type.toInt = DNS_T_PTR then
    match r.name with
    | none => complete lib a none .invalid
    | some name => do
      -- the name that was given for the address is looked up, for the same query
      gethostByname lib name r.query (if r.addr.family = .inet6 then DNS_T_AAAA else DNS_T_A)
      remRequest a
  else complete lib a (some (makeDnsreply r)) .success

/-- What `res_read_single_reply` does with a reply to the request at `a`. -/
def handleReply (a : Addr) (d : DnsDatagram) : Dns Unit := do
  if d.header.rcode ≠ DNS_NO_ERRORS ∨ d.header.ancount = 0 then
    complete lib a none (if d.header.rcode = DNS_NXDOMAIN then .nxdomain else .invalid)
  else do
    let r ← request a
    update a fun _ => (procAnswer lib r d).2
    if (procAnswer lib r d).2.nameFits then
      if (procAnswer lib r d).1 then answered lib a else complete lib a none .invalid
    -- `mowgli_strlcpy` has written past the block of `request->name`
    else throw .overflow

/-- `res_read_single_reply`, where `d` was read. -/
def resReadSingleReply (d : DnsDatagram) : Dns Unit := do
  let s ← get
  if d.rc ≤ DNS_HEADER_SIZE then pure ()
  else
    match s.findId d.header.id with
    | none => pure ()
    | some r => do
      set (s.resOurserver d.lsin).2
      if (s.resOurserver d.lsin).1 then
        if checkQuestion lib r d then handleReply lib r.node d else pure ()
      else pure ()

/-- A step of the resolver. -/
inductive Op
  | submit (submission : DnsSubmission)
  /-- `res_readreply`, for one datagram. -/
  | datagram (d : DnsDatagram)
  /-- `timeout_resolver`, up to where it reschedules. -/
  | tick (now : ℤ)
  | deleteQueries (query : Addr)
  /-- The event loop reads the time. -/
  | synchronize (now : ℤ)

/-- `res_read_single_reply` comes to `proc_answer` with the request `r`. -/
structure ComesToAnswer (s : DnsEvloop) (d : DnsDatagram) (r : DnsReslist) : Prop where
  long : DNS_HEADER_SIZE < d.rc
  id : s.findId d.header.id = some r
  server : (s.resOurserver d.lsin).1 = true
  question : checkQuestion lib r d = true
  rcode : d.header.rcode = DNS_NO_ERRORS
  answers : d.header.ancount ≠ 0

/-- In this step, `proc_answer` comes to no name of a host that does not fit where it is
copied. -/
def Op.Fits (s : DnsEvloop) : Op → Prop
  | datagram d => ∀ r, ComesToAnswer lib s d r → HostFits lib r d
  | _ => True

/-- What a step does. -/
def Op.run : Op → Dns Unit
  | submit submission => Dns.submit lib submission
  | datagram d => resReadSingleReply lib d
  | tick now => do
    modify fun s => { s with now := now }
    let _ ← timeoutQueryList lib now
    pure ()
  | deleteQueries query => Dns.deleteQueries query
  | synchronize now => modify fun s => { s with now := now }

end Dns

end Mowgli
