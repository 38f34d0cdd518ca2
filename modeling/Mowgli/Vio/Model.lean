import Mowgli.Dns.Reslist
import Mowgli.Eventloop.Pollable.Batch
/-!
# VIO objects

`vio/vio.c`, `vio/vio_sockets.c` and the inline functions of `vio/vio.h`. A VIO
has a descriptor, or, while it is attached to the event loop, a pollable in
its place: `io` is a union. What a system call does is up to the kernel, so
that each call here comes with what the system call answers.

Beside the VIOs there are the open descriptors, each with the VIO that it
was made for. The model has one event loop, the functions that VIO has by default, and
no VIO outside the heap.
-/

namespace Mowgli

/-- `mowgli_vio_error_op_t`. -/
inductive VioErrorOp
  | none
  | socket
  | listen
  | accept
  | reuseaddr
  | connect
  | read
  | write
  | bind
  | seek
  | tell
  | other

/-- `mowgli_vio_error_type_t`. -/
inductive VioErrorType
  | none
  | remoteHangup
  | errcode
  | api
  | custom

/-- `mowgli_vio_error_t`. -/
structure VioError where
  op : VioErrorOp
  type : VioErrorType
  code : ℕ
  string : CString

/-- `mowgli_vio_sockaddr_t`. -/
structure VioSockaddr where
  addr : SockaddrStorage
  addrlen : ℕ

/-- `mowgli_vio_evops_t`. -/
structure VioEvops where
  readCb : Option Addr
  writeCb : Option Addr

/-- The `io` of a VIO. -/
inductive VioIo
  | e (pollable : Addr)
  | fd (fd : ℤ)

/-- `mowgli_vio_t`. -/
structure Vio where
  evops : Option VioEvops
  io : VioIo
  /-- Whether `eventloop` is set. -/
  eventloop : Bool
  addr : VioSockaddr
  error : VioError
  flags : BitVec 32
  userdata : Option Addr

/-- `MOWGLI_VIO_FLAGS_ISCONNECTING`. -/
def VIO_FLAGS_ISCONNECTING : BitVec 32 := 0x00001

/-- `MOWGLI_VIO_FLAGS_ISSSLCONNECTING`. -/
def VIO_FLAGS_ISSSLCONNECTING : BitVec 32 := 0x00002

/-- `MOWGLI_VIO_FLAGS_ISCLOSED`. -/
def VIO_FLAGS_ISCLOSED : BitVec 32 := 0x00004

/-- `MOWGLI_VIO_FLAGS_ISCLIENT`. -/
def VIO_FLAGS_ISCLIENT : BitVec 32 := 0x00008

/-- `MOWGLI_VIO_FLAGS_ISSERVER`. -/
def VIO_FLAGS_ISSERVER : BitVec 32 := 0x00010

/-- `MOWGLI_VIO_FLAGS_ISONHEAP`. -/
def VIO_FLAGS_ISONHEAP : BitVec 32 := 0x00020

/-- `MOWGLI_VIO_FLAGS_NEEDREAD`. -/
def VIO_FLAGS_NEEDREAD : BitVec 32 := 0x00040

/-- `MOWGLI_VIO_FLAGS_NEEDWRITE`. -/
def VIO_FLAGS_NEEDWRITE : BitVec 32 := 0x00080

/-- The errors that `mowgli_eventloop_ignore_errno` ignores: `EINPROGRESS`, `EAGAIN` (which is
`EWOULDBLOCK`), `ETIME`, `EINTR`, `ERESTART`, `ENOBUFS` and `ENOENT`, as Linux has them. -/
def ignoredErrnos : List ℕ := [115, 11, 62, 4, 85, 105, 2]

/-- `mowgli_eventloop_ignore_errno`. -/
def eventloopIgnoreErrno (error : ℕ) : Bool := error ∈ ignoredErrnos

/-- `ENOSYS`. -/
def ENOSYS : ℕ := 38

/-- What a function does to a VIO: what it returns and logs, and what it asks of the event loop. -/
structure VioReturn where
  ret : ℤ
  vio : Vio
  log : List LogLine
  /-- `MOWGLI_VIO_SETWRITE` or `MOWGLI_VIO_UNSETWRITE`. -/
  setwrite : Option Bool

namespace Vio

/-- `mowgli_vio_hasflag`. -/
def hasflag (vio : Vio) (flag : BitVec 32) : Bool := vio.flags &&& flag ≠ 0

/-- `mowgli_vio_setflag`. -/
def setflag (vio : Vio) (flag : BitVec 32) (setting : Bool) : Vio :=
  if setting then { vio with flags := vio.flags ||| flag } else { vio with flags := vio.flags &&& ~~~flag }

/-- `MOWGLI_VIO_IS_CLOSED`. -/
def isClosed (vio : Vio) : Bool := vio.hasflag VIO_FLAGS_ISCLOSED

/-- `MOWGLI_VIO_SET_CLOSED`. -/
def setClosed (vio : Vio) : Vio :=
  let vio := vio.setflag VIO_FLAGS_ISCONNECTING false
  let vio := vio.setflag VIO_FLAGS_ISCLOSED true
  let vio := vio.setflag VIO_FLAGS_ISSSLCONNECTING false
  let vio := vio.setflag VIO_FLAGS_NEEDREAD false
  vio.setflag VIO_FLAGS_NEEDWRITE false

/-- `vio->error.op = op`. -/
def setOp (vio : Vio) (op : VioErrorOp) : Vio := { vio with error := { vio.error with op := op } }

/-- `mowgli_vio_default_error`. -/
def defaultError (vio : Vio) : VioReturn := ⟨-1, vio, [.message "%s error: %s\n"], none⟩

/-- `mowgli_vio_err_errcode`. -/
def errErrcode (strerror : ℕ → CString) (vio : Vio) (errcode : ℕ) : VioReturn :=
  defaultError { vio with error :=
    { vio.error with type := .errcode, code := errcode, string := (strerror errcode).strlcpy 128 } }

/-- `return ret`. -/
def returns (vio : Vio) (ret : ℤ) : VioReturn := ⟨ret, vio, [], none⟩

/-- What `mowgli_heap_alloc` gives, after `mowgli_vio_init` and with its flag set. -/
def created (userdata : Option Addr) : Vio :=
  { evops := none, io := .fd (-1), eventloop := false, addr := ⟨.zero, 0⟩
    error := ⟨.none, .none, 0, .ofBuffer []⟩, flags := VIO_FLAGS_ISONHEAP, userdata := userdata }

variable (strerror : ℕ → CString) (vio : Vio)

/-- `mowgli_vio_default_socket`. -/
def defaultSocket (stream : Bool) (res : Except ℕ ℤ) : VioReturn :=
  let vio := vio.setOp .socket
  match res with
  | .error errno => vio.errErrcode strerror errno
  | .ok fd =>
    let vio := { vio with io := .fd fd }
    let vio := if stream then (vio.setflag VIO_FLAGS_ISCONNECTING false).setflag VIO_FLAGS_ISCLOSED false else vio
    (vio.setOp .none).returns 0

/-- `mowgli_vio_default_bind`. -/
def defaultBind (addr : VioSockaddr) (res : Except ℕ Unit) : VioReturn :=
  let vio := vio.setOp .bind
  match res with
  | .error errno => vio.errErrcode strerror errno
  | .ok _ => ({ vio with addr := addr } : Vio).returns 0

/-- `mowgli_vio_default_listen`. -/
def defaultListen (res : Except ℕ Unit) : VioReturn :=
  let vio := vio.setOp .listen
  match res with
  | .error errno => vio.errErrcode strerror errno
  | .ok _ =>
    let vio := vio.setflag VIO_FLAGS_ISSERVER true
    let vio := vio.setflag VIO_FLAGS_ISCLIENT false
    let vio := vio.setflag VIO_FLAGS_ISCLOSED false
    (vio.setOp .none).returns 0

/-- `mowgli_vio_default_accept`, on the VIO that listens. `newvio` tells whether it is there. -/
def defaultAccept (newvio : Bool) (res : Except ℕ (ℤ × VioSockaddr)) : VioReturn :=
  let vio := vio.setOp .accept
  if !newvio then
    defaultError { vio with error := { vio.error with
      type := .api, string := .ofBuffer (text "accept not called with valid new VIO object") } }
  else
    match res with
    | .error errno => if !eventloopIgnoreErrno errno then vio.errErrcode strerror errno else vio.returns 0
    | .ok _ => (vio.setOp .none).returns 0

/-- And on the new one. -/
def accepted (fd : ℤ) (addr : VioSockaddr) : Vio :=
  let vio := { vio with addr := addr, io := .fd fd }
  (vio.setflag VIO_FLAGS_ISCLIENT true).setflag VIO_FLAGS_ISSERVER false

/-- `mowgli_vio_default_reuseaddr`. -/
def defaultReuseaddr (res : Except ℕ Unit) : VioReturn :=
  let vio := vio.setOp .reuseaddr
  match res with
  | .error errno => vio.errErrcode strerror errno
  | .ok _ => (vio.setOp .none).returns 0

/-- `mowgli_vio_default_connect`. -/
def defaultConnect (addr : VioSockaddr) (res : Except ℕ Unit) : VioReturn :=
  let vio := vio.setOp .connect
  match res with
  | .error errno => if !eventloopIgnoreErrno errno then vio.errErrcode strerror errno else vio.returns 0
  | .ok _ =>
    let vio := { vio with addr := addr }
    let vio := vio.setflag VIO_FLAGS_ISCLIENT true
    let vio := vio.setflag VIO_FLAGS_ISSERVER false
    let vio := vio.setflag VIO_FLAGS_ISCONNECTING true
    let vio := vio.setflag VIO_FLAGS_ISCLOSED false
    (vio.setOp .none).returns 0

/-- `mowgli_vio_default_read` and `mowgli_vio_default_recvfrom`, which differ in the system call. -/
def receive (res : Except ℕ (List UInt8)) : VioReturn :=
  let vio := vio.setOp .read
  let vio := vio.setflag VIO_FLAGS_ISCONNECTING false
  match res with
  | .error errno =>
    let vio := vio.setflag VIO_FLAGS_NEEDREAD false
    if !eventloopIgnoreErrno errno then vio.errErrcode strerror errno else vio.returns 0
  | .ok [] =>
    let vio := vio.setflag VIO_FLAGS_NEEDREAD false
    let vio := { vio with error := { vio.error with
      type := .remoteHangup, string := .ofBuffer (text "Remote host closed the socket") } }
    vio.setClosed.defaultError
  | .ok buffer =>
    let vio := vio.setflag VIO_FLAGS_NEEDREAD true
    (vio.setOp .none).returns (toInt buffer.length)

/-- `mowgli_vio_default_read`. -/
def defaultRead (res : Except ℕ (List UInt8)) : VioReturn := receive strerror vio res

/-- `mowgli_vio_default_recvfrom`. -/
def defaultRecvfrom (res : Except ℕ (List UInt8)) : VioReturn := receive strerror vio res

/-- `mowgli_vio_default_write` and `mowgli_vio_default_sendto`, which differ in the system call. -/
def transmit (len : ℕ) (res : Except ℕ ℕ) : VioReturn :=
  let vio := vio.setOp .write
  let vio := vio.setflag VIO_FLAGS_ISCONNECTING false
  match res with
  | .error errno =>
    let vio := vio.setflag VIO_FLAGS_NEEDWRITE false
    let r := if !eventloopIgnoreErrno errno then vio.errErrcode strerror errno else vio.returns 0
    { r with setwrite := some false }
  | .ok n =>
    let ret := toInt n
    if ret < toInt len then
      { ((vio.setflag VIO_FLAGS_NEEDWRITE true).setOp .none).returns ret with setwrite := some true }
    else (vio.setOp .none).returns ret

/-- `mowgli_vio_default_write`. -/
def defaultWrite (len : ℕ) (res : Except ℕ ℕ) : VioReturn := transmit strerror vio len res

/-- `mowgli_vio_default_sendto`. -/
def defaultSendto (len : ℕ) (res : Except ℕ ℕ) : VioReturn := transmit strerror vio len res

/-- `mowgli_vio_default_seek`. -/
def defaultSeek : VioReturn := (vio.setOp .seek).errErrcode strerror ENOSYS

/-- `mowgli_vio_default_tell`. -/
def defaultTell : VioReturn := (vio.setOp .tell).errErrcode strerror ENOSYS

end Vio

/-! ## The VIOs of a program -/

/-- The VIOs, the event loop and the open descriptors. -/
structure VioLoop (P E : Type) where
  vios : Store Vio
  /-- How many VIOs were allocated. -/
  allocated : ℕ
  loop : PollLoop P × BatchPhase E
  /-- The open descriptors, each with the VIO that it was made for. -/
  fds : ℤ → Option Addr
  log : List LogLine

/-- The calls of a program, with the answers of the system calls. -/
inductive VioCall
  | create (userdata : Option Addr)
  | socket (vio : Addr) (stream : Bool) (res : Except ℕ ℤ)
  | bind (vio : Addr) (addr : VioSockaddr) (res : Except ℕ Unit)
  | listen (vio : Addr) (res : Except ℕ Unit)
  | accept (vio : Addr) (newvio : Option Addr) (res : Except ℕ (ℤ × VioSockaddr))
  | reuseaddr (vio : Addr) (res : Except ℕ Unit)
  | connect (vio : Addr) (addr : VioSockaddr) (res : Except ℕ Unit)
  | read (vio : Addr) (res : Except ℕ (List UInt8))
  | recvfrom (vio : Addr) (res : Except ℕ (List UInt8))
  | write (vio : Addr) (len : ℕ) (res : Except ℕ ℕ)
  | sendto (vio : Addr) (len : ℕ) (res : Except ℕ ℕ)
  | close (vio : Addr)
  | seek (vio : Addr)
  | tell (vio : Addr)
  | attach (vio : Addr) (evops : Option VioEvops)
  | detach (vio : Addr)
  | destroy (vio : Addr)
  /-- `mowgli_pollable_setselect` with `vio->io.e`. -/
  | setselect (vio : Addr) (dir : IoDir) (f : Option Addr)

namespace VioLoop

variable {P E : Type} (b : Backend P E) (strerror : ℕ → CString) (w : VioLoop P E)

/-- No VIOs yet. -/
def create (poller : P) : VioLoop P E := ⟨Store.empty, 0, (PollLoop.create poller, .idle), fun _ => none, []⟩

/-- `mowgli_vio_getfd`. -/
def getfd (vio : Vio) : Option ℤ :=
  match vio.eventloop, vio.io with
  | true, .e pollable => (w.loop.1.pollables.get pollable).map Pollable.fd
  | false, .fd fd => some fd
  | _, _ => none

/-- `return_val_if_fail(exp, -255)`. -/
def failed (exp : String) : ℤ × VioLoop P E := (-255, { w with log := w.log ++ [.returnIfFail exp] })

/-- `mowgli_pollable_setselect`. -/
def pollableSetselect (pollable : Addr) (dir : IoDir) (f : Option Addr) : Option (VioLoop P E) :=
  (w.loop.1.pollableSetselect b.ops pollable dir f).map fun el => { w with loop := (el, w.loop.2) }

/-- `MOWGLI_VIO_SETWRITE` and `MOWGLI_VIO_UNSETWRITE`. -/
def setwrite (vio : Vio) : Option Bool → Option (VioLoop P E)
  | none => some w
  | some true =>
    match vio.eventloop, vio.io, vio.evops.bind VioEvops.writeCb with
    | true, .e pollable, some f => w.pollableSetselect b pollable .write (some f)
    | _, _, _ => some w
  | some false =>
    match vio.eventloop, vio.io with
    | true, .e pollable => w.pollableSetselect b pollable .write none
    | _, _ => some w

/-- What a function does to the VIO at `vio`. -/
def put (vio : Addr) (r : VioReturn) : Option (ℤ × VioLoop P E) :=
  ({ w with vios := w.vios.set vio r.vio, log := w.log ++ r.log }.setwrite b r.vio r.setwrite).map fun w => (r.ret, w)

/-- A function that begins with `mowgli_vio_getfd`. -/
def withFd (vio : Addr) (f : Vio → VioReturn) : Option (ℤ × VioLoop P E) := do
  let x ← w.vios.get vio
  let fd ← w.getfd x
  if fd = -1 then some (w.failed "fd != -1") else w.put b vio (f x)

/-- `mowgli_vio_create`. -/
def vioCreate (userdata : Option Addr) : ℤ × VioLoop P E :=
  (w.allocated, { w with vios := w.vios.set w.allocated (.created userdata), allocated := w.allocated + 1 })

/-- `mowgli_vio_socket`. -/
def socket (vio : Addr) (stream : Bool) (res : Except ℕ ℤ) : Option (ℤ × VioLoop P E) := do
  let x ← w.vios.get vio
  let w := match res with
    | .ok fd => { w with fds := Function.update w.fds fd (some vio) }
    | .error _ => w
  w.put b vio (x.defaultSocket strerror stream res)

/-- `mowgli_vio_accept`. -/
def accept (vio : Addr) (newvio : Option Addr) (res : Except ℕ (ℤ × VioSockaddr)) : Option (ℤ × VioLoop P E) := do
  let (ret, w) ← w.withFd b vio fun x => x.defaultAccept strerror newvio.isSome res
  match newvio, res with
  | some newvio, .ok (fd, addr) =>
    if ret = 0 then do
      let y ← w.vios.get newvio
      some (ret, { w with
        vios := w.vios.set newvio (y.accepted fd addr), fds := Function.update w.fds fd (some newvio) })
    else some (ret, w)
  | _, _ => some (ret, w)

/-- `mowgli_vio_close`. -/
def close (vio : Addr) : Option (ℤ × VioLoop P E) := do
  let x ← w.vios.get vio
  let fd ← w.getfd x
  if fd = -1 then some (w.failed "fd != -1")
  else some (0, { w with vios := w.vios.set vio x.setClosed, fds := Function.update w.fds fd none })

/-- `mowgli_vio_eventloop_attach`. -/
def eventloopAttach (vio : Addr) (evops : Option VioEvops) : Option (ℤ × VioLoop P E) := do
  let x ← w.vios.get vio
  if x.eventloop then
    some (0, { w with log := w.log ++ [.message
      "VIO object [%p] is already attached to eventloop [%p]; attempted to attach new eventloop [%p]"] })
  else
    match x.io with
    | .e _ => none
    | .fd fd =>
      let (e, el) := w.loop.1.pollableCreate fd x.userdata
      some (0, { w with
        loop := (el, w.loop.2)
        vios := w.vios.set vio { x with io := .e e, eventloop := true, evops := some (evops.getD ⟨none, none⟩) } })

/-- `mowgli_vio_eventloop_detach`. -/
def eventloopDetach (vio : Addr) : Option (ℤ × VioLoop P E) := do
  let x ← w.vios.get vio
  let fd ← w.getfd x
  if fd = -1 then some (w.failed "fd != -1")
  else
    match x.eventloop, x.io with
    | true, .e e => do
      let el ← w.loop.1.pollableDestroy b.ops e
      some (0, { w with loop := (el, w.loop.2), vios := w.vios.set vio { x with eventloop := false, io := .fd fd } })
    | _, _ => some (w.failed "vio->eventloop != NULL")

/-- `mowgli_vio_destroy`. -/
def vioDestroy (vio : Addr) : Option (ℤ × VioLoop P E) := do
  let x ← w.vios.get vio
  let (_, w) ← (if x.eventloop then w.eventloopDetach b vio else some (0, w) : Option (ℤ × VioLoop P E))
  let x ← w.vios.get vio
  let (_, w) ← (if !x.isClosed then w.close vio else some (0, w) : Option (ℤ × VioLoop P E))
  let x ← w.vios.get vio
  if x.hasflag VIO_FLAGS_ISONHEAP then some (0, { w with vios := w.vios.free vio }) else some (0, w)

/-- `mowgli_pollable_setselect(eventloop, vio->io.e, dir, f)`. -/
def setselect (vio : Addr) (dir : IoDir) (f : Option Addr) : Option (ℤ × VioLoop P E) := do
  let x ← w.vios.get vio
  match x.io with
  | .e e => (w.pollableSetselect b e dir f).map fun w => (0, w)
  | .fd _ => none

/-- A call, and what it returns: the new VIO, or a number. -/
def call : VioCall → Option (ℤ × VioLoop P E)
  | .create userdata => some (w.vioCreate userdata)
  | .socket vio stream res => w.socket b strerror vio stream res
  | .bind vio addr res => w.withFd b vio fun x => x.defaultBind strerror addr res
  | .listen vio res => w.withFd b vio fun x => x.defaultListen strerror res
  | .accept vio newvio res => w.accept b strerror vio newvio res
  | .reuseaddr vio res => w.withFd b vio fun x => x.defaultReuseaddr strerror res
  | .connect vio addr res => w.withFd b vio fun x => x.defaultConnect strerror addr res
  | .read vio res => w.withFd b vio fun x => x.defaultRead strerror res
  | .recvfrom vio res => w.withFd b vio fun x => x.defaultRecvfrom strerror res
  | .write vio len res => w.withFd b vio fun x => x.defaultWrite strerror len res
  | .sendto vio len res => w.withFd b vio fun x => x.defaultSendto strerror len res
  | .close vio => w.close vio
  | .seek vio => do
    let x ← w.vios.get vio
    w.put b vio (x.defaultSeek strerror)
  | .tell vio => do
    let x ← w.vios.get vio
    w.put b vio (x.defaultTell strerror)
  | .attach vio evops => w.eventloopAttach vio evops
  | .detach vio => w.eventloopDetach b vio
  | .destroy vio => w.vioDestroy b vio
  | .setselect vio dir f => w.setselect b vio dir f

end VioLoop

end Mowgli
