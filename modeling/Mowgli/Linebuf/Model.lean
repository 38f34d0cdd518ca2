import Mowgli.Base.Bytes
/-!
# Line buffers, as `linebuf/linebuf.c` has them

A function here answers `none` where the code would read or write outside a
block. What the object below the line buffer (the VIO) does in a call is an
argument: what it answers and the flags it has after that. The callbacks of
the line buffer look at what they are given and change nothing in it. The
sizes of things in memory are added without wrapping.
-/

namespace Mowgli

/-- `mowgli_linebuf_buf_t`. -/
structure LinebufBuf where
  /-- The block that `buffer` points at. -/
  buffer : List UInt8
  buflen : ℕ
  maxbuflen : ℕ

/-- `flags`. -/
structure LinebufFlags where
  errReadbufFull : Bool
  errWritebufFull : Bool
  lineHasNullchar : Bool
  shuttingDown : Bool
  deriving DecidableEq

/-- `mowgli_linebuf_t`, as far as it is used, and for each direction whether
the pollable has its function set. -/
structure Linebuf where
  delim : CString
  endl : CString
  flags : LinebufFlags
  readbuf : LinebufBuf
  writebuf : LinebufBuf
  returnNormalStrings : Bool
  /-- Whether there is a `shutdown_cb`. -/
  shutdownCb : Bool
  selectRead : Bool
  selectWrite : Bool

/-- What `mowgli_linebuf_error` leaves in the error of the VIO, for the
function that reports it. -/
inductive LinebufError
  /-- `MOWGLI_VIO_ERR_OP_READ`, "Read buffer full". -/
  | readBufferFull
  /-- `MOWGLI_VIO_ERR_OP_WRITE`, "Write buffer full". -/
  | writeBufferFull
  deriving DecidableEq

/-- A call of a callback of the line buffer, or of the VIO's `error`. -/
inductive LinebufCall
  /-- `readline_cb`, with the bytes of the line and the flag
  `MOWGLI_LINEBUF_LINE_HASNULLCHAR`. -/
  | readline (line : List UInt8) (hasNullchar : Bool)
  /-- `shutdown_cb`. -/
  | shutdown
  | error (error : Option LinebufError)
  deriving DecidableEq

namespace LinebufBuf

/-- What is in the buffer. -/
def content (b : LinebufBuf) : List UInt8 := b.buffer.take b.buflen

/-- An empty buffer, with the block that was allocated for it. -/
structure Fresh (b : LinebufBuf) : Prop where
  buflen : b.buflen = 0
  block : b.buffer.length = b.maxbuflen

/-- `mowgli_linebuf_setbuflen` where there is no block yet. -/
def alloc (maxbuflen : ℕ) : LinebufBuf := ⟨List.replicate maxbuflen 0, 0, maxbuflen⟩

theorem fresh_alloc (n : ℕ) : (alloc n).Fresh := ⟨rfl, List.length_replicate⟩

/-- The block is as long as `maxbuflen` says, and what is in the buffer is
in the block. -/
structure WF (b : LinebufBuf) : Prop where
  block : b.buffer.length = b.maxbuflen
  fits : b.buflen ≤ b.maxbuflen

theorem Fresh.wf {b : LinebufBuf} (h : b.Fresh) : b.WF := ⟨h.block, h.buflen ▸ Nat.zero_le _⟩

theorem Fresh.content {b : LinebufBuf} (h : b.Fresh) : b.content = [] := by
  rw [LinebufBuf.content, h.buflen, List.take_zero]

theorem length_content {b : LinebufBuf} (h : b.buflen ≤ b.buffer.length) : b.content.length = b.buflen := by
  rw [content, List.length_take, min_eq_left h]

theorem WF.length_content {b : LinebufBuf} (h : b.WF) : b.content.length = b.buflen :=
  LinebufBuf.length_content (h.block ▸ h.fits)

end LinebufBuf

namespace Linebuf

/-- "\r\n". -/
def crlf : CString := ⟨[13, 10], by decide⟩

/-- `mowgli_linebuf_create`, with buffers of the given sizes (which are 65536
and can be set with `mowgli_linebuf_setbuflen`), attached to an event loop. -/
def create (readlen writelen : ℕ) : Linebuf where
  delim := crlf
  endl := crlf
  flags := ⟨false, false, false, false⟩
  readbuf := .alloc readlen
  writebuf := .alloc writelen
  returnNormalStrings := true
  shutdownCb := false
  selectRead := true
  selectWrite := true

/-- `mowgli_linebuf_error`. -/
def error (lb : Linebuf) : LinebufCall :=
  .error (if lb.flags.errReadbufFull then some .readBufferFull
    else if lb.flags.errWritebufFull then some .writeBufferFull
    else none)

/-- `mowgli_linebuf_do_shutdown`. -/
def doShutdown (lb : Linebuf) : List LinebufCall := if lb.shutdownCb then [.shutdown] else []

end Linebuf

end Mowgli
