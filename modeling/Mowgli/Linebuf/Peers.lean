import Mowgli.Base.Ctype
import Mowgli.Linebuf.Process
import Mowgli.Linebuf.Shutdown
/-!
# Two line buffers and what is between them

What the one sends, the other one reads, in pieces that have nothing to do
with the writes. A cut between the two delimiters at the end of a line has an
empty line delivered, but that is all that it does: of the lines that were
written none is lost, and none is divided, joined to another one, or out of
its place (`runs_connection`).
-/

namespace Mowgli

namespace Linebuf

open LineState (IsLine filled fullLines joined)

/-- A line buffer that writes, and its peer. -/
structure Connection where
  out : Output
  /-- The lines of the writes that were accepted. -/
  written : List (List UInt8)
  peer : Linebuf
  /-- The bytes that the peer has read. -/
  taken : List UInt8
  /-- The calls that the peer has made. -/
  calls : List LinebufCall

/-- A step of the one, or a read event of the other. -/
inductive ConnectionOp
  | send (op : WriteOp)
  | read (r : VioRead)

/-- The line that is put into the write buffer. -/
def WriteOp.accepted (lb : Linebuf) : WriteOp → List (List UInt8)
  | write data len => if lb.Accepts data len then [(data.getD []).take len.toNat] else []
  | _ => []

namespace ConnectionOp

def run (s : Connection) : ConnectionOp → Option (List LinebufCall × Connection)
  | send op => do
    let (calls, out) ← op.run s.out
    some (calls, { s with out := out, written := s.written ++ op.accepted s.out.lb })
  | read r => do
    let (calls, peer) ← s.peer.readData r
    some (calls, { s with peer := peer, taken := s.taken ++ r.data, calls := s.calls ++ calls })

/-- What is written is a line that fits the buffer of the peer, and what is
sent leaves nothing but whole lines. A read gets what comes next of what was sent,
and stays in the block. -/
def Proper (s : Connection) : ConnectionOp → Prop
  | send op => op.Takes s.out.lb ∧ op.Whole s.out.lb ∧
    ∀ l ∈ op.accepted s.out.lb, IsLine s.peer.delim.strchr l ∧ l.length < s.peer.readbuf.maxbuflen
  | read r => s.taken ++ r.data <+: s.out.sent ∧ s.peer.InBounds r

end ConnectionOp

namespace Connection

/-- The lines that the peer has delivered, but for the empty ones. -/
def delivered (s : Connection) : List (List UInt8) := filled (s.calls.filterMap LinebufCall.line)

/-- Nothing was written yet. -/
def start (lb peer : Linebuf) : Connection := ⟨⟨lb, [], []⟩, [], peer, [], []⟩

/-- What is sent can be read: the end of a line is of delimiters. -/
structure Agree (lb peer : Linebuf) : Prop where
  endl : lb.endl.bytes ≠ []
  delims : ∀ c ∈ lb.endl.bytes, peer.isDelim c = true

/-- What was written is what was sent and what is to be sent, and of what was read the
lines are delivered. -/
structure Good (s : Connection) : Prop where
  agree : Agree s.out.lb s.peer
  block : s.out.lb.writebuf.WF
  kept : s.out.Kept
  text : s.out.text = joined s.out.lb.endl.bytes s.written
  lines : ∀ l ∈ s.written, IsLine s.peer.delim.strchr l ∧ l.length < s.peer.readbuf.maxbuflen
  taken : s.taken <+: s.out.sent
  reading : s.peer.Reading (s.peer.afterStream s.taken).cur
  delivered : s.delivered = fullLines s.peer.isDelim [] s.taken

variable {s s' : Connection} {op : WriteOp} {r : VioRead} {calls : List LinebufCall} {lb peer peer' : Linebuf}
  {out' : Output} {l w : List UInt8}

theorem isLine_isDelim (h : IsLine peer.delim.strchr l) : IsLine peer.isDelim l :=
  ⟨h.1, fun c hc => by
    have hfound := h.2 c hc
    rw [CString.strchr, Bool.or_eq_false_iff] at hfound
    exact hfound.1⟩

theorem Good.start (hagree : Agree lb peer) (hout : lb.writebuf.Fresh) (hpeer : peer.readbuf.Fresh)
    (hroom : 0 < peer.readbuf.maxbuflen) (hrunning : peer.flags.shuttingDown = false) :
    (Connection.start lb peer).Good where
  agree := hagree
  block := hout.wf
  kept := hout.content
  text := rfl
  lines := nofun
  taken := List.prefix_rfl
  reading := ⟨hpeer.block, hpeer.content, hpeer.buflen, hroom, hrunning⟩
  delivered := rfl

/-- No NUL is sent. -/
theorem Good.zero_not_mem (h : s.Good) (hw : w <+: s.out.sent) : 0 ∉ w := by
  intro h0
  have hmem : 0 ∈ joined s.out.lb.endl.bytes s.written := by
    rw [← h.text, ← h.kept]
    exact List.mem_append_left _ (hw.subset h0)
  obtain ⟨l, hl, hmem⟩ := List.mem_flatMap.1 hmem
  rcases List.mem_append.1 hmem with hmem | hmem
  · exact Linebuf.zero_not_mem (h.lines l hl).1.2 hmem
  · exact s.out.lb.endl.nul_free hmem

theorem Good.prefix_text (h : s.Good) (hw : w <+: s.out.sent) : w <+: joined s.out.lb.endl.bytes s.written := by
  rw [← h.text, ← h.kept]
  exact hw.trans (List.prefix_append ..)

/-- There is room for the end of the line that is being read. -/
theorem Good.room (h : s.Good) (hw : w <+: s.out.sent) :
    (s.peer.afterStream w).cur.length < s.peer.readbuf.maxbuflen := by
  rcases LineState.after_joined h.agree.endl h.agree.delims (fun l hl => isLine_isDelim (h.lines l hl).1)
    (h.prefix_text hw) false with hnil | ⟨l, hl, hle⟩
  · rw [afterStream, hnil]
    exact Nat.lt_of_le_of_lt (Nat.zero_le _) h.reading.room
  · exact hle.length_le.trans_lt (h.lines l hl).2

/-! ## Steps -/

theorem run_send (ht : op.Takes s.out.lb) (h : op.run s.out = some (calls, out')) :
    out'.lb.endl = s.out.lb.endl ∧ s.out.sent <+: out'.sent ∧
      out'.text = s.out.text ++ joined s.out.lb.endl.bytes (op.accepted s.out.lb) := by
  cases op with
  | write data len =>
    obtain ⟨⟨calls', lb'⟩, hw, h⟩ := Option.bind_eq_some_iff.1 h
    obtain ⟨rfl, rfl⟩ := Prod.mk.inj (Option.some.inj h)
    have htext : (if s.out.lb.Accepts data len then (data.getD []).take len.toNat ++ s.out.lb.endl.bytes else []) =
        joined s.out.lb.endl.bytes ((WriteOp.write data len).accepted s.out.lb) := by
      show _ = joined _ (if s.out.lb.Accepts data len then [(data.getD []).take len.toNat] else [])
      split_ifs
      · exact (List.append_nil _).symm
      · rfl
    refine ⟨?_, List.prefix_rfl, congrArg (s.out.text ++ ·) htext⟩
    rcases write_cases hw with ⟨-, -, writebuf, rfl⟩ | ⟨-, -, -, rfl⟩ | ⟨-, -, -, full, rfl⟩
    · rfl
    · rfl
    · rfl
  | writeData r =>
    obtain ⟨hsame, -⟩ := run_writeData ht h
    refine ⟨hsame.endl, ?_, hsame.text.trans (List.append_nil _).symm⟩
    obtain ⟨-, rfl⟩ := Prod.mk.inj (Option.some.inj h)
    exact List.prefix_append ..
  | shutDown =>
    obtain ⟨hsame, -⟩ := run_shutDown h
    refine ⟨hsame.endl, ?_, hsame.text.trans (List.append_nil _).symm⟩
    obtain ⟨-, rfl⟩ := Prod.mk.inj (Option.some.inj h)
    exact List.prefix_rfl

theorem Good.send (h : s.Good) (hop : (ConnectionOp.send op).Proper s) (hrun : op.run s.out = some (calls, out')) :
    Good { s with out := out', written := s.written ++ op.accepted s.out.lb } := by
  obtain ⟨htakes, hwhole, hlines⟩ := hop
  obtain ⟨hendl, hsent, htext⟩ := run_send htakes hrun
  obtain ⟨hwf, hkept⟩ := kept_step h.block h.kept htakes hrun
  refine ⟨⟨hendl ▸ h.agree.endl, hendl ▸ h.agree.delims⟩, hwf, hkept.2 hwhole, ?_, ?_, h.taken.trans hsent, h.reading, h.delivered⟩
  · show out'.text = joined out'.lb.endl.bytes (s.written ++ op.accepted s.out.lb)
    rw [htext, hendl, h.text, joined, joined, joined, List.flatMap_append]
  · exact List.forall_mem_append.2 ⟨h.lines, hlines⟩

/-- What is left over of a line so far, and of what was read behind it. -/
theorem leftover_after (lb : Linebuf) (w data : List UInt8) :
    lb.leftover [] ((lb.afterStream w).cur ++ data) = (lb.afterStream (w ++ data)).cur := by
  rw [leftover, LineState.after_append, LineState.after_line LineState.after_cur_suffix.2, List.nil_append, afterStream,
    LineState.after_append, LineState.after_cur (lb.afterStream w)]

/-- What a read does, if it is of what was sent. -/
theorem Good.readData (h : s.Good) (hop : (ConnectionOp.read r).Proper s) (hrun : s.peer.readData r = some (calls, peer')) :
    s.peer.Same peer' ∧ peer'.Reading (s.peer.afterStream (s.taken ++ r.data)).cur ∧
      filled (calls.filterMap LinebufCall.line) = fullLines s.peer.isDelim (s.peer.afterStream s.taken).cur r.data := by
  obtain ⟨htaken, hin⟩ := hop
  by_cases hdata : r.data = []
  · -- nothing was read
    have hfree : sizeSub s.peer.readbuf.maxbuflen s.peer.readbuf.buflen ≠ 0 := by
      have := h.reading.buflen
      have := h.reading.room
      rw [sizeSub, if_neg (by omega)]
      omega
    unfold Linebuf.readData at hrun
    rw [if_neg hfree, if_pos hdata] at hrun
    rw [hdata, List.append_nil]
    split_ifs at hrun
    · obtain ⟨rfl, rfl⟩ := Prod.mk.inj (Option.some.inj hrun)
      exact ⟨⟨rfl, rfl⟩, h.reading, rfl⟩
    · obtain ⟨rfl, rfl⟩ := Prod.mk.inj (Option.some.inj hrun)
      refine ⟨⟨rfl, rfl⟩, ⟨h.reading.block, h.reading.content, h.reading.buflen, h.reading.room, h.reading.running⟩, ?_⟩
      unfold doShutdown
      split_ifs
      · rfl
      · rfl
  · have hnul : 0 ∉ (s.peer.afterStream s.taken).cur ++ r.data := by
      intro h0
      obtain ⟨before, hbefore⟩ : (s.peer.afterStream s.taken).cur <:+ s.taken := LineState.after_cur_suffix.1
      refine h.zero_not_mem htaken ?_
      rw [← hbefore, List.append_assoc]
      exact List.mem_append_right _ h0
    have hleft := leftover_after s.peer s.taken r.data
    obtain ⟨peer₁, hread, hreading, hsame⟩ :=
      (readData_spec h.reading hdata hnul (by rw [hleft]; exact h.room htaken)).1 hin
    rw [hread] at hrun
    obtain ⟨rfl, rfl⟩ := Prod.mk.inj (Option.some.inj hrun)
    refine ⟨hsame, hleft ▸ hreading, ?_⟩
    have hlines : ((s.peer.found [] ((s.peer.afterStream s.taken).cur ++ r.data)).map deliverLine).filterMap LinebufCall.line =
        s.peer.found [] ((s.peer.afterStream s.taken).cur ++ r.data) := lines_deliver false _
    rw [hlines, found, LineState.filled_emit (fun _ => rfl), LineState.map_fst_plain,
      LineState.fullLines_line LineState.after_cur_suffix.2, List.nil_append]

theorem Good.read (h : s.Good) (hop : (ConnectionOp.read r).Proper s) (hrun : s.peer.readData r = some (calls, peer')) :
    Good { s with peer := peer', taken := s.taken ++ r.data, calls := s.calls ++ calls } := by
  obtain ⟨hsame, hreading, hcalls⟩ := h.readData hop hrun
  have hdelim := hsame.isDelim
  refine ⟨⟨h.agree.endl, hdelim ▸ h.agree.delims⟩, h.block, h.kept, h.text, ?_, hop.1, ?_, ?_⟩
  · show ∀ l ∈ s.written, IsLine peer'.delim.strchr l ∧ l.length < peer'.readbuf.maxbuflen
    rw [hsame.delim, hsame.maxbuflen]
    exact h.lines
  · show peer'.Reading (peer'.afterStream (s.taken ++ r.data)).cur
    rw [afterStream, hdelim]
    exact hreading
  · show filled ((s.calls ++ calls).filterMap LinebufCall.line) = fullLines peer'.isDelim [] (s.taken ++ r.data)
    rw [hdelim, List.filterMap_append, LineState.filled_append, hcalls, LineState.fullLines_append false]
    exact congrArg (· ++ _) h.delivered

/-! ## Runs -/

abbrev Runs (lb peer : Linebuf) : List (ConnectionOp × List LinebufCall) → Connection → Prop :=
  Run ConnectionOp.run ConnectionOp.Proper (Connection.start lb peer)

theorem Good.run (h : s.Good) {op : ConnectionOp} (hop : op.Proper s) (hrun : op.run s = some (calls, s')) :
    s'.Good ∧ s'.out.lb.endl = s.out.lb.endl := by
  cases op with
  | send op =>
    obtain ⟨⟨calls', out'⟩, hsend, hrun⟩ := Option.bind_eq_some_iff.1 hrun
    obtain ⟨-, rfl⟩ := Prod.mk.inj (Option.some.inj hrun)
    exact ⟨h.send hop hsend, (run_send hop.1 hsend).1⟩
  | read r =>
    obtain ⟨⟨calls', peer'⟩, hread, hrun⟩ := Option.bind_eq_some_iff.1 hrun
    obtain ⟨-, rfl⟩ := Prod.mk.inj (Option.some.inj hrun)
    exact ⟨h.read hop hread, rfl⟩

/-- The lines that are not empty are those that were written, as far as they were read. -/
theorem Good.delivered_front (h : s.Good) : s.delivered <+: s.written ∧
    ∀ n, joined s.out.lb.endl.bytes (s.written.take n) <+: s.taken → s.written.take n <+: s.delivered := by
  have hlines : ∀ l ∈ s.written, IsLine s.peer.isDelim l := fun l hl => isLine_isDelim (h.lines l hl).1
  constructor
  · obtain ⟨rest, hrest⟩ := h.prefix_text h.taken
    rw [h.delivered, ← LineState.fullLines_joined h.agree.endl h.agree.delims hlines, ← hrest, LineState.fullLines_append false]
    exact List.prefix_append ..
  · rintro n ⟨rest, hrest⟩
    rw [h.delivered, ← hrest, LineState.fullLines_append false,
      LineState.fullLines_joined h.agree.endl h.agree.delims fun l hl => hlines l (List.mem_of_mem_take hl)]
    exact List.prefix_append ..

/-- **Lines come as they were written**: those that the peer has delivered are the first ones
that were written, and all are that it has read to their end. -/
theorem runs_connection {tr : List (ConnectionOp × List LinebufCall)} (hagree : Agree lb peer) (hout : lb.writebuf.Fresh)
    (hpeer : peer.readbuf.Fresh) (hroom : 0 < peer.readbuf.maxbuflen) (hrunning : peer.flags.shuttingDown = false)
    (h : Runs lb peer tr s) : s.delivered <+: s.written ∧
      ∀ n, joined lb.endl.bytes (s.written.take n) <+: s.taken → s.written.take n <+: s.delivered := by
  have hinv : s.Good ∧ s.out.lb.endl = lb.endl := by
    refine Run.invariant (I := fun s => s.Good ∧ s.out.lb.endl = lb.endl)
      ⟨.start hagree hout hpeer hroom hrunning, rfl⟩ ?_ h
    intro s op calls s' hs hop hrun
    obtain ⟨hgood, hendl⟩ := hs.1.run hop hrun
    exact ⟨hgood, hendl.trans hs.2⟩
  have hend := hinv.1.delivered_front
  rwa [hinv.2] at hend

/-- The lines "ab" and "cd" are sent at once, and read as "ab\r\nc" and "d\r\n". -/
theorem runs_connection_cut : ∃ tr s, Runs (create 16 16) (create 16 16) tr s ∧ s.taken.length = 8 ∧
    s.delivered <+: s.written ∧ ∀ n, joined (create 16 16).endl.bytes (s.written.take n) <+: s.taken →
      s.written.take n <+: s.delivered := by
  have h₁ : Runs (create 16 16) (create 16 16) _ _ :=
    Run.one (a := .send (.write (some [97, 98]) 2)) (by exact ⟨trivial, trivial, by decide⟩) rfl
  have h₂ : Runs (create 16 16) (create 16 16) _ _ :=
    Run.snoc (a := .send (.write (some [99, 100]) 2)) h₁ (by exact ⟨trivial, trivial, by decide⟩) rfl
  have h₃ : Runs (create 16 16) (create 16 16) _ _ :=
    Run.snoc (a := .send (.writeData ⟨8, 0, false⟩)) h₂ (by exact ⟨by decide, by decide, by decide⟩) rfl
  have h₄ : Runs (create 16 16) (create 16 16) _ _ :=
    Run.snoc (a := .read (readOf [97, 98, 13, 10, 99])) h₃
      (by
        refine ⟨by decide, by decide, ?_⟩
        rintro ⟨c, hc, hdelim⟩
        obtain rfl := Option.some.inj hc
        exact absurd hdelim (by decide)) rfl
  have h₅ : Runs (create 16 16) (create 16 16) _ _ :=
    Run.snoc (a := .read (readOf [100, 13, 10])) h₄ (by exact ⟨by decide, by decide, fun _ => ⟨99, by decide, by decide⟩⟩) rfl
  exact ⟨_, _, h₅, rfl, runs_connection ⟨by decide, forall_mem_bytes (by decide)⟩ (LinebufBuf.fresh_alloc 16) (LinebufBuf.fresh_alloc 16)
    (by decide) rfl h₅⟩

end Connection

end Linebuf

end Mowgli
