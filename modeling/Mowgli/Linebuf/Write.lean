import Mowgli.Library.Run
import Mowgli.Linebuf.Model
/-!
# Writing lines

`mowgli_linebuf_write` puts a line at the end of the write buffer, and the
event loop has `mowgli_linebuf_write_data` send the buffer when it can. What
the VIO took is then to leave the front of the buffer, but the code only
makes `buflen` smaller: it is the end of the buffer that is lost, and what
was sent stays.
-/

namespace Mowgli

/-- What `mowgli_vio_write` answers: `ret`, and then `vio->error.code` and the
flag `MOWGLI_VIO_FLAGS_NEEDWRITE`. -/
structure VioWrite where
  ret : ℤ
  code : ℕ
  needwrite : Bool

namespace Linebuf

/-- `n -= ret`, of a `size_t` and an `int`. -/
def sizeSubInt (n : ℕ) (ret : ℤ) : ℕ :=
  if 0 ≤ ret then sizeSub n ret.toNat else (n + (-ret).toNat) % 18446744073709551616

/-- `mowgli_linebuf_write`, of `len` bytes at `data`. -/
def write (lb : Linebuf) (data : Option (List UInt8)) (len : ℤ) : Option (List LinebufCall × Linebuf) :=
  if ¬ 0 < len then some ([], lb)
  else
    match data with
    | none => some ([], lb)
    | some data =>
      if lb.flags.shuttingDown then some ([], lb)
      else if lb.writebuf.buflen + len.toNat + lb.endl.length > lb.writebuf.maxbuflen then
        let lb := { lb with flags := { lb.flags with errWritebufFull := true } }
        some ([lb.error], lb)
      else do
        let line ← Bytes.load data 0 len.toNat
        let buffer ← Bytes.store lb.writebuf.buffer lb.writebuf.buflen line
        let buffer ← Bytes.store buffer (lb.writebuf.buflen + len.toNat) lb.endl.bytes
        let writebuf := { lb.writebuf with
          buffer := buffer, buflen := lb.writebuf.buflen + (len.toNat + lb.endl.length) }
        some ([], { lb with writebuf := writebuf, selectWrite := true })

/-- `mowgli_linebuf_write_data`, once the VIO has answered. -/
def writeData (lb : Linebuf) (r : VioWrite) : List LinebufCall × Linebuf :=
  if r.ret ≤ 0 ∧ r.code ≠ 0 ∧ r.ret ≠ 0 then ([], { lb with selectWrite := false })
  else
    let lb := { lb with writebuf := { lb.writebuf with buflen := sizeSubInt lb.writebuf.buflen r.ret } }
    if lb.writebuf.buflen = 0 then
      let lb := if r.needwrite then lb else { lb with selectWrite := false }
      (if lb.flags.shuttingDown then lb.doShutdown else [], lb)
    else ([], { lb with selectWrite := true })

/-- `mowgli_linebuf_shut_down`. -/
def shutDown (lb : Linebuf) : List LinebufCall × Linebuf :=
  let lb := { lb with flags := { lb.flags with shuttingDown := true } }
  (if lb.writebuf.buflen = 0 then lb.doShutdown else [], lb)

/-! ## What is written, and what is sent -/

/-- A write is accepted: there is something to write, the line buffer is not
shutting down, and there is room. -/
def Accepts (lb : Linebuf) (data : Option (List UInt8)) (len : ℤ) : Prop :=
  0 < len ∧ data ≠ none ∧ lb.flags.shuttingDown = false ∧
    lb.writebuf.buflen + len.toNat + lb.endl.length ≤ lb.writebuf.maxbuflen

instance (lb : Linebuf) (data : Option (List UInt8)) (len : ℤ) : Decidable (lb.Accepts data len) := by
  unfold Accepts
  infer_instance

/-- A call, or an event. -/
inductive WriteOp
  | write (data : Option (List UInt8)) (len : ℤ)
  | writeData (r : VioWrite)
  | shutDown

/-- The line buffer, the bytes the VIO took, and the text of the writes that
were accepted. -/
structure Output where
  lb : Linebuf
  sent : List UInt8
  text : List UInt8

namespace WriteOp

/-- A step. What the VIO takes is the front of what it is offered. -/
def run (s : Output) : WriteOp → Option (List LinebufCall × Output)
  | write data len => do
    let (calls, lb) ← s.lb.write data len
    let text := if s.lb.Accepts data len then (data.getD []).take len.toNat ++ s.lb.endl.bytes else []
    some (calls, { s with lb := lb, text := s.text ++ text })
  | writeData r =>
    let (calls, lb) := s.lb.writeData r
    some (calls, { s with lb := lb, sent := s.sent ++ s.lb.writebuf.content.take r.ret.toNat })
  | shutDown =>
    let (calls, lb) := s.lb.shutDown
    some (calls, { s with lb := lb })

/-- A VIO takes at most what it is offered, or nothing if it fails for now. -/
def Takes (lb : Linebuf) : WriteOp → Prop
  | writeData r => 0 ≤ r.ret ∧ r.ret ≤ lb.writebuf.buflen
  | _ => True

/-- The VIO takes nothing or all it is offered, or what is offered repeats
itself so that the part left out at the end is the part that was to stay. -/
def Whole (lb : Linebuf) : WriteOp → Prop
  | writeData r => lb.writebuf.content.take (lb.writebuf.buflen - r.ret.toNat) = lb.writebuf.content.drop r.ret.toNat
  | _ => True

instance (lb : Linebuf) : DecidablePred (Takes lb) := fun op => by
  cases op <;> unfold Takes <;> infer_instance

instance (lb : Linebuf) : DecidablePred (Whole lb) := fun op => by
  cases op <;> unfold Whole <;> infer_instance

end WriteOp

/-- **No output is lost, and none sent twice.** What was sent and what is
still in the buffer is the text of the accepted writes. -/
def Output.Kept (s : Output) : Prop := s.sent ++ s.lb.writebuf.content = s.text

/-- The runs from a line buffer with nothing in its write buffer. -/
abbrev WriteRuns (lb : Linebuf) (ok : Linebuf → WriteOp → Prop) :
    List (WriteOp × List LinebufCall) → Output → Prop :=
  Run WriteOp.run (fun s op => ok s.lb op) ⟨lb, [], []⟩

variable {lb lb' : Linebuf} {data : Option (List UInt8)} {len : ℤ} {calls : List LinebufCall} {r : VioWrite}
variable {s s' : Output} {op : WriteOp}

/-- **An accepted write** adds the line and its end to the buffer. -/
theorem write_accepted (hb : lb.writebuf.WF) (h : lb.Accepts data len)
    (hw : lb.write data len = some (calls, lb')) :
    lb'.writebuf.content = lb.writebuf.content ++ ((data.getD []).take len.toNat ++ lb.endl.bytes) ∧
      lb'.writebuf.WF := by
  obtain ⟨hlen, hdata, hdown, hroom⟩ := h
  obtain ⟨text, rfl⟩ := Option.ne_none_iff_exists'.1 hdata
  unfold write at hw
  rw [if_neg (not_not.2 hlen)] at hw
  simp only [hdown, Bool.false_eq_true, if_false, if_neg (not_lt.2 hroom)] at hw
  obtain ⟨line, hline, hw⟩ := Option.bind_eq_some_iff.1 hw
  obtain ⟨buffer₁, h₁, hw⟩ := Option.bind_eq_some_iff.1 hw
  obtain ⟨buffer₂, h₂, hw⟩ := Option.bind_eq_some_iff.1 hw
  obtain ⟨-, rfl⟩ := Prod.mk.inj (Option.some.inj hw)
  have hle : len.toNat ≤ text.length := by
    unfold Bytes.load at hline
    split_ifs at hline with hle
    omega
  rw [Bytes.load_of_le (by omega), List.drop_zero] at hline
  obtain rfl := Option.some.inj hline
  have hlength : (text.take len.toNat).length = len.toNat := by rw [List.length_take, min_eq_left hle]
  have hend : lb.endl.length = lb.endl.bytes.length := rfl
  have htake₁ := Bytes.take_of_store h₁
  have htake₂ := Bytes.take_of_store h₂
  rw [hlength] at htake₁
  constructor
  · show buffer₂.take (lb.writebuf.buflen + (len.toNat + lb.endl.length)) = _
    rw [hend, ← add_assoc, htake₂, htake₁, Option.getD_some, List.append_assoc]
    rfl
  · refine ⟨?_, ?_⟩
    · show buffer₂.length = lb.writebuf.maxbuflen
      rw [Bytes.length_of_store h₂, Bytes.length_of_store h₁, hb.block]
    · show lb.writebuf.buflen + (len.toNat + lb.endl.length) ≤ lb.writebuf.maxbuflen
      omega

/-- **A write that is refused** leaves the buffer as it is. -/
theorem write_refused (h : ¬ lb.Accepts data len) (hw : lb.write data len = some (calls, lb')) :
    lb'.writebuf = lb.writebuf := by
  unfold write at hw
  split at hw
  · obtain ⟨-, rfl⟩ := Prod.mk.inj (Option.some.inj hw)
    rfl
  · rename_i hlen
    split at hw
    · obtain ⟨-, rfl⟩ := Prod.mk.inj (Option.some.inj hw)
      rfl
    · rename_i text
      split at hw
      · obtain ⟨-, rfl⟩ := Prod.mk.inj (Option.some.inj hw)
        rfl
      · rename_i hdown
        split at hw
        · obtain ⟨-, rfl⟩ := Prod.mk.inj (Option.some.inj hw)
          rfl
        · rename_i hroom
          exact absurd ⟨not_not.1 hlen, nofun, Bool.eq_false_iff.2 hdown, not_lt.1 hroom⟩ h

/-- **A write event** makes the buffer shorter at its end. -/
theorem writeData_writebuf (h₀ : 0 ≤ r.ret) (h₁ : r.ret ≤ lb.writebuf.buflen) :
    (lb.writeData r).2.writebuf = { lb.writebuf with buflen := lb.writebuf.buflen - r.ret.toNat } := by
  have hsub : sizeSubInt lb.writebuf.buflen r.ret = lb.writebuf.buflen - r.ret.toNat := by
    rw [sizeSubInt, if_pos h₀, sizeSub, if_neg (by omega)]
  unfold writeData
  rw [if_neg (by omega)]
  simp only [hsub]
  split_ifs <;> rfl

theorem content_writeData (h₀ : 0 ≤ r.ret) (h₁ : r.ret ≤ lb.writebuf.buflen) :
    (lb.writeData r).2.writebuf.content = lb.writebuf.content.take (lb.writebuf.buflen - r.ret.toNat) := by
  rw [writeData_writebuf h₀ h₁, LinebufBuf.content, LinebufBuf.content, List.take_take, min_eq_left (Nat.sub_le ..)]

/-- **A write is answered** if there are `len` bytes at `data`. -/
theorem write_answered (hb : lb.writebuf.WF) (h : ∀ text, data = some text → len.toNat ≤ text.length) :
    ∃ calls lb', lb.write data len = some (calls, lb') := by
  unfold write
  split
  · exact ⟨_, _, rfl⟩
  · cases data with
    | none => exact ⟨_, _, rfl⟩
    | some text =>
      have hle := h text rfl
      dsimp only
      split
      · exact ⟨_, _, rfl⟩
      · split
        · exact ⟨_, _, rfl⟩
        · rename_i hroom
          have hlength : (text.take len.toNat).length = len.toNat := by rw [List.length_take, min_eq_left hle]
          have hend : lb.endl.length = lb.endl.bytes.length := rfl
          have hblock := hb.block
          obtain ⟨buffer₁, h₁⟩ := Bytes.exists_store lb.writebuf.buffer lb.writebuf.buflen
            (text.take len.toNat) (by omega)
          have hlength₁ := Bytes.length_of_store h₁
          obtain ⟨buffer₂, h₂⟩ := Bytes.exists_store buffer₁ (lb.writebuf.buflen + len.toNat)
            lb.endl.bytes (by omega)
          rw [Bytes.load_of_le (by omega), List.drop_zero]
          simp only [Option.bind_eq_bind, Option.bind_some, h₁, h₂]
          exact ⟨_, _, rfl⟩

/-- **A step** keeps the output exactly if what the VIO leaves is whole. -/
theorem kept_step (hb : s.lb.writebuf.WF) (hk : s.Kept) (ht : op.Takes s.lb)
    (h : WriteOp.run s op = some (calls, s')) : s'.lb.writebuf.WF ∧ (s'.Kept ↔ op.Whole s.lb) := by
  cases op with
  | write data len =>
    obtain ⟨⟨calls', lb'⟩, hw, h⟩ := Option.bind_eq_some_iff.1 h
    obtain ⟨-, rfl⟩ := Prod.mk.inj (Option.some.inj h)
    by_cases hacc : s.lb.Accepts data len
    · obtain ⟨hcontent, hwf⟩ := write_accepted hb hacc hw
      refine ⟨hwf, iff_of_true ?_ trivial⟩
      show s.sent ++ lb'.writebuf.content = s.text ++ (if s.lb.Accepts data len then _ else [])
      rw [hcontent, if_pos hacc, ← List.append_assoc, hk]
    · have hbuf := write_refused hacc hw
      refine ⟨hbuf.symm ▸ hb, iff_of_true ?_ trivial⟩
      show s.sent ++ lb'.writebuf.content = s.text ++ (if s.lb.Accepts data len then _ else [])
      rw [hbuf, if_neg hacc, List.append_nil, hk]
  | writeData r =>
    obtain ⟨-, rfl⟩ := Prod.mk.inj (Option.some.inj h)
    obtain ⟨h₀, h₁⟩ := ht
    constructor
    · show (s.lb.writeData r).2.writebuf.WF
      rw [writeData_writebuf h₀ h₁]
      exact ⟨hb.block, (Nat.sub_le ..).trans hb.fits⟩
    · show s.sent ++ s.lb.writebuf.content.take r.ret.toNat ++ (s.lb.writeData r).2.writebuf.content = s.text ↔ _
      rw [content_writeData h₀ h₁, ← hk, List.append_assoc, List.append_cancel_left_eq]
      nth_rewrite 3 [← List.take_append_drop r.ret.toNat s.lb.writebuf.content]
      rw [List.append_cancel_left_eq]
      rfl
  | shutDown =>
    obtain ⟨-, rfl⟩ := Prod.mk.inj (Option.some.inj h)
    exact ⟨hb, iff_of_true hk trivial⟩

/-- There are as many bytes at `data` as the call says. -/
def WriteOp.Readable : WriteOp → Prop
  | write data len => ∀ text, data = some text → len.toNat ≤ text.length
  | _ => True

theorem run_answered (hb : s.lb.writebuf.WF) (h : op.Readable) : ∃ calls s', WriteOp.run s op = some (calls, s') := by
  cases op with
  | write data len =>
    obtain ⟨calls, lb', hw⟩ := write_answered hb h
    exact ⟨_, _, Option.bind_eq_some_iff.2 ⟨_, hw, rfl⟩⟩
  | writeData r => exact ⟨_, _, rfl⟩
  | shutDown => exact ⟨_, _, rfl⟩

/-- **No output is lost or sent twice** in a run in which the VIO leaves
nothing or all of what it is offered; and the next step is answered, and
keeps it so exactly if it is like that. -/
theorem runs_output {tr : List (WriteOp × List LinebufCall)} (hb : lb.writebuf.Fresh)
    (h : WriteRuns lb (fun lb op => op.Takes lb ∧ op.Whole lb) tr s) :
    s.Kept ∧ (∀ op : WriteOp, op.Readable → ∃ calls s', WriteOp.run s op = some (calls, s')) ∧
      ∀ op calls s', op.Takes s.lb → WriteOp.run s op = some (calls, s') → (s'.Kept ↔ op.Whole s.lb) := by
  have hinv : s.lb.writebuf.WF ∧ s.Kept := by
    refine Run.invariant (I := fun s => s.lb.writebuf.WF ∧ s.Kept) ⟨hb.wf, hb.content⟩ ?_ h
    intro s op calls s' hs hop hrun
    obtain ⟨hwf, hiff⟩ := kept_step hs.1 hs.2 hop.1 hrun
    exact ⟨hwf, hiff.2 hop.2⟩
  exact ⟨hinv.2, fun op hop => run_answered hinv.1 hop,
    fun op calls s' ht hrun => (kept_step hinv.1 hinv.2 ht hrun).2⟩

/-- Two lines, the first of which the VIO takes only when it is offered again, and the second with it; then a third. -/
theorem runs_output_three :
    ∃ tr s, WriteRuns (create 16 16) (fun lb op => op.Takes lb ∧ op.Whole lb) tr s ∧ s.Kept ∧
      s.sent = [97, 13, 10, 98, 99, 13, 10] ∧ s.lb.writebuf.content = [100, 13, 10] := by
  have h : WriteRuns (create 16 16) (fun lb op => op.Takes lb ∧ op.Whole lb) _ _ :=
    Run.of_exec [.write (some [97]) 1, .writeData ⟨0, 11, true⟩, .write (some [98, 99]) 2, .writeData ⟨7, 0, false⟩,
      .write (some [100]) 1] rfl
  exact ⟨_, _, h, (runs_output (LinebufBuf.fresh_alloc 16) h).1, by decide, by decide⟩

/-- Of the line `ab` the VIO takes the `a` alone: what is left in the buffer
is not `b` and the end of line, but `ab` and the first half of it. -/
theorem partial_write_loses :
    ∃ tr s, WriteRuns (create 8 8) (fun lb op => op.Takes lb) tr s ∧
      s.sent = [97] ∧ s.lb.writebuf.content = [97, 98, 13] ∧ s.text = [97, 98, 13, 10] ∧ ¬ s.Kept := by
  have h₁ : WriteRuns (create 8 8) (fun lb op => op.Takes lb) _ _ :=
    Run.snoc (a := WriteOp.write (some [97, 98]) 2) .nil trivial rfl
  have h₂ : WriteRuns (create 8 8) (fun lb op => op.Takes lb) _ _ :=
    Run.snoc (a := WriteOp.writeData ⟨1, 0, true⟩) h₁ (by decide) rfl
  exact ⟨_, _, h₂, by decide, by decide, by decide, by unfold Output.Kept; decide⟩

end Linebuf

end Mowgli
