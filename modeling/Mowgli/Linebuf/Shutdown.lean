import Mowgli.Linebuf.Write
/-!
# The end of the output

While there is something in the write buffer, the pollable has its write
function set, so that the event loop comes back to it (`runs_awaited`).
`mowgli_linebuf_shut_down` lets the buffer run empty before it has
`shutdown_cb` called, from `mowgli_linebuf_write_data`: it is then that
everything is sent, and it is called once (`runs_shutdown`). But where the
buffer is empty already and a write event is still to come, it is called
for both.
-/

namespace Mowgli

namespace Linebuf

variable {lb lb' : Linebuf} {data : Option (List UInt8)} {len : ℤ} {calls : List LinebufCall} {r : VioWrite}
variable {s s' : Output} {op : WriteOp}

/-- **What a write does.** -/
theorem write_cases (h : lb.write data len = some (calls, lb')) :
    (lb.Accepts data len ∧ calls = [] ∧ ∃ writebuf, lb' = { lb with writebuf := writebuf, selectWrite := true }) ∨
    (¬ lb.Accepts data len ∧ lb.flags.shuttingDown = true ∧ calls = [] ∧ lb' = lb) ∨
    (¬ lb.Accepts data len ∧ lb.flags.shuttingDown = false ∧ LinebufCall.shutdown ∉ calls ∧
      ∃ full, lb' = { lb with flags := { lb.flags with errWritebufFull := full } }) := by
  have hsame : lb = { lb with flags := { lb.flags with errWritebufFull := lb.flags.errWritebufFull } } := rfl
  cases hdown : lb.flags.shuttingDown with
  | true =>
    refine .inr (.inl ⟨fun hacc => ?_, rfl, ?_⟩)
    · rw [hacc.2.2.1] at hdown
      cases hdown
    · unfold write at h
      rw [hdown] at h
      split at h
      · exact (Prod.mk.inj (Option.some.inj h)).imp Eq.symm Eq.symm
      · split at h
        · exact (Prod.mk.inj (Option.some.inj h)).imp Eq.symm Eq.symm
        · exact (Prod.mk.inj (Option.some.inj h)).imp Eq.symm Eq.symm
  | false =>
    unfold write at h
    rw [hdown] at h
    split at h
    · rename_i hlen
      obtain ⟨rfl, rfl⟩ := Prod.mk.inj (Option.some.inj h)
      exact .inr (.inr ⟨fun hacc => hlen hacc.1, rfl, List.not_mem_nil, _, hsame⟩)
    rename_i hlen
    split at h
    · obtain ⟨rfl, rfl⟩ := Prod.mk.inj (Option.some.inj h)
      exact .inr (.inr ⟨fun hacc => hacc.2.1 rfl, rfl, List.not_mem_nil, _, hsame⟩)
    rename_i text
    rw [if_neg Bool.false_ne_true] at h
    split at h
    · rename_i hfull
      obtain ⟨rfl, rfl⟩ := Prod.mk.inj (Option.some.inj h)
      refine .inr (.inr ⟨fun hacc => absurd hacc.2.2.2 (not_le.2 hfull), rfl, ?_, true, rfl⟩)
      rw [List.mem_singleton]
      nofun
    · rename_i hroom
      obtain ⟨line, -, h⟩ := Option.bind_eq_some_iff.1 h
      obtain ⟨buffer₁, -, h⟩ := Option.bind_eq_some_iff.1 h
      obtain ⟨buffer₂, -, h⟩ := Option.bind_eq_some_iff.1 h
      obtain ⟨rfl, rfl⟩ := Prod.mk.inj (Option.some.inj h)
      exact .inl ⟨⟨not_not.1 hlen, nofun, hdown, not_lt.1 hroom⟩, rfl, _, rfl⟩

/-- **What a write event does**, unless it fails. -/
theorem writeData_eq (h₀ : 0 ≤ r.ret) (h₁ : r.ret ≤ lb.writebuf.buflen) : lb.writeData r =
    (if lb.writebuf.buflen - r.ret.toNat = 0 ∧ lb.flags.shuttingDown = true then lb.doShutdown else [],
      { lb with
        writebuf := { lb.writebuf with buflen := lb.writebuf.buflen - r.ret.toNat }
        selectWrite := if lb.writebuf.buflen - r.ret.toNat = 0 then r.needwrite && lb.selectWrite else true }) := by
  have hsub : sizeSubInt lb.writebuf.buflen r.ret = lb.writebuf.buflen - r.ret.toNat := by
    rw [sizeSubInt, if_pos h₀, sizeSub, if_neg (by omega)]
  unfold writeData
  rw [if_neg (by omega)]
  simp only [hsub]
  split_ifs <;> simp_all [doShutdown]

/-- What is the same after a write event and a call of `mowgli_linebuf_shut_down`. -/
structure Unchanged (s s' : Output) : Prop where
  endl : s'.lb.endl = s.lb.endl
  shutdownCb : s'.lb.shutdownCb = s.lb.shutdownCb
  text : s'.text = s.text

theorem run_writeData (ht : (WriteOp.writeData r).Takes s.lb) (h : (WriteOp.writeData r).run s = some (calls, s')) :
    Unchanged s s' ∧ s'.lb.flags = s.lb.flags ∧
      calls = (if s'.lb.writebuf.buflen = 0 ∧ s.lb.flags.shuttingDown = true then s.lb.doShutdown else []) ∧
      s'.lb.selectWrite = if s'.lb.writebuf.buflen = 0 then r.needwrite && s.lb.selectWrite else true := by
  obtain ⟨rfl, rfl⟩ : (s.lb.writeData r).1 = calls ∧ { s with
      lb := (s.lb.writeData r).2, sent := s.sent ++ s.lb.writebuf.content.take r.ret.toNat } = s' :=
    Prod.mk.inj (Option.some.inj h)
  rw [writeData_eq ht.1 ht.2]
  exact ⟨⟨rfl, rfl, rfl⟩, rfl, rfl, rfl⟩

theorem run_shutDown (h : WriteOp.shutDown.run s = some (calls, s')) : Unchanged s s' ∧
    s'.lb.flags.shuttingDown = true ∧ calls = (if s'.lb.writebuf.buflen = 0 then s.lb.doShutdown else []) ∧
    s'.lb.selectWrite = s.lb.selectWrite ∧ s'.lb.writebuf = s.lb.writebuf := by
  obtain ⟨rfl, rfl⟩ : s.lb.shutDown.1 = calls ∧ { s with lb := s.lb.shutDown.2 } = s' := Prod.mk.inj (Option.some.inj h)
  exact ⟨⟨rfl, rfl, rfl⟩, rfl, rfl, rfl, rfl⟩

/-! ## What is not sent is waited for -/

/-- What is in the write buffer is waited for. -/
def Awaited (lb : Linebuf) : Prop := 0 < lb.writebuf.buflen → lb.selectWrite = true

/-- `shutdown_cb` is called where the line buffer is shutting down and its buffer is empty. -/
theorem awaited_step (h : s.lb.Awaited) (ht : op.Takes s.lb) (hrun : op.run s = some (calls, s')) :
    s'.lb.Awaited ∧ (LinebufCall.shutdown ∈ calls → s'.lb.flags.shuttingDown = true ∧ s'.lb.writebuf.buflen = 0) := by
  cases op with
  | write data len =>
    obtain ⟨⟨calls', lb'⟩, hw, hrun⟩ := Option.bind_eq_some_iff.1 hrun
    obtain ⟨rfl, rfl⟩ := Prod.mk.inj (Option.some.inj hrun)
    rcases write_cases hw with ⟨-, rfl, writebuf, rfl⟩ | ⟨-, -, rfl, rfl⟩ | ⟨-, -, hcalls, full, rfl⟩
    · exact ⟨fun _ => rfl, fun hmem => absurd hmem List.not_mem_nil⟩
    · exact ⟨h, fun hmem => absurd hmem List.not_mem_nil⟩
    · exact ⟨h, fun hmem => absurd hmem hcalls⟩
  | writeData r =>
    obtain ⟨-, hflags, rfl, hselect⟩ := run_writeData ht hrun
    constructor
    · intro hpos
      rw [hselect, if_neg (ne_of_gt hpos)]
    · intro hmem
      split_ifs at hmem with hend
      · exact ⟨hflags ▸ hend.2, hend.1⟩
      · exact absurd hmem List.not_mem_nil
  | shutDown =>
    obtain ⟨-, hdown, rfl, hselect, hbuf⟩ := run_shutDown hrun
    constructor
    · intro hpos
      rw [hselect]
      exact h (hbuf ▸ hpos)
    · intro hmem
      split_ifs at hmem with hempty
      · exact ⟨hdown, hempty⟩
      · exact absurd hmem List.not_mem_nil

theorem runs_kept {tr : List (WriteOp × List LinebufCall)} (hb : lb.writebuf.Fresh)
    (h : WriteRuns lb (fun lb op => op.Takes lb ∧ op.Whole lb) tr s) : s.lb.Awaited ∧ s.lb.writebuf.WF ∧ s.Kept := by
  refine Run.invariant (I := fun s => s.lb.Awaited ∧ s.lb.writebuf.WF ∧ s.Kept)
    ⟨fun hpos => absurd hb.buflen hpos.ne', hb.wf, hb.content⟩ ?_ h
  intro s op calls s' hs hop hrun
  obtain ⟨hwf, hiff⟩ := kept_step hs.2.1 hs.2.2 hop.1 hrun
  exact ⟨(awaited_step hs.1 hop.1 hrun).1, hwf, hiff.2 hop.2⟩

/-- **Output is waited for**, and `shutdown_cb` is called when all of it was sent. -/
theorem runs_awaited {tr : List (WriteOp × List LinebufCall)} (hb : lb.writebuf.Fresh)
    (h : WriteRuns lb (fun lb op => op.Takes lb ∧ op.Whole lb) tr s) :
    s.lb.Awaited ∧ ∀ (op : WriteOp) calls s', op.Takes s.lb → op.Whole s.lb → op.run s = some (calls, s') →
      LinebufCall.shutdown ∈ calls → s'.lb.flags.shuttingDown = true ∧ s'.sent = s'.text := by
  obtain ⟨hawaited, hwf, hkept⟩ := runs_kept hb h
  refine ⟨hawaited, fun op calls s' ht hwhole hrun hmem => ?_⟩
  obtain ⟨hdown, hempty⟩ := (awaited_step hawaited ht hrun).2 hmem
  have hkept' : s'.sent ++ s'.lb.writebuf.content = s'.text := (kept_step hwf hkept ht hrun).2.2 hwhole
  rw [LinebufBuf.content, hempty, List.take_zero, List.append_nil] at hkept'
  exact ⟨hdown, hkept'⟩

/-- A line buffer with a `shutdown_cb`. -/
def withShutdown : Linebuf := { create 8 8 with shutdownCb := true }

/-- The line `a` is to be sent, in a line buffer that is shut down or not. -/
def toSend (down : Bool) : Output :=
  ⟨{ withShutdown with
    flags := ⟨false, false, false, down⟩, writebuf := ⟨[97, 13, 10, 0, 0, 0, 0, 0], 3, 8⟩ }, [], [97, 13, 10]⟩

/-- It is sent at the second write event, when the line buffer is shutting down. -/
theorem runs_awaited_sent :
    ∃ tr s s', WriteRuns withShutdown (fun lb op => op.Takes lb ∧ op.Whole lb) tr s ∧ s.lb.Awaited ∧
      s.lb.writebuf.buflen = 3 ∧ (WriteOp.writeData ⟨3, 0, false⟩).run s = some ([.shutdown], s') ∧ s'.sent = s'.text := by
  have h₁ : WriteRuns withShutdown (fun lb op => op.Takes lb ∧ op.Whole lb) _ (toSend false) :=
    Run.one (a := WriteOp.write (some [97]) 1) ⟨trivial, trivial⟩ rfl
  have h₂ : WriteRuns withShutdown (fun lb op => op.Takes lb ∧ op.Whole lb) _ (toSend false) :=
    h₁.snoc (a := .writeData ⟨0, 0, false⟩) (b := []) (by decide) rfl
  have h₃ : WriteRuns withShutdown (fun lb op => op.Takes lb ∧ op.Whole lb) _ (toSend true) :=
    h₂.snoc (a := .shutDown) (b := []) (by decide) rfl
  obtain ⟨hawaited, hcalled⟩ := runs_awaited (LinebufBuf.fresh_alloc 8) h₃
  exact ⟨_, _, _, h₃, hawaited, rfl, rfl,
    (hcalled (.writeData ⟨3, 0, false⟩) _ _ (by decide) (by decide) rfl (List.mem_singleton_self _)).2⟩

/-! ## Shutting down -/

namespace WriteOp

/-- The steps after `mowgli_linebuf_shut_down`: a write event comes only where it is waited for, the VIO does not
ask for another one, and `mowgli_linebuf_shut_down` is not called again. -/
def Closing (lb : Linebuf) : WriteOp → Prop
  | writeData r => lb.selectWrite = true ∧ r.needwrite = false ∧ Takes lb (writeData r) ∧ Whole lb (writeData r)
  | write _ _ => True
  | shutDown => False

instance (lb : Linebuf) : DecidablePred (Closing lb)
  | writeData r =>
    inferInstanceAs (Decidable (lb.selectWrite = true ∧ r.needwrite = false ∧ Takes lb (writeData r) ∧ Whole lb (writeData r)))
  | write _ _ => instDecidableTrue
  | shutDown => instDecidableFalse

end WriteOp

/-- How often `shutdown_cb` is called. -/
def shutdowns (tr : List (WriteOp × List LinebufCall)) : ℕ := (tr.flatMap Prod.snd).count .shutdown

theorem shutdowns_concat (tr : List (WriteOp × List LinebufCall)) (op : WriteOp) (calls : List LinebufCall) :
    shutdowns (tr ++ [(op, calls)]) = shutdowns tr + calls.count .shutdown := by
  rw [shutdowns, List.flatMap_append, List.count_append, List.flatMap_singleton]
  rfl

/-- The state of a line buffer that is shutting down: it has called `shutdown_cb` once everything was sent, and waits
for nothing then. -/
structure Closed (text : List UInt8) (s : Output) (n : ℕ) : Prop where
  down : s.lb.flags.shuttingDown = true
  hasCb : s.lb.shutdownCb = true
  block : s.lb.writebuf.WF
  kept : s.Kept
  text : s.text = text
  count : n = if s.lb.writebuf.buflen = 0 then 1 else 0
  emptied : s.lb.writebuf.buflen = 0 → s.lb.selectWrite = false

theorem Closed.step {text : List UInt8} {n : ℕ} (h : Closed text s n) (hop : op.Closing s.lb)
    (hrun : op.run s = some (calls, s')) : Closed text s' (n + calls.count .shutdown) := by
  cases op with
  | write data len =>
    obtain ⟨⟨calls', lb'⟩, hw, hrun⟩ := Option.bind_eq_some_iff.1 hrun
    obtain ⟨rfl, rfl⟩ := Prod.mk.inj (Option.some.inj hrun)
    have hdown := h.down
    -- nothing is accepted any more
    rcases write_cases hw with ⟨hacc, -⟩ | ⟨hacc, -, rfl, rfl⟩ | ⟨-, hno, -⟩
    · rw [hacc.2.2.1] at hdown
      cases hdown
    · rw [if_neg hacc, List.append_nil]
      exact h
    · rw [hno] at hdown
      cases hdown
  | writeData r =>
    obtain ⟨hselect, hneed, htakes, hwhole⟩ := hop
    obtain ⟨hwf, hiff⟩ := kept_step h.block h.kept htakes hrun
    obtain ⟨hsame, hflags, rfl, hselect'⟩ := run_writeData htakes hrun
    -- the event was waited for, so there was something to send
    have hn : n = 0 := by
      rw [h.count, if_neg fun hempty => ?_]
      rw [h.emptied hempty] at hselect
      cases hselect
    refine ⟨hflags ▸ h.down, hsame.shutdownCb.trans h.hasCb, hwf, hiff.2 hwhole, hsame.text.trans h.text, ?_, fun hempty => ?_⟩
    · rw [hn, h.down, Linebuf.doShutdown, if_pos h.hasCb]
      by_cases hempty : s'.lb.writebuf.buflen = 0
      · rw [if_pos ⟨hempty, rfl⟩, if_pos hempty]
        rfl
      · rw [if_neg fun hend => hempty hend.1, if_neg hempty]
        rfl
    · rw [hselect', if_pos hempty, hneed, Bool.false_and]
  | shutDown => exact hop.elim

theorem closed_run {text : List UInt8} {n : ℕ} (h : Closed text s n) {tr : List (WriteOp × List LinebufCall)}
    (hrun : Run WriteOp.run (fun s op => op.Closing s.lb) s tr s') : Closed text s' (n + shutdowns tr) := by
  induction hrun with
  | nil => exact h
  | snoc _ hop hrun ih =>
    rw [shutdowns_concat, ← Nat.add_assoc]
    exact ih.step hop hrun

/-- **`shutdown_cb` is called once**, when everything is sent that was accepted, if there is something to send when
the line buffer is shut down, or no write event to come. -/
theorem runs_shutdown {tr tr' : List (WriteOp × List LinebufCall)} {s₁ : Output} (hb : lb.writebuf.Fresh)
    (h : WriteRuns lb (fun lb op => op.Takes lb ∧ op.Whole lb) tr s) (hcb : s.lb.shutdownCb = true)
    (hpending : 0 < s.lb.writebuf.buflen ∨ s.lb.selectWrite = false)
    (hdown : WriteOp.shutDown.run s = some (calls, s₁))
    (hrun : Run WriteOp.run (fun s op => op.Closing s.lb) s₁ tr' s') :
    calls.count .shutdown + shutdowns tr' = (if s'.lb.writebuf.buflen = 0 then 1 else 0) ∧
      s'.sent ++ s'.lb.writebuf.content = s.text := by
  obtain ⟨-, hwf, hkept⟩ := runs_kept hb h
  obtain ⟨hwf', hiff⟩ := kept_step hwf hkept (show WriteOp.Takes s.lb .shutDown from trivial) hdown
  obtain ⟨hsame, hflag, rfl, hselect, hbuf⟩ := run_shutDown hdown
  have hclosed : Closed s.text s₁ (List.count .shutdown (if s₁.lb.writebuf.buflen = 0 then s.lb.doShutdown else [])) := by
    refine ⟨hflag, hsame.shutdownCb.trans hcb, hwf', hiff.2 trivial, hsame.text, ?_, fun hempty => ?_⟩
    · rw [Linebuf.doShutdown, if_pos hcb]
      split_ifs
      · rfl
      · rfl
    · rw [hselect]
      exact hpending.resolve_left fun hpos => absurd hempty (hbuf ▸ hpos.ne')
  have hend := closed_run hclosed hrun
  exact ⟨hend.count, hend.kept.trans hend.text⟩

/-- The line `a` is sent at the second write event, and then `shutdown_cb` is called; what is written before that is refused. -/
theorem runs_shutdown_sent : ∃ tr' s', Run WriteOp.run (fun s op => op.Closing s.lb) (toSend true) tr' s' ∧
    0 + shutdowns tr' = 1 ∧ s'.sent ++ s'.lb.writebuf.content = [97, 13, 10] := by
  have h : WriteRuns withShutdown (fun lb op => op.Takes lb ∧ op.Whole lb) _ (toSend false) :=
    Run.one (a := WriteOp.write (some [97]) 1) ⟨trivial, trivial⟩ rfl
  have h₁ : Run WriteOp.run (fun s op => op.Closing s.lb) (toSend true) _ _ :=
    Run.one (a := WriteOp.writeData ⟨0, 0, false⟩) (by decide) rfl
  have h₂ := h₁.snoc (a := .write (some [98]) 1) (by exact trivial) rfl
  have h₃ := h₂.snoc (a := .writeData ⟨3, 0, false⟩) (by decide) rfl
  exact ⟨_, _, h₃, runs_shutdown (LinebufBuf.fresh_alloc 8) h rfl (.inl (by decide)) rfl h₃⟩

-- The write event for the line buffer that was just attached is still to come, and both call `shutdown_cb`.
example : ((WriteOp.shutDown.run ⟨withShutdown, [], []⟩).bind fun r =>
    ((WriteOp.writeData ⟨0, 0, false⟩).run r.2).map fun r' => r.1 ++ r'.1) = some [.shutdown, .shutdown] := rfl

end Linebuf

end Mowgli
