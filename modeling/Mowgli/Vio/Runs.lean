import Mowgli.Eventloop.Pollable.EpollBackend
import Mowgli.Eventloop.Pollable.Ports
import Mowgli.Vio.Descriptors
import Mowgli.Vio.Model
/-!
# Programs that use VIOs

What such a program does to the event loop is what the event loop asks for: the
descriptors of live pollables are those of VIOs, and no two VIOs have the
same. And what becomes of a descriptor is told by the calls alone (`Sockets`):
a VIO that is destroyed after the other side hung up leaves it open.
-/

namespace Mowgli

/-! ## What is left alone in the event loop -/

namespace PollLoop

variable {P : Type}

/-- Live pollables have what they were created with. -/
structure Stays (el el' : PollLoop P) : Prop where
  same : ∀ a p, el.pollables.get a = some p → p.removed = false →
    ∃ p', el'.pollables.get a = some p' ∧ p'.removed = false ∧ p'.fd = p.fd ∧ p'.userdata = p.userdata
  live : ∀ a, el'.Live a → el.Live a

variable {el el' : PollLoop P} {a : Addr} {p : Pollable}

theorem Stays.refl (el : PollLoop P) : Stays el el := ⟨fun _ p hp hr => ⟨p, hp, hr, rfl, rfl⟩, fun _ h => h⟩

/-- What was created with a pollable. -/
def Fixed (el el' : PollLoop P) : Prop := Store.Same (fun p => (p.fd, p.userdata)) el.pollables el'.pollables

theorem Fixed.get (h : Fixed el el') (hs : SameLife el el') (hp : el.pollables.get a = some p) :
    ∃ p', el'.pollables.get a = some p' ∧ p'.removed = p.removed ∧ p'.fd = p.fd ∧ p'.userdata = p.userdata := by
  have hkey := h a
  have hremoved := hs.removed a
  rw [hp] at hkey hremoved
  obtain ⟨p', hp', heq⟩ := Option.map_eq_some_iff.1 hkey
  rw [hp', Option.map_some, Option.map_some, Option.some_inj] at hremoved
  exact ⟨p', hp', hremoved, Prod.mk.inj heq⟩

theorem Fixed.stays (h : Fixed el el') (hs : SameLife el el') : Stays el el' := by
  refine ⟨fun a p hp hr => ?_, fun a ha => hs.live_iff.1 ha⟩
  obtain ⟨p', hp', hr', hkey⟩ := h.get hs hp
  exact ⟨p', hp', hr'.trans hr, hkey⟩

/-- Other pollables are as the backend left them. -/
theorem pollableDestroy_others {ops : PollOps P} (hp : el.pollables.get a = some p) (hr : p.removed = false)
    (hrun : el.pollableDestroy ops a = some el') :
    ∃ el₁, ops.destroy el a = some el₁ ∧ ∀ c ≠ a, el'.pollables.get c = el₁.pollables.get c := by
  unfold pollableDestroy at hrun
  simp only [hp, hr, Option.bind_eq_bind, Option.bind_some, Bool.false_eq_true, if_false] at hrun
  obtain ⟨el₁, hel₁, hrun⟩ := Option.bind_eq_some_iff.1 hrun
  refine ⟨el₁, hel₁, fun c hc => ?_⟩
  split_ifs at hrun
  · obtain ⟨m, hm, hrun⟩ := Option.bind_eq_some_iff.1 hrun
    obtain ⟨q, hq, rfl⟩ := Option.map_eq_some_iff.1 hm
    obtain rfl := Option.some.inj hrun
    exact Store.get_set_of_ne _ _ hc
  · obtain ⟨q, hq, rfl⟩ := Option.map_eq_some_iff.1 hrun
    exact Store.get_free_of_ne _ hc

end PollLoop

namespace Backend

open PollLoop

variable {P E G : Type} {b : Backend P E} {m : Memory G E} {I : G → PollLoop P → Prop} {D : Pollable → Prop} {poller : P}

/-- A backend leaves alone what a pollable was created with. -/
structure Steady (b : Backend P E) : Prop where
  setselect : ∀ {el el' a dir f}, b.ops.setselect el a dir f = some el' → Fixed el el'
  destroy : ∀ {el el' a}, b.ops.destroy el a = some el' → Fixed el el'

/-- The event loop leaves live pollables as they are. -/
theorem step_get {s s' : PollLoop P × BatchPhase E} {c : BatchStep E} {r : DispatchAnswer} (hk : s.1.Kept)
    (hcall : ∀ k, c ≠ .call k) (hstep : b.step s c = some (r, s')) {a : Addr} {p : Pollable} (hr : p.removed = false) :
    s'.1.pollables.get a = some p ↔ s.1.pollables.get a = some p := by
  obtain ⟨el, phase⟩ := s
  unfold step at hstep
  match c, phase with
  | .call k, _ => exact absurd rfl (hcall k)
  | .runOnce, .idle =>
    obtain ⟨-, rfl⟩ := Prod.mk.inj (Option.some.inj hstep)
    rfl
  | .wait batch, .timers =>
    obtain ⟨-, rfl⟩ := Prod.mk.inj (Option.some.inj hstep)
    rfl
  | .visit, .next (e :: batch) =>
    obtain ⟨_, -, heq⟩ := Option.map_eq_some_iff.1 hstep
    obtain ⟨-, rfl⟩ := Prod.mk.inj heq
    rfl
  | .visit, .between e batch =>
    obtain ⟨_, -, heq⟩ := Option.map_eq_some_iff.1 hstep
    obtain ⟨-, rfl⟩ := Prod.mk.inj heq
    rfl
  | .ret, .reading e batch =>
    obtain ⟨-, rfl⟩ := Prod.mk.inj (Option.some.inj hstep)
    rfl
  | .ret, .writing e batch =>
    obtain ⟨-, rfl⟩ := Prod.mk.inj (Option.some.inj hstep)
    rfl
  | .finish again, .next [] =>
    obtain ⟨el', hreap, heq⟩ := Option.map_eq_some_iff.1 hstep
    obtain ⟨-, rfl⟩ := Prod.mk.inj heq
    have hk' : Kept { el with processingEvents := again } := ⟨hk.fresh, hk.destroyed, hk.nodup, hk.once, hk.freed⟩
    obtain ⟨el'', hreap', -, hsame, -⟩ := hk'.reap_live
    obtain rfl := Option.some.inj (hreap.symm.trans hreap')
    exact hsame a p hr

variable (h : b.Lawful m I fun _ => True) (hs : b.Steady) (h₀ : I m.first (PollLoop.create poller))
variable {tr : List (BatchStep E × DispatchAnswer)} {s : PollLoop P × BatchPhase E} {a : Addr} {p : Pollable}

include h h₀

theorem Lawful.run_create (hr : b.BatchRun (fun _ => True) poller tr s) (hc : s.2.callable) {fd : ℤ}
    (hfd : ∀ a p, s.1.pollables.get a = some p → p.removed = false → p.fd ≠ fd) (userdata : Option Addr) :
    s.1.pollables.get s.1.allocated = none ∧
      ∃ tr', b.BatchRun (fun _ => True) poller tr' ((s.1.pollableCreate fd userdata).2, s.2) := by
  refine ⟨Store.get_eq_none.2 (h.reached h₀ hr).kept.not_live_allocated, ?_⟩
  exact ⟨_, hr.snoc (a := .call (.create fd userdata)) (by exact ⟨hc, hfd⟩) (step_call hc rfl)⟩

include hs

theorem Lawful.run_setselect (hr : b.BatchRun (fun _ => True) poller tr s) (hc : s.2.callable) (ha : s.1.Live a)
    (dir : IoDir) (f : Option Addr) : ∃ el', s.1.pollableSetselect b.ops a dir f = some el' ∧ Stays s.1 el' ∧
      ∃ tr', b.BatchRun (fun _ => True) poller tr' (el', s.2) := by
  obtain ⟨el', hrun, -, hlife⟩ := h.setselect (h.reached h₀ hr).inv ha dir f
  have hcall : s.1.call b.ops (.setselect a dir f) = some (none, el') := congrArg (Option.map fun el => (none, el)) hrun
  exact ⟨el', hrun, (hs.setselect hrun).stays hlife, _, hr.snoc (by exact ⟨hc, ha⟩) (step_call hc hcall)⟩

theorem Lawful.run_destroy (hr : b.BatchRun (fun _ => True) poller tr s) (hc : s.2.callable)
    (hp : s.1.pollables.get a = some p) (hrem : p.removed = false) :
    ∃ el', s.1.pollableDestroy b.ops a = some el' ∧ (∀ c, el'.Live c ↔ s.1.Live c ∧ c ≠ a) ∧
      (∀ c q, c ≠ a → s.1.pollables.get c = some q → q.removed = false →
        ∃ q', el'.pollables.get c = some q' ∧ q'.removed = false ∧ q'.fd = q.fd ∧ q'.userdata = q.userdata) ∧
      ∃ tr', b.BatchRun (fun _ => True) poller tr' (el', s.2) := by
  have hreach := h.reached h₀ hr
  obtain ⟨el', hrun, -, -, -, -, hlive, -⟩ := h.destroyed hreach.kept hreach.inv hp hrem trivial
  obtain ⟨el₁, hdestroy, hothers⟩ := pollableDestroy_others hp hrem hrun
  obtain ⟨el₂, q₂, hdestroy', hlife, -⟩ := h.destroy hreach.inv hp hrem trivial
  obtain rfl := Option.some.inj (hdestroy.symm.trans hdestroy')
  refine ⟨el', hrun, hlive, fun c q hca hq hqr => ?_, ?_⟩
  · obtain ⟨q', hq', hr', hkey⟩ := (hs.destroy hdestroy).get hlife hq
    exact ⟨q', (hothers c hca).trans hq', hr'.trans hqr, hkey⟩
  · have hcall : s.1.call b.ops (.destroy a) = some (none, el') := congrArg (Option.map fun el => (none, el)) hrun
    exact ⟨_, hr.snoc (by exact ⟨hc, p, hp, fun _ => trivial⟩) (step_call hc hcall)⟩

omit hs in
/-- The steps of the event loop itself. -/
theorem Lawful.run_loop (hr : b.BatchRun (fun _ => True) poller tr s) {c : BatchStep E} (hcall : ∀ k, c ≠ .call k)
    (hok : b.Ok (fun _ => True) s c) : ∃ r s', b.step s c = some (r, s') ∧ Stays s.1 s'.1 ∧
      (∀ a dir f userdata, r = .called a dir f userdata → s.1.Live a) ∧
      ∃ tr', b.BatchRun (fun _ => True) poller tr' s' := by
  have hreach := h.reached h₀ hr
  obtain ⟨r, s', hstep, hst⟩ := h.step hreach.kept hreach.inv hreach.phase hok
  have hget : ∀ a p, p.removed = false → (s'.1.pollables.get a = some p ↔ s.1.pollables.get a = some p) :=
    fun _ _ hr => step_get hreach.kept hcall hstep hr
  refine ⟨r, s', hstep, ⟨fun a p hp hr => ⟨p, (hget a p hr).2 hp, hr, rfl, rfl⟩, ?_⟩, hst.called, _, hr.snoc hok hstep⟩
  rintro a ⟨p, hp, hr⟩
  exact ⟨p, (hget a p hr).1 hp, hr⟩

end Backend

/-! ## What a call leaves alone in a VIO -/

namespace Vio

variable {x y : Vio} {f g : BitVec 32}

/-- A flag is left alone by the others. -/
theorem hasflag_setflag_of_ne (h : f &&& g = 0) (setting : Bool) : (x.setflag f setting).hasflag g = x.hasflag g := by
  have hbits : ∀ i, ¬ (f.getLsbD i ∧ g.getLsbD i) := fun i hi => by
    have hbit := congrArg (·.getLsbD i) h
    simp [hi] at hbit
  have hor : (x.flags ||| f) &&& g = x.flags &&& g := by
    refine BitVec.eq_of_getLsbD_eq fun i hi => ?_
    have := hbits i
    simp only [BitVec.getLsbD_and, BitVec.getLsbD_or]
    grind
  have hand : (x.flags &&& ~~~f) &&& g = x.flags &&& g := by
    refine BitVec.eq_of_getLsbD_eq fun i hi => ?_
    have := hbits i
    simp only [BitVec.getLsbD_and, BitVec.getLsbD_not, hi]
    grind
  unfold setflag hasflag
  split_ifs
  · rw [hor]
  · rw [hand]

/-- And it is what it was set to. -/
theorem isClosed_setflag (setting : Bool) : (x.setflag VIO_FLAGS_ISCLOSED setting).isClosed = setting := by
  unfold isClosed setflag hasflag
  cases setting with
  | true =>
    have hne : (x.flags ||| VIO_FLAGS_ISCLOSED) &&& VIO_FLAGS_ISCLOSED = VIO_FLAGS_ISCLOSED := by
      refine BitVec.eq_of_getLsbD_eq fun i hi => ?_
      simp only [BitVec.getLsbD_and, BitVec.getLsbD_or]
      grind
    rw [if_pos rfl, hne]
    rfl
  | false =>
    have heq : (x.flags &&& ~~~VIO_FLAGS_ISCLOSED) &&& VIO_FLAGS_ISCLOSED = 0 := by
      refine BitVec.eq_of_getLsbD_eq fun i hi => ?_
      simp only [BitVec.getLsbD_and, BitVec.getLsbD_not, hi]
      grind
    rw [if_neg Bool.false_ne_true, heq]
    rfl

/-- What no call but those on the event loop changes. -/
structure Same (x y : Vio) : Prop where
  io : y.io = x.io
  eventloop : y.eventloop = x.eventloop
  userdata : y.userdata = x.userdata
  onheap : y.hasflag VIO_FLAGS_ISONHEAP = x.hasflag VIO_FLAGS_ISONHEAP

theorem Same.refl (x : Vio) : Same x x := ⟨rfl, rfl, rfl, rfl⟩

theorem Same.trans {z : Vio} (h : Same x y) (h' : Same y z) : Same x z :=
  ⟨h'.io.trans h.io, h'.eventloop.trans h.eventloop, h'.userdata.trans h.userdata, h'.onheap.trans h.onheap⟩

theorem same_setflag (h : f &&& VIO_FLAGS_ISONHEAP = 0) (setting : Bool) : Same x (x.setflag f setting) := by
  refine ⟨?_, ?_, ?_, hasflag_setflag_of_ne h setting⟩
  · unfold setflag
    split_ifs <;> rfl
  · unfold setflag
    split_ifs <;> rfl
  · unfold setflag
    split_ifs <;> rfl

theorem Same.setflag (h : Same x y) (hf : f &&& VIO_FLAGS_ISONHEAP = 0) (setting : Bool) :
    Same x (y.setflag f setting) := h.trans (same_setflag hf setting)

theorem Same.setOp (h : Same x y) (op : VioErrorOp) : Same x (y.setOp op) := h.trans ⟨rfl, rfl, rfl, rfl⟩

theorem isClosed_setflag_of_ne (hf : f &&& VIO_FLAGS_ISCLOSED = 0) (setting : Bool) :
    (x.setflag f setting).isClosed = x.isClosed := hasflag_setflag_of_ne hf setting

theorem isClosed_setOp (op : VioErrorOp) : (x.setOp op).isClosed = x.isClosed := rfl

/-- `MOWGLI_VIO_SET_CLOSED`. -/
theorem same_setClosed (x : Vio) : Same x x.setClosed := by
  refine Same.setflag (Same.setflag (Same.setflag (Same.setflag (same_setflag ?_ _) ?_ _) ?_ _) ?_ _) ?_ _
  all_goals decide

theorem isClosed_setClosed (x : Vio) : x.setClosed.isClosed = true := by
  refine (isClosed_setflag_of_ne (by decide) false).trans ?_
  refine (isClosed_setflag_of_ne (by decide) false).trans ?_
  refine (isClosed_setflag_of_ne (by decide) false).trans ?_
  exact isClosed_setflag true

/-- What a call leaves: the VIO as it was, and whether it counts as closed. -/
structure Leaves (x : Vio) (r : VioReturn) (closed : Bool) : Prop where
  same : Same x r.vio
  isClosed : r.vio.isClosed = closed

variable {strerror : ℕ → CString} {closed : Bool}

theorem leaves_returns (h : Same x y) (hc : y.isClosed = closed) (ret : ℤ) : Leaves x (y.returns ret) closed := ⟨h, hc⟩

theorem leaves_errErrcode (h : Same x y) (hc : y.isClosed = closed) (errcode : ℕ) :
    Leaves x (y.errErrcode strerror errcode) closed := ⟨h.trans ⟨rfl, rfl, rfl, rfl⟩, hc⟩

theorem leaves_ignored (strerror : ℕ → CString) (h : Same x y) (hc : y.isClosed = closed) (errno : ℕ) :
    Leaves x (if !eventloopIgnoreErrno errno then y.errErrcode strerror errno else y.returns 0) closed := by
  split_ifs
  · exact leaves_errErrcode h hc errno
  · exact leaves_returns h hc 0

variable (x)

theorem leaves_bind (addr : VioSockaddr) (res : Except ℕ Unit) :
    Leaves x (x.defaultBind strerror addr res) x.isClosed := by
  cases res with
  | error errno => exact leaves_errErrcode ((Same.refl x).setOp _) rfl errno
  | ok _ => exact ⟨⟨rfl, rfl, rfl, rfl⟩, rfl⟩

theorem leaves_reuseaddr (res : Except ℕ Unit) : Leaves x (x.defaultReuseaddr strerror res) x.isClosed := by
  cases res with
  | error errno => exact leaves_errErrcode ((Same.refl x).setOp _) rfl errno
  | ok _ => exact ⟨⟨rfl, rfl, rfl, rfl⟩, rfl⟩

theorem leaves_accept (newvio : Bool) (res : Except ℕ (ℤ × VioSockaddr)) :
    Leaves x (x.defaultAccept strerror newvio res) x.isClosed := by
  cases newvio with
  | false => exact ⟨⟨rfl, rfl, rfl, rfl⟩, rfl⟩
  | true =>
    cases res with
    | error errno => exact leaves_ignored strerror ((Same.refl x).setOp _) rfl errno
    | ok _ => exact ⟨⟨rfl, rfl, rfl, rfl⟩, rfl⟩

theorem leaves_seek : Leaves x (x.defaultSeek strerror) x.isClosed :=
  leaves_errErrcode ((Same.refl x).setOp _) rfl ENOSYS

theorem leaves_tell : Leaves x (x.defaultTell strerror) x.isClosed :=
  leaves_errErrcode ((Same.refl x).setOp _) rfl ENOSYS

/-- Listening and connecting clear the flag. -/
theorem leaves_listen (res : Except ℕ Unit) :
    Leaves x (x.defaultListen strerror res) (match res with | .ok _ => false | .error _ => x.isClosed) := by
  cases res with
  | error errno => exact leaves_errErrcode ((Same.refl x).setOp _) rfl errno
  | ok _ =>
    refine leaves_returns (Same.setOp ?_ _) ((isClosed_setOp _).trans (isClosed_setflag false)) 0
    exact ((((Same.refl x).setOp _).setflag (by decide) _).setflag (by decide) _).setflag (by decide) _

theorem leaves_connect (addr : VioSockaddr) (res : Except ℕ Unit) :
    Leaves x (x.defaultConnect strerror addr res) (match res with | .ok _ => false | .error _ => x.isClosed) := by
  cases res with
  | error errno => exact leaves_ignored strerror ((Same.refl x).setOp _) rfl errno
  | ok _ =>
    have hsame : Same x { x.setOp .connect with addr := addr } := ⟨rfl, rfl, rfl, rfl⟩
    refine leaves_returns (Same.setOp ?_ _) ((isClosed_setOp _).trans (isClosed_setflag false)) 0
    exact (((hsame.setflag (by decide) _).setflag (by decide) _).setflag (by decide) _).setflag (by decide) _

/-- So does nothing else; and when the other side hangs up, it is set. -/
theorem leaves_receive (res : Except ℕ (List UInt8)) :
    Leaves x (receive strerror x res) (match res with | .ok [] => true | _ => x.isClosed) := by
  have hsame : Same x ((x.setOp .read).setflag VIO_FLAGS_ISCONNECTING false) :=
    ((Same.refl x).setOp _).setflag (by decide) _
  have hclosed : ((x.setOp .read).setflag VIO_FLAGS_ISCONNECTING false).isClosed = x.isClosed :=
    isClosed_setflag_of_ne (by decide) false
  match res with
  | .error errno =>
    exact leaves_ignored strerror (hsame.setflag (by decide) _) ((isClosed_setflag_of_ne (by decide) false).trans hclosed) errno
  | .ok [] =>
    have hhang : Same x { ((x.setOp .read).setflag VIO_FLAGS_ISCONNECTING false).setflag VIO_FLAGS_NEEDREAD false with
        error := { (((x.setOp .read).setflag VIO_FLAGS_ISCONNECTING false).setflag VIO_FLAGS_NEEDREAD false).error with
          type := .remoteHangup, string := .ofBuffer (text "Remote host closed the socket") } } :=
      (hsame.setflag (by decide) _).trans ⟨rfl, rfl, rfl, rfl⟩
    exact ⟨hhang.trans (same_setClosed _), isClosed_setClosed _⟩
  | .ok (c :: buffer) =>
    exact leaves_returns ((hsame.setflag (f := VIO_FLAGS_NEEDREAD) (by decide) true).setOp _)
      ((isClosed_setOp _).trans ((isClosed_setflag_of_ne (by decide) true).trans hclosed)) _

theorem leaves_transmit (len : ℕ) (res : Except ℕ ℕ) : Leaves x (transmit strerror x len res) x.isClosed := by
  have hsame : Same x ((x.setOp .write).setflag VIO_FLAGS_ISCONNECTING false) :=
    ((Same.refl x).setOp _).setflag (by decide) _
  have hclosed : ((x.setOp .write).setflag VIO_FLAGS_ISCONNECTING false).isClosed = x.isClosed :=
    isClosed_setflag_of_ne (by decide) false
  cases res with
  | error errno =>
    have hleaves := leaves_ignored strerror (hsame.setflag (f := VIO_FLAGS_NEEDWRITE) (by decide) false)
      ((isClosed_setflag_of_ne (by decide) false).trans hclosed) errno
    exact ⟨hleaves.same, hleaves.isClosed⟩
  | ok n =>
    unfold transmit
    dsimp only
    split_ifs
    · have hneed := (isClosed_setflag_of_ne (f := VIO_FLAGS_NEEDWRITE) (by decide) true).trans hclosed
      exact ⟨(hsame.setflag (by decide) _).setOp _, (isClosed_setOp _).trans hneed⟩
    · exact ⟨hsame.setOp _, (isClosed_setOp _).trans hclosed⟩

theorem hasflag_created (userdata : Option Addr) : (created userdata).hasflag VIO_FLAGS_ISONHEAP = true :=
  (rfl : _ = decide (VIO_FLAGS_ISONHEAP &&& VIO_FLAGS_ISONHEAP ≠ 0)).trans (by decide)

theorem isClosed_created (userdata : Option Addr) : (created userdata).isClosed = false :=
  (rfl : _ = decide (VIO_FLAGS_ISONHEAP &&& VIO_FLAGS_ISCLOSED ≠ 0)).trans (by decide)

/-- A VIO that gets a descriptor. -/
structure Gets (x y : Vio) (fd : ℤ) : Prop where
  io : y.io = .fd fd
  eventloop : y.eventloop = x.eventloop
  isClosed : x.isClosed = false → y.isClosed = false
  onheap : y.hasflag VIO_FLAGS_ISONHEAP = x.hasflag VIO_FLAGS_ISONHEAP

theorem gets_socket (strerror : ℕ → CString) (stream : Bool) (fd : ℤ) : Gets x (x.defaultSocket strerror stream (.ok fd)).vio fd := by
  cases stream with
  | false => exact ⟨rfl, rfl, id, rfl⟩
  | true =>
    have hsame : Same { x.setOp .socket with io := .fd fd }
        (({ x.setOp .socket with io := .fd fd } : Vio).setflag VIO_FLAGS_ISCONNECTING false |>.setflag VIO_FLAGS_ISCLOSED false) :=
      (same_setflag (by decide) _).setflag (by decide) _
    exact ⟨hsame.io, hsame.eventloop, fun _ => isClosed_setflag false, hsame.onheap⟩

theorem gets_accepted (fd : ℤ) (addr : VioSockaddr) : Gets x (x.accepted fd addr) fd := by
  have hsame : Same { x with addr := addr, io := .fd fd } (x.accepted fd addr) :=
    (same_setflag (by decide) _).setflag (by decide) _
  refine ⟨hsame.io, hsame.eventloop, fun hc => ?_, hsame.onheap⟩
  exact (isClosed_setflag_of_ne (by decide) false).trans ((isClosed_setflag_of_ne (by decide) true).trans hc)

end Vio

/-! ## The program, step by step -/

/-- A step: a call of the program, or one of the event loop. -/
inductive VioStep (E : Type)
  | call (c : VioCall)
  | loop (c : BatchStep E)

/-- What comes of a step. -/
inductive VioAnswer
  | returned (ret : ℤ)
  | loop (r : DispatchAnswer)

/-- What a call that returned `ret` does to sockets. -/
def VioCall.sockOps (ret : ℤ) : VioCall → List SockOp
  | .create _ => [.made ret.toNat]
  | .socket v _ (.ok fd) => [.given v fd]
  | .accept _ (some v) (.ok (fd, _)) => if ret = 0 then [.given v fd] else []
  | .listen v (.ok _) => if ret = 0 then [.revived v] else []
  | .connect v _ (.ok _) => if ret = 0 then [.revived v] else []
  | .read v (.ok []) => if ret = -1 then [.hungUp v] else []
  | .recvfrom v (.ok []) => if ret = -1 then [.hungUp v] else []
  | .close v => if ret = 0 then [.closed v] else []
  | .destroy v => [.gone v]
  | _ => []

namespace VioLoop

open PollLoop

variable {P E G : Type} (b : Backend P E) (strerror : ℕ → CString)

/-- The steps of a program with VIOs and an event loop. -/
def step (w : VioLoop P E) : VioStep E → Option (VioAnswer × VioLoop P E)
  | .call c =>
    if w.loop.2.callable then (w.call b strerror c).map fun (ret, w) => (.returned ret, w) else none
  | .loop (.call _) => none
  | .loop c => (b.step w.loop c).map fun (r, loop) => (.loop r, { w with loop := loop })

/-- What is known of the sockets. -/
def sockets (w : VioLoop P E) : Sockets where
  vios v := (w.vios.get v).bind fun x => (w.getfd x).map fun fd => ⟨fd, x.isClosed⟩
  fds := w.fds

/-- A VIO that has no descriptor, or one that is open. -/
def Usable (w : VioLoop P E) (v : Addr) : Prop :=
  ∃ s, w.sockets.vios v = some s ∧ (s.fd = -1 ∨ w.fds s.fd = some v)

/-- A VIO that has no descriptor yet. -/
def Unused (w : VioLoop P E) (v : Addr) : Prop :=
  ∃ x, w.vios.get v = some x ∧ x.eventloop = false ∧ x.io = .fd (-1)

/-- What is asked of a call. A VIO gets one descriptor, which is not closed twice, nor while
the VIO is attached, nor used when it is closed; the kernel has only unused descriptors to give. -/
def CallOk (w : VioLoop P E) : VioCall → Prop
  | .create _ => True
  | .socket v _ res => w.Unused v ∧ ∀ fd, res = .ok fd → 0 ≤ fd ∧ w.fds fd = none
  | .accept v newvio res => w.Usable v ∧ (∀ u, newvio = some u → w.Unused u) ∧
    ∀ fd addr, res = .ok (fd, addr) → 0 ≤ fd ∧ w.fds fd = none
  | .bind v _ _ | .listen v _ | .reuseaddr v _ | .connect v _ _ | .read v _ | .recvfrom v _ | .write v _ _
  | .sendto v _ _ => w.Usable v
  | .close v => w.Usable v ∧ ∃ x, w.vios.get v = some x ∧ x.eventloop = false
  | .attach v _ => ∃ x, w.vios.get v = some x ∧ (x.eventloop = false → ∃ fd, x.io = .fd fd ∧ w.fds fd = some v)
  | .seek v | .tell v | .detach v | .destroy v => v ∈ w.vios.live
  | .setselect v _ _ => ∃ x, w.vios.get v = some x ∧ x.eventloop = true

/-- What is asked of a step. -/
def Ok (w : VioLoop P E) : VioStep E → Prop
  | .call c => w.loop.2.callable ∧ w.CallOk c
  | .loop c => (∀ k, c ≠ .call k) ∧ b.Ok (fun _ => True) w.loop c

/-- What a run has done to sockets. -/
def sockOps (tr : List (VioStep E × VioAnswer)) : List SockOp :=
  tr.flatMap fun x => match x with
    | (.call c, .returned ret) => c.sockOps ret
    | _ => []

/-! ## The invariant -/

/-- What holds of the VIOs, after `ops`. -/
structure Held (b : Backend P E) (poller : P) (ops : List SockOp) (w : VioLoop P E) : Prop where
  run : ∃ tr, b.BatchRun (fun _ => True) poller tr w.loop
  books : Sockets.Books ops w.sockets
  fresh : ∀ v, .made v ∈ ops → v < w.allocated
  detached : ∀ v x, w.vios.get v = some x → x.eventloop = false → ∃ fd, x.io = .fd fd
  attached : ∀ v x, w.vios.get v = some x → x.eventloop = true → ∃ a p, x.io = .e a ∧
    w.loop.1.pollables.get a = some p ∧ p.removed = false ∧ p.userdata = x.userdata ∧ p.fd ≠ -1 ∧ w.fds p.fd = some v
  live : ∀ a, w.loop.1.Live a → ∃ v x, w.vios.get v = some x ∧ x.eventloop = true ∧ x.io = .e a
  onheap : ∀ v x, w.vios.get v = some x → x.hasflag VIO_FLAGS_ISONHEAP = true

variable {b} {strerror} {poller : P} {ops : List SockOp} {w w' : VioLoop P E} {v u : Addr} {x x' : Vio} {fd : ℤ}

theorem getfd_detached (hel : x.eventloop = false) (hio : x.io = .fd fd) : w.getfd x = some fd := by
  rw [getfd, hel, hio]

theorem getfd_attached {a : Addr} {p : Pollable} (hel : x.eventloop = true) (hio : x.io = .e a)
    (hp : w.loop.1.pollables.get a = some p) : w.getfd x = some p.fd := by
  rw [getfd, hel, hio]
  exact congrArg (Option.map Pollable.fd) hp

theorem sockets_vios (hx : w.vios.get v = some x) (hfd : w.getfd x = some fd) :
    w.sockets.vios v = some ⟨fd, x.isClosed⟩ := by
  dsimp only [sockets]
  rw [hx, Option.bind_some, hfd, Option.map_some]

/-- A VIO that is there has its number, if only `-1`. -/
theorem Held.getfd (h : Held b poller ops w) (hx : w.vios.get v = some x) : ∃ fd, w.getfd x = some fd := by
  cases hel : x.eventloop with
  | false =>
    obtain ⟨fd, hio⟩ := h.detached v x hx hel
    exact ⟨fd, getfd_detached hel hio⟩
  | true =>
    obtain ⟨a, p, hio, hp, -⟩ := h.attached v x hx hel
    exact ⟨p.fd, getfd_attached hel hio hp⟩

/-- And it has it still when the VIO and its pollable stay. -/
theorem Held.getfd_stays (h : Held b poller ops w) (hx : w.vios.get v = some x) (hfd : w.getfd x = some fd)
    (hsame : Vio.Same x x') (hstays : Stays w.loop.1 w'.loop.1) : w'.getfd x' = some fd := by
  cases hel : x.eventloop with
  | false =>
    obtain ⟨fd', hio⟩ := h.detached v x hx hel
    rw [getfd_detached hel hio] at hfd
    rw [getfd_detached (hsame.eventloop.trans hel) (hsame.io.trans hio), hfd]
  | true =>
    obtain ⟨a, p, hio, hp, hr, -⟩ := h.attached v x hx hel
    obtain ⟨p', hp', -, hpfd, -⟩ := hstays.same a p hp hr
    rw [getfd_attached hel hio hp] at hfd
    rw [getfd_attached (hsame.eventloop.trans hel) (hsame.io.trans hio) hp', hpfd, hfd]

/-- Only the log is different, and the event loop. -/
theorem Held.loop (h : Held b poller ops w) (hvios : w'.vios = w.vios) (hfds : w'.fds = w.fds)
    (halloc : w'.allocated = w.allocated) (hstays : Stays w.loop.1 w'.loop.1)
    (hrun : ∃ tr, b.BatchRun (fun _ => True) poller tr w'.loop) : Held b poller ops w' := by
  have hsockets : w'.sockets = w.sockets := by
    unfold sockets
    rw [hvios, hfds]
    congr 1
    funext u
    cases hu : w.vios.get u with
    | none => rfl
    | some y =>
      obtain ⟨fd, hfd⟩ := h.getfd hu
      rw [Option.bind_some, Option.bind_some, hfd, h.getfd_stays hu hfd (.refl y) hstays]
  refine ⟨hrun, hsockets ▸ h.books, halloc ▸ h.fresh, hvios ▸ h.detached, ?_, ?_, hvios ▸ h.onheap⟩
  · intro u y hu hel
    obtain ⟨a, p, hio, hp, hr, hud, hne, hown⟩ := h.attached u y (hvios ▸ hu) hel
    obtain ⟨p', hp', hr', hfd, hud'⟩ := hstays.same a p hp hr
    exact ⟨a, p', hio, hp', hr', hud'.trans hud, hfd ▸ hne, by rw [hfds, hfd]; exact hown⟩
  · intro a ha
    rw [hvios]
    exact h.live a (hstays.live a ha)

/-- Two VIOs that are there do not have the same pollable. -/
theorem Held.io_ne (h : Held b poller ops w) (hx : w.vios.get v = some x) {y : Vio} (hu : w.vios.get u = some y) (huv : u ≠ v)
    (hel : y.eventloop = true) {a : Addr} (hio : y.io = .e a) : x.io ≠ .e a := by
  intro heq
  obtain ⟨a', p, hio', hp, -, -, -, hown⟩ := h.attached u y hu hel
  obtain rfl := VioIo.e.inj (hio.symm.trans hio')
  cases helx : x.eventloop with
  | false =>
    obtain ⟨fd, hfd⟩ := h.detached v x hx helx
    rw [heq] at hfd
    cases hfd
  | true =>
    obtain ⟨a'', q, hio'', hq, -, -, -, hown'⟩ := h.attached v x hx helx
    obtain rfl := VioIo.e.inj (heq.symm.trans hio'')
    rw [hp, Option.some_inj] at hq
    rw [← hq, hown, Option.some_inj] at hown'
    exact huv hown'

/-- One VIO is different, and what it has to do with the event loop. -/
theorem Held.change (h : Held b poller ops w) (hx : w.vios.get v = some x) (w' : VioLoop P E)
    (hvios : w'.vios = w.vios.set v x') (halloc : w'.allocated = w.allocated)
    (hrun : ∃ tr, b.BatchRun (fun _ => True) poller tr w'.loop) {o : List SockOp}
    (hmade : ∀ u, .made u ∈ ops ++ o → .made u ∈ ops) (hbooks : Sockets.Books (ops ++ o) w'.sockets)
    (hfds : ∀ u fd', u ≠ v → w.fds fd' = some u → w'.fds fd' = some u)
    (hothers : ∀ a p, x.io ≠ .e a → w.loop.1.pollables.get a = some p → p.removed = false →
      ∃ p', w'.loop.1.pollables.get a = some p' ∧ p'.removed = false ∧ p'.fd = p.fd ∧ p'.userdata = p.userdata)
    (hdetached : x'.eventloop = false → ∃ fd, x'.io = .fd fd)
    (hattached : x'.eventloop = true → ∃ a p, x'.io = .e a ∧ w'.loop.1.pollables.get a = some p ∧ p.removed = false ∧
      p.userdata = x'.userdata ∧ p.fd ≠ -1 ∧ w'.fds p.fd = some v)
    (hlive : ∀ a, w'.loop.1.Live a → w.loop.1.Live a ∧ x.io ≠ .e a ∨ x'.eventloop = true ∧ x'.io = .e a)
    (honheap : x'.hasflag VIO_FLAGS_ISONHEAP = x.hasflag VIO_FLAGS_ISONHEAP) : Held b poller (ops ++ o) w' := by
  have hget : ∀ u y, w'.vios.get u = some y → u = v ∧ y = x' ∨ u ≠ v ∧ w.vios.get u = some y := by
    intro u y hu
    rw [hvios, Store.get_set] at hu
    split_ifs at hu with huv
    · exact .inl ⟨huv, (Option.some.inj hu).symm⟩
    · exact .inr ⟨huv, hu⟩
  refine ⟨hrun, hbooks, fun u hu => halloc ▸ h.fresh u (hmade u hu), fun u y hu hel => ?_, fun u y hu hel => ?_,
    fun a ha => ?_, fun u y hu => ?_⟩
  · rcases hget u y hu with ⟨rfl, rfl⟩ | ⟨-, hu⟩
    · exact hdetached hel
    · exact h.detached u y hu hel
  · rcases hget u y hu with ⟨rfl, rfl⟩ | ⟨huv, hu⟩
    · exact hattached hel
    · obtain ⟨a, p, hio, hp, hr, hud, hne, hown⟩ := h.attached u y hu hel
      obtain ⟨p', hp', hr', hpfd, hud'⟩ := hothers a p (h.io_ne hx hu huv hel hio) hp hr
      exact ⟨a, p', hio, hp', hr', hud'.trans hud, hpfd ▸ hne, hfds u p'.fd huv (hpfd ▸ hown)⟩
  · rcases hlive a ha with ⟨ha, hne⟩ | ⟨hel, hio⟩
    · obtain ⟨u, y, hu, hel, hio⟩ := h.live a ha
      refine ⟨u, y, ?_, hel, hio⟩
      rw [hvios, Store.get_set_of_ne]
      · exact hu
      · rintro rfl
        rw [hx, Option.some_inj] at hu
        exact hne (hu ▸ hio)
    · refine ⟨v, x', ?_, hel, hio⟩
      rw [hvios, Store.get_set_self]
  · rcases hget u y hu with ⟨rfl, rfl⟩ | ⟨-, hu⟩
    · exact honheap.trans (h.onheap u x hx)
    · exact h.onheap u y hu

/-- A VIO is different in what does not matter here, but for its flag. -/
theorem Held.setVio (h : Held b poller ops w) (hx : w.vios.get v = some x) (hsame : Vio.Same x x') (w' : VioLoop P E)
    (hvios : w'.vios = w.vios.set v x') (hfds : w'.fds = w.fds) (halloc : w'.allocated = w.allocated)
    (hloop : w'.loop = w.loop) {o : List SockOp} (hmade : ∀ u, .made u ∈ ops ++ o → .made u ∈ ops)
    (hbooks : Sockets.Books (ops ++ o) (w.sockets.mark v x'.isClosed)) : Held b poller (ops ++ o) w' := by
  obtain ⟨fd, hfd⟩ := h.getfd hx
  have hget : ∀ y, w'.getfd y = w.getfd y := fun y => by rw [VioLoop.getfd, hloop, VioLoop.getfd]
  have hsockets : w'.sockets = w.sockets.mark v x'.isClosed := by
    rw [Sockets.mark, sockets_vios hx hfd]
    unfold sockets
    rw [hvios, hfds]
    congr 1
    funext u
    rw [Store.get_set, Function.update_apply]
    split_ifs with huv
    · rw [Option.bind_some, hget, h.getfd_stays hx hfd hsame (.refl w.loop.1)]
      rfl
    · simp only [hget]
  refine h.change hx w' hvios halloc (hloop ▸ h.run) hmade (hsockets ▸ hbooks) (fun u fd' _ hu => hfds ▸ hu)
    (fun a p _ hp hr => ⟨p, hloop ▸ hp, hr, rfl, rfl⟩) ?_ ?_ ?_ hsame.onheap
  · rw [hsame.io, hsame.eventloop]
    exact h.detached v x hx
  · rw [hsame.io, hsame.eventloop, hsame.userdata, hfds, hloop]
    exact h.attached v x hx
  · intro a ha
    rw [hloop] at ha
    obtain ⟨u, y, hu, hel, hio⟩ := h.live a ha
    by_cases huv : u = v
    · subst huv
      rw [hx, Option.some_inj] at hu
      subst hu
      exact .inr ⟨hsame.eventloop.trans hel, hsame.io.trans hio⟩
    · exact .inl ⟨ha, h.io_ne hx hu huv hel hio⟩

/-- The books when nothing is different. -/
theorem Held.books_same (h : Held b poller ops w) (hx : w.vios.get v = some x) (hclosed : x'.isClosed = x.isClosed) :
    Sockets.Books (ops ++ []) (w.sockets.mark v x'.isClosed) := by
  obtain ⟨fd, hfd⟩ := h.getfd hx
  have hs := sockets_vios hx hfd
  have hsame : w.sockets.mark v x'.isClosed = w.sockets := by
    rw [Sockets.mark, hs, Option.map_some, hclosed, ← hs, Function.update_eq_self]
  rw [List.append_nil, hsame]
  exact h.books

/-- A VIO that is not attached gets or loses a descriptor. -/
theorem Held.setDetached (h : Held b poller ops w) (hx : w.vios.get v = some x) (hel : x.eventloop = false)
    (hel' : x'.eventloop = false) (hio' : x'.io = .fd fd) (honheap : x'.hasflag VIO_FLAGS_ISONHEAP = true)
    (w' : VioLoop P E) (hvios : w'.vios = w.vios.set v x') (halloc : w'.allocated = w.allocated)
    (hloop : w'.loop = w.loop) (hothers : ∀ u fd', u ≠ v → w.fds fd' = some u → w'.fds fd' = some u)
    {o : List SockOp} (hmade : ∀ u, .made u ∈ ops ++ o → .made u ∈ ops)
    (hbooks : Sockets.Books (ops ++ o) ⟨Function.update w.sockets.vios v (some ⟨fd, x'.isClosed⟩), w'.fds⟩) :
    Held b poller (ops ++ o) w' := by
  have hget : ∀ y, w'.getfd y = w.getfd y := fun y => by rw [VioLoop.getfd, hloop, VioLoop.getfd]
  have hsockets : w'.sockets = ⟨Function.update w.sockets.vios v (some ⟨fd, x'.isClosed⟩), w'.fds⟩ := by
    unfold sockets
    congr 1
    funext u
    rw [hvios, Store.get_set, Function.update_apply]
    split_ifs with huv
    · rw [Option.bind_some, getfd_detached hel' hio', Option.map_some]
    · simp only [hget]
  refine h.change hx w' hvios halloc (hloop ▸ h.run) hmade (hsockets ▸ hbooks) hothers
    (fun a p _ hp hr => ⟨p, hloop ▸ hp, hr, rfl, rfl⟩) (fun _ => ⟨fd, hio'⟩) ?_ ?_ (honheap.trans (h.onheap v x hx).symm)
  · intro hely
    rw [hel'] at hely
    cases hely
  · intro a ha
    rw [hloop] at ha
    obtain ⟨fd', hio⟩ := h.detached v x hx hel
    refine .inl ⟨ha, fun heq => ?_⟩
    rw [heq] at hio
    cases hio

/-- The kernel gives a descriptor. -/
theorem Held.given (h : Held b poller ops w) (hx : w.vios.get v = some x) (hel : x.eventloop = false)
    (hio : x.io = .fd (-1)) (hfd : 0 ≤ fd) (hfree : w.fds fd = none) (hgets : Vio.Gets x x' fd) (w' : VioLoop P E)
    (hvios : w'.vios = w.vios.set v x') (hfds : w'.fds = Function.update w.fds fd (some v))
    (halloc : w'.allocated = w.allocated) (hloop : w'.loop = w.loop) : Held b poller (ops ++ [.given v fd]) w' := by
  have hs := sockets_vios hx (getfd_detached (w := w) hel hio)
  have hopen : x.isClosed = false := h.books.closed_without hs rfl
  rw [hopen] at hs
  refine h.setDetached hx hel (hgets.eventloop.trans hel) hgets.io (hgets.onheap.trans (h.onheap v x hx)) w' hvios halloc
    hloop ?_ ?_ ?_
  · intro u fd' _ hu
    rw [hfds, Function.update_of_ne]
    · exact hu
    · rintro rfl
      rw [hfree] at hu
      cases hu
  · intro u hu
    exact (Sockets.mem_append_iff.1 hu).resolve_right nofun
  · rw [hgets.isClosed hopen, hfds]
    exact h.books.step (show w.sockets.Ok ops (.given v fd) from ⟨hs, hfd, hfree⟩)

/-- A VIO that is not attached is closed. -/
theorem Held.shut (h : Held b poller ops w) (hx : w.vios.get v = some x) (hel : x.eventloop = false)
    (hio : x.io = .fd fd) (hne : fd ≠ -1) (hown : w.fds fd = some v) :
    Held b poller (ops ++ [.closed v])
      { w with vios := w.vios.set v x.setClosed, fds := Function.update w.fds fd none } := by
  have hs := sockets_vios hx (getfd_detached (w := w) hel hio)
  have hsame := Vio.same_setClosed x
  refine h.setDetached hx hel (hsame.eventloop.trans hel) (hsame.io.trans hio) (hsame.onheap.trans (h.onheap v x hx))
    { w with vios := w.vios.set v x.setClosed, fds := Function.update w.fds fd none } rfl rfl rfl ?_ ?_ ?_
  · intro u fd' huv hu
    dsimp only
    rw [Function.update_of_ne]
    · exact hu
    · rintro rfl
      rw [hown] at hu
      exact huv (Option.some.inj hu).symm
  · intro u hu
    exact (Sockets.mem_append_iff.1 hu).resolve_right nofun
  · have hstep := h.books.step (show w.sockets.Ok ops (.closed v) from ⟨_, hs, hne, hown⟩)
    rw [Sockets.apply, hs] at hstep
    rw [Vio.isClosed_setClosed]
    exact hstep

/-- There is a new VIO. -/
theorem Held.create (h : Held b poller ops w) (userdata : Option Addr) :
    Held b poller (ops ++ [.made w.allocated]) (w.vioCreate userdata).2 := by
  have hfresh : .made w.allocated ∉ ops := fun hm => (h.fresh _ hm).false
  have hnew : w.vios.get w.allocated = none := by
    by_contra hne
    obtain ⟨x, hx⟩ := Option.ne_none_iff_exists'.1 hne
    obtain ⟨fd, hfd⟩ := h.getfd hx
    exact hfresh ((h.books.alive _).1 ⟨_, sockets_vios hx hfd⟩).1
  have hsockets : (w.vioCreate userdata).2.sockets = w.sockets.apply (.made w.allocated) := by
    unfold sockets Sockets.apply
    congr 1
    funext u
    rw [Function.update_apply]
    dsimp only [vioCreate]
    rw [Store.get_set]
    split_ifs with hu
    · rw [Option.bind_some, getfd_detached rfl rfl, Option.map_some, Vio.isClosed_created]
    · rfl
  refine ⟨h.run, hsockets ▸ h.books.step hfresh, fun u hu => ?_, fun u y hu hel => ?_, fun u y hu hel => ?_,
    fun a ha => ?_, fun u y hu => ?_⟩
  · rcases Sockets.mem_append_iff.1 hu with hu | hu
    · exact Nat.lt_succ_of_lt (h.fresh u hu)
    · cases hu
      exact Nat.lt_succ_self _
  · dsimp only [vioCreate] at hu
    rw [Store.get_set] at hu
    split_ifs at hu with huv
    · obtain rfl := Option.some.inj hu
      exact ⟨-1, rfl⟩
    · exact h.detached u y hu hel
  · dsimp only [vioCreate] at hu
    rw [Store.get_set] at hu
    split_ifs at hu with huv
    · obtain rfl := Option.some.inj hu
      cases hel
    · exact h.attached u y hu hel
  · obtain ⟨u, y, hu, hel, hio⟩ := h.live a ha
    refine ⟨u, y, ?_, hel, hio⟩
    dsimp only [vioCreate]
    rw [Store.get_set_of_ne]
    · exact hu
    · rintro rfl
      rw [hnew] at hu
      cases hu
  · dsimp only [vioCreate] at hu
    rw [Store.get_set] at hu
    split_ifs at hu with huv
    · obtain rfl := Option.some.inj hu
      exact Vio.hasflag_created userdata
    · exact h.onheap u y hu

/-- A VIO comes to the event loop or leaves it, with its descriptor. -/
theorem Held.move (h : Held b poller ops w) (hx : w.vios.get v = some x) (hfd : w.getfd x = some fd) (w' : VioLoop P E)
    (hflags : x'.flags = x.flags) (hvios : w'.vios = w.vios.set v x') (hfds : w'.fds = w.fds)
    (halloc : w'.allocated = w.allocated) (hfd' : w'.getfd x' = some fd)
    (hothers : ∀ a p, x.io ≠ .e a → w.loop.1.pollables.get a = some p → p.removed = false →
      ∃ p', w'.loop.1.pollables.get a = some p' ∧ p'.removed = false ∧ p'.fd = p.fd ∧ p'.userdata = p.userdata)
    (hdetached : x'.eventloop = false → ∃ fd, x'.io = .fd fd)
    (hattached : x'.eventloop = true → ∃ a p, x'.io = .e a ∧ w'.loop.1.pollables.get a = some p ∧ p.removed = false ∧
      p.userdata = x'.userdata ∧ p.fd ≠ -1 ∧ w.fds p.fd = some v)
    (hlive : ∀ a, w'.loop.1.Live a → w.loop.1.Live a ∧ x.io ≠ .e a ∨ x'.eventloop = true ∧ x'.io = .e a)
    (hrun : ∃ tr, b.BatchRun (fun _ => True) poller tr w'.loop) : Held b poller ops w' := by
  have hsockets : w'.sockets = w.sockets := by
    unfold sockets
    rw [hfds]
    congr 1
    funext u
    rw [hvios, Store.get_set]
    split_ifs with huv
    · rw [huv, hx, Option.bind_some, Option.bind_some, hfd, hfd', Vio.isClosed, Vio.isClosed, Vio.hasflag, Vio.hasflag, hflags]
    · cases hu : w.vios.get u with
      | none => rfl
      | some y =>
        rw [Option.bind_some, Option.bind_some]
        cases hel : y.eventloop with
        | false =>
          obtain ⟨fd', hio⟩ := h.detached u y hu hel
          rw [getfd_detached hel hio, getfd_detached hel hio]
        | true =>
          obtain ⟨a, p, hio, hp, hr, -⟩ := h.attached u y hu hel
          obtain ⟨p', hp', -, hpfd, -⟩ := hothers a p (h.io_ne hx hu huv hel hio) hp hr
          rw [getfd_attached hel hio hp, getfd_attached hel hio hp', hpfd]
  have honheap : x'.hasflag VIO_FLAGS_ISONHEAP = x.hasflag VIO_FLAGS_ISONHEAP := by
    rw [Vio.hasflag, Vio.hasflag, hflags]
  rw [← List.append_nil ops]
  refine h.change hx w' hvios halloc hrun (fun u hu => (List.append_nil ops) ▸ hu) ?_ (fun u fd' _ hu => hfds ▸ hu) hothers
    hdetached (hfds ▸ hattached) hlive honheap
  rw [List.append_nil, hsockets]
  exact h.books

/-- A VIO that is not attached is gone. -/
theorem Held.drop (h : Held b poller ops w) (hx : w.vios.get v = some x) (hel : x.eventloop = false) (w' : VioLoop P E)
    (hvios : ∀ u, w'.vios.get u = if u = v then none else w.vios.get u) (hfds : w'.fds = w.sockets.fdsWithout v)
    (halloc : w'.allocated = w.allocated) (hloop : w'.loop = w.loop) : Held b poller (ops ++ [.gone v]) w' := by
  obtain ⟨fd, hfd⟩ := h.getfd hx
  have hs := sockets_vios hx hfd
  have hget : ∀ y, w'.getfd y = w.getfd y := fun y => by rw [VioLoop.getfd, hloop, VioLoop.getfd]
  have hsockets : w'.sockets = w.sockets.apply (.gone v) := by
    rw [Sockets.apply, ← hfds]
    unfold sockets
    congr 1
    funext u
    rw [hvios, Function.update_apply]
    split_ifs with huv
    · rfl
    · simp only [hget]
  have hthere : ∀ u y, w'.vios.get u = some y → u ≠ v ∧ w.vios.get u = some y := by
    intro u y hu
    rw [hvios] at hu
    split_ifs at hu with huv
    exact ⟨huv, hu⟩
  refine ⟨hloop ▸ h.run, hsockets ▸ h.books.step (show w.sockets.Ok ops (.gone v) from ⟨_, hs⟩), fun u hu => ?_,
    fun u y hu hely => h.detached u y (hthere u y hu).2 hely, fun u y hu hely => ?_, fun a ha => ?_,
    fun u y hu => h.onheap u y (hthere u y hu).2⟩
  · rcases Sockets.mem_append_iff.1 hu with hu | hu
    · exact halloc ▸ h.fresh u hu
    · cases hu
  · obtain ⟨huv, hu⟩ := hthere u y hu
    obtain ⟨a, p, hio, hp, hr, hud, hne, hown⟩ := h.attached u y hu hely
    refine ⟨a, p, hio, hloop ▸ hp, hr, hud, hne, ?_⟩
    rw [hfds]
    exact (h.books.fdsWithout_of_ne hs huv p.fd).2 hown
  · rw [hloop] at ha
    obtain ⟨u, y, hu, hely, hio⟩ := h.live a ha
    refine ⟨u, y, ?_, hely, hio⟩
    rw [hvios, if_neg]
    · exact hu
    · rintro rfl
      rw [hx, Option.some_inj] at hu
      rw [← hu, hel] at hely
      cases hely

/-! ## The calls -/

section Calls

variable {m : Memory G E} {I : G → PollLoop P → Prop}
variable (hlaw : b.Lawful m I fun _ => True) (hsteady : b.Steady) (h₀ : I m.first (PollLoop.create poller))

include hlaw hsteady h₀

/-- The pollable of a VIO is set to write, or not. -/
theorem exists_setwrite (hrun : ∃ tr, b.BatchRun (fun _ => True) poller tr w.loop) (hc : w.loop.2.callable) {y : Vio}
    (hy : y.eventloop = true → ∃ a, y.io = .e a ∧ w.loop.1.Live a) (o : Option Bool) :
    ∃ el, w.setwrite b y o = some { w with loop := (el, w.loop.2) } ∧ Stays w.loop.1 el ∧
      ∃ tr, b.BatchRun (fun _ => True) poller tr (el, w.loop.2) := by
  obtain ⟨tr, hrun⟩ := hrun
  have hkeep : ∃ el, some w = some { w with loop := (el, w.loop.2) } ∧ Stays w.loop.1 el ∧
      ∃ tr, b.BatchRun (fun _ => True) poller tr (el, w.loop.2) := ⟨w.loop.1, rfl, .refl _, tr, hrun⟩
  cases hel : y.eventloop with
  | false =>
    cases o with
    | none => exact hkeep
    | some o =>
      cases o with
      | true => rw [setwrite, hel]; exact hkeep
      | false => rw [setwrite, hel]; exact hkeep
  | true =>
    obtain ⟨a, hio, ha⟩ := hy hel
    have hset : ∀ f, ∃ el, w.pollableSetselect b a .write f = some { w with loop := (el, w.loop.2) } ∧
        Stays w.loop.1 el ∧ ∃ tr, b.BatchRun (fun _ => True) poller tr (el, w.loop.2) := by
      intro f
      obtain ⟨el, hel', hstays, hrun'⟩ := hlaw.run_setselect hsteady h₀ hrun hc ha .write f
      exact ⟨el, by rw [VioLoop.pollableSetselect, hel', Option.map_some], hstays, hrun'⟩
    cases o with
    | none => exact hkeep
    | some o =>
      cases o with
      | true =>
        rw [setwrite, hel, hio]
        cases y.evops.bind VioEvops.writeCb with
        | none => exact hkeep
        | some f => exact hset (some f)
      | false =>
        rw [setwrite, hel, hio]
        exact hset none

/-- A call that leaves a VIO alone. -/
theorem Held.put (h : Held b poller ops w) (hc : w.loop.2.callable) (hx : w.vios.get v = some x) {r : VioReturn}
    {closed : Bool} (hr : Vio.Leaves x r closed) {o : List SockOp} (hmade : ∀ u, .made u ∈ ops ++ o → .made u ∈ ops)
    (hbooks : Sockets.Books (ops ++ o) (w.sockets.mark v closed)) :
    ∃ w', w.put b v r = some (r.ret, w') ∧ Held b poller (ops ++ o) w' ∧ w'.vios = w.vios.set v r.vio ∧
      w'.fds = w.fds ∧ w'.loop.2 = w.loop.2 := by
  let w₁ : VioLoop P E := { w with vios := w.vios.set v r.vio, log := w.log ++ r.log }
  have h₁ : Held b poller (ops ++ o) w₁ :=
    h.setVio hx hr.same w₁ rfl rfl rfl rfl hmade (hr.isClosed ▸ hbooks)
  obtain ⟨el, hset, hstays, hrun⟩ := exists_setwrite hlaw hsteady h₀ h₁.run hc (y := r.vio) (fun hel => by
    obtain ⟨a, p, hio, hp, hrem, -⟩ := h₁.attached v r.vio (Store.get_set_self ..) hel
    exact ⟨a, hio, p, hp, hrem⟩) r.setwrite
  exact ⟨_, congrArg (Option.map _) hset, h₁.loop rfl rfl rfl hstays hrun, rfl, rfl, rfl⟩

/-- The functions that begin with `mowgli_vio_getfd`. -/
theorem Held.withFd (h : Held b poller ops w) (hc : w.loop.2.callable) (hu : w.Usable v) {f : Vio → VioReturn}
    {closed : Vio → Bool} (hf : ∀ x, Vio.Leaves x (f x) (closed x)) {o : ℤ → List SockOp} (hguard : o (-255) = [])
    (hmade : ∀ ret u, .made u ∈ o ret → .made u ∈ ops)
    (hbooks : ∀ x, w.vios.get v = some x → w.sockets.Owns v →
      Sockets.Books (ops ++ o (f x).ret) (w.sockets.mark v (closed x))) :
    ∃ ret w', w.withFd b v f = some (ret, w') ∧ Held b poller (ops ++ o ret) w' ∧ w'.fds = w.fds ∧
      w'.loop.2 = w.loop.2 ∧
      ∀ u y, w.vios.get u = some y → ∃ y', w'.vios.get u = some y' ∧ Vio.Same y y' := by
  obtain ⟨s, hs, hown⟩ := hu
  obtain ⟨x, hx, hmap⟩ := Option.bind_eq_some_iff.1 hs
  obtain ⟨fd, hfd, rfl⟩ := Option.map_eq_some_iff.1 hmap
  rw [VioLoop.withFd, hx, Option.bind_eq_bind, Option.bind_some, hfd, Option.bind_eq_bind, Option.bind_some]
  by_cases hne : fd = -1
  · rw [if_pos hne]
    refine ⟨-255, _, rfl, ?_, rfl, rfl, fun u y hu => ⟨y, hu, .refl y⟩⟩
    rw [hguard, List.append_nil]
    exact h.loop rfl rfl rfl (.refl _) h.run
  · rw [if_neg hne]
    have howns : w.sockets.Owns v := ⟨_, hs, hne, hown.resolve_left hne⟩
    obtain ⟨w', hput, h', hvios, hfds, hphase⟩ := h.put hlaw hsteady h₀ hc hx (hf x)
      (o := o (f x).ret) (fun u hu => (List.mem_append.1 hu).elim id (hmade _ u)) (hbooks x hx howns)
    refine ⟨_, w', hput, h', hfds, hphase, fun u y hu => ?_⟩
    rw [hvios, Store.get_set]
    split_ifs with huv
    · rw [huv, hx, Option.some_inj] at hu
      exact ⟨_, rfl, hu ▸ (hf x).same⟩
    · exact ⟨y, hu, .refl y⟩

/-- `mowgli_vio_socket`. -/
theorem Held.socket (h : Held b poller ops w) (hc : w.loop.2.callable) (hv : w.Unused v) {res : Except ℕ ℤ}
    (hres : ∀ fd, res = .ok fd → 0 ≤ fd ∧ w.fds fd = none) (stream : Bool) :
    ∃ ret w', w.socket b strerror v stream res = some (ret, w') ∧
      Held b poller (ops ++ (VioCall.socket v stream res).sockOps ret) w' := by
  obtain ⟨x, hx, hel, hio⟩ := hv
  unfold VioLoop.socket
  rw [hx, Option.bind_eq_bind, Option.bind_some]
  cases res with
  | error errno =>
    have hleaves : Vio.Leaves x (x.defaultSocket strerror stream (.error errno)) x.isClosed :=
      Vio.leaves_errErrcode ((Vio.Same.refl x).setOp .socket) rfl errno
    obtain ⟨w', hput, h', -⟩ := h.put hlaw hsteady h₀ hc hx hleaves (o := [])
      (fun u hu => (List.append_nil ops) ▸ hu) (h.books_same hx rfl)
    exact ⟨_, w', hput, h'⟩
  | ok fd =>
    obtain ⟨hpos, hfree⟩ := hres fd rfl
    have hgets := Vio.gets_socket x strerror stream fd
    refine ⟨_, _, rfl, h.given hx hel hio hpos hfree hgets _ rfl rfl rfl rfl⟩

/-- `mowgli_vio_accept`. -/
theorem Held.accept (h : Held b poller ops w) (hc : w.loop.2.callable) (hv : w.Usable v) {newvio : Option Addr}
    (hnew : ∀ u, newvio = some u → w.Unused u) {res : Except ℕ (ℤ × VioSockaddr)}
    (hres : ∀ fd addr, res = .ok (fd, addr) → 0 ≤ fd ∧ w.fds fd = none) :
    ∃ ret w', w.accept b strerror v newvio res = some (ret, w') ∧
      Held b poller (ops ++ (VioCall.accept v newvio res).sockOps ret) w' := by
  obtain ⟨ret, w₁, hrun, h₁, hfds, -, hsame⟩ := h.withFd hlaw hsteady h₀ hc hv
    (f := fun x => x.defaultAccept strerror newvio.isSome res) (fun x => Vio.leaves_accept x newvio.isSome res)
    (o := fun _ => []) rfl nofun (fun x hx _ => h.books_same hx rfl)
  rw [VioLoop.accept, hrun, Option.bind_eq_bind, Option.bind_some]
  match newvio, res with
  | none, .error _ => exact ⟨ret, w₁, rfl, h₁⟩
  | none, .ok _ => exact ⟨ret, w₁, rfl, h₁⟩
  | some u, .error _ => exact ⟨ret, w₁, rfl, h₁⟩
  | some u, .ok (fd, addr) =>
    dsimp only [VioCall.sockOps]
    by_cases hret : ret = 0
    · obtain ⟨y, hy, hel, hio⟩ := hnew u rfl
      obtain ⟨y', hy', hyy'⟩ := hsame u y hy
      obtain ⟨hpos, hfree⟩ := hres fd addr rfl
      rw [if_pos hret, hy', Option.bind_eq_bind, Option.bind_some]
      refine ⟨_, _, rfl, ?_⟩
      rw [List.append_nil] at h₁
      rw [if_pos hret]
      exact h₁.given hy' (hyy'.eventloop.trans hel) (hyy'.io.trans hio) hpos (hfds ▸ hfree)
        (Vio.gets_accepted y' fd addr) _ rfl rfl rfl rfl
    · rw [if_neg hret]
      refine ⟨ret, w₁, rfl, ?_⟩
      rw [if_neg hret]
      exact h₁

omit hlaw hsteady h₀ in
/-- `mowgli_vio_close`. -/
theorem Held.close (h : Held b poller ops w) (hv : w.Usable v) (hx : w.vios.get v = some x) (hel : x.eventloop = false) :
    ∃ ret w', w.close v = some (ret, w') ∧ Held b poller (ops ++ (VioCall.close v).sockOps ret) w' := by
  obtain ⟨fd, hio⟩ := h.detached v x hx hel
  have hfd := getfd_detached (w := w) hel hio
  obtain ⟨s, hs, hown⟩ := hv
  rw [sockets_vios hx hfd, Option.some_inj] at hs
  subst hs
  rw [VioLoop.close, hx, Option.bind_eq_bind, Option.bind_some, hfd, Option.bind_eq_bind, Option.bind_some]
  by_cases hne : fd = -1
  · rw [if_pos hne]
    refine ⟨-255, _, rfl, ?_⟩
    have hnil : (VioCall.close v).sockOps (-255) = [] := rfl
    rw [hnil, List.append_nil]
    exact h.loop rfl rfl rfl (.refl _) h.run
  · rw [if_neg hne]
    exact ⟨0, _, rfl, h.shut hx hel hio hne (hown.resolve_left hne)⟩

omit hsteady in
/-- `mowgli_vio_eventloop_attach`. -/
theorem Held.attach (h : Held b poller ops w) (hc : w.loop.2.callable) (hx : w.vios.get v = some x)
    (hv : x.eventloop = false → ∃ fd, x.io = .fd fd ∧ w.fds fd = some v) (evops : Option VioEvops) :
    ∃ ret w', w.eventloopAttach v evops = some (ret, w') ∧ Held b poller ops w' := by
  rw [VioLoop.eventloopAttach, hx, Option.bind_eq_bind, Option.bind_some]
  cases hel : x.eventloop with
  | true => exact ⟨0, _, rfl, h.loop rfl rfl rfl (.refl _) h.run⟩
  | false =>
    obtain ⟨fd, hio, hown⟩ := hv hel
    rw [if_neg Bool.false_ne_true, hio]
    have hgetfd := getfd_detached (w := w) hel hio
    have hne : fd ≠ -1 := by
      have hgiven := h.books.owner fd v hown
      exact ((h.books.fd v _ (sockets_vios hx hgetfd) fd).1 hgiven).2
    have hother : ∀ a p, w.loop.1.pollables.get a = some p → p.removed = false → p.fd ≠ fd := by
      rintro a p hp hr rfl
      obtain ⟨u, y, hu, hely, hioy⟩ := h.live a ⟨p, hp, hr⟩
      obtain ⟨a', q, hioy', hq, -, -, -, hown'⟩ := h.attached u y hu hely
      obtain rfl := VioIo.e.inj (hioy.symm.trans hioy')
      rw [hp, Option.some_inj] at hq
      rw [← hq, hown, Option.some_inj] at hown'
      rw [← hown', hx, Option.some_inj] at hu
      rw [← hu, hel] at hely
      cases hely
    obtain ⟨tr, hrun⟩ := h.run
    obtain ⟨hfresh, hrun'⟩ := hlaw.run_create h₀ hrun hc hother x.userdata
    refine ⟨0, _, rfl, h.move hx hgetfd _ ?_ rfl rfl rfl ?_ ?_ nofun ?_ ?_ hrun'⟩
    · rfl
    · refine getfd_attached rfl rfl (p := ⟨fd, 0, none, none, x.userdata, ⟨none, none, none⟩, false⟩) ?_
      exact Store.get_set_self ..
    · intro a p _ hp hr
      refine ⟨p, ?_, hr, rfl, rfl⟩
      refine (Store.get_set_of_ne _ _ ?_).trans hp
      rintro rfl
      rw [hfresh] at hp
      cases hp
    · intro _
      exact ⟨_, _, rfl, Store.get_set_self .., rfl, rfl, hne, hown⟩
    · rintro a ⟨p, hp, hr⟩
      rcases get_pollableCreate hp with ⟨rfl, -⟩ | hp
      · exact .inr ⟨rfl, rfl⟩
      · refine .inl ⟨⟨p, hp, hr⟩, ?_⟩
        rw [hio]
        nofun

/-- `mowgli_vio_eventloop_detach`, of a VIO that is attached. -/
theorem Held.detach (h : Held b poller ops w) (hc : w.loop.2.callable) (hx : w.vios.get v = some x)
    (hel : x.eventloop = true) : ∃ fd w', w.eventloopDetach b v = some (0, w') ∧ Held b poller ops w' ∧
      w'.vios.get v = some { x with eventloop := false, io := .fd fd } := by
  obtain ⟨a, p, hio, hp, hr, hud, hne, hown⟩ := h.attached v x hx hel
  have hfd := getfd_attached hel hio hp
  obtain ⟨tr, hrun⟩ := h.run
  obtain ⟨el, hdestroy, hlive, hothers, hrun'⟩ := hlaw.run_destroy hsteady h₀ hrun hc hp hr
  rw [VioLoop.eventloopDetach, hx, Option.bind_eq_bind, Option.bind_some, hfd, Option.bind_eq_bind, Option.bind_some,
    if_neg hne, hel, hio]
  dsimp only
  rw [hdestroy, Option.bind_eq_bind, Option.bind_some]
  refine ⟨p.fd, _, rfl, h.move hx hfd _ ?_ rfl rfl rfl ?_ ?_ ?_ nofun ?_ hrun', Store.get_set_self ..⟩
  · rfl
  · exact getfd_detached rfl rfl
  · intro c q hca hq hqr
    exact hothers c q (fun heq => hca (heq ▸ hio)) hq hqr
  · exact fun _ => ⟨p.fd, rfl⟩
  · intro c hcl
    obtain ⟨hcl, hca⟩ := (hlive c).1 hcl
    refine .inl ⟨hcl, fun heq => hca ?_⟩
    exact (VioIo.e.inj (hio.symm.trans heq)).symm

omit hlaw hsteady h₀ in
/-- `mowgli_vio_eventloop_detach`, of one that is not, does nothing. -/
theorem Held.detach_detached (h : Held b poller ops w) (hx : w.vios.get v = some x) (hel : x.eventloop = false) :
    ∃ ret w', w.eventloopDetach b v = some (ret, w') ∧ Held b poller ops w' := by
  obtain ⟨fd, hio⟩ := h.detached v x hx hel
  rw [VioLoop.eventloopDetach, hx, Option.bind_eq_bind, Option.bind_some, getfd_detached hel hio, Option.bind_eq_bind,
    Option.bind_some, hel]
  split_ifs
  · exact ⟨_, _, rfl, h.loop rfl rfl rfl (.refl _) h.run⟩
  · exact ⟨_, _, rfl, h.loop rfl rfl rfl (.refl _) h.run⟩

/-- `mowgli_vio_destroy`. -/
theorem Held.destroy (h : Held b poller ops w) (hc : w.loop.2.callable) (hx : w.vios.get v = some x) :
    ∃ ret w', w.vioDestroy b v = some (ret, w') ∧ Held b poller (ops ++ [.gone v]) w' := by
  -- it is not attached any more
  obtain ⟨ret₁, w₁, hrun₁, h₁, x₁, hx₁, hel₁⟩ : ∃ ret₁ w₁,
      (if x.eventloop then w.eventloopDetach b v else some (0, w)) = some (ret₁, w₁) ∧ Held b poller ops w₁ ∧
        ∃ x₁, w₁.vios.get v = some x₁ ∧ x₁.eventloop = false := by
    cases hel : x.eventloop with
    | true =>
      obtain ⟨fd, w₁, hrun, h₁, hx₁⟩ := h.detach hlaw hsteady h₀ hc hx hel
      exact ⟨0, w₁, hrun, h₁, _, hx₁, rfl⟩
    | false => exact ⟨0, w, rfl, h, x, hx, hel⟩
  obtain ⟨fd, hio₁⟩ := h₁.detached v x₁ hx₁ hel₁
  have hfd₁ := getfd_detached (w := w₁) hel₁ hio₁
  have hs₁ := sockets_vios hx₁ hfd₁
  have honheap := h₁.onheap v x₁ hx₁
  rw [VioLoop.vioDestroy, hx, Option.bind_eq_bind, Option.bind_some, hrun₁, Option.bind_eq_bind, Option.bind_some]
  dsimp only
  rw [hx₁, Option.bind_some]
  cases hclosed : x₁.isClosed with
  | true =>
    rw [hclosed] at hs₁
    simp only [Bool.not_true, Bool.false_eq_true, if_false, Option.bind_some, hx₁, honheap, if_true]
    refine ⟨0, _, rfl, h₁.drop hx₁ hel₁ _ (fun u => Store.get_free ..) ?_ rfl rfl⟩
    rw [Sockets.fdsWithout, hs₁]
    rfl
  | false =>
    rw [hclosed] at hs₁
    simp only [Bool.not_false, if_true]
    rw [VioLoop.close, hx₁, Option.bind_eq_bind, Option.bind_some, hfd₁, Option.bind_eq_bind, Option.bind_some]
    by_cases hne : fd = -1
    · rw [if_pos hne]
      simp only [failed, Option.bind_some, hx₁, honheap, if_true]
      refine ⟨0, _, rfl, h₁.drop hx₁ hel₁ _ (fun u => Store.get_free ..) ?_ rfl rfl⟩
      rw [Sockets.fdsWithout, hs₁, hne]
      rfl
    · rw [if_neg hne]
      have honheap' := (Vio.same_setClosed x₁).onheap.trans honheap
      simp only [Option.bind_some, Store.get_set_self, honheap', if_true, Store.free_set]
      refine ⟨0, _, rfl, h₁.drop hx₁ hel₁ _ (fun u => Store.get_free ..) ?_ rfl rfl⟩
      rw [Sockets.fdsWithout, hs₁]
      dsimp only
      rw [Bool.false_or, if_neg fun hd => hne (of_decide_eq_true hd)]
      rfl

/-- A call on the descriptor that does nothing to the socket. -/
theorem Held.plain (h : Held b poller ops w) (hc : w.loop.2.callable) (hv : w.Usable v) {f : Vio → VioReturn}
    (hf : ∀ x, Vio.Leaves x (f x) x.isClosed) : ∃ ret w', w.withFd b v f = some (ret, w') ∧ Held b poller ops w' := by
  obtain ⟨ret, w', hrun, h', -⟩ := h.withFd hlaw hsteady h₀ hc hv hf (o := fun _ => []) rfl nofun
    (fun x hx _ => h.books_same hx rfl)
  rw [List.append_nil] at h'
  exact ⟨ret, w', hrun, h'⟩

/-- A call on the descriptor that sets or clears the flag. -/
theorem Held.flagged (h : Held b poller ops w) (hc : w.loop.2.callable) (hv : w.Usable v) {f : Vio → VioReturn} {c : Bool}
    (hf : ∀ x, Vio.Leaves x (f x) c) {n : ℤ} (hn : n ≠ -255) (hret : ∀ x, (f x).ret = n) {o : SockOp}
    (ho : o = if c then .hungUp v else .revived v) :
    ∃ ret w', w.withFd b v f = some (ret, w') ∧ Held b poller (ops ++ if ret = n then [o] else []) w' := by
  have hmade : ∀ (ret : ℤ) (u : Addr), .made u ∈ (if ret = n then [o] else []) → .made u ∈ ops := by
    intro ret u hu
    split_ifs at hu
    · rw [List.mem_singleton, ho] at hu
      cases c
      · cases hu
      · cases hu
    · exact absurd hu List.not_mem_nil
  have hbooks : ∀ x, w.vios.get v = some x → w.sockets.Owns v →
      Sockets.Books (ops ++ if (f x).ret = n then [o] else []) (w.sockets.mark v c) := by
    intro x _ howns
    rw [if_pos (hret x)]
    exact h.books.step_flag ho howns
  obtain ⟨ret, w', hrun, h', -⟩ := h.withFd hlaw hsteady h₀ hc hv hf (o := fun ret => if ret = n then [o] else [])
    (if_neg hn.symm) hmade hbooks
  exact ⟨ret, w', hrun, h'⟩

/-- **A call is not stuck, and does to sockets what it says.** -/
theorem Held.call (strerror : ℕ → CString) (h : Held b poller ops w) {c : VioCall} (hc : w.loop.2.callable) (hok : w.CallOk c) :
    ∃ ret w', w.call b strerror c = some (ret, w') ∧ Held b poller (ops ++ c.sockOps ret) w' := by
  have hnil : ∀ {r : Option (ℤ × VioLoop P E)}, (∃ ret w', r = some (ret, w') ∧ Held b poller ops w') →
      ∃ ret w', r = some (ret, w') ∧ Held b poller (ops ++ []) w' := by
    rintro r ⟨ret, w', hrun, h'⟩
    exact ⟨ret, w', hrun, (List.append_nil ops).symm ▸ h'⟩
  have hput : ∀ {v x} {r : VioReturn}, w.vios.get v = some x → Vio.Leaves x r x.isClosed →
      ∃ ret w', w.put b v r = some (ret, w') ∧ Held b poller (ops ++ []) w' := by
    intro v x r hx hr
    obtain ⟨w', hput, h', -⟩ := h.put hlaw hsteady h₀ hc hx hr (o := []) (fun u hu => (List.append_nil ops) ▸ hu)
      (h.books_same hx rfl)
    exact ⟨_, w', hput, h'⟩
  match c, hok with
  | .create userdata, _ =>
    exact ⟨w.allocated, _, rfl, h.create userdata⟩
  | .socket v stream res, ⟨hv, hres⟩ => exact h.socket hlaw hsteady h₀ hc hv hres stream
  | .bind v addr res, hv => exact hnil (h.plain hlaw hsteady h₀ hc hv fun x => Vio.leaves_bind x addr res)
  | .listen v (.error e), hv => exact hnil (h.plain hlaw hsteady h₀ hc hv fun x => Vio.leaves_listen x (.error e))
  | .listen v (.ok u), hv =>
    exact h.flagged hlaw hsteady h₀ hc hv (fun x => Vio.leaves_listen x (.ok u)) (by decide) (fun _ => rfl) rfl
  | .accept v newvio res, ⟨hv, hnew, hres⟩ => exact h.accept hlaw hsteady h₀ hc hv hnew hres
  | .reuseaddr v res, hv => exact hnil (h.plain hlaw hsteady h₀ hc hv fun x => Vio.leaves_reuseaddr x res)
  | .connect v addr (.error e), hv =>
    exact hnil (h.plain hlaw hsteady h₀ hc hv fun x => Vio.leaves_connect x addr (.error e))
  | .connect v addr (.ok u), hv =>
    exact h.flagged hlaw hsteady h₀ hc hv (fun x => Vio.leaves_connect x addr (.ok u)) (by decide) (fun _ => rfl) rfl
  | .read v (.error e), hv => exact hnil (h.plain hlaw hsteady h₀ hc hv fun x => Vio.leaves_receive x (.error e))
  | .read v (.ok []), hv =>
    exact h.flagged hlaw hsteady h₀ hc hv (fun x => Vio.leaves_receive x (.ok [])) (by decide) (fun _ => rfl) rfl
  | .read v (.ok (a :: l)), hv => exact hnil (h.plain hlaw hsteady h₀ hc hv fun x => Vio.leaves_receive x (.ok (a :: l)))
  | .recvfrom v (.error e), hv => exact hnil (h.plain hlaw hsteady h₀ hc hv fun x => Vio.leaves_receive x (.error e))
  | .recvfrom v (.ok []), hv =>
    exact h.flagged hlaw hsteady h₀ hc hv (fun x => Vio.leaves_receive x (.ok [])) (by decide) (fun _ => rfl) rfl
  | .recvfrom v (.ok (a :: l)), hv =>
    exact hnil (h.plain hlaw hsteady h₀ hc hv fun x => Vio.leaves_receive x (.ok (a :: l)))
  | .write v len res, hv => exact hnil (h.plain hlaw hsteady h₀ hc hv fun x => Vio.leaves_transmit x len res)
  | .sendto v len res, hv => exact hnil (h.plain hlaw hsteady h₀ hc hv fun x => Vio.leaves_transmit x len res)
  | .close v, ⟨hv, x, hx, hel⟩ => exact h.close hv hx hel
  | .seek v, hv =>
    obtain ⟨x, hx⟩ := Store.mem_live.1 hv
    rw [VioLoop.call, hx, Option.bind_eq_bind, Option.bind_some]
    exact hput hx (Vio.leaves_seek x)
  | .tell v, hv =>
    obtain ⟨x, hx⟩ := Store.mem_live.1 hv
    rw [VioLoop.call, hx, Option.bind_eq_bind, Option.bind_some]
    exact hput hx (Vio.leaves_tell x)
  | .attach v evops, ⟨x, hx, hv⟩ => exact hnil (h.attach hlaw h₀ hc hx hv evops)
  | .detach v, hv =>
    obtain ⟨x, hx⟩ := Store.mem_live.1 hv
    cases hel : x.eventloop with
    | true =>
      obtain ⟨fd, w', hrun, h', -⟩ := h.detach hlaw hsteady h₀ hc hx hel
      exact hnil ⟨0, w', hrun, h'⟩
    | false => exact hnil (h.detach_detached hx hel)
  | .destroy v, hv =>
    obtain ⟨x, hx⟩ := Store.mem_live.1 hv
    exact h.destroy hlaw hsteady h₀ hc hx
  | .setselect v dir f, ⟨x, hx, hel⟩ =>
    obtain ⟨a, p, hio, hp, hr, -⟩ := h.attached v x hx hel
    obtain ⟨tr, hrun⟩ := h.run
    obtain ⟨el, hset, hstays, hrun'⟩ := hlaw.run_setselect hsteady h₀ hrun hc ⟨p, hp, hr⟩ dir f
    refine hnil ⟨0, { w with loop := (el, w.loop.2) }, ?_, h.loop rfl rfl rfl hstays hrun'⟩
    rw [VioLoop.call, VioLoop.setselect, hx, Option.bind_eq_bind, Option.bind_some, hio]
    dsimp only
    rw [VioLoop.pollableSetselect, hset]
    rfl

/-- **A step is not stuck.** A function is called for a pollable of a VIO that is there. -/
theorem Held.step (strerror : ℕ → CString) (h : Held b poller ops w) {c : VioStep E} (hok : w.Ok b c) :
    ∃ r w', w.step b strerror c = some (r, w') ∧ Held b poller (ops ++ sockOps [(c, r)]) w' ∧
      ∀ a dir f userdata, r = .loop (.called a dir f userdata) → w.loop.1.Live a := by
  match c, hok with
  | .call c, ⟨hc, hok⟩ =>
    obtain ⟨ret, w', hrun, h'⟩ := h.call hlaw hsteady h₀ strerror hc hok
    refine ⟨.returned ret, w', ?_, ?_, nofun⟩
    · rw [VioLoop.step, if_pos hc, hrun]
      rfl
    · rw [sockOps, List.flatMap_singleton]
      exact h'
  | .loop c, ⟨hcall, hok⟩ =>
    obtain ⟨tr, hrun⟩ := h.run
    obtain ⟨r, s', hstep, hstays, hcalled, hrun'⟩ := hlaw.run_loop h₀ hrun hcall hok
    refine ⟨.loop r, { w with loop := s' }, ?_, ?_, fun a dir f userdata hr => hcalled a dir f userdata (VioAnswer.loop.inj hr)⟩
    · cases c with
      | call k => exact absurd rfl (hcall k)
      | runOnce => exact congrArg (Option.map _) hstep
      | wait batch => exact congrArg (Option.map _) hstep
      | visit => exact congrArg (Option.map _) hstep
      | ret => exact congrArg (Option.map _) hstep
      | finish again => exact congrArg (Option.map _) hstep
    · rw [sockOps, List.flatMap_singleton, List.append_nil]
      exact h.loop rfl rfl rfl hstays hrun'

end Calls

/-! ## Whole runs -/

/-- The runs of a program with VIOs. -/
abbrev VioRun (b : Backend P E) (strerror : ℕ → CString) (poller : P) :
    List (VioStep E × VioAnswer) → VioLoop P E → Prop :=
  Run (fun w c => w.step b strerror c) (fun w c => w.Ok b c) (create poller)

theorem held_create : Held b poller [] (create (E := E) poller) := by
  have hget : ∀ v, (create (P := P) (E := E) poller).vios.get v = none := Store.get_empty
  refine ⟨⟨[], .nil⟩, ?_, nofun, ?_, ?_, ?_, ?_⟩
  · have hsockets : (create (E := E) poller).sockets = ⟨fun _ => none, fun _ => none⟩ := by
      unfold sockets
      congr 1
    exact hsockets ▸ Sockets.books_nil
  · exact fun v x hx => absurd (hx.symm.trans (hget v)) (Option.some_ne_none x)
  · exact fun v x hx => absurd (hx.symm.trans (hget v)) (Option.some_ne_none x)
  · rintro a ⟨p, hp, -⟩
    exact absurd (hp.symm.trans (Store.get_empty a)) (Option.some_ne_none p)
  · exact fun v x hx => absurd (hx.symm.trans (hget v)) (Option.some_ne_none x)

section Runs

variable {m : Memory G E} {I : G → PollLoop P → Prop} {tr : List (VioStep E × VioAnswer)}
variable (hlaw : b.Lawful m I fun _ => True) (hsteady : b.Steady) (h₀ : I m.first (PollLoop.create poller))

include hlaw hsteady h₀

theorem held_of_run (hrun : VioRun b strerror poller tr w) : Held b poller (sockOps tr) w := by
  induction hrun with
  | nil => exact held_create
  | snoc hrun hok hstep ih =>
    obtain ⟨r, w', hstep', h', -⟩ := ih.step hlaw hsteady h₀ strerror hok
    obtain ⟨rfl, rfl⟩ := Prod.mk.inj (Option.some.inj (hstep.symm.trans hstep'))
    rw [sockOps, List.flatMap_append]
    exact h'

/-- **What a program with VIOs does to the event loop is what the event loop asks for**, in
every state that it comes to; no step that it may take next is stuck, and what is called
is a function of a VIO that is there. -/
theorem runs_vio (hrun : VioRun b strerror poller tr w) :
    (∃ tr', b.BatchRun (fun _ => True) poller tr' w.loop) ∧
    ∀ c, w.Ok b c → ∃ r w', w.step b strerror c = some (r, w') ∧
      ∀ a dir f userdata, r = .loop (.called a dir f userdata) →
        ∃ v x, w.vios.get v = some x ∧ x.eventloop = true ∧ x.io = .e a := by
  have h := held_of_run hlaw hsteady h₀ hrun
  refine ⟨h.run, fun c hok => ?_⟩
  obtain ⟨r, w', hstep, -, hcalled⟩ := h.step hlaw hsteady h₀ strerror hok
  exact ⟨r, w', hstep, fun a dir f userdata hr => h.live a (hcalled a dir f userdata hr)⟩

/-- **When a descriptor is open.** One that a VIO was given is, as long as that is not destroyed, until it is closed;
and when the VIO is destroyed, it stays open if the other side hung up and the VIO was not made to listen or to
connect after that. No other descriptors are open. -/
theorem runs_vio_descriptors (hrun : VioRun b strerror poller tr w) :
    (∀ v fd, w.fds fd = some v → .given v fd ∈ sockOps tr) ∧
    ∀ v fd, .given v fd ∈ sockOps tr →
      (w.fds fd = some v ↔ .closed v ∉ sockOps tr ∧ (.gone v ∈ sockOps tr → Sockets.hung (sockOps tr) v)) := by
  have h := held_of_run hlaw hsteady h₀ hrun
  exact ⟨fun v fd hfd => h.books.owner fd v hfd, h.books.open_iff⟩

end Runs

/-! ## A program on epoll, and one on event ports -/

theorem epollBackend_steady : epollBackend.Steady where
  setselect := by
    intro el el' a dir f hrun
    obtain ⟨p, hp, hrun⟩ := Option.bind_eq_some_iff.1 hrun
    obtain rfl := Option.some.inj hrun
    have hkey : ((selected p dir f).fd, (selected p dir f).userdata) = (p.fd, p.userdata) := by
      rw [selected_fd, selected_userdata]
    rw [Fixed, ctl?_pollables]
    exact Store.Same.set hp hkey
  destroy := by
    intro el el' a hrun
    obtain ⟨p, hp, hrun⟩ := Option.bind_eq_some_iff.1 hrun
    obtain rfl := Option.some.inj hrun
    rw [Fixed, ctl_pollables]
    exact Store.Same.set hp rfl

/-- Event ports do, too. -/
theorem portsBackend_steady : portsBackend.Steady where
  setselect := by
    intro el el' a dir f hrun
    obtain ⟨p, hp, hrun⟩ := Option.bind_eq_some_iff.1 hrun
    have hkey : ((portsSelected p dir f).fd, (portsSelected p dir f).userdata) = (p.fd, p.userdata) := by
      rw [portsSelected_eq, selected_fd, selected_userdata]
    have hpoll : el'.pollables = el.pollables.set a (portsSelected p dir f) := by
      dsimp only at hrun
      split_ifs at hrun
      · exact (Option.some.inj hrun) ▸ rfl
      · cases hk : portDissociate el.poller (portsSelected p dir f).fd with
        | none => exact (Option.some.inj (hk ▸ hrun)) ▸ rfl
        | some k => exact (Option.some.inj (hk ▸ hrun)) ▸ rfl
      · exact (Option.some.inj hrun) ▸ rfl
    rw [Fixed, hpoll]
    exact Store.Same.set hp hkey
  destroy := by
    intro el el' a hrun
    obtain ⟨p, hp, -⟩ := Option.bind_eq_some_iff.1 hrun
    obtain rfl := Option.some.inj ((portsDestroy_eq hp).symm.trans hrun)
    exact Store.Same.set hp rfl

/-- What a VIO was given is open after the VIO is destroyed: the other side hung up before. -/
theorem runs_vio_descriptors_leak : ∃ tr w, VioRun epollBackend (fun _ => .ofBuffer []) (fun _ => none) tr w ∧
    .gone 0 ∈ sockOps tr ∧ .closed 0 ∉ sockOps tr ∧ w.fds 5 = some 0 := by
  have h₁ : VioRun epollBackend (fun _ => .ofBuffer []) (fun _ => none) ([] ++ [(.call (.create none), .returned 0)]) _ :=
    Run.nil.snoc (by exact ⟨rfl, trivial⟩) rfl
  have h₂ := h₁.snoc (a := .call (.socket 0 true (.ok 5))) (b := .returned 0)
    (by
      refine ⟨rfl, ⟨_, rfl, rfl, rfl⟩, fun fd hfd => ?_⟩
      obtain rfl := Except.ok.inj hfd
      exact ⟨by decide, rfl⟩) rfl
  have h₃ := h₂.snoc (a := .call (.attach 0 none)) (b := .returned 0)
    (by exact ⟨rfl, _, rfl, fun _ => ⟨5, rfl, rfl⟩⟩) rfl
  have h₄ := h₃.snoc (a := .call (.read 0 (.ok []))) (b := .returned (-1))
    (by exact ⟨rfl, ⟨5, false⟩, rfl, .inr rfl⟩) rfl
  have h₅ := h₄.snoc (a := .call (.destroy 0)) (b := .returned 0)
    (by exact ⟨rfl, Store.mem_live.2 ⟨_, rfl⟩⟩) rfl
  refine ⟨_, _, h₅, by decide, by decide, ?_⟩
  exact ((runs_vio_descriptors epollBackend_lawful epollBackend_steady tracked_create h₅).2 0 5 (by decide)).2
    ⟨by decide, fun _ => by decide⟩

/-- A function of a VIO is about to be called. -/
theorem runs_vio_one : ∃ tr w, VioRun epollBackend (fun _ => .ofBuffer []) (fun _ => none) tr w ∧
    (∃ tr', epollBackend.BatchRun (fun _ => True) (fun _ => none) tr' w.loop) ∧
    ∃ r w', w.step epollBackend (fun _ => .ofBuffer []) (.loop .visit) = some (r, w') := by
  have h₁ : VioRun epollBackend (fun _ => .ofBuffer []) (fun _ => none) ([] ++ [(.call (.create none), .returned 0)]) _ :=
    Run.nil.snoc (by exact ⟨rfl, trivial⟩) rfl
  have h₂ := h₁.snoc (a := .call (.socket 0 true (.ok 5))) (b := .returned 0)
    (by
      refine ⟨rfl, ⟨_, rfl, rfl, rfl⟩, fun fd hfd => ?_⟩
      obtain rfl := Except.ok.inj hfd
      exact ⟨by decide, rfl⟩) rfl
  have h₃ := h₂.snoc (a := .call (.attach 0 none)) (b := .returned 0)
    (by exact ⟨rfl, _, rfl, fun _ => ⟨5, rfl, rfl⟩⟩) rfl
  have h₄ := h₃.snoc (a := .call (.setselect 0 .read (some 7))) (b := .returned 0)
    (by exact ⟨rfl, _, rfl, rfl⟩) rfl
  have h₅ := h₄.snoc (a := .loop .runOnce) (b := .loop (.returned none)) (by exact ⟨nofun, rfl⟩) rfl
  have h₆ := h₅.snoc (a := .loop (.wait [⟨EPOLLIN, 0⟩])) (b := .loop (.returned none))
    (by
      refine ⟨nofun, rfl, fun e he => ?_⟩
      rw [List.mem_singleton.1 he]
      exact ⟨5, _, rfl, rfl⟩) rfl
  obtain ⟨hbatch, hnext⟩ := runs_vio epollBackend_lawful epollBackend_steady tracked_create h₆
  obtain ⟨r, w', hstep, -⟩ := hnext (.loop .visit) (by exact ⟨nofun, .inl ⟨_, _, rfl⟩⟩)
  exact ⟨_, _, h₆, hbatch, r, w', hstep⟩

end VioLoop

end Mowgli
