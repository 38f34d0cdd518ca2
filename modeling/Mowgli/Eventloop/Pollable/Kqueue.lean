import Mowgli.Eventloop.Pollable.Mirror
import Mowgli.Eventloop.Pollable.Poll
/-!
# The kqueue backend

`kqueue_pollops.c`: the kernel keeps filters by file descriptor, and for each
what is to come with its events. `setselect` adds or deletes the filter of one
direction; `destroy` means to delete both with one change. Filters are small
negative numbers and no flags, so the `|` of the two is one of them.
-/

namespace Mowgli

/-- `EVFILT_READ`. -/
def EVFILT_READ : BitVec 16 := -1

/-- `EVFILT_WRITE`. -/
def EVFILT_WRITE : BitVec 16 := -2

/-- Both at once is the one for reading. -/
theorem evfilt_or : EVFILT_READ ||| EVFILT_WRITE = EVFILT_READ := by decide

/-- The filters of a descriptor, each with its `udata`. -/
abbrev Filters := BitVec 16 → Option Addr

/-- The filters of a kqueue, by file descriptor. -/
abbrev KqueueSet := ℤ → Filters

/-- `EV_ADD` and `EV_DELETE`. -/
inductive KeventFlag
  | add
  | delete

/-- `struct kevent`, of what `EV_SET` puts in it. -/
structure Kevent where
  ident : ℤ
  filter : BitVec 16
  flags : KeventFlag
  udata : Addr

/-- `kevent`, with one change: `none` where the filter that is to be deleted is
not there. -/
def kevent (k : KqueueSet) (e : Kevent) : Option KqueueSet :=
  match e.flags with
  | .add => some (Function.update k e.ident (Function.update (k e.ident) e.filter (some e.udata)))
  | .delete =>
    (k e.ident e.filter).map fun _ => Function.update k e.ident (Function.update (k e.ident) e.filter none)

/-- The direction's filter. -/
def IoDir.filter : IoDir → Option (BitVec 16)
  | .read => some EVFILT_READ
  | .write => some EVFILT_WRITE
  | .error => none

namespace PollLoop

/-- `if (kevent(...) != 0)`, with what follows. -/
def change (el : PollLoop KqueueSet) (e : Kevent) : PollLoop KqueueSet :=
  match kevent el.poller e with
  | some k => { el with poller := k }
  | none => { el with log := el.log ++ [.message "mowgli_kqueue_eventloop_setselect(): kevent failed: %d (%s)"] }

/-- `mowgli_kqueue_eventloop_destroy`. -/
def kqueueDestroy (el : PollLoop KqueueSet) (pollable : Addr) : Option (PollLoop KqueueSet) := do
  let p ← el.pollables.get pollable
  some (el.change ⟨p.fd, EVFILT_READ ||| EVFILT_WRITE, .delete, pollable⟩)

/-- `mowgli_kqueue_eventloop_setselect`. -/
def kqueueSetselect (el : PollLoop KqueueSet) (pollable : Addr) (dir : IoDir) (f : Option Addr) :
    Option (PollLoop KqueueSet) :=
  match dir.filter with
  | none => some { el with log := logDirection dir el.log }
  | some filter => do
    let p ← el.pollables.get pollable
    let change := (p.function dir).isSome ≠ f.isSome
    let el := { el with pollables := el.pollables.set pollable (p.setFunction dir f) }
    if change then some (el.change ⟨p.fd, filter, if f.isSome then .add else .delete, pollable⟩) else some el

/-- `_mowgli_kqueue_pollops`. -/
def kqueuePollops : PollOps KqueueSet := ⟨kqueueSetselect, kqueueDestroy⟩

/-! ## What the kernel should have -/

/-- The filters a pollable is to have. -/
def wanted (a : Addr) (p : Pollable) : Filters := fun filter =>
  if filter = EVFILT_READ then p.readFunction.map fun _ => a
  else if filter = EVFILT_WRITE then p.writeFunction.map fun _ => a
  else none

/-- The kernel has the filters that live pollables are to have, and no others. -/
abbrev Filtered (el : PollLoop KqueueSet) : Prop := el.Mirrored wanted fun _ => none

variable {el el' : PollLoop KqueueSet} {a b : Addr} {p q : Pollable}

theorem wanted_of_none (hr : p.readFunction = none) (hw : p.writeFunction = none) : wanted a p = fun _ => none := by
  funext filter
  unfold wanted
  rw [hr, hw]
  split_ifs <;> rfl

/-! ## The calls -/

theorem wanted_read (f : Option Addr) :
    wanted a (p.setFunction .read f) = Function.update (wanted a p) EVFILT_READ (f.map fun _ => a) := by
  funext filter
  rw [Function.update_apply]
  unfold wanted
  split_ifs <;> rfl

theorem wanted_write (f : Option Addr) :
    wanted a (p.setFunction .write f) = Function.update (wanted a p) EVFILT_WRITE (f.map fun _ => a) := by
  have hne : EVFILT_WRITE ≠ EVFILT_READ := by decide
  funext filter
  rw [Function.update_apply]
  unfold wanted
  split_ifs with h₁ h₂ <;> first
    | rfl
    | exact absurd (h₂.symm.trans h₁) hne

/-- What the kernel has for a direction is told by its function. -/
theorem wanted_filter {dir : IoDir} {filter : BitVec 16} (hdir : dir.filter = some filter) (f : Option Addr) :
    wanted a p filter = (p.function dir).map (fun _ => a) ∧
      wanted a (p.setFunction dir f) = Function.update (wanted a p) filter (f.map fun _ => a) := by
  cases dir with
  | read =>
    obtain rfl := Option.some.inj hdir
    exact ⟨rfl, wanted_read f⟩
  | write =>
    obtain rfl := Option.some.inj hdir
    exact ⟨rfl, wanted_write f⟩
  | error => cases hdir

/-- A filter that is not there is added, and one that is there is deleted. -/
theorem change_eq {fd : ℤ} {filter : BitVec 16} {f : Option Addr} (h : (el.poller fd filter).isSome ≠ f.isSome) :
    el.change ⟨fd, filter, if f.isSome then .add else .delete, a⟩ = { el with
      poller := Function.update el.poller fd (Function.update (el.poller fd) filter (f.map fun _ => a)) } := by
  cases f with
  | some f => rfl
  | none =>
    obtain ⟨udata, hk⟩ := Option.isSome_iff_exists.1 (Bool.eq_true_of_not_eq_false h)
    rw [change, kevent]
    dsimp only [Option.isSome_none, Bool.false_eq_true, if_false]
    rw [if_neg Bool.false_ne_true, hk]
    rfl

/-- **`setselect`** brings the kernel up to date. -/
theorem kqueueSetselect_eq (hp : el.pollables.get a = some p) (hw : el.poller p.fd = wanted a p) (dir : IoDir)
    (f : Option Addr) : kqueueSetselect el a dir f = some { el with
      pollables := el.pollables.set a (p.setFunction dir f)
      poller := Function.update el.poller p.fd (wanted a (p.setFunction dir f))
      log := logDirection dir el.log } := by
  cases hdir : dir.filter with
  | none =>
    obtain rfl : dir = .error := by
      cases dir <;> first | rfl | cases hdir
    rw [kqueueSetselect, hdir, Pollable.setFunction, Store.set_eq_self hp, ← hw, Function.update_eq_self]
  | some filter =>
    obtain ⟨hhas, hset⟩ := wanted_filter (a := a) (p := p) hdir f
    have hlog : logDirection dir el.log = el.log := by
      cases dir <;> first | rfl | cases hdir
    rw [kqueueSetselect, hdir, hset, hlog]
    simp only [hp, Option.bind_eq_bind, Option.bind_some]
    by_cases hne : (p.function dir).isSome ≠ f.isSome
    · have hkernel : (el.poller p.fd filter).isSome ≠ f.isSome := by
        rw [hw, hhas, Option.isSome_map]
        exact hne
      have hchange := @change_eq { el with pollables := el.pollables.set a (p.setFunction dir f) } a p.fd filter f hkernel
      rw [if_pos hne, hchange, hw]
    · have hsame : f.map (fun _ => a) = wanted a p filter := by
        rw [hhas]
        rw [not_not] at hne
        cases hfp : p.function dir <;> cases f <;> simp_all
      rw [if_neg hne, hsame, Function.update_eq_self, ← hw, Function.update_eq_self]

/-- What `destroy` leaves the kernel with. -/
theorem kqueueDestroy_spec (hp : el.pollables.get a = some p) :
    ∃ el', kqueueDestroy el a = some el' ∧ SameLife el el' ∧ el'.pollables = el.pollables ∧
      el'.poller = Function.update el.poller p.fd (Function.update (el.poller p.fd) EVFILT_READ none) := by
  rw [kqueueDestroy, hp]
  refine ⟨_, rfl, ?_⟩
  rw [evfilt_or, change, kevent]
  dsimp only
  cases hk : el.poller p.fd EVFILT_READ with
  | some udata => exact ⟨⟨Store.Same.refl _ _, rfl, rfl, rfl, rfl⟩, rfl, rfl⟩
  | none =>
    refine ⟨⟨Store.Same.refl _ _, rfl, rfl, rfl, rfl⟩, rfl, ?_⟩
    dsimp only [Option.map_none]
    rw [← hk, Function.update_eq_self, Function.update_eq_self]

/-- The filters that are left are none if nothing was written. -/
theorem update_wanted_eq_none_iff :
    (Function.update (wanted a p) EVFILT_READ none = fun _ => none) ↔ p.writeFunction = none := by
  have hne : EVFILT_WRITE ≠ EVFILT_READ := by decide
  constructor
  · intro h
    have hw := congrFun h EVFILT_WRITE
    rw [Function.update_of_ne hne] at hw
    simpa [wanted, hne] using hw
  · intro h
    funext filter
    rw [Function.update_apply]
    unfold wanted
    split_ifs <;> simp_all

theorem Filtered.setselect (h : el.Filtered) (ha : el.Live a) (dir : IoDir) (f : Option Addr) :
    ∃ el', kqueueSetselect el a dir f = some el' ∧ el'.Filtered ∧ SameLife el el' := by
  obtain ⟨p, hp, hr⟩ := ha
  have hfd : (p.setFunction dir f).fd = p.fd := by cases dir <;> rfl
  refine ⟨_, kqueueSetselect_eq hp (h.has a p hp hr) dir f, ?_,
    ⟨Store.Same.set hp (setFunction_removed dir f), rfl, rfl, rfl, rfl⟩⟩
  refine h.change hp hr (fun _ _ => rfl) rfl (fun b hb => Store.get_set_of_ne _ _ hb) (fun q hq _ => ?_) fun hgone => ?_
  · dsimp only at hq
    rw [Store.get_set_self, Option.some_inj] at hq
    exact hq ▸ ⟨hfd, rfl⟩
  · exact absurd ⟨_, Store.get_set_self .., (setFunction_removed dir f).trans hr⟩ hgone

/-- **What is left of a pollable that is destroyed**, and of its filters. -/
theorem pollableDestroy_spec (hk : el.Kept) (hp : el.pollables.get a = some p) (hr : p.removed = false) :
    ∃ el', el.pollableDestroy kqueuePollops a = some el' ∧ el'.Kept ∧ ¬ el'.Live a ∧
      (∀ b ≠ a, el'.pollables.get b = el.pollables.get b) ∧
      el'.poller = Function.update el.poller p.fd (Function.update (el.poller p.fd) EVFILT_READ none) := by
  obtain ⟨el₁, hrun, hs, hstore, hpoll⟩ := kqueueDestroy_spec hp
  have hp₁ : el₁.pollables.get a = some p := hstore ▸ hp
  cases he : el₁.processingEvents with
  | true =>
    refine ⟨_, pollableDestroy_processing kqueuePollops hp hr hrun hp₁ he, (hk.congr hs).remove hp₁ hr, ?_, ?_, hpoll⟩
    · rintro ⟨q, hq, hqr⟩
      dsimp only at hq
      rw [Store.get_set_self, Option.some_inj] at hq
      rw [← hq] at hqr
      cases hqr
    · exact fun b hb => hstore ▸ Store.get_set_of_ne _ _ hb
  | false =>
    refine ⟨_, pollableDestroy_idle kqueuePollops hp hr hrun hp₁ he, (hk.congr hs).free hp₁ hr, ?_, ?_, hpoll⟩
    · rintro ⟨q, hq, -⟩
      dsimp only at hq
      rw [Store.get_free, if_pos rfl] at hq
      cases hq
    · exact fun b hb => hstore ▸ Store.get_free_of_ne _ hb

/-- **Destroying a live pollable leaves no filter of it just when its write
function is not set.** -/
theorem Filtered.destroy_iff (h : el.Filtered) (hk : el.Kept) (hp : el.pollables.get a = some p)
    (hr : p.removed = false) :
    ∃ el', el.pollableDestroy kqueuePollops a = some el' ∧ el'.Kept ∧
      ((el'.poller p.fd = fun _ => none) ↔ p.writeFunction = none) ∧ (p.writeFunction = none → el'.Filtered) := by
  obtain ⟨el', hrun, hk', hgone, hother, hpoll⟩ := pollableDestroy_spec hk hp hr
  rw [h.has a p hp hr] at hpoll
  refine ⟨el', hrun, hk', ?_, fun hw => ?_⟩
  · rw [hpoll, Function.update_self, update_wanted_eq_none_iff]
  · refine h.change hp hr (fun _ _ => rfl) hpoll hother (fun q hq hqr => absurd ⟨q, hq, hqr⟩ hgone) fun _ => ?_
    exact update_wanted_eq_none_iff.2 hw

/-- A new pollable has no filters yet, and its descriptor is its own. -/
theorem Filtered.create (h : el.Filtered) (hk : el.Kept) {fd : ℤ}
    (hfd : ∀ a p, el.pollables.get a = some p → p.removed = false → p.fd ≠ fd) (userdata : Option Addr) :
    (el.pollableCreate fd userdata).2.Filtered :=
  Mirrored.create h hk hfd userdata (wanted_of_none rfl rfl)

theorem wanted_isSome {filter : BitVec 16} : (wanted a p filter).isSome ↔
    filter = EVFILT_READ ∧ p.readFunction.isSome ∨ filter = EVFILT_WRITE ∧ p.writeFunction.isSome := by
  have hne : EVFILT_WRITE ≠ EVFILT_READ := by decide
  unfold wanted
  split_ifs with h₁ h₂
  · simp [h₁, hne.symm]
  · simp [h₂, hne]
  · simp [h₁, h₂]

theorem wanted_eq_some {filter : BitVec 16} {udata : Addr} (h : wanted a p filter = some udata) : udata = a := by
  unfold wanted at h
  split_ifs at h with h₁ h₂
  · obtain ⟨_, -, heq⟩ := Option.map_eq_some_iff.1 h
    exact heq.symm
  · obtain ⟨_, -, heq⟩ := Option.map_eq_some_iff.1 h
    exact heq.symm

/-! ## Runs -/

/-- A step of the event loop. -/
def kqueueStep (el : PollLoop KqueueSet) : PollStep → Option (Option Addr × PollLoop KqueueSet)
  | .call c => el.call kqueuePollops c
  | .processing events => some (none, { el with processingEvents := events })
  | .reap => el.reapPollables.map fun el => (none, el)

/-- Each live pollable has its own descriptor, and the calls are made with live
pollables. -/
def KqueueLive (el : PollLoop KqueueSet) : PollStep → Prop
  | .call (.create fd _) => ∀ a p, el.pollables.get a = some p → p.removed = false → p.fd ≠ fd
  | .call (.setselect a _ _) => el.Live a
  | .call (.destroy a) => el.Live a
  | .processing _ => True
  | .reap => True

/-- And no pollable is destroyed that has a write function. -/
def KqueueOk (el : PollLoop KqueueSet) (c : PollStep) : Prop :=
  KqueueLive el c ∧ ∀ a p, c = .call (.destroy a) → el.pollables.get a = some p → p.writeFunction = none

/-- **A step** that destroys no pollable with a write function has an answer, and
leaves the kernel with what it should have. -/
theorem Filtered.step {c : PollStep} (h : el.Filtered) (hk : el.Kept) (hok : KqueueOk el c) :
    ∃ b el', kqueueStep el c = some (b, el') ∧ el'.Filtered ∧ el'.Kept := by
  match c, hok with
  | .call (.create fd userdata), hok => exact ⟨_, _, rfl, h.create hk hok.1 userdata, hk.create fd userdata⟩
  | .call (.setselect a dir f), hok =>
    obtain ⟨el', hrun, hf, hs⟩ := h.setselect hok.1 dir f
    exact ⟨none, el', congrArg (Option.map _) hrun, hf, hk.congr hs⟩
  | .call (.destroy a), hok =>
    obtain ⟨p, hp, hr⟩ := hok.1
    obtain ⟨el', hrun, hk', -, hf⟩ := h.destroy_iff hk hp hr
    exact ⟨none, el', congrArg (Option.map _) hrun, hf (hok.2 a p rfl hp), hk'⟩
  | .processing events, _ =>
    exact ⟨none, _, rfl, h.congr rfl fun _ _ _ => Iff.rfl,
      hk.fresh, hk.destroyed, hk.nodup, hk.once, hk.freed⟩
  | .reap, _ =>
    obtain ⟨el', hrun, hpoll, hget, hk'⟩ := hk.reap_live
    exact ⟨none, el', congrArg (Option.map _) hrun, h.congr hpoll hget, hk'⟩

/-- **The filters of the kqueue backend.** So long as no pollable is destroyed that
has a write function, the kernel has for each live pollable just the filters
that it has functions for, and no others; no step gets stuck; and destroying
a live pollable leaves no filter of it just when its write function is not
set. -/
theorem runs_filtered {tr : List (PollStep × Option Addr)}
    (h : Run kqueueStep KqueueOk (PollLoop.create fun _ _ => none) tr el) :
    (∀ a p, el.pollables.get a = some p → p.removed = false →
      (∀ filter, (el.poller p.fd filter).isSome ↔
        filter = EVFILT_READ ∧ p.readFunction.isSome ∨ filter = EVFILT_WRITE ∧ p.writeFunction.isSome) ∧
      ∀ filter udata, el.poller p.fd filter = some udata → udata = a) ∧
    (∀ fd, (∀ a p, el.pollables.get a = some p → p.removed = false → p.fd ≠ fd) → el.poller fd = fun _ => none) ∧
    (∀ c, KqueueOk el c → (kqueueStep el c).isSome) ∧
    ∀ a p, el.pollables.get a = some p → p.removed = false →
      ∃ el', el.pollableDestroy kqueuePollops a = some el' ∧
        ((el'.poller p.fd = fun _ => none) ↔ p.writeFunction = none) := by
  obtain ⟨hf, hk⟩ := h.invariant (I := fun el => el.Filtered ∧ el.Kept)
    ⟨mirrored_create, kept_create _⟩ fun {el c b el'} hI hok hrun => by
      obtain ⟨b', el'', hrun', hf', hk'⟩ := hI.1.step hI.2 hok
      rw [hrun, Option.some_inj, Prod.mk.injEq] at hrun'
      exact hrun'.2 ▸ ⟨hf', hk'⟩
  refine ⟨fun a p hp hr => ?_, hf.absent, fun c hok => ?_, fun a p hp hr => ?_⟩
  · rw [hf.has a p hp hr]
    exact ⟨fun filter => wanted_isSome, fun filter udata hw => wanted_eq_some hw⟩
  · obtain ⟨b, el', hrun, -⟩ := hf.step hk hok
    exact Option.isSome_iff_exists.2 ⟨(b, el'), hrun⟩
  · obtain ⟨el', hrun, -, hiff, -⟩ := hf.destroy_iff hk hp hr
    exact ⟨el', hrun, hiff⟩

/-- Two pollables, the first of which has both functions: destroying it leaves a filter, and destroying the second
leaves none. -/
theorem runs_filtered_two : ∃ tr el p, Run kqueueStep KqueueOk (PollLoop.create fun _ _ => none) tr el ∧
    el.pollables.get 0 = some p ∧ (el.poller 5 EVFILT_READ).isSome ∧ (el.poller 5 EVFILT_WRITE).isSome ∧
    (∃ el', el.pollableDestroy kqueuePollops 0 = some el' ∧ el'.poller 5 ≠ fun _ => none) ∧
    ∃ el', el.pollableDestroy kqueuePollops 1 = some el' ∧ el'.poller 6 = fun _ => none := by
  have h₁ : Run kqueueStep KqueueOk (PollLoop.create fun _ _ => none) ([] ++ [(.call (.create 5 none), some 0)]) _ :=
    Run.nil.snoc ⟨fun a p hp => by simp [PollLoop.create] at hp, nofun⟩ rfl
  have h₂ := h₁.snoc (a := .call (.create 6 none)) (b := some 1)
    (by
      refine ⟨fun a p hp _ => ?_, nofun⟩
      have hget : (Store.empty.set 0 _).get a = some p := hp
      rw [Store.get_set] at hget
      split_ifs at hget
      · rw [← Option.some.inj hget]
        decide
      · simp at hget) rfl
  have h₃ := h₂.snoc (a := .call (.setselect 0 .read (some 7))) (b := none)
    (by exact ⟨⟨_, rfl, rfl⟩, nofun⟩) rfl
  have h₄ := h₃.snoc (a := .call (.setselect 0 .write (some 8))) (b := none)
    (by exact ⟨⟨_, rfl, rfl⟩, nofun⟩) rfl
  have h₅ := h₄.snoc (a := .call (.setselect 1 .read (some 9))) (b := none)
    (by exact ⟨⟨_, rfl, rfl⟩, nofun⟩) rfl
  obtain ⟨hfilters, -, -, hdestroy⟩ := runs_filtered h₅
  obtain ⟨el₁, hrun₁, hiff₁⟩ := hdestroy 0 _ rfl rfl
  obtain ⟨el₂, hrun₂, hiff₂⟩ := hdestroy 1 _ rfl rfl
  have hboth := (hfilters 0 _ rfl rfl).1
  exact ⟨_, _, _, h₅, rfl, (hboth EVFILT_READ).2 (.inl ⟨rfl, rfl⟩), (hboth EVFILT_WRITE).2 (.inr ⟨rfl, rfl⟩),
    ⟨el₁, hrun₁, fun hnone => nomatch hiff₁.1 hnone⟩, el₂, hrun₂, hiff₂.2 rfl⟩

/-- **A filter that is left behind.** The pollable is set to write, and destroyed
and freed; its filter is still there. -/
theorem runs_unfiltered : ∃ tr el, Run kqueueStep KqueueLive (PollLoop.create fun _ _ => none) tr el ∧
    el.poller 5 EVFILT_WRITE = some 0 ∧ el.freed = [0] ∧ ¬ el.Live 0 := by
  have h₁ : Run kqueueStep KqueueLive (PollLoop.create fun _ _ => none) ([] ++ [(.call (.create 5 none), some 0)]) _ :=
    Run.nil.snoc (fun a p hp => by simp [PollLoop.create] at hp) rfl
  have h₂ := h₁.snoc (a := .call (.setselect 0 .write (some 7))) (b := none) (by exact ⟨_, rfl, rfl⟩) rfl
  have h₃ := h₂.snoc (a := .call (.destroy 0)) (b := none) (by exact ⟨_, rfl, rfl⟩) rfl
  refine ⟨_, _, h₃, rfl, rfl, ?_⟩
  rintro ⟨p, hp, -⟩
  cases hp

end PollLoop

end Mowgli
