import Mowgli.Eventloop.Pollable.Batch
import Mowgli.Eventloop.Pollable.Epoll
/-!
# The backend for event ports

`ports_pollops.c`: a port has one association for a descriptor, which
`setselect` makes anew each time that it is called, and which the port drops
when it hands out an event for it. Nothing in the loop makes it again.
-/

namespace Mowgli

/-- `portev_source`: `PORT_SOURCE_FD` or another. -/
inductive PortSource
  | fd
  | other
  deriving DecidableEq

/-- `port_event_t`. -/
structure PortEvent where
  source : PortSource
  object : ℤ
  events : BitVec 32
  user : Addr

/-- The event is for a descriptor. -/
def PortEvent.forFd (e : PortEvent) (fd : ℤ) : Bool := e.source = .fd && e.object = fd

/-- The event is for a pollable. -/
def PortEvent.isFor (e : PortEvent) (a : Addr) : Bool := e.source = .fd && e.user = a

theorem PortEvent.isFor_iff {e : PortEvent} {a : Addr} : e.isFor a ↔ e.source = .fd ∧ e.user = a := by
  unfold PortEvent.isFor
  rw [Bool.and_eq_true, decide_eq_true_eq, decide_eq_true_eq]

theorem PortEvent.forFd_iff {e : PortEvent} {fd : ℤ} : e.forFd fd ↔ e.source = .fd ∧ e.object = fd := by
  unfold PortEvent.forFd
  rw [Bool.and_eq_true, decide_eq_true_eq, decide_eq_true_eq]

/-- What a port has for a descriptor. -/
structure PortAssoc where
  events : BitVec 32
  user : Addr

/-- The associations of a port, by file descriptor. -/
abbrev PortSet := ℤ → Option PortAssoc

/-- `port_associate`, on an open descriptor. -/
def portAssociate (k : PortSet) (fd : ℤ) (events : BitVec 32) (user : Addr) : PortSet :=
  Function.update k fd (some ⟨events, user⟩)

/-- `port_dissociate`: `none` where there is no association (`ENOENT`). -/
def portDissociate (k : PortSet) (fd : ℤ) : Option PortSet := (k fd).map fun _ => Function.update k fd none

/-- `port_getn` may hand out these events: for associations that it has, and of each one. -/
def portHands (k : PortSet) (batch : List PortEvent) : Prop :=
  (∀ e ∈ batch, e.source = .fd → ∃ i, k e.object = some i ∧ i.user = e.user ∧
    e.events &&& ~~~(i.events ||| POLLHUP.setWidth 32 ||| POLLERR.setWidth 32) = 0) ∧
  ((batch.filter fun e => e.source = .fd).map PortEvent.object).Nodup

/-- The associations that are left when it has. -/
def portTake (k : PortSet) (batch : List PortEvent) : PortSet := fun fd =>
  if batch.any (·.forFd fd) then none else k fd

/-- The flag of a direction. -/
def IoDir.portFlag : IoDir → BitVec 32
  | .read => POLLIN.setWidth 32
  | .write => POLLOUT.setWidth 32
  | .error => 0

namespace PollLoop

/-- The pollable after `mowgli_ports_eventloop_setselect`. -/
def portsSelected (p : Pollable) (dir : IoDir) (f : Option Addr) : Pollable :=
  let p := p.setFunction dir f
  let p := { p with slot := p.slot ||| dir.portFlag }
  clearFlag p.writeFunction IoDir.write.portFlag (clearFlag p.readFunction IoDir.read.portFlag p)

/-- `mowgli_ports_eventloop_destroy`: `ENOENT` is among the errors that are ignored. -/
def portsDestroy (el : PollLoop PortSet) (pollable : Addr) : Option (PollLoop PortSet) := do
  let p ← el.pollables.get pollable
  let el := { el with pollables := el.pollables.set pollable { p with slot := 0 } }
  match portDissociate el.poller p.fd with
  | some k => some { el with poller := k }
  | none => some el

/-- `mowgli_ports_eventloop_setselect`. -/
def portsSetselect (el : PollLoop PortSet) (pollable : Addr) (dir : IoDir) (f : Option Addr) :
    Option (PollLoop PortSet) := do
  let p ← el.pollables.get pollable
  let oldFlags := p.slot
  let p := portsSelected p dir f
  let el := { el with pollables := el.pollables.set pollable p, log := logDirection dir el.log }
  if oldFlags = 0 ∧ p.slot = 0 then some el
  else if p.slot = 0 then
    match portDissociate el.poller p.fd with
    | some k => some { el with poller := k }
    | none => some el
  else some { el with poller := portAssociate el.poller p.fd p.slot pollable }

end PollLoop

/-- `_mowgli_ports_pollops`, and the tests of `mowgli_ports_eventloop_select`. -/
def portsBackend : Backend PortSet PortEvent where
  ops := ⟨PollLoop.portsSetselect, PollLoop.portsDestroy⟩
  ptr := PortEvent.user
  Named e := e.source = .fd
  wants e dir := e.source = .fd && e.events &&& (dir.portFlag ||| POLLHUP.setWidth 32 ||| POLLERR.setWidth 32) ≠ 0
  Hands := portHands
  take := portTake

namespace PollLoop

variable {el el' : PollLoop PortSet} {a b : Addr} {p q : Pollable}

/-- What the port is to have for a pollable that is waited for. -/
def portInterest (a : Addr) (p : Pollable) : Option PortAssoc :=
  if p.hasFunction then some ⟨eventMask p, a⟩ else none

theorem portsSelected_eq (dir : IoDir) (f : Option Addr) : portsSelected p dir f = selected p dir f := by
  cases dir with
  | read => rfl
  | write => rfl
  | error =>
    have hslot : p.slot ||| IoDir.error.portFlag = p.slot := BitVec.or_zero
    unfold portsSelected
    dsimp only [Pollable.setFunction]
    rw [hslot]
    rfl

/-- And only for those that are `armed`. -/
def portWant (armed : Addr → Bool) (a : Addr) (p : Pollable) : Option PortAssoc :=
  if armed a then portInterest a p else none

variable {armed : Addr → Bool}

theorem portWant_eq_some {i : PortAssoc} (h : portWant armed a p = some i) : armed a ∧ i.user = a := by
  unfold portWant portInterest at h
  split_ifs at h with harmed hf
  exact ⟨harmed, congrArg PortAssoc.user (Option.some.inj h).symm⟩

theorem portWant_of_zero (h : eventMask p = 0) : portWant armed a p = none := by
  rw [portWant, portInterest, eventMask_eq_zero.1 h, if_neg Bool.false_ne_true, ite_self]

theorem portWant_of_ne_zero (h : eventMask p ≠ 0) :
    portWant (Function.update armed a true) a p = some ⟨eventMask p, a⟩ := by
  rw [Ne, eventMask_eq_zero, Bool.not_eq_false] at h
  rw [portWant, Function.update_self, if_pos rfl, portInterest, if_pos h]

/-- The port and the slots are right. -/
abbrev Watched (armed : Addr → Bool) (el : PollLoop PortSet) : Prop := el.Tracked (portWant armed) none

/-- What the port has is for a live pollable that is armed. -/
theorem Watched.of_some (h : el.Watched armed) {fd : ℤ} {i : PortAssoc} (hi : el.poller fd = some i) :
    ∃ p, el.pollables.get i.user = some p ∧ p.removed = false ∧ p.fd = fd ∧ armed i.user := by
  obtain ⟨a, p, hp, hr, hfd, heq⟩ := h.mirrored.exists_live (hi ▸ Option.some_ne_none i)
  obtain ⟨harmed, rfl⟩ := portWant_eq_some (heq.symm.trans hi)
  exact ⟨p, hp, hr, hfd, harmed⟩

/-- **`setselect`** makes the association, or drops it. -/
theorem portsSetselect_eq (h : el.Watched armed) (hp : el.pollables.get a = some p) (hr : p.removed = false)
    (dir : IoDir) (f : Option Addr) :
    portsSetselect el a dir f = some { el with
      pollables := el.pollables.set a (selected p dir f)
      poller := Function.update el.poller p.fd (portWant (Function.update armed a true) a (selected p dir f))
      log := logDirection dir el.log } := by
  have hq := selected_slot (h.slot a p hp hr) dir f
  have hdrop : portDissociate el.poller p.fd = none ∧ Function.update el.poller p.fd none = el.poller ∨
      portDissociate el.poller p.fd = some (Function.update el.poller p.fd none) := by
    unfold portDissociate
    cases hk : el.poller p.fd with
    | none => exact Or.inl ⟨rfl, hk ▸ Function.update_eq_self ..⟩
    | some i => exact Or.inr rfl
  rw [portsSetselect]
  simp only [hp, Option.bind_eq_bind, Option.bind_some, portsSelected_eq, selected_fd]
  split_ifs with h₀ h₁
  · -- neither before nor now: there is no association
    have hnone : el.poller p.fd = none := by
      rw [h.mirrored.has a p hp hr]
      exact portWant_of_zero ((h.slot a p hp hr).symm.trans h₀.1)
    rw [portWant_of_zero (hq.symm.trans h₀.2), ← hnone, Function.update_eq_self]
  · rw [portWant_of_zero (hq.symm.trans h₁)]
    rcases hdrop with ⟨hd, hsame⟩ | hd
    · rw [hd, hsame]
    · rw [hd]
  · rw [hq] at h₁
    rw [portWant_of_ne_zero h₁, portAssociate, hq]

theorem Watched.setselect (h : el.Watched armed) (ha : el.Live a) (dir : IoDir) (f : Option Addr) :
    ∃ el', portsSetselect el a dir f = some el' ∧ el'.Watched (Function.update armed a true) ∧ SameLife el el' := by
  obtain ⟨p, hp, hr⟩ := ha
  refine ⟨_, portsSetselect_eq h hp hr dir f, h.select hp hr dir f (fun b hb => ?_) rfl rfl,
    ⟨Store.Same.set hp (selected_removed dir f), rfl, rfl, rfl, rfl⟩⟩
  funext q
  rw [portWant, Function.update_of_ne hb, portWant]

/-- **`destroy`** leaves no association, whether the port had one or not. -/
theorem portsDestroy_eq (hp : el.pollables.get a = some p) : portsDestroy el a = some { el with
      pollables := el.pollables.set a { p with slot := 0 }
      poller := Function.update el.poller p.fd none } := by
  rw [portsDestroy]
  simp only [hp, Option.bind_eq_bind, Option.bind_some, portDissociate]
  cases hk : el.poller p.fd with
  | none =>
    have hsame : Function.update el.poller p.fd none = el.poller := by
      rw [← hk, Function.update_eq_self]
    rw [hsame]
    rfl
  | some i => rfl

/-! ## The events -/

variable {batch : List PortEvent}

/-- The pollables that are still armed after these events. -/
def disarm (armed : Addr → Bool) (batch : List PortEvent) (a : Addr) : Bool := armed a && !batch.any (·.isFor a)

/-- An event for a descriptor is for its pollable. -/
theorem Watched.isFor_iff (h : el.Watched armed) (hb : portHands el.poller batch)
    (hp : el.pollables.get a = some p) (hr : p.removed = false) {e : PortEvent} (he : e ∈ batch) :
    e.isFor a ↔ e.forFd p.fd := by
  rw [PortEvent.isFor_iff, PortEvent.forFd_iff]
  refine and_congr_right fun hs => ?_
  obtain ⟨i, hi, hu, -⟩ := hb.1 e he hs
  obtain ⟨q, hq, hqr, hqfd, -⟩ := h.of_some hi
  rw [hu] at hq
  constructor
  · rintro rfl
    rw [hp, Option.some_inj] at hq
    exact hq ▸ hqfd.symm
  · intro hfd
    exact h.mirrored.own _ _ _ _ hq hp hqr hr (hqfd.trans hfd)

theorem Watched.take (h : el.Watched armed) (hb : portHands el.poller batch) :
    Watched (disarm armed batch) { el with poller := portTake el.poller batch } := by
  refine ⟨⟨h.mirrored.own, fun a p hp hr => ?_, fun fd hfd => ?_⟩, h.slot⟩
  · have hany : batch.any (·.forFd p.fd) = batch.any (·.isFor a) := by
      rw [Bool.eq_iff_iff, List.any_eq_true, List.any_eq_true]
      constructor
      · rintro ⟨e, he, hfor⟩
        exact ⟨e, he, (h.isFor_iff hb hp hr he).2 hfor⟩
      · rintro ⟨e, he, hfor⟩
        exact ⟨e, he, (h.isFor_iff hb hp hr he).1 hfor⟩
    have hhas := h.mirrored.has a p hp hr
    dsimp only [portTake]
    rw [hany, hhas]
    unfold portWant disarm
    cases batch.any (·.isFor a) <;> simp
  · dsimp only [portTake]
    rw [h.mirrored.absent fd hfd, ite_self]

/-- The port's events are for pollables that are live and armed. -/
theorem Watched.live (h : el.Watched armed) (hb : portHands el.poller batch) {e : PortEvent} (he : e ∈ batch)
    (hs : e.source = .fd) : el.Live e.user ∧ armed e.user := by
  obtain ⟨i, hi, hu, -⟩ := hb.1 e he hs
  obtain ⟨p, hp, hr, -, harmed⟩ := h.of_some hi
  rw [hu] at hp harmed
  exact ⟨⟨p, hp, hr⟩, harmed⟩

/-- There is no more than one event for a pollable. -/
theorem Watched.countP_le (h : el.Watched armed) (hb : portHands el.poller batch) (a : Addr) :
    batch.countP (·.isFor a) ≤ 1 := by
  by_cases hlive : el.Live a
  · obtain ⟨p, hp, hr⟩ := hlive
    -- they are all for one descriptor, and no descriptor comes twice
    have hobject : ∀ e ∈ batch.filter (·.isFor a), e.object = p.fd := by
      intro e he
      obtain ⟨hmem, hfor⟩ := List.mem_filter.1 he
      exact (PortEvent.forFd_iff.1 ((h.isFor_iff hb hp hr hmem).1 hfor)).2
    have hsub : (batch.filter (·.isFor a)).Sublist (batch.filter fun e => e.source = .fd) := by
      refine List.monotone_filter_right batch fun e hfor => ?_
      exact decide_eq_true (PortEvent.isFor_iff.1 hfor).1
    have hnodup := (hsub.map PortEvent.object).nodup hb.2
    have hrep : (batch.filter (·.isFor a)).map PortEvent.object =
        List.replicate (batch.filter (·.isFor a)).length p.fd :=
      List.eq_replicate_iff.2 ⟨List.length_map .., List.forall_mem_map.2 hobject⟩
    rw [hrep, List.nodup_replicate] at hnodup
    rwa [List.countP_eq_length_filter]
  · rw [List.countP_eq_zero.2 fun e he hfor => ?_]
    · exact Nat.zero_le 1
    · obtain ⟨hs, rfl⟩ := PortEvent.isFor_iff.1 hfor
      exact hlive (h.live hb he hs).1

/-- What is remembered of a run: which pollables are armed. -/
def portsMemory : Memory (Addr → Bool) PortEvent := ⟨fun _ => false, fun g a => Function.update g a true, disarm⟩

theorem portsBackend_lawful : portsBackend.Lawful portsMemory Watched fun _ => True where
  create h hk hfd userdata := h.create hk hfd userdata fun _ => portWant_of_zero
  setselect h ha dir f := h.setselect ha dir f
  destroy h hp hr _ := by
    refine ⟨_, _, portsDestroy_eq hp, ⟨Store.Same.set hp rfl, rfl, rfl, rfl, rfl⟩, Store.get_set_self ..,
      fun el'' hpoll hgone hget => h.drop hp hr hpoll hgone fun c hc => ?_⟩
    exact (hget c hc).trans (Store.get_set_of_ne _ _ hc)
  congr h hpoll hget := h.congr hpoll hget
  take h hb := h.take hb
  named hw := by
    rw [show portsBackend.wants _ _ = (_ && _) from rfl, Bool.and_eq_true] at hw
    have hs := of_decide_eq_true (p := _ = PortSource.fd) hw.1
    exact hs
  live h hb _ he hs := (h.live hb he hs).1

/-! ## Runs -/

/-- The traces of a program with an event loop on event ports, with where they lead. -/
abbrev PortsRun : List (BatchStep PortEvent × DispatchAnswer) → PollLoop PortSet × BatchPhase PortEvent → Prop :=
  portsBackend.BatchRun (fun _ => True) fun _ => none

/-- Since the last `mowgli_pollable_setselect` of a pollable there was no event for it. -/
def Armed (tr : List (BatchStep PortEvent × DispatchAnswer)) (a : Addr) : Prop :=
  ∃ tr₁ dir f r tr₂, tr = tr₁ ++ (.call (.setselect a dir f), r) :: tr₂ ∧
    ∀ batch r, (.wait batch, r) ∈ tr₂ → ∀ e ∈ batch, ¬ e.isFor a

/-- The calls of `mowgli_pollable_setselect` for a pollable. -/
def setselects (tr : List (BatchStep PortEvent × DispatchAnswer)) (a : Addr) : ℕ :=
  tr.countP fun x => match x.1 with
    | .call (.setselect b _ _) => b = a
    | _ => false

/-- The events for a pollable. -/
def eventsFor (tr : List (BatchStep PortEvent × DispatchAnswer)) (a : Addr) : ℕ :=
  (tr.map fun x => match x.1 with
    | .wait batch => batch.countP (·.isFor a)
    | _ => 0).sum

variable {tr : List (BatchStep PortEvent × DispatchAnswer)} {s : PollLoop PortSet × BatchPhase PortEvent}
  {c : BatchStep PortEvent} {r : DispatchAnswer}

/-- A step makes a pollable armed, or leaves it so. -/
def Arms (c : BatchStep PortEvent) (a : Addr) : Prop := ∃ dir f, c = .call (.setselect a dir f)

theorem armed_append : Armed (tr ++ [(c, r)]) a ↔
    Arms c a ∨ Armed tr a ∧ ∀ batch, c = .wait batch → ∀ e ∈ batch, ¬ e.isFor a := by
  constructor
  · rintro ⟨tr₁, dir, f, r', tr₂, heq, hno⟩
    rcases List.eq_nil_or_concat tr₂ with rfl | ⟨tr₃, x, rfl⟩
    · obtain ⟨-, hx⟩ := List.append_inj' heq rfl
      exact Or.inl ⟨dir, f, congrArg Prod.fst (List.singleton_inj.1 hx)⟩
    · rw [List.concat_eq_append] at heq hno
      rw [← List.cons_append, ← List.append_assoc] at heq
      obtain ⟨htr, hx⟩ := List.append_inj' heq rfl
      obtain rfl := List.singleton_inj.1 hx
      refine Or.inr ⟨⟨tr₁, dir, f, r', tr₃, htr, fun batch r hm => hno batch r (List.mem_append_left _ hm)⟩, ?_⟩
      rintro batch rfl
      exact hno batch r (List.mem_append_right _ (List.mem_singleton_self _))
  · rintro (⟨dir, f, rfl⟩ | ⟨⟨tr₁, dir, f, r', tr₂, rfl, hno⟩, hc⟩)
    · exact ⟨tr, dir, f, r, [], rfl, nofun⟩
    · refine ⟨tr₁, dir, f, r', tr₂ ++ [(c, r)], List.append_assoc .., fun batch r'' hm => ?_⟩
      rcases List.mem_append.1 hm with hm | hm
      · exact hno batch r'' hm
      · exact hc batch (congrArg Prod.fst (List.mem_singleton.1 hm)).symm

/-- **What is remembered of a run is which pollables are armed.** -/
theorem remembered_iff : Backend.remembered portsMemory tr a ↔ Armed tr a := by
  induction tr using List.reverseRecOn with
  | nil =>
    constructor
    · exact fun h => absurd h Bool.false_ne_true
    · rintro ⟨tr₁, dir, f, r, tr₂, heq, -⟩
      exact absurd heq.symm (List.append_ne_nil_of_right_ne_nil _ (List.cons_ne_nil _ _))
  | append_singleton tr x ih =>
    obtain ⟨c, r⟩ := x
    rw [Backend.remembered_append, armed_append, ← ih]
    generalize Backend.remembered portsMemory tr = armed
    match c with
    | .call (.setselect b dir f) =>
      have harms : Arms (.call (.setselect b dir f)) a ↔ a = b := by
        constructor
        · rintro ⟨dir', f', heq⟩
          cases heq
          rfl
        · rintro rfl
          exact ⟨dir, f, rfl⟩
      rw [harms]
      change Function.update armed b true a ↔ _
      rw [Function.update_apply]
      split_ifs with hab
      · exact ⟨fun _ => Or.inl hab, fun _ => rfl⟩
      · exact ⟨fun h => Or.inr ⟨h, nofun⟩, fun h => (h.resolve_left hab).1⟩
    | .wait batch =>
      change disarm armed batch a ↔ _
      unfold disarm
      rw [Bool.and_eq_true, Bool.not_eq_true', List.any_eq_false]
      constructor
      · rintro ⟨harmed, hno⟩
        refine Or.inr ⟨harmed, fun batch' heq => ?_⟩
        cases heq
        exact hno
      · rintro (⟨dir, f, heq⟩ | ⟨harmed, hno⟩)
        · cases heq
        · exact ⟨harmed, hno batch rfl⟩
    | .call (.create fd userdata) => exact ⟨fun h => Or.inr ⟨h, nofun⟩, fun h => (h.resolve_left nofun).1⟩
    | .call (.destroy b) => exact ⟨fun h => Or.inr ⟨h, nofun⟩, fun h => (h.resolve_left nofun).1⟩
    | .runOnce => exact ⟨fun h => Or.inr ⟨h, nofun⟩, fun h => (h.resolve_left nofun).1⟩
    | .visit => exact ⟨fun h => Or.inr ⟨h, nofun⟩, fun h => (h.resolve_left nofun).1⟩
    | .ret => exact ⟨fun h => Or.inr ⟨h, nofun⟩, fun h => (h.resolve_left nofun).1⟩
    | .finish again => exact ⟨fun h => Or.inr ⟨h, nofun⟩, fun h => (h.resolve_left nofun).1⟩

theorem PortsRun.reached (h : PortsRun tr s) :
    Backend.Reached portsBackend (Watched (Backend.remembered portsMemory tr)) tr s :=
  portsBackend_lawful.reached tracked_create h

/-- **The event ports backend, over whole runs.** The port has for a live pollable just what it has
functions for if `setselect` was called for it after its last event, and
nothing otherwise; what is called was not destroyed before; what was destroyed
is freed once, at the latest when the loop is over, also when it is to be run
again, and never while the loop still looks at it; and no step gets stuck. -/
theorem runs_ports (h : PortsRun tr s) :
    (∀ a p, s.1.pollables.get a = some p → p.removed = false →
      (Armed tr a → s.1.poller p.fd = portInterest a p) ∧ (¬ Armed tr a → s.1.poller p.fd = none)) ∧
    (∀ fd, (∀ a p, s.1.pollables.get a = some p → p.removed = false → p.fd ≠ fd) → s.1.poller fd = none) ∧
    (∀ c s' a dir f userdata, portsBackend.Ok (fun _ => True) s c →
      portsBackend.step s c = some (.called a dir f userdata, s') → ¬ Backend.Destroyed tr a) ∧
    (∀ a, Backend.Destroyed tr a → s.1.freed.count a + s.1.destroyedPollableList.count a = 1) ∧
    (∀ a ∈ s.1.freed, Backend.Destroyed tr a) ∧
    (s.2 = .idle → s.1.destroyedPollableList = []) ∧
    (∀ again r s', portsBackend.step s (.finish again) = some (r, s') → s'.1.destroyedPollableList = []) ∧
    (∀ e ∈ s.2.batch, ∀ dir, portsBackend.wants e dir = true → e.user ∉ s.1.freed) ∧
    ∀ c, portsBackend.Ok (fun _ => True) s c → (portsBackend.step s c).isSome := by
  have hr := h.reached
  refine ⟨fun a p hp hrem => ?_, hr.inv.mirrored.absent, ?_, fun a => hr.count, fun a => hr.destroyed_of_freed,
    fun hi => (hr.phase.idle hi).2, fun _ _ _ => Backend.destroyedPollableList_of_finish hr.kept,
    fun e he dir hw => hr.not_freed he (portsBackend_lawful.named hw), fun c => portsBackend_lawful.isSome hr⟩
  · rw [← remembered_iff, hr.inv.mirrored.has a p hp hrem, portWant]
    exact ⟨fun harmed => if_pos harmed, fun harmed => if_neg harmed⟩
  · intro c s' a dir f userdata hok hstep
    exact portsBackend_lawful.not_destroyed hr hok hstep

/-- A step adds its own. -/
theorem counts_append (tr : List (BatchStep PortEvent × DispatchAnswer)) (c : BatchStep PortEvent) (r : DispatchAnswer) (a : Addr) :
    setselects (tr ++ [(c, r)]) a = setselects tr a + setselects [(c, r)] a ∧
      eventsFor (tr ++ [(c, r)]) a = eventsFor tr a + eventsFor [(c, r)] a := by
  constructor
  · exact List.countP_append
  · unfold eventsFor
    rw [List.map_append, List.sum_append]

/-- A run in which one of two pollables gets an event, and is not set again: the port has nothing for it any more,
and what it has for the other is as it was. -/
theorem runs_ports_two : ∃ tr s p q, PortsRun tr s ∧ s.2 = .idle ∧ s.1.pollables.get 0 = some p ∧
    p.readFunction = some 7 ∧ s.1.poller 5 = none ∧ s.1.pollables.get 1 = some q ∧ s.1.poller 6 = portInterest 1 q := by
  have h₂ : PortsRun _ _ := Backend.batchRun_create_create _ _ _
  have h₃ := h₂.snoc (a := .call (.setselect 0 .read (some 7))) (b := .returned none)
    (by exact ⟨rfl, _, rfl, rfl⟩) rfl
  have h₄ := h₃.snoc (a := .call (.setselect 1 .write (some 7))) (b := .returned none)
    (by exact ⟨rfl, _, rfl, rfl⟩) rfl
  have h₅ := h₄.snoc (a := .runOnce) (b := .returned none) (by exact rfl) rfl
  have h₆ := h₅.snoc (a := .wait [⟨.fd, 5, POLLIN.setWidth 32, 0⟩]) (b := .returned none)
    (by
      refine ⟨rfl, fun e he _ => ?_, by decide⟩
      rw [List.mem_singleton.1 he]
      exact ⟨_, rfl, rfl, by decide⟩) rfl
  have h₇ := h₆.snoc (a := .visit) (b := .called 0 .read 7 none) (by exact Or.inl ⟨_, _, rfl⟩) rfl
  have h₈ := h₇.snoc (a := .ret) (b := .returned none) (by exact Or.inl ⟨_, _, rfl⟩) rfl
  have h₉ := h₈.snoc (a := .visit) (b := .returned none) (by exact Or.inr ⟨_, _, rfl⟩) rfl
  have h₁₀ := h₉.snoc (a := .finish false) (b := .returned none) (by exact rfl) rfl
  have hslots := (runs_ports h₁₀).1
  refine ⟨_, _, _, _, h₁₀, rfl, rfl, rfl, (hslots 0 _ rfl rfl).2 fun harmed => ?_, rfl,
    (hslots 1 _ rfl rfl).1 (remembered_iff.1 (by decide))⟩
  exact absurd (remembered_iff.2 harmed) (by decide)

/-- **A pollable gets no more events than it was set.** Each call of `setselect` is good for one event, whatever
the pollable and the order of the calls. -/
theorem runs_ports_events (h : PortsRun tr s) (a : Addr) :
    eventsFor tr a ≤ setselects tr a ∧ (Armed tr a → eventsFor tr a < setselects tr a) := by
  induction h with
  | nil =>
    refine ⟨le_rfl, ?_⟩
    rintro ⟨tr₁, dir, f, r, tr₂, heq, -⟩
    exact absurd heq.symm (List.append_ne_nil_of_right_ne_nil _ (List.cons_ne_nil _ _))
  | @snoc tr s s' c r hrun hok _ ih =>
    obtain ⟨hle, hlt⟩ := ih
    obtain ⟨hset, hev⟩ := counts_append tr c r a
    rw [armed_append, hset, hev]
    match c, hok with
    | .wait batch, hok =>
      have hone := (PortsRun.reached hrun).inv.countP_le hok.2 a
      have hev₁ : eventsFor [(.wait batch, r)] a = batch.countP (·.isFor a) := Nat.add_zero _
      have hset₀ : setselects [(.wait batch, r)] a = 0 := rfl
      rw [hev₁, hset₀]
      rcases Nat.eq_zero_or_pos (batch.countP (·.isFor a)) with h₀ | hpos
      · refine ⟨by omega, ?_⟩
        rintro (⟨dir, f, heq⟩ | ⟨harmed, -⟩)
        · cases heq
        · have := hlt harmed
          omega
      · -- an event comes only for a pollable that is armed, and disarms it
        obtain ⟨e, he, hfor⟩ := List.countP_pos_iff.1 hpos
        have harmed : Armed tr a := by
          obtain ⟨hs, huser⟩ := PortEvent.isFor_iff.1 hfor
          rw [← remembered_iff, ← huser]
          exact ((PortsRun.reached hrun).inv.live hok.2 he hs).2
        have := hlt harmed
        refine ⟨by omega, ?_⟩
        rintro (⟨dir, f, heq⟩ | ⟨-, hno⟩)
        · cases heq
        · exact absurd hfor (hno batch rfl e he)
    | .call (.setselect b dir f), _ =>
      have hev₀ : eventsFor [(.call (.setselect b dir f), r)] a = 0 := rfl
      rw [hev₀]
      by_cases hba : b = a
      · have hset₁ : setselects [(.call (.setselect b dir f), r)] a = 1 := by
          simp [setselects, hba]
        rw [hset₁]
        exact ⟨by omega, fun _ => by omega⟩
      · refine ⟨by omega, ?_⟩
        rintro (⟨dir', f', heq⟩ | ⟨harmed, -⟩)
        · cases heq
          exact absurd rfl hba
        · have := hlt harmed
          omega
    | .call (.create _ _), _ => exact ⟨hle, fun h => hlt (h.resolve_left nofun).1⟩
    | .call (.destroy _), _ => exact ⟨hle, fun h => hlt (h.resolve_left nofun).1⟩
    | .runOnce, _ => exact ⟨hle, fun h => hlt (h.resolve_left nofun).1⟩
    | .visit, _ => exact ⟨hle, fun h => hlt (h.resolve_left nofun).1⟩
    | .ret, _ => exact ⟨hle, fun h => hlt (h.resolve_left nofun).1⟩
    | .finish _, _ => exact ⟨hle, fun h => hlt (h.resolve_left nofun).1⟩

/-- Set again by its callback, and an event in the next round too. -/
theorem runs_ports_events_again : ∃ tr s, PortsRun tr s ∧ eventsFor tr 0 = 2 ∧ eventsFor tr 0 ≤ setselects tr 0 := by
  have h₁ : PortsRun _ _ := Backend.batchRun_create _ _ _
  have h₂ := h₁.snoc (a := .call (.setselect 0 .read (some 7))) (b := .returned none)
    (by exact ⟨rfl, _, rfl, rfl⟩) rfl
  have h₃ := h₂.snoc (a := .runOnce) (b := .returned none) (by exact rfl) rfl
  have h₄ := h₃.snoc (a := .wait [⟨.fd, 5, POLLIN.setWidth 32, 0⟩]) (b := .returned none)
    (by
      refine ⟨rfl, fun e he _ => ?_, by decide⟩
      rw [List.mem_singleton.1 he]
      exact ⟨_, rfl, rfl, by decide⟩) rfl
  have h₅ := h₄.snoc (a := .visit) (b := .called 0 .read 7 none) (by exact Or.inl ⟨_, _, rfl⟩) rfl
  have h₆ := h₅.snoc (a := .call (.setselect 0 .read (some 7))) (b := .returned none)
    (by exact ⟨rfl, _, rfl, rfl⟩) rfl
  have h₇ := h₆.snoc (a := .ret) (b := .returned none) (by exact Or.inl ⟨_, _, rfl⟩) rfl
  have h₈ := h₇.snoc (a := .visit) (b := .returned none) (by exact Or.inr ⟨_, _, rfl⟩) rfl
  have h₉ := h₈.snoc (a := .finish true) (b := .returned none) (by exact rfl) rfl
  have h₁₀ := h₉.snoc (a := .wait [⟨.fd, 5, POLLIN.setWidth 32, 0⟩]) (b := .returned none)
    (by
      refine ⟨rfl, fun e he _ => ?_, by decide⟩
      rw [List.mem_singleton.1 he]
      exact ⟨_, rfl, rfl, by decide⟩) rfl
  exact ⟨_, _, h₁₀, rfl, (runs_ports_events h₁₀ 0).1⟩

end PollLoop

end Mowgli
