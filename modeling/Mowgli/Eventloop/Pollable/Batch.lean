import Mowgli.Eventloop.Pollable.Dispatch
import Mowgli.Eventloop.Pollable.Mirror
import Mowgli.Library.Run
/-!
# An event loop on a backend that gets its events in batches

The kernel fills in a batch of events, each with the pollable it is for, and
the batch is gone through while the callbacks create, set and destroy
pollables. What the kernel keeps differs from backend to backend, and so
does what it forgets of the events that it hands out; what makes the loop safe
is the same for all (`Backend.Lawful`).
-/

namespace Mowgli

/-! ## The event loop, step by step -/

/-- A backend whose `select` gets a batch of events. -/
structure Backend (P E : Type) where
  ops : PollOps P
  /-- The pollable that comes with an event. -/
  ptr : E → Addr
  /-- The event comes with a pollable at all. -/
  Named : E → Prop
  /-- The test for a direction, on the event alone. -/
  wants : E → IoDir → Bool
  /-- The kernel may hand out these events. -/
  Hands : P → List E → Prop
  /-- What the kernel has when it has handed them out. -/
  take : P → List E → P

/-- Where a program is in `mowgli_eventloop_run_once`. -/
inductive BatchPhase (E : Type)
  /-- Not in it. -/
  | idle
  /-- Before the kernel is asked for events: timers are run. -/
  | timers
  /-- At the head of the loop over the events; these are to come. -/
  | next (batch : List E)
  /-- In the read function of the pollable of `e`. -/
  | reading (e : E) (batch : List E)
  /-- Between the two tests. -/
  | between (e : E) (batch : List E)
  /-- In the write function of the pollable of `e`. -/
  | writing (e : E) (batch : List E)

namespace BatchPhase

variable {E : Type}

/-- Whether the program's own code runs. -/
def callable : BatchPhase E → Bool
  | .idle | .timers | .reading _ _ | .writing _ _ => true
  | .next _ | .between _ _ => false

/-- The events that are still looked at. -/
def batch : BatchPhase E → List E
  | .idle | .timers => []
  | .next batch => batch
  | .reading e batch | .between e batch | .writing e batch => e :: batch

end BatchPhase

/-- A step: a call of the program, or one of the event loop. -/
inductive BatchStep (E : Type)
  | call (c : PollLoop.Call)
  /-- `mowgli_eventloop_run_once` is called. -/
  | runOnce
  /-- The kernel hands out events: none if it times out or fails. -/
  | wait (batch : List E)
  /-- The loop goes on to its next test. -/
  | visit
  /-- The function that was called returns. -/
  | ret
  /-- The loop is over: the reap, and back to the caller or, in
  `mowgli_eventloop_run`, round again. -/
  | finish (again : Bool)

/-- What is remembered of a run: what was set, and what the kernel handed out. -/
structure Memory (G E : Type) where
  first : G
  set : G → Addr → G
  took : G → List E → G

/-- What is remembered after a step. -/
def Memory.note {G E : Type} (m : Memory G E) (g : G) : BatchStep E → G
  | .call (.setselect a _ _) => m.set g a
  | .wait batch => m.took g batch
  | _ => g

namespace Backend

open PollLoop

variable {P E G : Type} (b : Backend P E)

/-- A test in the loop of `select`, and what it calls. -/
def test (el : PollLoop P) (e : E) (dir : IoDir) : Option (Option (Addr × Option Addr)) :=
  if b.wants e dir then do
    let p ← el.pollables.get (b.ptr e)
    if !p.removed then el.pollableTrigger (b.ptr e) dir else some none
  else some none

/-- Where the loop goes after a test. -/
def afterTest (e : E) (dir : IoDir) (inside after : BatchPhase E) :
    Option (Addr × Option Addr) → DispatchAnswer × BatchPhase E
  | some (f, userdata) => (.called (b.ptr e) dir f userdata, inside)
  | none => (.returned none, after)

/-- The steps of a program with an event loop. -/
def step (s : PollLoop P × BatchPhase E) : BatchStep E → Option (DispatchAnswer × (PollLoop P × BatchPhase E))
  | .call c =>
    if s.2.callable then (s.1.call b.ops c).map fun (r, el) => (.returned r, (el, s.2))
    else none
  | .runOnce =>
    match s.2 with
    | .idle => some (.returned none, ({ s.1 with processingEvents := true }, .timers))
    | _ => none
  | .wait batch =>
    match s.2 with
    | .timers => some (.returned none, ({ s.1 with poller := b.take s.1.poller batch }, .next batch))
    | _ => none
  | .visit =>
    match s.2 with
    | .next (e :: batch) =>
      (b.test s.1 e .read).map fun r =>
        let (a, phase) := b.afterTest e .read (.reading e batch) (.between e batch) r
        (a, (s.1, phase))
    | .between e batch =>
      (b.test s.1 e .write).map fun r =>
        let (a, phase) := b.afterTest e .write (.writing e batch) (.next batch) r
        (a, (s.1, phase))
    | _ => none
  | .ret =>
    match s.2 with
    | .reading e batch => some (.returned none, (s.1, .between e batch))
    | .writing _ batch => some (.returned none, (s.1, .next batch))
    | _ => none
  | .finish again =>
    match s.2 with
    | .next [] =>
      ({ s.1 with processingEvents := again } : PollLoop P).reapPollables.map fun el =>
        (.returned none, (el, if again then .timers else .idle))
    | _ => none

/-- What is asked of a step. Each live pollable has its own descriptor,
`setselect` is called with live pollables, a live pollable is destroyed only where
`D` holds of it, and event loops are not nested. -/
def Ok (D : Pollable → Prop) (s : PollLoop P × BatchPhase E) : BatchStep E → Prop
  | .call (.create fd _) => s.2.callable ∧ ∀ a p, s.1.pollables.get a = some p → p.removed = false → p.fd ≠ fd
  | .call (.setselect a _ _) => s.2.callable ∧ s.1.Live a
  | .call (.destroy a) => s.2.callable ∧ ∃ p, s.1.pollables.get a = some p ∧ (p.removed = false → D p)
  | .runOnce => s.2 = .idle
  | .wait batch => s.2 = .timers ∧ b.Hands s.1.poller batch
  | .visit => (∃ e batch, s.2 = .next (e :: batch)) ∨ ∃ e batch, s.2 = .between e batch
  | .ret => (∃ e batch, s.2 = .reading e batch) ∨ ∃ e batch, s.2 = .writing e batch
  | .finish _ => s.2 = .next []

/-- What a backend has to keep for the loop to be safe: `I` is what it makes sure of between the
kernel and the pollables, by what is remembered. -/
structure Lawful (m : Memory G E) (I : G → PollLoop P → Prop) (D : Pollable → Prop) : Prop where
  create : ∀ {g el fd}, I g el → el.Kept → (∀ a p, el.pollables.get a = some p → p.removed = false → p.fd ≠ fd) →
    ∀ userdata, I g (el.pollableCreate fd userdata).2
  setselect : ∀ {g el a}, I g el → el.Live a → ∀ dir f,
    ∃ el', b.ops.setselect el a dir f = some el' ∧ I (m.set g a) el' ∧ SameLife el el'
  destroy : ∀ {g el a p}, I g el → el.pollables.get a = some p → p.removed = false → D p →
    ∃ el' q, b.ops.destroy el a = some el' ∧ SameLife el el' ∧ el'.pollables.get a = some q ∧
      ∀ el'', el''.poller = el'.poller → ¬ el''.Live a → (∀ c ≠ a, el''.pollables.get c = el'.pollables.get c) → I g el''
  /-- Pollables that are not live come and go. -/
  congr : ∀ {g el el'}, I g el → el'.poller = el.poller →
    (∀ a p, p.removed = false → (el'.pollables.get a = some p ↔ el.pollables.get a = some p)) → I g el'
  take : ∀ {g el batch}, I g el → b.Hands el.poller batch →
    I (m.took g batch) { el with poller := b.take el.poller batch }
  named : ∀ {e dir}, b.wants e dir = true → b.Named e
  /-- Events are for live pollables. -/
  live : ∀ {g el batch}, I g el → b.Hands el.poller batch → ∀ e ∈ batch, b.Named e → el.Live (b.ptr e)

/-! ## One step -/

/-- What holds of the flag and of the batch. -/
structure InPhase (s : PollLoop P × BatchPhase E) : Prop where
  idle : s.2 = .idle → s.1.processingEvents = false ∧ s.1.destroyedPollableList = []
  busy : s.2 ≠ .idle → s.1.processingEvents = true
  /-- No pollable that may still be looked at has been freed. -/
  batch : ∀ e ∈ s.2.batch, b.Named e → b.ptr e ∈ s.1.pollables.live

/-- What a step does to the life of pollables. -/
def Lives (el el' : PollLoop P) (c : BatchStep E) : Prop :=
  match c with
  | .call (.create _ _) =>
    el'.allocated = el.allocated + 1 ∧ ∀ a, el'.Live a ↔ a = el.allocated ∨ a ≠ el.allocated ∧ el.Live a
  | .call (.destroy c) => el'.allocated = el.allocated ∧ ∀ a, el'.Live a ↔ el.Live a ∧ a ≠ c
  | _ => el'.allocated = el.allocated ∧ ∀ a, el'.Live a ↔ el.Live a

variable {b} {m : Memory G E} {I : G → PollLoop P → Prop} {D : Pollable → Prop} {g : G}

/-- What a step has to show for itself. -/
structure Stepped (b : Backend P E) (I : PollLoop P → Prop) (s : PollLoop P × BatchPhase E) (c : BatchStep E)
    (r : DispatchAnswer) (s' : PollLoop P × BatchPhase E) : Prop where
  kept : s'.1.Kept
  inv : I s'.1
  phase : b.InPhase s'
  lives : Lives s.1 s'.1 c
  called : ∀ a dir f userdata, r = .called a dir f userdata → s.1.Live a

variable {s s' : PollLoop P × BatchPhase E} {el el' : PollLoop P} {a : Addr} {p : Pollable}

/-- Pollables that come to life, or stay as they are, change nothing for the loop. -/
theorem InPhase.mono (h : b.InPhase s) (hp : el'.processingEvents = s.1.processingEvents)
    (hd : el'.destroyedPollableList = s.1.destroyedPollableList)
    (hlive : ∀ a ∈ s.1.pollables.live, a ∈ el'.pollables.live) : b.InPhase (el', s.2) := by
  refine ⟨fun hi => ?_, fun hi => hp.trans (h.busy hi), fun e he hn => hlive _ (h.batch e he hn)⟩
  exact ⟨hp.trans (h.idle hi).1, hd.trans (h.idle hi).2⟩

theorem step_call {c : Call} {r : Option Addr} (hc : s.2.callable) (h : s.1.call b.ops c = some (r, el')) :
    b.step s (.call c) = some (.returned r, (el', s.2)) := by
  rw [step, if_pos hc, h]
  rfl

/-- A test reads a pollable that was not freed, and calls it only if it was not destroyed. -/
theorem test_spec {e : E} (dir : IoDir) (he : b.wants e dir = true → b.ptr e ∈ el.pollables.live) :
    ∃ r, b.test el e dir = some r ∧ (r.isSome → el.Live (b.ptr e)) := by
  unfold test
  split_ifs with hw
  · obtain ⟨p, hp⟩ := Store.mem_live.1 (he hw)
    cases hr : p.removed with
    | true => exact ⟨none, by simp [hp, hr], nofun⟩
    | false =>
      obtain ⟨r, htrig⟩ : ∃ r, el.pollableTrigger (b.ptr e) dir = some r := by
        rw [pollableTrigger, hp]
        exact ⟨_, rfl⟩
      exact ⟨r, by simp [hp, hr, htrig], fun _ => ⟨p, hp, hr⟩⟩
  · exact ⟨none, rfl, nofun⟩

/-- The end of the loop leaves no pollable that waits for its end, whether it is run again or not. -/
theorem destroyedPollableList_of_finish (hk : s.1.Kept) {again : Bool} {r : DispatchAnswer}
    (hstep : b.step s (.finish again) = some (r, s')) : s'.1.destroyedPollableList = [] := by
  obtain ⟨el, phase⟩ := s
  unfold step at hstep
  match phase with
  | .next [] =>
    have hk' : Kept { el with processingEvents := again } := ⟨hk.fresh, hk.destroyed, hk.nodup, hk.once, hk.freed⟩
    obtain ⟨m, hrun, -⟩ := hk'.reap
    obtain ⟨el', hrun', heq⟩ := Option.map_eq_some_iff.1 hstep
    obtain ⟨-, rfl⟩ := Prod.mk.inj heq
    obtain rfl := Option.some.inj (hrun.symm.trans hrun')
    rfl

namespace Lawful

variable (h : b.Lawful m I D)

include h

theorem step_create (hk : s.1.Kept) (hI : I g s.1) (hph : b.InPhase s) (hc : s.2.callable) {fd : ℤ}
    (hfd : ∀ a p, s.1.pollables.get a = some p → p.removed = false → p.fd ≠ fd) (userdata : Option Addr) :
    ∃ r s', b.step s (.call (.create fd userdata)) = some (r, s') ∧
      Stepped b (I g) s (.call (.create fd userdata)) r s' := by
  refine ⟨_, _, step_call hc rfl, hk.create fd userdata, h.create hI hk hfd userdata, hph.mono rfl rfl fun a ha => ?_,
    ⟨rfl, fun a => live_create_iff fd userdata⟩, nofun⟩
  exact Store.mem_live_set.2 (Or.inr ha)

theorem step_setselect (hk : s.1.Kept) (hI : I g s.1) (hph : b.InPhase s) (hc : s.2.callable) (ha : s.1.Live a)
    (dir : IoDir) (f : Option Addr) :
    ∃ r s', b.step s (.call (.setselect a dir f)) = some (r, s') ∧ Stepped b (I (m.set g a)) s (.call (.setselect a dir f)) r s' := by
  obtain ⟨el', hrun, hI', hs⟩ := h.setselect hI ha dir f
  refine ⟨_, _, step_call hc (congrArg (Option.map _) hrun), hk.congr hs, hI',
    hph.mono hs.processing hs.destroyed fun a ha => ?_, ⟨hs.allocated, fun a => hs.live_iff⟩, nofun⟩
  rw [hs.removed.live]
  exact ha

/-- **What is destroyed is live no more**: it is kept for the reap while events are processed, and freed
otherwise. -/
theorem destroyed (hk : el.Kept) (hI : I g el) (hp : el.pollables.get a = some p) (hr : p.removed = false) (hD : D p) :
    ∃ el', el.pollableDestroy b.ops a = some el' ∧ el'.Kept ∧ I g el' ∧ el'.allocated = el.allocated ∧
      el'.processingEvents = el.processingEvents ∧ (∀ c, el'.Live c ↔ el.Live c ∧ c ≠ a) ∧
      if el.processingEvents then el'.pollables.live = el.pollables.live
      else el'.destroyedPollableList = el.destroyedPollableList := by
  obtain ⟨el₁, q, hrun, hs, hq, hgone⟩ := h.destroy hI hp hr hD
  have hqr : q.removed = false := by
    have hsame := hs.removed a
    rw [hp, hq] at hsame
    exact (Option.some.inj hsame).trans hr
  cases he : el.processingEvents with
  | true =>
    have hlive : ∀ c, Live { el₁ with
        pollables := el₁.pollables.set a { q with removed := true }
        destroyedPollableList := el₁.destroyedPollableList ++ [a] } c ↔ el.Live c ∧ c ≠ a := by
      intro c
      rw [← hs.live_iff, Live, Store.get_set]
      split_ifs with hc
      · simp [hc]
      · simp [Live, hc]
    refine ⟨_, pollableDestroy_processing b.ops hp hr hrun hq (hs.processing.trans he), (hk.congr hs).remove hq hqr,
      hgone _ rfl (fun ha => ((hlive a).1 ha).2 rfl) fun c hc => Store.get_set_of_ne _ _ hc, hs.allocated,
      hs.processing.trans he, hlive, ?_⟩
    rw [if_pos rfl]
    ext c
    rw [← hs.removed.live, Store.mem_live_set]
    constructor
    · rintro (rfl | hc)
      · exact Store.mem_live.2 ⟨_, hq⟩
      · exact hc
    · exact Or.inr
  | false =>
    have hlive : ∀ c, Live { el₁ with
        pollables := el₁.pollables.free a, freed := el₁.freed ++ [a] } c ↔ el.Live c ∧ c ≠ a := by
      intro c
      rw [← hs.live_iff, Live, Store.get_free]
      split_ifs with hc
      · simp [hc]
      · simp [Live, hc]
    exact ⟨_, pollableDestroy_idle b.ops hp hr hrun hq (hs.processing.trans he), (hk.congr hs).free hq hqr,
      hgone _ rfl (fun ha => ((hlive a).1 ha).2 rfl) fun c hc => Store.get_free_of_ne _ hc, hs.allocated,
      hs.processing.trans he, hlive, hs.destroyed⟩

theorem step_destroy (hk : s.1.Kept) (hI : I g s.1) (hph : b.InPhase s) (hc : s.2.callable)
    (hp : s.1.pollables.get a = some p) (hD : p.removed = false → D p) :
    ∃ r s', b.step s (.call (.destroy a)) = some (r, s') ∧ Stepped b (I g) s (.call (.destroy a)) r s' := by
  cases hr : p.removed with
  | true =>
    -- a second `destroy` is only told off
    have hrun := pollableDestroy_removed b.ops hp hr
    refine ⟨_, _, step_call hc (congrArg (Option.map _) hrun), ⟨hk.fresh, hk.destroyed, hk.nodup, hk.once, hk.freed⟩,
      h.congr hI rfl fun _ _ _ => Iff.rfl, hph.mono rfl rfl fun _ hb => hb, ⟨rfl, fun c => ?_⟩, nofun⟩
    constructor
    · intro hlive
      exact ⟨hlive, fun hca => Live.not_removed (hca ▸ hlive) ⟨p, hp, hr⟩⟩
    · exact And.left
  | false =>
    obtain ⟨el', hrun, hk', hI', halloc, hpe, hlive, hrest⟩ := h.destroyed hk hI hp hr (hD hr)
    refine ⟨_, _, step_call hc (congrArg (Option.map _) hrun), hk', hI',
      ⟨fun hi => ?_, fun hi => hpe.trans (hph.busy hi), fun e he hn => ?_⟩, ⟨halloc, hlive⟩, nofun⟩
    · obtain ⟨hidle, hlist⟩ := hph.idle hi
      rw [hidle, if_neg Bool.false_ne_true] at hrest
      exact ⟨hpe.trans hidle, hrest.trans hlist⟩
    · by_cases hi : s.2 = .idle
      · dsimp only at he
        rw [hi] at he
        exact absurd he List.not_mem_nil
      · rw [hph.busy hi, if_pos rfl] at hrest
        rw [hrest]
        exact hph.batch e he hn

/-- A test is made, and the loop goes on. -/
theorem step_visit (hk : s.1.Kept) (hI : I g s.1) (hph : b.InPhase s)
    (hv : (∃ e batch, s.2 = .next (e :: batch)) ∨ ∃ e batch, s.2 = .between e batch) :
    ∃ r s', b.step s .visit = some (r, s') ∧ Stepped b (I g) s .visit r s' := by
  obtain ⟨el, phase⟩ := s
  rcases hv with ⟨e, batch, rfl⟩ | ⟨e, batch, rfl⟩
  · have hbusy := hph.busy nofun
    obtain ⟨r, htest, hcalled⟩ := test_spec .read fun hw => hph.batch e List.mem_cons_self (h.named hw)
    refine ⟨_, _, congrArg (Option.map _) htest, hk, hI, ?_, ⟨rfl, fun _ => Iff.rfl⟩, ?_⟩
    · cases r with
      | none => exact ⟨nofun, fun _ => hbusy, hph.batch⟩
      | some r => exact ⟨nofun, fun _ => hbusy, hph.batch⟩
    · intro a dir f userdata heq
      cases r with
      | none => cases heq
      | some r =>
        obtain ⟨rfl, -⟩ := DispatchAnswer.called.inj heq
        exact hcalled rfl
  · have hbusy := hph.busy nofun
    obtain ⟨r, htest, hcalled⟩ := test_spec .write fun hw => hph.batch e List.mem_cons_self (h.named hw)
    refine ⟨_, _, congrArg (Option.map _) htest, hk, hI, ?_, ⟨rfl, fun _ => Iff.rfl⟩, ?_⟩
    · cases r with
      | none => exact ⟨nofun, fun _ => hbusy, fun e' he' => hph.batch e' (List.mem_cons_of_mem e he')⟩
      | some r => exact ⟨nofun, fun _ => hbusy, hph.batch⟩
    · intro a dir f userdata heq
      cases r with
      | none => cases heq
      | some r =>
        obtain ⟨rfl, -⟩ := DispatchAnswer.called.inj heq
        exact hcalled rfl

/-- The end of the loop. -/
theorem step_finish (hk : s.1.Kept) (hI : I g s.1) (hf : s.2 = .next []) (again : Bool) :
    ∃ r s', b.step s (.finish again) = some (r, s') ∧ Stepped b (I g) s (.finish again) r s' := by
  obtain ⟨el, phase⟩ := s
  obtain rfl : phase = .next [] := hf
  have hk' : Kept { el with processingEvents := again } := ⟨hk.fresh, hk.destroyed, hk.nodup, hk.once, hk.freed⟩
  obtain ⟨m, hrun, -, hk''⟩ := hk'.reap
  obtain ⟨el', hrun', -, hsame, -⟩ := hk'.reap_live
  obtain rfl := Option.some.inj (hrun.symm.trans hrun')
  refine ⟨_, _, congrArg (Option.map _) hrun, hk'', h.congr hI rfl hsame, ?_, ⟨rfl, fun c => ?_⟩, nofun⟩
  · cases again with
    | true => exact ⟨nofun, fun _ => rfl, nofun⟩
    | false => exact ⟨fun _ => ⟨rfl, rfl⟩, fun hne => absurd rfl hne, nofun⟩
  · exact ⟨fun ⟨r, hc, hr⟩ => ⟨r, (hsame c r hr).1 hc, hr⟩, fun ⟨r, hc, hr⟩ => ⟨r, (hsame c r hr).2 hc, hr⟩⟩

/-- **Every step that meets the conditions** has an answer, keeps all that was agreed, and calls only
what was not destroyed. -/
theorem step {c : BatchStep E} (hk : s.1.Kept) (hI : I g s.1) (hph : b.InPhase s) (hok : b.Ok D s c) :
    ∃ r s', b.step s c = some (r, s') ∧ Stepped b (I (m.note g c)) s c r s' := by
  match c, hok with
  | .call (.create fd userdata), hok => exact h.step_create hk hI hph hok.1 hok.2 userdata
  | .call (.setselect a dir f), hok => exact h.step_setselect hk hI hph hok.1 hok.2 dir f
  | .call (.destroy a), ⟨hc, p, hp, hD⟩ => exact h.step_destroy hk hI hph hc hp hD
  | .visit, hok => exact h.step_visit hk hI hph hok
  | .finish again, hok => exact h.step_finish hk hI hok again
  | .runOnce, hok =>
    obtain ⟨el, phase⟩ := s
    obtain rfl : phase = .idle := hok
    exact ⟨_, _, rfl, ⟨hk.fresh, hk.destroyed, hk.nodup, hk.once, hk.freed⟩, h.congr hI rfl fun _ _ _ => Iff.rfl,
      ⟨nofun, fun _ => rfl, nofun⟩, ⟨rfl, fun _ => Iff.rfl⟩, nofun⟩
  | .wait batch, hok =>
    obtain ⟨el, phase⟩ := s
    obtain ⟨rfl, hbatch⟩ : phase = .timers ∧ _ := hok
    exact ⟨_, _, rfl, ⟨hk.fresh, hk.destroyed, hk.nodup, hk.once, hk.freed⟩, h.take hI hbatch,
      ⟨nofun, fun _ => hph.busy nofun, fun e he hn => (h.live hI hbatch e he hn).mem_live⟩,
      ⟨rfl, fun _ => Iff.rfl⟩, nofun⟩
  | .ret, hok =>
    obtain ⟨el, phase⟩ := s
    rcases hok with ⟨e, batch, rfl⟩ | ⟨e, batch, rfl⟩
    · exact ⟨_, _, rfl, hk, hI, ⟨nofun, fun _ => hph.busy nofun, hph.batch⟩, ⟨rfl, fun _ => Iff.rfl⟩, nofun⟩
    · exact ⟨_, _, rfl, hk, hI, ⟨nofun, fun _ => hph.busy nofun,
        fun e' he' => hph.batch e' (List.mem_cons_of_mem e he')⟩, ⟨rfl, fun _ => Iff.rfl⟩, nofun⟩

end Lawful

/-! ## Runs -/

/-- The traces of a program with an event loop, with where they lead. -/
abbrev BatchRun (b : Backend P E) (D : Pollable → Prop) (poller : P) :
    List (BatchStep E × DispatchAnswer) → PollLoop P × BatchPhase E → Prop :=
  Run b.step (b.Ok D) (PollLoop.create poller, .idle)

/-- A program that has created one pollable, on the descriptor 5. -/
theorem batchRun_create (b : Backend P E) (D : Pollable → Prop) (poller : P) : b.BatchRun D poller
    ([] ++ [(.call (.create 5 none), .returned (some 0))]) (((PollLoop.create poller).pollableCreate 5 none).2, .idle) :=
  Run.nil.snoc ⟨rfl, fun a p hp => by simp [PollLoop.create] at hp⟩ rfl

/-- A program that has created two pollables, each on a descriptor of its own. -/
theorem batchRun_create_create (b : Backend P E) (D : Pollable → Prop) (poller : P) : b.BatchRun D poller
    (([] ++ [(.call (.create 5 none), .returned (some 0))]) ++ [(.call (.create 6 none), .returned (some 1))])
    ((((PollLoop.create poller).pollableCreate 5 none).2.pollableCreate 6 none).2, .idle) := by
  refine (b.batchRun_create D poller).snoc ⟨rfl, fun a p hp hr hfd => ?_⟩ rfl
  rw [pollableCreate, Store.get_set] at hp
  split_ifs at hp
  · rw [← Option.some.inj hp] at hfd
    exact absurd hfd (by decide)
  · simp [PollLoop.create] at hp

/-- `mowgli_pollable_destroy` was called. -/
def Destroyed (tr : List (BatchStep E × DispatchAnswer)) (a : Addr) : Prop :=
  ∃ r, (.call (.destroy a), r) ∈ tr

/-- What is remembered after a run. -/
def remembered (m : Memory G E) (tr : List (BatchStep E × DispatchAnswer)) : G :=
  tr.foldl (fun g x => m.note g x.1) m.first

variable {tr : List (BatchStep E × DispatchAnswer)} {c : BatchStep E} {r : DispatchAnswer} {poller : P}

theorem remembered_append : remembered m (tr ++ [(c, r)]) = m.note (remembered m tr) c := by
  unfold remembered
  rw [List.foldl_append]
  rfl

theorem destroyed_append : Destroyed (tr ++ [(c, r)]) a ↔ Destroyed tr a ∨ c = .call (.destroy a) := by
  simp only [Destroyed, List.mem_append, List.mem_singleton, Prod.mk.injEq]
  constructor
  · rintro ⟨r', h | h⟩
    · exact Or.inl ⟨r', h⟩
    · exact Or.inr h.1.symm
  · rintro (⟨r', h⟩ | rfl)
    · exact ⟨r', Or.inl h⟩
    · exact ⟨r, Or.inr ⟨rfl, rfl⟩⟩

/-- What was destroyed is what was created and is not live, step by step. -/
theorem destroyed_step (hk : s.1.Kept) (hok : b.Ok D s c) (hl : Lives s.1 s'.1 c)
    (hd : Destroyed tr a ↔ a < s.1.allocated ∧ ¬ s.1.Live a) :
    Destroyed (tr ++ [(c, r)]) a ↔ a < s'.1.allocated ∧ ¬ s'.1.Live a := by
  rw [destroyed_append, hd]
  have hsame : (s'.1.allocated = s.1.allocated ∧ ∀ a, s'.1.Live a ↔ s.1.Live a) → c ≠ .call (.destroy a) →
      (a < s.1.allocated ∧ ¬ s.1.Live a ∨ c = .call (.destroy a) ↔ a < s'.1.allocated ∧ ¬ s'.1.Live a) := by
    rintro ⟨halloc, hlive⟩ hc
    rw [halloc, hlive]
    exact or_iff_left hc
  match c, hok, hl with
  | .call (.create fd userdata), _, hl =>
    obtain ⟨halloc, hlive⟩ := hl
    rw [halloc, hlive]
    constructor
    · rintro (⟨hlt, hn⟩ | heq)
      · refine ⟨Nat.lt_succ_of_lt hlt, ?_⟩
        rintro (rfl | ⟨-, ha⟩)
        · exact lt_irrefl _ hlt
        · exact hn ha
      · cases heq
    · rintro ⟨hlt, hn⟩
      rw [not_or, not_and] at hn
      exact Or.inl ⟨Nat.lt_of_le_of_ne (Nat.le_of_lt_succ hlt) hn.1, hn.2 hn.1⟩
  | .call (.destroy c), ⟨_, p, hp, _⟩, hl =>
    obtain ⟨halloc, hlive⟩ := hl
    rw [halloc, hlive, BatchStep.call.injEq, Call.destroy.injEq]
    constructor
    · rintro (⟨hlt, hn⟩ | rfl)
      · exact ⟨hlt, fun ha => hn ha.1⟩
      · exact ⟨hk.fresh c (Store.mem_live.2 ⟨p, hp⟩), fun ha => ha.2 rfl⟩
    · rintro ⟨hlt, hn⟩
      by_cases hca : c = a
      · exact Or.inr hca
      · exact Or.inl ⟨hlt, fun ha => hn ⟨ha, Ne.symm hca⟩⟩
  | .call (.setselect _ _ _), _, hl => exact hsame hl nofun
  | .runOnce, _, hl => exact hsame hl nofun
  | .wait _, _, hl => exact hsame hl nofun
  | .visit, _, hl => exact hsame hl nofun
  | .ret, _, hl => exact hsame hl nofun
  | .finish _, _, hl => exact hsame hl nofun

/-- What holds of every state that a run leads to. -/
structure Reached (b : Backend P E) (I : PollLoop P → Prop) (tr : List (BatchStep E × DispatchAnswer))
    (s : PollLoop P × BatchPhase E) : Prop where
  kept : s.1.Kept
  inv : I s.1
  phase : b.InPhase s
  destroyed : ∀ a, Destroyed tr a ↔ a < s.1.allocated ∧ ¬ s.1.Live a

namespace Lawful

variable (h : b.Lawful m I D)

include h

/-- The invariant of all runs. -/
theorem reached (h₀ : I m.first (PollLoop.create poller)) (hrun : b.BatchRun D poller tr s) :
    Reached b (I (remembered m tr)) tr s := by
  induction hrun with
  | nil =>
    refine ⟨kept_create _, h₀, ⟨fun _ => ⟨rfl, rfl⟩, fun h => absurd rfl h, nofun⟩, fun a => ?_⟩
    constructor
    · rintro ⟨r, hr⟩
      exact absurd hr List.not_mem_nil
    · rintro ⟨hlt, -⟩
      exact absurd hlt (Nat.not_lt_zero a)
  | snoc _ hok hstep ih =>
    obtain ⟨r', s'', hstep', hst⟩ := h.step ih.kept ih.inv ih.phase hok
    rw [hstep, Option.some_inj, Prod.mk.injEq] at hstep'
    obtain ⟨rfl, rfl⟩ := hstep'
    refine ⟨hst.kept, ?_, hst.phase, fun a => destroyed_step ih.kept hok hst.lives (ih.destroyed a)⟩
    rw [remembered_append]
    exact hst.inv

/-- What is called was not destroyed. -/
theorem not_destroyed (hr : Reached b (I g) tr s) (hok : b.Ok D s c) {dir : IoDir} {f : Addr} {userdata : Option Addr}
    (hstep : b.step s c = some (.called a dir f userdata, s')) : ¬ Destroyed tr a := by
  obtain ⟨r', s'', hstep', hst⟩ := h.step hr.kept hr.inv hr.phase hok
  rw [hstep, Option.some_inj, Prod.mk.injEq] at hstep'
  intro hda
  exact ((hr.destroyed a).1 hda).2 (hst.called a dir f userdata hstep'.1.symm)

/-- No step gets stuck. -/
theorem isSome (hr : Reached b (I g) tr s) (hok : b.Ok D s c) : (b.step s c).isSome := by
  obtain ⟨r, s', hstep, -⟩ := h.step hr.kept hr.inv hr.phase hok
  exact Option.isSome_iff_exists.2 ⟨(r, s'), hstep⟩

end Lawful

namespace Reached

variable {J : PollLoop P → Prop} (h : Reached b J tr s)

include h

/-- **What was destroyed is freed once**, at the latest when the loop is over. -/
theorem count (ha : Destroyed tr a) : s.1.freed.count a + s.1.destroyedPollableList.count a = 1 := by
  obtain ⟨hlt, hl⟩ := (h.destroyed a).1 ha
  by_cases hm : a ∈ s.1.pollables.live
  · have hr := (live_or_removed hm).resolve_left hl
    rw [List.count_eq_zero_of_not_mem fun hf => ((h.kept.freed a).1 hf).2 hm,
      List.count_eq_one_of_mem h.kept.nodup ((h.kept.destroyed a).2 hr)]
  · rw [List.count_eq_one_of_mem h.kept.once ((h.kept.freed a).2 ⟨hlt, hm⟩),
      List.count_eq_zero_of_not_mem fun hd => hm ((h.kept.destroyed a).1 hd).mem_live]

theorem destroyed_of_freed (ha : a ∈ s.1.freed) : Destroyed tr a := by
  obtain ⟨hlt, hm⟩ := (h.kept.freed a).1 ha
  exact (h.destroyed a).2 ⟨hlt, fun hl => hm hl.mem_live⟩

/-- What may still be looked at is not freed. -/
theorem not_freed {e : E} (he : e ∈ s.2.batch) (hn : b.Named e) : b.ptr e ∉ s.1.freed := by
  intro hf
  exact ((h.kept.freed _).1 hf).2 (h.phase.batch e he hn)

end Reached

end Backend

end Mowgli
