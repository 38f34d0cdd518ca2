import Mowgli.Eventloop.Pollable.Batch
import Mowgli.Eventloop.Pollable.Kqueue
/-!
# An event loop on kqueue

`kevent` fills in a batch of events, one for a filter, with the `udata` of the
filter. As long as `destroy` leaves no filter behind the loop is safe; a
filter that it leaves behind has a pointer to a pollable that is freed, and
an event for it is all that it takes.
-/

namespace Mowgli

/-- An event as `kevent` fills it in. -/
structure KqueueEvent where
  ident : ℤ
  filter : BitVec 16
  udata : Addr

/-- `_mowgli_kqueue_pollops`, and the tests of `mowgli_kqueue_eventloop_select`. `kevent` has events of
filters that are there, and the filters stay there. -/
def kqueueBackend : Backend KqueueSet KqueueEvent where
  ops := PollLoop.kqueuePollops
  ptr := KqueueEvent.udata
  Named e := ∃ dir : IoDir, dir.filter = some e.filter
  wants e dir := dir.filter = some e.filter
  Hands k batch := ∀ e ∈ batch, k e.ident e.filter = some e.udata
  take k _ := k

namespace PollLoop

variable {el el' : PollLoop KqueueSet} {a : Addr} {p : Pollable}

/-- Nothing is to be remembered. -/
def kqueueMemory : Memory Unit KqueueEvent := ⟨(), fun _ _ => (), fun _ _ => ()⟩

/-- What the kernel has is for a live pollable. -/
theorem Filtered.live (h : el.Filtered) {fd : ℤ} {filter : BitVec 16} {udata : Addr}
    (hk : el.poller fd filter = some udata) : el.Live udata := by
  have hne : el.poller fd ≠ fun _ => none := fun heq => by
    rw [heq] at hk
    cases hk
  obtain ⟨a, p, hp, hr, -, hw⟩ := h.exists_live hne
  rw [hw] at hk
  exact ⟨p, wanted_eq_some hk ▸ hp, hr⟩

theorem kqueueBackend_lawful :
    kqueueBackend.Lawful kqueueMemory (fun _ => Filtered) fun p => p.writeFunction = none where
  create h hk hfd userdata := h.create hk hfd userdata
  setselect h ha dir f := h.setselect ha dir f
  destroy {_ el a p} h hp hr hw := by
    obtain ⟨el', hrun, hs, hstore, hpoll⟩ := kqueueDestroy_spec hp
    refine ⟨el', p, hrun, hs, hstore ▸ hp, fun el'' hpoll'' hgone hget => ?_⟩
    rw [hpoll, h.has a p hp hr] at hpoll''
    refine h.change hp hr (fun _ _ => rfl) hpoll'' (fun c hc => ?_) (fun q hq hqr => absurd ⟨q, hq, hqr⟩ hgone) fun _ => ?_
    · exact (hget c hc).trans (congrArg (·.get c) hstore)
    · exact update_wanted_eq_none_iff.2 hw
  congr h hpoll hget := h.congr hpoll hget
  take h _ := h
  named hw := ⟨_, of_decide_eq_true hw⟩
  live h hb e he _ := h.live (hb e he)

/-! ## Runs -/

/-- The traces of a program with an event loop on kqueue, with where they lead, where a live
pollable is destroyed only if `D` holds of it. -/
abbrev KqueueRun (D : Pollable → Prop) :
    List (BatchStep KqueueEvent × DispatchAnswer) → PollLoop KqueueSet × BatchPhase KqueueEvent → Prop :=
  kqueueBackend.BatchRun D fun _ _ => none

variable {tr : List (BatchStep KqueueEvent × DispatchAnswer)} {s : PollLoop KqueueSet × BatchPhase KqueueEvent}

theorem KqueueRun.reached (h : KqueueRun (fun p => p.writeFunction = none) tr s) :
    Backend.Reached kqueueBackend Filtered tr s :=
  kqueueBackend_lawful.reached (m := kqueueMemory) (I := fun _ => Filtered) mirrored_create h

/-- **Destroying `a` outside the loop, and the next round**: an event of `a` comes, and is looked at when `a` is freed,
which has no answer. -/
def ReadsFreed (s : PollLoop KqueueSet × BatchPhase KqueueEvent) (a : Addr) : Prop :=
  ∃ e s', e.udata = a ∧
    Run kqueueBackend.step (kqueueBackend.Ok fun _ => True) s
      [(.call (.destroy a), .returned none), (.runOnce, .returned none), (.wait [e], .returned none),
        (.visit, .returned none)] s' ∧
    a ∈ s'.1.freed ∧ s'.2 = .between e [] ∧ kqueueBackend.Ok (fun _ => True) s' .visit ∧
      kqueueBackend.step s' .visit = none

/-- **A filter that is left behind is the end of the loop.** A pollable with a write function is destroyed
outside the loop; in the next round its event is looked at. -/
theorem reached_stuck (h : Backend.Reached kqueueBackend Filtered tr s) (hi : s.2 = .idle)
    (hp : s.1.pollables.get a = some p) (hr : p.removed = false) (hw : p.writeFunction.isSome) : ReadsFreed s a := by
  obtain ⟨el, phase⟩ := s
  obtain rfl : phase = .idle := hi
  obtain ⟨el₁, hrun, hs, hstore, hpoll⟩ := kqueueDestroy_spec hp
  have hp₁ : el₁.pollables.get a = some p := hstore ▸ hp
  have hidle := hs.processing.trans (h.phase.idle rfl).1
  -- the filter for writing is still there
  have hleft : el₁.poller p.fd EVFILT_WRITE = some a := by
    obtain ⟨f, hf⟩ := Option.isSome_iff_exists.1 hw
    have hne : EVFILT_WRITE ≠ EVFILT_READ := by decide
    rw [hpoll, Function.update_self, Function.update_of_ne hne, h.inv.has a p hp hr, wanted, if_neg hne, if_pos rfl,
      hf]
    rfl
  let el₂ : PollLoop KqueueSet := { el₁ with pollables := el₁.pollables.free a, freed := el₁.freed ++ [a] }
  have hgone : el₂.pollables.get a = none := by
    rw [Store.get_free, if_pos rfl]
  let el₃ : PollLoop KqueueSet := { el₂ with processingEvents := true }
  let e : KqueueEvent := ⟨p.fd, EVFILT_WRITE, a⟩
  have hdestroy : kqueueBackend.step (el, .idle) (.call (.destroy a)) = some (.returned none, (el₂, .idle)) := by
    refine Backend.step_call (b := kqueueBackend) (s := (el, .idle)) rfl ?_
    exact congrArg (Option.map _) (pollableDestroy_idle kqueuePollops hp hr hrun hp₁ hidle)
  have h₁ : Run kqueueBackend.step (kqueueBackend.Ok fun _ => True) (el, .idle) _ (el₂, .idle) :=
    Run.one (by exact ⟨rfl, p, hp, fun _ => trivial⟩) hdestroy
  have h₂ : Run kqueueBackend.step (kqueueBackend.Ok fun _ => True) (el, .idle) _ (el₃, .timers) :=
    h₁.snoc (a := .runOnce) (b := .returned none) (by exact rfl) rfl
  have h₃ : Run kqueueBackend.step (kqueueBackend.Ok fun _ => True) (el, .idle) _ (el₃, .next [e]) :=
    h₂.snoc (a := .wait [e]) (b := .returned none)
      (by exact ⟨rfl, fun e' he' => (List.mem_singleton.1 he') ▸ hleft⟩) rfl
  have h₄ : Run kqueueBackend.step (kqueueBackend.Ok fun _ => True) (el, .idle) _ (el₃, .between e []) :=
    h₃.snoc (a := .visit) (b := .returned none) (by exact Or.inl ⟨e, [], rfl⟩) rfl
  refine ⟨e, _, rfl, h₄, List.mem_append_right _ List.mem_cons_self, rfl, Or.inr ⟨e, [], rfl⟩, ?_⟩
  have htest : kqueueBackend.test el₃ e .write = none := by
    have hwants : kqueueBackend.wants e .write = true := rfl
    rw [Backend.test, if_pos hwants]
    exact congrArg (Option.bind · _) hgone
  exact congrArg (Option.map _) htest

/-- **The kqueue backend, over whole runs.** As long as no live pollable is destroyed that has a write function,
what is called was not destroyed before; what was destroyed is freed once, at
the latest when the loop is over, and never while the loop still looks at it;
and no step gets stuck. Whatever live pollable with a write function is then destroyed
outside the loop, the next round may read it when it is freed. -/
theorem runs_kqueue (h : KqueueRun (fun p => p.writeFunction = none) tr s) :
    (∀ c s' a dir f userdata, kqueueBackend.Ok (fun p => p.writeFunction = none) s c →
      kqueueBackend.step s c = some (.called a dir f userdata, s') → ¬ Backend.Destroyed tr a) ∧
    (∀ a, Backend.Destroyed tr a → s.1.freed.count a + s.1.destroyedPollableList.count a = 1) ∧
    (∀ a ∈ s.1.freed, Backend.Destroyed tr a) ∧
    (s.2 = .idle → s.1.destroyedPollableList = []) ∧
    (∀ e ∈ s.2.batch, ∀ dir : IoDir, dir.filter = some e.filter → e.udata ∉ s.1.freed) ∧
    (∀ c, kqueueBackend.Ok (fun p => p.writeFunction = none) s c → (kqueueBackend.step s c).isSome) ∧
    (s.2 = .idle → ∀ a p, s.1.pollables.get a = some p → p.removed = false → p.writeFunction.isSome → ReadsFreed s a) := by
  have hr := h.reached
  refine ⟨?_, fun a => hr.count, fun a => hr.destroyed_of_freed, fun hi => (hr.phase.idle hi).2, fun e he dir hw => ?_,
    fun c => ?_, fun hi a p hp hrem hw => reached_stuck hr hi hp hrem hw⟩
  · intro c s' a dir f userdata hok hstep
    exact kqueueBackend_lawful.not_destroyed (g := ()) hr hok hstep
  · exact hr.not_freed he ⟨dir, hw⟩
  · exact kqueueBackend_lawful.isSome (g := ()) hr

/-- A pollable that is only read is destroyed by its callback, and freed at the end. The other one has a write
function, and may not be destroyed. -/
theorem runs_kqueue_two : ∃ tr s, KqueueRun (fun p => p.writeFunction = none) tr s ∧ Backend.Destroyed tr 0 ∧
    s.2 = .idle ∧ s.1.freed.count 0 + s.1.destroyedPollableList.count 0 = 1 ∧ s.1.destroyedPollableList = [] ∧
    ReadsFreed s 1 := by
  have h₂ : KqueueRun (fun p => p.writeFunction = none) _ _ := Backend.batchRun_create_create _ _ _
  have h₃ := h₂.snoc (a := .call (.setselect 0 .read (some 7))) (b := .returned none)
    (by exact ⟨rfl, _, rfl, rfl⟩) rfl
  have h₄ := h₃.snoc (a := .call (.setselect 1 .write (some 7))) (b := .returned none)
    (by exact ⟨rfl, _, rfl, rfl⟩) rfl
  have h₅ := h₄.snoc (a := .runOnce) (b := .returned none) (by exact rfl) rfl
  have h₆ := h₅.snoc (a := .wait [⟨5, EVFILT_READ, 0⟩]) (b := .returned none)
    (by
      refine ⟨rfl, fun e he => ?_⟩
      rw [List.mem_singleton.1 he]
      rfl) rfl
  have h₇ := h₆.snoc (a := .visit) (b := .called 0 .read 7 none) (by exact Or.inl ⟨_, _, rfl⟩) rfl
  have h₈ := h₇.snoc (a := .call (.destroy 0)) (b := .returned none) (by exact ⟨rfl, _, rfl, fun _ => rfl⟩) rfl
  have h₉ := h₈.snoc (a := .ret) (b := .returned none) (by exact Or.inl ⟨_, _, rfl⟩) rfl
  have h₁₀ := h₉.snoc (a := .visit) (b := .returned none) (by exact Or.inr ⟨_, _, rfl⟩) rfl
  have h₁₁ := h₁₀.snoc (a := .finish false) (b := .returned none) (by exact rfl) rfl
  obtain ⟨-, hcount, -, hlist, -, -, hreads⟩ := runs_kqueue h₁₁
  exact ⟨_, _, h₁₁, ⟨.returned none, by simp⟩, rfl, hcount 0 ⟨.returned none, by simp⟩, hlist rfl,
    hreads rfl 1 _ rfl rfl rfl⟩

end PollLoop

end Mowgli
