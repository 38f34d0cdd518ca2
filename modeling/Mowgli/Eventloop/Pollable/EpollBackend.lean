import Mowgli.Eventloop.Pollable.Batch
import Mowgli.Eventloop.Pollable.Epoll
/-!
# An event loop on epoll

`epoll_wait` fills in a batch of events, each with the pollable it is for. The loop over
them is the one of all backends of the kind.
-/

namespace Mowgli

/-- `_mowgli_epoll_pollops`, and the tests of `mowgli_epoll_eventloop_select`. -/
def epollBackend : Backend EpollSet EpollEvent where
  ops := PollLoop.epollPollops
  ptr := EpollEvent.ptr
  Named _ := True
  wants e
    | .read => e.events &&& (EPOLLIN ||| EPOLLHUP ||| EPOLLERR) ≠ 0
    | .write => e.events &&& (EPOLLOUT ||| EPOLLHUP ||| EPOLLERR) ≠ 0
    | .error => false
  Hands k batch := ∀ e ∈ batch, ∃ fd i, k fd = some i ∧ i.ptr = e.ptr
  take k _ := k

namespace PollLoop

/-- Nothing is to be remembered. -/
def epollMemory : Memory Unit EpollEvent := ⟨(), fun _ _ => (), fun _ _ => ()⟩

theorem ctl_pollables (el : PollLoop EpollSet) (op : EpollOp) (fd : ℤ) (event : EpollEvent) (fmt : String) :
    (el.ctl op fd event fmt).pollables = el.pollables := by
  unfold ctl
  cases epollCtl el.poller op fd event with
  | ok k => rfl
  | error e =>
    dsimp only
    split_ifs <;> rfl

theorem ctl?_pollables (el : PollLoop EpollSet) (op : Option EpollOp) (fd : ℤ) (event : EpollEvent) (fmt : String) :
    (el.ctl? op fd event fmt).pollables = el.pollables := by
  cases op with
  | none => rfl
  | some op => exact el.ctl_pollables op fd event fmt

theorem selected_userdata (p : Pollable) (dir : IoDir) (f : Option Addr) : (selected p dir f).userdata = p.userdata := by
  have hclear : ∀ (f : Option Addr) (flag : BitVec 32) (p : Pollable), (clearFlag f flag p).userdata = p.userdata := by
    intro f flag p
    unfold clearFlag
    split_ifs <;> rfl
  unfold selected clearSlot
  rw [hclear, hclear]
  cases dir <;> rfl

theorem epollBackend_lawful : epollBackend.Lawful epollMemory (fun _ => Agreed) fun _ => True where
  create h hk hfd userdata := h.create hk hfd userdata fun _ => interest_of_zero
  setselect h ha dir f := by
    obtain ⟨p, hp, hr⟩ := ha
    exact h.setselect hp hr dir f
  destroy h hp hr _ := by
    refine ⟨_, _, epollDestroy_eq hp, ⟨Store.Same.set hp rfl, rfl, rfl, rfl, rfl⟩, Store.get_set_self ..,
      fun el'' hpoll hgone hget => h.drop hp hr hpoll hgone fun c hc => ?_⟩
    exact (hget c hc).trans (Store.get_set_of_ne _ _ hc)
  congr h hpoll hget := h.congr hpoll hget
  take h _ := h
  named _ := trivial
  live h hb e he _ := by
    obtain ⟨fd, i, hi, hptr⟩ := hb e he
    have hlive := h.live_ptr hi
    rwa [hptr] at hlive

/-! ## Runs -/

/-- The traces of a program with an event loop on epoll, with where they lead. -/
abbrev EpollRun : List (BatchStep EpollEvent × DispatchAnswer) → PollLoop EpollSet × BatchPhase EpollEvent → Prop :=
  epollBackend.BatchRun (fun _ => True) fun _ => none

variable {tr : List (BatchStep EpollEvent × DispatchAnswer)} {s : PollLoop EpollSet × BatchPhase EpollEvent}

theorem EpollRun.reached (h : EpollRun tr s) : Backend.Reached epollBackend Agreed tr s :=
  epollBackend_lawful.reached (m := epollMemory) (I := fun _ => Agreed) tracked_create h

/-- **The epoll backend, over whole runs.** The kernel polls each live
pollable for just what it has functions for; what is called was not
destroyed before; what was destroyed is freed once, at the latest when
the loop is over, and never while the loop still looks at it; and no
step gets stuck. -/
theorem runs_epoll (h : EpollRun tr s) :
    (∀ a p, s.1.pollables.get a = some p → p.removed = false → s.1.poller p.fd = interest a p) ∧
    (∀ c s' a dir f userdata, epollBackend.Ok (fun _ => True) s c →
      epollBackend.step s c = some (.called a dir f userdata, s') → ¬ Backend.Destroyed tr a) ∧
    (∀ a, Backend.Destroyed tr a → s.1.freed.count a + s.1.destroyedPollableList.count a = 1) ∧
    (∀ a ∈ s.1.freed, Backend.Destroyed tr a) ∧
    (s.2 = .idle → s.1.destroyedPollableList = []) ∧
    (∀ e ∈ s.2.batch, e.ptr ∉ s.1.freed) ∧
    ∀ c, epollBackend.Ok (fun _ => True) s c → (epollBackend.step s c).isSome := by
  have hr := h.reached
  refine ⟨hr.inv.mirrored.has, ?_, fun a => hr.count, fun a => hr.destroyed_of_freed, fun hi => (hr.phase.idle hi).2,
    fun e he => hr.not_freed he trivial, fun c => epollBackend_lawful.isSome (g := ()) hr⟩
  intro c s' a dir f userdata hok hstep
  exact epollBackend_lawful.not_destroyed (g := ()) hr hok hstep

/-- A run in which a callback destroys another pollable of its batch, whose
event comes next: nothing is called for it, and it is freed at the end. -/
theorem runs_epoll_two :
    ∃ tr s, EpollRun tr s ∧ Backend.Destroyed tr 1 ∧ s.1.freed.count 1 + s.1.destroyedPollableList.count 1 = 1 ∧
      s.2 = .idle ∧ s.1.destroyedPollableList = [] := by
  have h₂ : EpollRun _ _ := Backend.batchRun_create_create _ _ _
  have h₃ := h₂.snoc (a := .call (.setselect 0 .read (some 7))) (b := .returned none)
    (by exact ⟨rfl, _, rfl, rfl⟩) rfl
  have h₄ := h₃.snoc (a := .call (.setselect 1 .read (some 7))) (b := .returned none)
    (by exact ⟨rfl, _, rfl, rfl⟩) rfl
  have h₅ := h₄.snoc (a := .runOnce) (b := .returned none) (by exact rfl) rfl
  have h₆ := h₅.snoc (a := .wait [⟨EPOLLIN, 0⟩, ⟨EPOLLIN, 1⟩]) (b := .returned none)
    (by
      refine ⟨rfl, ?_⟩
      intro e he
      rcases List.mem_cons.1 he with rfl | he
      · exact ⟨5, _, rfl, rfl⟩
      · rw [List.mem_singleton.1 he]
        exact ⟨6, _, rfl, rfl⟩) rfl
  have h₇ := h₆.snoc (a := .visit) (b := .called 0 .read 7 none) (by exact Or.inl ⟨_, _, rfl⟩) rfl
  have h₈ := h₇.snoc (a := .call (.destroy 1)) (b := .returned none)
    (by exact ⟨rfl, _, rfl, fun _ => trivial⟩) rfl
  have h₉ := h₈.snoc (a := .ret) (b := .returned none) (by exact Or.inl ⟨_, _, rfl⟩) rfl
  have h₁₀ := h₉.snoc (a := .visit) (b := .returned none) (by exact Or.inr ⟨_, _, rfl⟩) rfl
  have h₁₁ := h₁₀.snoc (a := .visit) (b := .returned none) (by exact Or.inl ⟨_, _, rfl⟩) rfl
  have h₁₂ := h₁₁.snoc (a := .visit) (b := .returned none) (by exact Or.inr ⟨_, _, rfl⟩) rfl
  have h₁₃ := h₁₂.snoc (a := .finish false) (b := .returned none) (by exact rfl) rfl
  obtain ⟨-, -, hcount, -, hlist, -⟩ := runs_epoll h₁₃
  exact ⟨_, _, h₁₃, ⟨.returned none, by simp⟩, hcount 1 ⟨.returned none, by simp⟩, rfl, hlist rfl⟩

end PollLoop

end Mowgli
