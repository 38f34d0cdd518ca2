import Mowgli.Eventloop.Timer.Good
/-!
# The cached deadline

`deadline` is -1, or no timer is due before it, and that is how
`timeout_once` knows when it has called all timers that are due. A timer
that is added lowers it, and after each callback it is forgotten. The clock
does not go back, deadlines are not negative, and the callbacks destroy no
timers.
-/

namespace Mowgli

namespace Eventloop

open Store

variable {el el' : Eventloop} {xs xs' : List Addr} {a : Addr} {t : EventloopTimer} {w w' : Walk}
variable {c : Call} {r : Answer} {now : ℤ}

/-- The cached deadline is not past that of any timer. -/
structure Timely (el : Eventloop) (xs : List Addr) : Prop where
  good : Good el xs
  timer : ∀ a t, bodies el.timers a = some t → t.active = true ∧ 0 ≤ t.deadline ∧
    (t.frequency ≠ 0 → 0 ≤ el.getTime + t.frequency)
  cache : el.deadline = -1 ∨ ∀ a t, bodies el.timers a = some t → el.deadline ≤ t.deadline

theorem timely_create (currtime epochbias : ℤ) : Timely (create currtime epochbias) [] := by
  have hno : ∀ a, bodies (create currtime epochbias).timers a = none := by
    intro a
    rw [bodies, create, get_empty]
    rfl
  exact ⟨good_create _ _, fun a t h => by simp [hno] at h, Or.inl rfl⟩

/-- What `next_timer` answers: -1 where there are no timers, and nothing
past the deadline of any. -/
theorem Timely.cached (h : Timely el xs) :
    (el.cached xs = -1 → xs = []) ∧ ∀ a t, bodies el.timers a = some t → el.cached xs ≤ t.deadline := by
  rw [Eventloop.cached]
  split_ifs with hd
  · have hxs : ∀ a ∈ xs, ∃ t, bodies el.timers a = some t ∧ t.active = true ∧ 0 ≤ t.deadline := by
      intro a ha
      obtain ⟨t, -, hb, -⟩ := h.good.exists_body ha
      exact ⟨_, hb, (h.timer a _ hb).1, (h.timer a _ hb).2.1⟩
    obtain ⟨-, -, hne, hle⟩ := earliest_le (d := -1) le_rfl hxs
    refine ⟨fun he => ?_, fun a t hb => hle a (h.good.mem_of_body hb) t hb⟩
    by_contra hxs
    exact hne hxs he
  · exact ⟨fun he => absurd he hd, h.cache.resolve_left hd⟩

/-- The clock goes on. -/
theorem Timely.clock (h : Timely el xs) {d : ℤ} (hnow : el.currtime ≤ now)
    (hd : d = -1 ∨ ∀ a t, bodies el.timers a = some t → d ≤ t.deadline) :
    Timely { el with currtime := now, deadline := d } xs := by
  refine ⟨h.good.congr rfl rfl rfl, fun a t hb => ?_, hd⟩
  obtain ⟨hact, hpos, hfreq⟩ := h.timer a t hb
  refine ⟨hact, hpos, fun hf => (hfreq hf).trans ?_⟩
  simp only [getTime]
  omega

/-- The frequency of a timer that is added is how long from now it is, or 0. -/
theorem Call.adds_frequency {when frequency : ℤ} (h : c.adds = some (when, frequency)) :
    frequency = when ∨ frequency = 0 := by
  cases c with
  | add name func arg when' =>
    cases func with
    | none => cases h
    | some func =>
      obtain ⟨rfl, rfl⟩ := Prod.mk.inj (Option.some.inj h)
      exact Or.inl rfl
  | addOnce name func arg when' =>
    cases func with
    | none => cases h
    | some func =>
      obtain ⟨rfl, rfl⟩ := Prod.mk.inj (Option.some.inj h)
      exact Or.inr rfl
  | destroy a => cases h
  | nextTimer => cases h

/-- **A call** that adds a timer at no negative time keeps the cache right. -/
theorem Timely.call (h : Timely el xs) (hgood : Good el' xs')
    (hadd : ∀ when frequency, c.adds = some (when, frequency) → 0 ≤ el.getTime + when)
    (hspec : CallSpec el xs c r el' xs') : Timely el' xs' ∧ el'.getTime = el.getTime := by
  cases hspec with
  | @added when frequency d t₀ m l adds deadline timer body =>
    obtain ⟨htd, htf, hta⟩ := timer
    obtain ⟨-, rfl⟩ := timeAdd_eq_some.1 deadline
    have hpos := hadd _ _ adds
    refine ⟨⟨hgood, fun a t hb => ?_, ?_⟩, rfl⟩
    · dsimp only at hb
      rw [body, Function.update_apply] at hb
      split_ifs at hb with ha
      · obtain rfl := Option.some.inj hb
        refine ⟨hta, by omega, fun hf => ?_⟩
        rw [htf] at hf ⊢
        rw [(Call.adds_frequency adds).resolve_right hf]
        exact hpos
      · exact h.timer a t hb
    · dsimp only
      split_ifs with hlow
      · refine Or.inr fun a t hb => ?_
        rw [body, Function.update_apply] at hb
        split_ifs at hb with ha
        · obtain rfl := Option.some.inj hb
          exact htd.ge
        · exact hlow.2.trans (h.cache.resolve_left hlow.1 a t hb)
      · rcases h.cache with hnone | hle
        · exact Or.inl hnone
        · by_cases hnone : el.deadline = -1
          · exact Or.inl hnone
          · refine Or.inr fun a t hb => ?_
            rw [body, Function.update_apply] at hb
            split_ifs at hb with ha
            · obtain rfl := Option.some.inj hb
              rw [not_and, not_le] at hlow
              have := hlow hnone
              omega
            · exact hle a t hb
  | @destroyed a r m l call mem body =>
    have hsub : ∀ b t, bodies m b = some t → bodies el.timers b = some t := by
      intro b t hb
      rw [body, Function.update_apply] at hb
      split_ifs at hb
      exact hb
    exact ⟨⟨hgood, fun b t hb => h.timer b t (hsub b t hb),
      h.cache.imp_right fun hle b t hb => hle b t (hsub b t hb)⟩, rfl⟩
  | looked call => exact ⟨⟨hgood, h.timer, Or.inr h.cached.2⟩, rfl⟩
  | refused adds other log => exact ⟨⟨hgood, h.timer, h.cache⟩, rfl⟩

/-- **The end of a callback** forgets the cache. -/
theorem Timely.afterCallback (h : Timely el xs) (hw : w.currtime = el.getTime)
    (hrun : el.afterCallback w = some (el', w')) :
    (∃ xs', Timely el' xs') ∧ w'.currtime = el'.getTime ∧ el'.getTime = el.getTime := by
  obtain ⟨a, t, -, hb, hadv, hdead, hcurr, hbias, halloc, hor⟩ := h.good.afterCallback hrun
  have htime : el'.getTime = el.getTime := by rw [getTime, hcurr, hbias, getTime]
  refine ⟨?_, (advance_some hadv).1.trans (hw.trans htime.symm), htime⟩
  rcases hor with ⟨d, hf, hd, hlisted, hbody⟩ | ⟨-, hlisted, hbody⟩
  · obtain ⟨-, rfl⟩ := timeAdd_eq_some.1 hd
    refine ⟨xs, h.good.of_listed hlisted (fun _ hmem => hmem) halloc, fun b t' hb' => ?_, Or.inl hdead⟩
    rw [hbody, Function.update_apply] at hb'
    rw [htime]
    split_ifs at hb' with hba
    · obtain ⟨hact, -, hfreq⟩ := h.timer a t hb
      rw [← Option.some.inj hb']
      exact ⟨hact, hw ▸ hfreq hf, hfreq⟩
    · exact h.timer b t' hb'
  · refine ⟨_, h.good.of_listed hlisted (fun _ => List.mem_of_mem_erase) halloc, fun b t' hb' => ?_, Or.inl hdead⟩
    rw [hbody, Function.update_apply] at hb'
    rw [htime]
    split_ifs at hb'
    exact h.timer b t' hb'

/-! ## Runs -/

/-- The clock does not go back, no timer is added at a negative time, and
the callbacks destroy none. -/
def Clocked : Eventloop × Control → Step → Prop
  | (el, k), .call c => (∀ when frequency, c.adds = some (when, frequency) → 0 ≤ el.getTime + when) ∧
      ((∃ w timeout, k = .running w timeout) → ∀ a, c ≠ .destroy a)
  | (el, _), .synchronize now => el.currtime ≤ now
  | (el, _), .timeoutOnce _ now => el.currtime ≤ now
  | (el, _), .finish now => el.currtime ≤ now
  | _, _ => True

/-- What is on the stack goes with the event loop. -/
def ControlOk (el : Eventloop) (xs : List Addr) : Control → Prop
  | .idle => True
  | .running w _ => w.currtime = el.getTime
  | .polling p => p.currtime = el.getTime ∧ p.delay = el.deadline ∧ (p.delay = -1 → xs = []) ∧
      (p.delay ≠ -1 → p.currtime < p.delay) ∧ p.t = pollTime p.timeout p.delay p.currtime

/-- The invariant of the runs. -/
def Waking (s : Eventloop × Control) : Prop := ∃ xs, Timely s.1 xs ∧ ControlOk s.1 xs s.2

theorem Timely.timeoutLoop (h : Timely el xs) (timeout : ℤ) (hnow : el.currtime ≤ now)
    {s : Eventloop × Control} (hrun : el.timeoutLoop timeout now = some s) : Waking s := by
  rw [h.good.timeoutLoop] at hrun
  obtain rfl := Option.some.inj hrun
  refine ⟨xs, h.clock hnow (Or.inr h.cached.2), ?_⟩
  dsimp only
  split_ifs with hif
  · exact rfl
  · refine ⟨rfl, rfl, h.cached.1, fun hne => ?_, rfl⟩
    rw [not_and, not_le] at hif
    exact hif hne

/-- **One step.** -/
theorem Waking.step {s s' : Eventloop × Control} {c : Step} {r : Answer} (h : Waking s)
    (hok : Clocked s c) (hstep : step s c = some (r, s')) : Waking s' := by
  obtain ⟨el, k⟩ := s
  obtain ⟨el', k'⟩ := s'
  obtain ⟨xs, ht, hk⟩ := h
  cases ht.good.step_spec hstep with
  | call hrun hlisted hspec =>
    obtain ⟨ht', htime⟩ := ht.call (hspec.good ht.good hlisted) hok.1 hspec
    refine ⟨_, ht', ?_⟩
    cases k with
    | idle => trivial
    | running w k => exact hk.trans htime.symm
    | polling p => simp [Eventloop.step] at hstep
  | synchronize now => exact ⟨xs, ht.clock hok ht.cache, trivial⟩
  | runTimers => exact ⟨xs, ht, rfl⟩
  | loop hturn hrun =>
    rcases hturn with rfl | rfl
    · exact ht.timeoutLoop _ hok hrun
    · exact ht.timeoutLoop _ hok hrun
  | visit hrun =>
    obtain ⟨h₁, h₂, h₃, h₄, h₅, h₆⟩ := visit_timers hrun
    refine ⟨xs, ⟨ht.good.congr h₁ h₂ h₃, ?_, ?_⟩, h₆.trans (hk.trans h₅.symm)⟩
    · dsimp only
      rw [h₁, h₅]
      exact ht.timer
    · dsimp only
      rw [h₁, h₄]
      exact ht.cache
  | ret hrun =>
    obtain ⟨⟨xs', ht'⟩, hw', -⟩ := ht.afterCallback hk hrun
    exact ⟨xs', ht', hw'⟩
  | finish => exact ⟨xs, ht, trivial⟩
  | select => exact ⟨xs, ht, trivial⟩

theorem pollTime_of_le {delay currtime : ℤ} (hne : delay ≠ -1) (hlt : currtime < delay)
    (hle : (delay - currtime) * 1000 ≤ INT_MAX) : pollTime 0 delay currtime = (delay - currtime) * 1000 := by
  have hmax : (INT_MAX : ℤ) = 2147483647 := rfl
  rw [pollTime, if_neg (by simp), if_neg hne, toInt_of_range (by omega) (by omega)]

/-- **No timer is missed**: in every state a run reaches the cached deadline
is -1 or not past the deadline of any timer. So where `timeout_once` polls no
timer is due, and unless it was given how long it polls no longer than until
the earliest, that being as far ahead as an `int` of milliseconds reaches. -/
theorem runs_wake {currtime epochbias : ℤ} {tr : List (Step × Answer)} {k : Control}
    (h : Runs Clocked currtime epochbias tr (el, k)) :
    ∃ xs, EventloopTimer.nodeField.Holds el.timers el.timerList xs ∧ (∀ a, a ∈ el.timers.live ↔ a ∈ xs) ∧
      (∀ a ∈ xs, ∃ t, el.timers.get a = some t ∧ t.active = true ∧
        (el.deadline = -1 ∨ el.deadline ≤ t.deadline)) ∧
      ∀ p, k = .polling p → p.currtime = el.getTime ∧
        (∀ a ∈ xs, ∀ t, el.timers.get a = some t → p.currtime < t.deadline ∧ p.delay ≤ t.deadline) ∧
        (p.timeout = 0 →
          ∀ a ∈ xs, ∀ t, el.timers.get a = some t → (t.deadline - p.currtime) * 1000 ≤ INT_MAX →
            0 ≤ p.t ∧ p.t ≤ (t.deadline - p.currtime) * 1000) := by
  obtain ⟨xs, ht, hk⟩ := Run.invariant (I := Waking)
    (show Waking (create currtime epochbias, .idle) from ⟨[], timely_create _ _, trivial⟩)
    (fun hI hok hstep => hI.step hok hstep) h
  dsimp only at ht hk
  refine ⟨xs, ht.good.list, ht.good.live, fun a ha => ?_, ?_⟩
  · obtain ⟨t, hget, hb, -⟩ := ht.good.exists_body ha
    exact ⟨t, hget, (ht.timer a _ hb).1, ht.cache.imp_right fun hle => hle a (strip t) hb⟩
  rintro p rfl
  obtain ⟨hcurr, hdelay, hnil, hlt, htime⟩ := hk
  have hle : ∀ a ∈ xs, ∀ t, el.timers.get a = some t →
      p.delay ≠ -1 ∧ p.currtime < p.delay ∧ p.delay ≤ t.deadline := by
    intro a ha t hget
    have hne : p.delay ≠ -1 := fun he => by simp [hnil he] at ha
    refine ⟨hne, hlt hne, ?_⟩
    rw [hdelay]
    exact ht.cache.resolve_left (hdelay ▸ hne) a (strip t) (by rw [bodies, hget]; rfl)
  refine ⟨hcurr, fun a ha t hget => ?_, fun hzero a ha t hget hmax => ?_⟩
  · obtain ⟨-, h₁, h₂⟩ := hle a ha t hget
    exact ⟨h₁.trans_le h₂, h₂⟩
  · obtain ⟨h₁, h₂, h₃⟩ := hle a ha t hget
    have hmax' : (p.delay - p.currtime) * 1000 ≤ INT_MAX := by omega
    rw [htime, hzero, pollTime_of_le h₁ h₂ hmax']
    omega

/-- A timer one second from now, and the poll of `timeout_once` after it was added. -/
theorem runs_poll (timeout : ℤ) : ∃ el p t, Runs Clocked 0 0
      [(.call (.addOnce none (some 7) none 1), .timer (some 0)), (.timeoutOnce timeout 0, .unit)]
      (el, .polling p) ∧ el.timers.get 0 = some t ∧ t.active = true ∧ t.deadline = 1 ∧
        p.currtime = 0 ∧
        p.timeout = timeout ∧ p.t = pollTime timeout 1 0 := by
  have h : Runs Clocked 0 0 ([] ++ [(.call (.addOnce none (some 7) none 1), .timer (some 0))]) _ :=
    Run.nil.snoc ⟨fun when frequency hadd => by obtain ⟨rfl, -⟩ := Prod.mk.inj (Option.some.inj hadd); decide,
      by rintro ⟨w, k, hk⟩; cases hk⟩ rfl
  have h' : Runs Clocked 0 0 _ (_, .polling ⟨0, 1, timeout, pollTime timeout 1 0⟩) :=
    h.snoc (a := .timeoutOnce timeout 0) (b := .unit) (by simp only [Clocked]; exact le_rfl) rfl
  exact ⟨_, _, _, h', rfl, rfl, rfl, rfl, rfl, rfl⟩

/-- With a timer due in one second, `run_once` polls for no longer. -/
theorem runs_wake_once : ∃ tr el p t, Runs Clocked 0 0 tr (el, .polling p) ∧ el.timers.get 0 = some t ∧
    t.deadline = 1 ∧ p.currtime < t.deadline ∧ 0 ≤ p.t ∧ p.t ≤ 1000 := by
  obtain ⟨el, p, t, h, hget, -, hd, hcurr, htimeout, -⟩ := runs_poll 0
  obtain ⟨xs, -, hlive, -, hpoll⟩ := runs_wake h
  obtain ⟨-, hdue, htime⟩ := hpoll p rfl
  have hmem : 0 ∈ xs := (hlive 0).1 (mem_live.2 ⟨t, hget⟩)
  have hms : (t.deadline - p.currtime) * 1000 = 1000 := by rw [hd, hcurr]; rfl
  obtain ⟨h₁, h₂⟩ := htime htimeout 0 hmem t hget (by rw [hms]; decide)
  exact ⟨_, el, p, t, h, hget, hd, (hdue 0 hmem t hget).1, h₁, hms ▸ h₂⟩

/-- **Given how long to poll, `timeout_once` polls past the timers**: for a
minute, with a timer due in one second. -/
theorem runs_poll_past : ∃ tr el p t, Runs Clocked 0 0 tr (el, .polling p) ∧
    el.timers.get 0 = some t ∧ t.active = true ∧ (t.deadline - p.currtime) * 1000 < p.t := by
  obtain ⟨el, p, t, h, hget, hact, hd, hcurr, -, hp⟩ := runs_poll 60000
  refine ⟨_, el, p, t, h, hget, hact, ?_⟩
  rw [hd, hcurr, hp]
  decide

end Eventloop

end Mowgli
