import Mowgli.Eventloop.Timer.Good
/-!
# How long the event loop polls

`timeout_once` makes milliseconds of the seconds until the cached deadline,
and an `int` of these. For `poll` and `epoll_wait` a negative number is no
timeout at all. A `time_t` that overflows is left undefined.
-/

namespace Mowgli

/-- Subtraction on a `time_t`. -/
def timeSub (x y : ℤ) : Option ℤ :=
  if -TIME_MAX - 1 ≤ x - y ∧ x - y ≤ TIME_MAX then some (x - y) else none

/-- Multiplication on a `time_t`. -/
def timeMul (x y : ℤ) : Option ℤ :=
  if -TIME_MAX - 1 ≤ x * y ∧ x * y ≤ TIME_MAX then some (x * y) else none

/-- An `int` of a number is what its low 32 bits are, where these are that of no
negative one. -/
theorem toInt_nonneg_iff {z : ℤ} : 0 ≤ toInt z ↔ z % 4294967296 ≤ INT_MAX := by
  rw [toInt, Int.bmod_def]
  have hmax : (INT_MAX : ℤ) = 2147483647 := rfl
  split_ifs <;> omega

theorem toInt_eq_mod {z : ℤ} (h : z % 4294967296 ≤ INT_MAX) : toInt z = z % 4294967296 := by
  rw [toInt, Int.bmod_def]
  have hmax : (INT_MAX : ℤ) = 2147483647 := rfl
  split_ifs <;> omega

namespace Eventloop

/-- `t` of `timeout_once`, where it is not left undefined. -/
def pollPeriod (timeout delay currtime : ℤ) : Option ℤ :=
  if timeout ≠ 0 then some timeout
  else if delay = -1 then some 5000
  else do
    let seconds ← timeSub delay currtime
    let ms ← timeMul seconds 1000
    some (toInt ms)

theorem pollPeriod_eq_some {timeout delay currtime t : ℤ} (h : pollPeriod timeout delay currtime = some t) :
    pollTime timeout delay currtime = t := by
  rw [pollTime]
  rw [pollPeriod] at h
  split_ifs at h ⊢
  · exact Option.some.inj h
  · exact Option.some.inj h
  · obtain ⟨seconds, hs, h⟩ := Option.bind_eq_some_iff.1 h
    obtain ⟨ms, hm, h⟩ := Option.bind_eq_some_iff.1 h
    rw [timeSub] at hs
    rw [timeMul] at hm
    split_ifs at hs hm
    obtain rfl := Option.some.inj hs
    obtain rfl := Option.some.inj hm
    exact Option.some.inj h

/-- A deadline that is ahead is taken for milliseconds, if a `time_t` has them. -/
theorem pollPeriod_ahead {delay currtime : ℤ} (hne : delay ≠ -1) (hlt : currtime < delay) :
    pollPeriod 0 delay currtime =
      if (delay - currtime) * 1000 ≤ TIME_MAX then some (toInt ((delay - currtime) * 1000)) else none := by
  have hmax : TIME_MAX = 9223372036854775807 := rfl
  rw [pollPeriod, if_neg (by simp), if_neg hne, timeSub]
  by_cases hs : delay - currtime ≤ TIME_MAX
  · rw [if_pos ⟨by omega, hs⟩]
    dsimp only [Option.bind_eq_bind, Option.bind_some]
    rw [timeMul]
    split_ifs <;> first | rfl | omega
  · rw [if_neg fun h => hs h.2, if_neg (by omega)]
    rfl

/-- A timer that is active. -/
def Waits (el : Eventloop) (t : EventloopTimer) : Prop := ∃ a, el.timers.get a = some t ∧ t.active = true

/-- **The poll is not past a deadline**: its period is defined and not negative, no
longer than until any timer, and 5 seconds where there is none. -/
structure Prompt (el : Eventloop) (p : Poll) : Prop where
  period : pollPeriod p.timeout p.delay p.currtime = some p.t
  nonneg : 0 ≤ p.t
  early : ∀ t, el.Waits t → p.t ≤ (t.deadline - p.currtime) * 1000
  idle : (∀ t, ¬ el.Waits t) → p.t ≤ 5000

/-- The milliseconds until the cached deadline, their low 32 bits. -/
def low (el : Eventloop) (now : ℤ) : ℤ := (el.deadline - now) * 1000 % 4294967296

/-- Without a cached deadline no timer is due in 5 seconds. With one, it is as far
ahead as can be told: a `time_t` has the milliseconds, and an `int` their low
bits; and these are not too much for a timer before it, or without timers. -/
def Within (el : Eventloop) (now : ℤ) : Prop :=
  (el.deadline = -1 → ∀ t, el.Waits t → now + 5 ≤ t.deadline) ∧
  (el.deadline ≠ -1 → (el.deadline - now) * 1000 ≤ TIME_MAX ∧ el.low now ≤ INT_MAX ∧
    (∀ t, el.Waits t → t.deadline < el.deadline → el.low now ≤ (t.deadline - now) * 1000) ∧
    ((∀ t, ¬ el.Waits t) → el.low now ≤ 5000))

/-! ## Runs -/

/-- A poll goes with the event loop. -/
def Polls (s : Eventloop × Control) : Prop :=
  ∀ p, s.2 = .polling p → p.currtime = s.1.getTime ∧ p.delay = s.1.deadline ∧
    (p.delay ≠ -1 → p.currtime < p.delay) ∧ p.t = pollTime p.timeout p.delay p.currtime

variable {el el' : Eventloop} {xs : List Addr}

theorem Good.polls (h : Good el xs) {timeout now : ℤ} {s : Eventloop × Control}
    (hrun : el.timeoutLoop timeout now = some s) : Polls s := by
  rw [h.timeoutLoop] at hrun
  obtain rfl := Option.some.inj hrun
  intro p hp
  dsimp only at hp
  split_ifs at hp with hif
  obtain rfl := Control.polling.inj hp
  rw [not_and, not_le] at hif
  exact ⟨rfl, rfl, hif, rfl⟩

/-- **Every step** that leads to a poll is the end of `timeout_once`. -/
theorem Good.step_polls {s s' : Eventloop × Control} {c : Step} {r : Answer} (h : Good s.1 xs)
    (hstep : Eventloop.step s c = some (r, s')) : Polls s' := by
  obtain ⟨el, k⟩ := s
  obtain ⟨el', k'⟩ := s'
  have hno : ∀ k : Control, (∀ p, k ≠ .polling p) → Polls (el', k) := fun k hk p hp => absurd hp (hk p)
  cases h.step_spec hstep with
  | call =>
    refine hno _ fun p hp => ?_
    rw [hp] at hstep
    cases hstep
  | synchronize => exact hno _ nofun
  | runTimers => exact hno _ nofun
  | loop _ hrun => exact h.polls hrun
  | visit => exact hno _ nofun
  | ret => exact hno _ nofun
  | finish => exact hno _ nofun
  | select => exact hno _ nofun

variable {ok : Eventloop × Control → Step → Prop} {currtime epochbias : ℤ} {tr : List (Step × Answer)}

theorem Runs.polls {s : Eventloop × Control} (h : Runs ok currtime epochbias tr s) : Polls s := by
  refine (Run.invariant (I := fun s => (∃ xs, Good s.1 xs) ∧ Polls s) ⟨⟨[], good_create _ _⟩, ?_⟩ ?_ h).2
  · intro p hp
    cases hp
  rintro s a r s' ⟨⟨xs, hgood⟩, -⟩ - hstep
  exact ⟨hgood.step hstep, hgood.step_polls hstep⟩

/-- **How long `timeout_once` polls**, in every run, whatever the clock and the
callbacks do. -/
theorem runs_prompt_iff {p : Poll} (h : Runs ok currtime epochbias tr (el, .polling p)) (hzero : p.timeout = 0) :
    Prompt el p ↔ Within el p.currtime := by
  obtain ⟨-, hdelay, hlt, htime⟩ := h.polls p rfl
  dsimp only at hdelay
  rw [hzero] at htime
  by_cases hnone : p.delay = -1
  · have ht : p.t = 5000 := by rw [htime, pollTime, if_neg (by simp), if_pos hnone]
    have hd : el.deadline = -1 := hdelay ▸ hnone
    constructor
    · intro hp
      refine ⟨fun _ t hw => ?_, fun hne => absurd hd hne⟩
      have := hp.early t hw
      omega
    · intro hw
      refine ⟨?_, by omega, fun t ht' => ?_, fun _ => ht.le⟩
      · rw [hzero, pollPeriod, if_neg (by simp), if_pos hnone, ht]
      · have := hw.1 hd t ht'
        omega
  · have hahead := hlt hnone
    have hd : el.deadline ≠ -1 := hdelay ▸ hnone
    have ht : p.t = toInt ((el.deadline - p.currtime) * 1000) := by
      rw [htime, pollTime, if_neg (by simp), if_neg hnone, hdelay]
    have hperiod : pollPeriod p.timeout p.delay p.currtime = some p.t ↔ (el.deadline - p.currtime) * 1000 ≤ TIME_MAX := by
      rw [hzero, pollPeriod_ahead hnone hahead, hdelay, ht]
      split_ifs with hmax <;> simp [hmax]
    have hle : el.low p.currtime ≤ (el.deadline - p.currtime) * 1000 := by
      unfold low
      omega
    constructor
    · intro hp
      have hl : el.low p.currtime ≤ INT_MAX := toInt_nonneg_iff.1 (ht ▸ hp.nonneg)
      have hlow : p.t = el.low p.currtime := ht.trans (toInt_eq_mod hl)
      refine ⟨fun h => absurd h hd, fun _ => ⟨hperiod.1 hp.period, hl, fun t hw _ => ?_, fun hno => ?_⟩⟩
      · exact hlow ▸ hp.early t hw
      · exact hlow ▸ hp.idle hno
    · intro hw
      obtain ⟨hmax, hl, hbefore, hidle⟩ := hw.2 hd
      have hlow : p.t = el.low p.currtime := ht.trans (toInt_eq_mod hl)
      refine ⟨hperiod.2 hmax, ht ▸ toInt_nonneg_iff.2 hl, fun t hwt => ?_, fun hno => hlow ▸ hidle hno⟩
      rw [hlow]
      by_cases hbef : t.deadline < el.deadline
      · exact hbefore t hwt hbef
      · omega

/-- A timer 2147484 seconds from now, and the poll after it was added. -/
theorem runs_far : ∃ el p, Runs (fun _ _ => True) 0 0
      [(.call (.addOnce none (some 7) none 2147484), .timer (some 0)), (.timeoutOnce 0 0, .unit)] (el, .polling p) ∧
    p.timeout = 0 ∧ p.t = -2147483296 := by
  have h : Runs (fun _ _ => True) 0 0 ([] ++ [(.call (.addOnce none (some 7) none 2147484), .timer (some 0))]) _ :=
    Run.nil.snoc trivial rfl
  have h' : Runs (fun _ _ => True) 0 0 _ (_, .polling ⟨0, 2147484, 0, pollTime 0 2147484 0⟩) :=
    h.snoc (a := .timeoutOnce 0 0) (b := .unit) trivial rfl
  exact ⟨_, _, h', rfl, by decide⟩

theorem runs_prompt_iff_far : ∃ el p, Runs (fun _ _ => True) 0 0
      [(.call (.addOnce none (some 7) none 2147484), .timer (some 0)), (.timeoutOnce 0 0, .unit)] (el, .polling p) ∧
    ¬ Within el p.currtime := by
  obtain ⟨el, p, h, hzero, ht⟩ := runs_far
  refine ⟨el, p, h, fun hw => ?_⟩
  have := ((runs_prompt_iff h hzero).2 hw).nonneg
  omega

/-- **The poll waits forever**: its period is negative, with a timer ahead. -/
theorem runs_poll_forever : ∃ tr el p, Runs (fun _ _ => True) 0 0 tr (el, .polling p) ∧ p.timeout = 0 ∧ p.t < 0 ∧
    ¬ Prompt el p := by
  obtain ⟨el, p, h, hzero, ht⟩ := runs_far
  refine ⟨_, el, p, h, hzero, by omega, fun hp => ?_⟩
  have := hp.nonneg
  omega

end Eventloop

end Mowgli
