import Mowgli.Eventloop.Timer.Pass
/-!
# The loop of `timeout_once` ends

Where the clock stands still and the callbacks add no timers, one pass is
enough: it calls every timer that is due, forgets the cached deadline, and
leaves timers that are all due later. That a pass calls something at all is
what the loop goes by, and it need not be so: destroying a timer leaves its
deadline in the cache, and as long as no other timer is due the loop then
runs in place.
-/

namespace Mowgli

namespace Eventloop

open Store

variable {el₀ el el' : Eventloop} {xs₀ xs ys rest : List Addr} {a b : Addr} {t : EventloopTimer}
variable {w w' : Walk} {c : Call} {r : Answer} {tr : List (Step × Answer)} {now timeout : ℤ}

/-- How many passes have ended. -/
def finishes (tr : List (Step × Answer)) : ℕ :=
  tr.countP fun
    | (.finish _, _) => true
    | _ => false

/-- The steps of `timeout_once` where the clock reads `now`, the passes are
careful and the callbacks add no timers. -/
def Steady (now : ℤ) : Eventloop × Control → Step → Prop
  | _, .finish now' => now' = now
  | s, .call c => Careful s (.call c) ∧ c.adds = none
  | s, c => Careful s c

/-- The cached deadline is none, or later than `now`, or some timer is due. -/
def Fresh (el : Eventloop) (now : ℤ) : Prop :=
  el.deadline = -1 ∨ el.epochbias + now < el.deadline ∨
    ∃ a t, el.timers.get a = some t ∧ t.active = true ∧ t.deadline ≤ el.epochbias + now

/-- Each timer called more than once is called at most every second. -/
def Periodic (el : Eventloop) : Prop :=
  ∀ a t, bodies el.timers a = some t → t.frequency ≠ 0 → 1 ≤ t.frequency

/-- A call that adds no timer does not answer one. -/
theorem added_of_adds (hc : c.adds = none) (hrun : c.run el = some (r, el')) :
    added [(.call c, r)] = [] := by
  cases c with
  | add name func arg when =>
    cases func with
    | none =>
      obtain ⟨rfl, -⟩ := Prod.mk.inj (Option.some.inj hrun)
      rfl
    | some func => cases hc
  | addOnce name func arg when =>
    cases func with
    | none =>
      obtain ⟨rfl, -⟩ := Prod.mk.inj (Option.some.inj hrun)
      rfl
    | some func => cases hc
  | destroy b =>
    obtain ⟨el₁, -, heq⟩ := Option.map_eq_some_iff.1 hrun
    obtain ⟨rfl, -⟩ := Prod.mk.inj heq
    rfl
  | nextTimer =>
    obtain ⟨p, -, heq⟩ := Option.map_eq_some_iff.1 hrun
    obtain ⟨rfl, -⟩ := Prod.mk.inj heq
    rfl

/-- What `next_timer` finds where it has to look is the deadline of a timer. -/
theorem cached_of_none (hd : el.deadline = -1) (hne : el.cached xs ≠ -1) :
    ∃ a ∈ xs, ∃ t, bodies el.timers a = some t ∧ t.active = true ∧ el.cached xs = t.deadline := by
  rw [cached, if_pos hd] at hne ⊢
  exact (earliest_mem (bodies el.timers) xs (-1)).resolve_left hne

/-- **After a pass** that had something to call, no timer is due. -/
theorem PassInv.cached_later (h : PassInv el₀ xs₀ tr el w ys rest) (hw : w.timer = none) (hn : w.n = none)
    (hadd : added tr = []) (hfreq : Periodic el₀) (hdue : ∃ a ∈ xs₀, Due el₀ a) :
    el.cached (ys ++ w.timer.toList ++ rest) = -1 ∨
      el.getTime < el.cached (ys ++ w.timer.toList ++ rest) := by
  have hret : Eventloop.fired tr = returned tr := by
    rw [h.fired, hw]
    exact List.append_nil _
  have hne : returned tr ≠ [] := by
    obtain ⟨a, ha, hd⟩ := hdue
    intro hnil
    rcases h.fired_of_due hw hn ha hd with hf | hdes
    · rw [hret, hnil] at hf
      cases hf
    · rw [h.quiet (hret.trans hnil)] at hdes
      cases hdes
  have hdead : el.deadline = -1 := (h.deadline hw).trans (if_neg hne)
  by_contra hcon
  rw [not_or] at hcon
  obtain ⟨a, ha, t, hb, hact, heq⟩ := cached_of_none hdead hcon.1
  obtain ⟨hin, hkept⟩ := h.mem_kept ha
  rw [hadd, List.append_nil] at hin
  obtain ⟨t₀, hb₀, ht⟩ := h.old a (h.start.old a hin) t hb
  obtain ⟨hdes, honce⟩ := kept_iff.1 hkept
  rw [heq, h.getTime_eq] at hcon
  refine hcon.2 ?_
  split_ifs at ht with hr
  · have hf : t₀.frequency ≠ 0 := fun hf => honce ⟨hr, by rw [once, hb₀]; simpa using hf⟩
    have := hfreq a t₀ hb₀ hf
    rw [ht]
    dsimp only
    omega
  · rw [ht] at hact ⊢
    by_contra hle
    rcases h.fired_of_due hw hn hin ⟨t₀, hb₀, hact, not_lt.1 hle⟩ with hf | hd
    · exact hr (hret ▸ hf)
    · exact hdes hd

/-- Where the loop is: in its only pass, or past it. -/
def LoopInv (el₀ : Eventloop) (xs₀ : List Addr) (timeout : ℤ) (tr : List (Step × Answer))
    (s : Eventloop × Control) : Prop :=
  (∃ el w ys rest, s = (el, .running w (some timeout)) ∧ PassInv el₀ xs₀ tr el w ys rest ∧
      added tr = [] ∧ finishes tr = 0) ∨
    ∃ el p, s = (el, .polling p) ∧ (p.delay = -1 ∨ p.currtime < p.delay) ∧
      visits tr ≤ xs₀.length ∧ finishes tr ≤ 1

theorem added_append (tr : List (Step × Answer)) (x : Step × Answer) :
    added (tr ++ [x]) = added tr ++ added [x] := List.filterMap_append

theorem finishes_append (tr : List (Step × Answer)) (x : Step × Answer) :
    finishes (tr ++ [x]) = finishes tr + finishes [x] := List.countP_append

/-- A step of the pass. -/
theorem LoopInv.pass {c : Step} {s : Eventloop × Control} (h : PassInv el₀ xs₀ tr el w ys rest)
    (hadd : added tr = []) (hfin : finishes tr = 0) (hok : Careful (el, .running w (some timeout)) c)
    (hadds : ∀ c', c = .call c' → c'.adds = none) (hc : ∀ now, c ≠ .finish now)
    (hstep : step (el, .running w (some timeout)) c = some (r, s)) :
    LoopInv el₀ xs₀ timeout (tr ++ [(c, r)]) s := by
  obtain ⟨r', el', w', ys', rest', hstep', h', -⟩ := h.step hok (turn_of_step hok hstep)
  obtain ⟨rfl, rfl⟩ := Prod.mk.inj (Option.some.inj (hstep.symm.trans hstep'))
  refine Or.inl ⟨el', w', ys', rest', rfl, h', ?_, ?_⟩
  · rw [added_append, hadd, List.nil_append]
    cases c with
    | call c =>
      simp only [Eventloop.step, Option.bind_eq_bind] at hstep
      split_ifs at hstep
      obtain ⟨⟨r₁, el₁⟩, hrun, heq⟩ := Option.bind_eq_some_iff.1 hstep
      obtain ⟨rfl, -⟩ := Prod.mk.inj (Option.some.inj heq)
      exact added_of_adds (hadds c rfl) hrun
    | finish now => exact absurd rfl (hc now)
    | _ => rfl
  · rw [finishes_append, hfin]
    cases c with
    | finish now => exact absurd rfl (hc now)
    | _ => rfl

/-- Nothing more happens once the loop polls. -/
theorem not_step_polling {c : Step} {p : Poll} {s : Eventloop × Control}
    (hok : Steady now (el, .polling p) c) : step (el, .polling p) c ≠ some (r, s) := by
  intro hstep
  cases c with
  | call c => exact hok.1
  | finish now' => cases hstep
  | _ => exact hok

/-- **One step** of the loop. -/
theorem LoopInv.step {c : Step} {s s' : Eventloop × Control} (h : LoopInv el₀ xs₀ timeout tr s)
    (hnow : el₀.currtime = now) (hfreq : Periodic el₀) (hdue : ∃ a ∈ xs₀, Due el₀ a)
    (hok : Steady now s c) (hstep : step s c = some (r, s')) :
    LoopInv el₀ xs₀ timeout (tr ++ [(c, r)]) s' := by
  rcases h with ⟨el, w, ys, rest, rfl, h, hadd, hfin⟩ | ⟨el, p, rfl, -⟩
  · cases c with
    | call c => exact LoopInv.pass h hadd hfin hok.1 (fun c' hc => by cases hc; exact hok.2) (by simp) hstep
    | visit => exact LoopInv.pass h hadd hfin hok (by simp) (by simp) hstep
    | ret => exact LoopInv.pass h hadd hfin hok (by simp) (by simp) hstep
    | finish now' =>
      obtain rfl : now' = now := hok
      simp only [Eventloop.step, Option.bind_eq_bind] at hstep
      split_ifs at hstep with hif
      rw [not_or, Option.not_isSome_iff_eq_none, Option.not_isSome_iff_eq_none] at hif
      obtain ⟨q, hloop, heq⟩ := Option.bind_eq_some_iff.1 hstep
      rw [h.good.timeoutLoop] at hloop
      obtain rfl := Option.some.inj hloop
      obtain ⟨-, rfl⟩ := Prod.mk.inj (Option.some.inj heq)
      have htime : el.epochbias + now' = el.getTime := by rw [getTime, h.clock.2.1, hnow]
      have hlater := h.cached_later hif.1 hif.2 hadd hfreq hdue
      rw [htime, if_neg (by rw [not_and, not_le]; exact hlater.resolve_left)]
      have hvis := h.visits
      rw [hadd, List.length_nil] at hvis
      refine Or.inr ⟨_, _, rfl, hlater, ?_, ?_⟩
      · have : visits (tr ++ [(.finish now', r)]) = visits tr := by
          rw [visits, visits, List.countP_append]
          rfl
        omega
      · rw [finishes_append, hfin]
        exact le_rfl
    | synchronize now => exact absurd hok id
    | runTimers => exact absurd hok id
    | timeoutOnce timeout now => exact absurd hok id
    | select => exact absurd hok id
  · exact absurd hstep (not_step_polling hok)

theorem run_polling {p : Poll} {s : Eventloop × Control}
    (h : Run step (Steady now) (el, .polling p) tr s) : tr = [] ∧ s = (el, .polling p) := by
  induction h with
  | nil => exact ⟨rfl, rfl⟩
  | snoc _ hok hstep ih =>
    obtain ⟨-, rfl⟩ := ih
    exact absurd hstep (not_step_polling hok)

/-- What the loop goes by, where the cached deadline is not left over from a
timer that is gone. -/
theorem Good.exists_due (h : Good el xs) (hfresh : Fresh el now) (hne : el.cached xs ≠ -1)
    (hle : el.cached xs ≤ el.epochbias + now) :
    ∃ a ∈ xs, Due { el with currtime := now, deadline := el.cached xs } a := by
  by_cases hd : el.deadline = -1
  · obtain ⟨a, ha, t, hb, hact, heq⟩ := cached_of_none hd hne
    exact ⟨a, ha, t, hb, hact, heq ▸ hle⟩
  · rw [cached, if_neg hd] at hle
    obtain ⟨a, t, hget, hact, hdue⟩ := (hfresh.resolve_left hd).resolve_left (not_lt.2 hle)
    exact ⟨a, h.mem_of_get hget, strip t, by rw [bodies, hget]; rfl, hact, hdue⟩

/-- **`timeout_once` comes to an end**: where the clock stands still, the
callbacks add no timers and no cached deadline is left over, the loop visits
each timer at most once before it polls. Until then its next step is
answered. -/
theorem timeoutOnce_terminates (timeout now : ℤ) {currtime epochbias : ℤ} {tr₀ : List (Step × Answer)}
    (hreach : Runs (fun _ _ => True) currtime epochbias tr₀ (el, .idle))
    (hfreq : ∀ a t, el.timers.get a = some t → t.frequency ≠ 0 → 1 ≤ t.frequency)
    (hfresh : Fresh el now) : ∃ s₀, step (el, .idle) (.timeoutOnce timeout now) = some (.unit, s₀) ∧
      ∀ tr s, Run step (Steady now) s₀ tr s → visits tr ≤ el.timers.live.card ∧ finishes tr ≤ 1 ∧
        ((∃ p, s.2 = .polling p ∧ (p.delay = -1 ∨ p.currtime < p.delay)) ∨
          ∃ w, s.2 = .running w (some timeout) ∧
            ∀ c, Steady now s c → Turn w c → ∃ r s', step s c = some (r, s')) := by
  obtain ⟨xs, hgood⟩ := hreach.good
  have hcard : xs.length ≤ el.timers.live.card := by
    rw [← List.toFinset_card_of_nodup hgood.list.nodup]
    exact Finset.card_le_card fun a ha => (hgood.live a).2 (List.mem_toFinset.1 ha)
  have hgood₀ : Good { el with currtime := now, deadline := el.cached xs } xs := hgood.congr rfl rfl rfl
  have hfreq₀ : Periodic { el with currtime := now, deadline := el.cached xs } := by
    intro a t hb hf
    obtain ⟨t', hget, rfl⟩ := exists_of_bodies hb
    exact hfreq a t' hget hf
  refine ⟨_, by rw [Eventloop.step, hgood.timeoutLoop]; rfl, fun tr s hrun => ?_⟩
  have hinv : LoopInv { el with currtime := now, deadline := el.cached xs } xs timeout tr s := by
    split_ifs at hrun with hif
    · have hdue := hgood.exists_due hfresh hif.1 hif.2
      induction hrun with
      | nil => exact Or.inl ⟨_, _, [], xs, rfl, passInv_begin hgood₀, rfl, rfl⟩
      | snoc _ hok hstep ih => exact ih.step rfl hfreq₀ hdue hok hstep
    · rw [not_and, not_le] at hif
      obtain ⟨rfl, rfl⟩ := run_polling hrun
      exact Or.inr ⟨_, _, rfl, or_iff_not_imp_left.2 hif, Nat.zero_le _, Nat.zero_le _⟩
  rcases hinv with ⟨el', w, ys, rest, rfl, h, hadd, hfin⟩ | ⟨el', p, rfl, hp, hvis, hfin⟩
  · have hvis := h.visits
    rw [hadd, List.length_nil] at hvis
    refine ⟨by omega, by omega, Or.inr ⟨w, rfl, fun c hok hturn => ?_⟩⟩
    cases c with
    | finish now' =>
      have hover : ¬(w.timer.isSome = true ∨ w.n.isSome = true) := by rw [hturn.1, hturn.2]; simp
      have hstep : step (el', .running w (some timeout)) (.finish now') =
          (el'.timeoutLoop timeout now').bind fun q => some (.unit, q.1, q.2) := if_neg hover
      rw [h.good.timeoutLoop] at hstep
      exact ⟨_, _, hstep⟩
    | call c =>
      obtain ⟨r, el', w', -, -, hstep, -⟩ := h.step hok.1 hturn
      exact ⟨r, _, hstep⟩
    | visit =>
      obtain ⟨r, el', w', -, -, hstep, -⟩ := h.step (k := some timeout) (c := .visit) hok hturn
      exact ⟨r, _, hstep⟩
    | ret =>
      obtain ⟨r, el', w', -, -, hstep, -⟩ := h.step (k := some timeout) (c := .ret) hok hturn
      exact ⟨r, _, hstep⟩
    | _ => exact absurd hok id
  · exact ⟨hvis.trans hcard, hfin, Or.inl ⟨p, rfl, hp⟩⟩

/-- For three timers that are due, one of which is called again and again, one pass is enough. -/
theorem timeoutOnce_terminates_three :
    ∃ s₀, step (threeTimers, .idle) (.timeoutOnce 0 5) = some (.unit, s₀) ∧
      ∀ tr s, Run step (Steady 5) s₀ tr s → visits tr ≤ 3 ∧ finishes tr ≤ 1 := by
  have h₁ : Runs (fun _ _ => True) 0 0 ([] ++ [(.call (.addOnce none (some 7) none 1), .timer (some 0))]) _ :=
    Run.nil.snoc trivial rfl
  have h₂ := h₁.snoc (a := .call (.add none (some 8) none 2)) (b := .timer (some 1)) trivial rfl
  have h₃ := h₂.snoc (a := .call (.addOnce none (some 9) none 3)) (b := .timer (some 2)) trivial rfl
  have hreach : Runs (fun _ _ => True) 0 0 _ (threeTimers, .idle) :=
    h₃.snoc (a := .synchronize 5) (b := .unit) trivial rfl
  have hfreq : ∀ a t, threeTimers.timers.get a = some t → t.frequency ≠ 0 → 1 ≤ t.frequency := by
    intro a t hget hf
    have hmem := good_threeTimers.mem_of_get hget
    simp only [List.mem_cons, List.not_mem_nil, or_false] at hmem
    rcases hmem with rfl | rfl | rfl
    · exact absurd (congrArg (fun o => (o.map EventloopTimer.frequency).getD 0) hget).symm hf
    · have htwo : t.frequency = 2 := (congrArg (fun o => (o.map EventloopTimer.frequency).getD 0) hget).symm
      omega
    · exact absurd (congrArg (fun o => (o.map EventloopTimer.frequency).getD 0) hget).symm hf
  obtain ⟨s₀, hstep, hrun⟩ := timeoutOnce_terminates 0 5 hreach hfreq (Or.inl rfl)
  refine ⟨s₀, hstep, fun tr s h => ?_⟩
  obtain ⟨hvis, hfin, -⟩ := hrun tr s h
  exact ⟨hvis, hfin⟩

/-! ## A deadline that is left over -/

/-- The loop goes round where a pass leads back to where it began. -/
theorem exists_run_of_cycle {s₁ s₂ : Eventloop × Control} (hok : Steady now s₁ .visit)
    (h₁ : step s₁ .visit = some (.timer none, s₂)) (h₂ : step s₂ (.finish now) = some (.unit, s₁)) (n : ℕ) :
    ∃ tr, Run step (Steady now) s₁ tr s₁ ∧ finishes tr = n := by
  induction n with
  | zero => exact ⟨[], .nil, rfl⟩
  | succ n ih =>
    obtain ⟨tr, hrun, hn⟩ := ih
    have hok₂ : Steady now s₂ (.finish now) := by simp only [Steady]
    refine ⟨_, (hrun.snoc hok h₁).snoc hok₂ h₂, ?_⟩
    rw [finishes_append, finishes_append, hn]
    rfl

/-- **A deadline that is left over keeps the loop going**: a timer due at 1
is destroyed after `next_timer` cached its deadline, and at 5, with the only
other timer due at 10, the loop makes as many passes as one likes. -/
theorem timeoutOnce_loops : ∃ tr el s₀, Runs Lawful 0 0 tr (el, .idle) ∧
    step (el, .idle) (.timeoutOnce 0 5) = some (.unit, s₀) ∧
      ∀ n, ∃ tr', Run step (Steady 5) s₀ tr' s₀ ∧ finishes tr' = n := by
  have h₁ : Runs Lawful 0 0 ([] ++ [(.call (.addOnce none (some 7) none 1), .timer (some 0))]) _ :=
    Run.nil.snoc trivial rfl
  have h₂ := h₁.snoc (a := .call .nextTimer) (b := .time 1) (by simp only [Lawful]) rfl
  have h₃ := h₂.snoc (a := .call (.addOnce none (some 7) none 10)) (b := .timer (some 1))
    (by simp only [Lawful]) rfl
  have h₄ := h₃.snoc (a := .call (.destroy 0)) (b := .unit)
    (by simp only [Lawful]; exact mem_live.2 ⟨_, rfl⟩) rfl
  exact ⟨_, _, _, h₄, rfl, exists_run_of_cycle (by simp only [Steady, Careful]) rfl rfl⟩

end Eventloop

end Mowgli
