import Mowgli.Eventloop.Timer.Good
/-!
# One pass over the timers

`run_timers` holds on to two nodes across a callback, the one it visits and
the one after it. As long as no callback destroys one of these two, a pass
calls each timer that is due once, and what it leaves is the list of the
timers that were not destroyed. What a pass has done so far is read off the
trace of its steps.
-/

namespace Mowgli

namespace Eventloop

open Store

variable {el₀ el el' : Eventloop} {xs₀ xs xs' ys rest : List Addr} {a b : Addr}
variable {t : EventloopTimer} {w w' : Walk} {c : Call} {r : Answer} {tr : List (Step × Answer)}

/-! ## What a trace has in it -/

/-- The timers added. -/
def added (tr : List (Step × Answer)) : List Addr :=
  tr.filterMap fun
    | (.call _, .timer a) => a
    | _ => none

/-- The timers destroyed by callbacks. -/
def destroyed (tr : List (Step × Answer)) : List Addr :=
  tr.filterMap fun
    | (.call (.destroy a), _) => some a
    | _ => none

/-- The timers whose callbacks were called. -/
def fired (tr : List (Step × Answer)) : List Addr :=
  tr.filterMap fun
    | (.visit, .timer a) => a
    | _ => none

/-- The timers whose callbacks returned. -/
def returned (tr : List (Step × Answer)) : List Addr :=
  tr.filterMap fun
    | (.ret, .timer a) => a
    | _ => none

/-- How many nodes were visited. -/
def visits (tr : List (Step × Answer)) : ℕ :=
  tr.countP fun
    | (.visit, _) => true
    | _ => false

/-- A timer that is due. -/
def Due (el : Eventloop) (a : Addr) : Prop :=
  ∃ t, bodies el.timers a = some t ∧ t.active = true ∧ t.deadline ≤ el.getTime

/-- A timer that is called only once. -/
def once (el : Eventloop) (a : Addr) : Bool := (bodies el.timers a).any fun t => t.frequency = 0

/-- A timer neither destroyed nor called for the only time. -/
def kept (el₀ : Eventloop) (tr : List (Step × Answer)) (a : Addr) : Bool :=
  a ∉ destroyed tr ∧ ¬(a ∈ returned tr ∧ once el₀ a)

/-- **The steps of a careful pass**: no callback destroys its own timer or
the one after it, and unless there is none after it a callback adds only
timers due later. A timer that is destroyed is there, and no deadline is past
the end of time. -/
def Careful : Eventloop × Control → Step → Prop
  | (el, .running w _), .call c =>
    (∀ a, c = .destroy a → a ∈ el.timers.live ∧ w.timer ≠ some a ∧ w.tn ≠ some a) ∧
      ∀ when frequency, c.adds = some (when, frequency) →
        timeAdd el.getTime when ≠ none ∧ (0 < when ∨ w.tn = none)
  | (el, .running w _), .ret => ∀ a t, w.timer = some a → el.timers.get a = some t →
      t.frequency ≠ 0 → timeAdd w.currtime t.frequency ≠ none
  | (_, .running _ _), .visit => True
  | _, _ => False

/-- The node `p` the walk goes on to, with `rest` ahead: either the timers
added since are not due, or they are all there is and the walk stops. -/
def Ahead (el₀ el : Eventloop) (p : Option Addr) (rest : List Addr) : Prop :=
  (p = rest.head? ∧ ∀ a ∈ rest, el₀.allocated ≤ a → ∀ t, bodies el.timers a = some t →
      el₀.getTime < t.deadline) ∨
    (p = none ∧ ∀ a ∈ rest, el₀.allocated ≤ a)

/-- **The invariant of a pass** over the timers `xs₀`, with those in `ys`
behind it and those in `rest` ahead. -/
structure PassInv (el₀ : Eventloop) (xs₀ : List Addr) (tr : List (Step × Answer)) (el : Eventloop)
    (w : Walk) (ys rest : List Addr) : Prop where
  start : Good el₀ xs₀
  good : Good el (ys ++ w.timer.toList ++ rest)
  clock : w.currtime = el₀.getTime ∧ el.currtime = el₀.currtime ∧ el.epochbias = el₀.epochbias
  alloc : el₀.allocated ≤ el.allocated
  list : ys ++ w.timer.toList ++ rest = (xs₀ ++ added tr).filter (kept el₀ tr)
  /-- A timer there was is as it was, but for its deadline once it was called. -/
  old : ∀ a < el₀.allocated, ∀ t, bodies el.timers a = some t → ∃ t₀, bodies el₀.timers a = some t₀ ∧
    t = if a ∈ returned tr then { t₀ with deadline := el₀.getTime + t₀.frequency } else t₀
  /-- The timers added have new numbers. -/
  fresh : ∀ a ∈ added tr, el₀.allocated ≤ a
  ended : ∀ a ∈ destroyed tr, a < el.allocated
  ahead : Ahead el₀ el (if w.timer = none then w.n else w.tn) rest
  next : w.timer = none → el.nextOf w.n = some w.tn
  calling : ∀ a, w.timer = some a → w.n = some a ∧ a < el₀.allocated
  fired : fired tr = returned tr ++ w.timer.toList
  nodup : (Eventloop.fired tr).Nodup
  due : ∀ a ∈ Eventloop.fired tr, a ∈ xs₀ ∧ Due el₀ a
  /-- What is behind was called if it was due. -/
  behind : ∀ a ∈ ys, Due el₀ a → a ∈ Eventloop.fired tr
  todo : ∀ a ∈ rest, a ∉ Eventloop.fired tr
  quiet : Eventloop.fired tr = [] → destroyed tr = []
  visits : visits tr + rest.length ≤ xs₀.length + (added tr).length
  deadline : w.timer = none → el.deadline = if returned tr = [] then el₀.deadline else -1

/-- **A pass begins.** -/
theorem passInv_begin (h : Good el₀ xs₀) :
    PassInv el₀ xs₀ [] el₀ ⟨el₀.getTime, xs₀.head?, xs₀.tail.head?, none⟩ [] xs₀ where
  start := h
  good := h
  clock := ⟨rfl, rfl, rfl⟩
  alloc := le_rfl
  list := by
    have hall : xs₀.filter (Eventloop.kept el₀ []) = xs₀ :=
      List.filter_eq_self.2 fun a _ => by simp [Eventloop.kept, destroyed, returned]
    simpa [added] using hall.symm
  old a _ t hb := ⟨t, hb, by simp [returned]⟩
  fresh := by simp [added]
  ended := by simp [destroyed]
  ahead := Or.inl ⟨rfl, fun a ha hold => absurd (h.old a ha) (not_lt.2 hold)⟩
  next _ := @Listed.nextOf el₀ [] xs₀ h.toListed
  calling := by simp
  fired := rfl
  nodup := List.nodup_nil
  due := by simp [Eventloop.fired]
  behind := by simp
  todo := by simp [Eventloop.fired]
  quiet _ := rfl
  visits := by simp [Eventloop.visits]
  deadline _ := rfl

/-! ## What a step adds to a trace -/

theorem trace_visit (tr : List (Step × Answer)) (r : Option Addr) :
    added (tr ++ [(Step.visit, Answer.timer r)]) = added tr ∧
      destroyed (tr ++ [(Step.visit, Answer.timer r)]) = destroyed tr ∧
      returned (tr ++ [(Step.visit, Answer.timer r)]) = returned tr ∧
      fired (tr ++ [(Step.visit, Answer.timer r)]) = fired tr ++ r.toList ∧
      visits (tr ++ [(Step.visit, Answer.timer r)]) = visits tr + 1 := by
  simp only [added, destroyed, returned, fired, visits, List.filterMap_append, List.countP_append]
  cases r <;> simp

theorem trace_ret (tr : List (Step × Answer)) (a : Addr) :
    added (tr ++ [(Step.ret, Answer.timer (some a))]) = added tr ∧
      destroyed (tr ++ [(Step.ret, Answer.timer (some a))]) = destroyed tr ∧
      returned (tr ++ [(Step.ret, Answer.timer (some a))]) = returned tr ++ [a] ∧
      fired (tr ++ [(Step.ret, Answer.timer (some a))]) = fired tr ∧
      visits (tr ++ [(Step.ret, Answer.timer (some a))]) = visits tr := by
  simp [added, destroyed, returned, fired, visits]

/-- A call adds what it answers and destroys what it says. -/
theorem trace_call (tr : List (Step × Answer)) (c : Call) (r : Answer) :
    added (tr ++ [(Step.call c, r)]) = added tr ++ added [(Step.call c, r)] ∧
      destroyed (tr ++ [(Step.call c, r)]) = destroyed tr ++ destroyed [(Step.call c, r)] ∧
      returned (tr ++ [(Step.call c, r)]) = returned tr ∧ fired (tr ++ [(Step.call c, r)]) = fired tr ∧
      visits (tr ++ [(Step.call c, r)]) = visits tr := by
  simp [added, destroyed, returned, fired, visits]

variable {tr' : List (Step × Answer)}

theorem kept_iff : kept el₀ tr a = true ↔ a ∉ destroyed tr ∧ ¬(a ∈ returned tr ∧ once el₀ a = true) := by
  rw [kept, decide_eq_true_iff]

theorem kept_congr (hd : destroyed tr' = destroyed tr) (hr : returned tr' = returned tr) :
    kept el₀ tr' = kept el₀ tr := by
  funext a
  rw [kept, kept, hd, hr]

/-! ## The steps -/

theorem mem_xs : a ∈ ys ++ w.timer.toList ++ rest ↔ a ∈ ys ∨ w.timer = some a ∨ a ∈ rest := by
  simp

/-- What is in the list is not destroyed, and not called for the only time. -/
theorem PassInv.mem_kept (h : PassInv el₀ xs₀ tr el w ys rest)
    (ha : a ∈ ys ++ w.timer.toList ++ rest) : a ∈ xs₀ ++ added tr ∧ kept el₀ tr a = true := by
  rw [h.list] at ha
  exact List.mem_filter.1 ha

/-- A timer there was that was not called is as it was. -/
theorem PassInv.body (h : PassInv el₀ xs₀ tr el w ys rest) (ha : a < el₀.allocated)
    (hb : bodies el.timers a = some t) (hr : a ∉ returned tr) : bodies el₀.timers a = some t := by
  obtain ⟨t₀, hb₀, ht⟩ := h.old a ha t hb
  rw [if_neg hr] at ht
  rw [hb₀, ht]

theorem PassInv.returned_sub (h : PassInv el₀ xs₀ tr el w ys rest) (ha : a ∈ returned tr) :
    a ∈ Eventloop.fired tr := by
  rw [h.fired]
  exact List.mem_append_left _ ha

theorem PassInv.getTime_eq (h : PassInv el₀ xs₀ tr el w ys rest) : el.getTime = el₀.getTime := by
  rw [getTime, getTime, h.clock.2.1, h.clock.2.2]

/-- What the walk goes on to is ahead. -/
theorem PassInv.exists_rest (h : PassInv el₀ xs₀ tr el w ys rest) (hw : w.timer = none)
    (hn : w.n = some a) : ∃ rest', rest = a :: rest' ∧ w.tn = rest'.head? ∧
      ∀ b ∈ rest, el₀.allocated ≤ b → ∀ t, bodies el.timers b = some t → el₀.getTime < t.deadline := by
  have hahead := h.ahead
  rw [if_pos hw, Ahead, hn] at hahead
  rcases hahead with ⟨hp, hnew⟩ | ⟨hp, -⟩
  · cases rest with
    | nil => cases hp
    | cons b rest =>
      obtain rfl := Option.some.inj hp
      refine ⟨rest, rfl, ?_, hnew⟩
      have hnext := h.next hw
      rw [hn] at hnext
      exact Option.some.inj (hnext.symm.trans h.good.nextOf)
  · cases hp

/-- **A visit** calls a timer that is due, or goes on. -/
theorem PassInv.visit (h : PassInv el₀ xs₀ tr el w ys rest) (hw : w.timer = none) (hn : w.n = some a) :
    ∃ r el' w' ys' rest', el.visit w = some (r, el', w') ∧
      PassInv el₀ xs₀ (tr ++ [(Step.visit, Answer.timer r)]) el' w' ys' rest' ∧
      (r = none ∨ r = some a ∧ a ∈ xs₀ ∧ Due el₀ a ∧ a ∉ Eventloop.fired tr ∧ a ∉ destroyed tr) := by
  obtain ⟨rest, rfl, htn, hnew⟩ := h.exists_rest hw hn
  have hmem : a ∈ ys ++ w.timer.toList ++ a :: rest := mem_xs.2 (Or.inr (Or.inr (List.mem_cons_self ..)))
  have hfired : a ∉ Eventloop.fired tr := h.todo a (List.mem_cons_self ..)
  have hret : a ∉ returned tr := fun hr => hfired (h.returned_sub hr)
  obtain ⟨hin, hkept⟩ := h.mem_kept hmem
  obtain ⟨hdes, -⟩ := kept_iff.1 hkept
  obtain ⟨t, -, hb', -⟩ := h.good.exists_body hmem
  have hlist := h.list
  have hgood := h.good
  have hfr := h.fired
  rw [hw, Option.toList_none, List.append_nil] at hlist hgood hfr
  have hbehind := h.behind
  obtain ⟨hadd, hdest, hreturned, hfi, hvis⟩ := trace_visit tr (some a)
  obtain ⟨hadd', hdest', hreturned', hfi', hvis'⟩ := trace_visit tr none
  have hvisits := h.visits
  rw [List.length_cons] at hvisits
  have hnd : (ys ++ a :: rest).Nodup := hgood.list.nodup
  have hvisit := h.good.visit hn hb'
  by_cases hdue : (strip t).active = true ∧ (strip t).deadline ≤ w.currtime
  · rw [if_pos hdue] at hvisit
    have hold : a < el₀.allocated := by
      by_contra hge
      have := hnew a (List.mem_cons_self ..) (not_lt.1 hge) _ hb'
      rw [h.clock.1] at hdue
      omega
    have hdue₀ : Due el₀ a := ⟨strip t, h.body hold hb' hret, hdue.1, h.clock.1 ▸ hdue.2⟩
    have hxs₀ : a ∈ xs₀ := (List.mem_append.1 hin).resolve_right fun hadd =>
      absurd hold (not_lt.2 (h.fresh a hadd))
    refine ⟨some a, _, _, ys, rest, hvisit, ?_, Or.inr ⟨rfl, hxs₀, hdue₀, hfired, hdes⟩⟩
    refine ⟨h.start, ?_, h.clock, h.alloc, ?_, ?_, ?_, ?_, ?_, by simp, ?_, ?_, ?_, ?_, ?_, ?_, ?_, ?_, by simp⟩
    · exact (by simpa using hgood : Good el (ys ++ [a] ++ rest)).congr rfl rfl rfl
    · rw [hadd, kept_congr hdest hreturned, ← hlist]
      simp
    · rw [hreturned]
      exact h.old
    · rw [hadd]
      exact h.fresh
    · rw [hdest]
      exact h.ended
    · rw [if_neg (by simp)]
      exact Or.inl ⟨htn, fun b hb => hnew b (List.mem_cons_of_mem _ hb)⟩
    · rintro b hb
      obtain rfl := Option.some.inj hb
      exact ⟨hn, hold⟩
    · rw [hfi, hreturned, hfr]
    · rw [hfi, Option.toList_some, List.nodup_append]
      exact ⟨h.nodup, List.nodup_singleton a,
        fun b hb c hc hbc => hfired (List.mem_singleton.1 hc ▸ hbc ▸ hb)⟩
    · rw [hfi]
      intro b hb
      rcases List.mem_append.1 hb with hb | hb
      · exact h.due b hb
      · obtain rfl := List.mem_singleton.1 hb
        exact ⟨hxs₀, hdue₀⟩
    · rw [hfi]
      exact fun b hb hbdue => List.mem_append_left _ (h.behind b hb hbdue)
    · rw [hfi]
      intro b hb hmem
      rcases List.mem_append.1 hmem with hmem | hmem
      · exact h.todo b (List.mem_cons_of_mem _ hb) hmem
      · obtain rfl := List.mem_singleton.1 hmem
        exact (List.nodup_cons.1 (List.nodup_append.1 hnd).2.1).1 hb
    · rw [hfi]
      simp
    · rw [hvis, hadd]
      omega
  · rw [if_neg hdue, advance, htn] at hvisit
    have hgood' : Good el (ys ++ [a] ++ rest) := by simpa using hgood
    have hnext : el.nextOf rest.head? = some rest.tail.head? := hgood'.nextOf
    rw [hnext] at hvisit
    refine ⟨none, el, _, ys ++ [a], rest, hvisit, ?_, Or.inl rfl⟩
    refine ⟨h.start, by simpa using hgood', h.clock, h.alloc, ?_, ?_, ?_, ?_, ?_, fun _ => hnext, by simp,
      ?_, ?_, ?_, ?_, ?_, ?_, ?_, ?_⟩
    · rw [hadd', kept_congr hdest' hreturned', ← hlist]
      simp
    · rw [hreturned']
      exact h.old
    · rw [hadd']
      exact h.fresh
    · rw [hdest']
      exact h.ended
    · rw [if_pos rfl]
      exact Or.inl ⟨rfl, fun b hb => hnew b (List.mem_cons_of_mem _ hb)⟩
    · rw [hfi', hreturned', hfr]
    · rw [hfi', Option.toList_none, List.append_nil]
      exact h.nodup
    · rw [hfi', Option.toList_none, List.append_nil]
      exact h.due
    · rw [hfi', Option.toList_none, List.append_nil]
      intro b hb hbdue
      rcases List.mem_append.1 hb with hb | hb
      · exact h.behind b hb hbdue
      · obtain rfl := List.mem_singleton.1 hb
        obtain ⟨t₀, hb₀, hact, hle⟩ := hbdue
        have hold : b < el₀.allocated := by
          obtain ⟨t', ht', -⟩ := exists_of_bodies hb₀
          exact h.start.old b (h.start.mem_of_get ht')
        obtain rfl := Option.some.inj ((h.body hold hb' hret).symm.trans hb₀)
        exact absurd ⟨hact, h.clock.1.symm ▸ hle⟩ hdue
    · rw [hfi', Option.toList_none, List.append_nil]
      exact fun b hb => h.todo b (List.mem_cons_of_mem _ hb)
    · rw [hfi', hdest', Option.toList_none, List.append_nil]
      exact h.quiet
    · rw [hvis', hadd']
      omega
    · rw [hreturned']
      exact fun _ => h.deadline hw

theorem PassInv.fired_old (h : PassInv el₀ xs₀ tr el w ys rest) (ha : a ∈ Eventloop.fired tr) :
    a < el₀.allocated := h.start.old a (h.due a ha).1

/-- A call that leaves the timers alone. -/
theorem PassInv.call_other (h : PassInv el₀ xs₀ tr el w ys rest) (hw : w.timer = some a)
    (hgood : Good el' (ys ++ w.timer.toList ++ rest)) (ht : el'.timers = el.timers)
    (htime : el'.currtime = el.currtime ∧ el'.epochbias = el.epochbias) (hal : el'.allocated = el.allocated)
    (hadd : added [(Step.call c, r)] = []) (hdes : destroyed [(Step.call c, r)] = []) :
    PassInv el₀ xs₀ (tr ++ [(Step.call c, r)]) el' w ys rest := by
  obtain ⟨hadd', hdest', hreturned', hfi', hvis'⟩ := trace_call tr c r
  rw [hadd, List.append_nil] at hadd'
  rw [hdes, List.append_nil] at hdest'
  refine ⟨h.start, hgood, ⟨h.clock.1, htime.1.trans h.clock.2.1, htime.2.trans h.clock.2.2⟩, hal ▸ h.alloc, ?_, ?_, ?_, ?_, ?_, ?_,
    h.calling, ?_, ?_, ?_, ?_, ?_, ?_, ?_, ?_⟩
  · rw [hadd', kept_congr hdest' hreturned', h.list]
  · rw [hreturned', ht]
    exact h.old
  · rw [hadd']
    exact h.fresh
  · rw [hdest', hal]
    exact h.ended
  · have hahead := h.ahead
    rw [Ahead] at hahead ⊢
    rw [ht]
    exact hahead
  · intro hnone
    rw [hw] at hnone
    cases hnone
  · rw [hfi', hreturned', h.fired]
  · rw [hfi']
    exact h.nodup
  · rw [hfi']
    exact h.due
  · rw [hfi']
    exact h.behind
  · rw [hfi']
    exact h.todo
  · rw [hfi', hdest']
    exact h.quiet
  · rw [hvis', hadd']
    exact h.visits
  · intro hnone
    rw [hw] at hnone
    cases hnone

/-- A call that adds a timer. -/
theorem PassInv.call_add (h : PassInv el₀ xs₀ tr el w ys rest) (hw : w.timer = some a)
    (hgood : Good el' (ys ++ w.timer.toList ++ rest ++ [el.allocated]))
    (hbody : bodies el'.timers = Function.update (bodies el.timers) el.allocated (some t))
    (htime : el'.currtime = el.currtime ∧ el'.epochbias = el.epochbias) (hal : el'.allocated = el.allocated + 1)
    (hlater : el₀.getTime < t.deadline ∨ w.tn = none) (hadds : c.adds ≠ none) :
    PassInv el₀ xs₀ (tr ++ [(Step.call c, Answer.timer (some el.allocated))]) el' w ys (rest ++ [el.allocated]) := by
  obtain ⟨hadd', hdest', hreturned', hfi', hvis'⟩ := trace_call tr c (.timer (some el.allocated))
  have hdes : destroyed [(Step.call c, Answer.timer (some el.allocated))] = [] := by
    cases c <;> first | rfl | exact absurd rfl hadds
  rw [hdes, List.append_nil] at hdest'
  have hadd'' : added (tr ++ [(Step.call c, Answer.timer (some el.allocated))]) = added tr ++ [el.allocated] := hadd'
  have hnew : ∀ b, b < el₀.allocated → b ≠ el.allocated := fun b hb hbe =>
    absurd hb (not_lt.2 (hbe ▸ h.alloc))
  have hnf : el.allocated ∉ Eventloop.fired tr := fun hmem => hnew _ (h.fired_old hmem) rfl
  have hkept : kept el₀ tr el.allocated = true := by
    refine kept_iff.2 ⟨fun hd => lt_irrefl _ (h.ended _ hd), fun hr => ?_⟩
    exact hnf (h.returned_sub hr.1)
  have htn : w.timer ≠ none := by rw [hw]; simp
  refine ⟨h.start, by simpa using hgood, ⟨h.clock.1, htime.1.trans h.clock.2.1, htime.2.trans h.clock.2.2⟩, by rw [hal]; exact h.alloc.trans (Nat.le_succ _),
    ?_, ?_, ?_, ?_, ?_, fun hn => absurd hn htn, h.calling, ?_, ?_, ?_, ?_, ?_, ?_, ?_, fun hn => absurd hn htn⟩
  · rw [hadd'', kept_congr hdest' hreturned', ← List.append_assoc, h.list, ← List.append_assoc,
      List.filter_append (xs₀ ++ added tr), List.filter_singleton, hkept]
    simp
  · rw [hreturned', hbody]
    intro b hb t' hb'
    rw [Function.update_of_ne (hnew b hb)] at hb'
    exact h.old b hb t' hb'
  · rw [hadd'']
    intro b hb
    rcases List.mem_append.1 hb with hb | hb
    · exact h.fresh b hb
    · rw [List.mem_singleton.1 hb]
      exact h.alloc
  · rw [hdest', hal]
    exact fun b hb => Nat.lt_succ_of_lt (h.ended b hb)
  · have hahead := h.ahead
    rw [if_neg htn] at hahead ⊢
    rcases hahead with ⟨hp, hdue⟩ | ⟨hp, hall⟩
    · cases rest with
      | nil =>
        refine Or.inr ⟨hp, fun b hb => ?_⟩
        rw [List.nil_append, List.mem_singleton] at hb
        rw [hb]
        exact h.alloc
      | cons b₀ rest =>
        refine Or.inl ⟨hp, fun b hb hnewb t' hb' => ?_⟩
        rw [hbody] at hb'
        by_cases hbe : b = el.allocated
        · rw [hbe, Function.update_self] at hb'
          rw [← Option.some.inj hb']
          exact hlater.resolve_right fun hnone => by rw [hp] at hnone; cases hnone
        · rw [Function.update_of_ne hbe] at hb'
          refine hdue b ?_ hnewb t' hb'
          rcases List.mem_append.1 hb with hb | hb
          · exact hb
          · exact absurd (List.mem_singleton.1 hb) hbe
    · refine Or.inr ⟨hp, fun b hb => ?_⟩
      rcases List.mem_append.1 hb with hb | hb
      · exact hall b hb
      · rw [List.mem_singleton.1 hb]
        exact h.alloc
  · rw [hfi', hreturned', h.fired]
  · rw [hfi']
    exact h.nodup
  · rw [hfi']
    exact h.due
  · rw [hfi']
    exact h.behind
  · rw [hfi']
    intro b hb
    rcases List.mem_append.1 hb with hb | hb
    · exact h.todo b hb
    · rw [List.mem_singleton.1 hb]
      exact hnf
  · rw [hfi', hdest']
    exact h.quiet
  · have := h.visits
    rw [hvis', hadd'', List.length_append, List.length_append, List.length_singleton]
    omega

/-- A call that destroys a timer other than the two the walk holds on to. -/
theorem PassInv.call_destroy (h : PassInv el₀ xs₀ tr el w ys rest) (hw : w.timer = some a)
    (hgood : Good el' ((ys ++ w.timer.toList ++ rest).erase b))
    (hbody : bodies el'.timers = Function.update (bodies el.timers) b none)
    (htime : el'.currtime = el.currtime ∧ el'.epochbias = el.epochbias) (hal : el'.allocated = el.allocated)
    (hb : b ∈ ys ++ w.timer.toList ++ rest) (hba : w.timer ≠ some b) (hbn : w.tn ≠ some b) :
    ∃ ys' rest', PassInv el₀ xs₀ (tr ++ [(Step.call (.destroy b), Answer.unit)]) el' w ys' rest' := by
  obtain ⟨hadd', hdest', hreturned', hfi', hvis'⟩ := trace_call tr (.destroy b) .unit
  have hdest'' : destroyed (tr ++ [(Step.call (.destroy b), Answer.unit)]) = destroyed tr ++ [b] := hdest'
  have hadd'' : added (tr ++ [(Step.call (.destroy b), Answer.unit)]) = added tr := by
    rw [hadd']
    exact List.append_nil _
  have htn : w.timer ≠ none := by rw [hw]; simp
  have hab : a ≠ b := fun hab => hba (hab ▸ hw)
  have herase : (ys ++ w.timer.toList ++ rest).erase b =
      ys.filter (· != b) ++ w.timer.toList ++ rest.filter (· != b) := by
    have hone : [a].filter (· != b) = [a] := List.filter_cons_of_pos (by simpa using hab)
    rw [h.good.list.nodup.erase_eq_filter, List.filter_append, List.filter_append, hw, Option.toList_some,
      hone]
  rw [herase] at hgood
  have hsub : ∀ d t', bodies el'.timers d = some t' → bodies el.timers d = some t' := by
    intro d t' hd
    rw [hbody, Function.update_apply] at hd
    split_ifs at hd
    exact hd
  refine ⟨_, _, h.start, hgood, ⟨h.clock.1, htime.1.trans h.clock.2.1, htime.2.trans h.clock.2.2⟩, hal ▸ h.alloc, ?_, ?_, ?_, ?_, ?_,
    fun hn => absurd hn htn, h.calling, ?_, ?_, ?_, ?_, ?_, ?_, ?_, fun hn => absurd hn htn⟩
  · rw [← herase, h.good.list.nodup.erase_eq_filter, h.list, List.filter_filter, hadd'']
    refine List.filter_congr fun d _ => ?_
    rw [Bool.eq_iff_iff, Bool.and_eq_true, kept_iff, kept_iff, hdest'', hreturned', bne_iff_ne,
      List.mem_append, List.mem_singleton, not_or]
    tauto
  · rw [hreturned']
    exact fun d hd t' hd' => h.old d hd t' (hsub d t' hd')
  · rw [hadd'']
    exact h.fresh
  · rw [hdest'', hal]
    intro d hd
    rcases List.mem_append.1 hd with hd | hd
    · exact h.ended d hd
    · rw [List.mem_singleton.1 hd]
      exact h.good.old b hb
  · have hahead := h.ahead
    rw [if_neg htn] at hahead ⊢
    rcases hahead with ⟨hp, hdue⟩ | ⟨hp, hall⟩
    · refine Or.inl ⟨?_, fun d hd hnewd t' hd' => hdue d (List.mem_of_mem_filter hd) hnewd t' (hsub d t' hd')⟩
      cases rest with
      | nil => exact hp
      | cons b₀ rest =>
        have hb₀ : b₀ ≠ b := fun he => hbn (by rw [hp, he]; rfl)
        rw [hp, List.filter_cons_of_pos (by simpa using hb₀)]
        rfl
    · exact Or.inr ⟨hp, fun d hd => hall d (List.mem_of_mem_filter hd)⟩
  · rw [hfi', hreturned', h.fired]
  · rw [hfi']
    exact h.nodup
  · rw [hfi']
    exact h.due
  · rw [hfi']
    exact fun d hd => h.behind d (List.mem_of_mem_filter hd)
  · rw [hfi']
    exact fun d hd => h.todo d (List.mem_of_mem_filter hd)
  · rw [hfi', h.fired, hw]
    simp
  · have := h.visits
    have hlen := List.length_filter_le (· != b) rest
    rw [hvis', hadd'']
    omega

/-- **A call** from a callback is answered. -/
theorem PassInv.call {k : Option ℤ} (h : PassInv el₀ xs₀ tr el w ys rest) (hw : w.timer = some a)
    (hc : Careful (el, .running w k) (.call c)) :
    ∃ r el' ys' rest', c.run el = some (r, el') ∧
      PassInv el₀ xs₀ (tr ++ [(Step.call c, r)]) el' w ys' rest' := by
  obtain ⟨hdes, hadd⟩ := hc
  rcases h.good.call c (fun _ => h.good.fresh) with ⟨r, el', xs', hrun, hlisted, hspec⟩ | ⟨-, ⟨b, rfl, hb⟩ | ⟨when, f, hadds, hnone⟩⟩
  · have hgood := hspec.good h.good hlisted
    cases hspec with
    | @added when f d t m l adds deadline timer body =>
      obtain ⟨-, hlater⟩ := hadd _ _ adds
      obtain ⟨-, rfl⟩ := timeAdd_eq_some.1 deadline
      refine ⟨_, _, ys, rest ++ [el.allocated], hrun, h.call_add hw hgood body ⟨rfl, rfl⟩ rfl ?_ (by rw [adds]; simp)⟩
      refine hlater.imp_left fun hpos => ?_
      have := h.getTime_eq
      omega
    | @destroyed b r m l call mem body =>
      subst call
      obtain ⟨-, hba, hbn⟩ := hdes b rfl
      obtain ⟨ys', rest', h'⟩ := h.call_destroy hw hgood body ⟨rfl, rfl⟩ rfl mem hba hbn
      exact ⟨_, _, ys', rest', hrun, h'⟩
    | looked call =>
      subst call
      exact ⟨_, _, ys, rest, hrun, h.call_other hw hgood rfl ⟨rfl, rfl⟩ rfl rfl rfl⟩
    | refused adds other log =>
      refine ⟨_, _, ys, rest, hrun, h.call_other hw hgood rfl ⟨rfl, rfl⟩ rfl rfl ?_⟩
      cases c with
      | destroy b => exact absurd rfl (other b)
      | add => rfl
      | addOnce => rfl
      | nextTimer => rfl
  · exact absurd ((h.good.live b).1 (hdes b rfl).1) hb
  · exact absurd hnone (hadd _ _ hadds).1

theorem PassInv.nextOf_tn (h : PassInv el₀ xs₀ tr el w ys rest) (hw : w.timer ≠ none)
    (hgood : Good el' (xs ++ rest)) : ∃ q, el'.nextOf w.tn = some q := by
  have hahead := h.ahead
  rw [if_neg hw] at hahead
  rcases hahead with ⟨hp, -⟩ | ⟨hp, -⟩
  · rw [hp, hgood.nextOf]
    exact ⟨_, rfl⟩
  · rw [hp]
    exact ⟨none, rfl⟩

/-- Where a callback returned from, and what is left to do. -/
theorem PassInv.after (h : PassInv el₀ xs₀ tr el w ys rest) (hw : w.timer = some a)
    {q : Option Addr} (hgood : Good el' (xs ++ rest)) (hq : el'.nextOf w.tn = some q)
    (htime : el'.currtime = el.currtime ∧ el'.epochbias = el.epochbias) (hal : el'.allocated = el.allocated) (hdead : el'.deadline = -1)
    (hlist : xs ++ rest =
      (xs₀ ++ added tr).filter (Eventloop.kept el₀ (tr ++ [(Step.ret, Answer.timer (some a))])))
    (hbehind : ∀ b ∈ xs, b ∈ ys ∨ b = a)
    (hold : ∀ b < el₀.allocated, ∀ t, bodies el'.timers b = some t → ∃ t₀, bodies el₀.timers b = some t₀ ∧
      t = if b ∈ returned tr ++ [a] then { t₀ with deadline := el₀.getTime + t₀.frequency } else t₀)
    (hnew : ∀ b, el₀.allocated ≤ b → bodies el'.timers b = bodies el.timers b) :
    PassInv el₀ xs₀ (tr ++ [(Step.ret, Answer.timer (some a))]) el' ⟨w.currtime, w.tn, q, none⟩ xs rest := by
  obtain ⟨hadd', hdest', hreturned', hfi', hvis'⟩ := trace_ret tr a
  have hfr := h.fired
  rw [hw, Option.toList_some] at hfr
  refine ⟨h.start, by simpa using hgood, ⟨h.clock.1, htime.1.trans h.clock.2.1, htime.2.trans h.clock.2.2⟩, hal ▸ h.alloc, ?_, ?_, ?_, ?_, ?_,
    fun _ => hq, by simp, ?_, ?_, ?_, ?_, ?_, ?_, ?_, ?_⟩
  · rw [hadd']
    simpa using hlist
  · rw [hreturned']
    exact hold
  · rw [hadd']
    exact h.fresh
  · rw [hdest', hal]
    exact h.ended
  · have hahead := h.ahead
    rw [if_neg (by rw [hw]; simp)] at hahead
    rw [if_pos rfl]
    refine hahead.imp_left fun hl => ⟨hl.1, fun b hb hnewb t hb' => hl.2 b hb hnewb t ?_⟩
    rw [← hnew b hnewb]
    exact hb'
  · rw [hfi', hreturned', hfr]
    exact (List.append_nil _).symm
  · rw [hfi']
    exact h.nodup
  · rw [hfi']
    exact h.due
  · rw [hfi']
    intro b hb hdue
    rcases hbehind b hb with hb | rfl
    · exact h.behind b hb hdue
    · rw [hfr]
      simp
  · rw [hfi']
    exact h.todo
  · rw [hfi', hdest']
    exact h.quiet
  · rw [hvis', hadd']
    exact h.visits
  · rw [hreturned', hdead, if_neg (by simp)]
    simp

/-- **A callback returns.** -/
theorem PassInv.ret {k : Option ℤ} (h : PassInv el₀ xs₀ tr el w ys rest) (hw : w.timer = some a)
    (hc : Careful (el, .running w k) .ret) :
    ∃ el' w' ys', el.afterCallback w = some (el', w') ∧
      PassInv el₀ xs₀ (tr ++ [(Step.ret, Answer.timer (some a))]) el' w' ys' rest := by
  obtain ⟨-, holda⟩ := h.calling a hw
  have hmem : a ∈ ys ++ w.timer.toList ++ rest := mem_xs.2 (Or.inr (Or.inl hw))
  obtain ⟨t, hget, hb, -⟩ := h.good.exists_body hmem
  have hret : a ∉ returned tr := by
    have hnd := h.nodup
    rw [h.fired, hw, Option.toList_some, List.nodup_append] at hnd
    exact fun hr => hnd.2.2 a hr a (List.mem_singleton_self a) rfl
  have hb₀ := h.body holda hb hret
  have hnd : (ys ++ [a] ++ rest).Nodup := by
    have := h.good.list.nodup
    rwa [hw, Option.toList_some] at this
  have hlist := h.list
  rw [hw, Option.toList_some] at hlist
  obtain ⟨-, hdest', hreturned', -, -⟩ := trace_ret tr a
  have hgood₁ : Good { el with deadline := -1 } (ys ++ [a] ++ rest) := by
    have := h.good
    rw [hw, Option.toList_some] at this
    exact this.congr rfl rfl rfl
  have holdne : ∀ b, el₀.allocated ≤ b → b ≠ a := fun b hb hba => absurd holda (not_lt.2 (hba ▸ hb))
  rcases hgood₁.reschedule w.currtime hb with
    ⟨hf, hnone, -⟩ | ⟨d, m, hf, hd, hres, hlisted, hbody⟩ | ⟨r, m, l, hf, hres, hlisted, hbody⟩
  · exact absurd hnone (hc a t hw hget hf)
  · have hgood := hgood₁.of_listed hlisted (fun _ hmem => hmem) rfl
    obtain ⟨q, hq⟩ := h.nextOf_tn (by rw [hw]; simp) hgood
    refine ⟨_, ⟨w.currtime, w.tn, q, none⟩, ys ++ [a], ?_,
      h.after hw hgood hq ⟨rfl, rfl⟩ rfl rfl ?_ (by simp) (fun b hb t' hb' => ?_) fun b hb => ?_⟩
    · simp only [Eventloop.afterCallback, hw, hres, advance, hq, Option.bind_eq_bind, Option.bind_some]
    · rw [hlist]
      refine List.filter_congr fun b _ => ?_
      have hnotonce : once el₀ a = false := by
        rw [once, hb₀]
        simpa using hf
      rw [Bool.eq_iff_iff, kept_iff, kept_iff, hdest', hreturned', List.mem_append, List.mem_singleton]
      by_cases hba : b = a
      · rw [hba, hnotonce]
        simp
      · simp [hba]
    · dsimp only at hb'
      rw [hbody] at hb'
      by_cases hba : b = a
      · rw [hba, Function.update_self] at hb'
        rw [hba]
        obtain ⟨-, rfl⟩ := timeAdd_eq_some.1 hd
        refine ⟨strip t, hb₀, ?_⟩
        rw [if_pos (by simp), ← Option.some.inj hb', h.clock.1]
      · rw [Function.update_of_ne hba] at hb'
        obtain ⟨t₀, h₀, ht⟩ := h.old b hb t' hb'
        refine ⟨t₀, h₀, ?_⟩
        rw [ht]
        simp [hba]
    · dsimp only
      rw [hbody, Function.update_of_ne (holdne b hb)]
  · have herase : (ys ++ [a] ++ rest).erase a = ys ++ rest := by
      have hys : a ∉ ys := by
        rw [List.append_assoc, List.nodup_append] at hnd
        exact fun hy => hnd.2.2 a hy a (by simp) rfl
      rw [List.append_assoc, List.erase_append_right _ hys, List.singleton_append, List.erase_cons_head]
    have hgood := hgood₁.of_listed hlisted (fun _ => List.mem_of_mem_erase) rfl
    rw [herase] at hgood
    obtain ⟨q, hq⟩ := h.nextOf_tn (by rw [hw]; simp) hgood
    refine ⟨_, ⟨w.currtime, w.tn, q, none⟩, ys, ?_,
      h.after hw hgood hq ⟨rfl, rfl⟩ rfl rfl ?_ (fun b hb => Or.inl hb) (fun b hb t' hb' => ?_) fun b hb => ?_⟩
    · simp only [Eventloop.afterCallback, hw, hres, advance, hq, Option.bind_eq_bind, Option.bind_some]
    · rw [← herase, hnd.erase_eq_filter, hlist, List.filter_filter]
      refine List.filter_congr fun b _ => ?_
      have honce : once el₀ a = true := by
        rw [once, hb₀]
        simpa using hf
      rw [Bool.eq_iff_iff, Bool.and_eq_true, kept_iff, kept_iff, hdest', hreturned', List.mem_append,
        List.mem_singleton, bne_iff_ne]
      by_cases hba : b = a
      · rw [hba, honce]
        simp
      · simp [hba]
    · dsimp only at hb'
      rw [hbody] at hb'
      by_cases hba : b = a
      · rw [hba, Function.update_self] at hb'
        cases hb'
      · rw [Function.update_of_ne hba] at hb'
        obtain ⟨t₀, h₀, ht⟩ := h.old b hb t' hb'
        refine ⟨t₀, h₀, ?_⟩
        rw [ht]
        simp [hba]
    · dsimp only
      rw [hbody, Function.update_of_ne (holdne b hb)]

/-! ## The pass -/

/-- The runs of a pass from where `run_timers` begins, on its own or in
`timeout_once`. -/
def PassRuns (el₀ : Eventloop) (k : Option ℤ) (tr : List (Step × Answer)) (s : Eventloop × Control) : Prop :=
  ∃ w₀, el₀.runTimersBegin = some w₀ ∧ Run step Careful (el₀, .running w₀ k) tr s

/-- Whose turn it is: the walk's, or the callback's. -/
def Turn (w : Walk) : Step → Prop
  | .visit => w.timer = none ∧ w.n ≠ none
  | .finish _ => w.timer = none ∧ w.n = none
  | _ => w.timer ≠ none

/-- **One step** of a pass: a call, a visit or a return is answered, where it
is its turn. -/
theorem PassInv.step {k : Option ℤ} {c : Step} (h : PassInv el₀ xs₀ tr el w ys rest)
    (hok : Careful (el, .running w k) c) (hturn : Turn w c) :
    ∃ r el' w' ys' rest', step (el, .running w k) c = some (r, el', .running w' k) ∧
      PassInv el₀ xs₀ (tr ++ [(c, r)]) el' w' ys' rest' ∧
      ∀ a, c = .visit → r = .timer (some a) →
        a ∈ xs₀ ∧ Due el₀ a ∧ a ∉ Eventloop.fired tr ∧ a ∉ destroyed tr := by
  cases c with
  | call c =>
    obtain ⟨a, hw⟩ := Option.ne_none_iff_exists'.1 hturn
    obtain ⟨r, el', ys', rest', hrun, h'⟩ := h.call hw hok
    refine ⟨r, el', w, ys', rest', ?_, h', by simp⟩
    simp only [Eventloop.step, hw, hrun, Option.isSome_some, if_true, Option.bind_eq_bind, Option.bind_some]
  | visit =>
    obtain ⟨a, hn⟩ := Option.ne_none_iff_exists'.1 hturn.2
    obtain ⟨r, el', w', ys', rest', hrun, h', hcase⟩ := h.visit hturn.1 hn
    refine ⟨.timer r, el', w', ys', rest', ?_, h', fun b _ hb => ?_⟩
    · simp only [Eventloop.step, hturn.1, hrun, Option.isSome_none, Bool.false_eq_true, if_false,
        Option.bind_eq_bind, Option.bind_some]
    · obtain rfl := Answer.timer.inj hb
      rcases hcase with hcase | ⟨hab, hcase⟩
      · cases hcase
      · rw [Option.some.inj hab]
        exact hcase
  | ret =>
    obtain ⟨a, hw⟩ := Option.ne_none_iff_exists'.1 hturn
    obtain ⟨el', w', ys', hrun, h'⟩ := h.ret hw hok
    refine ⟨_, el', w', ys', rest, ?_, h', by simp⟩
    simp only [Eventloop.step, hrun, hw, Option.bind_eq_bind, Option.bind_some]
  | synchronize now => exact absurd hok id
  | runTimers => exact absurd hok id
  | timeoutOnce timeout now => exact absurd hok id
  | finish now => exact absurd hok id
  | select => exact absurd hok id

/-- A step of a pass that is answered had its turn. -/
theorem turn_of_step {k : Option ℤ} {c : Step} {s : Eventloop × Control}
    (hok : Careful (el, .running w k) c) (hstep : step (el, .running w k) c = some (r, s)) : Turn w c := by
  cases c with
  | call c =>
    intro hw
    simp [Eventloop.step, hw] at hstep
  | visit =>
    refine ⟨?_, fun hn => ?_⟩
    · by_contra hw
      obtain ⟨a, ha⟩ := Option.ne_none_iff_exists'.1 hw
      simp [Eventloop.step, ha] at hstep
    · simp [Eventloop.step, Eventloop.visit, hn] at hstep
  | ret =>
    intro hw
    simp [Eventloop.step, Eventloop.afterCallback, hw] at hstep
  | synchronize now => exact absurd hok id
  | runTimers => exact absurd hok id
  | timeoutOnce timeout now => exact absurd hok id
  | finish now => exact absurd hok id
  | select => exact absurd hok id

/-- **The runs of a pass** keep its invariant. -/
theorem PassRuns.inv {k : Option ℤ} {s : Eventloop × Control} (h₀ : Good el₀ xs₀)
    (h : PassRuns el₀ k tr s) : ∃ el w ys rest, s = (el, .running w k) ∧
      PassInv el₀ xs₀ tr el w ys rest := by
  obtain ⟨w₀, hw₀, hrun⟩ := h
  rw [h₀.runTimersBegin] at hw₀
  obtain rfl := Option.some.inj hw₀
  induction hrun with
  | nil => exact ⟨_, _, _, _, rfl, passInv_begin h₀⟩
  | snoc hrun hok hstep ih =>
    obtain ⟨el, w, ys, rest, rfl, hinv⟩ := ih
    obtain ⟨r, el', w', ys', rest', hstep', hinv', -⟩ := hinv.step hok (turn_of_step hok hstep)
    obtain ⟨rfl, rfl⟩ := Prod.mk.inj (Option.some.inj (hstep.symm.trans hstep'))
    exact ⟨el', w', ys', rest', rfl, hinv'⟩

/-- Where the walk is over, every timer that was due was called or destroyed. -/
theorem PassInv.fired_of_due (h : PassInv el₀ xs₀ tr el w ys rest) (hw : w.timer = none) (hn : w.n = none)
    (ha : a ∈ xs₀) (hdue : Due el₀ a) : a ∈ Eventloop.fired tr ∨ a ∈ destroyed tr := by
  have hold := h.start.old a ha
  by_cases hmem : a ∈ ys ++ w.timer.toList ++ rest
  · rcases mem_xs.1 hmem with hy | hwa | hr
    · exact Or.inl (h.behind a hy hdue)
    · rw [hw] at hwa
      cases hwa
    · have hahead := h.ahead
      rw [if_pos hw, hn] at hahead
      rcases hahead with ⟨hp, -⟩ | ⟨-, hall⟩
      · rw [List.head?_eq_none_iff.1 hp.symm] at hr
        cases hr
      · exact absurd hold (not_lt.2 (hall a hr))
  · rw [h.list, List.mem_filter, not_and] at hmem
    have hkept := hmem (List.mem_append_left _ ha)
    rw [kept_iff, not_and_or, not_not, not_not] at hkept
    exact hkept.symm.imp_left fun hr => h.returned_sub hr.1

/-- **A pass calls each timer that is due once**: in every state a careful
pass reaches, the timers called were due when it began, each was called once,
none after it was destroyed, and the list has the timers that were kept and
those added, each once. The next step is answered, so nothing was freed that
is used again, and where the walk is over every timer that was due was
called, unless it was destroyed before. -/
theorem pass_calls_due {k : Option ℤ} {s : Eventloop × Control} (h₀ : Good el₀ xs₀)
    (h : PassRuns el₀ k tr s) : ∃ el w xs, s = (el, .running w k) ∧
      EventloopTimer.nodeField.Holds el.timers el.timerList xs ∧ (∀ a, a ∈ el.timers.live ↔ a ∈ xs) ∧
      xs = (xs₀ ++ added tr).filter (kept el₀ tr) ∧
      (fired tr).Nodup ∧ (∀ a ∈ fired tr, a ∈ xs₀ ∧ Due el₀ a) ∧
      visits tr ≤ xs₀.length + (added tr).length ∧
      (w.timer = none → w.n = none → ∀ a ∈ xs₀, Due el₀ a → a ∈ fired tr ∨ a ∈ destroyed tr) ∧
      ∀ c, Careful s c → Turn w c → ∃ r s', step s c = some (r, s') ∧
        ∀ a, c = .visit → r = .timer (some a) → a ∉ fired tr ∧ a ∉ destroyed tr := by
  obtain ⟨el, w, ys, rest, rfl, hinv⟩ := h.inv h₀
  refine ⟨el, w, _, rfl, hinv.good.list, hinv.good.live, hinv.list, hinv.nodup, hinv.due, ?_,
    fun hw hn a ha hdue => hinv.fired_of_due hw hn ha hdue, fun c hok hturn => ?_⟩
  · have := hinv.visits
    omega
  · obtain ⟨r, el', w', -, -, hstep, -, hcase⟩ := hinv.step hok hturn
    exact ⟨r, _, hstep, fun a hc hr => (hcase a hc hr).2.2⟩

/-- Three timers that are due: the one in the middle is called again and again. -/
def threeTimers : Eventloop :=
  (((create 0 0).timerAddOnce none (some 7) none 1).bind fun r => (r.2.timerAdd none (some 8) none 2).bind fun r =>
    (r.2.timerAddOnce none (some 9) none 3).map fun r => r.2.synchronize 5).get rfl

theorem good_threeTimers : Good threeTimers [0, 1, 2] := by
  obtain ⟨el₁, h₁, el₂, h₂, el₃, h₃, heq⟩ : ∃ el₁, (create 0 0).timerAddReal none (some 7) none 1 0 = some (some 0, el₁) ∧
      ∃ el₂, el₁.timerAddReal none (some 8) none 2 2 = some (some 1, el₂) ∧
      ∃ el₃, el₂.timerAddReal none (some 9) none 3 0 = some (some 2, el₃) ∧ el₃.synchronize 5 = threeTimers :=
    ⟨_, rfl, _, rfl, _, rfl, rfl⟩
  have h := (((good_create 0 0).added h₁).added h₂).added h₃
  exact heq ▸ h.congr rfl rfl rfl

/-- The first callback adds a timer and destroys the last one: the other two are called, and the one in the middle
and the new one are left. -/
theorem pass_calls_due_three : ∃ tr el w, PassRuns threeTimers none tr (el, .running w none) ∧
    fired tr = [0, 1] ∧ EventloopTimer.nodeField.Holds el.timers el.timerList [1, 3] := by
  have h₁ : Run step Careful (threeTimers, .running ⟨5, some 0, some 1, none⟩ none)
      ([] ++ [(.visit, .timer (some 0))]) _ := Run.nil.snoc trivial rfl
  have h₂ := h₁.snoc (a := .call (.destroy 2)) (b := .unit) (by
    refine ⟨fun a ha => ?_, nofun⟩
    obtain rfl := Call.destroy.inj ha
    exact ⟨by decide, by decide, by decide⟩) rfl
  have h₃ := h₂.snoc (a := .call (.addOnce none (some 6) none 4)) (b := .timer (some 3)) (by
    refine ⟨nofun, fun when frequency h => ?_⟩
    obtain ⟨rfl, rfl⟩ := Prod.mk.inj (Option.some.inj h)
    exact ⟨by decide, .inl (by decide)⟩) rfl
  have hret : ∀ {el : Eventloop} {w : Walk} {x : EventloopTimer}, w.timer.bind el.timers.get = some x →
      (x.frequency ≠ 0 → timeAdd w.currtime x.frequency ≠ none) → Careful (el, .running w none) .ret := by
    intro el w x hx hall a t ha hget
    rw [ha, Option.bind_some, hget] at hx
    exact Option.some.inj hx ▸ hall
  have h₄ := h₃.snoc (a := .ret) (b := .timer (some 0)) (hret rfl fun _ => by decide) rfl
  have h₅ := h₄.snoc (a := .visit) (b := .timer (some 1)) (by simp only [Careful]) rfl
  have h₆ := h₅.snoc (a := .ret) (b := .timer (some 1)) (hret rfl fun _ => by decide) rfl
  have h₇ := h₆.snoc (a := .visit) (b := .timer none) (by simp only [Careful]) rfl
  obtain ⟨el, w, xs, hs, hlist, -, hxs, -⟩ := pass_calls_due good_threeTimers ⟨_, rfl, h₇⟩
  obtain rfl : xs = [1, 3] := hxs.trans rfl
  exact ⟨_, el, w, ⟨_, rfl, hs ▸ h₇⟩, rfl, hlist⟩

/-! ## Callbacks that destroy their own timer -/

/-- Only timers that are there are destroyed. -/
def Lawful : Eventloop × Control → Step → Prop
  | (el, _), .call (.destroy a) => a ∈ el.timers.live
  | _, _ => True

/-- **A callback that destroyed its own timer**, or the one after it, has
nowhere to return to. -/
theorem Listed.ret_stuck {k : Option ℤ} (h : Listed el xs) (hw : w.timer = some a)
    (hdead : a ∉ xs ∨ ∃ b, w.tn = some b ∧ b ∉ xs) : Eventloop.step (el, .running w k) .ret = none := by
  by_cases ha : a ∈ xs
  · obtain ⟨b, hb, hbx⟩ := hdead.resolve_left (not_not.2 ha)
    obtain ⟨t, -, hbody, -⟩ := h.exists_body ha
    have hstuck : ∀ {el' : Eventloop} {xs' : List Addr}, Listed el' xs' → b ∉ xs' → el'.advance w = none := by
      intro el' xs' h' hb'
      have hnone : el'.timers.get b = none := get_eq_none.2 fun hl => hb' ((h'.live b).1 hl)
      simp only [advance, hb, Eventloop.nextOf, hnone, Option.map_none, Option.bind_eq_bind, Option.bind_none]
    have h' : Listed { el with deadline := -1 } xs := h.congr rfl rfl
    rcases h'.reschedule w.currtime hbody with
      ⟨-, -, hres⟩ | ⟨d, m, -, -, hres, hgood, -⟩ | ⟨r, m, l, -, hres, hgood, -⟩
    · simp only [Eventloop.step, Eventloop.afterCallback, hw, hres, Option.bind_eq_bind, Option.bind_some,
        Option.bind_none]
    · simp only [Eventloop.step, Eventloop.afterCallback, hw, hres, hstuck hgood hbx, Option.bind_eq_bind,
        Option.bind_some, Option.bind_none]
    · simp only [Eventloop.step, Eventloop.afterCallback, hw, hres,
        hstuck hgood fun hmem => hbx (List.mem_of_mem_erase hmem), Option.bind_eq_bind, Option.bind_some,
        Option.bind_none]
  · have hnone : el.timers.get a = none := get_eq_none.2 fun hl => ha ((h.live a).1 hl)
    simp only [Eventloop.step, Eventloop.afterCallback, hw, Eventloop.reschedule, hnone, Option.bind_eq_bind,
      Option.bind_some, Option.bind_none]

/-- **A timer that destroys itself** is used after it was freed: the pass
cannot go on from its callback. -/
theorem pass_uses_freed : ∃ tr el w, Run step Lawful (create 0 0, .idle) tr (el, .running w none) ∧
    w.timer = some 0 ∧ 0 ∉ el.timers.live ∧ step (el, .running w none) .ret = none := by
  have h₁ : Run step Lawful (create 0 0, .idle)
      ([] ++ [(.call (.addOnce none (some 7) none 0), .timer (some 0))]) _ := Run.nil.snoc trivial rfl
  have h₂ := h₁.snoc (a := .runTimers) (b := .unit) (by simp only [Lawful]) rfl
  have h₃ := h₂.snoc (a := .visit) (b := .timer (some 0)) (by simp only [Lawful]) rfl
  have h₄ := h₃.snoc (a := .call (.destroy 0)) (b := .unit)
    (by simp only [Lawful]; exact mem_live.2 ⟨_, rfl⟩) rfl
  exact ⟨_, _, _, h₄, rfl, get_eq_none.1 rfl, rfl⟩

end Eventloop

end Mowgli
