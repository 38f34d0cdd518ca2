import Mowgli.Eventloop.Timer.Model
import Mowgli.Library.Run
/-!
# The list of timers

`Good` says what the timers of an event loop are: the list holds each timer
there is, once. Every step keeps it, whatever the callbacks do, where it
answers at all. What a call does to the timers is told by `bodies`, the
timers but for their nodes.
-/

namespace Mowgli

namespace Eventloop

open Store

variable {el el' : Eventloop} {m m' : Store EventloopTimer} {xs ys zs : List Addr} {a b : Addr}
variable {t : EventloopTimer} {w w' : Walk} {now : ℤ}

/-- A timer but for its node. -/
def strip (t : EventloopTimer) : EventloopTimer := { t with node := ⟨none, none, none⟩ }

/-- The timers of a store, but for their nodes. -/
def bodies (m : Store EventloopTimer) (a : Addr) : Option EventloopTimer := (m.get a).map strip

/-- **The list has the timers `xs`**, which are all there are. -/
structure Listed (el : Eventloop) (xs : List Addr) : Prop where
  list : EventloopTimer.nodeField.Holds el.timers el.timerList xs
  data : ∀ a ∈ xs, EventloopTimer.nodeField.data el.timers a = some (some a)
  live : ∀ a, a ∈ el.timers.live ↔ a ∈ xs

/-- The timers are listed, and their addresses are numbers of allocations. -/
structure Good (el : Eventloop) (xs : List Addr) : Prop extends Listed el xs where
  old : ∀ a ∈ xs, a < el.allocated

theorem listed_create (currtime epochbias : ℤ) : Listed (create currtime epochbias) [] :=
  ⟨NodeField.holds_zero _, by simp, by simp [create]⟩

theorem good_create (currtime epochbias : ℤ) : Good (create currtime epochbias) [] :=
  ⟨listed_create currtime epochbias, by simp⟩

/-- What the timers are does not hang on the clock, the cache and the log. -/
theorem Listed.congr (h : Listed el xs) (ht : el'.timers = el.timers) (hl : el'.timerList = el.timerList) :
    Listed el' xs := by
  obtain ⟨h₁, h₂, h₃⟩ := h
  rw [← ht, ← hl] at h₁
  rw [← ht] at h₂ h₃
  exact ⟨h₁, h₂, h₃⟩

/-- Fewer timers are good ones. -/
theorem Good.of_listed {xs' : List Addr} (h : Good el xs) (h' : Listed el' xs') (hsub : ∀ a ∈ xs', a ∈ xs)
    (ha : el'.allocated = el.allocated) : Good el' xs' :=
  ⟨h', fun a hmem => ha ▸ h.old a (hsub a hmem)⟩

theorem Good.congr (h : Good el xs) (ht : el'.timers = el.timers) (hl : el'.timerList = el.timerList)
    (ha : el'.allocated = el.allocated) : Good el' xs :=
  h.of_listed (h.toListed.congr ht hl) (fun _ hmem => hmem) ha

/-- The next number is new. -/
theorem Good.fresh (h : Good el xs) : el.allocated ∉ xs := fun hmem => lt_irrefl _ (h.old _ hmem)

theorem bodies_of_keeps (h : EventloopTimer.nodeField.Keeps m m') : bodies m' = bodies m :=
  funext (h strip fun _ _ => rfl)

theorem bodies_set (m : Store EventloopTimer) (a : Addr) (t : EventloopTimer) :
    bodies (m.set a t) = Function.update (bodies m) a (some (strip t)) := by
  funext b
  rw [bodies, get_set, Function.update_apply]
  split_ifs <;> rfl

theorem bodies_free (m : Store EventloopTimer) (a : Addr) :
    bodies (m.free a) = Function.update (bodies m) a none := by
  funext b
  rw [bodies, get_free, Function.update_apply]
  split_ifs <;> rfl

theorem exists_of_bodies (h : bodies m a = some t) : ∃ t', m.get a = some t' ∧ strip t' = t := by
  rwa [bodies, Option.map_eq_some_iff] at h

theorem Listed.exists_body (h : Listed el xs) (ha : a ∈ xs) :
    ∃ t, el.timers.get a = some t ∧ bodies el.timers a = some (strip t) ∧ t.node.data = some a := by
  obtain ⟨t, ht⟩ := mem_live.1 ((h.live a).2 ha)
  refine ⟨t, ht, by rw [bodies, ht]; rfl, ?_⟩
  have hd := h.data a ha
  rw [NodeField.data, ht] at hd
  exact Option.some.inj hd

theorem Listed.mem_of_get (h : Listed el xs) (ha : el.timers.get a = some t) : a ∈ xs :=
  (h.live a).1 (mem_live.2 ⟨t, ha⟩)

theorem Listed.mem_of_body (h : Listed el xs) (ha : bodies el.timers a = some t) : a ∈ xs := by
  obtain ⟨t', ht', -⟩ := exists_of_bodies ha
  exact h.mem_of_get ht'

theorem timeAdd_eq_some {x y z : ℤ} : timeAdd x y = some z ↔
    (-TIME_MAX - 1 ≤ x + y ∧ x + y ≤ TIME_MAX) ∧ z = x + y := by
  rw [timeAdd]
  split_ifs with h
  · simp [h, eq_comm]
  · exact iff_of_false (by simp) fun h' => h h'.1

/-- **Adding a timer**, at an address that is free. -/
theorem Listed.timerAddReal (h : Listed el xs) (hnew : el.allocated ∉ xs) (name arg : Option Addr) (func : Addr)
    (frequency : ℤ) {when d : ℤ} (hd : timeAdd el.getTime when = some d) :
    ∃ m l, el.timerAddReal name (some func) arg when frequency = some (some el.allocated,
        { el with
          timers := m
          allocated := el.allocated + 1
          deadline := if el.deadline ≠ -1 ∧ d ≤ el.deadline then d else el.deadline
          timerList := l }) ∧
      Listed { el with
        timers := m
        allocated := el.allocated + 1
        deadline := if el.deadline ≠ -1 ∧ d ≤ el.deadline then d else el.deadline
        timerList := l } (xs ++ [el.allocated]) ∧
      bodies m = Function.update (bodies el.timers) el.allocated
        (some ⟨⟨none, none, none⟩, func, arg, name, frequency, d, true⟩) := by
  have hne : ∀ a ∈ xs, a ≠ el.allocated := fun a ha => ne_of_mem_of_not_mem ha hnew
  have hlist : EventloopTimer.nodeField.Holds
      (el.timers.set el.allocated ⟨⟨none, none, none⟩, func, arg, name, frequency, d, true⟩)
      el.timerList xs := h.list.congr fun a ha => by
    rw [NodeField.links, NodeField.links, get_set_of_ne _ _ (hne a ha)]
  obtain ⟨m', l', hadd, hlist', hkeeps, hdn, hdo⟩ := hlist.nodeAdd (some el.allocated)
    (mem_live_set.2 (Or.inl rfl)) hnew
  refine ⟨m', l', ?_, ⟨hlist', fun a ha => ?_, fun a => ?_⟩, ?_⟩
  · simp only [Eventloop.timerAddReal, hd, Option.bind_eq_bind, Option.bind_some, hadd]
  · by_cases hae : a = el.allocated
    · rw [hae, hdn]
    · have hax : a ∈ xs := by simpa [hae] using ha
      rw [hdo a hae, NodeField.data, get_set_of_ne _ _ hae]
      exact h.data a hax
  · dsimp only
    rw [hkeeps.live, mem_live_set, h.live, List.mem_append, List.mem_singleton, or_comm]
  · rw [bodies_of_keeps hkeeps, bodies_set]
    rfl

/-- With the timer that was added, they are good ones. -/
theorem Good.of_added (h : Good el xs) (h' : Listed el' (xs ++ [el.allocated])) (ha : el'.allocated = el.allocated + 1) :
    Good el' (xs ++ [el.allocated]) := by
  refine ⟨h', fun a hmem => ?_⟩
  rw [ha]
  rcases List.mem_append.1 hmem with hmem | hmem
  · exact Nat.lt_succ_of_lt (h.old a hmem)
  · rw [List.mem_singleton.1 hmem]
    exact Nat.lt_succ_self _

theorem Good.added (h : Good el xs) {name arg : Option Addr} {func : Addr} {when frequency : ℤ}
    (hadd : el.timerAddReal name (some func) arg when frequency = some (some a, el')) : Good el' (xs ++ [a]) := by
  obtain ⟨d, hd, -⟩ := Option.bind_eq_some_iff.1 hadd
  obtain ⟨m, l, hadd', hlisted, -⟩ := h.timerAddReal h.fresh name arg func frequency hd
  obtain ⟨ha, rfl⟩ := Prod.mk.inj (Option.some.inj (hadd.symm.trans hadd'))
  obtain rfl := Option.some.inj ha
  exact h.of_added hlisted rfl

/-- **Destroying a timer.** -/
theorem Listed.timerDestroy (h : Listed el xs) (ha : a ∈ xs) :
    ∃ r m l, el.timerDestroy a = some { el with lastRan := r, timers := m, timerList := l } ∧
      Listed { el with lastRan := r, timers := m, timerList := l } (xs.erase a) ∧
      bodies m = Function.update (bodies el.timers) a none := by
  obtain ⟨t, ht, -, -⟩ := h.exists_body ha
  obtain ⟨ys, zs, rfl⟩ := List.append_of_mem ha
  have hnd := h.list.nodup
  obtain ⟨hna, -⟩ := List.nodup_cons.1 (List.nodup_middle.1 hnd)
  have herase : (ys ++ a :: zs).erase a = ys ++ zs := by
    rw [List.erase_append_right _ fun hy => hna (List.mem_append_left _ hy), List.erase_cons_head]
  obtain ⟨m', l', hdel, hlist', hkeeps, hd⟩ := h.list.nodeDelete
  have hne : ∀ b ∈ ys ++ zs, b ≠ a := fun b hb => ne_of_mem_of_not_mem hb hna
  have hsub : ∀ b, b ∈ ys ++ a :: zs ↔ b = a ∨ b ∈ ys ++ zs := by
    intro b
    simp only [List.mem_append, List.mem_cons]
    tauto
  refine ⟨if el.lastRan = .name t.name then .removed else el.lastRan, m'.free a, l', ?_, ?_, ?_⟩
  · simp only [Eventloop.timerDestroy, ht, Option.bind_eq_bind, Option.bind_some, hdel]
  · rw [herase]
    refine ⟨hlist'.congr fun b hb => ?_, fun b hb => ?_, fun b => ?_⟩
    · rw [NodeField.links, NodeField.links, get_free_of_ne _ (hne b hb)]
    · rw [NodeField.data, get_free_of_ne _ (hne b hb)]
      exact (congrFun hd b).trans (h.data b ((hsub b).2 (Or.inr hb)))
    · rw [mem_live_free, hkeeps.live, h.live, hsub]
      refine ⟨fun hb => hb.2.resolve_left hb.1, fun hb => ⟨hne b hb, Or.inr hb⟩⟩
  · rw [bodies_free, bodies_of_keeps hkeeps]

/-! ## The earliest deadline -/

/-- The earliest deadline, as `next_timer` looks for it. -/
def earliest (B : Addr → Option EventloopTimer) : List Addr → ℤ → ℤ
  | [], deadline => deadline
  | a :: xs, deadline => earliest B xs ((B a).elim deadline fun t =>
      if t.active ∧ (t.deadline < deadline ∨ deadline = -1) then t.deadline else deadline)

/-- What is found is a deadline, if anything is. -/
theorem earliest_mem (B : Addr → Option EventloopTimer) (xs : List Addr) (d : ℤ) :
    earliest B xs d = d ∨ ∃ a ∈ xs, ∃ t, B a = some t ∧ t.active ∧ earliest B xs d = t.deadline := by
  induction xs generalizing d with
  | nil => exact Or.inl rfl
  | cons a xs ih =>
    rw [earliest]
    cases ha : B a with
    | none =>
      rcases ih d with h | ⟨b, hb, t, hbt, h⟩
      · exact Or.inl h
      · exact Or.inr ⟨b, List.mem_cons_of_mem _ hb, t, hbt, h⟩
    | some t =>
      rw [Option.elim_some]
      split_ifs with hif
      · rcases ih t.deadline with h | ⟨b, hb, t', hbt, h⟩
        · exact Or.inr ⟨a, List.mem_cons_self .., t, ha, hif.1, h⟩
        · exact Or.inr ⟨b, List.mem_cons_of_mem _ hb, t', hbt, h⟩
      · rcases ih d with h | ⟨b, hb, t', hbt, h⟩
        · exact Or.inl h
        · exact Or.inr ⟨b, List.mem_cons_of_mem _ hb, t', hbt, h⟩

/-- No deadline is earlier, where no deadline can be taken for the mark that
there is none. -/
theorem earliest_le {B : Addr → Option EventloopTimer} {xs : List Addr} {d : ℤ} (hd : -1 ≤ d)
    (hxs : ∀ a ∈ xs, ∃ t, B a = some t ∧ t.active = true ∧ 0 ≤ t.deadline) :
    -1 ≤ earliest B xs d ∧ (d ≠ -1 → earliest B xs d ≠ -1 ∧ earliest B xs d ≤ d) ∧
      (xs ≠ [] → earliest B xs d ≠ -1) ∧ ∀ a ∈ xs, ∀ t, B a = some t → earliest B xs d ≤ t.deadline := by
  induction xs generalizing d with
  | nil => exact ⟨hd, fun h => ⟨h, le_rfl⟩, by simp, by simp⟩
  | cons a xs ih =>
    obtain ⟨t, ha, hact, hpos⟩ := hxs a (List.mem_cons_self ..)
    have hd' : ∃ d', d' = (if t.active ∧ (t.deadline < d ∨ d = -1) then t.deadline else d) ∧
        -1 ≤ d' ∧ d' ≠ -1 ∧ d' ≤ t.deadline ∧ (d ≠ -1 → d' ≤ d) := by
      refine ⟨_, rfl, ?_⟩
      split_ifs with hif
      · refine ⟨by omega, by omega, le_rfl, fun hne => ?_⟩
        have := hif.2.resolve_right hne
        omega
      · rw [not_and, not_or] at hif
        have := hif hact
        omega
    obtain ⟨d', hd', hge, hne, hle, hle'⟩ := hd'
    obtain ⟨h₁, h₂, -, h₄⟩ := ih hge fun b hb => hxs b (List.mem_cons_of_mem _ hb)
    rw [earliest, ha, Option.elim_some, ← hd']
    obtain ⟨hr, hrd⟩ := h₂ hne
    refine ⟨h₁, fun h => ⟨hr, hrd.trans (hle' h)⟩, fun _ => hr, fun b hb t' ht' => ?_⟩
    rcases List.mem_cons.1 hb with rfl | hb
    · rw [ha] at ht'
      rw [← Option.some.inj ht']
      exact hrd.trans hle
    · exact h₄ b hb t' ht'

theorem Listed.nextTimerLoop (h : Listed el (ys ++ zs)) {k : ℕ} (hk : zs.length ≤ k) (d : ℤ) :
    nextTimerLoop el.timers k zs.head? d = some (earliest (bodies el.timers) zs d) := by
  induction zs generalizing ys k d with
  | nil => cases k <;> rfl
  | cons a zs ih =>
    obtain ⟨t, ht, hb, hdata⟩ := h.exists_body (a := a) (by simp)
    obtain ⟨t', ht', hnext⟩ := h.list.next_eq
    obtain rfl := Option.some.inj (ht.symm.trans ht')
    obtain ⟨k, rfl⟩ : ∃ k', k = k' + 1 := ⟨k - 1, by rw [List.length_cons] at hk; omega⟩
    have hnext' : t.node.next = zs.head? := hnext
    have h' : Listed el ((ys ++ [a]) ++ zs) := by simpa using h
    have hrec := ih h' (k := k) (by rw [List.length_cons] at hk; omega)
    rw [earliest, hb, Option.elim_some]
    simp only [Eventloop.nextTimerLoop, List.head?_cons, ht, hdata, hnext', Option.bind_eq_bind,
      Option.bind_some, hrec]
    rfl

/-- The cached deadline, or the earliest where there is none. -/
def cached (el : Eventloop) (xs : List Addr) : ℤ :=
  if el.deadline = -1 then earliest (bodies el.timers) xs (-1) else el.deadline

/-- **`next_timer`** answers the cached deadline, and fills the cache. -/
theorem Listed.nextTimer (h : Listed el xs) :
    el.nextTimer = some (el.cached xs, { el with deadline := el.cached xs }) := by
  have hcard : xs.length ≤ el.timers.live.card := by
    rw [← List.toFinset_card_of_nodup h.list.nodup]
    refine Finset.card_le_card fun a ha => ?_
    rw [h.live]
    exact List.mem_toFinset.1 ha
  rw [Eventloop.nextTimer, cached]
  split_ifs with hd
  · have hloop := @Listed.nextTimerLoop el [] xs h _ hcard (-1)
    rw [← h.list.head_eq] at hloop
    rw [hloop]
    rfl
  · rfl

/-! ## Calls -/

/-- The timer a call adds: how long from now, and how often. -/
def Call.adds : Call → Option (ℤ × ℤ)
  | .add _ (some _) _ when => some (when, when)
  | .addOnce _ (some _) _ when => some (when, 0)
  | _ => none

/-- Whether a step adds a timer. -/
def Step.adds : Step → Bool
  | .call c => c.adds.isSome
  | _ => false

/-- **What a call does** to an event loop with the timers `xs`. -/
inductive CallSpec (el : Eventloop) (xs : List Addr) (c : Call) :
    Answer → Eventloop → List Addr → Prop
  | added {when frequency d : ℤ} {t : EventloopTimer} {m : Store EventloopTimer} {l : MowgliList}
      (adds : c.adds = some (when, frequency)) (deadline : timeAdd el.getTime when = some d)
      (timer : t.deadline = d ∧ t.frequency = frequency ∧ t.active = true)
      (body : bodies m = Function.update (bodies el.timers) el.allocated (some t)) :
      CallSpec el xs c (.timer (some el.allocated))
        { el with
          timers := m
          allocated := el.allocated + 1
          deadline := if el.deadline ≠ -1 ∧ d ≤ el.deadline then d else el.deadline
          timerList := l } (xs ++ [el.allocated])
  | destroyed {a : Addr} {r : LastRan} {m : Store EventloopTimer} {l : MowgliList}
      (call : c = .destroy a) (mem : a ∈ xs) (body : bodies m = Function.update (bodies el.timers) a none) :
      CallSpec el xs c .unit { el with lastRan := r, timers := m, timerList := l } (xs.erase a)
  | looked (call : c = .nextTimer) :
      CallSpec el xs c (.time (el.cached xs)) { el with deadline := el.cached xs } xs
  | refused (adds : c.adds = none) (other : ∀ a, c ≠ .destroy a) (log : List LogLine) :
      CallSpec el xs c (.timer none) { el with log := log } xs

/-- A call leaves good timers good. -/
theorem CallSpec.good {c : Call} {r : Answer} {xs' : List Addr} (hspec : CallSpec el xs c r el' xs') (h : Good el xs)
    (h' : Listed el' xs') : Good el' xs' := by
  cases hspec with
  | added => exact h.of_added h' rfl
  | destroyed => exact h.of_listed h' (fun _ => List.mem_of_mem_erase) rfl
  | looked => exact h.of_listed h' (fun _ hmem => hmem) rfl
  | refused => exact h.of_listed h' (fun _ hmem => hmem) rfl

theorem Listed.call_add (h : Listed el xs) (hnew : el.allocated ∉ xs) {c : Call} {name arg : Option Addr} {func : Addr}
    {when frequency : ℤ} (hc : c.adds = some (when, frequency))
    (hrun : c.run el =
      (el.timerAddReal name (some func) arg when frequency).map fun r => (.timer r.1, r.2)) :
    (∃ r el' xs', c.run el = some (r, el') ∧ Listed el' xs' ∧ CallSpec el xs c r el' xs') ∨
      (c.run el = none ∧ timeAdd el.getTime when = none) := by
  cases hd : timeAdd el.getTime when with
  | none =>
    refine Or.inr ⟨?_, rfl⟩
    rw [hrun, Eventloop.timerAddReal, hd]
    rfl
  | some d =>
    obtain ⟨m, l, hadd, hgood, hbody⟩ := h.timerAddReal hnew name arg func frequency hd
    exact Or.inl ⟨_, _, _, by rw [hrun, hadd]; rfl, hgood, .added hc hd ⟨rfl, rfl, rfl⟩ hbody⟩

/-- **A call** is answered unless it destroys what is not there, or adds a
timer past the end of time. -/
theorem Listed.call (h : Listed el xs) (c : Call) (hnew : c.adds.isSome → el.allocated ∉ xs) :
    (∃ r el' xs', c.run el = some (r, el') ∧ Listed el' xs' ∧ CallSpec el xs c r el' xs') ∨
      (c.run el = none ∧ ((∃ a, c = .destroy a ∧ a ∉ xs) ∨
        ∃ when frequency, c.adds = some (when, frequency) ∧ timeAdd el.getTime when = none)) := by
  cases c with
  | add name func arg when =>
    cases func with
    | none => exact Or.inl ⟨_, _, xs, rfl, h.congr rfl rfl, .refused rfl (by simp) _⟩
    | some func =>
      rcases h.call_add (hnew rfl) (c := .add name (some func) arg when) rfl rfl with hl | ⟨hnone, hd⟩
      · exact Or.inl hl
      · exact Or.inr ⟨hnone, Or.inr ⟨when, when, rfl, hd⟩⟩
  | addOnce name func arg when =>
    cases func with
    | none => exact Or.inl ⟨_, _, xs, rfl, h.congr rfl rfl, .refused rfl (by simp) _⟩
    | some func =>
      rcases h.call_add (hnew rfl) (c := .addOnce name (some func) arg when) rfl rfl with hl | ⟨hnone, hd⟩
      · exact Or.inl hl
      · exact Or.inr ⟨hnone, Or.inr ⟨when, 0, rfl, hd⟩⟩
  | destroy a =>
    by_cases ha : a ∈ xs
    · obtain ⟨r, m, l, hrun, hgood, hbody⟩ := h.timerDestroy ha
      exact Or.inl ⟨_, _, _, by rw [Call.run, hrun]; rfl, hgood, .destroyed rfl ha hbody⟩
    · refine Or.inr ⟨?_, Or.inl ⟨a, rfl, ha⟩⟩
      have hnone : el.timers.get a = none := get_eq_none.2 fun hmem => ha ((h.live a).1 hmem)
      rw [Call.run, Eventloop.timerDestroy, hnone]
      rfl
  | nextTimer =>
    exact Or.inl ⟨.time (el.cached xs), { el with deadline := el.cached xs }, xs,
      by rw [Call.run, h.nextTimer]; rfl, h.congr rfl rfl, .looked rfl⟩

/-! ## The walk -/

/-- The way on from a timer, or from none. -/
theorem Listed.nextOf (h : Listed el (ys ++ zs)) : el.nextOf zs.head? = some zs.tail.head? := by
  cases zs with
  | nil => rfl
  | cons a zs =>
    obtain ⟨t, ht, hnext⟩ := h.list.next_eq
    have hnext' : t.node.next = zs.head? := hnext
    rw [List.head?_cons, Eventloop.nextOf, ht, Option.map_some, hnext', List.tail_cons]

/-- **What becomes of a timer that was called.** -/
theorem Listed.reschedule (h : Listed el xs) (now : ℤ) (hb : bodies el.timers a = some t) :
    (t.frequency ≠ 0 ∧ timeAdd now t.frequency = none ∧ el.reschedule a now = none) ∨
    (∃ d m, t.frequency ≠ 0 ∧ timeAdd now t.frequency = some d ∧
      el.reschedule a now = some { el with timers := m } ∧ Listed { el with timers := m } xs ∧
      bodies m = Function.update (bodies el.timers) a (some { t with deadline := d })) ∨
    (∃ r m l, t.frequency = 0 ∧
      el.reschedule a now = some { el with lastRan := r, timers := m, timerList := l } ∧
      Listed { el with lastRan := r, timers := m, timerList := l } (xs.erase a) ∧
      bodies m = Function.update (bodies el.timers) a none) := by
  obtain ⟨t', ht', rfl⟩ := exists_of_bodies hb
  by_cases hf : t'.frequency = 0
  · obtain ⟨r, m, l, hdes, hgood, hbody⟩ :=
      (show Listed { el with lastRan := .onceonly } xs from h.congr rfl rfl).timerDestroy (h.mem_of_get ht')
    refine Or.inr (Or.inr ⟨r, m, l, hf, ?_, hgood, hbody⟩)
    simp only [Eventloop.reschedule, ht', hf, ne_eq, not_true_eq_false, if_false, Option.bind_eq_bind,
      Option.bind_some, hdes]
  · cases hd : timeAdd now t'.frequency with
    | none =>
      refine Or.inl ⟨hf, hd, ?_⟩
      simp only [Eventloop.reschedule, ht', hf, ne_eq, not_false_eq_true, if_true, Option.bind_eq_bind,
        Option.bind_some, hd, Option.bind_none]
    | some d =>
      have hsame : Same EventloopTimer.node el.timers (el.timers.set a { t' with deadline := d }) :=
        Same.set ht' rfl
      have hl : EventloopTimer.nodeField.links (el.timers.set a { t' with deadline := d }) =
          EventloopTimer.nodeField.links el.timers := funext (hsame.comp fun n => (n.prev, n.next))
      have hdata : EventloopTimer.nodeField.data (el.timers.set a { t' with deadline := d }) =
          EventloopTimer.nodeField.data el.timers := funext (hsame.comp fun n => n.data)
      refine Or.inr (Or.inl ⟨d, el.timers.set a { t' with deadline := d }, hf, hd, ?_,
        ⟨h.list.congr fun b _ => congrFun hl b, fun b hb => (congrFun hdata b).trans (h.data b hb),
          fun b => ?_⟩, ?_⟩)
      · simp only [Eventloop.reschedule, ht', hf, ne_eq, not_false_eq_true, if_true, Option.bind_eq_bind,
          Option.bind_some, hd, modify_of_get _ ht']
      · rw [hsame.live, h.live]
      · rw [bodies_set]
        rfl

theorem Listed.runTimersBegin (h : Listed el xs) :
    el.runTimersBegin = some ⟨el.getTime, xs.head?, xs.tail.head?, none⟩ := by
  rw [Eventloop.runTimersBegin, h.list.head_eq, Option.bind_eq_bind]
  rw [@Listed.nextOf el [] xs h, Option.bind_some]

/-- **A visit** to a timer. -/
theorem Listed.visit (h : Listed el xs) (hn : w.n = some a) (hb : bodies el.timers a = some t) :
    el.visit w = if t.active ∧ t.deadline ≤ w.currtime then
        some (some a, { el with lastRan := .name t.name }, { w with timer := some a })
      else (el.advance w).map fun w => (none, el, w) := by
  obtain ⟨t', ht', rfl⟩ := exists_of_bodies hb
  obtain ⟨t, ht, -, hdata⟩ := h.exists_body (h.mem_of_get ht')
  obtain rfl := Option.some.inj (ht.symm.trans ht')
  simp only [Eventloop.visit, hn, ht, hdata, Option.bind_eq_bind, Option.bind_some, strip]
  split_ifs
  · rfl
  · cases el.advance w <;> rfl

/-- **`timeout_once`** fills the cache, and walks the timers or polls. -/
theorem Listed.timeoutLoop (h : Listed el xs) (timeout now : ℤ) :
    el.timeoutLoop timeout now = some ({ el with currtime := now, deadline := el.cached xs },
      if el.cached xs ≠ -1 ∧ el.cached xs ≤ el.epochbias + now then
        .running ⟨el.epochbias + now, xs.head?, xs.tail.head?, none⟩ (some timeout)
      else .polling ⟨el.epochbias + now, el.cached xs, timeout,
        pollTime timeout (el.cached xs) (el.epochbias + now)⟩) := by
  have h' : Listed (el.synchronize now) xs := h.congr rfl rfl
  have h'' : Listed { el with currtime := now, deadline := el.cached xs } xs := h.congr rfl rfl
  have hcached : (el.synchronize now).cached xs = el.cached xs := rfl
  simp only [Eventloop.timeoutLoop, h'.nextTimer, hcached, Option.bind_eq_bind, Option.bind_some]
  rw [show ({ el.synchronize now with deadline := el.cached xs } : Eventloop) =
    { el with currtime := now, deadline := el.cached xs } from rfl, h''.runTimersBegin]
  simp only [getTime, Option.bind_some]
  by_cases hif : el.cached xs ≠ -1 ∧ el.cached xs ≤ el.epochbias + now
  · rw [if_pos hif]
    exact if_pos hif
  · rw [if_neg hif]
    exact if_neg hif

theorem Listed.call_some {c : Call} {r : Answer} (h : Listed el xs) (hnew : c.adds.isSome → el.allocated ∉ xs)
    (hrun : c.run el = some (r, el')) : ∃ xs', Listed el' xs' ∧ CallSpec el xs c r el' xs' := by
  rcases h.call c hnew with ⟨r', el'', xs', hrun', hgood, hspec⟩ | ⟨hnone, -⟩
  · obtain ⟨rfl, rfl⟩ := Prod.mk.inj (Option.some.inj (hrun.symm.trans hrun'))
    exact ⟨xs', hgood, hspec⟩
  · rw [hnone] at hrun
    cases hrun

/-- **The end of a callback**: the cache is forgotten, and the timer is set
anew or destroyed. -/
theorem Listed.afterCallback (h : Listed el xs) (hrun : el.afterCallback w = some (el', w')) :
    ∃ a t, w.timer = some a ∧ bodies el.timers a = some t ∧ el'.advance w = some w' ∧
      el'.deadline = -1 ∧ el'.currtime = el.currtime ∧ el'.epochbias = el.epochbias ∧
      el'.allocated = el.allocated ∧
      ((∃ d, t.frequency ≠ 0 ∧ timeAdd w.currtime t.frequency = some d ∧ Listed el' xs ∧
          bodies el'.timers = Function.update (bodies el.timers) a (some { t with deadline := d })) ∨
        (t.frequency = 0 ∧ Listed el' (xs.erase a) ∧
          bodies el'.timers = Function.update (bodies el.timers) a none)) := by
  simp only [Eventloop.afterCallback, Option.bind_eq_bind, Option.bind_eq_some_iff] at hrun
  obtain ⟨a, ha, el₁, hres, w₁, hadv, heq⟩ := hrun
  obtain ⟨rfl, rfl⟩ := Prod.mk.inj (Option.some.inj heq)
  have h' : Listed { el with deadline := -1 } xs := h.congr rfl rfl
  have hres' := hres
  simp only [Eventloop.reschedule, Option.bind_eq_bind, Option.bind_eq_some_iff] at hres'
  obtain ⟨t, ht, -⟩ := hres'
  have hb : bodies ({ el with deadline := -1 } : Eventloop).timers a = some (strip t) := by
    rw [bodies, ht]
    rfl
  refine ⟨a, strip t, ha, hb, hadv, ?_⟩
  rcases h'.reschedule w.currtime hb with
    ⟨-, -, hnone⟩ | ⟨d, m, hf, hd, hsome, hgood, hbody⟩ | ⟨r, m, l, hf, hsome, hgood, hbody⟩
  · rw [hnone] at hres
    cases hres
  · rw [hsome] at hres
    obtain rfl := Option.some.inj hres
    exact ⟨rfl, rfl, rfl, rfl, Or.inl ⟨d, hf, hd, hgood, hbody⟩⟩
  · rw [hsome] at hres
    obtain rfl := Option.some.inj hres
    exact ⟨rfl, rfl, rfl, rfl, Or.inr ⟨hf, hgood, hbody⟩⟩

/-- On to the next node, with the same clock. -/
theorem advance_some (h : el.advance w = some w') :
    w'.currtime = w.currtime ∧ w'.n = w.tn ∧ w'.timer = none := by
  simp only [advance, Option.bind_eq_bind, Option.bind_eq_some_iff] at h
  obtain ⟨tn, -, h⟩ := h
  rw [← Option.some.inj h]
  exact ⟨rfl, rfl, rfl⟩

/-- A visit changes no timer. -/
theorem visit_timers {r : Option Addr} (hrun : el.visit w = some (r, el', w')) :
    el'.timers = el.timers ∧ el'.timerList = el.timerList ∧ el'.allocated = el.allocated ∧
      el'.deadline = el.deadline ∧ el'.getTime = el.getTime ∧ w'.currtime = w.currtime := by
  simp only [Eventloop.visit, Option.bind_eq_bind, Option.bind_eq_some_iff] at hrun
  obtain ⟨n, -, node, -, d, -, timer, -, hrun⟩ := hrun
  split_ifs at hrun
  · obtain ⟨-, h⟩ := Prod.mk.inj (Option.some.inj hrun)
    obtain ⟨rfl, rfl⟩ := Prod.mk.inj h
    exact ⟨rfl, rfl, rfl, rfl, rfl, rfl⟩
  · simp only [Option.bind_eq_some_iff, advance, Option.bind_eq_bind] at hrun
    obtain ⟨w₁, ⟨tn, -, hw⟩, hrun⟩ := hrun
    obtain rfl := Option.some.inj hw
    obtain ⟨-, h⟩ := Prod.mk.inj (Option.some.inj hrun)
    obtain ⟨rfl, rfl⟩ := Prod.mk.inj h
    exact ⟨rfl, rfl, rfl, rfl, rfl, rfl⟩

/-- **What a step does**, with the timers `xs` in the list. -/
inductive StepSpec (el : Eventloop) (xs : List Addr) : Control → Step → Answer → Eventloop → Control → Prop
  | call {k : Control} {c : Call} {r : Answer} {el' : Eventloop} {xs' : List Addr}
      (run : c.run el = some (r, el')) (listed : Listed el' xs') (spec : CallSpec el xs c r el' xs') :
      StepSpec el xs k (.call c) r el' k
  | synchronize (now : ℤ) : StepSpec el xs .idle (.synchronize now) .unit (el.synchronize now) .idle
  | runTimers : StepSpec el xs .idle .runTimers .unit el
      (.running ⟨el.getTime, xs.head?, xs.tail.head?, none⟩ none)
  | loop {k : Control} {c : Step} {timeout now : ℤ} {el' : Eventloop} {k' : Control}
      (turn : c = .timeoutOnce timeout now ∨ c = .finish now)
      (run : el.timeoutLoop timeout now = some (el', k')) : StepSpec el xs k c .unit el' k'
  | visit {w w' : Walk} {k : Option ℤ} {r : Option Addr} {el' : Eventloop}
      (run : el.visit w = some (r, el', w')) : StepSpec el xs (.running w k) .visit (.timer r) el' (.running w' k)
  | ret {w w' : Walk} {k : Option ℤ} {el' : Eventloop} (run : el.afterCallback w = some (el', w')) :
      StepSpec el xs (.running w k) .ret (.timer w.timer) el' (.running w' k)
  | finish (w : Walk) (now : ℤ) : StepSpec el xs (.running w none) (.finish now) .unit el .idle
  | select (p : Poll) : StepSpec el xs (.polling p) .select .unit el .idle

theorem Listed.step_spec {s s' : Eventloop × Control} {c : Step} {r : Answer} (h : Listed s.1 xs)
    (hnew : c.adds = true → s.1.allocated ∉ xs) (hstep : step s c = some (r, s')) : StepSpec s.1 xs s.2 c r s'.1 s'.2 := by
  obtain ⟨el, k⟩ := s
  cases k with
  | idle =>
    cases c <;> simp only [Eventloop.step, Option.bind_eq_bind, Option.bind_eq_some_iff, reduceCtorEq] at hstep
    case call c =>
      obtain ⟨⟨r', el'⟩, hrun, heq⟩ := hstep
      obtain ⟨rfl, rfl⟩ := Prod.mk.inj (Option.some.inj heq)
      obtain ⟨xs', hlisted, hspec⟩ := h.call_some hnew hrun
      exact .call hrun hlisted hspec
    case synchronize now =>
      obtain ⟨rfl, rfl⟩ := Prod.mk.inj (Option.some.inj hstep)
      exact .synchronize now
    case runTimers =>
      obtain ⟨w, hw, heq⟩ := hstep
      rw [h.runTimersBegin] at hw
      obtain rfl := Option.some.inj hw
      obtain ⟨rfl, rfl⟩ := Prod.mk.inj (Option.some.inj heq)
      exact .runTimers
    case timeoutOnce timeout now =>
      obtain ⟨p, hrun, heq⟩ := hstep
      obtain ⟨rfl, rfl⟩ := Prod.mk.inj (Option.some.inj heq)
      exact .loop (Or.inl rfl) hrun
  | running w k =>
    cases c <;> simp only [Eventloop.step, Option.bind_eq_bind, reduceCtorEq] at hstep
    case call c =>
      split_ifs at hstep
      obtain ⟨⟨r', el'⟩, hrun, heq⟩ := Option.bind_eq_some_iff.1 hstep
      obtain ⟨rfl, rfl⟩ := Prod.mk.inj (Option.some.inj heq)
      obtain ⟨xs', hlisted, hspec⟩ := h.call_some hnew hrun
      exact .call hrun hlisted hspec
    case visit =>
      split_ifs at hstep
      obtain ⟨⟨r', el', w'⟩, hrun, heq⟩ := Option.bind_eq_some_iff.1 hstep
      obtain ⟨rfl, rfl⟩ := Prod.mk.inj (Option.some.inj heq)
      exact .visit hrun
    case ret =>
      obtain ⟨⟨el', w'⟩, hrun, heq⟩ := Option.bind_eq_some_iff.1 hstep
      obtain ⟨rfl, rfl⟩ := Prod.mk.inj (Option.some.inj heq)
      exact .ret hrun
    case finish now =>
      split_ifs at hstep
      cases k with
      | none =>
        obtain ⟨rfl, rfl⟩ := Prod.mk.inj (Option.some.inj hstep)
        exact .finish w now
      | some timeout =>
        obtain ⟨p, hrun, heq⟩ := Option.bind_eq_some_iff.1 hstep
        obtain ⟨rfl, rfl⟩ := Prod.mk.inj (Option.some.inj heq)
        exact .loop (Or.inr rfl) hrun
  | polling p =>
    cases c <;> simp only [Eventloop.step, reduceCtorEq] at hstep
    case select =>
      obtain ⟨rfl, rfl⟩ := Prod.mk.inj (Option.some.inj hstep)
      exact .select p

theorem Good.step_spec {s s' : Eventloop × Control} {c : Step} {r : Answer} (h : Good s.1 xs)
    (hstep : step s c = some (r, s')) : StepSpec s.1 xs s.2 c r s'.1 s'.2 := h.toListed.step_spec (fun _ => h.fresh) hstep

/-- Where `timeout_once` goes on to its loop, the timers are as they were. -/
theorem Listed.timeoutLoop_some (h : Listed el xs) {timeout : ℤ} {k : Control}
    (hrun : el.timeoutLoop timeout now = some (el', k)) :
    el' = { el with currtime := now, deadline := el.cached xs } ∧
      ((∃ w k', k = .running w k' ∧ w.timer = none) ∨ ∃ p, k = .polling p) := by
  rw [h.timeoutLoop] at hrun
  obtain ⟨rfl, rfl⟩ := Prod.mk.inj (Option.some.inj hrun)
  refine ⟨rfl, ?_⟩
  split_ifs
  · exact Or.inl ⟨_, _, rfl, rfl⟩
  · exact Or.inr ⟨_, rfl⟩

/-- **Every step** leaves a list of all the timers there are, and good timers good. -/
theorem Listed.step {s s' : Eventloop × Control} {c : Step} {r : Answer} (h : Listed s.1 xs)
    (hnew : c.adds = true → s.1.allocated ∉ xs) (hstep : step s c = some (r, s')) : ∃ xs', Listed s'.1 xs' ∧ (Good s.1 xs → Good s'.1 xs') := by
  obtain ⟨el, k⟩ := s
  obtain ⟨el', k'⟩ := s'
  cases h.step_spec hnew hstep with
  | call _ hlisted hspec => exact ⟨_, hlisted, fun hgood => hspec.good hgood hlisted⟩
  | synchronize => exact ⟨xs, h.congr rfl rfl, fun hgood => hgood.congr rfl rfl rfl⟩
  | runTimers => exact ⟨xs, h, fun hgood => hgood⟩
  | loop _ hrun =>
    obtain ⟨rfl, -⟩ := h.timeoutLoop_some hrun
    exact ⟨xs, h.congr rfl rfl, fun hgood => hgood.congr rfl rfl rfl⟩
  | visit hrun =>
    obtain ⟨h₁, h₂, h₃, -⟩ := visit_timers hrun
    exact ⟨xs, h.congr h₁ h₂, fun hgood => hgood.congr h₁ h₂ h₃⟩
  | ret hrun =>
    obtain ⟨_, _, -, -, -, -, -, -, ha, ⟨_, -, -, hlisted, -⟩ | ⟨-, hlisted, -⟩⟩ := h.afterCallback hrun
    · exact ⟨_, hlisted, fun hgood => hgood.of_listed hlisted (fun _ hmem => hmem) ha⟩
    · exact ⟨_, hlisted, fun hgood => hgood.of_listed hlisted (fun _ => List.mem_of_mem_erase) ha⟩
  | finish => exact ⟨xs, h, fun hgood => hgood⟩
  | select => exact ⟨xs, h, fun hgood => hgood⟩

theorem Good.step {s s' : Eventloop × Control} {c : Step} {r : Answer} (h : Good s.1 xs)
    (hstep : step s c = some (r, s')) : ∃ xs', Good s'.1 xs' := by
  obtain ⟨xs', -, hgood⟩ := h.toListed.step (fun _ => h.fresh) hstep
  exact ⟨xs', hgood h⟩

/-- The runs of an event loop from its creation. -/
abbrev Runs (ok : Eventloop × Control → Step → Prop) (currtime epochbias : ℤ) :
    List (Step × Answer) → Eventloop × Control → Prop :=
  Run step ok (create currtime epochbias, .idle)

/-- Whatever a run does, the list has all the timers there are. -/
theorem Runs.good {ok : Eventloop × Control → Step → Prop} {currtime epochbias : ℤ}
    {tr : List (Step × Answer)} {s : Eventloop × Control} (h : Runs ok currtime epochbias tr s) :
    ∃ xs, Good s.1 xs :=
  Run.invariant (I := fun s => ∃ xs, Good s.1 xs) ⟨[], good_create _ _⟩
    (fun hI _ hstep => by
      obtain ⟨xs, hgood⟩ := hI
      exact hgood.step hstep) h

end Eventloop

end Mowgli
