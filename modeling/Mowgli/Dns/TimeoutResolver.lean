import Mowgli.Base.Memslice
import Mowgli.Eventloop.Timer.Pass
import Mowgli.Eventloop.Timer.Slots
/-!
# The timer of the resolver, as `dns/evloop_res.c` has it

`mowgli_dns_evloop_init` adds a timer that calls `timeout_resolver`, and
keeps it in `state->timeout_resolver_timer`. The callback destroys the timer
that is kept there and adds another, which it does not keep. So it destroys
the timer that `run_timers` is calling. That goes well where the heap hands
out for the new timer the element that was just freed: then the pointer that
is kept, and the one that `run_timers` goes on with, are the new timer's.

The event loop has whatever other timers and callbacks there may be, and
other event loops take elements of the heap and give them back. The requests
of the resolver are what the callback calls before it reschedules.
-/

namespace Mowgli

open Eventloop

variable {E : ℕ} [NeZero E]

/-- What the timer of the resolver is added with: the function
`timeout_resolver`, its name, and the `dns`. -/
structure ResolverTimer where
  func : Addr
  name : Addr
  dns : Addr

/-- The timer whose callback is running. -/
def Eventloop.Control.called : Control → Option Addr
  | .running w _ => w.timer
  | _ => none

/-- An event loop with its heap, and `state->timeout_resolver_timer`. -/
structure DnsLoop (E : ℕ) extends TimerLoop E where
  timer : Addr

namespace DnsLoop

variable (A : Allocator (Block E)) (R : ResolverTimer)

/-- The timer of `mowgli_dns_evloop_init`. -/
def init (s : TimerLoop E) : Option (DnsLoop E) := do
  let (r, s) ← s.step A (.call (.add (some R.name) (some R.func) (some R.dns) 1))
  match r with
  | .timer (some timer) => some ⟨s, timer⟩
  | _ => none

/-- The timer of `mowgli_dns_evloop_destroy`. -/
def destroy (s : DnsLoop E) : Option (TimerLoop E) := do
  let el ← s.el.timerDestroy s.timer
  let timerHeap ← s.timerHeap.free (slotAt E s.timer)
  some ⟨el, s.control, timerHeap⟩

/-- The end of `timeout_resolver`, where the loop of `timeout_query_list` came
to `nextTime`. -/
def reschedule (s : DnsLoop E) (nextTime : ℤ) : Option (DnsLoop E) := do
  let t ← s.destroy
  let now := t.el.getTime
  let next := if now < nextTime then nextTime else now + 600
  let (_, t) ← t.step A (.call (.add (some R.name) (some R.func) (some R.dns) (next - now)))
  some ⟨t, s.timer⟩

/-- The callback that runs is `timeout_resolver`. -/
def InResolver (s : DnsLoop E) : Prop := ∃ a ∈ s.control.called, ∃ t ∈ s.el.timers.get a, t.func = R.func

instance (s : DnsLoop E) : Decidable (s.InResolver R) :=
  inferInstanceAs (Decidable (∃ a ∈ s.control.called, ∃ t ∈ s.el.timers.get a, t.func = R.func))

/-- A step of the event loop or of another one, or the end of `timeout_resolver`
up to where `run_timers` goes on. -/
inductive Op (E : ℕ)
  | loop (op : TimerLoop.Op E)
  | timeoutResolver (nextTime : ℤ)

/-- What a step does. -/
def Op.run (s : DnsLoop E) : Op E → Option (Answer × DnsLoop E)
  | loop op => (op.run A s.toTimerLoop).map fun r => (r.1, ⟨r.2, s.timer⟩)
  | timeoutResolver nextTime => do
    let s ← s.reschedule A R nextTime
    let (r, t) ← s.step A .ret
    some (r, ⟨t, s.timer⟩)

/-- No other code adds or destroys the timers of the resolver, and
`timeout_resolver` ends as it does. -/
def Lawful (s : DnsLoop E) : Op E → Prop
  | .loop (.loop (.call (.destroy a))) => ∀ t ∈ s.el.timers.get a, t.func ≠ R.func
  | .loop (.loop (.call c)) => c.func ≠ some R.func
  | .loop (.loop .ret) => ¬s.InResolver R
  | .loop (.other c) => s.toTimerLoop.Lawful (.other c)
  | .timeoutResolver _ => s.InResolver R
  | _ => True

/-- Where `timeout_resolver` ends, the heap gives it the element of its timer back. -/
def GivesBack (s : DnsLoop E) : Op E → Prop
  | .timeoutResolver _ => s.timerHeap.GivenBack (slotAt E s.timer)
  | _ => True

/-- **One timer of the resolver** is in the list, and it is the one that is
kept. -/
structure Single (s : DnsLoop E) : Prop where
  sound : ∃ xs, s.toTimerLoop.Sound xs
  kept : ∃ t, bodies s.el.timers s.timer = some t ∧ t.func = R.func
  only : ∀ a t, bodies s.el.timers a = some t → t.func = R.func → a = s.timer

/-- The runs after `mowgli_dns_evloop_init`. -/
abbrev Runs (ok : DnsLoop E → Op E → Prop) (s₀ : DnsLoop E) : List (Op E × Answer) → DnsLoop E → Prop :=
  Run (Op.run A R) ok s₀

variable {A : Allocator (Block E)} {R : ResolverTimer} {s s' : DnsLoop E} {op : Op E} {c : Step} {r : Answer} {a : Addr}
variable {t : EventloopTimer} {nextTime : ℤ}

omit [NeZero E] in
/-- Other code adds no timer for the function of the resolver. -/
theorem Lawful.func_ne {call : Call} (h : s.Lawful R (.loop (.loop (.call call)))) : call.func ≠ some R.func := by
  cases call with
  | destroy a => nofun
  | add name func arg when => exact h
  | addOnce name func arg when => exact h
  | nextTimer => exact h

/-- A step in which no timer of the resolver is added, and in which the one that is kept
stays, leaves the resolver its one timer. -/
theorem Single.of_became (h : s.Single R) {u : TimerLoop E} (hsound : ∃ xs, u.Sound xs)
    (hbecame : ∀ a, Became s.control c (bodies s.el.timers) (bodies u.el.timers) a)
    (hadds : ∀ call, c = .call call → call.func ≠ some R.func)
    (hkept : ∃ t, bodies u.el.timers s.timer = some t ∧ t.func = R.func) : Single R ⟨u, s.timer⟩ := by
  refine ⟨hsound, hkept, fun a t hb hf => ?_⟩
  cases hbecame a with
  | same heq => exact h.only a t (heq.symm.trans hb) hf
  | added call t' hc _ hb' hfunc =>
    obtain rfl := Option.some.inj (hb'.symm.trans hb)
    exact absurd (hfunc.trans (congrArg some hf)) (hadds call hc)
  | destroyed _ hb' =>
    rw [hb] at hb'
    cases hb'
  | returned w k t' hc hk hw hbt h' =>
    rcases h' with ⟨-, h'⟩ | ⟨d, h'⟩
    · rw [hb] at h'
      cases h'
    · obtain rfl := Option.some.inj (h'.symm.trans hb)
      exact h.only a t' hbt hf

/-- Other code leaves the timer that is kept. -/
theorem Single.kept_of_lawful (h : s.Single R) (hl : s.Lawful R (.loop (.loop c))) {u : TimerLoop E}
    (hbecame : Became s.control c (bodies s.el.timers) (bodies u.el.timers) s.timer) :
    ∃ t, bodies u.el.timers s.timer = some t ∧ t.func = R.func := by
  obtain ⟨t₀, hb₀, hf₀⟩ := h.kept
  obtain ⟨t₁, hget₁, hf₁⟩ := exists_func hb₀
  cases hbecame with
  | same heq => exact ⟨t₀, heq.trans hb₀, hf₀⟩
  | added call t hc hnone =>
    rw [hb₀] at hnone
    cases hnone
  | destroyed hc =>
    subst hc
    exact absurd (hf₁.trans hf₀) (hl t₁ hget₁)
  | returned w k t hc hk hw =>
    subst hc
    exact absurd ⟨s.timer, by rw [hk]; exact hw, t₁, hget₁, hf₁.trans hf₀⟩ hl

/-- A step of the event loop, or of another one, leaves the resolver its one timer. -/
theorem Single.loop (h : s.Single R) (hE : 2 ≤ E) {o : TimerLoop.Op E} (hl : s.Lawful R (.loop o))
    (hrun : (Op.loop o).run A R s = some (r, s')) : s'.Single R := by
  obtain ⟨⟨r', u⟩, hop, heq⟩ := Option.map_eq_some_iff.1 hrun
  obtain ⟨-, rfl⟩ := Prod.mk.inj heq
  clear hrun heq
  obtain ⟨xs, hs⟩ := h.sound
  cases o with
  | loop c =>
    obtain ⟨p, xs', hnew, hstep, hs'⟩ := hs.step hE hop
    have hlisted : Listed { s.el with allocated := p } xs := hs.listed.congr rfl rfl
    have hbecame := hlisted.became (s := (_, s.control)) hnew hstep
    refine h.of_became ⟨xs', hs'⟩ hbecame (fun call hc => ?_) (h.kept_of_lawful hl (hbecame _))
    subst hc
    exact hl.func_ne
  | other o =>
    have hel : u.el = s.el := by
      cases o with
      | alloc =>
        obtain ⟨_, -, heq⟩ := Option.map_eq_some_iff.1 hop
        obtain ⟨-, rfl⟩ := Prod.mk.inj heq
        rfl
      | free t =>
        obtain ⟨_, -, heq⟩ := Option.map_eq_some_iff.1 hop
        obtain ⟨-, rfl⟩ := Prod.mk.inj heq
        rfl
    exact ⟨hs.run hE hl hop, by rw [hel]; exact h.kept, by rw [hel]; exact h.only⟩

/-- **Destroying the timer that is kept** is answered, and leaves no timer of the
resolver. -/
theorem Single.destroy (h : s.Single R) (hE : 2 ≤ E) :
    ∃ u xs, s.destroy = some u ∧ u.Sound xs ∧ s.timer ∉ xs ∧ u.control = s.control ∧
      s.timerHeap.free (slotAt E s.timer) = some u.timerHeap ∧
      bodies u.el.timers = Function.update (bodies s.el.timers) s.timer none := by
  obtain ⟨xs, hlisted, ⟨bs, hi⟩, hmutex, hlive⟩ := h.sound
  obtain ⟨t, hb, -⟩ := h.kept
  have hmem : s.timer ∈ xs := hlisted.mem_of_body hb
  obtain ⟨q, m, l, hdestroy, hlisted', hbody⟩ := hlisted.timerDestroy hmem
  obtain ⟨h₁, bs', hfree, hi', hlive', hmutex', -⟩ := hi.free hE hmutex (hlive _ hmem)
  have hnot : s.timer ∉ xs.erase s.timer := hlisted.list.nodup.not_mem_erase
  refine ⟨⟨_, s.control, h₁⟩, xs.erase s.timer, ?_, ⟨hlisted', ⟨bs', hi'⟩, hmutex', fun b hb => (hlive' _).2 ⟨fun heq => hnot ?_, ?_⟩⟩,
    hnot, rfl, hfree, hbody⟩
  · simp only [DnsLoop.destroy, hdestroy, hfree, Option.bind_eq_bind, Option.bind_some]
  · have haddr := congrArg Slot.addr heq
    rw [addr_slotAt, addr_slotAt] at haddr
    exact haddr ▸ hb
  · exact hlive b (List.mem_of_mem_erase hb)

/-- **The end of `timeout_resolver`**: the new timer is where the one that is kept was if
and only if the heap gives that element back. -/
theorem Single.reschedule (h : s.Single R) (hE : 2 ≤ E) (hrun : s.reschedule A R nextTime = some s') :
    ∃ p t, s'.timer = s.timer ∧ s'.control = s.control ∧ (∃ xs, s'.toTimerLoop.Sound xs) ∧
      (p = s.timer ↔ s.timerHeap.GivenBack (slotAt E s.timer)) ∧ t.func = R.func ∧ t.frequency ≠ 0 ∧
      bodies s'.el.timers = Function.update (Function.update (bodies s.el.timers) s.timer none) p (some t) := by
  obtain ⟨u, xs, hdestroy, hs, -, hcontrol, hfree, hbody⟩ := h.destroy hE
  obtain ⟨u', hdestroy', hrun⟩ := Option.bind_eq_some_iff.1 hrun
  obtain rfl := Option.some.inj (hdestroy.symm.trans hdestroy')
  obtain ⟨⟨r, v⟩, hadd, hrun⟩ := Option.bind_eq_some_iff.1 hrun
  obtain rfl := Option.some.inj hrun
  obtain ⟨timer, t, halloc, -, hcontrol', hfunc, hfreq, hbody'⟩ := hs.step_add hE hadd
  obtain ⟨-, xs', -, -, hs'⟩ := hs.step hE hadd
  obtain ⟨bs, hi⟩ : ∃ bs, s.timerHeap.Inv bs := h.sound.elim fun _ hs => hs.heap
  refine ⟨timer.addr, t, rfl, hcontrol'.trans hcontrol, ⟨xs', hs'⟩, ?_, hfunc, ?_, by rw [hbody', hbody]⟩
  · rw [← hi.givenBack_iff hE hfree halloc]
    refine ⟨fun heq => ?_, fun heq => ?_⟩
    · rw [← heq, slotAt_addr]
    · rw [heq, addr_slotAt]
  · -- the time of the next call is later than now
    rw [hfreq]
    split_ifs <;> omega

/-- **Where the element is given back** `timeout_resolver` leaves one timer, the one that is
kept. -/
theorem Single.timeoutResolver (h : s.Single R) (hE : 2 ≤ E) (hback : s.timerHeap.GivenBack (slotAt E s.timer))
    (hrun : (Op.timeoutResolver nextTime).run A R s = some (r, s')) : s'.Single R := by
  obtain ⟨s₁, hres, hrun⟩ := Option.bind_eq_some_iff.1 hrun
  obtain ⟨⟨r', u⟩, hret, hrun⟩ := Option.bind_eq_some_iff.1 hrun
  obtain ⟨rfl, rfl⟩ := Prod.mk.inj (Option.some.inj hrun)
  obtain ⟨p, t, htimer, -, ⟨xs, hs⟩, hp, hfunc, hfreq, hbody⟩ := h.reschedule hE hres
  obtain rfl := hp.2 hback
  have hself : bodies s₁.el.timers s₁.timer = some t := by rw [htimer, hbody, Function.update_self]
  have h₁ : s₁.Single R := by
    refine ⟨⟨xs, hs⟩, ⟨t, hself, hfunc⟩, fun a t' hb hf => ?_⟩
    rw [htimer]
    by_contra hne
    rw [hbody, Function.update_of_ne hne, Function.update_of_ne hne] at hb
    exact hne (h.only a t' hb hf)
  obtain ⟨p, xs', hnew, hstep, hs'⟩ := hs.step hE hret
  have hlisted : Listed { s₁.el with allocated := p } xs := hs.listed.congr rfl rfl
  have hbecame := hlisted.became (s := (_, s₁.control)) hnew hstep
  refine h₁.of_became ⟨xs', hs'⟩ hbecame (by nofun) ?_
  -- the timer is called again after a while, so it stays
  cases hbecame s₁.timer with
  | same heq => exact ⟨t, heq.trans hself, hfunc⟩
  | added call t hc => cases hc
  | destroyed hc => cases hc
  | returned w k t' _ _ _ hbt h' =>
    obtain rfl := Option.some.inj (hself.symm.trans hbt)
    obtain ⟨d, h'⟩ := h'.resolve_left fun h0 => hfreq h0.1
    exact ⟨_, h', hfunc⟩

/-- **Where it is not**, the timer that is kept is gone when another is there, and
`run_timers` goes on with the one that is gone. -/
theorem Single.not_back (h : s.Single R) (hE : 2 ≤ E) (hin : s.InResolver R)
    (hback : ¬s.timerHeap.GivenBack (slotAt E s.timer)) :
    (∀ s', s.reschedule A R nextTime = some s' → s'.timer ∉ s'.el.timers.live ∧
      ∃ a t, s'.el.timers.get a = some t ∧ t.func = R.func) ∧
      (Op.timeoutResolver nextTime).run A R s = none := by
  have hgone : ∀ s', s.reschedule A R nextTime = some s' → s'.timer ∉ s'.el.timers.live ∧
      (∃ a t, s'.el.timers.get a = some t ∧ t.func = R.func) ∧ s'.step A .ret = none := by
    intro s' hres
    obtain ⟨p, t, htimer, hcontrol, ⟨xs, hs⟩, hp, hfunc, -, hbody⟩ := h.reschedule hE hres
    have hne : s.timer ≠ p := fun heq => hback (hp.1 heq.symm)
    have hnone : bodies s'.el.timers s'.timer = none := by
      rw [htimer, hbody, Function.update_of_ne hne, Function.update_self]
    have hget : s'.el.timers.get s'.timer = none := Option.map_eq_none_iff.1 hnone
    have hdead : s'.timer ∉ s'.el.timers.live := Store.get_eq_none.1 hget
    obtain ⟨t', hget', hf'⟩ := exists_func (m := s'.el.timers) (by rw [hbody, Function.update_self])
    refine ⟨hdead, ⟨p, t', hget', hf'.trans hfunc⟩, ?_⟩
    obtain ⟨a, ha, u, hu, hf⟩ := hin
    have haeq : a = s.timer := h.only a (strip u) (by rw [bodies, show s.el.timers.get a = some u from hu]; rfl) hf
    cases hk : s.control with
    | running w k =>
      rw [hk] at ha
      have hw : w.timer = some s'.timer := by rw [htimer, ← haeq]; exact ha
      have hstuck := hs.listed.ret_stuck (k := k) hw (Or.inl fun hmem => hdead ((hs.listed.live _).2 hmem))
      rw [← hk, ← hcontrol] at hstuck
      simp only [TimerLoop.step, Step.adds, Bool.false_eq_true, if_false, hstuck, Option.bind_eq_bind, Option.bind_none]
    | idle =>
      rw [hk] at ha
      cases ha
    | polling p =>
      rw [hk] at ha
      cases ha
  refine ⟨fun s' hres => ⟨(hgone s' hres).1, (hgone s' hres).2.1⟩, ?_⟩
  cases hres : s.reschedule A R nextTime with
  | none => simp only [Op.run, hres, Option.bind_eq_bind, Option.bind_none]
  | some s' => simp only [Op.run, hres, (hgone s' hres).2.2, Option.bind_eq_bind, Option.bind_some, Option.bind_none]

/-- What `mowgli_dns_evloop_init` adds is the one timer. -/
theorem single_init {u : TimerLoop E} {xs : List Addr} (hs : u.Sound xs) (hE : 2 ≤ E)
    (hnone : ∀ a t, u.el.timers.get a = some t → t.func ≠ R.func) (hinit : init A R u = some s) : s.Single R := by
  obtain ⟨⟨r, v⟩, hadd, hinit⟩ := Option.bind_eq_some_iff.1 hinit
  obtain ⟨timer, t, -, rfl, -, hfunc, -, hbody⟩ := hs.step_add hE hadd
  obtain rfl := Option.some.inj hinit
  obtain ⟨-, xs', -, -, hs'⟩ := hs.step hE hadd
  refine ⟨⟨xs', hs'⟩, ⟨t, by rw [hbody, Function.update_self], hfunc⟩, fun a t' hb hf => ?_⟩
  by_contra hne
  rw [hbody, Function.update_of_ne hne] at hb
  obtain ⟨t'', hget, hf'⟩ := exists_func hb
  exact hnone a t'' hget (hf'.trans hf)

instance (s : DnsLoop E) (op : Op E) : Decidable (s.Lawful R op) :=
  match op with
  | .loop (.loop (.call (.destroy a))) => inferInstanceAs (Decidable (∀ t ∈ s.el.timers.get a, t.func ≠ R.func))
  | .loop (.loop (.call (.add _ func _ _))) => inferInstanceAs (Decidable (func ≠ some R.func))
  | .loop (.loop (.call (.addOnce _ func _ _))) => inferInstanceAs (Decidable (func ≠ some R.func))
  | .loop (.loop (.call .nextTimer)) => inferInstanceAs (Decidable (none ≠ some R.func))
  | .loop (.loop .ret) => inferInstanceAs (Decidable (¬s.InResolver R))
  | .loop (.loop (.synchronize _)) => isTrue trivial
  | .loop (.loop .runTimers) => isTrue trivial
  | .loop (.loop (.timeoutOnce _ _)) => isTrue trivial
  | .loop (.loop .visit) => isTrue trivial
  | .loop (.loop (.finish _)) => isTrue trivial
  | .loop (.loop .select) => isTrue trivial
  | .loop (.other .alloc) => isTrue trivial
  | .loop (.other (.free t)) => inferInstanceAs (Decidable (t.addr ∉ s.el.timers.live))
  | .timeoutResolver _ => inferInstanceAs (Decidable (s.InResolver R))

instance (s : DnsLoop E) (op : Op E) : Decidable (s.GivesBack op) :=
  match op with
  | .loop _ => isTrue trivial
  | .timeoutResolver _ => inferInstanceAs (Decidable (s.timerHeap.GivenBack (slotAt E s.timer)))

instance (s : TimerLoop E) (op : TimerLoop.Op E) : Decidable (s.Lawful op) :=
  match op with
  | .loop _ => isTrue trivial
  | .other .alloc => isTrue trivial
  | .other (.free t) => inferInstanceAs (Decidable (t.addr ∉ s.el.timers.live))

/-- A block has room for 50 timers. -/
example : heapElems 72 16 = 50 := by decide

def exampleTimer : ResolverTimer := ⟨7, 8, 9⟩

/-- Whether `mowgli_dns_evloop_init` after the steps `before`, and then the steps `ops`, come
to a state of which `P` says so. -/
def exampleRun (ok : DnsLoop 50 → Op 50 → Prop) [∀ s op, Decidable (ok s op)] (before : List (TimerLoop.Op 50))
    (ops : List (Op 50)) (P : DnsLoop 50 → Bool) : Bool :=
  (Heap.create Allocator.bump 0 true).any fun h₀ =>
    (Run.exec (TimerLoop.Op.run Allocator.bump) TimerLoop.Lawful before ⟨create 0 0, .idle, h₀⟩).any fun r₀ =>
      decide (∀ a ∈ r₀.2.el.timers.live, ∀ t ∈ r₀.2.el.timers.get a, t.func ≠ exampleTimer.func) &&
        (init Allocator.bump exampleTimer r₀.2).any fun s₀ =>
          (Run.exec (Op.run Allocator.bump exampleTimer) ok ops s₀).any fun r => P r.2

theorem exists_of_exampleRun {ok : DnsLoop 50 → Op 50 → Prop} [∀ s op, Decidable (ok s op)]
    {before : List (TimerLoop.Op 50)} {ops : List (Op 50)} {P : DnsLoop 50 → Bool} (h : exampleRun ok before ops P = true) :
    ∃ h₀ tr₀ u s₀ tr s, Heap.create Allocator.bump 0 true = some h₀ ∧
      TimerLoop.Runs Allocator.bump h₀ 0 0 tr₀ u ∧
      (∀ a t, u.el.timers.get a = some t → t.func ≠ exampleTimer.func) ∧
      init Allocator.bump exampleTimer u = some s₀ ∧ Runs Allocator.bump exampleTimer ok s₀ tr s ∧ P s = true := by
  obtain ⟨h₀, hcreate, h⟩ := (Option.any_eq_true _ _).1 h
  obtain ⟨⟨tr₀, u⟩, hbefore, h⟩ := (Option.any_eq_true _ _).1 h
  rw [Bool.and_eq_true] at h
  obtain ⟨hnone, h⟩ := h
  obtain ⟨s₀, hinit, h⟩ := (Option.any_eq_true _ _).1 h
  obtain ⟨⟨tr, s⟩, hops, h⟩ := (Option.any_eq_true _ _).1 h
  refine ⟨h₀, tr₀, u, s₀, tr, s, hcreate, Run.of_exec _ hbefore, fun a t hget => ?_, hinit, Run.of_exec _ hops, h⟩
  exact of_decide_eq_true hnone a (Store.mem_live.2 ⟨t, hget⟩) t hget

/-- A pass at the time `now` up to the callback of the resolver, behind `n` timers that
are not due, and to its end. -/
def examplePass (now : ℤ) (n : ℕ) : List (Op 50) :=
  [.loop (.loop (.synchronize now)), .loop (.loop .runTimers)] ++ List.replicate (n + 1) (.loop (.loop .visit)) ++
    [.timeoutResolver 0, .loop (.loop (.finish now))]

end DnsLoop

end Mowgli
