import Mowgli.Core.Heap.Reuse
import Mowgli.Eventloop.Timer.Good
/-!
# The heap of the timers

The timers of all event loops come from one heap, `timer_heap`. `TimerLoop` is an event
loop with that heap: the address of a timer is that of its element, so where a timer was
freed there may be another. A step that adds a timer takes an element of the heap, and one
that destroys a timer gives its element back; what other event loops do with their timers
are calls on the heap. `Sound` is what every step keeps: the timers of the list are
elements that are handed out, each once.
-/

namespace Mowgli

variable {E : ℕ} [NeZero E]

/-- The address of an element, where a block has room for `E` of them. -/
def Slot.addr (s : Slot E) : Addr := s.block * E + s.index

/-- The element at an address. -/
def slotAt (E : ℕ) [NeZero E] (a : Addr) : Slot E := ⟨a / E, Fin.ofNat E a⟩

theorem slotAt_addr (s : Slot E) : slotAt E s.addr = s := by
  obtain ⟨b, i⟩ := s
  have hdiv : (b * E + i.val) / E = b := by
    rw [Nat.mul_comm, Nat.mul_add_div (Nat.pos_of_ne_zero (NeZero.ne E)), Nat.div_eq_of_lt i.isLt, Nat.add_zero]
  have hmod : (b * E + i.val) % E = i := by
    rw [Nat.mul_comm, Nat.mul_add_mod, Nat.mod_eq_of_lt i.isLt]
  rw [slotAt, Slot.mk.injEq]
  exact ⟨hdiv, Fin.ext hmod⟩

theorem addr_slotAt (a : Addr) : (slotAt E a).addr = a := by
  change a / E * E + a % E = a
  rw [Nat.mul_comm]
  exact Nat.div_add_mod a E

namespace Eventloop

open Store

variable {el el' : Eventloop} {xs : List Addr} {a : Addr} {r : Answer} {c : Step}
variable {s s' : Eventloop × Control} {w' : Walk} {k' : Option ℤ}

/-- The timer that a step destroys: the one it says, or one that was called for the only
time. -/
def destroys (s : Eventloop × Control) : Step → Option Addr
  | .call (.destroy a) => some a
  | .ret =>
    match s.2 with
    | .running w _ => w.timer.filter fun a => (bodies s.1.timers a).any fun t => t.frequency = 0
    | _ => none
  | _ => none

theorem call_of_destroys {call : Call} (h : destroys s (.call call) = some a) : call = .destroy a := by
  cases call with
  | destroy b => exact congrArg Call.destroy (Option.some.inj h)
  | add | addOnce | nextTimer => exact absurd h (Option.some_ne_none a).symm

/-- The timers after a step were there before it or are the one that was added, and the
one that was destroyed is none of them. -/
theorem Listed.step_list (h : Listed s.1 xs) (hnew : c.adds = true → s.1.allocated ∉ xs)
    (hstep : Eventloop.step s c = some (r, s')) : ∃ xs', Listed s'.1 xs' ∧
      (∀ b ∈ xs', b ∈ xs ∨ (c.adds = true ∧ b = s.1.allocated)) ∧ ∀ a, destroys s c = some a → a ∉ xs' := by
  obtain ⟨el, k⟩ := s
  obtain ⟨el', k'⟩ := s'
  cases h.step_spec hnew hstep with
  | call _ hlisted hspec =>
    refine ⟨_, hlisted, fun b hb => ?_, fun a ha => ?_⟩
    · cases hspec with
      | added hadds =>
        rcases List.mem_append.1 hb with hb | hb
        · exact Or.inl hb
        · exact Or.inr ⟨by rw [Step.adds, hadds]; rfl, List.mem_singleton.1 hb⟩
      | destroyed => exact Or.inl (List.mem_of_mem_erase hb)
      | looked => exact Or.inl hb
      | refused => exact Or.inl hb
    · obtain rfl := call_of_destroys ha
      cases hspec with
      | added hadds => cases hadds
      | destroyed hcall =>
        obtain rfl := Call.destroy.inj hcall
        exact fun hmem => List.Nodup.not_mem_erase h.list.nodup hmem
      | looked hcall => cases hcall
      | refused _ hother => exact absurd rfl (hother _)
  | synchronize => exact ⟨xs, h.congr rfl rfl, fun _ hb => Or.inl hb, by nofun⟩
  | runTimers => exact ⟨xs, h, fun _ hb => Or.inl hb, by nofun⟩
  | loop hturn hrun =>
    obtain ⟨rfl, -⟩ := h.timeoutLoop_some hrun
    refine ⟨xs, h.congr rfl rfl, fun _ hb => Or.inl hb, ?_⟩
    rcases hturn with rfl | rfl <;> nofun
  | visit hrun =>
    obtain ⟨h₁, h₂, -⟩ := visit_timers hrun
    exact ⟨xs, h.congr h₁ h₂, fun _ hb => Or.inl hb, by nofun⟩
  | @ret w _ _ _ hrun =>
    obtain ⟨b, t, hw, hb, -, -, -, -, -, ⟨_, hf, -, hlisted, -⟩ | ⟨-, hlisted, -⟩⟩ := h.afterCallback hrun
    · refine ⟨_, hlisted, fun _ hb => Or.inl hb, fun a ha => ?_⟩
      dsimp only [destroys] at ha
      rw [hw, Option.filter_some, hb, Option.any_some] at ha
      simp [hf] at ha
    · refine ⟨_, hlisted, fun _ hmem => Or.inl (List.mem_of_mem_erase hmem), fun a ha => ?_⟩
      dsimp only [destroys] at ha
      obtain ⟨ha, -⟩ := Option.filter_eq_some_iff.1 ha
      obtain rfl := Option.some.inj (ha.symm.trans hw)
      exact fun hmem => List.Nodup.not_mem_erase h.list.nodup hmem
  | finish => exact ⟨xs, h, fun _ hb => Or.inl hb, by nofun⟩
  | select => exact ⟨xs, h, fun _ hb => Or.inl hb, by nofun⟩

theorem exists_func {m : Store EventloopTimer} {t : EventloopTimer} (hb : bodies m a = some t) :
    ∃ t', m.get a = some t' ∧ t'.func = t.func := by
  obtain ⟨t', ht', rfl⟩ := exists_of_bodies hb
  exact ⟨t', ht', rfl⟩

/-- The function that a call adds a timer for. -/
def Call.func : Call → Option Addr
  | .add _ func _ _ => func
  | .addOnce _ func _ _ => func
  | _ => none

/-- What became of a timer in a step. -/
inductive Became (k : Control) (c : Step) (B B' : Addr → Option EventloopTimer) (a : Addr) : Prop
  | same (h : B' a = B a)
  | added (call : Call) (t : EventloopTimer) (hc : c = .call call) (hb : B a = none) (h : B' a = some t)
      (func : call.func = some t.func)
  | destroyed (hc : c = .call (.destroy a)) (h : B' a = none)
  | returned (w : Walk) (timeout : Option ℤ) (t : EventloopTimer) (hc : c = .ret) (hk : k = .running w timeout)
      (hw : w.timer = some a) (hb : B a = some t)
      (h : (t.frequency = 0 ∧ B' a = none) ∨ ∃ d, B' a = some { t with deadline := d })

theorem Listed.became_add (h : Listed el xs) (hnew : el.allocated ∉ xs) {call : Call} (name arg : Option Addr)
    {func : Addr} {when : ℤ} (frequency : ℤ)
    (hrun : call.run el = (el.timerAddReal name (some func) arg when frequency).map fun r => (.timer r.1, r.2))
    (hfunc : call.func = some func) (hsome : call.run el = some (r, el')) (k : Control) (a : Addr) :
    Became k (.call call) (bodies el.timers) (bodies el'.timers) a := by
  cases hd : timeAdd el.getTime when with
  | none =>
    rw [hrun, Eventloop.timerAddReal, hd] at hsome
    cases hsome
  | some d =>
    obtain ⟨m, l, hadd, -, hbody⟩ := h.timerAddReal hnew name arg func frequency hd
    rw [hrun, hadd] at hsome
    obtain ⟨-, rfl⟩ := Prod.mk.inj (Option.some.inj hsome)
    by_cases ha : a = el.allocated
    · have hfree : bodies el.timers el.allocated = none := by
        rw [bodies, get_eq_none.2 fun hl => hnew ((h.live _).1 hl)]
        rfl
      exact .added call _ rfl (ha ▸ hfree) (by rw [hbody, ha, Function.update_self]) hfunc
    · exact .same (by rw [hbody, Function.update_of_ne ha])

/-- What a call makes of the timers. -/
theorem Listed.became_call (h : Listed el xs) {call : Call} (hnew : call.adds.isSome → el.allocated ∉ xs)
    (hsome : call.run el = some (r, el')) (k : Control) (a : Addr) :
    Became k (.call call) (bodies el.timers) (bodies el'.timers) a := by
  cases call with
  | add name func arg when =>
    cases func with
    | none =>
      obtain ⟨-, rfl⟩ := Prod.mk.inj (Option.some.inj hsome)
      exact .same rfl
    | some func => exact h.became_add (hnew rfl) name arg when rfl rfl hsome k a
  | addOnce name func arg when =>
    cases func with
    | none =>
      obtain ⟨-, rfl⟩ := Prod.mk.inj (Option.some.inj hsome)
      exact .same rfl
    | some func => exact h.became_add (hnew rfl) name arg 0 rfl rfl hsome k a
  | destroy b =>
    by_cases hb : b ∈ xs
    · obtain ⟨r', m, l, hrun, -, hbody⟩ := h.timerDestroy hb
      rw [Call.run, hrun] at hsome
      obtain ⟨-, rfl⟩ := Prod.mk.inj (Option.some.inj hsome)
      by_cases hab : a = b
      · rw [hab]
        exact .destroyed rfl (by rw [hbody, Function.update_self])
      · exact .same (by rw [hbody, Function.update_of_ne hab])
    · have hnone : el.timers.get b = none := get_eq_none.2 fun hmem => hb ((h.live b).1 hmem)
      rw [Call.run, Eventloop.timerDestroy, hnone] at hsome
      cases hsome
  | nextTimer =>
    rw [Call.run, h.nextTimer] at hsome
    obtain ⟨-, rfl⟩ := Prod.mk.inj (Option.some.inj hsome)
    exact .same rfl

/-- **What a step makes of the timers.** -/
theorem Listed.became (h : Listed s.1 xs) (hnew : c.adds = true → s.1.allocated ∉ xs)
    (hstep : Eventloop.step s c = some (r, s')) (a : Addr) : Became s.2 c (bodies s.1.timers) (bodies s'.1.timers) a := by
  obtain ⟨el, k⟩ := s
  obtain ⟨el', k₁⟩ := s'
  cases h.step_spec hnew hstep with
  | call hrun _ _ => exact h.became_call hnew hrun k a
  | synchronize => exact .same rfl
  | runTimers => exact .same rfl
  | loop _ hrun =>
    obtain ⟨rfl, -⟩ := h.timeoutLoop_some hrun
    exact .same rfl
  | visit hrun => exact .same (by rw [(visit_timers hrun).1])
  | ret hrun =>
    obtain ⟨b, t, hw, hb, -, -, -, -, -, hor⟩ := h.afterCallback hrun
    by_cases hab : a = b
    · subst hab
      refine .returned _ _ t rfl rfl hw hb ?_
      rcases hor with ⟨d, -, -, -, hbody⟩ | ⟨hf, -, hbody⟩
      · exact Or.inr ⟨d, by rw [hbody, Function.update_self]⟩
      · exact Or.inl ⟨hf, by rw [hbody, Function.update_self]⟩
    · rcases hor with ⟨d, -, -, -, hbody⟩ | ⟨-, -, hbody⟩
      · exact .same (by rw [hbody, Function.update_of_ne hab])
      · exact .same (by rw [hbody, Function.update_of_ne hab])
  | finish => exact .same rfl
  | select => exact .same rfl

end Eventloop

open Eventloop

/-- An event loop and its stack, with `timer_heap`. -/
structure TimerLoop (E : ℕ) where
  el : Eventloop
  control : Control
  timerHeap : Heap E

namespace TimerLoop

/-- A step of the event loop. A timer that it adds is at the element that `timer_heap` hands
out, and a null pointer from there is written to. -/
def step (A : Allocator (Block E)) (s : TimerLoop E) (c : Step) : Option (Answer × TimerLoop E) :=
  if c.adds then do
    let (timer, timerHeap) ← s.timerHeap.alloc A
    let timer ← timer
    let (r, el, control) ← Eventloop.step ({ s.el with allocated := timer.addr }, s.control) c
    some (r, ⟨el, control, timerHeap⟩)
  else do
    let (r, el, control) ← Eventloop.step (s.el, s.control) c
    match destroys (s.el, s.control) c with
    | none => some (r, ⟨el, control, s.timerHeap⟩)
    | some timer => do
      let timerHeap ← s.timerHeap.free (slotAt E timer)
      some (r, ⟨el, control, timerHeap⟩)

/-- A step of the event loop, or of another event loop that adds or destroys a timer. -/
inductive Op (E : ℕ)
  | loop (c : Step)
  | other (c : Heap.Call E)

/-- What a step does. -/
def Op.run (A : Allocator (Block E)) (s : TimerLoop E) : Op E → Option (Answer × TimerLoop E)
  | loop c => s.step A c
  | other .alloc => (s.timerHeap.alloc A).map fun r => (.timer (r.1.map Slot.addr), { s with timerHeap := r.2 })
  | other (.free t) => (s.timerHeap.free t).map fun timerHeap => (.unit, { s with timerHeap := timerHeap })

/-- No other event loop destroys a timer of this one. -/
def Lawful (s : TimerLoop E) : Op E → Prop
  | .other (.free t) => t.addr ∉ s.el.timers.live
  | _ => True

/-- **What the timers are**: those of the list are elements of the heap that are handed
out. -/
structure Sound (s : TimerLoop E) (xs : List Addr) : Prop where
  listed : Listed s.el xs
  heap : ∃ bs, Heap.Inv s.timerHeap bs
  mutex : s.timerHeap.mutex = false
  live : ∀ a ∈ xs, Heap.Live (Heap.bodies s.timerHeap.mem) (slotAt E a)

variable {A : Allocator (Block E)} {s s' : TimerLoop E} {xs : List Addr} {c : Step} {r : Answer} {a : Addr}

/-- A step is one of the event loop, with an address for the timer it may add that no timer
has. -/
theorem Sound.step (h : s.Sound xs) (hE : 2 ≤ E) (hrun : s.step A c = some (r, s')) :
    ∃ p xs', (c.adds = true → p ∉ xs) ∧
      Eventloop.step ({ s.el with allocated := p }, s.control) c = some (r, s'.el, s'.control) ∧ s'.Sound xs' := by
  obtain ⟨hlisted, ⟨bs, hi⟩, hmutex, hlive⟩ := h
  rw [TimerLoop.step] at hrun
  split_ifs at hrun with hadds
  · simp only [Option.bind_eq_bind, Option.bind_eq_some_iff, Prod.exists, Option.some.injEq, Prod.mk.injEq] at hrun
    obtain ⟨-, timerHeap, halloc, timer, rfl, r', el, control, hstep, rfl, rfl⟩ := hrun
    obtain ⟨t, h₁, bs', halloc', hi', hno, hlive', hmutex', -⟩ := hi.alloc hE (hi.of_alloc hE halloc).2 hmutex
    obtain ⟨heq, rfl⟩ := Prod.mk.inj (Option.some.inj (halloc.symm.trans halloc'))
    obtain rfl := Option.some.inj heq
    have hnew : timer.addr ∉ xs := fun hmem => hno (slotAt_addr timer ▸ hlive _ hmem)
    have hlisted' : Listed { s.el with allocated := timer.addr } xs := hlisted.congr rfl rfl
    obtain ⟨xs', hlisted'', hmem, -⟩ := hlisted'.step_list (s := (_, s.control)) (fun _ => hnew) hstep
    refine ⟨timer.addr, xs', fun _ => hnew, hstep, hlisted'', ⟨bs', hi'⟩, hmutex', fun b hb => (hlive' _).2 ?_⟩
    rcases hmem b hb with hb | ⟨-, rfl⟩
    · exact Or.inr (hlive b hb)
    · exact Or.inl (slotAt_addr timer)
  · obtain ⟨⟨r', el, control⟩, hstep, hrun⟩ := Option.bind_eq_some_iff.1 hrun
    have hnew : c.adds = true → s.el.allocated ∉ xs := fun h => absurd h hadds
    obtain ⟨xs', hlisted', hmem, hgone⟩ := hlisted.step_list (s := (s.el, s.control)) hnew hstep
    have hsub : ∀ b ∈ xs', b ∈ xs := fun b hb => (hmem b hb).resolve_right fun h => hadds h.1
    cases hd : destroys (s.el, s.control) c with
    | none =>
      rw [hd] at hrun
      obtain ⟨rfl, rfl⟩ := Prod.mk.inj (Option.some.inj hrun)
      exact ⟨s.el.allocated, xs', hnew, hstep, hlisted', ⟨bs, hi⟩, hmutex, fun b hb => hlive b (hsub b hb)⟩
    | some timer =>
      rw [hd] at hrun
      obtain ⟨timerHeap, hfree, hrun⟩ := Option.bind_eq_some_iff.1 hrun
      obtain ⟨rfl, rfl⟩ := Prod.mk.inj (Option.some.inj hrun)
      obtain ⟨h₁, bs', hfree', hi', hlive', hmutex', -⟩ := hi.free hE hmutex (hi.live_of_free hfree).2
      obtain rfl := Option.some.inj (hfree.symm.trans hfree')
      refine ⟨s.el.allocated, xs', hnew, hstep, hlisted', ⟨bs', hi'⟩, hmutex', fun b hb => (hlive' _).2
        ⟨fun heq => hgone timer hd ?_, hlive b (hsub b hb)⟩⟩
      have haddr := congrArg Slot.addr heq
      rw [addr_slotAt, addr_slotAt] at haddr
      exact haddr ▸ hb

/-- **A timer is added** at the element that the heap hands out. -/
theorem Sound.step_add (h : s.Sound xs) (hE : 2 ≤ E) {name arg : Option Addr} {func : Addr} {when : ℤ}
    (hrun : s.step A (.call (.add name (some func) arg when)) = some (r, s')) :
    ∃ timer t, s.timerHeap.alloc A = some (some timer, s'.timerHeap) ∧ r = .timer (some timer.addr) ∧
      s'.control = s.control ∧ t.func = func ∧ t.frequency = when ∧
      bodies s'.el.timers = Function.update (bodies s.el.timers) timer.addr (some t) := by
  obtain ⟨el₀, control₀, heap₀⟩ := s
  obtain ⟨hlisted, ⟨bs, hi⟩, hmutex, hlive⟩ := h
  have hadds : (Step.call (.add name (some func) arg when)).adds = true := rfl
  rw [TimerLoop.step, if_pos hadds] at hrun
  simp only [Option.bind_eq_bind, Option.bind_eq_some_iff, Prod.exists, Option.some.injEq, Prod.mk.injEq] at hrun
  obtain ⟨-, timerHeap, halloc, timer, rfl, r', el, control, hstep, rfl, rfl⟩ := hrun
  obtain ⟨t, h₁, bs', halloc', -, hno, -⟩ := hi.alloc hE (hi.of_alloc hE halloc).2 hmutex
  obtain ⟨heq, rfl⟩ := Prod.mk.inj (Option.some.inj (halloc.symm.trans halloc'))
  obtain rfl := Option.some.inj heq
  have hnew : timer.addr ∉ xs := fun hmem => hno (slotAt_addr timer ▸ hlive _ hmem)
  have hlisted' : Listed { el₀ with allocated := timer.addr } xs := hlisted.congr rfl rfl
  cases hlisted'.step_spec (s := (_, control₀)) (fun _ => hnew) hstep with
  | call hcall _ _ =>
    cases hd : timeAdd el₀.getTime when with
    | none =>
      rw [Call.run, timerAdd, Eventloop.timerAddReal] at hcall
      erw [hd] at hcall
      cases hcall
    | some d =>
      obtain ⟨m, l, hadd, -, hbody⟩ := hlisted'.timerAddReal hnew name arg func when hd
      rw [Call.run, timerAdd, hadd] at hcall
      obtain ⟨rfl, rfl⟩ := Prod.mk.inj (Option.some.inj hcall)
      exact ⟨timer, _, halloc, rfl, rfl, rfl, rfl, hbody⟩
  | loop hturn => rcases hturn with hturn | hturn <;> cases hturn

/-- **Every step** leaves the timers elements that are handed out. -/
theorem Sound.run {op : Op E} (h : s.Sound xs) (hE : 2 ≤ E) (hl : s.Lawful op) (hrun : op.run A s = some (r, s')) :
    ∃ xs', s'.Sound xs' := by
  cases op with
  | loop c =>
    obtain ⟨-, xs', -, -, h'⟩ := h.step hE hrun
    exact ⟨xs', h'⟩
  | other c =>
    obtain ⟨hlisted, ⟨bs, hi⟩, hmutex, hlive⟩ := h
    cases c with
    | alloc =>
      obtain ⟨⟨timer, timerHeap⟩, halloc, heq⟩ := Option.map_eq_some_iff.1 hrun
      obtain ⟨-, rfl⟩ := Prod.mk.inj heq
      obtain ⟨t, h₁, bs', halloc', hi', -, hlive', hmutex', -⟩ := hi.alloc hE (hi.of_alloc hE halloc).2 hmutex
      obtain ⟨-, rfl⟩ := Prod.mk.inj (Option.some.inj (halloc.symm.trans halloc'))
      exact ⟨xs, hlisted, ⟨bs', hi'⟩, hmutex', fun b hb => (hlive' _).2 (Or.inr (hlive b hb))⟩
    | free t =>
      obtain ⟨timerHeap, hfree, heq⟩ := Option.map_eq_some_iff.1 hrun
      obtain ⟨-, rfl⟩ := Prod.mk.inj heq
      obtain ⟨h₁, bs', hfree', hi', hlive', hmutex', -⟩ := hi.free hE hmutex (hi.live_of_free hfree).2
      obtain rfl := Option.some.inj (hfree.symm.trans hfree')
      refine ⟨xs, hlisted, ⟨bs', hi'⟩, hmutex', fun b hb => (hlive' _).2 ⟨fun heq => ?_, hlive b hb⟩⟩
      -- what another event loop frees is no timer of this one
      refine hl ((hlisted.live _).2 ?_)
      rw [← heq, addr_slotAt]
      exact hb

/-- The runs of an event loop from its creation. -/
abbrev Runs (A : Allocator (Block E)) (h₀ : Heap E) (currtime epochbias : ℤ) :
    List (Op E × Answer) → TimerLoop E → Prop :=
  Run (Op.run A) Lawful ⟨create currtime epochbias, .idle, h₀⟩

theorem Runs.sound (hE : 2 ≤ E) {h₀ : Heap E} {addr : Addr} {now : Bool} (hcreate : Heap.create A addr now = some h₀)
    {currtime epochbias : ℤ} {tr : List (Op E × Answer)} (h : Runs A h₀ currtime epochbias tr s) : ∃ xs, s.Sound xs := by
  refine Run.invariant (I := fun s : TimerLoop E => ∃ xs, s.Sound xs) ?_ (fun hI hl hrun => ?_) h
  · have hgood := Heap.good_create hcreate
    exact ⟨[], listed_create currtime epochbias, hgood.inv, hgood.mutex, by simp⟩
  · obtain ⟨xs, hs⟩ := hI
    exact hs.run hE hl hrun

end TimerLoop

end Mowgli
