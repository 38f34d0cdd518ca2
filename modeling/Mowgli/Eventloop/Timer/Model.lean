import Mowgli.Container.List
/-!
# The timers of an event loop, as `eventloop/timer.c` has them

The timers come from a heap of their own. An address here is the number of
the allocation a timer came from, so a pointer to a timer that was freed
stays dangling: C leaves its use undefined, whatever the heap has put in
its place. The functions answer `none` where they would use one, where a
`time_t` would overflow, and where a walk would not end.

`run_timers` and `timeout_once` call code that is not theirs, which calls
the functions of this file in turn. So the event loop is a machine: what
is on the stack is a `Control`, and one step is a call, or what one of the
two loops does up to the next callback, or from where one returns. The
clock is read by a step that is given its time.
-/

namespace Mowgli

/-- The largest `time_t`. -/
def TIME_MAX : ℤ := 9223372036854775807

/-- Addition on a `time_t`. -/
def timeAdd (x y : ℤ) : Option ℤ :=
  if -TIME_MAX - 1 ≤ x + y ∧ x + y ≤ TIME_MAX then some (x + y) else none

/-- What `last_ran` points to: the name of a timer, or one of two constants. -/
inductive LastRan
  | name (p : Option Addr)
  | removed
  | onceonly
  deriving DecidableEq

/-- `mowgli_eventloop_timer_t`. -/
structure EventloopTimer where
  node : MowgliNode
  func : Addr
  arg : Option Addr
  name : Option Addr
  frequency : ℤ
  deadline : ℤ
  active : Bool

/-- The node of a timer. -/
def EventloopTimer.nodeField : NodeField EventloopTimer :=
  ⟨EventloopTimer.node, fun t n => { t with node := n }, fun _ _ => rfl⟩

/-- `mowgli_eventloop_t`, what of it the timers use, with the timers. -/
structure Eventloop where
  currtime : ℤ
  /-- When the next timer is to run, or -1 where that is not known. -/
  deadline : ℤ
  lastRan : LastRan
  timerList : MowgliList
  epochbias : ℤ
  timers : Store EventloopTimer
  /-- How many timers were allocated. -/
  allocated : ℕ
  log : List LogLine

namespace Eventloop

/-- `mowgli_eventloop_create`, at a time of the clock. -/
def create (currtime epochbias : ℤ) : Eventloop :=
  ⟨currtime, -1, .name none, .zero, epochbias, Store.empty, 0, []⟩

/-- `mowgli_eventloop_get_time`. -/
def getTime (el : Eventloop) : ℤ := el.epochbias + el.currtime

/-- `mowgli_eventloop_synchronize`, where the clock reads `now`. -/
def synchronize (el : Eventloop) (now : ℤ) : Eventloop := { el with currtime := now }

/-- `mowgli_timer_add_real`. -/
def timerAddReal (el : Eventloop) (name func arg : Option Addr) (when frequency : ℤ) :
    Option (Option Addr × Eventloop) :=
  match func with
  | none => some (none, { el with log := el.log ++ [.returnIfFail "func != NULL"] })
  | some func => do
    let timer := el.allocated
    let deadline ← timeAdd el.getTime when
    let t : EventloopTimer := ⟨⟨none, none, none⟩, func, arg, name, frequency, deadline, true⟩
    let cached := if el.deadline ≠ -1 ∧ deadline ≤ el.deadline then deadline else el.deadline
    let (timers, l) ← EventloopTimer.nodeField.nodeAdd (el.timers.set timer t) (some timer) timer el.timerList
    some (some timer,
      { el with timers := timers, allocated := timer + 1, deadline := cached, timerList := l })

/-- `mowgli_timer_add`. -/
def timerAdd (el : Eventloop) (name func arg : Option Addr) (when : ℤ) :
    Option (Option Addr × Eventloop) := el.timerAddReal name func arg when when

/-- `mowgli_timer_add_once`. -/
def timerAddOnce (el : Eventloop) (name func arg : Option Addr) (when : ℤ) :
    Option (Option Addr × Eventloop) := el.timerAddReal name func arg when 0

/-- `mowgli_timer_destroy`. -/
def timerDestroy (el : Eventloop) (timer : Addr) : Option Eventloop := do
  let t ← el.timers.get timer
  let lastRan := if el.lastRan = .name t.name then .removed else el.lastRan
  let (timers, l) ← EventloopTimer.nodeField.nodeDelete el.timers timer el.timerList
  some { el with lastRan := lastRan, timers := timers.free timer, timerList := l }

/-- The loop of `mowgli_eventloop_next_timer`, from the node `n`. -/
def nextTimerLoop (timers : Store EventloopTimer) : ℕ → Option Addr → ℤ → Option ℤ
  | _, none, deadline => some deadline
  | 0, some _, _ => none
  | k + 1, some n, deadline => do
    let node ← timers.get n
    let d ← node.node.data
    let timer ← timers.get d
    nextTimerLoop timers k node.node.next
      (if timer.active ∧ (timer.deadline < deadline ∨ deadline = -1) then timer.deadline else deadline)

/-- `mowgli_eventloop_next_timer`. -/
def nextTimer (el : Eventloop) : Option (ℤ × Eventloop) :=
  if el.deadline = -1 then do
    let d ← nextTimerLoop el.timers el.timers.live.card el.timerList.head (-1)
    some (d, { el with deadline := d })
  else some (el.deadline, el)

/-! ## `run_timers` -/

/-- The variables of `run_timers`. -/
structure Walk where
  currtime : ℤ
  n : Option Addr
  tn : Option Addr
  /-- The timer whose callback is running. -/
  timer : Option Addr

/-- `n ? n->next : NULL`. -/
def nextOf (el : Eventloop) (n : Option Addr) : Option (Option Addr) :=
  match n with
  | none => some none
  | some n => (el.timers.get n).map fun t => t.node.next

/-- The walk as it begins. -/
def runTimersBegin (el : Eventloop) : Option Walk := do
  let tn ← el.nextOf el.timerList.head
  some ⟨el.getTime, el.timerList.head, tn, none⟩

/-- On to the next node. -/
def advance (el : Eventloop) (w : Walk) : Option Walk := do
  let tn ← el.nextOf w.tn
  some { w with n := w.tn, tn := tn, timer := none }

/-- The body of the loop up to the callback, or on to the next node. -/
def visit (el : Eventloop) (w : Walk) : Option (Option Addr × Eventloop × Walk) := do
  let n ← w.n
  let node ← el.timers.get n
  let d ← node.node.data
  let timer ← el.timers.get d
  if timer.active ∧ timer.deadline ≤ w.currtime then
    some (some d, { el with lastRan := .name timer.name }, { w with timer := some d })
  else do
    let w ← el.advance w
    some (none, el, w)

/-- What becomes of a timer that was called. -/
def reschedule (el : Eventloop) (timer : Addr) (currtime : ℤ) : Option Eventloop := do
  let t ← el.timers.get timer
  if t.frequency ≠ 0 then do
    let deadline ← timeAdd currtime t.frequency
    let timers ← el.timers.modify timer fun t => { t with deadline := deadline }
    some { el with timers := timers }
  else timerDestroy { el with lastRan := .onceonly } timer

/-- The body of the loop from where the callback returns. -/
def afterCallback (el : Eventloop) (w : Walk) : Option (Eventloop × Walk) := do
  let timer ← w.timer
  let el ← { el with deadline := -1 }.reschedule timer w.currtime
  let w ← el.advance w
  some (el, w)

/-! ## `timeout_once`, and the machine -/

/-- How long `timeout_once` polls, in milliseconds. -/
def pollTime (timeout delay currtime : ℤ) : ℤ :=
  if timeout ≠ 0 then timeout else if delay = -1 then 5000 else toInt ((delay - currtime) * 1000)

/-- A call of `select` at the end of `timeout_once`. -/
structure Poll where
  currtime : ℤ
  delay : ℤ
  timeout : ℤ
  t : ℤ

/-- What is on the stack: nothing, or a walk, that of `timeout_once` where
there is its argument, or the poll at the end of `timeout_once`. -/
inductive Control
  | idle
  | running (w : Walk) (timeout : Option ℤ)
  | polling (p : Poll)

/-- `timeout_once` as it begins, and again after each walk. -/
def timeoutLoop (el : Eventloop) (timeout now : ℤ) : Option (Eventloop × Control) := do
  let el := el.synchronize now
  let (delay, el) ← el.nextTimer
  if delay ≠ -1 ∧ delay ≤ el.getTime then do
    let w ← el.runTimersBegin
    some (el, .running w (some timeout))
  else some (el, .polling ⟨el.getTime, delay, timeout, pollTime timeout delay el.getTime⟩)

/-- A call that does not call back. -/
inductive Call
  | add (name func arg : Option Addr) (when : ℤ)
  | addOnce (name func arg : Option Addr) (when : ℤ)
  | destroy (timer : Addr)
  | nextTimer

/-- What a step answers. -/
inductive Answer
  | timer (t : Option Addr)
  | time (t : ℤ)
  | unit
  deriving DecidableEq

/-- A call, and its answer. -/
def Call.run (el : Eventloop) : Call → Option (Answer × Eventloop)
  | .add name func arg when => (el.timerAdd name func arg when).map fun r => (.timer r.1, r.2)
  | .addOnce name func arg when => (el.timerAddOnce name func arg when).map fun r => (.timer r.1, r.2)
  | .destroy timer => (el.timerDestroy timer).map fun el => (.unit, el)
  | .nextTimer => el.nextTimer.map fun r => (.time r.1, r.2)

/-- A step of the machine. -/
inductive Step
  /-- A call, from a callback or from outside. -/
  | call (c : Call)
  /-- `mowgli_eventloop_synchronize`. -/
  | synchronize (now : ℤ)
  /-- `mowgli_eventloop_run_timers`. -/
  | runTimers
  /-- `mowgli_simple_eventloop_timeout_once`. -/
  | timeoutOnce (timeout now : ℤ)
  /-- The walk visits a node; the answer is the timer it calls. -/
  | visit
  /-- The callback returns; the answer is its timer. -/
  | ret
  /-- The walk is over. -/
  | finish (now : ℤ)
  /-- `select` returns. -/
  | select

/-- The machine: what a step answers, and where it leads. -/
def step : Eventloop × Control → Step → Option (Answer × Eventloop × Control)
  | (el, .idle), .call c => do
    let (r, el) ← c.run el
    some (r, el, .idle)
  | (el, .running w k), .call c =>
    if w.timer.isSome then do
      let (r, el) ← c.run el
      some (r, el, .running w k)
    else none
  | (el, .idle), .synchronize now => some (.unit, el.synchronize now, .idle)
  | (el, .idle), .runTimers => do
    let w ← el.runTimersBegin
    some (.unit, el, .running w none)
  | (el, .idle), .timeoutOnce timeout now => do
    let (el, k) ← el.timeoutLoop timeout now
    some (.unit, el, k)
  | (el, .running w k), .visit =>
    if w.timer.isSome then none
    else do
      let (r, el, w) ← el.visit w
      some (.timer r, el, .running w k)
  | (el, .running w k), .ret => do
    let (el, w') ← el.afterCallback w
    some (.timer w.timer, el, .running w' k)
  | (el, .running w k), .finish now =>
    if w.timer.isSome ∨ w.n.isSome then none
    else
      match k with
      | none => some (.unit, el, .idle)
      | some timeout => do
        let (el, k) ← el.timeoutLoop timeout now
        some (.unit, el, k)
  | (el, .polling _), .select => some (.unit, el, .idle)
  | _, _ => none

end Eventloop

end Mowgli
