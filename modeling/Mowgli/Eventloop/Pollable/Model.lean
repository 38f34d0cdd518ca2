import Mowgli.Container.List
/-!
# Pollables, as `eventloop/pollable.c` has them

What a pollable is to the event loop is up to the backend: `PollLoop` has
the backend's own data in `poller`, and the backend is a `PollOps`, of
which the two functions here are the ones that change what is polled.

As with the timers, an address is the number of an allocation, so that a
pointer to a pollable that was freed stays dangling, and using one answers
`none`. `destroyed_pollable_list` has nodes of its own, which are left out:
the list is the pollables it holds.
-/

namespace Mowgli

/-- `mowgli_eventloop_io_dir_t`. -/
inductive IoDir
  | read
  | write
  | error
  deriving DecidableEq

/-- `mowgli_eventloop_pollable_t`. -/
structure Pollable where
  fd : ℤ
  slot : BitVec 32
  readFunction : Option Addr
  writeFunction : Option Addr
  userdata : Option Addr
  node : MowgliNode
  removed : Bool

namespace Pollable

/-- The node of a pollable. -/
def nodeField : NodeField Pollable := ⟨Pollable.node, fun p n => { p with node := n }, fun _ _ => rfl⟩

/-- `read_function || write_function`. -/
def hasFunction (p : Pollable) : Bool := p.readFunction.isSome || p.writeFunction.isSome

/-- The function of a direction. -/
def function (p : Pollable) : IoDir → Option Addr
  | .read => p.readFunction
  | .write => p.writeFunction
  | .error => none

/-- The `switch` of the `setselect` functions, on the function pointers. -/
def setFunction (p : Pollable) (dir : IoDir) (f : Option Addr) : Pollable :=
  match dir with
  | .read => { p with readFunction := f }
  | .write => { p with writeFunction := f }
  | .error => p

end Pollable

/-- `mowgli_eventloop_t`, what of it the pollables use, with the pollables. -/
structure PollLoop (P : Type) where
  /-- The data of the backend. -/
  poller : P
  pollables : Store Pollable
  /-- How many pollables were allocated. -/
  allocated : ℕ
  destroyedPollableList : List Addr
  processingEvents : Bool
  log : List LogLine
  /-- What `mowgli_pollable_free` gave back to the heap. -/
  freed : List Addr

/-- A backend. -/
structure PollOps (P : Type) where
  setselect : PollLoop P → Addr → IoDir → Option Addr → Option (PollLoop P)
  destroy : PollLoop P → Addr → Option (PollLoop P)

namespace PollLoop

variable {P : Type}

/-- An event loop without pollables. -/
def create (poller : P) : PollLoop P := ⟨poller, Store.empty, 0, [], false, [], []⟩

/-- What the `switch` of the `setselect` functions logs. -/
def logDirection (dir : IoDir) (log : List LogLine) : List LogLine :=
  match dir with
  | .error => log ++ [.message "unhandled pollable direction %d"]
  | _ => log

/-- `mowgli_pollable_create`. -/
def pollableCreate (el : PollLoop P) (fd : ℤ) (userdata : Option Addr) : Addr × PollLoop P :=
  let p : Pollable := ⟨fd, 0, none, none, userdata, ⟨none, none, none⟩, false⟩
  (el.allocated, { el with pollables := el.pollables.set el.allocated p, allocated := el.allocated + 1 })

/-- `mowgli_pollable_free`. -/
def pollableFree (el : PollLoop P) (pollable : Addr) : Option (PollLoop P) :=
  (el.pollables.get pollable).map fun _ =>
    { el with pollables := el.pollables.free pollable, freed := el.freed ++ [pollable] }

/-- `mowgli_pollable_destroy`. -/
def pollableDestroy (ops : PollOps P) (el : PollLoop P) (pollable : Addr) : Option (PollLoop P) := do
  let p ← el.pollables.get pollable
  if p.removed then some { el with log := el.log ++ [.returnIfFail "!pollable->removed"] }
  else do
    let el ← ops.destroy el pollable
    if el.processingEvents then do
      let pollables ← el.pollables.modify pollable fun p => { p with removed := true }
      some { el with
        pollables := pollables
        destroyedPollableList := el.destroyedPollableList ++ [pollable] }
    else el.pollableFree pollable

/-- `mowgli_pollable_setselect`. -/
def pollableSetselect (ops : PollOps P) (el : PollLoop P) (pollable : Addr) (dir : IoDir)
    (f : Option Addr) : Option (PollLoop P) := ops.setselect el pollable dir f

/-- The function `mowgli_pollable_trigger` calls, if it calls one, and the
`userdata` it gets. -/
def pollableTrigger (el : PollLoop P) (pollable : Addr) (dir : IoDir) :
    Option (Option (Addr × Option Addr)) :=
  (el.pollables.get pollable).map fun p =>
    match dir with
    | .read => p.readFunction.map fun f => (f, p.userdata)
    | .write => p.writeFunction.map fun f => (f, p.userdata)
    | .error => none

/-- The loop of `mowgli_eventloop_reap_pollables`. -/
def reapLoop (el : PollLoop P) : List Addr → Option (PollLoop P)
  | [] => some el
  | pollable :: l => do
    let el ← el.pollableFree pollable
    reapLoop el l

/-- `mowgli_eventloop_reap_pollables`. -/
def reapPollables (el : PollLoop P) : Option (PollLoop P) := do
  let el ← el.reapLoop el.destroyedPollableList
  some { el with destroyedPollableList := [] }

/-- The calls a program makes. -/
inductive Call
  | create (fd : ℤ) (userdata : Option Addr)
  | setselect (pollable : Addr) (dir : IoDir) (f : Option Addr)
  | destroy (pollable : Addr)

/-- A call, and the pollable it returns. -/
def call (ops : PollOps P) (el : PollLoop P) : Call → Option (Option Addr × PollLoop P)
  | .create fd userdata =>
    let (pollable, el) := el.pollableCreate fd userdata
    some (some pollable, el)
  | .setselect pollable dir f => (el.pollableSetselect ops pollable dir f).map fun el => (none, el)
  | .destroy pollable => (el.pollableDestroy ops pollable).map fun el => (none, el)

end PollLoop

end Mowgli
