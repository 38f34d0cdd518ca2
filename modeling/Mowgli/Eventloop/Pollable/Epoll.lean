import Mowgli.Eventloop.Pollable.Mirror
/-!
# The epoll backend

`epoll_pollops.c`: the kernel keeps what is polled, by file descriptor,
and `slot` of a pollable is what the backend thinks is there: `setselect` compares the two slots to
tell whether the kernel is to add, change or drop what it has.
-/

namespace Mowgli

/-- `EPOLLIN`. -/
def EPOLLIN : BitVec 32 := 0x001

/-- `EPOLLOUT`. -/
def EPOLLOUT : BitVec 32 := 0x004

/-- `EPOLLERR`. -/
def EPOLLERR : BitVec 32 := 0x008

/-- `EPOLLHUP`. -/
def EPOLLHUP : BitVec 32 := 0x010

/-- `struct epoll_event`. -/
structure EpollEvent where
  events : BitVec 32
  ptr : Addr

/-- The interest set of an epoll instance, by file descriptor. -/
abbrev EpollSet := ℤ → Option EpollEvent

/-- The operations of `epoll_ctl`. -/
inductive EpollOp
  | add
  | mod
  | del

/-- The errors of `epoll_ctl` on open descriptors. -/
inductive EpollErrno
  | eexist
  | enoent

/-- `epoll_ctl`, as it is documented. -/
def epollCtl (k : EpollSet) (op : EpollOp) (fd : ℤ) (event : EpollEvent) : Except EpollErrno EpollSet :=
  match op, k fd with
  | .add, none => .ok (Function.update k fd (some event))
  | .add, some _ => .error .eexist
  | .mod, some _ => .ok (Function.update k fd (some event))
  | .mod, none => .error .enoent
  | .del, some _ => .ok (Function.update k fd none)
  | .del, none => .error .enoent

/-- `mowgli_eventloop_ignore_errno`. -/
def EpollErrno.ignore : EpollErrno → Bool
  | .enoent => true
  | .eexist => false

namespace PollLoop

/-- `if (epoll_ctl(...) != 0)`, with what follows. -/
def ctl (el : PollLoop EpollSet) (op : EpollOp) (fd : ℤ) (event : EpollEvent) (fmt : String) :
    PollLoop EpollSet :=
  match epollCtl el.poller op fd event with
  | .ok k => { el with poller := k }
  | .error e => if e.ignore then el else { el with log := el.log ++ [.message fmt] }

/-- `mowgli_epoll_eventloop_destroy`. -/
def epollDestroy (el : PollLoop EpollSet) (pollable : Addr) : Option (PollLoop EpollSet) := do
  let p ← el.pollables.get pollable
  let p := { p with slot := 0 }
  let el := { el with pollables := el.pollables.set pollable p }
  some (el.ctl .del p.fd ⟨p.slot, pollable⟩ "mowgli_epoll_eventloop_destroy(): epoll_ctl failed: %d (%s)")

/-- The `switch` of `mowgli_epoll_eventloop_setselect`, on the slot. -/
def orSlot (p : Pollable) (dir : IoDir) : Pollable :=
  match dir with
  | .read => { p with slot := p.slot ||| EPOLLIN }
  | .write => { p with slot := p.slot ||| EPOLLOUT }
  | .error => p

/-- `if (f == NULL) pollable->slot &= ~flag`. -/
def clearFlag (f : Option Addr) (flag : BitVec 32) (p : Pollable) : Pollable :=
  if f = none then { p with slot := p.slot &&& ~~~flag } else p

/-- What has no function is cleared from the slot. -/
def clearSlot (p : Pollable) : Pollable :=
  clearFlag p.writeFunction EPOLLOUT (clearFlag p.readFunction EPOLLIN p)

/-- The pollable after `mowgli_epoll_eventloop_setselect`. -/
def selected (p : Pollable) (dir : IoDir) (f : Option Addr) : Pollable :=
  clearSlot (orSlot (p.setFunction dir f) dir)

/-- The `op` of `mowgli_epoll_eventloop_setselect`, if there is anything to do. -/
def slotOp (oldFlags slot : BitVec 32) : Option EpollOp :=
  if oldFlags = 0 ∧ slot = 0 then none
  else if slot ≤ 0 then some .del
  else if oldFlags = 0 ∧ slot ≠ 0 then some .add
  else if slot ≠ oldFlags then some .mod
  else none

/-- `if (op == -1) return`, and `ctl` otherwise. -/
def ctl? (el : PollLoop EpollSet) (op : Option EpollOp) (fd : ℤ) (event : EpollEvent) (fmt : String) :
    PollLoop EpollSet :=
  match op with
  | none => el
  | some op => el.ctl op fd event fmt

/-- `mowgli_epoll_eventloop_setselect`. -/
def epollSetselect (el : PollLoop EpollSet) (pollable : Addr) (dir : IoDir) (f : Option Addr) :
    Option (PollLoop EpollSet) := do
  let p ← el.pollables.get pollable
  let oldFlags := p.slot
  let p := selected p dir f
  let el := { el with pollables := el.pollables.set pollable p, log := logDirection dir el.log }
  some (el.ctl? (slotOp oldFlags p.slot) p.fd ⟨p.slot, pollable⟩
    "mowgli_epoll_eventloop_setselect(): epoll_ctl failed: %d (%s)")

/-- `_mowgli_epoll_pollops`. -/
def epollPollops : PollOps EpollSet := ⟨epollSetselect, epollDestroy⟩

/-! ## What the kernel should have -/

variable {el el' : PollLoop EpollSet} {a b : Addr} {p q : Pollable}

/-- The events a pollable is to be polled for. -/
def eventMask (p : Pollable) : BitVec 32 :=
  (if p.readFunction.isSome then EPOLLIN else 0) ||| if p.writeFunction.isSome then EPOLLOUT else 0

/-- What the kernel should have for a pollable: nothing, if it has neither
function. -/
def interest (a : Addr) (p : Pollable) : Option EpollEvent :=
  if p.hasFunction then some ⟨eventMask p, a⟩ else none

theorem eventMask_eq_zero : eventMask p = 0 ↔ p.hasFunction = false := by
  unfold eventMask Pollable.hasFunction
  generalize p.readFunction.isSome = r
  generalize p.writeFunction.isSome = w
  revert r w
  decide

theorem interest_of_zero (h : eventMask p = 0) : interest a p = none := by
  rw [interest, eventMask_eq_zero.1 h, if_neg Bool.false_ne_true]

theorem interest_of_ne_zero (h : eventMask p ≠ 0) : interest a p = some ⟨eventMask p, a⟩ := by
  rw [interest, if_pos]
  rwa [Ne, eventMask_eq_zero, Bool.not_eq_false] at h

@[simp] theorem clearFlag_fd (f : Option Addr) (flag : BitVec 32) : (clearFlag f flag p).fd = p.fd := by
  unfold clearFlag
  split_ifs <;> rfl

@[simp] theorem clearFlag_removed (f : Option Addr) (flag : BitVec 32) :
    (clearFlag f flag p).removed = p.removed := by
  unfold clearFlag
  split_ifs <;> rfl

theorem selected_fd (dir : IoDir) (f : Option Addr) : (selected p dir f).fd = p.fd := by
  unfold selected clearSlot
  rw [clearFlag_fd, clearFlag_fd]
  cases dir <;> rfl

theorem selected_removed (dir : IoDir) (f : Option Addr) : (selected p dir f).removed = p.removed := by
  unfold selected clearSlot
  rw [clearFlag_removed, clearFlag_removed]
  cases dir <;> rfl

/-- **The slot follows the functions.** -/
theorem selected_slot (h : p.slot = eventMask p) (dir : IoDir) (f : Option Addr) :
    (selected p dir f).slot = eventMask (selected p dir f) := by
  obtain ⟨fd, slot, r, w, userdata, node, removed⟩ := p
  obtain rfl : slot = eventMask ⟨fd, 0, r, w, userdata, node, removed⟩ := h
  cases dir <;> cases f <;> cases r <;> cases w <;>
    simp [selected, clearSlot, clearFlag, orSlot, Pollable.setFunction, eventMask, EPOLLIN, EPOLLOUT]

/-! ## Slots that follow the functions -/

section Tracked

variable {K : Type} {want want' : Addr → Pollable → K} {k₀ : K} {el el' : PollLoop (ℤ → K)}

/-- The kernel has what live pollables are to have, and their slots say what they wait for. -/
structure Tracked (want : Addr → Pollable → K) (k₀ : K) (el : PollLoop (ℤ → K)) : Prop where
  mirrored : el.Mirrored want k₀
  slot : ∀ a p, el.pollables.get a = some p → p.removed = false → p.slot = eventMask p

/-- A pollable and what the kernel has for it change together. -/
theorem Tracked.select (h : el.Tracked want k₀) (hp : el.pollables.get a = some p) (hr : p.removed = false)
    (dir : IoDir) (f : Option Addr) (hwant : ∀ b ≠ a, want' b = want b)
    (hpoll : el'.poller = Function.update el.poller p.fd (want' a (selected p dir f)))
    (hstore : el'.pollables = el.pollables.set a (selected p dir f)) : el'.Tracked want' k₀ := by
  refine ⟨h.mirrored.change hp hr hwant hpoll (fun b hb => ?_) (fun q hq _ => ?_) fun hgone => ?_, fun b r hb hrr => ?_⟩
  · rw [hstore]
    exact Store.get_set_of_ne _ _ hb
  · rw [hstore, Store.get_set_self, Option.some_inj] at hq
    exact hq ▸ ⟨selected_fd dir f, rfl⟩
  · exact absurd ⟨_, hstore ▸ Store.get_set_self .., (selected_removed dir f).trans hr⟩ hgone
  · rw [hstore, Store.get_set] at hb
    split_ifs at hb with hba
    · exact Option.some.inj hb ▸ selected_slot (h.slot a p hp hr) dir f
    · exact h.slot b r hb hrr

/-- A pollable is live no more, and the kernel has nothing for it. -/
theorem Tracked.drop (h : el.Tracked want k₀) (hp : el.pollables.get a = some p) (hr : p.removed = false)
    (hpoll : el'.poller = Function.update el.poller p.fd k₀) (ha : ¬ el'.Live a)
    (hget : ∀ b ≠ a, el'.pollables.get b = el.pollables.get b) : el'.Tracked want k₀ := by
  refine ⟨h.mirrored.change hp hr (fun _ _ => rfl) hpoll hget (fun q hq hqr => absurd ⟨q, hq, hqr⟩ ha) fun _ => rfl, ?_⟩
  intro b r hb hrr
  have hba : b ≠ a := fun hba => ha ⟨r, hba ▸ hb, hrr⟩
  exact h.slot b r ((hget b hba).symm.trans hb) hrr

/-- Pollables that are not live come and go. -/
theorem Tracked.congr (h : el.Tracked want k₀) (hpoll : el'.poller = el.poller)
    (hget : ∀ b r, r.removed = false → (el'.pollables.get b = some r ↔ el.pollables.get b = some r)) :
    el'.Tracked want k₀ :=
  ⟨h.mirrored.congr hpoll hget, fun b r hb hrr => h.slot b r ((hget b r hrr).1 hb) hrr⟩

/-- A new pollable has nothing yet, and its descriptor is its own. -/
theorem Tracked.create (h : el.Tracked want k₀) (hk : el.Kept) {fd : ℤ}
    (hfd : ∀ a p, el.pollables.get a = some p → p.removed = false → p.fd ≠ fd) (userdata : Option Addr)
    (hnew : ∀ q, eventMask q = 0 → want el.allocated q = k₀) :
    (el.pollableCreate fd userdata).2.Tracked want k₀ := by
  refine ⟨h.mirrored.create hk hfd userdata (hnew _ (eventMask_eq_zero.2 rfl)), fun b r hb hrr => ?_⟩
  rcases get_pollableCreate hb with ⟨rfl, rfl⟩ | hb
  · exact (eventMask_eq_zero.2 rfl).symm
  · exact h.slot b r hb hrr

theorem tracked_create : (create (P := ℤ → K) fun _ => k₀).Tracked want k₀ :=
  ⟨mirrored_create, fun a p hp => absurd (hp.symm.trans (Store.get_empty a)) (Option.some_ne_none p)⟩

end Tracked

/-- The kernel, the slots and the pollables are of one mind. -/
abbrev Agreed (el : PollLoop EpollSet) : Prop := el.Tracked interest none

/-- What the kernel has is from a live pollable. -/
theorem Agreed.live_ptr (h : el.Agreed) {fd : ℤ} {e : EpollEvent} (he : el.poller fd = some e) :
    el.Live e.ptr := by
  obtain ⟨a, p, hp, hr, -, hi⟩ := h.mirrored.exists_live (by rw [he]; exact Option.some_ne_none e)
  rw [he, interest] at hi
  split_ifs at hi
  rw [Option.some_inj] at hi
  exact ⟨p, by rw [hi]; exact hp, hr⟩

/-- Where the kernel and the slot agree, the operation is the right one:
there is no error, and the kernel has then what it should. -/
theorem ctl_slotOp {old slot : BitVec 32} {fd : ℤ} {i i' : Option EpollEvent}
    (hi : el.poller fd = i) (hold : old = 0 ↔ i = none) (hslot : slot = 0 → i' = none)
    (hslot' : slot ≠ 0 → i' = some ⟨slot, a⟩) (hsame : slot = old → i' = i) (fmt : String) :
    el.ctl? (slotOp old slot) fd ⟨slot, a⟩ fmt = { el with poller := Function.update el.poller fd i' } := by
  have hkeep : i' = i → el = { el with poller := Function.update el.poller fd i' } := by
    intro heq
    rw [heq, ← hi, Function.update_eq_self]
  by_cases hs : slot = 0
  · by_cases ho : old = 0
    · rw [slotOp, if_pos ⟨ho, hs⟩]
      exact hkeep (by rw [hslot hs, hold.1 ho])
    · obtain ⟨e, he⟩ := Option.ne_none_iff_exists'.1 fun h => ho (hold.2 h)
      rw [slotOp, if_neg fun h => ho h.1, if_pos (by rw [hs]; decide)]
      rw [he] at hi
      simp only [ctl?, ctl, epollCtl, hi, hslot hs]
  · have hle : ¬ slot ≤ 0 := by
      intro hle
      exact hs (BitVec.le_zero_iff.1 hle)
    by_cases ho : old = 0
    · rw [slotOp, if_neg fun h => hs h.2, if_neg hle, if_pos ⟨ho, hs⟩]
      rw [hold.1 ho] at hi
      simp only [ctl?, ctl, epollCtl, hi, hslot' hs]
    · rw [slotOp, if_neg fun h => hs h.2, if_neg hle, if_neg fun h => ho h.1]
      by_cases hso : slot = old
      · rw [if_neg (not_not.2 hso)]
        exact hkeep (hsame hso)
      · obtain ⟨e, he⟩ := Option.ne_none_iff_exists'.1 fun h => ho (hold.2 h)
        rw [if_pos hso]
        rw [he] at hi
        simp only [ctl?, ctl, epollCtl, hi, hslot' hs]

/-- **`setselect`** brings the kernel up to date. -/
theorem Agreed.setselect (h : el.Agreed) (hp : el.pollables.get a = some p) (hr : p.removed = false)
    (dir : IoDir) (f : Option Addr) :
    ∃ el', epollSetselect el a dir f = some el' ∧ el'.Agreed ∧ SameLife el el' := by
  have hq := selected_slot (h.slot a p hp hr) dir f
  refine ⟨{ el with
      pollables := el.pollables.set a (selected p dir f)
      poller := Function.update el.poller p.fd (PollLoop.interest a (selected p dir f))
      log := logDirection dir el.log }, ?_,
    h.select hp hr dir f (fun _ _ => rfl) rfl rfl,
    Store.Same.set hp (selected_removed dir f), rfl, rfl, rfl, rfl⟩
  have hctl := @ctl_slotOp { el with
      pollables := el.pollables.set a (selected p dir f), log := logDirection dir el.log }
    a p.slot (selected p dir f).slot p.fd (PollLoop.interest a p) (PollLoop.interest a (selected p dir f))
    (h.mirrored.has a p hp hr) ?_ ?_ ?_ ?_ "mowgli_epoll_eventloop_setselect(): epoll_ctl failed: %d (%s)"
  · simp only [epollSetselect, hp, Option.bind_eq_bind, Option.bind_some]
    rw [selected_fd, hctl]
  · rw [h.slot a p hp hr]
    constructor
    · exact interest_of_zero
    · intro hn
      by_contra hne
      rw [interest_of_ne_zero hne] at hn
      exact Option.some_ne_none _ hn
  · intro h0
    exact interest_of_zero (hq ▸ h0)
  · intro h0
    rw [hq] at h0 ⊢
    exact interest_of_ne_zero h0
  · intro heq
    rw [hq, h.slot a p hp hr] at heq
    by_cases h0 : eventMask p = 0
    · rw [interest_of_zero h0, interest_of_zero (heq.trans h0)]
    · rw [interest_of_ne_zero h0, interest_of_ne_zero (heq ▸ h0), heq]

/-- **`destroy`** takes the descriptor from the kernel. -/
theorem epollDestroy_eq (hp : el.pollables.get a = some p) :
    epollDestroy el a = some { el with
      pollables := el.pollables.set a { p with slot := 0 }
      poller := Function.update el.poller p.fd none } := by
  simp only [epollDestroy, hp, Option.bind_eq_bind, Option.bind_some]
  cases he : el.poller p.fd with
  | none =>
    have hupd : Function.update el.poller p.fd none = el.poller := by
      rw [← he, Function.update_eq_self]
    simp only [ctl, epollCtl, he, EpollErrno.ignore, if_true, hupd]
  | some e =>
    simp only [ctl, epollCtl, he]

end PollLoop

end Mowgli
