import Mowgli.Eventloop.Pollable.Poll
/-!
# One round of the poll backend

`mowgli_poll_eventloop_select`: the list becomes an array for `poll`, in which
the entry of a pollable is at its `slot`; and when `poll` has filled in
`revents`, the list is walked, and each pollable is called for what is in its
entry. The callbacks change the list under the walk, which has read the next
node beforehand.

The walk also clears what it calls for from `events`. Nothing reads that before
the next round fills the array anew, and it is left out.
-/

namespace Mowgli

/-- `POLLIN`. -/
def POLLIN : BitVec 16 := 0x001

/-- `POLLOUT`. -/
def POLLOUT : BitVec 16 := 0x004

/-- `POLLERR`. -/
def POLLERR : BitVec 16 := 0x008

/-- `POLLHUP`. -/
def POLLHUP : BitVec 16 := 0x010

/-- `POLLRDNORM`. -/
def POLLRDNORM : BitVec 16 := 0x040

/-- `POLLWRNORM`. -/
def POLLWRNORM : BitVec 16 := 0x100

/-- `FD_SETSIZE`, the length of the array. -/
def FD_SETSIZE : ℕ := 1024

/-- `struct pollfd`. -/
structure Pollfd where
  fd : ℤ
  events : BitVec 16
  revents : BitVec 16

/-- The events that a direction is called for. -/
def IoDir.pollMask : IoDir → BitVec 16
  | .read => POLLRDNORM ||| POLLIN ||| POLLHUP ||| POLLERR
  | .write => POLLWRNORM ||| POLLOUT ||| POLLHUP ||| POLLERR
  | .error => 0

/-- The entry that `update_poll_fds` makes for a pollable. -/
def Pollable.pollfd (p : Pollable) : Pollfd :=
  ⟨p.fd, (if p.readFunction.isSome then POLLRDNORM else 0) ||| (if p.writeFunction.isSome then POLLWRNORM else 0), 0⟩

namespace PollLoop

/-- The loop of `update_poll_fds`, from the node `n` on. The entries made so far are
`pollfds`, and the next slot is their number. -/
def updateLoop : ℕ → Store Pollable → List Pollfd → Option Addr → Option (Store Pollable × List Pollfd)
  | _, m, pollfds, none => some (m, pollfds)
  | 0, _, _, some _ => none
  | fuel + 1, m, pollfds, some n => do
    let x ← m.get n
    let pollable ← x.node.data
    let p ← m.get pollable
    if p.hasFunction then
      -- an entry past the end of the array
      if FD_SETSIZE ≤ pollfds.length then none
      else
        updateLoop fuel (m.set pollable { p with slot := BitVec.ofNat 32 pollfds.length })
          (pollfds ++ [p.pollfd]) x.node.next
    else updateLoop fuel (m.set pollable { p with slot := -1 }) pollfds x.node.next

/-- `update_poll_fds`, with the entries that are in use; the others are zero. A
walk over more nodes than there are pollables would not end. -/
def updatePollFds (el : PollLoop MowgliList) : Option (PollLoop MowgliList × List Pollfd) :=
  (updateLoop el.allocated el.pollables [] el.poller.head).map fun (m, pollfds) =>
    ({ el with pollables := m }, pollfds)

/-- `priv->pollfds[slot].revents`. -/
def revents (pollfds : List Pollfd) (slot : ℕ) : BitVec 16 := (pollfds[slot]?.map Pollfd.revents).getD 0

/-- One of the two tests in the walk, and what it calls. -/
def pollTest (el : PollLoop MowgliList) (pollable : Addr) (revents : BitVec 16) (dir : IoDir) :
    Option (Option (Addr × Option Addr)) :=
  if revents &&& dir.pollMask ≠ 0 then do
    let p ← el.pollables.get pollable
    if (p.function dir).isSome && !p.removed then el.pollableTrigger pollable dir else some none
  else some none

end PollLoop

/-! ## The round, step by step -/

/-- Where a program is in `mowgli_poll_eventloop_select`. -/
inductive PollTurn
  /-- Not in it. -/
  | idle
  /-- At the head of the walk, with the node and the one after it. -/
  | next (n : Addr) (tn : Option Addr)
  /-- In a function of a pollable. -/
  | calling (dir : IoDir) (pollable : Addr) (slot : ℕ) (tn : Option Addr)
  /-- Between the two tests. -/
  | between (pollable : Addr) (slot : ℕ) (tn : Option Addr)

/-- Whether the program's own code runs. -/
def PollTurn.callable : PollTurn → Bool
  | .idle | .calling _ _ _ _ => true
  | .next _ _ | .between _ _ _ => false

/-- An event loop on poll. -/
structure Dispatch where
  el : PollLoop MowgliList
  /-- The entries of `pollfds` that are in use. -/
  pollfds : List Pollfd
  turn : PollTurn

/-- A step: what the program or the event loop does between the rounds and in the
callbacks, or one of the round. -/
inductive DispatchStep
  | other (c : PollLoop.PollStep)
  /-- `mowgli_poll_eventloop_select` is called; `poll` times out or fails, or fills in
  the `revents` of the entries. -/
  | select (result : Option (ℕ → BitVec 16))
  /-- The walk goes on to its next test. -/
  | visit
  /-- The function that was called returns. -/
  | ret

/-- What comes of a step. -/
inductive DispatchAnswer
  | returned (pollable : Option Addr)
  /-- A function of a pollable is called. -/
  | called (pollable : Addr) (dir : IoDir) (f : Addr) (userdata : Option Addr)

namespace Dispatch

open PollLoop

/-- The walk goes on to the node `tn`: `n = tn, tn = n ? n->next : NULL`. -/
def advance (s : Dispatch) : Option Addr → Option (DispatchAnswer × Dispatch)
  | none => some (.returned none, { s with turn := .idle })
  | some n => (s.el.pollables.get n).map fun x => (.returned none, { s with turn := .next n x.node.next })

/-- A function that a test has found is called. -/
def callOr (s : Dispatch) (dir : IoDir) (pollable : Addr) (slot : ℕ) (tn : Option Addr)
    (otherwise : Option (DispatchAnswer × Dispatch)) :
    Option (Addr × Option Addr) → Option (DispatchAnswer × Dispatch)
  | some (f, userdata) => some (.called pollable dir f userdata, { s with turn := .calling dir pollable slot tn })
  | none => otherwise

/-- The walk comes to a node, up to the first test. -/
def visitNode (s : Dispatch) (n : Addr) (tn : Option Addr) : Option (DispatchAnswer × Dispatch) := do
  let x ← s.el.pollables.get n
  let pollable ← x.node.data
  let p ← s.el.pollables.get pollable
  let slot := p.slot.toNat
  if p.slot = -1 then s.advance tn
  -- an entry past the end of the array
  else if FD_SETSIZE ≤ slot then none
  else if revents s.pollfds slot = 0 then s.advance tn
  else do
    let r ← s.el.pollTest pollable (revents s.pollfds slot) .read
    s.callOr .read pollable slot tn (some (.returned none, { s with turn := .between pollable slot tn })) r

/-- The second test. -/
def visitWrite (s : Dispatch) (pollable : Addr) (slot : ℕ) (tn : Option Addr) :
    Option (DispatchAnswer × Dispatch) := do
  let r ← s.el.pollTest pollable (revents s.pollfds slot) .write
  s.callOr .write pollable slot tn (s.advance tn) r

/-- `mowgli_poll_eventloop_select`, up to the walk. -/
def select (s : Dispatch) (result : Option (ℕ → BitVec 16)) : Option (DispatchAnswer × Dispatch) := do
  let (el, pollfds) ← s.el.updatePollFds
  match result with
  | none => some (.returned none, ⟨el, pollfds, .idle⟩)
  | some r => advance ⟨el, pollfds.mapIdx fun i e => { e with revents := r i }, .idle⟩ el.poller.head

/-- The steps of a program with an event loop on poll. -/
def step (s : Dispatch) : DispatchStep → Option (DispatchAnswer × Dispatch)
  | .other c =>
    if s.turn.callable then (pollStep s.el c).map fun (r, el) => (.returned r, { s with el := el })
    else none
  | .select result =>
    match s.turn with
    | .idle => s.select result
    | _ => none
  | .visit =>
    match s.turn with
    | .next n tn => s.visitNode n tn
    | .between pollable slot tn => s.visitWrite pollable slot tn
    | _ => none
  | .ret =>
    match s.turn with
    | .calling .read pollable slot tn => some (.returned none, { s with turn := .between pollable slot tn })
    | .calling .write _ _ tn => s.advance tn
    | _ => none

end Dispatch

/-! ## Before `poll` -/

namespace PollLoop

variable {el el' : PollLoop MowgliList} {m m' : Store Pollable} {l : MowgliList} {a b : Addr} {p : Pollable}
variable {xs ys zs : List Addr} {pollfds : List Pollfd} {fuel : ℕ}

/-- All of a pollable but its slot. -/
def unslotted (p : Pollable) : Pollable := { p with slot := 0 }

/-- **The loop of `update_poll_fds`** gives the pollables of the list the slots from
`pollfds.length` on, with their entries, or runs over the end of the array. -/
theorem updateLoop_spec : ∀ (zs : List Addr) {ys : List Addr} {m : Store Pollable} {pollfds : List Pollfd} {fuel : ℕ},
    Pollable.nodeField.Holds m l (ys ++ zs) → (∀ b ∈ zs, Pollable.nodeField.data m b = some (some b)) →
    (∀ b ∈ zs, Polled m b) → zs.length ≤ fuel → pollfds.length ≤ FD_SETSIZE →
    (pollfds.length + zs.length ≤ FD_SETSIZE →
      ∃ m' new, updateLoop fuel m pollfds zs.head? = some (m', pollfds ++ new) ∧ new.length = zs.length ∧
        (∀ b ∉ zs, m'.get b = m.get b) ∧
        ∀ i b, zs[i]? = some b → new[i]? = (m.get b).map Pollable.pollfd ∧
          m'.get b = (m.get b).map fun p => { p with slot := BitVec.ofNat 32 (pollfds.length + i) }) ∧
      (FD_SETSIZE < pollfds.length + zs.length → updateLoop fuel m pollfds zs.head? = none) := by
  intro zs
  induction zs with
  | nil =>
    intro ys m pollfds fuel _ _ _ _ hfits
    have hrun : updateLoop fuel m pollfds none = some (m, pollfds) := by
      cases fuel <;> rfl
    refine ⟨fun _ => ⟨m, [], ?_, rfl, fun _ _ => rfl, fun i b hb => by simp at hb⟩, fun hlt => ?_⟩
    · rw [List.head?_nil, hrun, List.append_nil]
    · exact absurd hlt (Nat.not_lt.2 hfits)
  | cons b zs ih =>
    intro ys m pollfds fuel hm hdata hpolled hfuel _
    obtain ⟨x, hx, hnext⟩ := hm.next_eq
    obtain ⟨x', hx', hd⟩ := Option.map_eq_some_iff.1 (hdata b List.mem_cons_self)
    obtain rfl := Option.some.inj (hx.symm.trans hx')
    have hf := ((polled_iff hx).1 (hpolled b List.mem_cons_self)).2
    obtain ⟨fuel, rfl⟩ : ∃ k, fuel = k + 1 := Nat.exists_eq_succ_of_ne_zero (by rintro rfl; simp at hfuel)
    have hnd := (List.nodup_append.1 hm.nodup).2.1
    rw [List.nodup_cons] at hnd
    have hne : ∀ c ∈ zs, c ≠ b := fun c hc hcb => hnd.1 (hcb ▸ hc)
    have hother : ∀ c ≠ b, (m.set b { x with slot := BitVec.ofNat 32 pollfds.length }).get c = m.get c :=
      fun c hc => Store.get_set_of_ne _ _ hc
    have hstep : updateLoop (fuel + 1) m pollfds (b :: zs).head? =
        if FD_SETSIZE ≤ pollfds.length then none
        else updateLoop fuel (m.set b { x with slot := BitVec.ofNat 32 pollfds.length })
          (pollfds ++ [x.pollfd]) zs.head? := by
      have hd' : x.node.data = some b := hd
      have hnext' : x.node.next = zs.head? := hnext
      rw [List.head?_cons, updateLoop]
      simp only [hx, hd', hnext', hf, Option.bind_eq_bind, Option.bind_some, if_true]
    have hholds : Pollable.nodeField.Holds (m.set b { x with slot := BitVec.ofNat 32 pollfds.length }) l
        ((ys ++ [b]) ++ zs) := by
      rw [List.append_assoc, List.singleton_append]
      refine hm.congr fun c hc => ?_
      by_cases hcb : c = b
      · rw [hcb, NodeField.links, NodeField.links, Store.get_set_self, hx]
        rfl
      · rw [NodeField.links, NodeField.links, hother c hcb]
    have htail := @ih _ _ (pollfds ++ [x.pollfd]) fuel hholds
      (fun c hc => by
        rw [NodeField.data, hother c (hne c hc)]
        exact hdata c (List.mem_cons_of_mem b hc))
      (fun c hc => (polled_congr (hother c (hne c hc))).2 (hpolled c (List.mem_cons_of_mem b hc)))
      (Nat.le_of_succ_le_succ hfuel)
    rw [hstep]
    rw [List.length_append, List.length_singleton] at htail
    rw [List.length_cons]
    refine ⟨fun hle => ?_, fun hlt => ?_⟩
    · rw [if_neg (by omega)]
      obtain ⟨m', new, hrun, hlen, hout, hin⟩ := (htail (by omega)).1 (by omega)
      refine ⟨m', x.pollfd :: new, ?_, ?_, fun c hc => ?_, fun i c hc => ?_⟩
      · rw [hrun, List.append_assoc, List.singleton_append]
      · rw [List.length_cons, hlen]
      · rw [List.mem_cons, not_or] at hc
        rw [hout c hc.2, hother c hc.1]
      · cases i with
        | zero =>
          obtain rfl : b = c := Option.some.inj hc
          rw [hout b hnd.1, Store.get_set_self, hx]
          exact ⟨rfl, rfl⟩
        | succ i =>
          obtain ⟨hentry, hslot⟩ := hin i c hc
          rw [hother c (hne c (List.mem_of_getElem? hc))] at hentry hslot
          rw [hslot, Nat.add_assoc, Nat.add_comm 1 i]
          exact ⟨hentry, rfl⟩
    · split_ifs with hfull
      · rfl
      · exact (htail (by omega)).2 (by omega)

theorem Ordered.length_le (h : el.Ordered xs) (hk : el.Kept) : xs.length ≤ el.allocated := by
  have hsub : xs.toFinset ⊆ Finset.range el.allocated := by
    intro b hb
    rw [List.mem_toFinset] at hb
    exact Finset.mem_range.2 (hk.fresh b (h.holds.mem_live hb))
  have hcard := Finset.card_le_card hsub
  rwa [List.toFinset_card_of_nodup h.holds.nodup, Finset.card_range] at hcard

/-- Slots are nothing to the list. -/
theorem Ordered.reslot (h : el.Ordered xs) (hm : Store.Same unslotted el.pollables m) :
    Ordered { el with pollables := m } xs := by
  refine ⟨h.holds.congr fun b _ => hm.comp (fun p => (p.node.prev, p.node.next)) b, fun b => ?_, fun b hb => ?_⟩
  · rw [h.polled]
    exact (polled_of_same (hm.comp fun p => (p.removed, p.hasFunction))).symm
  · exact (hm.comp (fun p => p.node.data) b).trans (h.data b hb)

/-- **`update_poll_fds`** numbers the pollables of the list, if there are no more than
the array has entries. -/
theorem updatePollFds_spec (h : el.Ordered xs) (hk : el.Kept) :
    (xs.length ≤ FD_SETSIZE →
      ∃ m pollfds, el.updatePollFds = some ({ el with pollables := m }, pollfds) ∧ pollfds.length = xs.length ∧
        (∀ b ∉ xs, m.get b = el.pollables.get b) ∧
        ∀ i b, xs[i]? = some b → pollfds[i]? = (el.pollables.get b).map Pollable.pollfd ∧
          m.get b = (el.pollables.get b).map fun p => { p with slot := BitVec.ofNat 32 i }) ∧
      (FD_SETSIZE < xs.length → el.updatePollFds = none) := by
  obtain ⟨hfits, hlong⟩ := @updateLoop_spec _ xs [] _ [] _ h.holds h.data (fun b hb => (h.polled b).1 hb)
    (h.length_le hk) (Nat.zero_le _)
  rw [List.length_nil, Nat.zero_add] at hfits hlong
  rw [updatePollFds, h.holds.head_eq]
  constructor
  · intro hle
    obtain ⟨m, new, hrun, hlen, hout, hin⟩ := hfits hle
    refine ⟨m, new, ?_, hlen, hout, fun i b hb => ?_⟩
    · rw [hrun, List.nil_append]
      rfl
    · have hb' := hin i b hb
      rwa [Nat.zero_add] at hb'
  · intro hlt
    rw [hlong hlt]
    rfl

theorem Ordered.cell (h : el.Ordered xs) (hb : b ∈ xs) :
    ∃ p, el.pollables.get b = some p ∧ p.node.data = some b ∧ p.removed = false ∧ p.hasFunction = true := by
  obtain ⟨p, hp, hr, hf⟩ := (h.polled b).1 hb
  obtain ⟨q, hq, hd⟩ := Option.map_eq_some_iff.1 (h.data b hb)
  obtain rfl := Option.some.inj (hp.symm.trans hq)
  exact ⟨p, hp, hd, hr, hf⟩

end PollLoop

/-! ## The walk, without callbacks -/

/-- What a test calls, with what is in the entry. -/
def Pollable.calls (p : Pollable) (revents : BitVec 16) (dir : IoDir) : Option (Addr × Option Addr) :=
  if revents &&& dir.pollMask ≠ 0 ∧ p.removed = false then (p.function dir).map fun f => (f, p.userdata) else none

namespace Dispatch

open PollLoop

variable {s s' : Dispatch} {a b n : Addr} {p : Pollable} {dir : IoDir} {slot : ℕ} {tn : Option Addr} {t : PollTurn}
variable {f : Addr} {userdata : Option Addr} {xs ys zs : List Addr}

theorem calls_zero : p.calls 0 dir = none := if_neg fun h => h.1 BitVec.zero_and

theorem calls_eq_some {revents : BitVec 16} : p.calls revents dir = some (f, userdata) ↔
    revents &&& dir.pollMask ≠ 0 ∧ p.removed = false ∧ p.function dir = some f ∧ p.userdata = userdata := by
  unfold Pollable.calls
  split_ifs with h
  · rw [Option.map_eq_some_iff]
    constructor
    · rintro ⟨g, hg, heq⟩
      obtain ⟨rfl, rfl⟩ := Prod.mk.inj heq
      exact ⟨h.1, h.2, hg, rfl⟩
    · rintro ⟨-, -, hg, rfl⟩
      exact ⟨f, hg, rfl⟩
  · constructor
    · exact False.elim
    · exact fun hc => absurd ⟨hc.1, hc.2.1⟩ h

/-- What is called is a function. -/
theorem dir_of_calls {revents : BitVec 16} (h : p.calls revents dir = some (f, userdata)) : dir ≠ .error := by
  rintro rfl
  exact absurd (calls_eq_some.1 h).2.2.1 (Option.some_ne_none f).symm

theorem pollTest_eq {el : PollLoop MowgliList} (hp : el.pollables.get a = some p) (revents : BitVec 16) (dir : IoDir) :
    el.pollTest a revents dir = some (p.calls revents dir) := by
  have htrigger : el.pollableTrigger a dir = some ((p.function dir).map fun f => (f, p.userdata)) := by
    rw [pollableTrigger, hp]
    cases dir <;> rfl
  unfold pollTest Pollable.calls
  by_cases hm : revents &&& dir.pollMask ≠ 0
  · rw [if_pos hm]
    simp only [hp, htrigger, Option.bind_eq_bind, Option.bind_some]
    cases hr : p.removed with
    | true => rw [Bool.not_true, Bool.and_false, if_neg Bool.false_ne_true, if_neg fun h => Bool.noConfusion h.2]
    | false =>
      have hcalls : revents &&& dir.pollMask ≠ 0 ∧ false = false := ⟨hm, rfl⟩
      rw [if_pos hcalls]
      cases hf : p.function dir <;> rfl
  · rw [if_neg hm, if_neg fun h => hm h.1]

theorem visitWrite_eq (hp : s.el.pollables.get a = some p) :
    s.visitWrite a slot tn = s.callOr .write a slot tn (s.advance tn) (p.calls (revents s.pollfds slot) .write) := by
  rw [visitWrite, pollTest_eq hp]
  rfl

/-- The array is as long as it is: entries not in use are zero. -/
theorem revents_of_le {pollfds : List Pollfd} (h : pollfds.length ≤ slot) : revents pollfds slot = 0 := by
  rw [revents, List.getElem?_eq_none h]
  rfl

theorem visitNode_eq (tn : Option Addr) (hp : s.el.pollables.get n = some p) (hd : p.node.data = some n)
    (hslot : p.slot = -1 ∨ p.slot.toNat < FD_SETSIZE) (hfits : s.pollfds.length ≤ FD_SETSIZE) :
    s.visitNode n tn =
      if revents s.pollfds p.slot.toNat = 0 then s.advance tn
      else s.callOr .read n p.slot.toNat tn (some (.returned none, { s with turn := .between n p.slot.toNat tn }))
        (p.calls (revents s.pollfds p.slot.toNat) .read) := by
  rw [visitNode]
  simp only [hp, hd, Option.bind_eq_bind, Option.bind_some]
  by_cases hneg : p.slot = -1
  · have hlarge : s.pollfds.length ≤ p.slot.toNat := by
      rw [hneg]
      exact hfits.trans (by decide)
    rw [if_pos hneg, if_pos (revents_of_le hlarge)]
  · rw [if_neg hneg, if_neg (Nat.not_le.2 (hslot.resolve_left hneg)), pollTest_eq hp]
    rfl

/-- Where the walk is when these are to come. -/
def turnAt : List Addr → PollTurn
  | [] => .idle
  | n :: ns => .next n ns.head?

theorem advance_eq (ys zs : List Addr) (h : Pollable.nodeField.Holds s.el.pollables s.el.poller (ys ++ zs)) :
    s.advance zs.head? = some (.returned none, { s with turn := turnAt zs }) := by
  cases zs with
  | nil => rfl
  | cons n ns =>
    obtain ⟨x, hx, hnext⟩ := h.next_eq
    have hnext' : x.node.next = ns.head? := hnext
    rw [List.head?_cons, advance, hx, Option.map_some, hnext']
    rfl

/-- The steps of the walk itself. -/
def WalkOk (s : Dispatch) : DispatchStep → Prop
  | .visit => (∃ n tn, s.turn = .next n tn) ∨ ∃ pollable slot tn, s.turn = .between pollable slot tn
  | .ret => ∃ dir pollable slot tn, s.turn = .calling dir pollable slot tn
  | _ => False

theorem walkOk_next : WalkOk { s with turn := .next n tn } .visit := Or.inl ⟨n, tn, rfl⟩

theorem walkOk_between : WalkOk { s with turn := .between a slot tn } .visit := Or.inr ⟨a, slot, tn, rfl⟩

theorem walkOk_calling : WalkOk { s with turn := .calling dir a slot tn } .ret := ⟨dir, a, slot, tn, rfl⟩

/-- Where the walk goes on to is not the matter of where it is. -/
theorem advance_turn (s : Dispatch) (t : PollTurn) (tn : Option Addr) :
    ({ s with turn := t } : Dispatch).advance tn = s.advance tn := by
  cases tn <;> rfl

theorem step_ret_read (s : Dispatch) (a : Addr) (slot : ℕ) (tn : Option Addr) : step { s with turn := .calling .read a slot tn } .ret =
    some (.returned none, { s with turn := .between a slot tn }) := rfl

theorem step_ret_write (s : Dispatch) (a : Addr) (slot : ℕ) (tn : Option Addr) :
    step { s with turn := .calling .write a slot tn } .ret = s.advance tn :=
  advance_turn s _ tn

theorem step_between (slot : ℕ) (tn : Option Addr) (hp : s.el.pollables.get a = some p) :
    step { s with turn := .between a slot tn } .visit =
      s.callOr .write a slot tn (s.advance tn) (p.calls (revents s.pollfds slot) .write) := by
  refine (visitWrite_eq (s := { s with turn := .between a slot tn }) hp).trans ?_
  rw [advance_turn]
  cases p.calls (revents s.pollfds slot) .write <;> rfl

/-- A test that calls nothing, or something that returns. -/
theorem walk_between (slot : ℕ) (hp : s.el.pollables.get a = some p)
    (hnext : s.advance tn = some (.returned none, { s with turn := t })) :
    ∃ tr, Run step WalkOk { s with turn := .between a slot tn } tr { s with turn := t } := by
  have hvisit := step_between slot tn hp
  rw [hnext] at hvisit
  cases hcall : p.calls (revents s.pollfds slot) .write with
  | none =>
    rw [hcall] at hvisit
    exact ⟨_, Run.one walkOk_between hvisit⟩
  | some r =>
    rw [hcall] at hvisit
    have hret := (step_ret_write s a slot tn).trans hnext
    exact ⟨_, (Run.one walkOk_between hvisit).snoc walkOk_calling hret⟩

/-- A function that returns. -/
theorem walk_calling (slot : ℕ) (hp : s.el.pollables.get a = some p) (hdir : dir ≠ .error)
    (hnext : s.advance tn = some (.returned none, { s with turn := t })) :
    ∃ tr, Run step WalkOk { s with turn := .calling dir a slot tn } tr { s with turn := t } := by
  cases dir with
  | read =>
    obtain ⟨tr, hrun⟩ := walk_between slot hp hnext
    exact ⟨_, (Run.one walkOk_calling (step_ret_read s a slot tn)).trans hrun⟩
  | write => exact ⟨_, Run.one walkOk_calling ((step_ret_write s a slot tn).trans hnext)⟩
  | error => exact absurd rfl hdir

/-- What holds of an event loop on poll at any time. -/
structure Sound (s : Dispatch) : Prop where
  listed : s.el.Listed
  kept : s.el.Kept
  slots : ∀ a p, s.el.pollables.get a = some p → p.slot = -1 ∨ p.slot.toNat < FD_SETSIZE
  fits : s.pollfds.length ≤ FD_SETSIZE

/-- The walk comes to a pollable of the list. -/
theorem step_next (tn : Option Addr) (h : s.Sound) (hxs : s.el.Ordered xs) (hp : s.el.pollables.get a = some p) (ha : a ∈ xs) :
    step { s with turn := .next a tn } .visit =
      if revents s.pollfds p.slot.toNat = 0 then s.advance tn
      else s.callOr .read a p.slot.toNat tn (some (.returned none, { s with turn := .between a p.slot.toNat tn }))
        (p.calls (revents s.pollfds p.slot.toNat) .read) := by
  obtain ⟨q, hq, hd, -⟩ := hxs.cell ha
  obtain rfl := Option.some.inj (hp.symm.trans hq)
  refine (visitNode_eq (s := { s with turn := .next a tn }) tn hp hd (h.slots a p hp) h.fits).trans ?_
  rw [advance_turn]
  cases p.calls (revents s.pollfds p.slot.toNat) .read <;> rfl

/-- A pollable is passed. -/
theorem walk_node (h : s.Sound) (hxs : s.el.Ordered (ys ++ a :: zs)) :
    ∃ tr, Run step WalkOk { s with turn := turnAt (a :: zs) } tr { s with turn := turnAt zs } := by
  have ha : a ∈ ys ++ a :: zs := List.mem_append_right _ List.mem_cons_self
  obtain ⟨p, hp, -⟩ := hxs.cell ha
  have hnext : s.advance zs.head? = some (.returned none, { s with turn := turnAt zs }) := by
    refine advance_eq (ys ++ [a]) zs ?_
    rw [List.append_assoc, List.singleton_append]
    exact hxs.holds
  have hvisit := step_next zs.head? h hxs hp ha
  by_cases hrev : revents s.pollfds p.slot.toNat = 0
  · rw [if_pos hrev, hnext] at hvisit
    exact ⟨_, Run.one walkOk_next hvisit⟩
  · rw [if_neg hrev] at hvisit
    cases hcall : p.calls (revents s.pollfds p.slot.toNat) .read with
    | none =>
      rw [hcall] at hvisit
      obtain ⟨tr, hrun⟩ := walk_between p.slot.toNat hp hnext
      exact ⟨_, (Run.one walkOk_next hvisit).trans hrun⟩
    | some r =>
      rw [hcall] at hvisit
      obtain ⟨tr, hrun⟩ := walk_calling p.slot.toNat hp (show IoDir.read ≠ .error by decide) hnext
      exact ⟨_, (Run.one walkOk_next hvisit).trans hrun⟩

/-- **Pollables are passed**, if their callbacks do nothing. -/
theorem walk_nodes (h : s.Sound) : ∀ (zs ys zs' : List Addr), s.el.Ordered (ys ++ zs ++ zs') →
    ∃ tr, Run step WalkOk { s with turn := turnAt (zs ++ zs') } tr { s with turn := turnAt zs' } := by
  intro zs
  induction zs with
  | nil => exact fun _ _ _ => ⟨[], Run.nil⟩
  | cons a zs ih =>
    intro ys zs' hxs
    rw [List.append_assoc, List.cons_append] at hxs
    obtain ⟨tr, hrun⟩ := walk_node h hxs
    rw [List.append_cons, ← List.append_assoc] at hxs
    obtain ⟨tr', hrun'⟩ := ih _ _ hxs
    exact ⟨_, hrun.trans hrun'⟩

/-- **A pollable that has a function for its event is called.** -/
theorem walk_call (tn : Option Addr) (h : s.Sound) (hxs : s.el.Ordered xs) (ha : a ∈ xs) (hp : s.el.pollables.get a = some p)
    (hcall : p.calls (revents s.pollfds p.slot.toNat) dir = some (f, userdata)) :
    ∃ tr, Run step WalkOk { s with turn := .next a tn } (tr ++ [(.visit, .called a dir f userdata)])
      { s with turn := .calling dir a p.slot.toNat tn } := by
  have hrev : revents s.pollfds p.slot.toNat ≠ 0 := by
    intro hrev
    rw [hrev, calls_zero] at hcall
    cases hcall
  have hvisit := step_next tn h hxs hp ha
  rw [if_neg hrev] at hvisit
  cases dir with
  | read =>
    rw [hcall] at hvisit
    exact ⟨[], Run.one walkOk_next hvisit⟩
  | write =>
    have hwrite := step_between p.slot.toNat tn hp
    rw [hcall] at hwrite
    cases hread : p.calls (revents s.pollfds p.slot.toNat) .read with
    | none =>
      rw [hread] at hvisit
      exact ⟨_, (Run.one walkOk_next hvisit).snoc walkOk_between hwrite⟩
    | some r =>
      rw [hread] at hvisit
      exact ⟨_, ((Run.one walkOk_next hvisit).snoc walkOk_calling (step_ret_read ..)).snoc walkOk_between hwrite⟩
  | error => exact absurd rfl (dir_of_calls hcall)

/-! ## Up to the walk -/

/-- What is in `revents` when `poll` has returned. -/
def polled (result : Option (ℕ → BitVec 16)) (nfds i : ℕ) : BitVec 16 :=
  match result with
  | none => 0
  | some r => if i < nfds then r i else 0

/-- What the round comes to before its walk, if the list has the cells `xs`. -/
structure Selected (s s' : Dispatch) (xs : List Addr) (result : Option (ℕ → BitVec 16)) : Prop where
  sound : s'.Sound
  ordered : s'.el.Ordered xs
  life : SameLife s.el s'.el
  same : Store.Same unslotted s.el.pollables s'.el.pollables
  others : ∀ b ∉ xs, s'.el.pollables.get b = s.el.pollables.get b
  /-- Each pollable has the slot of its own entry. -/
  slot : ∀ i b, xs[i]? = some b → ∃ p e, s'.el.pollables.get b = some p ∧ p.slot.toNat = i ∧
    s'.pollfds[i]? = some e ∧ e.fd = p.fd
  entries : ∀ i, revents s'.pollfds i = polled result xs.length i
  turn : s'.turn = if result.isSome then turnAt xs else .idle

/-- What `poll` fills in. -/
theorem revents_polled {pollfds : List Pollfd} (h : ∀ e ∈ pollfds, e.revents = 0)
    (result : Option (ℕ → BitVec 16)) (i : ℕ) :
    PollLoop.revents (match result with
      | none => pollfds
      | some r => pollfds.mapIdx fun i e => { e with revents := r i }) i = polled result pollfds.length i := by
  cases result with
  | none =>
    rw [PollLoop.revents]
    cases hi : pollfds[i]? with
    | none => rfl
    | some e => exact h e (List.mem_of_getElem? hi)
  | some r =>
    rw [PollLoop.revents, polled, List.getElem?_mapIdx]
    split_ifs with hi
    · rw [List.getElem?_eq_getElem hi]
      rfl
    · rw [List.getElem?_eq_none (Nat.not_lt.1 hi)]
      rfl

/-- **The round up to its walk.** -/
theorem select_spec (h : s.Sound) (hxs : s.el.Ordered xs) (hturn : s.turn = .idle)
    (result : Option (ℕ → BitVec 16)) :
    (xs.length ≤ FD_SETSIZE → ∃ s', step s (.select result) = some (.returned none, s') ∧ Selected s s' xs result) ∧
      (FD_SETSIZE < xs.length → step s (.select result) = none) := by
  obtain ⟨hfits, hlong⟩ := updatePollFds_spec hxs h.kept
  have hstep : step s (.select result) = s.select result := by
    rw [step, hturn]
  rw [hstep, select]
  constructor
  · intro hle
    obtain ⟨m, pollfds, hrun, hlen, hout, hin⟩ := hfits hle
    have hcell : ∀ i b, xs[i]? = some b → ∃ p, s.el.pollables.get b = some p ∧ pollfds[i]? = some p.pollfd ∧
        m.get b = some { p with slot := BitVec.ofNat 32 i } := by
      intro i b hb
      obtain ⟨p, hp, -⟩ := hxs.cell (List.mem_of_getElem? hb)
      obtain ⟨hentry, hslot⟩ := hin i b hb
      rw [hp] at hentry hslot
      exact ⟨p, hp, hentry, hslot⟩
    have hsame : Store.Same unslotted s.el.pollables m := by
      intro b
      by_cases hb : b ∈ xs
      · obtain ⟨i, hi⟩ := List.getElem?_of_mem hb
        obtain ⟨p, hp, -, hm⟩ := hcell i b hi
        rw [hp, hm]
        rfl
      · rw [hout b hb]
    have hlife : SameLife s.el { s.el with pollables := m } :=
      ⟨hsame.comp Pollable.removed, rfl, rfl, rfl, rfl⟩
    have hord := hxs.reslot hsame
    have hsmall : ∀ i b, xs[i]? = some b → (BitVec.ofNat 32 i).toNat = i ∧ i < FD_SETSIZE := by
      intro i b hb
      have hi := (List.getElem?_eq_some_iff.1 hb).1
      have hlt : i < 2 ^ 32 := lt_of_lt_of_le hi (hle.trans (by decide))
      exact ⟨by rw [BitVec.toNat_ofNat, Nat.mod_eq_of_lt hlt], lt_of_lt_of_le hi hle⟩
    have hslots : ∀ b p, m.get b = some p → p.slot = -1 ∨ p.slot.toNat < FD_SETSIZE := by
      intro b p hp
      by_cases hb : b ∈ xs
      · obtain ⟨i, hi⟩ := List.getElem?_of_mem hb
        obtain ⟨q, -, -, hm⟩ := hcell i b hi
        obtain rfl := Option.some.inj (hp.symm.trans hm)
        rw [(hsmall i b hi).1]
        exact Or.inr (hsmall i b hi).2
      · exact h.slots b p ((hout b hb).symm.trans hp)
    have hzero : ∀ e ∈ pollfds, e.revents = 0 := by
      intro e he
      obtain ⟨i, hi⟩ := List.getElem?_of_mem he
      have hlt := (List.getElem?_eq_some_iff.1 hi).1
      rw [hlen] at hlt
      obtain ⟨p, -, hentry, -⟩ := hcell i _ (List.getElem?_eq_getElem hlt)
      rw [Option.some.inj (hi.symm.trans hentry)]
      rfl
    have hrev := revents_polled hzero result
    rw [hlen] at hrev
    simp only [hrun, Option.bind_eq_bind, Option.bind_some]
    cases result with
    | none =>
      refine ⟨_, rfl, ⟨listed_iff.2 ⟨xs, hord⟩, h.kept.congr hlife, hslots, hlen ▸ hle⟩, hord, hlife, hsame, hout,
        fun i b hb => ?_, hrev, rfl⟩
      obtain ⟨p, hp, hentry, hm⟩ := hcell i b hb
      exact ⟨_, _, hm, (hsmall i b hb).1, hentry, rfl⟩
    | some r =>
      have hadv := advance_eq (s := ⟨{ s.el with pollables := m },
        pollfds.mapIdx fun i e => { e with revents := r i }, .idle⟩) [] xs hord.holds
      rw [← hxs.holds.head_eq] at hadv
      refine ⟨_, hadv, ⟨listed_iff.2 ⟨xs, hord⟩, h.kept.congr hlife, hslots, ?_⟩, hord, hlife, hsame, hout,
        fun i b hb => ?_, hrev, rfl⟩
      · rw [List.length_mapIdx, hlen]
        exact hle
      · obtain ⟨p, hp, hentry, hm⟩ := hcell i b hb
        refine ⟨_, { p.pollfd with revents := r i }, hm, (hsmall i b hb).1, ?_, rfl⟩
        rw [List.getElem?_mapIdx, hentry]
        rfl
  · intro hlt
    rw [hlong hlt]
    rfl

/-! ## Pollables before the last -/

variable {s₁ : Dispatch} {q : Pollable} {result : Option (ℕ → BitVec 16)}

/-- No pollable before the last of the list has a function for what is in its entry. -/
def QuietBeforeLast (s : Dispatch) (xs : List Addr) (result : Option (ℕ → BitVec 16)) : Prop :=
  ∀ ys a b zs p dir, xs = ys ++ a :: b :: zs → s.el.pollables.get a = some p →
    polled result xs.length ys.length &&& dir.pollMask ≠ 0 → p.function dir = none

/-- No pollable before the last is called. -/
def OnlyLast (s₁ : Dispatch) (xs : List Addr) : Prop :=
  ∀ ys a b zs p dir, xs = ys ++ a :: b :: zs → s₁.el.pollables.get a = some p →
    p.calls (revents s₁.pollfds p.slot.toNat) dir = none

/-- What is called after `poll` is told by the functions before it. -/
theorem Selected.calls_iff (h : Selected s s₁ xs result) (hxs : xs = ys ++ a :: zs)
    (hp : s.el.pollables.get a = some p) (hq : s₁.el.pollables.get a = some q) (dir : IoDir) :
    q.calls (revents s₁.pollfds q.slot.toNat) dir = none ↔
      (polled result xs.length ys.length &&& dir.pollMask ≠ 0 → p.removed = false → p.function dir = none) := by
  obtain ⟨q', e, hq', hslot, -⟩ := h.slot ys.length a (by rw [hxs, List.getElem?_append_right le_rfl]; simp)
  obtain rfl := Option.some.inj (hq.symm.trans hq')
  have hsame := h.same a
  rw [hp, hq, Option.map_some, Option.map_some, Option.some_inj] at hsame
  have hfun : q.function dir = p.function dir := by
    have := congrArg (fun p => Pollable.function p dir) hsame
    cases dir <;> exact this
  have hrem : q.removed = p.removed := by
    have hr := congrArg Pollable.removed hsame
    exact hr
  rw [h.entries, hslot, Pollable.calls, hfun, hrem]
  split_ifs with hc
  · rw [Option.map_eq_none_iff]
    exact ⟨fun hn _ _ => hn, fun hn => hn hc.1 hc.2⟩
  · exact iff_of_true rfl fun hrev hr => absurd ⟨hrev, hr⟩ hc

theorem Selected.onlyLast_iff (h : Selected s s₁ xs result) (hxs : s.el.Ordered xs) :
    OnlyLast s₁ xs ↔ QuietBeforeLast s xs result := by
  have hmem : ∀ {ys a b zs}, xs = ys ++ a :: b :: zs → a ∈ xs := by
    rintro ys a b zs rfl
    exact List.mem_append_right _ List.mem_cons_self
  constructor
  · intro hlast ys a b zs p dir hcells hp hrev
    obtain ⟨q, hq, -⟩ := h.ordered.cell (hmem hcells)
    exact (h.calls_iff hcells hp hq dir).1 (hlast ys a b zs q dir hcells hq) hrev
      ((polled_iff hp).1 ((hxs.polled a).1 (hmem hcells))).1
  · intro hquiet ys a b zs q dir hcells hq
    obtain ⟨p, hp, -⟩ := hxs.cell (hmem hcells)
    exact (h.calls_iff hcells hp hq dir).2 fun hrev _ => hquiet ys a b zs p dir hcells hp hrev

/-- The round calls something only if `poll` returned something. -/
theorem Selected.turn_of_calls (h : Selected s s₁ xs result) {r : Addr × Option Addr}
    (hcall : q.calls (revents s₁.pollfds q.slot.toNat) dir = some r) : s₁.turn = turnAt xs := by
  cases result with
  | none =>
    rw [h.entries, polled, calls_zero] at hcall
    cases hcall
  | some r => exact h.turn

theorem setFunction_hasFunction (hdir : dir ≠ .error) :
    (p.setFunction dir (some f)).hasFunction = true := by
  cases dir with
  | read => rfl
  | write => exact Bool.or_true _
  | error => exact absurd rfl hdir

/-! ## Runs -/

/-- What a call leaves alone of the others, it leaves alone of their slots. -/
theorem slot_of_core {el el' : PollLoop MowgliList} {q : Pollable}
    (h : (el'.pollables.get b).map core = (el.pollables.get b).map core) (hq : el'.pollables.get b = some q) :
    ∃ p, el.pollables.get b = some p ∧ p.slot = q.slot ∧ p.removed = q.removed := by
  rw [hq, Option.map_some, eq_comm, Option.map_eq_some_iff] at h
  obtain ⟨p, hp, hpq⟩ := h
  have hslot := congrArg Pollable.slot hpq
  have hremoved := congrArg Pollable.removed hpq
  exact ⟨p, hp, hslot, hremoved⟩

/-- Outside the rounds no slot changes, nothing comes back to life, and a new pollable has
slot 0. -/
theorem slot_step {el el' : PollLoop MowgliList} {c : PollStep} {r : Option Addr} {q : Pollable} (h : el.Listed)
    (hk : el.Kept) (hok : ListedOk el c) (hrun : pollStep el c = some (r, el')) (hq : el'.pollables.get b = some q) :
    b = el.allocated ∧ q.slot = 0 ∨
      ∃ p, el.pollables.get b = some p ∧ p.slot = q.slot ∧ (q.removed = false → p.removed = false) := by
  match c, hok with
  | .call (.create fd userdata), _ =>
    obtain ⟨-, rfl⟩ := Prod.mk.inj (Option.some.inj hrun)
    dsimp only at hq
    rw [Store.get_set] at hq
    split_ifs at hq with hb
    · rw [← Option.some.inj hq]
      exact Or.inl ⟨hb, rfl⟩
    · exact Or.inr ⟨q, hq, rfl, id⟩
  | .call (.setselect a dir f), hok =>
    obtain ⟨p, hp, hr⟩ := hok
    obtain ⟨xs, hxs⟩ := listed_iff.1 h
    obtain ⟨el₁, n, hset, -, hrel, hp₁⟩ := hxs.setselect hp hr dir f
    obtain ⟨el₂, hset', heq⟩ := Option.map_eq_some_iff.1 hrun
    obtain rfl := Option.some.inj (hset.symm.trans hset')
    obtain ⟨-, rfl⟩ := Prod.mk.inj heq
    refine Or.inr ?_
    by_cases hb : b = a
    · subst hb
      refine ⟨p, hp, ?_, fun _ => hr⟩
      rw [Option.some.inj (hq.symm.trans hp₁)]
      cases dir <;> rfl
    · obtain ⟨p', hp', hslot, hremoved⟩ := slot_of_core (hrel.others b hb) hq
      exact ⟨p', hp', hslot, fun hqr => hremoved.trans hqr⟩
  | .call (.destroy a), hok =>
    obtain ⟨p, hp, hr, hf⟩ := hok
    obtain ⟨el₁, hdel, -, hkeep, -⟩ := h.destroy hp hr hf
    obtain ⟨n, hp₁⟩ := get_of_keeps hkeep hp
    obtain ⟨el₂, hdestroy, heq⟩ := Option.map_eq_some_iff.1 hrun
    obtain ⟨-, rfl⟩ := Prod.mk.inj heq
    have hkept : ∀ q, el₁.pollables.get b = some q →
        ∃ p, el.pollables.get b = some p ∧ p.slot = q.slot ∧ (q.removed = false → p.removed = false) := by
      intro q hq
      obtain ⟨p', hp', hslot, hremoved⟩ := slot_of_core (hkeep core (fun _ _ => rfl) b) hq
      exact ⟨p', hp', hslot, fun hqr => hremoved.trans hqr⟩
    refine Or.inr ?_
    cases he : el₁.processingEvents with
    | true =>
      have hdestroy' := pollableDestroy_processing pollPollops hp hr hdel hp₁ he
      obtain rfl := Option.some.inj (hdestroy.symm.trans hdestroy')
      dsimp only at hq
      rw [Store.get_set] at hq
      split_ifs at hq with hb
      · rw [← Option.some.inj hq]
        exact ⟨p, hb ▸ hp, rfl, fun _ => hr⟩
      · exact hkept q hq
    | false =>
      have hdestroy' := pollableDestroy_idle pollPollops hp hr hdel hp₁ he
      obtain rfl := Option.some.inj (hdestroy.symm.trans hdestroy')
      dsimp only at hq
      rw [Store.get_free] at hq
      split_ifs at hq with hb
      exact hkept q hq
  | .processing events, _ =>
    obtain ⟨-, rfl⟩ := Prod.mk.inj (Option.some.inj hrun)
    exact Or.inr ⟨q, hq, rfl, id⟩
  | .reap, _ =>
    obtain ⟨m, hreap, hget, -⟩ := hk.reap
    obtain ⟨el₂, hreap', heq⟩ := Option.map_eq_some_iff.1 hrun
    obtain rfl := Option.some.inj (hreap.symm.trans hreap')
    obtain ⟨-, rfl⟩ := Prod.mk.inj heq
    dsimp only at hq
    rw [hget] at hq
    split_ifs at hq with hb
    exact Or.inr ⟨q, hq, rfl, id⟩

theorem Sound.at (h : s.Sound) (t : PollTurn) : Sound { s with turn := t } := ⟨h.listed, h.kept, h.slots, h.fits⟩

/-- What the program does between the rounds and in callbacks. -/
theorem Sound.other {c : PollStep} (h : s.Sound) (hok : ListedOk s.el c) :
    ∃ r el', pollStep s.el c = some (r, el') ∧ Sound { s with el := el' } := by
  obtain ⟨r, el', hrun, hl, hk⟩ := h.listed.step h.kept hok
  refine ⟨r, el', hrun, hl, hk, fun b q hq => ?_, h.fits⟩
  rcases slot_step h.listed h.kept hok hrun hq with ⟨-, hzero⟩ | ⟨p, hp, hpq, -⟩
  · rw [hzero]
    exact Or.inr (by decide)
  · rw [← hpq]
    exact h.slots b p hp

/-- A pollable is set in a callback, or between the rounds. -/
theorem step_setselect {c : Addr} {f : Option Addr} {el' : PollLoop MowgliList} (hs : s.Sound) (hl : s.el.Live c)
    (hturn : s.turn.callable = true) (hset : listSetselect s.el c dir f = some el') :
    step s (.other (.call (.setselect c dir f))) = some (.returned none, { s with el := el' }) ∧
      Sound { s with el := el' } ∧ el'.Live c := by
  have hrun : pollStep s.el (.call (.setselect c dir f)) = some (none, el') := congrArg (Option.map _) hset
  obtain ⟨r, el'', hrun', hs'⟩ := hs.other (c := .call (.setselect c dir f)) hl
  rw [hrun, Option.some_inj, Prod.mk.injEq] at hrun'
  obtain ⟨el₂, hset', -, hlife⟩ := hs.listed.setselect hl dir f
  obtain rfl := Option.some.inj (hset.symm.trans hset')
  refine ⟨?_, hrun'.2 ▸ hs', hlife.live_iff.2 hl⟩
  rw [step, if_pos hturn, hrun]
  rfl

theorem advance_frame {b : DispatchAnswer} (h : s.advance tn = some (b, s')) : ∃ t, s' = { s with turn := t } := by
  cases tn with
  | none => exact ⟨_, (Prod.mk.inj (Option.some.inj h)).2.symm⟩
  | some n =>
    obtain ⟨x, -, heq⟩ := Option.map_eq_some_iff.1 h
    exact ⟨_, (Prod.mk.inj heq).2.symm⟩

theorem callOr_frame {b : DispatchAnswer} {otherwise : Option (DispatchAnswer × Dispatch)}
    {r : Option (Addr × Option Addr)} (h : s.callOr dir a slot tn otherwise r = some (b, s'))
    (hother : ∀ b s', otherwise = some (b, s') → ∃ t, s' = { s with turn := t }) : ∃ t, s' = { s with turn := t } := by
  cases r with
  | none => exact hother b s' h
  | some r => exact ⟨_, (Prod.mk.inj (Option.some.inj h)).2.symm⟩

/-- The walk itself changes nothing. -/
theorem walk_frame {c : DispatchStep} {b : DispatchAnswer} (hok : WalkOk s c) (h : step s c = some (b, s')) :
    ∃ t, s' = { s with turn := t } := by
  match c, hok with
  | .visit, .inl ⟨n, tn, hturn⟩ =>
    rw [step, hturn] at h
    obtain ⟨x, -, h⟩ := Option.bind_eq_some_iff.1 h
    obtain ⟨a, -, h⟩ := Option.bind_eq_some_iff.1 h
    obtain ⟨p, -, h⟩ := Option.bind_eq_some_iff.1 h
    dsimp only at h
    split_ifs at h with h₁ h₂ h₃
    · exact advance_frame h
    · exact advance_frame h
    · obtain ⟨r, -, h⟩ := Option.bind_eq_some_iff.1 h
      exact callOr_frame h fun b s' h => ⟨_, (Prod.mk.inj (Option.some.inj h)).2.symm⟩
  | .visit, .inr ⟨a, slot, tn, hturn⟩ =>
    rw [step, hturn] at h
    obtain ⟨r, -, h⟩ := Option.bind_eq_some_iff.1 h
    exact callOr_frame h fun b s' h => advance_frame h
  | .ret, ⟨dir, a, slot, tn, hturn⟩ =>
    rw [step, hturn] at h
    cases dir with
    | read => exact ⟨_, (Prod.mk.inj (Option.some.inj h)).2.symm⟩
    | write => exact advance_frame h
    | error => cases h

/-- What is asked of a step: no pollable is destroyed that has neither function, and
rounds are not nested. -/
def DispatchOk (s : Dispatch) : DispatchStep → Prop
  | .other (.call c) => s.turn.callable ∧ ListedOk s.el (.call c)
  | .other _ => s.turn = .idle
  | .select _ => s.turn = .idle
  | c => WalkOk s c

theorem DispatchOk.listedOk {c : PollStep} (h : DispatchOk s (.other c)) : ListedOk s.el c := by
  match c, h with
  | .call _, h => exact h.2
  | .processing _, _ => trivial
  | .reap, _ => trivial

theorem Sound.step {c : DispatchStep} {b : DispatchAnswer} (h : s.Sound) (hok : DispatchOk s c)
    (hrun : s.step c = some (b, s')) : s'.Sound := by
  have hwalk : WalkOk s c → s'.Sound := by
    intro hw
    obtain ⟨t, rfl⟩ := walk_frame hw hrun
    exact h.at t
  match c, hok with
  | .other c, hok =>
    rw [Dispatch.step] at hrun
    split_ifs at hrun with hc
    obtain ⟨⟨r, el'⟩, hrun, heq⟩ := Option.map_eq_some_iff.1 hrun
    obtain ⟨r', el'', hrun', hs⟩ := h.other hok.listedOk
    rw [hrun, Option.some_inj, Prod.mk.injEq] at hrun'
    rw [← (Prod.mk.inj heq).2, hrun'.2]
    exact hs
  | .select result, hok =>
    obtain ⟨xs, hxs⟩ := listed_iff.1 h.listed
    obtain ⟨hfits, hlong⟩ := select_spec h hxs hok result
    rcases Nat.lt_or_ge FD_SETSIZE xs.length with hlt | hle
    · exact absurd (hrun.symm.trans (hlong hlt)) (Option.some_ne_none _)
    · obtain ⟨s₁, hrun', hsel⟩ := hfits hle
      rw [hrun, Option.some_inj, Prod.mk.injEq] at hrun'
      exact hrun'.2 ▸ hsel.sound
  | .visit, hok => exact hwalk hok
  | .ret, hok => exact hwalk hok

/-- An event loop without pollables. -/
def start : Dispatch := ⟨PollLoop.create .zero, [], .idle⟩

/-- **The event loop on poll, over whole runs.** The list is what it should be, and no
slot is past the end of the array. -/
theorem runs_sound {tr : List (DispatchStep × DispatchAnswer)} (h : Run step DispatchOk start tr s) : s.Sound := by
  refine h.invariant (I := Sound) ⟨listed_create, kept_create _, fun a p hp => ?_, Nat.zero_le _⟩ fun hs hok hrun =>
    hs.step hok hrun
  exact absurd (hp.symm.trans (Store.get_empty a)) (by simp)

/-- A run that comes to two pollables that are polled, while events are processed. -/
theorem exists_runs_two : ∃ tr s, Run step DispatchOk start tr s ∧ s.turn = .idle ∧ s.el.processingEvents = true ∧
    s.el.allocated = 2 ∧ s.el.Ordered [0, 1] := by
  have h₁ : Run step DispatchOk start ([] ++ [(.other (.call (.create 5 none)), .returned (some 0))]) _ :=
    Run.nil.snoc ⟨rfl, trivial⟩ rfl
  have h₂ := h₁.snoc (a := .other (.call (.create 6 none))) (b := .returned (some 1)) (by exact ⟨rfl, trivial⟩) rfl
  have h₃ := h₂.snoc (a := .other (.call (.setselect 0 .read (some 7)))) (b := .returned none)
    (by exact ⟨rfl, _, rfl, rfl⟩) rfl
  have h₄ := h₃.snoc (a := .other (.call (.setselect 1 .read (some 8)))) (b := .returned none)
    (by exact ⟨rfl, _, rfl, rfl⟩) rfl
  have h₅ := h₄.snoc (a := .other (.processing true)) (b := .returned none) (by exact rfl) rfl
  have hsound := runs_sound h₅
  obtain ⟨xs, hxs⟩ := listed_iff.1 hsound.listed
  have hlen : xs.length ≤ 2 := hxs.length_le hsound.kept
  obtain ⟨ys, rfl⟩ : ∃ ys, xs = 0 :: ys := List.head?_eq_some_iff.1 hxs.holds.head_eq.symm
  have hmem : 1 ∈ 0 :: ys := (hxs.polled 1).2 ⟨_, rfl, rfl, rfl⟩
  obtain ⟨y, rfl⟩ : ∃ y, ys = [y] := by
    refine List.length_eq_one_iff.1 (le_antisymm (Nat.le_of_succ_le_succ hlen) (List.length_pos_of_mem (a := 1) ?_))
    exact (List.mem_cons.1 hmem).resolve_left (by decide)
  obtain rfl : 1 = y := by simpa using hmem
  exact ⟨_, _, h₅, rfl, rfl, rfl, hxs⟩

end Dispatch

end Mowgli
