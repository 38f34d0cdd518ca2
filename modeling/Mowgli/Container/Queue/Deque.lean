import Mowgli.Container.Queue
/-!
# Queues and deques

A program threads a handle through the calls: it pushes and pops at the
tail of the handle, and shifts and pops at its head. On a queue that has a
cell that makes a deque. On one that has none `mowgli_queue_push` and
`mowgli_queue_shift` return null, so from nothing no queue ever comes to
be.
-/

namespace Mowgli

namespace Queue

/-- A handle, and the cells in use. -/
structure Client where
  handle : Option Addr
  heap : QueueHeap

/-- A call of the program. -/
inductive Op
  | push (data : Option Addr)
  | shift (data : Option Addr)
  | popHead
  | popTail
  deriving DecidableEq

namespace Op

/-- A call that gives the queue an element. -/
def Adds : Op → Prop
  | push _ => True
  | shift _ => True
  | popHead => False
  | popTail => False

/-- What a call does; it answers with what a pop returns. -/
def run (A : Allocator MowgliIterator) (c : Client) : Op → Option (Option (Option Addr) × Client)
  | push data => do
    let (t, s) ← tail c.heap c.handle
    let (n, s) ← Queue.push A s t data
    some (none, ⟨n, s⟩)
  | shift data => do
    let (h, s) ← head c.heap c.handle
    let (n, s) ← Queue.shift A s h data
    some (none, ⟨n, s⟩)
  | popHead => do
    let (h, s) ← head c.heap c.handle
    let (out, n, s) ← Queue.popHead s h
    some (some out, ⟨n, s⟩)
  | popTail => do
    let (t, s) ← tail c.heap c.handle
    let (out, n, s) ← Queue.popTail s t
    some (some out, ⟨n, s⟩)

/-- What it does to a deque. A pop of an empty one is answered with null. -/
def deque (ds : List (Option Addr)) : Op → Option (Option Addr) × List (Option Addr)
  | push data => (none, ds ++ [data])
  | shift data => (none, data :: ds)
  | popHead => (some ds.head?.join, ds.tail)
  | popTail => (some ds.getLast?.join, ds.dropLast)

end Op

/-- The queue has the elements `ds`, in that order. -/
def Represents (c : Client) (ds : List (Option Addr)) : Prop :=
  ∃ xs, Chain c.heap.mem xs ds ∧ c.handle.elim (xs = []) fun a => a ∈ xs

/-- In every state of the run the queue has the elements of the deque, and
each call is answered as the deque answers it. -/
def Correct (A : Allocator MowgliIterator) : List Op → Client → List (Option Addr) → Prop
  | [], c, ds => Represents c ds
  | op :: ops, c, ds => Represents c ds ∧
    ∃ c', op.run A c = some ((op.deque ds).1, c') ∧ Correct A ops c' (op.deque ds).2

/-- The calls that give an element give it to a deque that has one. -/
def Guarded : List Op → List (Option Addr) → Prop
  | [], _ => True
  | op :: ops, ds => (op.Adds → ds ≠ []) ∧ Guarded ops (op.deque ds).2

variable {A : Allocator MowgliIterator} {c c' : Client} {ds : List (Option Addr)} {op : Op} {ops : List Op}

/-- A program that has no queue yet. -/
def nothing : Client := ⟨none, ⟨Store.empty, []⟩⟩

theorem represents_nothing : Represents nothing [] := ⟨[], chain_nil _, rfl⟩

/-- The handle is null exactly where there is no element. -/
theorem Represents.handle_eq_none (h : Represents c ds) : c.handle = none ↔ ds = [] := by
  obtain ⟨xs, hxs, hc⟩ := h
  have hlen := hxs.length
  cases hh : c.handle with
  | none =>
    rw [hh] at hc
    obtain rfl : xs = [] := hc
    simp only [List.length_nil] at hlen
    simp [List.length_eq_zero_iff.1 hlen.symm]
  | some a =>
    rw [hh] at hc
    have hpos := List.length_pos_of_mem (show a ∈ xs from hc)
    refine iff_of_false (by simp) fun hds => ?_
    rw [hds, List.length_nil] at hlen
    omega

/-- A call on a queue that has a cell. -/
theorem Represents.step_some (h : Represents c ds) (hds : ds ≠ []) (hA : A.NeverFails) (op : Op) :
    ∃ c', op.run A c = some ((op.deque ds).1, c') ∧ Represents c' (op.deque ds).2 := by
  obtain ⟨a, ha⟩ := Option.ne_none_iff_exists'.1 fun hn => hds (h.handle_eq_none.1 hn)
  obtain ⟨xs, hxs, hc⟩ := h
  obtain ⟨handle, heap⟩ := c
  obtain rfl : handle = some a := ha
  replace hxs : Chain heap.mem xs ds := hxs
  have hmem : a ∈ xs := hc
  obtain ⟨hhead, htail⟩ := hxs.ends (s := heap) hmem
  have hne : xs ≠ [] := List.ne_nil_of_mem hmem
  have hlen := hxs.length
  obtain ⟨out, hpick⟩ := Option.isSome_iff_exists.1 (hA heap.mem)
  cases op with
  | push d =>
    obtain ⟨ys, t, rfl⟩ := (List.eq_nil_or_concat' xs).resolve_left hne
    obtain ⟨m', hrun, hm'⟩ := hxs.push hpick d
    rw [List.getLast?_append, List.getLast?_singleton, Option.some_or] at htail
    refine ⟨⟨some out, { heap with mem := m' }⟩, ?_, _, hm', by simp⟩
    simp only [Op.run, htail, hrun, Option.bind_eq_bind, Option.bind_some, Op.deque]
  | shift d =>
    obtain ⟨h₀, zs, rfl⟩ := List.exists_cons_of_ne_nil hne
    have hxs' : Chain heap.mem ([] ++ h₀ :: zs) ds := hxs
    obtain ⟨m', hrun, hm'⟩ := hxs'.shift hpick d
    rw [List.head?_cons] at hhead
    refine ⟨⟨some out, { heap with mem := m' }⟩, ?_, _, hm', by simp⟩
    simp only [Op.run, hhead, hrun, Option.bind_eq_bind, Option.bind_some, Op.deque]
  | popHead =>
    obtain ⟨h₀, zs, rfl⟩ := List.exists_cons_of_ne_nil hne
    obtain ⟨d, ds, rfl⟩ := List.exists_cons_of_ne_nil hds
    rw [List.head?_cons] at hhead
    have hxs' : Chain heap.mem ([] ++ h₀ :: zs) (d :: ds) := hxs
    obtain ⟨x, hx, -, hnext⟩ := hxs'.get
    obtain ⟨m', n, hrun, hm'⟩ := hxs'.remove
    have hd : x.data = d := by
      have hdata := hxs.data
      rw [List.map_cons, List.map_cons, NodeField.data, hx] at hdata
      exact Option.some.inj (List.cons.inj hdata).1
    refine ⟨⟨zs.head?, { heap with mem := m' }⟩, ?_, zs, by simpa [Op.deque] using hm', ?_⟩
    · simp only [Op.run, hhead, Queue.popHead, hx, hrun, hnext, hd, Option.bind_eq_bind, Option.bind_some,
        Op.deque, List.head?_cons, Option.join_some]
    · cases zs with
      | nil => rfl
      | cons b zs => exact List.mem_cons_self ..
  | popTail =>
    obtain ⟨ys, t, rfl⟩ := (List.eq_nil_or_concat' xs).resolve_left hne
    obtain ⟨es, d, rfl⟩ := (List.eq_nil_or_concat' ds).resolve_left hds
    rw [List.getLast?_append, List.getLast?_singleton, Option.some_or] at htail
    have hxs' : Chain heap.mem (ys ++ t :: []) (es ++ [d]) := hxs
    obtain ⟨x, hx, hprev, -⟩ := hxs'.get
    obtain ⟨m', n, hrun, hm'⟩ := hxs'.remove
    have hes : ys.length = es.length := by simpa using hlen
    have hd : x.data = d := by
      have hdata := hxs.data
      rw [List.map_append, List.map_append] at hdata
      have hlast := (List.append_inj hdata (by simpa using hes)).2
      rw [List.map_singleton, NodeField.data, hx] at hlast
      exact Option.some.inj (List.cons.inj hlast).1
    refine ⟨⟨ys.getLast?, { heap with mem := m' }⟩, ?_, ys, ?_, ?_⟩
    · simp only [Op.run, htail, Queue.popTail, hx, hrun, hprev, hd, Option.bind_eq_bind, Option.bind_some,
        Op.deque, List.getLast?_append, List.getLast?_singleton, Option.some_or, Option.join_some]
    · simpa [hes, Op.deque] using hm'
    · cases hlast : ys.getLast? with
      | none => exact List.getLast?_eq_none_iff.1 hlast
      | some b => exact List.mem_of_getLast? hlast

/-- A pop where there is nothing. -/
theorem Represents.pop_nothing (h : Represents c []) (hop : ¬op.Adds) :
    ∃ c', op.run A c = some ((op.deque []).1, c') ∧ Represents c' (op.deque []).2 := by
  obtain ⟨handle, heap⟩ := c
  obtain rfl : handle = none := h.handle_eq_none.2 rfl
  cases op with
  | push d => exact absurd trivial hop
  | shift d => exact absurd trivial hop
  | popHead => exact ⟨_, rfl, [], chain_nil _, rfl⟩
  | popTail => exact ⟨_, rfl, [], chain_nil _, rfl⟩

/-- What is given to a queue that has no cell is lost. -/
theorem Represents.add_nothing (h : Represents c []) (hop : op.Adds) {out : Option (Option Addr)}
    (hrun : op.run A c = some (out, c')) : ¬Represents c' (op.deque []).2 := by
  obtain ⟨handle, heap⟩ := c
  obtain rfl : handle = none := h.handle_eq_none.2 rfl
  have hnone : c'.handle = none := by
    cases op with
    | push d =>
      cases hpick : A.pick heap.mem with
      | none => simp [Op.run, tail, Queue.push, create, hpick] at hrun
      | some a =>
        simp only [Op.run, tail, Queue.push, create, hpick, Option.bind_eq_bind, Option.bind_some,
          Option.some_inj, Prod.mk.injEq] at hrun
        rw [← hrun.2]
    | shift d =>
      cases hpick : A.pick heap.mem with
      | none => simp [Op.run, head, Queue.shift, create, hpick] at hrun
      | some a =>
        simp only [Op.run, head, Queue.shift, create, hpick, Option.bind_eq_bind, Option.bind_some,
          Option.some_inj, Prod.mk.injEq] at hrun
        rw [← hrun.2]
    | popHead => exact hop.elim
    | popTail => exact hop.elim
  intro h'
  have hds := h'.handle_eq_none.1 hnone
  cases op with
  | push d => simp [Op.deque] at hds
  | shift d => simp [Op.deque] at hds
  | popHead => exact hop.elim
  | popTail => exact hop.elim

theorem Correct.represents (h : Correct A ops c ds) : Represents c ds := by
  cases ops with
  | nil => exact h
  | cons op ops => exact h.1

/-- **A queue is a deque** exactly as long as it is not added to while it has
no element. -/
theorem correct_iff_guarded (hA : A.NeverFails) (h : Represents c ds) (ops : List Op) :
    Correct A ops c ds ↔ Guarded ops ds := by
  induction ops generalizing c ds with
  | nil => exact iff_of_true h trivial
  | cons op ops ih =>
    constructor
    · rintro ⟨-, c', hrun, hc'⟩
      refine ⟨fun hop hds => ?_, (ih hc'.represents).1 hc'⟩
      subst hds
      exact h.add_nothing hop hrun hc'.represents
    · rintro ⟨hop, hops⟩
      have hstep : ∃ c', op.run A c = some ((op.deque ds).1, c') ∧ Represents c' (op.deque ds).2 := by
        by_cases hds : ds = []
        · subst hds
          exact h.pop_nothing fun hadd => hop hadd rfl
        · exact h.step_some hds hA op
      obtain ⟨c', hrun, hc'⟩ := hstep
      exact ⟨h, c', hrun, (ih hc').2 hops⟩

/-- **From nothing no queue comes to be**: calls that start with the null
handle make a deque exactly if none of them gives it an element. -/
theorem correct_from_nothing_iff (A : Allocator MowgliIterator) (ops : List Op) :
    Correct A ops nothing [] ↔ ∀ op ∈ ops, ¬op.Adds := by
  have key : ∀ c, Represents c [] → (Correct A ops c [] ↔ ∀ op ∈ ops, ¬op.Adds) := by
    induction ops with
    | nil => exact fun c h => iff_of_true h (by simp)
    | cons op ops ih =>
      intro c h
      rw [List.forall_mem_cons]
      by_cases hop : op.Adds
      · refine iff_of_false ?_ fun hno => hno.1 hop
        rintro ⟨-, c', hrun, hc'⟩
        exact h.add_nothing hop hrun hc'.represents
      · obtain ⟨c', hrun, hc'⟩ := h.pop_nothing (A := A) hop
        have hnil : (op.deque []).2 = [] := by
          cases op with
          | push d => exact absurd trivial hop
          | shift d => exact absurd trivial hop
          | popHead => rfl
          | popTail => rfl
        rw [hnil] at hc'
        constructor
        · rintro ⟨-, c'', hrun', hc''⟩
          obtain ⟨-, rfl⟩ := Prod.mk.inj (Option.some.inj (hrun.symm.trans hrun'))
          rw [hnil] at hc''
          exact ⟨hop, (ih c' hc').1 hc''⟩
        · rintro ⟨-, hno⟩
          exact ⟨h, c', hrun, by rw [hnil]; exact (ih c' hc').2 hno⟩
  exact key nothing represents_nothing

/-- An element is pushed, and the pop after that is answered with null. -/
theorem push_from_nothing : ∃ c c' : Client,
    (Op.push (some 5)).run Allocator.bump nothing = some (none, c) ∧
      Op.popHead.run Allocator.bump c = some (some none, c') ∧
      ¬Correct Allocator.bump [.push (some 5), .popHead] nothing [] := by
  refine ⟨_, _, rfl, rfl, ?_⟩
  rintro ⟨-, c', hrun, hc'⟩
  exact represents_nothing.add_nothing (show (Op.push (some 5)).Adds from trivial) hrun hc'.represents

end Queue

end Mowgli
